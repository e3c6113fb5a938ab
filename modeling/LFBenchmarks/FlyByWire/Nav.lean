import LFBenchmarks.Framework.Stdio

namespace LFBenchmarks.FlyByWire

open Stdio

def earthRadiusKm : Nat := 6371

def deltaSec : Nat := 1

def gpgllSentence : List Char := "$GPGLL".toList

/-- The voting result of WES; `errorPfc i` names PFC number `i + 1`. -/
inductive Status where
  | ok
  | errorPfc (i : Fin 3)
  | emergency
  | exit
  deriving DecidableEq

/-- A C `int` that is only ever 0 or 1 and only tested is a `Bool`. -/
structure GllFix where
  latitude : Double
  latDir : Char
  longitude : Double
  lonDir : Char
  fixTime : Int
  valid : Bool
  deriving DecidableEq

def GllFix.zero : GllFix := ⟨.finite 0, '\x00', .finite 0, '\x00', 0, false⟩

structure SpeedMsg (V : Type*) where
  counter : Int
  speed : V
  valid : Bool
  deriving DecidableEq

def gpgllFormat : List Directive :=
  "$GPGLL,".toList.map .literal ++
    [.lf, .literal ',', .c, .literal ',', .lf, .literal ',', .c, .literal ',', .d, .literal ',', .s 31]

/-- `parse_gpgll`: the return value and the fix as the call leaves it. At least five of the
six conversions must succeed; the rest of the sentence is not looked at. -/
def parseGpgll (line : List Char) (fix : GllFix) : Bool × GllFix :=
  if gpgllSentence.isPrefixOf line then
    match sscanf gpgllFormat line with
    | .double lat :: .char latDir :: .double lon :: .char lonDir :: .int time :: _ =>
      (true, ⟨lat, latDir, lon, lonDir, time, true⟩)
    | _ => (false, { fix with valid := false })
  else (false, { fix with valid := false })

def acceptedFix (line : List Char) : Option GllFix :=
  if (parseGpgll line GllFix.zero).1 then some (parseGpgll line GllFix.zero).2 else none

/-- An accepted line overwrites every field, so what the fix held before does not matter. -/
theorem parseGpgll_accepted (line : List Char) (fix : GllFix) :
    (parseGpgll line fix).1 = (acceptedFix line).isSome ∧
      ∀ f, acceptedFix line = some f → (parseGpgll line fix).2 = f := by
  unfold acceptedFix parseGpgll
  split_ifs with hp hs
  · split <;> simp_all
  · split <;> simp_all
  · simp_all
  · simp_all

section Distance

noncomputable section

def degreesToRadians (deg : ℝ) : ℝ := deg * Real.pi / 180

/-- `atan2 (y, x)`, the argument of `x + iy`. -/
def atan2 (y x : ℝ) : ℝ := Complex.arg ⟨x, y⟩

/-- A coordinate as a real number. `inf` and `nan`, which `%lf` reads too, have none: speeds computed
from them are not those of the code, and results about the code are about finite coordinates. -/
def coordinate : Double → ℝ
  | .finite q => q
  | _ => 0

/-- The intermediate `ha` of `haversine_distance`. -/
def haversineHa (start finish : GllFix) : ℝ :=
  let dLat := degreesToRadians (coordinate finish.latitude - coordinate start.latitude)
  let dLon := degreesToRadians (coordinate finish.longitude - coordinate start.longitude)
  let sLat := degreesToRadians (coordinate start.latitude)
  let eLat := degreesToRadians (coordinate finish.latitude)
  Real.sin (dLat / 2.0) ^ 2 + Real.sin (dLon / 2.0) ^ 2 * Real.cos sLat * Real.cos eLat

/-- `haversine_distance`, with the functions of `math.h` read as the real ones. -/
def haversineDistance (start finish : GllFix) : ℝ :=
  let ha := haversineHa start finish
  let hc := 2.0 * atan2 (Real.sqrt ha) (Real.sqrt (1 - ha))
  earthRadiusKm * hc

end

end Distance

section Speed

variable {V : Type*} [Field V] [LinearOrder V] [FloorRing V]

/-- `compute_speed` over a distance function, the haversine distance in the shipped build. -/
def computeSpeed (distance : GllFix → GllFix → V) (prevSpeed : V) (prevFix currFix : GllFix) : V :=
  prevSpeed + distance prevFix currFix / (deltaSec : V)

def roundAway (x : V) : Int := if 0 ≤ x then ⌊x + 0.5⌋ else -⌊-x + 0.5⌋

/-- `apply_bias`: the rounded speed shifted left by two bits. -/
def applyBias (speed : V) : V := ((roundAway speed <<< (2 : Nat) : Int) : V)

omit [LinearOrder V] [FloorRing V] in
theorem computeSpeed_eq (distance : GllFix → GllFix → V) (v : V) (f g : GllFix) :
    computeSpeed distance v f g = v + distance f g := by simp [computeSpeed, deltaSec]

theorem applyBias_eq (v : V) : applyBias v = 4 * (roundAway v : V) := by
  simp [applyBias, Int.shiftLeft_eq, mul_comm]

end Speed

end LFBenchmarks.FlyByWire
