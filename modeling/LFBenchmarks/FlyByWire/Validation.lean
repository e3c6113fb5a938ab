import LFBenchmarks.Framework.Terminator
import LFBenchmarks.FlyByWire.Lines

namespace LFBenchmarks.FlyByWire

open Stdio

/-- Latitude and longitude as a sentence writes them. -/
structure Position where
  latitude : Double
  longitude : Double
  deriving DecidableEq

def GllFix.position (fix : GllFix) : Position := ⟨fix.latitude, fix.longitude⟩

namespace Validation

/-- `"$GPGLL,%f,%c,%f,%c,%u,%31s"`. `%u` takes the input items of `%d`, and the number it
stores is never read. -/
def format : List Directive :=
  "$GPGLL,".toList.map .literal ++
    [.lf, .literal ',', .c, .literal ',', .lf, .literal ',', .c, .literal ',', .d, .literal ',', .s 31]

/-- The coordinates, if all six conversions succeeded. -/
def sixItems : List Item → Option Position
  | [.double lat, .char _, .double lon, .char _, .int _, .string _] => some ⟨lat, lon⟩
  | _ => none

/-- What the loop makes of one buffer, which it parses as it is. -/
def parse (line : List Char) : Option Position :=
  sixItems (sscanf format (line.takeWhile (· ≠ '\x00')))

def nextPosition (stream : List Char) : Option Position × List Char :=
  scanFor 256 parse (stream.length + 1) stream

def openG18 (fopen : String → Option (List Char)) : Option (List Char) :=
  match fopen "G18_validation.txt" with
  | some file => some file
  | none => fopen "data/G18_validation.txt"

/-- The PFC of the numerical validation build. Its fault reaction does nothing and is left out. -/
structure Pfc (V : Type*) where
  fp : Option (List Char)
  prevLat : Double
  prevLon : Double
  hasPrev : Bool
  currentSpeed : V
  counter : Int
  eofReached : Bool

section Pfc

variable {V : Type*} [Field V]

def Pfc.initial : Pfc V := ⟨none, .finite 0, .finite 0, false, 0, -1, false⟩

def Pfc.startup (fopen : String → Option (List Char)) (p : Pfc V) : Pfc V :=
  { p with fp := openG18 fopen }

/-- `reaction(t)` over a distance function: the speed sent is the one of the sample before. -/
def Pfc.timer (distance : Position → Position → V) (p : Pfc V) :
    Pfc V × Option (SpeedMsg V) :=
  match p.fp with
  | none => (p, none)
  | some stream =>
    if p.eofReached then (p, none)
    else
      match nextPosition stream with
      | (none, rest) => ({ p with fp := some rest, eofReached := true }, none)
      | (some fix, rest) =>
        let nextSpeed :=
          if !p.hasPrev then p.currentSpeed
          else p.currentSpeed + distance ⟨p.prevLat, p.prevLon⟩ fix / 1
        let counter := p.counter + 1
        let transmittedSpeed := p.currentSpeed
        ({ p with
            fp := some rest, hasPrev := true, counter := counter, currentSpeed := nextSpeed,
            prevLat := fix.latitude, prevLon := fix.longitude },
          some ⟨counter, transmittedSpeed, true⟩)

/-- State at the start of tick `n`. -/
def Pfc.run (fopen : String → Option (List Char)) (distance : Position → Position → V) :
    Nat → Pfc V
  | 0 => Pfc.initial.startup fopen
  | n + 1 => ((Pfc.run fopen distance n).timer distance).1

def Pfc.sent (fopen : String → Option (List Char)) (distance : Position → Position → V)
    (n : Nat) : Option (SpeedMsg V) :=
  ((Pfc.run fopen distance n).timer distance).2

/-- The fix tick `n` takes from the file: the one kept when a sample is counted. -/
def Pfc.consumed (fopen : String → Option (List Char)) (distance : Position → Position → V)
    (n : Nat) : Option Position :=
  let p := Pfc.run fopen distance n
  let q := Pfc.run fopen distance (n + 1)
  if q.counter = p.counter then none else some ⟨q.prevLat, q.prevLon⟩

end Pfc

section Distance

/-- The haversine distance as the reaction spells it out, with `acos` and the other functions
of `math.h` read as the real ones. -/
noncomputable def distance (prev next : Position) : ℝ :=
  let lat := coordinate next.latitude
  let lon := coordinate next.longitude
  let prevLat := coordinate prev.latitude
  let prevLon := coordinate prev.longitude
  let dLat := ((lat - prevLat) * Real.arccos (-1)) / 180.0
  let dLon := ((lon - prevLon) * Real.arccos (-1)) / 180.0
  let startLat := (prevLat * Real.arccos (-1)) / 180.0
  let endLat := (lat * Real.arccos (-1)) / 180.0
  let hA := Real.sin (dLat / 2.0) ^ 2 +
    Real.sin (dLon / 2.0) ^ 2 * Real.cos startLat * Real.cos endLat
  let hC := 2.0 * atan2 (Real.sqrt hA) (Real.sqrt (1 - hA))
  6371 * hC

/-- Both builds compute the same distance. -/
theorem distance_eq (f g : GllFix) : haversineDistance f g = distance f.position g.position := by
  have h180 : (180.0 : ℝ) = 180 := by norm_num
  simp only [haversineDistance, haversineHa, distance, degreesToRadians, GllFix.position,
    Real.arccos_neg_one, earthRadiusKm, h180, Nat.cast_ofNat]

end Distance

section Track

variable {V : Type*} [Field V]

def acceptedPositions (stream : List Char) : List Position := (allReads 256 stream).filterMap parse

theorem nextPosition_spec (stream : List Char) :
    (nextPosition stream).1 = (acceptedPositions stream).head? ∧
      acceptedPositions (nextPosition stream).2 = (acceptedPositions stream).tail := by
  have hsize : 2 ≤ 256 := by decide
  obtain ⟨hfound, hrest, -⟩ := scanFor_spec parse hsize (stream.length + 1) stream (by omega)
  exact ⟨hfound, hrest⟩

/-- The distances flown from fix to fix, added up to fix `n`. -/
def speedAt (distance : Position → Position → V) (fixes : List Position) : Nat → V
  | 0 => 0
  | n + 1 => speedAt distance fixes n +
      distance (fixes.getD n GllFix.zero.position) (fixes.getD (n + 1) GllFix.zero.position)

/-- Before end of data: `n` fixes are consumed and the stream holds the others. -/
structure OnTrack (distance : Position → Position → V) (fixes : List Position) (n : Nat)
    (p : Pfc V) : Prop where
  fp : ∃ rest, p.fp = some rest ∧ acceptedPositions rest = fixes.drop n
  eofReached : p.eofReached = false
  counter : p.counter = n - 1
  hasPrev : p.hasPrev = decide (0 < n)
  speed : p.currentSpeed = speedAt distance fixes (n - 1)
  prev : 0 < n → ⟨p.prevLat, p.prevLon⟩ = fixes.getD (n - 1) GllFix.zero.position

variable {distance : Position → Position → V} {fixes : List Position} {n : Nat} {p : Pfc V}

theorem OnTrack.next (h : OnTrack distance fixes n p) (hn : n < fixes.length) :
    OnTrack distance fixes (n + 1) (p.timer distance).1 ∧
      (p.timer distance).2 = some ⟨n, speedAt distance fixes (n - 1), true⟩ := by
  obtain ⟨fp, prevLat, prevLon, hasPrev, currentSpeed, counter, eofReached⟩ := p
  obtain ⟨⟨stream, hfp, hstream⟩, heof, hcounter, hprev, hspeed, hlast⟩ := h
  dsimp only at hfp heof hcounter hprev hspeed hlast
  subst hfp heof hcounter hprev hspeed
  obtain ⟨hfound, hrest⟩ := nextPosition_spec stream
  rw [hstream, List.tail_drop] at hrest
  have hget : fixes.getD n GllFix.zero.position = fixes[n] := by simp [hn]
  rw [hstream, List.head?_drop, List.getElem?_eq_getElem hn] at hfound
  obtain ⟨rest, hnext⟩ : ∃ rest, nextPosition stream = (some fixes[n], rest) :=
    ⟨_, Prod.ext hfound rfl⟩
  rw [hnext] at hrest
  simp only [Pfc.timer, hnext]
  refine ⟨⟨⟨rest, rfl, hrest⟩, rfl, by simp, by simp, ?_, fun _ => hget.symm⟩, by simp⟩
  cases n with
  | zero => simp [speedAt]
  | succ n =>
    have hkept := hlast (by omega)
    simp only [Nat.add_sub_cancel] at hkept ⊢
    rw [hkept]
    simp [speedAt, List.getElem?_eq_getElem hn]

theorem OnTrack.last (h : OnTrack distance fixes n p) (hn : fixes.length ≤ n) :
    (p.timer distance).2 = none ∧ (p.timer distance).1.eofReached = true ∧
      (p.timer distance).1.counter = p.counter := by
  obtain ⟨stream, hfp, hstream⟩ := h.fp
  obtain ⟨hfound, -⟩ := nextPosition_spec stream
  rw [hstream, List.drop_eq_nil_of_le hn] at hfound
  obtain ⟨rest, hnext⟩ : ∃ rest, nextPosition stream = (none, rest) := ⟨_, Prod.ext hfound rfl⟩
  simp [Pfc.timer, hfp, h.eofReached, hnext]

theorem Pfc.timer_ended (p : Pfc V) (h : p.eofReached = true) : p.timer distance = (p, none) := by
  unfold Pfc.timer
  split
  · rfl
  · rw [if_pos h]

end Track

section Run

variable {V : Type*} [Field V] (fopen : String → Option (List Char))
  (distance : Position → Position → V) (file : List Char) (hopen : openG18 fopen = some file)

include hopen

theorem onTrack_run (n : Nat) (hn : n ≤ (acceptedPositions file).length) :
    OnTrack distance (acceptedPositions file) n (Pfc.run fopen distance n) := by
  induction n with
  | zero => exact ⟨⟨file, hopen, rfl⟩, rfl, rfl, rfl, rfl, fun h => by omega⟩
  | succ n ih => exact ((ih (by omega)).next (by omega)).1

theorem ended_run (n : Nat) (hn : (acceptedPositions file).length ≤ n) :
    (Pfc.run fopen distance (n + 1)).eofReached = true := by
  induction n, hn using Nat.le_induction with
  | base => exact ((onTrack_run fopen distance file hopen _ le_rfl).last le_rfl).2.1
  | succ n hn ih =>
    rw [Pfc.run, Pfc.timer_ended _ ih]
    exact ih

theorem sent_eq (n : Nat) :
    Pfc.sent fopen distance n =
      if n < (acceptedPositions file).length then
        some ⟨n, speedAt distance (acceptedPositions file) (n - 1), true⟩
      else none := by
  unfold Pfc.sent
  split_ifs with hn
  · exact ((onTrack_run fopen distance file hopen n hn.le).next hn).2
  · rcases Nat.eq_or_lt_of_le (not_lt.mp hn) with heq | hlt
    · exact ((onTrack_run fopen distance file hopen n heq.ge).last heq.le).1
    · obtain ⟨k, rfl⟩ : ∃ k, n = k + 1 := ⟨n - 1, by omega⟩
      rw [Pfc.timer_ended _ (ended_run fopen distance file hopen k (by omega))]

theorem consumed_eq (n : Nat) :
    Pfc.consumed fopen distance n = (acceptedPositions file)[n]? := by
  unfold Pfc.consumed
  rcases Nat.lt_or_ge n (acceptedPositions file).length with hn | hn
  · have hnow := onTrack_run fopen distance file hopen n hn.le
    have hnext := onTrack_run fopen distance file hopen (n + 1) hn
    have hprev := hnext.prev (by omega)
    simp only [hnow.counter, hnext.counter, hprev]
    rw [if_neg (by push_cast; omega)]
    simp [List.getElem?_eq_getElem hn]
  · have hsame : (Pfc.run fopen distance (n + 1)).counter = (Pfc.run fopen distance n).counter := by
      rcases Nat.eq_or_lt_of_le hn with heq | hlt
      · exact ((onTrack_run fopen distance file hopen n heq.ge).last heq.le).2.2
      · obtain ⟨k, rfl⟩ : ∃ k, n = k + 1 := ⟨n - 1, by omega⟩
        rw [Pfc.run, Pfc.timer_ended _ (ended_run fopen distance file hopen k (by omega))]
    simp [hsame, hn]

end Run

end Validation

end LFBenchmarks.FlyByWire
