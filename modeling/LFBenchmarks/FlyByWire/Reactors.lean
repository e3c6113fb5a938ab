import LFBenchmarks.FlyByWire.Nav

namespace LFBenchmarks.FlyByWire

open Stdio

/-- Every fault generated for one PFC at one tag. A reaction body is a function from the reactor's state
and the values of its triggers to the new state and the values it sets on its outputs. -/
structure FaultMsg where
  stop : Bool
  interrupt : Bool
  cont : Bool
  bias : Bool
  deriving DecidableEq

section Pfc

/-- State of a PFC. `fp` is the unread rest of its own stream, `none` for a null pointer. -/
structure Pfc (V : Type*) where
  fp : Option (List Char)
  prevFix : GllFix
  hasPrev : Bool
  accumulatedSpeed : V
  counter : Int
  active : Bool
  alive : Bool
  bias : Bool
  eofReached : Bool

/-- The GPS file as `fopen` finds it, on either path. -/
def openG18 (fopen : String → Option (List Char)) : Option (List Char) :=
  match fopen "G18.txt" with
  | some file => some file
  | none => fopen "data/G18.txt"

/-- The scanning loop of the timer reaction: reads lines until one parses as a fix. -/
def scanLoop : Nat → List Char → GllFix → Option GllFix × List Char
  | 0, stream, _ => (none, stream)
  | fuel + 1, stream, fix =>
    match fgets 256 stream with
    | none => (none, stream)
    | some (line, rest) =>
      let (found, fix) := parseGpgll (terminateAt line (strcspn line ['\r', '\n'])) fix
      if found then (some fix, rest) else scanLoop fuel rest fix

/-- The next fix of a stream and what is left of it. Every line read has at least one byte,
so the loop ends before its fuel does. -/
def nextFix (stream : List Char) : Option GllFix × List Char :=
  scanLoop (stream.length + 1) stream GllFix.zero

variable {V : Type*} [Field V] [LinearOrder V] [FloorRing V]

def Pfc.initial : Pfc V := ⟨none, GllFix.zero, false, 0, -1, true, true, false, false⟩

def Pfc.startup (fopen : String → Option (List Char)) (p : Pfc V) : Pfc V :=
  { p with fp := openG18 fopen, prevFix := GllFix.zero }

/-- `reaction(fault_in)`: STOP, INT, CONT, then BIAS. -/
def Pfc.faultIn (fault : FaultMsg) (p : Pfc V) : Pfc V :=
  let p := if fault.stop && p.alive && p.active then { p with active := false } else p
  let p := if fault.interrupt && p.alive then { p with alive := false } else p
  let p := if fault.cont && p.alive && !p.active then { p with active := true } else p
  if fault.bias && p.alive then { p with bias := true } else p

/-- `reaction(t)`: consumes one fix and sends its speed, unless stopped. -/
def Pfc.timer (distance : GllFix → GllFix → V) (p : Pfc V) : Pfc V × Option (SpeedMsg V) :=
  match p.fp with
  | none => (p, none)
  | some stream =>
    if !p.alive || p.eofReached then (p, none)
    else
      match nextFix stream with
      | (none, rest) => ({ p with fp := some rest, eofReached := true }, none)
      | (some fix, rest) =>
        let nominalSpeed :=
          if p.hasPrev then computeSpeed distance p.accumulatedSpeed p.prevFix fix else 0
        let p := { p with
          fp := some rest, hasPrev := true, accumulatedSpeed := nominalSpeed, prevFix := fix,
          counter := p.counter + 1 }
        if !p.active then (p, none)
        else
          let transmittedSpeed := if p.bias then applyBias nominalSpeed else nominalSpeed
          ({ p with bias := false }, some ⟨p.counter, transmittedSpeed, true⟩)

/-- `reaction(shutdown)`: after `fclose` there is no stream to read. -/
def Pfc.shutdown (p : Pfc V) : Pfc V := { p with fp := none }

end Pfc

section Wes

variable {V : Type*}

/-- State of WES: `lastS` and `hasS` hold the three captured samples and their flags. No
reaction writes `finishedCount`. -/
structure Wes (V : Type*) where
  lastS : Fin 3 → SpeedMsg V
  hasS : Fin 3 → Bool
  finishedCount : Int

def Wes.initial [Zero V] : Wes V := ⟨fun _ => ⟨0, 0, false⟩, fun _ => false, 0⟩

def Wes.capture (i : Fin 3) (msg : SpeedMsg V) (w : Wes V) : Wes V :=
  { w with lastS := Function.update w.lastS i msg, hasS := Function.update w.hasS i true }

def Wes.valid (w : Wes V) (i : Fin 3) : Bool := w.hasS i && (w.lastS i).valid

variable [DecidableEq V]

def Wes.matching (w : Wes V) (i j : Fin 3) : Bool :=
  w.valid i && w.valid j && decide ((w.lastS i).counter = (w.lastS j).counter) &&
    decide ((w.lastS i).speed = (w.lastS j).speed)

def Wes.result (w : Wes V) : Status :=
  if w.matching 0 1 && w.matching 0 2 then .ok
  else if w.matching 0 1 then .errorPfc 2
  else if w.matching 0 2 then .errorPfc 1
  else if w.matching 1 2 then .errorPfc 0
  else .emergency

/-- `reaction(vote_tick)`. Only the last exit clears the capture flags. -/
def Wes.voteTick (w : Wes V) : Wes V × Option Status :=
  if !w.hasS 0 && !w.hasS 1 && !w.hasS 2 then (w, none)
  else if (w.valid 0).toNat + (w.valid 1).toNat + (w.valid 2).toNat = 0 then (w, none)
  else ({ w with hasS := fun _ => false }, some w.result)

end Wes

/-- A failure generator: the offset of its timer in seconds, and what its timer reaction does
with the number of `rand` calls made so far and sets on the three fault ports. -/
structure FaultSource where
  offset : Nat
  react : Nat → Nat × (Fin 3 → Option FaultMsg)

/-- `FailureGenerator` with the values successive `rand` calls return after `srand`. -/
def failureGenerator (randMax : Nat) (rand : Nat → Nat) : FaultSource where
  offset := 2
  react calls :=
    let selected := rand calls % 3
    let r (k : Nat) : Rat := (rand (calls + k) : Rat) / randMax
    let msg : FaultMsg := ⟨r 1 ≤ 1 / 100, r 2 ≤ 1 / 10000, r 3 ≤ 1 / 10, r 4 ≤ 1 / 10⟩
    (calls + 5, fun i =>
      if (msg.stop || msg.interrupt || msg.cont || msg.bias) ∧ selected = i.val then some msg
      else none)

/-- A generator that sets prescribed messages, any of them at any second. -/
def scheduledFaults (faults : Nat → Fin 3 → Option FaultMsg) : FaultSource where
  offset := 0
  react n := (n + 1, faults n)

/-- `DisconnectSwitch`: whether the status makes it request the stop. -/
def Status.requestsStop : Status → Bool
  | .emergency => true
  | .exit => true
  | _ => false

end LFBenchmarks.FlyByWire
