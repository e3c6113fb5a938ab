import LFBenchmarks.Framework.Output
import LFBenchmarks.FlyByWire.Determinism

namespace LFBenchmarks.FlyByWire

abbrev Line := List Char

section Format

/-- `%d` and `%lld`. -/
def intText (n : Int) : Line := (if n < 0 then ['-'] else []) ++ Nat.toDigits 10 n.natAbs

variable {V : Type*} [Field V] [LinearOrder V] [FloorRing V]

/-- To the nearest integer, ties to the even one. -/
def roundEven (x : V) : Int :=
  let down := ⌊x⌋
  if Int.fract x < 0.5 ∨ (Int.fract x = 0.5 ∧ down % 2 = 0) then down else down + 1

/-- `%.4f`. -/
def fixedText (v : V) : Line :=
  let n := (roundEven (|v| * ((10000 : Nat) : V))).toNat
  let fraction := Nat.toDigits 10 (n % 10000)
  (if v < 0 then ['-'] else []) ++ Nat.toDigits 10 (n / 10000) ++
    '.' :: (List.replicate (4 - fraction.length) '0' ++ fraction)

end Format

section Instances

def pfc1 : Fin 3 := (Fin.last 0).castSucc.castSucc

def pfc2 : Fin 3 := (Fin.last 1).castSucc

def pfc3 : Fin 3 := Fin.last 2

@[simp] theorem pfc1_eq : pfc1 = 0 := rfl

@[simp] theorem pfc2_eq : pfc2 = 1 := rfl

@[simp] theorem pfc3_eq : pfc3 = 2 := rfl

end Instances

section Messages

/-- What the reactors of the controlled build print, with the values in it. They are those of `fbw.lf`
but for the failure generator. -/
inductive Message (V : Type*) where
  | stopped (i : Fin 3)
  | killed (i : Fin 3)
  | resumed (i : Fin 3)
  | biasScheduled (i : Fin 3)
  | endOfData (i : Fin 3) (counter : Int)
  | biasApplied (i : Fin 3) (nominal transmitted : V)
  | agree (speed : V)
  | discordant (i : Fin 3) (samples : Fin 3 → SpeedMsg V)
  | noTwoAgree (samples : Fin 3 → SpeedMsg V)
  | sent (fault : String)
  | faulty (i : Fin 3)
  | terminating
  | finished

/-- A line of a PFC that has no file goes through `lf_print_error`, without a time. -/
inductive Printed (V : Type*) where
  | cannotOpen (i : Fin 3)
  | at (t : Nat) (msg : Message V)

def pfcText (i : Fin 3) : Line := "PFC".toList ++ intText (i.val + 1)

/-- The reactor's name and the blanks that fill it up. -/
def Message.reactor {V : Type*} : Message V → Line × Line
  | .stopped i => (pfcText i, [' ', ' '])
  | .killed i => (pfcText i, [' ', ' '])
  | .resumed i => (pfcText i, [' ', ' '])
  | .biasScheduled i => (pfcText i, [' ', ' '])
  | .endOfData i _ => (pfcText i, [' ', ' '])
  | .biasApplied i _ _ => (pfcText i, [' ', ' '])
  | .agree _ => ("WES".toList, [' ', ' ', ' '])
  | .discordant _ _ => ("WES".toList, [' ', ' ', ' '])
  | .noTwoAgree _ => ("WES".toList, [' ', ' ', ' '])
  | .sent _ => ("FMAN".toList, [' ', ' '])
  | .faulty _ => ("PFCDS".toList, [' '])
  | .terminating => ("PFCDS".toList, [' '])
  | .finished => ("PFCDS".toList, [' '])

variable {V : Type*} [Field V] [LinearOrder V] [FloorRing V]

def sampleText (msg : SpeedMsg V) : Line :=
  "=\x7bc=".toList ++ intText msg.counter ++ ",s=".toList ++ fixedText msg.speed ++ ['\x7d']

def samplesText (samples : Fin 3 → SpeedMsg V) : Line :=
  "PFC1".toList ++ sampleText (samples pfc1) ++ " PFC2".toList ++ sampleText (samples pfc2) ++
    " PFC3".toList ++ sampleText (samples pfc3)

/-- What stands behind the time. -/
def Message.body : Message V → Line
  | .stopped _ => "STOPPED by failure generator".toList
  | .killed _ => "KILLED by failure generator".toList
  | .resumed _ => "RESUMED by failure generator".toList
  | .biasScheduled _ => "BIAS scheduled".toList
  | .endOfData _ counter =>
    "End of G18.txt reached (counter=".toList ++ intText counter ++ ")".toList
  | .biasApplied _ nominal transmitted =>
    "BIAS applied: ".toList ++ fixedText nominal ++ " -> ".toList ++ fixedText transmitted
  | .agree speed => "OK: all speeds agree: ".toList ++ fixedText speed
  | .discordant i samples =>
    "ERROR: ".toList ++ pfcText i ++ " discordant | ".toList ++ samplesText samples
  | .noTwoAgree samples => "EMERGENCY: no two PFCs agree | ".toList ++ samplesText samples
  | .sent fault => "TEST: ".toList ++ fault.toList
  | .faulty i => "ERROR: ".toList ++ pfcText i ++ " faulty. Logged.".toList
  | .terminating => "EMERGENCY: all PFCs disagree! Terminating system.".toList
  | .finished => "All PFCs finished. Shutting down.".toList

/-- `[NAME ] T=%lld s | ` and the message. -/
def Printed.line : Printed V → Line
  | .cannotOpen i => "ERROR: ".toList ++ pfcText i ++ ": Cannot open G18.txt".toList
  | .at t msg =>
    '[' :: (msg.reactor.1 ++ (msg.reactor.2 ++ (']' :: ' ' :: 'T' :: '=' ::
      (intText t ++ (' ' :: 's' :: ' ' :: '|' :: ' ' :: msg.body)))))

end Messages

section Prints

variable {V : Type*} [Field V] [LinearOrder V] [FloorRing V]

/-- A fault of the controlled sequence: the PFC it is for, the message and what FMAN prints. -/
structure ControlledFault where
  target : Fin 3
  msg : FaultMsg
  text : String

def controlledFault (t : Nat) : Option ControlledFault :=
  if t = 5 then some ⟨pfc2, ⟨true, false, false, false⟩, "STOP sent to PFC2"⟩
  else if t = 8 then some ⟨pfc2, ⟨false, false, true, false⟩, "CONT sent to PFC2"⟩
  else if t = 640 then some ⟨pfc3, ⟨false, false, false, true⟩, "BIAS sent to PFC3"⟩
  else none

/-- `FailureGenerator` of the controlled build. Its state counts the firings of the timer, whose
first one is at 2 s. -/
def controlledFaults : FaultSource where
  offset := 2
  react fired := (fired + 1, fun i =>
    (controlledFault (fired + 2)).bind fun f => if f.target = i then some f.msg else none)

/-- The controlled build: a timeout of 645 s. -/
noncomputable def controlledEnv (fopen : String → Option (List Char)) : Env ℝ :=
  ⟨fopen, haversineDistance, controlledFaults, 645⟩

/-- `lf_time_logical_elapsed` in whole seconds. Nothing is printed at the stop tag. -/
def Tag.seconds : Tag → Nat
  | .tick n => n
  | .vote n => n
  | .shutdown => 0

def Pfc.startupPrints (fopen : String → Option (List Char)) (i : Fin 3) : List (Printed V) :=
  if openG18 fopen = none then [.cannotOpen i] else []

def Pfc.faultPrints (i : Fin 3) (fault : FaultMsg) (p : Pfc V) : List (Message V) :=
  let stops := fault.stop && p.alive && p.active
  let active := if stops then false else p.active
  let kills := fault.interrupt && p.alive
  let alive := if kills then false else p.alive
  let resumes := fault.cont && alive && !active
  let biases := fault.bias && alive
  (if stops then [.stopped i] else []) ++ (if kills then [.killed i] else []) ++
    (if resumes then [.resumed i] else []) ++ (if biases then [.biasScheduled i] else [])

def Pfc.timerPrints (distance : GllFix → GllFix → V) (i : Fin 3) (p : Pfc V) :
    List (Message V) :=
  match p.fp with
  | none => []
  | some stream =>
    if !p.alive || p.eofReached then []
    else
      match nextFix stream with
      | (none, _) => [.endOfData i p.counter]
      | (some fix, _) =>
        let nominalSpeed :=
          if p.hasPrev then computeSpeed distance p.accumulatedSpeed p.prevFix fix else 0
        if !p.active then []
        else if p.bias then [.biasApplied i nominalSpeed (applyBias nominalSpeed)] else []

def Wes.votePrints (w : Wes V) : List (Message V) :=
  if !w.hasS pfc1 && !w.hasS pfc2 && !w.hasS pfc3 then []
  else if (w.valid pfc1).toNat + (w.valid pfc2).toNat + (w.valid pfc3).toNat = 0 then []
  else
    match w.result with
    | .ok => [.agree (w.lastS pfc1).speed]
    | .errorPfc i => [.discordant i w.lastS]
    | .emergency => [.noTwoAgree w.lastS]
    | .exit => []

def Status.prints : Status → List (Message V)
  | .ok => []
  | .errorPfc i => [.faulty i]
  | .emergency => [.terminating]
  | .exit => [.finished]

def failurePrints (t : Nat) : List (Message V) :=
  (controlledFault t).elim [] (fun f => [.sent f.text])

/-- What a reaction prints at a tag, from the state it starts in. -/
def prints (E : Env V) (tag : Tag) (r : Reaction) (s : Sys V) : List (Printed V) :=
  match r with
  | .pfcStartup i => Pfc.startupPrints E.fopen i
  | .pfcFaultIn i =>
    (s.fault i).elim [] (fun fault => ((s.pfc i).faultPrints i fault).map (.at tag.seconds))
  | .pfcTimer i => ((s.pfc i).timerPrints E.distance i).map (.at tag.seconds)
  | .wesVote => s.wes.votePrints.map (.at tag.seconds)
  | .fmanTimer => (failurePrints tag.seconds).map (.at tag.seconds)
  | .pfcdsStatus => s.status.elim [] (fun st => st.prints.map (.at tag.seconds))
  | _ => []

end Prints

section Transcript

variable {V : Type*} [Field V] [LinearOrder V] [FloorRing V]

/-- Execution of one tag with what it prints. -/
def PrintStep (E : Env V) (tag : Tag) (s s' : Sys V) (out : List (Printed V)) : Prop :=
  ∃ l, (reactions E (E.events tag)).Admissible s.clearPorts l ∧
    s' = (reactions E (E.events tag)).exec l s.clearPorts ∧
    out = (reactions E (E.events tag)).output (prints E tag) l s.clearPorts

/-- A run up to a configuration, and everything it has printed. -/
inductive Transcript (E : Env V) : Config V → List (Printed V) → Prop where
  | init : Transcript E .initial []
  | tag {c : Config V} {s' : Sys V} {tag' : Tag} {out new : List (Printed V)} :
      Transcript E c out → PrintStep E c.tag c.sys s' new → nextTag E c.tag s' = some tag' →
      Transcript E ⟨tag', s', c.log ++ s'.status.toList⟩ (out ++ new)

/-- A whole run prints `out`. -/
def PrintsAll (E : Env V) (out : List (Printed V)) : Prop :=
  ∃ c before s' new, Transcript E c before ∧ PrintStep E c.tag c.sys s' new ∧
    nextTag E c.tag s' = none ∧ out = before ++ new

end Transcript

end LFBenchmarks.FlyByWire
