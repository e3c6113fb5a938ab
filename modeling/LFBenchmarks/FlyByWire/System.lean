import LFBenchmarks.Framework.Schedule
import LFBenchmarks.FlyByWire.Reactors

namespace LFBenchmarks.FlyByWire

/-- What a run is given: the files, the distance function, the failure generator and the
target timeout in seconds. -/
structure Env (V : Type*) where
  fopen : String → Option (List Char)
  distance : GllFix → GllFix → V
  source : FaultSource
  timeout : Nat

/-- The shipped build: real haversine distances, `FailureGenerator` and a timeout of 750 s. -/
noncomputable def shippedEnv (fopen : String → Option (List Char)) (randMax : Nat)
    (rand : Nat → Nat) : Env ℝ :=
  ⟨fopen, haversineDistance, failureGenerator randMax rand, 750⟩

/-- The main reactor: the state of every reactor, whether a stop was requested, and the port
values of the current tag. A connected pair of ports is one port. -/
structure Sys (V : Type*) where
  pfc : Fin 3 → Pfc V
  wes : Wes V
  fman : Nat
  stopRequested : Bool
  fault : Fin 3 → Option FaultMsg
  speedOut : Fin 3 → Option (SpeedMsg V)
  transOut : Fin 3 → Option (SpeedMsg V)
  status : Option Status

inductive Reaction where
  | pfcStartup (i : Fin 3)
  | pfcFaultIn (i : Fin 3)
  | pfcTimer (i : Fin 3)
  | pfcShutdown (i : Fin 3)
  | transSpeed (i : Fin 3)
  | wesSpeed (i : Fin 3)
  | wesVote
  | fmanStartup
  | fmanTimer
  | pfcdsStatus
  deriving DecidableEq, Fintype

structure Events where
  startup : Bool
  pfcTimer : Bool
  fmanTimer : Bool
  voteTick : Bool
  shutdown : Bool

/-- Declaration order inside a reactor, and writers of a port before its readers. -/
def precedes : Reaction → Reaction → Bool
  | .pfcStartup i, .pfcFaultIn j => i = j
  | .pfcStartup i, .pfcTimer j => i = j
  | .pfcStartup i, .pfcShutdown j => i = j
  | .pfcFaultIn i, .pfcTimer j => i = j
  | .pfcFaultIn i, .pfcShutdown j => i = j
  | .pfcTimer i, .pfcShutdown j => i = j
  | .transSpeed i, .transSpeed j => i < j
  | .wesSpeed i, .wesSpeed j => i < j
  | .wesSpeed _, .wesVote => true
  | .fmanStartup, .fmanTimer => true
  | .fmanTimer, .pfcFaultIn _ => true
  | .pfcTimer i, .transSpeed j => i = j
  | .transSpeed i, .wesSpeed j => i = j
  | .wesVote, .pfcdsStatus => true
  | _, _ => false

section Reactions

variable {V : Type*} [Field V] [LinearOrder V] [FloorRing V]

def Sys.initial : Sys V :=
  ⟨fun _ => .initial, .initial, 0, false, fun _ => none, fun _ => none, fun _ => none, none⟩

/-- Ports are absent at the start of every tag. -/
def Sys.clearPorts (s : Sys V) : Sys V :=
  { s with fault := fun _ => none, speedOut := fun _ => none, transOut := fun _ => none,
           status := none }

def triggered (ev : Events) (r : Reaction) (s : Sys V) : Bool :=
  match r with
  | .pfcStartup _ => ev.startup
  | .pfcFaultIn i => (s.fault i).isSome
  | .pfcTimer _ => ev.pfcTimer
  | .pfcShutdown _ => ev.shutdown
  | .transSpeed i => (s.speedOut i).isSome
  | .wesSpeed i => (s.transOut i).isSome
  | .wesVote => ev.voteTick
  | .fmanStartup => ev.startup
  | .fmanTimer => ev.fmanTimer
  | .pfcdsStatus => s.status.isSome

/-- The body of a reaction on the whole system. `lf_set` replaces a port's value, and a port
no reaction sets keeps what it had. -/
def react (E : Env V) (r : Reaction) (s : Sys V) : Sys V :=
  match r with
  | .pfcStartup i => { s with pfc := Function.update s.pfc i ((s.pfc i).startup E.fopen) }
  | .pfcFaultIn i =>
    match s.fault i with
    | some fault => { s with pfc := Function.update s.pfc i ((s.pfc i).faultIn fault) }
    | none => s
  | .pfcTimer i =>
    let (p, msg) := (s.pfc i).timer E.distance
    { s with pfc := Function.update s.pfc i p,
             speedOut := Function.update s.speedOut i (msg <|> s.speedOut i) }
  | .pfcShutdown i => { s with pfc := Function.update s.pfc i (s.pfc i).shutdown }
  | .transSpeed i => { s with transOut := Function.update s.transOut i (s.speedOut i) }
  | .wesSpeed i =>
    match s.transOut i with
    | some msg => { s with wes := s.wes.capture i msg }
    | none => s
  | .wesVote =>
    let (w, result) := s.wes.voteTick
    { s with wes := w, status := result <|> s.status }
  | .fmanStartup => { s with fman := 0 }
  | .fmanTimer =>
    let (calls, msgs) := E.source.react s.fman
    { s with fman := calls, fault := fun i => msgs i <|> s.fault i }
  | .pfcdsStatus =>
    match s.status with
    | some st => { s with stopRequested := s.stopRequested || st.requestsStop }
    | none => s

def reactions (E : Env V) (ev : Events) : ReactionSystem Reaction (Sys V) where
  triggered := triggered ev
  body := react E
  prec a b := precedes a b = true

instance (E : Env V) (ev : Events) : DecidableRel (reactions E ev).prec :=
  fun a b => inferInstanceAs (Decidable (precedes a b = true))

/-- All reactions, each before the ones it precedes. -/
def reactionOrder : List Reaction :=
  [.fmanStartup, .fmanTimer] ++
    (List.finRange 3).flatMap (fun i => [.pfcStartup i, .pfcFaultIn i, .pfcTimer i, .pfcShutdown i]) ++
    (List.finRange 3).map .transSpeed ++ (List.finRange 3).map .wesSpeed ++ [.wesVote, .pfcdsStatus]

end Reactions

section Run

/-- The tags of a run: tick `n` at `n` seconds, vote `n` half a second later, and the stop tag
a request leads to. -/
inductive Tag where
  | tick (n : Nat)
  | vote (n : Nat)
  | shutdown
  deriving DecidableEq

variable {V : Type*} [Field V] [LinearOrder V] [FloorRing V]

/-- Timers `t(0, 1 sec)`, `vote_tick(500 msec, 1 sec)` and the generator's own one. The tick
at the timeout is the stop tag. -/
def Env.events (E : Env V) : Tag → Events
  | .tick n => ⟨n = 0, true, E.source.offset ≤ n, false, n = E.timeout⟩
  | .vote _ => ⟨false, false, false, true, false⟩
  | .shutdown => ⟨false, false, false, false, true⟩

/-- Execution of one tag: the reactions it triggers, in any admissible order. -/
def TagStep (E : Env V) (tag : Tag) (s s' : Sys V) : Prop :=
  ∃ l, (reactions E (E.events tag)).Admissible s.clearPorts l ∧
    s' = (reactions E (E.events tag)).exec l s.clearPorts

/-- The tag after the given one, from the state in which that one ended. A requested stop
comes before the next timer event. -/
def nextTag (E : Env V) (tag : Tag) (s : Sys V) : Option Tag :=
  match tag with
  | .tick n => if n < E.timeout then some (.vote n) else none
  | .vote n => if s.stopRequested then some .shutdown else some (.tick (n + 1))
  | .shutdown => none

/-- Where a run stands: the tag to execute next, the state in which it starts, whose ports
still hold the values of the tag before, and the statuses emitted so far. -/
structure Config (V : Type*) where
  tag : Tag
  sys : Sys V
  log : List Status

def Config.initial : Config V := ⟨.tick 0, .initial, []⟩

inductive Step (E : Env V) : Config V → Config V → Prop where
  | tag {c : Config V} {s' : Sys V} {tag' : Tag} : TagStep E c.tag c.sys s' →
      nextTag E c.tag s' = some tag' → Step E c ⟨tag', s', c.log ++ s'.status.toList⟩

def Run (E : Env V) (c : Config V) : Prop := Relation.ReflTransGen (Step E) .initial c

def Reaches (E : Env V) (tag : Tag) (s : Sys V) : Prop := ∃ log, Run E ⟨tag, s, log⟩

/-- A run ends after emitting the statuses `log`. -/
def Finishes (E : Env V) (log : List Status) : Prop :=
  ∃ c s', Run E c ∧ TagStep E c.tag c.sys s' ∧ nextTag E c.tag s' = none ∧
    log = c.log ++ s'.status.toList

end Run

section Flight

/-- The generator addresses PFC 2 and sends BIAS alone. -/
def biasToSecond (k : Nat) : Nat := if k = 4 then 0 else 1

def fourSentences : List Char :=
  (List.replicate 4 "$GPGLL,4547.1234,N,00856.5,E,123456,A*33\r\n".toList).flatten

/-- A flight of four fixes, each one unit from the last, with a bias for PFC 2 at tick 2. -/
def biasedEnv : Env ℚ :=
  ⟨fun _ => some fourSentences, fun _ _ => 1, failureGenerator 1 biasToSecond, 750⟩

end Flight

end LFBenchmarks.FlyByWire
