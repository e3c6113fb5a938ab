import LFBenchmarks.Federated.Eimt

namespace LFBenchmarks.Federated

open ReactorC

/-- What a federate (`federate.c`, `reactor_threaded.c`) writes to the infrastructure. -/
inductive ToRti (K : Type)
  | nextEventTag (tag : Tag)
  | latestTagConfirmed (tag : Tag)
  | taggedMessage (port : K) (tag : Tag)
  | resign

/-- Where the threads of a federate are: about to ask for a tag, in the loop of
`lf_send_next_event_tag` that waits for one, back from it, at work on the reactions of a tag, done with
all of them, resigned, or cut off. -/
inductive Phase
  | ready
  | awaiting (tag : Tag)
  | granted
  | executing
  | stopped
  | resigned
  | closed
  deriving DecidableEq

/-- The event queue holds the trigger of each event, the port of the network input it is for if it is
for one. `tardy` is set when a message comes in that is not in the future. -/
structure Federate (K : Type) where
  eventQueue : List (Option K × Tag)
  currentTag : Tag
  executionStarted : Bool
  phase : Phase
  needToSendLTC : Bool
  lastTAG : Tag
  lastSentLTC : Tag
  receivedAnyDNET : Bool
  lastDNET : Tag
  lastSentNET : Tag
  lastSkippedNET : Tag
  tardy : Bool
  outbox : List (ToRti K)

/-- A federation and its programs: when each one times out, what its timers put on the event queue, and
whether it has reactions at the start that no event of the queue triggers. -/
structure Federation (n : Nat) (K : Type) extends Network n K where
  stopTag : Fin n → Tag
  initialEvents : Fin n → List Tag
  reactsAtStart : Fin n → Bool
  stopTag_announced : ∀ i, toNetwork.Announced (stopTag i)
  initialEvents_inRange : ∀ i, ∀ t ∈ initialEvents i, toNetwork.InRange t

variable {n : Nat} {K : Type} (F : Federation n K)

section Federates

def Federate.write (f : Federate K) (m : ToRti K) : Federate K := { f with outbox := f.outbox ++ [m] }

def Federate.sendNET (f : Federate K) (tag : Tag) : Federate K :=
  { f.write (.nextEventTag tag) with lastSentNET := tag, lastSkippedNET := neverTag }

def getNextEventTag (i : Fin n) (f : Federate K) : Tag :=
  let nextTag := pqueueTagPeekTag (f.eventQueue.map Prod.snd)
  if lfTagCompare nextTag (F.stopTag i) > 0 then F.stopTag i else nextTag

/-- `lf_send_next_event_tag` up to the wait: what it sends, unless no federate downstream needs it. -/
def announce (i : Fin n) (f : Federate K) (tag : Tag) : Federate K :=
  if F.immediateDownstreams i = [] ∧ F.immediateUpstreams i = [] then f
  else if lfTagCompare f.lastTAG tag ≥ 0 then
    if f.receivedAnyDNET = false ∨
        lfTagCompare f.lastDNET tag < 0 ∧ lfTagCompare f.lastDNET f.lastSentNET ≥ 0 then f.sendNET tag
    else { f with lastSkippedNET := tag }
  else if lfTagCompare f.lastDNET tag < 0 ∨
      F.immediateUpstreams i ≠ [] ∧ lfTagCompare f.lastTAG tag < 0 then f.sendNET tag
  else { f with lastSkippedNET := tag }

/-- `lf_send_next_event_tag`: without upstream federates there is nothing to wait for. -/
def sendNextEventTag (i : Fin n) (f : Federate K) (tag : Tag) : Federate K :=
  { announce F i f tag with
    phase := if F.immediateUpstreams i = [] ∨ lfTagCompare f.lastTAG tag ≥ 0 then .granted
      else .awaiting tag }

/-- One turn of the waiting loop. A federate that has started asks once more when what it was granted
is enough for its next event only. -/
def wake (i : Fin n) (f : Federate K) (tag : Tag) : Federate K :=
  let nextTag := getNextEventTag F i f
  if lfTagCompare f.lastTAG nextTag ≥ 0 ∨ lfTagCompare f.lastTAG tag ≥ 0 then
    if f.executionStarted = true ∧ lfTagCompare f.lastTAG tag < 0 then sendNextEventTag F i f nextTag
    else { f with phase := .granted }
  else if lfTagCompare nextTag tag ≠ 0 then f.sendNET nextTag
  else f

/-- `_lf_pop_events` at `tag`, and whether a network input is among the events. -/
def Federate.popEvents (f : Federate K) (tag : Tag) : Federate K :=
  { f with
    eventQueue := f.eventQueue.filter fun e => e.2 ≠ tag
    needToSendLTC := f.eventQueue.any fun e => e.1.isSome ∧ e.2 = tag }

/-- The end of `_lf_initialize_start_tag`. -/
def begin (i : Fin n) (f : Federate K) : Federate K :=
  { f.popEvents f.currentTag with
    executionStarted := true
    phase := if F.reactsAtStart i = true ∨ (f.eventQueue.any fun e => e.2 = f.currentTag) ∨
        lfTagCompare f.currentTag (F.stopTag i) ≥ 0 then .executing else .ready }

/-- `_lf_next_locked` once physical time has caught up. -/
def advance (i : Fin n) (f : Federate K) : Federate K :=
  let nextTag := getNextEventTag F i f
  if lfTagCompare nextTag (F.stopTag i) ≥ 0 ∧ lfTagCompare f.currentTag (F.stopTag i) ≥ 0 then
    { f with phase := .ready }
  else { f.popEvents nextTag with currentTag := nextTag, phase := .executing }

def schedule (i : Fin n) (f : Federate K) (tag : Tag) : Federate K :=
  if lfTagCompare tag (F.stopTag i) > 0 then f
  else { f with eventQueue := (none, tag) :: f.eventQueue }

def sendTaggedMessage (i : Fin n) (f : Federate K) (port : K) : Federate K :=
  let currentMessageIntendedTag := lfDelayTag f.currentTag (F.delay port)
  if lfTagCompare currentMessageIntendedTag (F.stopTag i) > 0 then f
  else
    { f.write (.taggedMessage port currentMessageIntendedTag) with
      lastDNET := if lfTagCompare f.lastDNET currentMessageIntendedTag > 0 then currentMessageIntendedTag
        else f.lastDNET }

def latestTagConfirmed (f : Federate K) : Federate K :=
  if lfTagCompare f.lastSentLTC f.currentTag ≥ 0 ∨ f.needToSendLTC = false then f
  else { f.write (.latestTagConfirmed f.currentTag) with lastSentLTC := f.currentTag }

/-- `_lf_schedule_at_tag` for a network input; a second event for one port at one tag comes a microstep
later. -/
def scheduleAtTag [DecidableEq K] (i : Fin n) (f : Federate K) (port : K) (tag : Tag) : Federate K :=
  if lfTagCompare tag (F.stopTag i) > 0 then f
  else if (some port, tag) ∈ f.eventQueue then
    let tag := { tag with microstep := tag.microstep + 1 }
    if lfTagCompare tag (F.stopTag i) > 0 then f
    else { f with eventQueue := (some port, tag) :: f.eventQueue }
  else { f with eventQueue := (some port, tag) :: f.eventQueue }

/-- What the thread that listens to the infrastructure does with a message. -/
def receive [DecidableEq K] (i : Fin n) (f : Federate K) : ToFederate K → Federate K
  | .tagAdvanceGrant tag => if lfTagCompare tag f.lastTAG ≥ 0 then { f with lastTAG := tag } else f
  | .provisionalTagAdvanceGrant _ => f
  | .downstreamNextEventTag tag =>
    let f := if lfTagCompare tag f.lastSkippedNET < 0 then f.sendNET f.lastSkippedNET else f
    { f with receivedAnyDNET := true, lastDNET := tag }
  | .taggedMessage port tag =>
    if f.executionStarted = true ∧ lfTagCompare tag f.currentTag ≤ 0 then { f with tardy := true }
    else if f.executionStarted = true ∧ lfTagCompare f.currentTag (F.stopTag i) ≥ 0 then
      { f with phase := .closed }
    else scheduleAtTag F i f port tag

end Federates

section System

/-- `removing` is a tag confirmed up to which the thread of a federate has yet to clear the messages in
transit. -/
structure State (n : Nat) (K : Type) where
  federate : Fin n → Federate K
  rti : Rti n K
  removing : Fin n → Option Tag

def State.setFederate (s : State n K) (i : Fin n) (f : Federate K) : State n K :=
  { s with federate := Function.update s.federate i f }

def Federation.initialFederate (i : Fin n) : Federate K where
  eventQueue := (F.initialEvents i).map fun t => (none, t)
  currentTag := F.startTag
  executionStarted := false
  phase := .ready
  needToSendLTC := false
  lastTAG := neverTag
  lastSentLTC := neverTag
  receivedAnyDNET := false
  lastDNET := neverTag
  lastSentNET := neverTag
  lastSkippedNET := neverTag
  tardy := false
  outbox := []

def Federation.initial : State n K where
  federate := F.initialFederate
  rti := {
    node := fun i => ⟨neverTag, neverTag, neverTag, neverTag, neverTag, F.state i⟩
    inTransitMessageTags := fun _ => []
    sent := fun _ => [] }
  removing := fun _ => none

/-- What the thread for federate `i` does with a message. -/
def handle (R : Rti n K) (i : Fin n) : ToRti K → Rti n K
  | .nextEventTag tag => handleNextEventTag F.toNetwork R i tag
  | .latestTagConfirmed tag => logicalTagComplete F.toNetwork R i tag
  | .taggedMessage port tag => handleTimedMessage F.toNetwork R port tag
  | .resign => handleFederateResign F.toNetwork R i

def ToRti.confirmed : ToRti K → Option Tag
  | .latestTagConfirmed tag => some tag
  | _ => none

/-- The steps of the federates and of the infrastructure, in any order. There are no zero-delay cycles,
so that nothing is granted provisionally; programs have no physical actions, and how they ask for a
stop is a protocol of its own (`Stop`). No connection fails: the infrastructure loses only that of a
federate that has closed it itself, once it has read all that the federate wrote. A federate reads
an announcement of events downstream in one step, also where `federate.c` does it in several. -/
inductive Step [DecidableEq K] : State n K → State n K → Prop
  | request {s : State n K} {i : Fin n} : (s.federate i).phase = .ready →
      Step s (s.setFederate i (sendNextEventTag F i (s.federate i)
        (if (s.federate i).executionStarted then getNextEventTag F i (s.federate i) else F.startTag)))
  | wake {s : State n K} {i : Fin n} {tag : Tag} : (s.federate i).phase = .awaiting tag →
      Step s (s.setFederate i (wake F i (s.federate i) tag))
  | begin {s : State n K} {i : Fin n} : (s.federate i).phase = .granted →
      (s.federate i).executionStarted = false → Step s (s.setFederate i (begin F i (s.federate i)))
  | advance {s : State n K} {i : Fin n} : (s.federate i).phase = .granted →
      (s.federate i).executionStarted = true → getNextEventTag F i (s.federate i) ≠ foreverTag →
      Step s (s.setFederate i (advance F i (s.federate i)))
  | schedule {s : State n K} {i : Fin n} {tag : Tag} : (s.federate i).phase = .executing →
      (s.federate i).currentTag < tag → Step s (s.setFederate i (schedule F i (s.federate i) tag))
  | send {s : State n K} {i : Fin n} {port : K} : (s.federate i).phase = .executing →
      F.source port = i → Step s (s.setFederate i (sendTaggedMessage F i (s.federate i) port))
  | complete {s : State n K} {i : Fin n} : (s.federate i).phase = .executing →
      Step s (s.setFederate i { latestTagConfirmed (s.federate i) with phase := .ready })
  | stop {s : State n K} {i : Fin n} : (s.federate i).phase = .ready →
      (s.federate i).executionStarted = true → F.stopTag i ≤ (s.federate i).currentTag →
      Step s (s.setFederate i { announce F i (s.federate i) foreverTag with phase := .stopped })
  | resign {s : State n K} {i : Fin n} : (s.federate i).phase = .stopped →
      Step s (s.setFederate i { (s.federate i).write .resign with phase := .resigned })
  | receive {s : State n K} {i : Fin n} {m : ToFederate K} {rest : List (ToFederate K)} :
      (s.federate i).phase ≠ .closed → s.rti.sent i = m :: rest →
      Step s { s.setFederate i (receive F i (s.federate i) m) with
        rti := { s.rti with sent := Function.update s.rti.sent i rest } }
  | handle {s : State n K} {i : Fin n} {m : ToRti K} {rest : List (ToRti K)} :
      (s.rti.node i).state ≠ .notConnected → s.removing i = none →
      (s.federate i).outbox = m :: rest →
      Step s { s.setFederate i { s.federate i with outbox := rest } with
        rti := handle F s.rti i m
        removing := Function.update s.removing i m.confirmed }
  | removeUpTo {s : State n K} {i : Fin n} {tag : Tag} : s.removing i = some tag →
      Step s { s with
        rti := removeInTransit s.rti i tag
        removing := Function.update s.removing i none }
  | disconnect {s : State n K} {i : Fin n} : (s.federate i).phase = .closed →
      s.removing i = none → (s.federate i).outbox = [] →
      Step s { s with rti := s.rti.setNode i { s.rti.node i with state := .notConnected } }

/-- No tag overflows: those in event queues and messages are in range. -/
def State.InRange (s : State n K) : Prop :=
  ∀ i, (∀ e ∈ (s.federate i).eventQueue, F.InRange e.2) ∧
    ∀ port tag, .taggedMessage port tag ∈ (s.federate i).outbox → F.InRange tag

/-- The states of the runs in which no tag overflows. -/
inductive Reachable [DecidableEq K] : State n K → Prop
  | initial : Reachable F.initial
  | step {s t : State n K} : Reachable s → Step F s t → t.InRange F → Reachable t

end System

end LFBenchmarks.Federated
