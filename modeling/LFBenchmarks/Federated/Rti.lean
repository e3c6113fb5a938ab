import LFBenchmarks.Federated.Dnet
import LFBenchmarks.Federated.MinDelays

namespace LFBenchmarks.Federated

open ReactorC

/-- A federation as it is compiled. Of several connections between two federates the infrastructure
knows the least delay. -/
structure Network (n : Nat) (K : Type) extends Topology n where
  immediateDownstreams : Fin n → List (Fin n)
  source : K → Fin n
  target : K → Fin n
  delay : K → Int64
  startTime : Int64
  dnetDisabled : Bool
  covered : ∀ k, ∃ d, (source k, d) ∈ immediateUpstreams (target k) ∧
    lfDelayTag zeroTag d ≤ lfDelayTag zeroTag (delay k)
  connected : ∀ i, state i ≠ .notConnected
  startTime_nonneg : 0 ≤ startTime
  startTime_lt : startTime < forever

/-- What the infrastructure writes to a federate. -/
inductive ToFederate (K : Type)
  | tagAdvanceGrant (tag : Tag)
  | provisionalTagAdvanceGrant (tag : Tag)
  | downstreamNextEventTag (tag : Tag)
  | taggedMessage (port : K) (tag : Tag)

structure SchedulingNode where
  completed : Tag
  lastGranted : Tag
  lastProvisionallyGranted : Tag
  nextEvent : Tag
  lastDNET : Tag
  state : NodeState

/-- The infrastructure that coordinates the federates (`rti_common.c`, `rti_remote.c`), from the moment
when every federate has its start time. `sent` is what each federate has not read yet. -/
structure Rti (n : Nat) (K : Type) where
  node : Fin n → SchedulingNode
  inTransitMessageTags : Fin n → List Tag
  sent : Fin n → List (ToFederate K)

variable {n : Nat} {K : Type} (W : Network n K)

section Delays

/-- The matrix, computed when the first federate reports and all are connected. -/
def Topology.minDelay (N : Topology n) (i j : Fin n) : Tag :=
  ((updateMinDelays N j).getD .initial).pathDelays i

def Topology.isInZeroDelayCycle (N : Topology n) (j : Fin n) : Bool :=
  ((updateMinDelays N j).getD .initial).isInZeroDelayCycle

def Network.startTag : Tag := ⟨W.startTime, 0⟩

end Delays

section Queue

/-- A priority queue of tags is the list of those it holds. -/
def pqueueTagPeekTag (q : List Tag) : Tag := q.foldr min foreverTag

def pqueueTagInsertIfNoMatch (q : List Tag) (t : Tag) : List Tag := if t ∈ q then q else t :: q

def pqueueTagRemoveUpTo (q : List Tag) (t : Tag) : List Tag :=
  q.filter fun head => ¬(lfTagCompare head foreverTag < 0 ∧ lfTagCompare head t ≤ 0)

theorem pqueueTagPeekTag_le {q : List Tag} {t : Tag} (h : t ∈ q) : pqueueTagPeekTag q ≤ t := by
  induction q with
  | nil => exact absurd h List.not_mem_nil
  | cons head q ih =>
    rw [pqueueTagPeekTag, List.foldr_cons]
    rcases List.mem_cons.mp h with rfl | h
    · exact min_le_left _ _
    · exact (min_le_right _ _).trans (ih h)

theorem pqueueTagPeekTag_eq (q : List Tag) : pqueueTagPeekTag q = foreverTag ∨ pqueueTagPeekTag q ∈ q := by
  induction q with
  | nil => exact .inl rfl
  | cons head q ih =>
    rw [pqueueTagPeekTag, List.foldr_cons, ← pqueueTagPeekTag]
    rcases min_choice head (pqueueTagPeekTag q) with h | h
    · rw [h]
      exact .inr List.mem_cons_self
    · rw [h]
      exact ih.imp id (List.mem_cons_of_mem _)

end Queue

section Grants

def Rti.setNode (R : Rti n K) (i : Fin n) (node : SchedulingNode) : Rti n K :=
  { R with node := Function.update R.node i node }

def Rti.write (R : Rti n K) (i : Fin n) (m : ToFederate K) : Rti n K :=
  { R with sent := Function.update R.sent i (R.sent i ++ [m]) }

/-- A node not heard from can have an event at the start. -/
def Rti.hear (R : Rti n K) (i : Fin n) : Rti n K :=
  if lfTagCompare (R.node i).nextEvent neverTag = 0 then
    R.setNode i { R.node i with nextEvent := W.startTag }
  else R

/-- One upstream node in the loop of `earliest_future_incoming_message_tag`. -/
def earliestFrom (e : Fin n) (acc : Tag × Rti n K) (i : Fin n) : Tag × Rti n K :=
  if lfTagCompare (W.minDelay i e) foreverTag ≠ 0 then
    let R := acc.2.hear W i
    let earliestTagFromUpstream := lfTagAdd (R.node i).nextEvent (W.minDelay i e)
    (if lfTagCompare earliestTagFromUpstream acc.1 < 0 then earliestTagFromUpstream else acc.1, R)
  else acc

def earliestFutureIncomingMessageTag (R : Rti n K) (e : Fin n) : Tag × Rti n K :=
  (List.finRange n).foldl (earliestFrom W e) (foreverTag, R)

/-- One immediate upstream node in the loop of `eimt_strict`. -/
def strictFrom (acc : Tag × Rti n K) (upstream : Fin n × Int64) : Tag × Rti n K :=
  if W.isInZeroDelayCycle upstream.1 then acc
  else
    let R := acc.2.hear W upstream.1
    let (earliest, R) := earliestFutureIncomingMessageTag W R upstream.1
    let earliest := if lfTagCompare (R.node upstream.1).nextEvent earliest < 0 then
      (R.node upstream.1).nextEvent else earliest
    let earliestTagFromUpstream := lfDelayTag earliest upstream.2
    (if lfTagCompare earliestTagFromUpstream acc.1 < 0 then earliestTagFromUpstream else acc.1, R)

def eimtStrict (R : Rti n K) (e : Fin n) : Tag × Rti n K :=
  (W.immediateUpstreams e).foldl (strictFrom W) (foreverTag, R)

/-- The least of what the connected immediate upstream nodes have completed, after their delays. -/
def minUpstreamCompleted (R : Rti n K) (e : Fin n) : Tag :=
  (W.immediateUpstreams e).foldl (fun acc upstream =>
    if (R.node upstream.1).state = .notConnected then acc
    else
      let candidate := lfDelayStrict (R.node upstream.1).completed upstream.2
      if lfTagCompare candidate acc < 0 then candidate else acc) foreverTag

/-- The tag to grant, `neverTag` for none, and whether provisionally. -/
structure TagAdvanceGrant where
  tag : Tag
  isProvisional : Bool

def tagAdvanceGrantIfSafe (R : Rti n K) (e : Fin n) : TagAdvanceGrant × Rti n K :=
  let completed := minUpstreamCompleted W R e
  if lfTagCompare completed (R.node e).lastGranted > 0 ∧
      lfTagCompare completed (R.node e).nextEvent ≥ 0 then (⟨completed, false⟩, R)
  else
    let (tD, R) := earliestFutureIncomingMessageTag W R e
    let (tDStrict, R) := eimtStrict W R e
    let node := R.node e
    if lfTagCompare tD node.nextEvent > 0 ∧ lfTagCompare node.nextEvent neverTag > 0 ∧
        lfTagCompare tD node.lastProvisionallyGranted ≥ 0 ∧
        lfTagCompare tD node.lastGranted > 0 then (⟨lfTagLatestEarlier tD, false⟩, R)
    else if lfTagCompare tD node.nextEvent = 0 ∧ W.isInZeroDelayCycle e = true ∧
        lfTagCompare tDStrict node.nextEvent > 0 ∧
        lfTagCompare tD node.lastProvisionallyGranted > 0 ∧
        lfTagCompare tD node.lastGranted > 0 then (⟨node.nextEvent, true⟩, R)
    else (⟨neverTag, false⟩, R)

def notifyTagAdvanceGrant (R : Rti n K) (e : Fin n) (tag : Tag) : Rti n K :=
  if (R.node e).state = .notConnected ∨ lfTagCompare tag (R.node e).lastGranted ≤ 0 ∨
      lfTagCompare tag (R.node e).lastProvisionallyGranted < 0 then R
  else (R.write e (.tagAdvanceGrant tag)).setNode e { R.node e with lastGranted := tag }

/-- Passed on upstream; `fuel` bounds how far. -/
def notifyProvisionalTagAdvanceGrant : Nat → Rti n K → Fin n → Tag → Rti n K
  | 0, R, _, _ => R
  | fuel + 1, R, e, tag =>
    if (R.node e).state = .notConnected ∨ lfTagCompare tag (R.node e).lastGranted ≤ 0 ∨
        lfTagCompare tag (R.node e).lastProvisionallyGranted ≤ 0 then R
    else
      let R := (R.write e (.provisionalTagAdvanceGrant tag)).setNode e
        { R.node e with lastProvisionallyGranted := tag }
      (W.immediateUpstreams e).foldl (fun R upstream =>
        if (R.node upstream.1).state = .notConnected then R
        else
          let (earliest, R) := earliestFutureIncomingMessageTag W R upstream.1
          let (strictEarliest, R) := eimtStrict W R upstream.1
          if lfTagCompare earliest tag > 0 then notifyTagAdvanceGrant R upstream.1 tag
          else if lfTagCompare earliest tag = 0 ∧ lfTagCompare strictEarliest tag > 0 then
            notifyProvisionalTagAdvanceGrant fuel R upstream.1 tag
          else R) R

def notifyAdvanceGrantIfSafe (R : Rti n K) (e : Fin n) : Rti n K :=
  let (grant, R) := tagAdvanceGrantIfSafe W R e
  if lfTagCompare grant.tag neverTag ≠ 0 then
    if grant.isProvisional then notifyProvisionalTagAdvanceGrant W (n + 1) R e grant.tag
    else notifyTagAdvanceGrant R e grant.tag
  else R

/-- The nodes below `e` not visited yet; the recursion, which visits a new node each time, is no deeper
than there are nodes. -/
def notifyDownstreamAdvanceGrantIfSafe :
    Nat → Rti n K × (Fin n → Bool) → Fin n → Rti n K × (Fin n → Bool)
  | 0, acc, _ => acc
  | fuel + 1, (R, visited), e =>
    (W.immediateDownstreams e).foldl (fun acc downstream =>
      if acc.2 downstream then acc
      else notifyDownstreamAdvanceGrantIfSafe fuel
        (notifyAdvanceGrantIfSafe W acc.1 downstream, acc.2) downstream)
      (R, Function.update visited e true)

def notifyDownstream (R : Rti n K) (e : Fin n) : Rti n K :=
  (notifyDownstreamAdvanceGrantIfSafe W (n + 1) (R, fun _ => false) e).1

end Grants

section Announcements

def downstreamNextEventTag (R : Rti n K) (targetNode nodeSendingNewNET : Fin n) : Tag :=
  if W.isInZeroDelayCycle targetNode = true ∨ W.isInZeroDelayCycle nodeSendingNewNET = true then neverTag
  else
    let candidate := getDnetCandidate (R.node nodeSendingNewNET).nextEvent
      (W.minDelay targetNode nodeSendingNewNET)
    let result := if lfTagCompare (R.node targetNode).lastDNET candidate ≥ 0 then candidate
      else (List.finRange n).foldl (fun result j =>
        if targetNode ≠ j ∧ lfTagCompare (W.minDelay targetNode j) foreverTag ≠ 0 then
          let candidate := getDnetCandidate (R.node j).nextEvent (W.minDelay targetNode j)
          if lfTagCompare result candidate > 0 then candidate else result
        else result) foreverTag
    if result.time < W.startTime then neverTag else result

def notifyDownstreamNextEventTag (R : Rti n K) (e : Fin n) (tag : Tag) : Rti n K :=
  if (R.node e).state = .notConnected then R
  else (R.write e (.downstreamNextEventTag tag)).setNode e { R.node e with lastDNET := tag }

/-- One upstream node of a node with a new next event. -/
def announceUpstream (e : Fin n) (R : Rti n K) (i : Fin n) : Rti n K :=
  if lfTagCompare (W.minDelay i e) foreverTag ≠ 0 ∧ i ≠ e then
    let dnet := downstreamNextEventTag W R i e
    if lfTagCompare (R.node i).lastDNET dnet ≠ 0 ∧ lfTagCompare (R.node i).nextEvent dnet ≤ 0 then
      notifyDownstreamNextEventTag R i dnet
    else R
  else R

end Announcements

section Handlers

def updateSchedulingNodeNextEventTagLocked (R : Rti n K) (e : Fin n) (nextEventTag : Tag) :
    Rti n K :=
  let R := R.setNode e { R.node e with nextEvent := nextEventTag }
  let R := if W.immediateUpstreams e ≠ [] then notifyAdvanceGrantIfSafe W R e
    else R.setNode e { R.node e with lastGranted := nextEventTag }
  let R := (List.finRange n).foldl (fun R j =>
    if lfTagCompare (W.minDelay e j) foreverTag ≠ 0 then notifyAdvanceGrantIfSafe W R j else R) R
  if W.dnetDisabled then R else (List.finRange n).foldl (announceUpstream W e) R

def updateFederateNextEventTagLocked (R : Rti n K) (fed : Fin n) (nextEventTag : Tag) : Rti n K :=
  let minInTransitTag := pqueueTagPeekTag (R.inTransitMessageTags fed)
  updateSchedulingNodeNextEventTagLocked W R fed
    (if lfTagCompare minInTransitTag nextEventTag < 0 then minInTransitTag else nextEventTag)

def handleNextEventTag (R : Rti n K) (fed : Fin n) (intendedTag : Tag) : Rti n K :=
  updateFederateNextEventTagLocked W R fed intendedTag

/-- The message is forwarded, recorded as in transit, and brings the next event of its receiver
forward. -/
def forward (R : Rti n K) (port : K) (intendedTag : Tag) : Rti n K :=
  let fed := W.target port
  let R := R.write fed (.taggedMessage port intendedTag)
  if lfTagCompare (R.node fed).completed intendedTag < 0 then
    { R with
      inTransitMessageTags := Function.update R.inTransitMessageTags fed
        (pqueueTagInsertIfNoMatch (R.inTransitMessageTags fed) intendedTag) }
  else R

def handleTimedMessage (R : Rti n K) (port : K) (intendedTag : Tag) : Rti n K :=
  let fed := W.target port
  if (R.node fed).state = .notConnected then R
  else
    let R := forward W R port intendedTag
    if lfTagCompare intendedTag (R.node fed).nextEvent < 0 then
      updateFederateNextEventTagLocked W R fed intendedTag
    else R

def logicalTagComplete (R : Rti n K) (enclave : Fin n) (completed : Tag) : Rti n K :=
  let R := R.setNode enclave { R.node enclave with completed := completed }
  (W.immediateDownstreams enclave).foldl (fun R downstream =>
    notifyDownstream W (notifyAdvanceGrantIfSafe W R downstream) downstream) R

/-- The second half of `handle_latest_tag_confirmed`: the mutex is free between the two. -/
def removeInTransit (R : Rti n K) (fed : Fin n) (completed : Tag) : Rti n K :=
  { R with
    inTransitMessageTags := Function.update R.inTransitMessageTags fed
      (pqueueTagRemoveUpTo (R.inTransitMessageTags fed) completed) }

def handleFederateResign (R : Rti n K) (fed : Fin n) : Rti n K :=
  notifyDownstream W
    (R.setNode fed { R.node fed with state := .notConnected, nextEvent := foreverTag }) fed

end Handlers

end LFBenchmarks.Federated
