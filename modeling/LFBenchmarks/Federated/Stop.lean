import LFBenchmarks.Federated.Federation

namespace LFBenchmarks.Federated.Stop

open ReactorC

/-- What a federate writes to the infrastructure (`federate.c`, `rti_remote.c`). A federate that asks
for a stop blocks its own tag, the infrastructure collects from every federate a tag at which it can
stop, and all of them stop at the latest. -/
inductive ToRti
  | stopRequest (tag : Tag)
  | stopRequestReply (tag : Tag)
  | resign
  deriving DecidableEq

/-- What the infrastructure writes to a federate. -/
inductive ToFederate
  | stopRequest (tag : Tag)
  | stopGranted (tag : Tag)
  deriving DecidableEq

/-- A federate with one environment, so that what `federate.c` does to each is done once. `overdue` is
set when a stop is granted that is not in the future. -/
structure Federate where
  currentTag : Tag
  stopTag : Tag
  requestors : Int
  horizon : Tag
  lfStopRequested : Bool
  receivedStopRequestFromRti : Bool
  overdue : Bool
  resigned : Bool
  outbox : List ToRti

section Federates

def nextMicrostep (tag : Tag) : Tag := { tag with microstep := tag.microstep + 1 }

def Federate.write (f : Federate) (m : ToRti) : Federate := { f with outbox := f.outbox ++ [m] }

def incrementTagBarrier (f : Federate) (futureTag : Tag) : Federate :=
  let futureTag := if lfTagCompare futureTag f.stopTag > 0 then f.stopTag else futureTag
  { f with
    horizon := if lfTagCompare futureTag f.currentTag > 0 then
        if lfTagCompare futureTag f.horizon < 0 then futureTag else f.horizon
      else nextMicrostep f.currentTag
    requestors := f.requestors + 1 }

/-- A negative count would end the program. -/
def decrementTagBarrier (f : Federate) : Federate :=
  { f with
    horizon := if f.requestors - 1 = 0 then foreverTag else f.horizon
    requestors := f.requestors - 1 }

/-- `_lf_wait_on_tag_barrier` for a tag not after the stop tag. -/
def Federate.WaitsOnTagBarrier (f : Federate) (proposedTag : Tag) : Prop :=
  f.requestors > 0 ∧ lfTagCompare proposedTag f.horizon ≥ 0

/-- `lf_set_stop_tag`: a stop tag is brought forward only. -/
def setStopTag (f : Federate) (tag : Tag) : Federate :=
  if lfTagCompare tag f.stopTag < 0 then { f with stopTag := tag } else f

/-- With `lf_send_stop_request_to_rti`. The tag stands still while the reaction that calls it runs. -/
def lfRequestStop (f : Federate) : Federate :=
  if f.lfStopRequested = true then f
  else
    let maxCurrentTag := if lfTagCompare f.currentTag neverTag > 0 then f.currentTag else neverTag
    let f := incrementTagBarrier { f with lfStopRequested := true } maxCurrentTag
    if f.receivedStopRequestFromRti = true then decrementTagBarrier f
    else { f.write (.stopRequest (nextMicrostep maxCurrentTag)) with receivedStopRequestFromRti := true }

/-- A federate that cannot stop at the tag makes a counteroffer. -/
def handleStopRequest (f : Federate) (tagToStop : Tag) : Federate :=
  if f.lfStopRequested = true then f
  else if f.receivedStopRequestFromRti = true then { f with lfStopRequested := true }
  else
    let tagToStop := if lfTagCompare tagToStop f.currentTag ≤ 0 then nextMicrostep f.currentTag
      else tagToStop
    (incrementTagBarrier { f with lfStopRequested := true, receivedStopRequestFromRti := true }
      tagToStop).write (.stopRequestReply tagToStop)

def handleStopGranted (f : Federate) (receivedStopTag : Tag) : Federate :=
  let late := lfTagCompare receivedStopTag f.currentTag ≤ 0
  let f := setStopTag { f with overdue := f.overdue || decide late }
    (if late then nextMicrostep f.currentTag else receivedStopTag)
  if f.requestors ≠ 0 then decrementTagBarrier f else f

def receive (f : Federate) : ToFederate → Federate
  | .stopRequest tag => handleStopRequest f tag
  | .stopGranted tag => handleStopGranted f tag

end Federates

section Infrastructure

/-- `sent` is what each federate has not read yet. -/
structure Rti (n : Nat) where
  node : Fin n → SchedulingNode
  requestedStop : Fin n → Bool
  numHandlingStop : Nat
  maxStopTag : Tag
  stopInProgress : Bool
  stopGrantedAlreadySent : Bool
  sent : Fin n → List ToFederate

variable {n : Nat}

def Rti.write (R : Rti n) (i : Fin n) (m : ToFederate) : Rti n :=
  { R with sent := Function.update R.sent i (R.sent i ++ [m]) }

def broadcastStopTimeToFederates (R : Rti n) : Rti n :=
  if R.stopGrantedAlreadySent = true then R
  else
    { R with
      stopGrantedAlreadySent := true
      node := fun i =>
        if (R.node i).state ≠ .notConnected ∧ lfTagCompare (R.node i).nextEvent R.maxStopTag ≥ 0 then
          { R.node i with nextEvent := R.maxStopTag }
        else R.node i
      sent := fun i =>
        if (R.node i).state = .notConnected then R.sent i
        else R.sent i ++ [.stopGranted R.maxStopTag] }

def countRequestingStop (R : Rti n) (i : Fin n) : Rti n :=
  if R.requestedStop i = true then R
  else
    { R with
      numHandlingStop := R.numHandlingStop + 1
      requestedStop := Function.update R.requestedStop i true }

/-- Whether all federates have been heard, and what is done then. -/
def markFederateRequestingStop (R : Rti n) (i : Fin n) : Bool × Rti n :=
  let R := countRequestingStop R i
  if R.numHandlingStop = n then (true, broadcastStopTimeToFederates R) else (false, R)

def proposeStopTag (R : Rti n) (tag : Tag) : Rti n :=
  if lfTagCompare tag R.maxStopTag > 0 then { R with maxStopTag := tag } else R

/-- One federate in the loop that forwards the request of `i`. -/
def forwardStopRequest (i : Fin n) (tag : Tag) (R : Rti n) (f : Fin n) : Rti n :=
  if f ≠ i ∧ R.requestedStop f = false then
    if (R.node f).state = .notConnected then (markFederateRequestingStop R f).2
    else R.write f (.stopRequest tag)
  else R

def handleStopRequestMessage (R : Rti n) (i : Fin n) (proposedStopTag : Tag) : Rti n :=
  if R.requestedStop i = true then
    if R.stopInProgress = true then (markFederateRequestingStop R i).2 else R
  else
    let marked := markFederateRequestingStop (proposeStopTag R proposedStopTag) i
    if marked.1 = true ∨ marked.2.stopInProgress = true then marked.2
    else
      (List.finRange n).foldl (forwardStopRequest i marked.2.maxStopTag)
        { marked.2 with stopInProgress := true }

def handleStopRequestReply (R : Rti n) (i : Fin n) (federateStopTag : Tag) : Rti n :=
  (markFederateRequestingStop (proposeStopTag R federateStopTag) i).2

def handleResign (R : Rti n) (i : Fin n) : Rti n :=
  { R with
    node := Function.update R.node i
      { R.node i with state := .notConnected, nextEvent := foreverTag } }

/-- What the thread for federate `i` does with a message. -/
def handle (R : Rti n) (i : Fin n) : ToRti → Rti n
  | .stopRequest tag => handleStopRequestMessage R i tag
  | .stopRequestReply tag => handleStopRequestReply R i tag
  | .resign => handleResign R i

end Infrastructure

section System

structure State (n : Nat) where
  federate : Fin n → Federate
  rti : Rti n

variable {n : Nat} {K : Type} (F : Federation n K)

def State.setFederate (s : State n) (i : Fin n) (f : Federate) : State n :=
  { s with federate := Function.update s.federate i f }

def initialFederate (i : Fin n) : Federate where
  currentTag := F.startTag
  stopTag := F.stopTag i
  requestors := 0
  horizon := foreverTag
  lfStopRequested := false
  receivedStopRequestFromRti := false
  overdue := false
  resigned := false
  outbox := []

def initial : State n where
  federate := initialFederate F
  rti := {
    node := F.initial.rti.node
    requestedStop := fun _ => false
    numHandlingStop := 0
    maxStopTag := neverTag
    stopInProgress := false
    stopGrantedAlreadySent := false
    sent := fun _ => [] }

/-- The steps of the federates and of the infrastructure. From the start on a federate advances to any
tag up to its barrier; what else it waits for before it does is in `Federation`. -/
inductive Step : State n → State n → Prop
  | advance {s : State n} {i : Fin n} {tag : Tag} : (s.federate i).resigned = false →
      (s.federate i).currentTag < tag → tag ≤ (s.federate i).stopTag → tag.time ≠ forever →
      ¬(s.federate i).WaitsOnTagBarrier tag →
      Step s (s.setFederate i { s.federate i with currentTag := tag })
  | requestStop {s : State n} {i : Fin n} : (s.federate i).resigned = false →
      Step s (s.setFederate i (lfRequestStop (s.federate i)))
  | resign {s : State n} {i : Fin n} : (s.federate i).resigned = false →
      Step s (s.setFederate i { (s.federate i).write .resign with resigned := true })
  | receive {s : State n} {i : Fin n} {m : ToFederate} {rest : List ToFederate} :
      s.rti.sent i = m :: rest →
      Step s { s.setFederate i (receive (s.federate i) m) with
        rti := { s.rti with sent := Function.update s.rti.sent i rest } }
  | handle {s : State n} {i : Fin n} {m : ToRti} {rest : List ToRti} :
      (s.rti.node i).state ≠ .notConnected → (s.federate i).outbox = m :: rest →
      Step s { s.setFederate i { s.federate i with outbox := rest } with rti := handle s.rti i m }

/-- The states of the runs in which every federate has a next microstep. -/
inductive Reachable : State n → Prop
  | initial : Reachable (initial F)
  | step {s t : State n} : Reachable s → Step s t →
      (∀ i, (t.federate i).currentTag.microstep ≠ -1) → Reachable t

end System

section Barriers

theorem lt_nextMicrostep {tag : Tag} (h : tag.microstep ≠ -1) : tag < nextMicrostep tag := by
  refine .inr ⟨rfl, ?_⟩
  change tag.microstep < tag.microstep + 1
  grind

theorem nextMicrostep_le {tag other : Tag} (h : tag < other) : nextMicrostep tag ≤ other := by
  rcases h with h | ⟨htime, h⟩
  · exact .inl h
  · refine .inr ⟨htime, ?_⟩
    change tag.microstep + 1 ≤ other.microstep
    grind

/-- The tag advances to tags before the horizon only, which is not after `p`. -/
structure Blocked (f : Federate) (p : Tag) : Prop where
  requestors : f.requestors = 1
  currentTag_lt : f.currentTag < f.horizon
  horizon_le : f.horizon ≤ p

theorem Blocked.currentTag_lt_proposed {f : Federate} {p : Tag} (h : Blocked f p) : f.currentTag < p :=
  h.currentTag_lt.trans_le h.horizon_le

theorem horizon_incrementTagBarrier {f : Federate} (futureTag : Tag) (h : f.horizon = foreverTag) :
    (incrementTagBarrier f futureTag).horizon =
      if f.currentTag < min f.stopTag futureTag then min f.stopTag futureTag
      else nextMicrostep f.currentTag := by
  have hmin : (if f.stopTag < futureTag then f.stopTag else futureTag) = min f.stopTag futureTag := by
    grind
  have htop : (if min f.stopTag futureTag < foreverTag then min f.stopTag futureTag else foreverTag) =
      min f.stopTag futureTag :=
    ite_eq_left_iff.mpr fun hlt => (top_le_iff.mp (not_lt.mp hlt)).symm
  simp only [incrementTagBarrier, h, gt_iff_lt, zero_lt_lfTagCompare, lfTagCompare_lt_zero, hmin, htop]

theorem blocked_incrementTagBarrier {f : Federate} {futureTag p : Tag} (hnone : f.requestors = 0)
    (hhorizon : f.horizon = foreverTag) (hroom : f.currentTag.microstep ≠ -1)
    (hp : f.currentTag < p) (hfuture : futureTag ≤ p) : Blocked (incrementTagBarrier f futureTag) p := by
  refine ⟨by simp [incrementTagBarrier, hnone], ?_, ?_⟩
  · rw [horizon_incrementTagBarrier _ hhorizon]
    split_ifs with hlt
    · exact hlt
    · exact lt_nextMicrostep hroom
  · rw [horizon_incrementTagBarrier _ hhorizon]
    split_ifs
    · exact (min_le_right _ _).trans hfuture
    · exact nextMicrostep_le hp

theorem setStopTag_eq (f : Federate) (tag : Tag) :
    setStopTag f tag = { f with stopTag := min f.stopTag tag } := by
  simp only [setStopTag, lfTagCompare_lt_zero]
  split_ifs with hearlier
  · rw [min_eq_right hearlier.le]
  · rw [min_eq_left (not_lt.mp hearlier)]

/-- A grant in the future of a federate whose barrier is up. -/
theorem handleStopGranted_eq {f : Federate} {tag : Tag} (hone : f.requestors = 1)
    (hlt : f.currentTag < tag) : handleStopGranted f tag =
      { f with stopTag := min f.stopTag tag, requestors := 0, horizon := foreverTag } := by
  have hlate : ¬lfTagCompare tag f.currentTag ≤ 0 := by
    rw [lfTagCompare_le_zero]
    exact not_le.mpr hlt
  simp only [handleStopGranted, hlate, decide_false, Bool.or_false, if_false, setStopTag_eq,
    decrementTagBarrier, hone]
  rfl

theorem overdue_lfRequestStop (f : Federate) : (lfRequestStop f).overdue = f.overdue := by
  simp only [lfRequestStop, apply_ite Federate.overdue]
  simp [incrementTagBarrier, decrementTagBarrier, Federate.write]

theorem lfStopRequested_lfRequestStop (f : Federate) : (lfRequestStop f).lfStopRequested = true := by
  by_cases h : f.lfStopRequested = true
  · rw [lfRequestStop, if_pos h, h]
  · simp only [lfRequestStop, if_neg h, apply_ite Federate.lfStopRequested]
    simp [incrementTagBarrier, decrementTagBarrier, Federate.write]

theorem reply_mem_lfRequestStop {f : Federate} {tag : Tag}
    (h : .stopRequestReply tag ∈ (lfRequestStop f).outbox) : .stopRequestReply tag ∈ f.outbox := by
  simp only [lfRequestStop] at h
  generalize (if lfTagCompare f.currentTag neverTag > 0 then f.currentTag else neverTag) = maxTag at h
  split_ifs at h
  · exact h
  · exact h
  · simpa [incrementTagBarrier, Federate.write] using h

theorem overdue_handleStopRequest (f : Federate) (tag : Tag) :
    (handleStopRequest f tag).overdue = f.overdue := by
  simp only [handleStopRequest, apply_ite Federate.overdue]
  simp [incrementTagBarrier, Federate.write]

theorem lfStopRequested_handleStopRequest (f : Federate) (tag : Tag) :
    (handleStopRequest f tag).lfStopRequested = true := by
  by_cases h : f.lfStopRequested = true
  · rw [handleStopRequest, if_pos h, h]
  · simp only [handleStopRequest, if_neg h, apply_ite Federate.lfStopRequested]
    simp [incrementTagBarrier, Federate.write]

end Barriers

section Counting

variable {n : Nat} {R : Rti n}

theorem requestedStop_count (R : Rti n) (i : Fin n) :
    (countRequestingStop R i).requestedStop = Function.update R.requestedStop i true := by
  unfold countRequestingStop
  split_ifs with h
  · rw [← h, Function.update_eq_self]
  · rfl

@[simp] theorem node_count (R : Rti n) (i : Fin n) : (countRequestingStop R i).node = R.node := by
  unfold countRequestingStop
  split_ifs <;> rfl

@[simp] theorem maxStopTag_count (R : Rti n) (i : Fin n) :
    (countRequestingStop R i).maxStopTag = R.maxStopTag := by
  unfold countRequestingStop
  split_ifs <;> rfl

@[simp] theorem stopInProgress_count (R : Rti n) (i : Fin n) :
    (countRequestingStop R i).stopInProgress = R.stopInProgress := by
  unfold countRequestingStop
  split_ifs <;> rfl

@[simp] theorem stopGrantedAlreadySent_count (R : Rti n) (i : Fin n) :
    (countRequestingStop R i).stopGrantedAlreadySent = R.stopGrantedAlreadySent := by
  unfold countRequestingStop
  split_ifs <;> rfl

@[simp] theorem sent_count (R : Rti n) (i : Fin n) : (countRequestingStop R i).sent = R.sent := by
  unfold countRequestingStop
  split_ifs <;> rfl

@[simp] theorem state_broadcast (R : Rti n) (i : Fin n) :
    ((broadcastStopTimeToFederates R).node i).state = (R.node i).state := by
  unfold broadcastStopTimeToFederates
  split_ifs
  · rfl
  · dsimp only
    split_ifs <;> rfl

@[simp] theorem requestedStop_broadcast (R : Rti n) :
    (broadcastStopTimeToFederates R).requestedStop = R.requestedStop := by
  unfold broadcastStopTimeToFederates
  split_ifs <;> rfl

@[simp] theorem stopInProgress_broadcast (R : Rti n) :
    (broadcastStopTimeToFederates R).stopInProgress = R.stopInProgress := by
  unfold broadcastStopTimeToFederates
  split_ifs <;> rfl

@[simp] theorem numHandlingStop_broadcast (R : Rti n) :
    (broadcastStopTimeToFederates R).numHandlingStop = R.numHandlingStop := by
  unfold broadcastStopTimeToFederates
  split_ifs <;> rfl

@[simp] theorem stopGrantedAlreadySent_broadcast (R : Rti n) :
    (broadcastStopTimeToFederates R).stopGrantedAlreadySent = true := by
  unfold broadcastStopTimeToFederates
  split_ifs with h
  · exact h
  · rfl

theorem stopRequest_mem_broadcast {R : Rti n} {i : Fin n} {tag : Tag} :
    .stopRequest tag ∈ (broadcastStopTimeToFederates R).sent i ↔ .stopRequest tag ∈ R.sent i := by
  unfold broadcastStopTimeToFederates
  split_ifs
  · rfl
  · dsimp only
    split_ifs <;> simp

theorem mark_snd (R : Rti n) (i : Fin n) : (markFederateRequestingStop R i).2 =
    if (countRequestingStop R i).numHandlingStop = n then
      broadcastStopTimeToFederates (countRequestingStop R i)
    else countRequestingStop R i :=
  apply_ite Prod.snd _ _ _

theorem mark_fst {R : Rti n} {i : Fin n} (h : (markFederateRequestingStop R i).1 = true) :
    (markFederateRequestingStop R i).2.stopGrantedAlreadySent = true := by
  by_cases hnum : (countRequestingStop R i).numHandlingStop = n
  · rw [mark_snd, if_pos hnum]
    exact stopGrantedAlreadySent_broadcast _
  · rw [markFederateRequestingStop, if_neg hnum] at h
    exact absurd h Bool.false_ne_true

/-- What a step of the infrastructure leaves: who is connected, who is counted, and the requests under
way. -/
structure Continues (R R' : Rti n) : Prop where
  stopInProgress : R'.stopInProgress = R.stopInProgress
  state : ∀ i, (R'.node i).state = (R.node i).state
  requestedStop : ∀ i, R.requestedStop i = true → R'.requestedStop i = true
  stopRequest : ∀ i tag, .stopRequest tag ∈ R.sent i → .stopRequest tag ∈ R'.sent i

theorem Continues.refl (R : Rti n) : Continues R R := ⟨rfl, fun _ => rfl, fun _ => id, fun _ _ => id⟩

theorem Continues.trans {R R' R'' : Rti n} (h : Continues R R') (h' : Continues R' R'') :
    Continues R R'' where
  stopInProgress := h'.stopInProgress.trans h.stopInProgress
  state i := (h'.state i).trans (h.state i)
  requestedStop i hi := h'.requestedStop i (h.requestedStop i hi)
  stopRequest i tag hi := h'.stopRequest i tag (h.stopRequest i tag hi)

theorem requestedStop_mark (R : Rti n) (i : Fin n) :
    (markFederateRequestingStop R i).2.requestedStop = Function.update R.requestedStop i true := by
  rw [mark_snd, ← requestedStop_count]
  split_ifs
  · exact requestedStop_broadcast _
  · rfl

theorem stopRequest_mem_mark {R : Rti n} {i j : Fin n} {tag : Tag} :
    .stopRequest tag ∈ (markFederateRequestingStop R i).2.sent j ↔ .stopRequest tag ∈ R.sent j := by
  rw [mark_snd]
  split_ifs
  · rw [stopRequest_mem_broadcast, sent_count]
  · rw [sent_count]

theorem continues_mark (R : Rti n) (i : Fin n) : Continues R (markFederateRequestingStop R i).2 where
  stopInProgress := by
    rw [mark_snd]
    split_ifs <;> simp
  state j := by
    rw [mark_snd]
    split_ifs <;> simp
  requestedStop j hj := by
    rw [requestedStop_mark]
    by_cases heq : j = i
    · rw [heq, Function.update_self]
    · rwa [Function.update_of_ne heq]
  stopRequest _ _ := stopRequest_mem_mark.mpr

theorem continues_forward (i : Fin n) (tag : Tag) (R : Rti n) (f : Fin n) :
    Continues R (forwardStopRequest i tag R f) := by
  unfold forwardStopRequest
  split_ifs
  · exact continues_mark R f
  · refine ⟨rfl, fun _ => rfl, fun _ => id, fun j t hj => ?_⟩
    change _ ∈ Function.update R.sent f _ j
    by_cases heq : j = f
    · rw [heq] at hj
      rw [heq, Function.update_self]
      exact List.mem_append_left _ hj
    · rwa [Function.update_of_ne heq]
  · exact .refl R

theorem forward_asks {i f : Fin n} {tag : Tag} (hf : f ≠ i) (hstate : (R.node f).state ≠ .notConnected) :
    (forwardStopRequest i tag R f).requestedStop f = true ∨
      .stopRequest tag ∈ (forwardStopRequest i tag R f).sent f := by
  unfold forwardStopRequest
  split_ifs with hask
  · refine .inr ?_
    change _ ∈ Function.update R.sent f _ f
    rw [Function.update_self]
    exact List.mem_append_right _ List.mem_cons_self
  · exact .inl (Bool.eq_true_of_not_eq_false fun hne => hask ⟨hf, hne⟩)

theorem propose_eq (R : Rti n) (tag : Tag) :
    proposeStopTag R tag = { R with maxStopTag := max R.maxStopTag tag } := by
  simp only [proposeStopTag, gt_iff_lt, zero_lt_lfTagCompare]
  split_ifs with h
  · rw [max_eq_right h.le]
  · rw [max_eq_left (not_lt.mp h)]

theorem continues_propose (R : Rti n) (tag : Tag) : Continues R (proposeStopTag R tag) := by
  rw [propose_eq]
  exact ⟨rfl, fun _ => rfl, fun _ => id, fun _ _ => id⟩

theorem stopRequest_mem_propose {R : Rti n} {i j : Fin n} {tag p : Tag}
    (h : .stopRequest tag ∈ (markFederateRequestingStop (proposeStopTag R p) i).2.sent j) :
    .stopRequest tag ∈ R.sent j := by
  rwa [stopRequest_mem_mark, propose_eq] at h

theorem node_handleResign (R : Rti n) (i : Fin n) : (handleResign R i).node =
    Function.update R.node i { R.node i with state := .notConnected, nextEvent := foreverTag } := rfl

end Counting

end LFBenchmarks.Federated.Stop
