import LFBenchmarks.Federated.Safety
import LFBenchmarks.Federated.Stop

namespace LFBenchmarks.Federated.Stop

open ReactorC

section Stages

def ToRti.proposal : ToRti → Option Tag
  | .stopRequest tag => some tag
  | .stopRequestReply tag => some tag
  | .resign => none

def ToFederate.granted : ToFederate → Option Tag
  | .stopRequest _ => none
  | .stopGranted tag => some tag

structure Idle (own : Tag) (f : Federate) : Prop where
  lfStopRequested : f.lfStopRequested = false
  receivedStopRequestFromRti : f.receivedStopRequestFromRti = false
  requestors : f.requestors = 0
  horizon : f.horizon = foreverTag
  stopTag : f.stopTag = own

structure Waiting (own : Tag) (f : Federate) (p : Tag) : Prop extends Blocked f p where
  lfStopRequested : f.lfStopRequested = true
  stopTag : f.stopTag = own

structure Stopped (own : Tag) (f : Federate) (maxStopTag : Tag) : Prop where
  lfStopRequested : f.lfStopRequested = true
  requestors : f.requestors = 0
  stopTag : f.stopTag = min own maxStopTag

/-- How far a federate with stop tag `own` is, as the infrastructure has it marked, connected and sent
grants: it has not heard of a stop, its proposal is under way, it is counted, or it has read the
grant. -/
inductive Stage (own : Tag) (f : Federate) (marked : Bool) (connected : Prop) (maxStopTag : Tag)
    (sent : Bool) (grants : List Tag) : Prop
  | idle (hidle : Idle own f) (hout : f.outbox.filterMap ToRti.proposal = [])
      (hmarked : connected → marked = false) (hgrants : grants = [])
  | proposed (p : Tag) (hwaiting : Waiting own f p) (hout : f.outbox.filterMap ToRti.proposal = [p])
      (hmarked : connected → marked = false) (hgrants : grants = [])
  | counted (p : Tag) (hwaiting : Waiting own f p) (hout : f.outbox.filterMap ToRti.proposal = [])
      (hmarked : marked = true) (hle : p ≤ maxStopTag) (hbefore : sent = false → grants = [])
      (hafter : sent = true → connected → grants = [maxStopTag])
      (hgrants : grants = [] ∨ grants = [maxStopTag])
  | stopped (hstopped : Stopped own f maxStopTag) (hout : f.outbox.filterMap ToRti.proposal = [])
      (hmarked : marked = true) (hsent : sent = true) (hgrants : grants = [])

variable {own : Tag} {f : Federate} {marked sent : Bool} {connected : Prop} {maxStopTag : Tag}
  {grants : List Tag}

theorem Waiting.withOutbox {p : Tag} {outbox : List ToRti} {resigned : Bool} (h : Waiting own f p) :
    Waiting own { f with outbox := outbox, resigned := resigned } p :=
  ⟨⟨h.requestors, h.currentTag_lt, h.horizon_le⟩, h.lfStopRequested, h.stopTag⟩

theorem Waiting.advance {p tag : Tag} (hwait : ¬f.WaitsOnTagBarrier tag) (h : Waiting own f p) :
    Waiting own { f with currentTag := tag } p := by
  refine ⟨⟨h.requestors, lt_of_not_ge fun hle => hwait ⟨?_, ?_⟩, h.horizon_le⟩, h.lfStopRequested,
    h.stopTag⟩
  · rw [h.requestors]
    exact Int.one_pos
  · exact (zero_le_lfTagCompare _ _).mpr hle

theorem Stage.advance {tag : Tag} (hwait : ¬f.WaitsOnTagBarrier tag)
    (h : Stage own f marked connected maxStopTag sent grants) :
    Stage own { f with currentTag := tag } marked connected maxStopTag sent grants := by
  cases h with
  | idle hidle hout hmarked hgrants => exact .idle { hidle with } hout hmarked hgrants
  | proposed p hwaiting hout hmarked hgrants =>
    exact .proposed p (hwaiting.advance hwait) hout hmarked hgrants
  | counted p hwaiting hout hmarked hle hbefore hafter hgrants =>
    exact .counted p (hwaiting.advance hwait) hout hmarked hle hbefore hafter hgrants
  | stopped hstopped hout hmarked hsent hgrants => exact .stopped { hstopped with } hout hmarked hsent hgrants

/-- What is not a proposal comes and goes. -/
theorem Stage.withOutbox {outbox : List ToRti} {resigned : Bool}
    (hsame : outbox.filterMap ToRti.proposal = f.outbox.filterMap ToRti.proposal)
    (h : Stage own f marked connected maxStopTag sent grants) :
    Stage own { f with outbox := outbox, resigned := resigned } marked connected maxStopTag sent grants := by
  cases h with
  | idle hidle hout hmarked hgrants => exact .idle { hidle with } (hsame.trans hout) hmarked hgrants
  | proposed p hwaiting hout hmarked hgrants =>
    exact .proposed p hwaiting.withOutbox (hsame.trans hout) hmarked hgrants
  | counted p hwaiting hout hmarked hle hbefore hafter hgrants =>
    exact .counted p hwaiting.withOutbox (hsame.trans hout) hmarked hle hbefore hafter hgrants
  | stopped hstopped hout hmarked hsent hgrants =>
    exact .stopped { hstopped with } (hsame.trans hout) hmarked hsent hgrants

theorem Stage.resign (h : Stage own f marked connected maxStopTag sent grants) :
    Stage own { f.write .resign with resigned := true } marked connected maxStopTag sent grants := by
  change Stage own { f with outbox := f.outbox ++ [.resign], resigned := true } _ _ _ _ _
  exact h.withOutbox (by simp [ToRti.proposal])

theorem Stage.idle_of_not_requested (hnot : ¬f.lfStopRequested = true)
    (h : Stage own f marked connected maxStopTag sent grants) : Idle own f ∧
      f.outbox.filterMap ToRti.proposal = [] ∧ (connected → marked = false) ∧ grants = [] := by
  cases h with
  | idle hidle hout hmarked hgrants => exact ⟨hidle, hout, hmarked, hgrants⟩
  | proposed p hwaiting => exact absurd hwaiting.lfStopRequested hnot
  | counted p hwaiting => exact absurd hwaiting.lfStopRequested hnot
  | stopped hstopped => exact absurd hstopped.lfStopRequested hnot

theorem Stage.lfRequestStop (hroom : f.currentTag.microstep ≠ -1)
    (h : Stage own f marked connected maxStopTag sent grants) :
    Stage own (lfRequestStop f) marked connected maxStopTag sent grants := by
  by_cases hrequested : f.lfStopRequested = true
  · rwa [Stop.lfRequestStop, if_pos hrequested]
  · obtain ⟨hidle, hout, hmarked, hgrants⟩ := h.idle_of_not_requested hrequested
    have hmax : (if lfTagCompare f.currentTag neverTag > 0 then f.currentTag else neverTag) =
        f.currentTag := by
      simp only [gt_iff_lt, zero_lt_lfTagCompare]
      exact ite_eq_left_iff.mpr fun h => (le_bot_iff.mp (not_lt.mp h)).symm
    have hnext := lt_nextMicrostep hroom
    have hblocked := blocked_incrementTagBarrier (f := { f with lfStopRequested := true })
      hidle.requestors hidle.horizon hroom hnext hnext.le
    rw [Stop.lfRequestStop, if_neg hrequested]
    simp only [hmax]
    rw [if_neg (by simp [incrementTagBarrier, hidle.receivedStopRequestFromRti])]
    exact .proposed _ ⟨{ hblocked with }, rfl, hidle.stopTag⟩
      (by simp [Federate.write, incrementTagBarrier, hout, ToRti.proposal]) hmarked hgrants

theorem Stage.handleStopRequest {tag : Tag} (hroom : f.currentTag.microstep ≠ -1)
    (h : Stage own f marked connected maxStopTag sent grants) :
    Stage own (handleStopRequest f tag) marked connected maxStopTag sent grants := by
  by_cases hrequested : f.lfStopRequested = true
  · rwa [Stop.handleStopRequest, if_pos hrequested]
  · obtain ⟨hidle, hout, hmarked, hgrants⟩ := h.idle_of_not_requested hrequested
    rw [Stop.handleStopRequest, if_neg hrequested,
      if_neg (Bool.eq_false_iff.mp hidle.receivedStopRequestFromRti)]
    simp only [lfTagCompare_le_zero]
    have hoffer : f.currentTag < if tag ≤ f.currentTag then nextMicrostep f.currentTag else tag := by
      split_ifs with hle
      · exact lt_nextMicrostep hroom
      · exact not_le.mp hle
    have hblocked := blocked_incrementTagBarrier
      (f := { f with lfStopRequested := true, receivedStopRequestFromRti := true })
      hidle.requestors hidle.horizon hroom hoffer le_rfl
    exact .proposed _ ⟨{ hblocked with }, rfl, hidle.stopTag⟩
      (by simp [Federate.write, incrementTagBarrier, hout, ToRti.proposal]) hmarked hgrants

/-- Only a federate that waits for it has a grant to read, and the grant is in its future. -/
theorem Stage.granted {tag : Tag} (hmem : tag ∈ grants)
    (h : Stage own f marked connected maxStopTag sent grants) :
    tag = maxStopTag ∧ f.currentTag < tag ∧ grants = [tag] ∧ sent = true ∧ marked = true ∧
      f.outbox.filterMap ToRti.proposal = [] ∧ ∃ p, Waiting own f p := by
  have hne : grants ≠ [] := List.ne_nil_of_mem hmem
  cases h with
  | idle hidle hout hmarked hgrants => exact absurd hgrants hne
  | proposed p hwaiting hout hmarked hgrants => exact absurd hgrants hne
  | counted p hwaiting hout hmarked hle hbefore hafter hgrants =>
    have hone := hgrants.resolve_left hne
    obtain rfl := List.mem_singleton.mp (hone ▸ hmem)
    have hsent : sent = true := Bool.eq_true_of_not_eq_false fun hnot => hne (hbefore hnot)
    exact ⟨rfl, hwaiting.currentTag_lt_proposed.trans_le hle, hone, hsent, hmarked, hout, p, hwaiting⟩
  | stopped hstopped hout hmarked hsent hgrants => exact absurd hgrants hne

theorem Stage.handleStopGranted {tag : Tag} {rest : List Tag}
    (h : Stage own f marked connected maxStopTag sent (tag :: rest)) : Stop.handleStopGranted f tag =
        { f with stopTag := min f.stopTag tag, requestors := 0, horizon := foreverTag } ∧
      Stage own (handleStopGranted f tag) marked connected maxStopTag sent rest := by
  obtain ⟨rfl, hlt, hone, hsent, hmarked, hout, p, hwaiting⟩ := h.granted List.mem_cons_self
  have heq := handleStopGranted_eq hwaiting.requestors hlt
  refine ⟨heq, ?_⟩
  rw [heq]
  exact .stopped ⟨hwaiting.lfStopRequested, rfl, congrArg (min · tag) hwaiting.stopTag⟩ hout hmarked
    hsent (List.cons.inj hone).2

/-- The latest tag proposed only grows until it is granted. -/
theorem Stage.later {tag : Tag} (hlater : maxStopTag ≤ tag)
    (h : Stage own f marked connected maxStopTag false grants) :
    Stage own f marked connected tag false grants := by
  cases h with
  | idle hidle hout hmarked hgrants => exact .idle hidle hout hmarked hgrants
  | proposed p hwaiting hout hmarked hgrants => exact .proposed p hwaiting hout hmarked hgrants
  | counted p hwaiting hout hmarked hle hbefore hafter hgrants =>
    exact .counted p hwaiting hout hmarked (hle.trans hlater) hbefore
      (fun hsent => absurd hsent Bool.false_ne_true) (.inl (hbefore rfl))
  | stopped hstopped hout hmarked hsent hgrants => exact absurd hsent Bool.false_ne_true

theorem Stage.disconnect {connected' : Prop} (himp : connected' → connected)
    (h : Stage own f marked connected maxStopTag sent grants) :
    Stage own f marked connected' maxStopTag sent grants := by
  cases h with
  | idle hidle hout hmarked hgrants => exact .idle hidle hout (hmarked ∘ himp) hgrants
  | proposed p hwaiting hout hmarked hgrants => exact .proposed p hwaiting hout (hmarked ∘ himp) hgrants
  | counted p hwaiting hout hmarked hle hbefore hafter hgrants =>
    exact .counted p hwaiting hout hmarked hle hbefore (fun hsent hc => hafter hsent (himp hc)) hgrants
  | stopped hstopped hout hmarked hsent hgrants => exact .stopped hstopped hout hmarked hsent hgrants

/-- The infrastructure counts a federate that is gone. -/
theorem Stage.markAbsent (habsent : ¬connected)
    (h : Stage own f marked connected maxStopTag sent grants) :
    Stage own f true connected maxStopTag sent grants := by
  cases h with
  | idle hidle hout hmarked hgrants => exact .idle hidle hout (fun hc => absurd hc habsent) hgrants
  | proposed p hwaiting hout hmarked hgrants =>
    exact .proposed p hwaiting hout (fun hc => absurd hc habsent) hgrants
  | counted p hwaiting hout hmarked hle hbefore hafter hgrants =>
    exact .counted p hwaiting hout rfl hle hbefore hafter hgrants
  | stopped hstopped hout hmarked hsent hgrants => exact .stopped hstopped hout rfl hsent hgrants

theorem Stage.grant (hconnected : connected)
    (h : Stage own f true connected maxStopTag false grants) :
    Stage own f true connected maxStopTag true (grants ++ [maxStopTag]) := by
  cases h with
  | idle hidle hout hmarked hgrants => exact absurd (hmarked hconnected).symm Bool.false_ne_true
  | proposed p hwaiting hout hmarked hgrants =>
    exact absurd (hmarked hconnected).symm Bool.false_ne_true
  | counted p hwaiting hout hmarked hle hbefore hafter hgrants =>
    rw [hbefore rfl, List.nil_append]
    exact .counted p hwaiting hout rfl hle (fun hsent => absurd hsent.symm Bool.false_ne_true)
      (fun _ _ => rfl) (.inr rfl)
  | stopped hstopped hout hmarked hsent hgrants => exact absurd hsent Bool.false_ne_true

theorem Stage.passOver (habsent : ¬connected)
    (h : Stage own f marked connected maxStopTag false grants) :
    Stage own f marked connected maxStopTag true grants := by
  cases h with
  | idle hidle hout hmarked hgrants => exact .idle hidle hout hmarked hgrants
  | proposed p hwaiting hout hmarked hgrants => exact .proposed p hwaiting hout hmarked hgrants
  | counted p hwaiting hout hmarked hle hbefore hafter hgrants =>
    exact .counted p hwaiting hout hmarked hle (fun hsent => absurd hsent.symm Bool.false_ne_true)
      (fun _ hc => absurd hc habsent) hgrants
  | stopped hstopped hout hmarked hsent hgrants => exact absurd hsent Bool.false_ne_true

/-- The infrastructure reads a proposal. -/
theorem Stage.count {m : ToRti} {rest : List ToRti} {p : Tag} (hconnected : connected)
    (hread : f.outbox = m :: rest) (hm : m.proposal = some p)
    (h : Stage own f marked connected maxStopTag sent grants) :
    marked = false ∧ ∀ tag, p ≤ tag →
      Stage own { f with outbox := rest } true connected tag false grants := by
  have hcons : f.outbox.filterMap ToRti.proposal = p :: rest.filterMap ToRti.proposal := by
    rw [hread, List.filterMap_cons_some hm]
  cases h with
  | idle hidle hout => exact absurd (hcons ▸ hout) (List.cons_ne_nil _ _)
  | proposed q hwaiting hout hmarked hgrants =>
    obtain ⟨rfl, hrest⟩ := List.cons.inj (hcons ▸ hout)
    exact ⟨hmarked hconnected, fun tag hle => .counted p hwaiting.withOutbox hrest rfl hle
      (fun _ => hgrants) (fun hsent => absurd hsent Bool.false_ne_true) (.inl hgrants)⟩
  | counted q hwaiting hout => exact absurd (hcons ▸ hout) (List.cons_ne_nil _ _)
  | stopped hstopped hout => exact absurd (hcons ▸ hout) (List.cons_ne_nil _ _)

/-- Whoever has heard of the stop is counted, unless the proposal is under way. -/
theorem Stage.marked_of_requested (hrequested : f.lfStopRequested = true) (hquiet : f.outbox = [])
    (h : Stage own f marked connected maxStopTag sent grants) : marked = true := by
  cases h with
  | idle hidle => exact absurd (hidle.lfStopRequested.symm.trans hrequested) Bool.false_ne_true
  | proposed p hwaiting hout =>
    rw [hquiet] at hout
    exact absurd hout.symm (List.cons_ne_nil _ _)
  | counted p hwaiting hout hmarked => exact hmarked
  | stopped hstopped hout hmarked => exact hmarked

theorem Stage.stopTag (h : Stage own f marked connected maxStopTag sent grants) :
    f.stopTag = own ∨ sent = true ∧ f.stopTag = min own maxStopTag := by
  cases h with
  | idle hidle => exact .inl hidle.stopTag
  | proposed p hwaiting => exact .inl hwaiting.stopTag
  | counted p hwaiting => exact .inl hwaiting.stopTag
  | stopped hstopped hout hmarked hsent => exact .inr ⟨hsent, hstopped.stopTag⟩

/-- A connected federate that is counted, with no grant left to read, has read it. -/
theorem Stage.stopped_of_sent (hconnected : connected)
    (h : Stage own f true connected maxStopTag true []) : Stopped own f maxStopTag := by
  cases h with
  | idle hidle hout hmarked => exact absurd (hmarked hconnected).symm Bool.false_ne_true
  | proposed p hwaiting hout hmarked => exact absurd (hmarked hconnected).symm Bool.false_ne_true
  | counted p hwaiting hout hmarked hle hbefore hafter =>
    exact absurd (hafter rfl hconnected).symm (List.cons_ne_nil _ _)
  | stopped hstopped => exact hstopped

end Stages

section Counts

variable {n : Nat} {K : Type} {F : Federation n K} {fed : Fin n → Federate} {R : Rti n}

def Staged (F : Federation n K) (fed : Fin n → Federate) (R : Rti n) : Prop :=
  ∀ i, Stage (F.stopTag i) (fed i) (R.requestedStop i) ((R.node i).state ≠ .notConnected) R.maxStopTag
    R.stopGrantedAlreadySent ((R.sent i).filterMap ToFederate.granted)

/-- The count is right, and nothing is granted before it is complete. -/
structure Tally (R : Rti n) : Prop where
  num : R.numHandlingStop = (Finset.univ.filter fun i => R.requestedStop i = true).card
  granted : R.stopGrantedAlreadySent = true → ∀ i, R.requestedStop i = true

theorem Tally.num_eq (h : Tally R) : R.numHandlingStop = n ↔ ∀ i, R.requestedStop i = true := by
  have hcard := Finset.card_filter_eq_iff (s := Finset.univ) (p := fun i => R.requestedStop i = true)
  rw [Finset.card_univ, Fintype.card_fin] at hcard
  rw [h.num, hcard]
  simp

theorem Tally.count (h : Tally R) (i : Fin n) : Tally (countRequestingStop R i) := by
  refine ⟨?_, fun hsent j => ?_⟩
  · unfold countRequestingStop
    split_ifs with hmarked
    · exact h.num
    · have hinsert : (Finset.univ.filter fun j => Function.update R.requestedStop i true j = true) =
          insert i (Finset.univ.filter fun j => R.requestedStop j = true) := by
        ext j
        by_cases hj : j = i <;> simp [hj, Function.update_of_ne]
      change R.numHandlingStop + 1 = _
      rw [hinsert, Finset.card_insert_of_notMem (by simpa using hmarked), h.num]
  · rw [stopGrantedAlreadySent_count] at hsent
    rw [requestedStop_count]
    by_cases hj : j = i
    · rw [hj, Function.update_self]
    · rw [Function.update_of_ne hj]
      exact h.granted hsent j

theorem Tally.propose (h : Tally R) (tag : Tag) : Tally (proposeStopTag R tag) := by
  rw [propose_eq]
  exact ⟨h.num, h.granted⟩

theorem Staged.broadcast (hall : ∀ i, R.requestedStop i = true) (h : Staged F fed R) :
    Staged F fed (broadcastStopTimeToFederates R) := by
  by_cases hsent : R.stopGrantedAlreadySent = true
  · rwa [broadcastStopTimeToFederates, if_pos hsent]
  intro i
  have hi := h i
  rw [hall i, Bool.eq_false_iff.mpr hsent] at hi
  rw [state_broadcast, requestedStop_broadcast, stopGrantedAlreadySent_broadcast, hall i]
  rw [broadcastStopTimeToFederates, if_neg hsent]
  dsimp only
  split_ifs with hstate
  · exact hi.passOver (not_not.mpr hstate)
  · rw [List.filterMap_append]
    exact hi.grant hstate

theorem Staged.propose (tag : Tag) (hsent : R.stopGrantedAlreadySent = false) (h : Staged F fed R) :
    Staged F fed (proposeStopTag R tag) := by
  rw [propose_eq]
  intro i
  have hi := h i
  change Stage _ _ _ _ (max R.maxStopTag tag) R.stopGrantedAlreadySent _
  rw [hsent] at hi ⊢
  exact hi.later (le_max_left _ _)

theorem Staged.countAbsent {i : Fin n} (habsent : (R.node i).state = .notConnected)
    (h : Staged F fed R) : Staged F fed (countRequestingStop R i) := by
  intro j
  have hj := h j
  rw [requestedStop_count, node_count, maxStopTag_count, stopGrantedAlreadySent_count, sent_count]
  by_cases heq : j = i
  · rw [heq] at hj ⊢
    rw [Function.update_self]
    exact hj.markAbsent (not_not.mpr habsent)
  · rwa [Function.update_of_ne heq]

/-- What holds of the federates and the infrastructure whenever it is not at work on a message. -/
structure Consistent (F : Federation n K) (fed : Fin n → Federate) (R : Rti n) : Prop where
  staged : Staged F fed R
  tally : Tally R
  complete : Fin n → (∀ i, R.requestedStop i = true) → R.stopGrantedAlreadySent = true

theorem Consistent.mark {i : Fin n} (hstaged : Staged F fed (countRequestingStop R i))
    (htally : Tally R) : Consistent F fed (markFederateRequestingStop R i).2 := by
  have hcount := htally.count i
  rw [mark_snd]
  split_ifs with hnum
  · have hall := hcount.num_eq.mp hnum
    refine ⟨hstaged.broadcast hall, ⟨?_, fun _ => ?_⟩, fun _ _ => stopGrantedAlreadySent_broadcast _⟩
    · rw [numHandlingStop_broadcast, requestedStop_broadcast]
      exact hcount.num
    · rwa [requestedStop_broadcast]
  · exact ⟨hstaged, hcount, fun _ hall => absurd (hcount.num_eq.mpr hall) hnum⟩

theorem Consistent.withSent {sent : Fin n → List ToFederate} (h : Consistent F fed R)
    (hsent : ∀ i, (sent i).filterMap ToFederate.granted = (R.sent i).filterMap ToFederate.granted) :
    Consistent F fed { R with sent := sent } where
  staged i := by
    change Stage _ _ _ _ _ _ ((sent i).filterMap _)
    rw [hsent]
    exact h.staged i
  tally := ⟨h.tally.num, h.tally.granted⟩
  complete := h.complete

theorem Consistent.forward (h : Consistent F fed R) (i : Fin n) (tag : Tag) (f : Fin n) :
    Consistent F fed (forwardStopRequest i tag R f) := by
  unfold forwardStopRequest
  split_ifs with hask hstate
  · exact .mark (h.staged.countAbsent hstate) h.tally
  · refine h.withSent fun j => ?_
    by_cases heq : j = f
    · rw [heq, Function.update_self, List.filterMap_append]
      exact List.append_nil _
    · rw [Function.update_of_ne heq]
  · exact h

theorem foldl_forward (i : Fin n) (tag : Tag) (fs : List (Fin n)) (h : Consistent F fed R) :
    Consistent F fed (fs.foldl (forwardStopRequest i tag) R) ∧
      Continues R (fs.foldl (forwardStopRequest i tag) R) ∧
      ∀ f ∈ fs, f ≠ i → (R.node f).state ≠ .notConnected →
        (fs.foldl (forwardStopRequest i tag) R).requestedStop f = true ∨
          .stopRequest tag ∈ (fs.foldl (forwardStopRequest i tag) R).sent f := by
  induction fs generalizing R with
  | nil => exact ⟨h, .refl R, fun f hf => absurd hf List.not_mem_nil⟩
  | cons g fs ih =>
    rw [List.foldl_cons]
    have hstep := continues_forward i tag R g
    obtain ⟨hconsistent, hcontinues, hasks⟩ := ih (h.forward i tag g)
    refine ⟨hconsistent, hstep.trans hcontinues, fun f hf hne hstate => ?_⟩
    rcases List.mem_cons.mp hf with rfl | hf
    · exact (forward_asks hne hstate).imp (hcontinues.requestedStop f) (hcontinues.stopRequest f tag)
    · exact hasks f hf hne (by rwa [hstep.state])

end Counts

section Runs

variable {n : Nat} {K : Type} {F : Federation n K} {s t : State n}

theorem federate_setFederate (s : State n) (i : Fin n) (f : Federate) :
    (s.setFederate i f).federate = Function.update s.federate i f := rfl

/-- A stop asked for anywhere gets to every federate, and a federate that gets it answers. -/
structure Invariant (F : Federation n K) (s : State n) : Prop where
  consistent : Consistent F s.federate s.rti
  overdue : ∀ i, (s.federate i).overdue = false
  asked : ∀ i, s.rti.requestedStop i = true →
    s.rti.stopInProgress = true ∨ s.rti.stopGrantedAlreadySent = true
  inProgress : ∀ i tag, .stopRequest tag ∈ s.rti.sent i ∨ .stopRequestReply tag ∈ (s.federate i).outbox →
    s.rti.stopInProgress = true
  forwarded : s.rti.stopInProgress = true → ∀ i, (s.rti.node i).state ≠ .notConnected →
    s.rti.requestedStop i = true ∨ (s.federate i).lfStopRequested = true ∨
      ∃ tag, .stopRequest tag ∈ s.rti.sent i

theorem invariant_initial : Invariant F (initial F) where
  consistent := {
    staged := fun i => .idle ⟨rfl, rfl, rfl, rfl, rfl⟩ rfl (fun _ => rfl) rfl
    tally := ⟨by simp [initial], fun h => absurd h.symm Bool.false_ne_true.symm⟩
    complete := fun i h => absurd (h i) Bool.false_ne_true }
  overdue _ := rfl
  asked _ h := absurd h Bool.false_ne_true
  inProgress _ _ h := by
    rcases h with h | h <;> exact absurd h List.not_mem_nil
  forwarded h := absurd h Bool.false_ne_true

/-- A federate takes a step, with what it has not read then. -/
theorem Invariant.federate {i : Fin n} {f : Federate} {rest : List ToFederate} (h : Invariant F s)
    (hstage : Stage (F.stopTag i) f (s.rti.requestedStop i) ((s.rti.node i).state ≠ .notConnected)
      s.rti.maxStopTag s.rti.stopGrantedAlreadySent (rest.filterMap ToFederate.granted))
    (hoverdue : f.overdue = false) (hrest : ∀ m ∈ rest, m ∈ s.rti.sent i)
    (hreply : ∀ tag, .stopRequestReply tag ∈ f.outbox →
      .stopRequestReply tag ∈ (s.federate i).outbox ∨ s.rti.stopInProgress = true)
    (hasked : (s.federate i).lfStopRequested = true ∨ (∃ tag, .stopRequest tag ∈ s.rti.sent i) →
      f.lfStopRequested = true ∨ ∃ tag, .stopRequest tag ∈ rest) :
    Invariant F { s.setFederate i f with
      rti := { s.rti with sent := Function.update s.rti.sent i rest } } where
  consistent := {
    staged := fun j => by
      change Stage _ (Function.update s.federate i f j) _ _ _ _
        ((Function.update s.rti.sent i rest j).filterMap _)
      by_cases heq : j = i
      · rw [heq, Function.update_self, Function.update_self]
        exact hstage
      · rw [Function.update_of_ne heq, Function.update_of_ne heq]
        exact h.consistent.staged j
    tally := ⟨h.consistent.tally.num, h.consistent.tally.granted⟩
    complete := h.consistent.complete }
  overdue j := by
    change (Function.update s.federate i f j).overdue = false
    by_cases heq : j = i
    · rw [heq, Function.update_self, hoverdue]
    · rw [Function.update_of_ne heq, h.overdue]
  asked := h.asked
  inProgress j tag hj := by
    change s.rti.stopInProgress = true
    change _ ∈ Function.update s.rti.sent i rest j ∨ _ ∈ (Function.update s.federate i f j).outbox at hj
    by_cases heq : j = i
    · rw [heq, Function.update_self, Function.update_self] at hj
      rcases hj with hj | hj
      · exact h.inProgress i tag (.inl (hrest _ hj))
      · exact (hreply tag hj).elim (fun hold => h.inProgress i tag (.inr hold)) id
    · rw [Function.update_of_ne heq, Function.update_of_ne heq] at hj
      exact h.inProgress j tag hj
  forwarded hprogress j hstate := by
    change s.rti.requestedStop j = true ∨ (Function.update s.federate i f j).lfStopRequested = true ∨
      ∃ tag, _ ∈ Function.update s.rti.sent i rest j
    have hold := h.forwarded hprogress j hstate
    by_cases heq : j = i
    · rw [heq] at hold ⊢
      rw [Function.update_self, Function.update_self]
      exact hold.imp_right hasked
    · rwa [Function.update_of_ne heq, Function.update_of_ne heq]

theorem Invariant.setFederate {i : Fin n} {f : Federate} (h : Invariant F s)
    (hstage : Stage (F.stopTag i) f (s.rti.requestedStop i) ((s.rti.node i).state ≠ .notConnected)
      s.rti.maxStopTag s.rti.stopGrantedAlreadySent ((s.rti.sent i).filterMap ToFederate.granted))
    (hoverdue : f.overdue = (s.federate i).overdue)
    (hreply : ∀ tag, .stopRequestReply tag ∈ f.outbox → .stopRequestReply tag ∈ (s.federate i).outbox)
    (hasked : (s.federate i).lfStopRequested = true → f.lfStopRequested = true) :
    Invariant F (s.setFederate i f) := by
  have hstep := h.federate hstage (hoverdue.trans (h.overdue i)) (fun _ => id)
    (fun tag htag => .inl (hreply tag htag)) (Or.imp_left hasked)
  rwa [Function.update_eq_self] at hstep

theorem Invariant.receive {i : Fin n} {m : ToFederate} {rest : List ToFederate} (h : Invariant F s)
    (hroom : (s.federate i).currentTag.microstep ≠ -1) (hsent : s.rti.sent i = m :: rest) :
    Invariant F { s.setFederate i (receive (s.federate i) m) with
      rti := { s.rti with sent := Function.update s.rti.sent i rest } } := by
  have hi := h.consistent.staged i
  have hrest : ∀ m ∈ rest, m ∈ s.rti.sent i := fun _ hm => hsent ▸ List.mem_cons_of_mem _ hm
  cases m with
  | stopRequest tag =>
    have hprogress := h.inProgress i tag (.inl (hsent ▸ List.mem_cons_self))
    rw [hsent, List.filterMap_cons_none rfl] at hi
    exact h.federate (hi.handleStopRequest hroom)
      ((overdue_handleStopRequest _ _).trans (h.overdue i)) hrest (fun _ _ => .inr hprogress)
      fun _ => .inl (lfStopRequested_handleStopRequest _ _)
  | stopGranted tag =>
    rw [hsent, List.filterMap_cons_some (f := ToFederate.granted) (b := tag) rfl] at hi
    obtain ⟨heq, hstage⟩ := hi.handleStopGranted
    refine h.federate hstage ?_ hrest (fun t ht => .inl ?_) ?_
    · exact (congrArg Federate.overdue heq).trans (h.overdue i)
    · exact (congrArg Federate.outbox heq) ▸ ht
    · refine Or.imp (fun hold => (congrArg Federate.lfStopRequested heq).trans hold) ?_
      rintro ⟨t, ht⟩
      rw [hsent] at ht
      exact ⟨t, (List.mem_cons.mp ht).resolve_left (by simp)⟩

/-- The infrastructure reads a message and leaves `R`. -/
theorem Invariant.infrastructure {i : Fin n} {m : ToRti} {rest : List ToRti} {R : Rti n}
    (h : Invariant F s) (hout : (s.federate i).outbox = m :: rest)
    (hconsistent : Consistent F (s.setFederate i { s.federate i with outbox := rest }).federate R)
    (hstate : ∀ j, (R.node j).state ≠ .notConnected → (s.rti.node j).state ≠ .notConnected)
    (hmarked : ∀ j, s.rti.requestedStop j = true → R.requestedStop j = true)
    (hsent : ∀ j tag, .stopRequest tag ∈ s.rti.sent j → .stopRequest tag ∈ R.sent j)
    (hasked : ∀ j, R.requestedStop j = true →
      R.stopInProgress = true ∨ R.stopGrantedAlreadySent = true)
    (hprogress : R.stopInProgress = true ∨ R.stopInProgress = s.rti.stopInProgress ∧
      ∀ j tag, .stopRequest tag ∈ R.sent j → .stopRequest tag ∈ s.rti.sent j)
    (hforwarded : R.stopInProgress = true → s.rti.stopInProgress = true ∨
      ∀ j, (R.node j).state ≠ .notConnected → R.requestedStop j = true ∨ ∃ tag, .stopRequest tag ∈ R.sent j) :
    Invariant F { s.setFederate i { s.federate i with outbox := rest } with rti := R } := by
  have hlocal : ∀ j, ((s.setFederate i { s.federate i with outbox := rest }).federate j).overdue =
        (s.federate j).overdue ∧
      ((s.setFederate i { s.federate i with outbox := rest }).federate j).lfStopRequested =
        (s.federate j).lfStopRequested ∧
      ∀ w ∈ ((s.setFederate i { s.federate i with outbox := rest }).federate j).outbox,
        w ∈ (s.federate j).outbox := by
    intro j
    by_cases heq : j = i
    · rw [heq, federate_setFederate, Function.update_self, hout]
      exact ⟨rfl, rfl, fun _ => List.mem_cons_of_mem _⟩
    · rw [federate_setFederate, Function.update_of_ne heq]
      exact ⟨rfl, rfl, fun _ => id⟩
  refine ⟨hconsistent, fun j => (hlocal j).1.trans (h.overdue j), hasked, fun j tag hj => ?_,
    fun hin j hj => ?_⟩
  · rcases hprogress with hin | ⟨hsame, hold⟩
    · exact hin
    · exact hsame.trans (h.inProgress j tag (hj.imp (hold j tag) ((hlocal j).2.2 _)))
  · rcases hforwarded hin with hin | hall
    · refine (h.forwarded hin j (hstate j hj)).imp (hmarked j) (Or.imp (fun hold => ?_) ?_)
      · exact (hlocal j).2.1.trans hold
      · rintro ⟨tag, htag⟩
        exact ⟨tag, hsent j tag htag⟩
    · exact (hall j hj).imp_right .inr

/-- Reading a proposal counts the federate, which had not been counted. -/
theorem Invariant.proposal {i : Fin n} {m : ToRti} {rest : List ToRti} {p : Tag} (h : Invariant F s)
    (hstate : (s.rti.node i).state ≠ .notConnected) (hout : (s.federate i).outbox = m :: rest)
    (hm : m.proposal = some p) : s.rti.requestedStop i = false ∧ s.rti.stopGrantedAlreadySent = false ∧
      Consistent F (s.setFederate i { s.federate i with outbox := rest }).federate
        (markFederateRequestingStop (proposeStopTag s.rti p) i).2 := by
  obtain ⟨hfresh, hcounted⟩ := (h.consistent.staged i).count hstate hout hm
  have hnone : s.rti.stopGrantedAlreadySent = false := Bool.eq_false_iff.mpr fun hsent =>
    Bool.false_ne_true (hfresh.symm.trans (h.consistent.tally.granted hsent i))
  refine ⟨hfresh, hnone, .mark (fun j => ?_) (h.consistent.tally.propose p)⟩
  rw [requestedStop_count, node_count, maxStopTag_count, stopGrantedAlreadySent_count, sent_count]
  have hstaged := h.consistent.staged.propose p hnone
  by_cases heq : j = i
  · rw [propose_eq]
    rw [heq, federate_setFederate, Function.update_self, Function.update_self]
    change Stage _ _ true _ (max s.rti.maxStopTag p) s.rti.stopGrantedAlreadySent _
    rw [hnone]
    exact hcounted _ (le_max_right _ _)
  · rw [federate_setFederate, Function.update_of_ne heq, Function.update_of_ne heq]
    exact hstaged j

/-- A proposal that leads to the grant, or comes in while the others are asked. -/
theorem Invariant.counted {i : Fin n} {m : ToRti} {rest : List ToRti} {p : Tag} (h : Invariant F s)
    (hstate : (s.rti.node i).state ≠ .notConnected) (hout : (s.federate i).outbox = m :: rest)
    (hm : m.proposal = some p)
    (hasked : (markFederateRequestingStop (proposeStopTag s.rti p) i).1 = true ∨
      (markFederateRequestingStop (proposeStopTag s.rti p) i).2.stopInProgress = true) :
    Invariant F { s.setFederate i { s.federate i with outbox := rest } with
      rti := (markFederateRequestingStop (proposeStopTag s.rti p) i).2 } := by
  have hcontinues := (continues_propose s.rti p).trans (continues_mark _ i)
  obtain ⟨-, -, hconsistent⟩ := h.proposal hstate hout hm
  exact h.infrastructure hout hconsistent (fun j hj => by rwa [hcontinues.state] at hj)
    hcontinues.requestedStop hcontinues.stopRequest (fun _ _ => hasked.symm.imp_right mark_fst)
    (.inr ⟨hcontinues.stopInProgress, fun _ _ => stopRequest_mem_propose⟩)
    fun hin => .inl (hcontinues.stopInProgress ▸ hin)

theorem Invariant.handleStopRequestMessage {i : Fin n} {rest : List ToRti} {p : Tag}
    (h : Invariant F s) (hstate : (s.rti.node i).state ≠ .notConnected)
    (hout : (s.federate i).outbox = .stopRequest p :: rest) :
    Invariant F { s.setFederate i { s.federate i with outbox := rest } with
      rti := handleStopRequestMessage s.rti i p } := by
  obtain ⟨hfresh, -, hconsistent⟩ := h.proposal hstate hout rfl
  rw [Stop.handleStopRequestMessage, if_neg (Bool.eq_false_iff.mp hfresh)]
  dsimp only
  split_ifs with hasked
  · exact h.counted hstate hout rfl hasked
  · have hcontinues := (continues_propose s.rti p).trans (continues_mark _ i)
    have hmarked : (markFederateRequestingStop (proposeStopTag s.rti p) i).2.requestedStop i = true := by
      rw [requestedStop_mark, Function.update_self]
    generalize (markFederateRequestingStop (proposeStopTag s.rti p) i).2 = R at *
    obtain ⟨hall, hforward, hasks⟩ := foldl_forward (R := { R with stopInProgress := true }) i
      R.maxStopTag (List.finRange n) ⟨hconsistent.staged,
        ⟨hconsistent.tally.num, hconsistent.tally.granted⟩, hconsistent.complete⟩
    have hprogress := hforward.stopInProgress
    refine h.infrastructure hout hall (fun j hj => ?_)
      (fun j hj => hforward.requestedStop j (hcontinues.requestedStop j hj))
      (fun j tag hj => hforward.stopRequest j tag (hcontinues.stopRequest j tag hj))
      (fun _ _ => .inl hprogress) (.inl hprogress) (fun _ => .inr fun j hj => ?_)
    · rwa [hforward.state, hcontinues.state] at hj
    · by_cases heq : j = i
      · exact .inl (hforward.requestedStop j (heq ▸ hmarked))
      · rw [hforward.state] at hj
        exact (hasks j (List.mem_finRange j) heq hj).imp_right fun hj => ⟨_, hj⟩

theorem Invariant.handleResign {i : Fin n} {rest : List ToRti} (h : Invariant F s)
    (hout : (s.federate i).outbox = .resign :: rest) :
    Invariant F { s.setFederate i { s.federate i with outbox := rest } with
      rti := handleResign s.rti i } := by
  have hstate : ∀ j, ((Stop.handleResign s.rti i).node j).state ≠ .notConnected →
      (s.rti.node j).state ≠ .notConnected := by
    intro j hj
    by_cases heq : j = i
    · rw [heq, node_handleResign, Function.update_self] at hj
      exact absurd rfl hj
    · rwa [node_handleResign, Function.update_of_ne heq] at hj
  refine h.infrastructure hout ⟨fun j => ?_, ⟨h.consistent.tally.num, h.consistent.tally.granted⟩,
    h.consistent.complete⟩ hstate (fun _ => id) (fun _ _ => id) h.asked (.inr ⟨rfl, fun _ _ => id⟩) .inl
  have hj := (h.consistent.staged j).disconnect (hstate j)
  by_cases heq : j = i
  · rw [heq] at hj ⊢
    rw [federate_setFederate, Function.update_self]
    exact hj.withOutbox (by rw [hout, List.filterMap_cons_none rfl])
  · rw [federate_setFederate, Function.update_of_ne heq]
    exact hj

theorem Invariant.handle {i : Fin n} {m : ToRti} {rest : List ToRti} (h : Invariant F s)
    (hstate : (s.rti.node i).state ≠ .notConnected) (hout : (s.federate i).outbox = m :: rest) :
    Invariant F { s.setFederate i { s.federate i with outbox := rest } with
      rti := handle s.rti i m } := by
  cases m with
  | stopRequest p => exact h.handleStopRequestMessage hstate hout
  | stopRequestReply p =>
    have hprogress := h.inProgress i p (.inr (hout ▸ List.mem_cons_self))
    have hcontinues := (continues_propose s.rti p).trans (continues_mark _ i)
    exact h.counted hstate hout rfl (.inr (hcontinues.stopInProgress.trans hprogress))
  | resign => exact h.handleResign hout

theorem Invariant.step (h : Invariant F s) (hroom : ∀ i, (s.federate i).currentTag.microstep ≠ -1)
    (hstep : Step s t) : Invariant F t := by
  cases hstep with
  | @advance i tag _ _ _ _ hwait =>
    exact h.setFederate ((h.consistent.staged i).advance hwait) rfl (fun _ => id) id
  | @requestStop i =>
    exact h.setFederate ((h.consistent.staged i).lfRequestStop (hroom i)) (overdue_lfRequestStop _)
      (fun _ => reply_mem_lfRequestStop) fun _ => lfStopRequested_lfRequestStop _
  | @resign i =>
    exact h.setFederate (h.consistent.staged i).resign rfl (by simp [Federate.write]) id
  | @receive i m rest hsent => exact h.receive (hroom i) hsent
  | @handle i m rest hstate hout => exact h.handle hstate hout

theorem Reachable.room (h : Reachable F s) (i : Fin n) : (s.federate i).currentTag.microstep ≠ -1 := by
  cases h with
  | initial => exact show (0 : UInt32) ≠ -1 by decide
  | step _ _ hroom => exact hroom i

theorem Reachable.invariant (h : Reachable F s) : Invariant F s := by
  induction h with
  | initial => exact invariant_initial
  | step hreach hstep _ ih => exact ih.step hreach.room hstep

theorem mem_granted {sent : List ToFederate} {tag : Tag} (h : .stopGranted tag ∈ sent) :
    tag ∈ sent.filterMap ToFederate.granted :=
  List.mem_filterMap.mpr ⟨_, h, rfl⟩

/-- In every reachable state all grants under way are for one tag, in the future of those they are for;
no federate has read one that was not; the tag of those that have is that of the others. When nothing is
under way and nobody has resigned, a stop asked for anywhere has been granted to all. -/
theorem stop_consensus (F : Federation n K) (s : State n) (h : Reachable F s) :
    (∀ i, (s.federate i).overdue = false) ∧
    (∀ i tag, .stopGranted tag ∈ s.rti.sent i →
      tag = s.rti.maxStopTag ∧ (s.federate i).currentTag < tag) ∧
    (∀ i, (s.federate i).stopTag = F.stopTag i ∨ s.rti.stopGrantedAlreadySent = true ∧
      (s.federate i).stopTag = min (F.stopTag i) s.rti.maxStopTag) ∧
    ((∀ i, (s.federate i).outbox = [] ∧ s.rti.sent i = [] ∧ (s.rti.node i).state ≠ .notConnected) →
      (∃ i, (s.federate i).lfStopRequested = true) →
      s.rti.stopGrantedAlreadySent = true ∧
        ∀ i, (s.federate i).stopTag = min (F.stopTag i) s.rti.maxStopTag) := by
  have hinv := h.invariant
  have hstage := hinv.consistent.staged
  refine ⟨hinv.overdue, fun i tag hmem => ?_, fun i => (hstage i).stopTag, fun hquiet hasked => ?_⟩
  · obtain ⟨heq, hlt, -⟩ := (hstage i).granted (mem_granted hmem)
    exact ⟨heq, hlt⟩
  · have hcounted : ∀ i, (s.federate i).lfStopRequested = true → s.rti.requestedStop i = true :=
      fun i hi => (hstage i).marked_of_requested hi (hquiet i).1
    obtain ⟨i, hi⟩ := hasked
    have hgranted : s.rti.stopGrantedAlreadySent = true := by
      rcases hinv.asked i (hcounted i hi) with hprogress | hgranted
      · -- every other federate has been asked, and has read the request
        refine hinv.consistent.complete i fun j => ?_
        obtain ⟨-, hsent, hstate⟩ := hquiet j
        rcases hinv.forwarded hprogress j hstate with hj | hj | ⟨tag, hj⟩
        · exact hj
        · exact hcounted j hj
        · exact absurd (hsent ▸ hj) List.not_mem_nil
      · exact hgranted
    refine ⟨hgranted, fun j => ?_⟩
    obtain ⟨-, hsent, hstate⟩ := hquiet j
    have hj := hstage j
    rw [hgranted, hinv.consistent.tally.granted hgranted j, hsent] at hj
    exact (hj.stopped_of_sent hstate).stopTag

/-- In the pipeline the receiver gets to 5 ns. -/
def pipelineAhead : State 2 :=
  (initial pipelineFederation).setFederate receiver
    { (initial pipelineFederation).federate receiver with currentTag := ⟨5, 0⟩ }

/-- The sender asks for a stop. -/
def pipelineRequested : State 2 :=
  pipelineAhead.setFederate sender (lfRequestStop (pipelineAhead.federate sender))

/-- The receiver is asked. -/
def pipelineForwarded : State 2 :=
  { pipelineRequested.setFederate sender { pipelineRequested.federate sender with outbox := [] } with
    rti := handle pipelineRequested.rti sender (.stopRequest ⟨0, 1⟩) }

/-- It makes a counteroffer. -/
def pipelineAnswered : State 2 :=
  { pipelineForwarded.setFederate receiver
      (receive (pipelineForwarded.federate receiver) (.stopRequest ⟨0, 1⟩)) with
    rti := { pipelineForwarded.rti with sent := Function.update pipelineForwarded.rti.sent receiver [] } }

/-- The stop is granted. -/
def pipelineGranted : State 2 :=
  { pipelineAnswered.setFederate receiver { pipelineAnswered.federate receiver with outbox := [] } with
    rti := handle pipelineAnswered.rti receiver (.stopRequestReply ⟨5, 1⟩) }

/-- The sender reads the grant. -/
def pipelineSettled : State 2 :=
  { pipelineGranted.setFederate sender
      (receive (pipelineGranted.federate sender) (.stopGranted ⟨5, 1⟩)) with
    rti := { pipelineGranted.rti with sent := Function.update pipelineGranted.rti.sent sender [] } }

/-- The receiver reads the grant. -/
def pipelineStopped : State 2 :=
  { pipelineSettled.setFederate receiver
      (receive (pipelineSettled.federate receiver) (.stopGranted ⟨5, 1⟩)) with
    rti := { pipelineSettled.rti with sent := Function.update pipelineSettled.rti.sent receiver [] } }

theorem reachable_pipelineStopped : Reachable pipelineFederation pipelineStopped := by
  have hahead : Reachable pipelineFederation pipelineAhead :=
    .step .initial (.advance rfl (by decide) (by decide) (by decide) (fun h => absurd h.1 (by decide)))
      (by decide)
  have hrequested : Reachable pipelineFederation pipelineRequested :=
    .step hahead (.requestStop rfl) (by decide)
  have hforwarded : Reachable pipelineFederation pipelineForwarded :=
    .step hrequested (.handle (by decide) (by decide)) (by decide)
  have hanswered : Reachable pipelineFederation pipelineAnswered :=
    .step hforwarded (.receive (by decide)) (by decide)
  have hgranted : Reachable pipelineFederation pipelineGranted :=
    .step hanswered (.handle (by decide) (by decide)) (by decide)
  have hsettled : Reachable pipelineFederation pipelineSettled :=
    .step hgranted (.receive (by decide)) (by decide)
  exact .step hsettled (.receive (by decide)) (by decide)

theorem quiet_pipelineStopped : ∀ i, (pipelineStopped.federate i).outbox = [] ∧
    pipelineStopped.rti.sent i = [] ∧ (pipelineStopped.rti.node i).state ≠ .notConnected := by
  decide

theorem stop_consensus_pipeline : Reachable pipelineFederation pipelineStopped ∧
    pipelineStopped.rti.stopGrantedAlreadySent = true ∧
    ∀ i, (pipelineStopped.federate i).stopTag =
      min (pipelineFederation.stopTag i) pipelineStopped.rti.maxStopTag :=
  ⟨reachable_pipelineStopped, (stop_consensus pipelineFederation pipelineStopped
    reachable_pipelineStopped).2.2.2 quiet_pipelineStopped ⟨sender, by decide⟩⟩

end Runs

end LFBenchmarks.Federated.Stop
