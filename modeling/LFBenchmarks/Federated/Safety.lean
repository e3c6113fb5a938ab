import LFBenchmarks.Federated.Handlers

namespace LFBenchmarks.Federated

open ReactorC Superdense Conservative

variable {n : Nat} {K : Type} {F : Federation n K}

section Federates

variable {s : State n K} {i : Fin n} {f' : Federate K} {written : Option (ToRti K)}

theorem backlog_of_outbox {s' : State n K} {j : Fin n} (hremoving : s'.removing j = s.removing j)
    (houtbox : (s'.federate j).outbox = (s.federate j).outbox ++ written.toList) :
    s'.backlog j = s.backlog j ++ written.toList := by
  rw [State.backlog, State.backlog, hremoving, houtbox, List.append_assoc]

theorem backlog_congr {s' : State n K} {j : Fin n} (hremoving : s'.removing j = s.removing j)
    (houtbox : (s'.federate j).outbox = (s.federate j).outbox) : s'.backlog j = s.backlog j := by
  rw [State.backlog, State.backlog, hremoving, houtbox]

/-- A federate moves by itself. -/
theorem Invariant.moves (hinv : Invariant F s) (hm : Moves F i (s.federate i) f' written)
    (hrange : (s.setFederate i f').InRange F) : Invariant F (s.setFederate i f') := by
  have hbacklog : (s.setFederate i f').backlog i = s.backlog i ++ written.toList :=
    backlog_of_outbox rfl (by simpa using hm.outbox)
  have hother : ∀ j, j ≠ i → (s.setFederate i f').backlog j = s.backlog j :=
    fun j hj => backlog_congr rfl (by simp [hj])
  refine ⟨hrange, fun j => ?_, hinv.safe.of_covers (monotone_arrive F) ?_⟩
  · rcases eq_or_ne j i with rfl | hj
    · rw [hbacklog]
      change Coordinated F j ((s.setFederate j f').federate j) (s.rti.node j) _ (s.rti.sent j) _
      rw [federate_setFederate, if_pos rfl]
      refine (hinv.coordinated j).moves hm fun port tag heq => ?_
      refine (hrange j).2 port tag ?_
      rw [federate_setFederate, if_pos rfl, hm.outbox, heq]
      simp
    · rw [hother j hj]
      change Coordinated F j ((s.setFederate i f').federate j) (s.rti.node j) _ (s.rti.sent j) _
      rw [federate_setFederate, if_neg hj]
      exact hinv.coordinated j
  · refine ⟨fun j halive => ?_, fun j y halive hy => ?_, fun port y hy => ?_⟩
    · change ((s.setFederate i f').federate j).phase.Alive at halive
      rw [federate_setFederate] at halive
      split_ifs at halive with hj
      · exact hj ▸ hm.alive halive
      · exact halive
    · obtain ⟨tag, hpending, rfl⟩ := hy
      change ((s.setFederate i f').federate j).phase.Alive at halive
      rw [federate_setFederate] at halive hpending
      split_ifs at halive hpending with hj
      · subst hj
        obtain ⟨x, hx, hpending⟩ := hm.pending halive _ tag hpending
        exact ⟨x.super, (super_le_super _ _).mpr hx, .inl ⟨x, hpending, rfl⟩⟩
      · exact ⟨_, le_rfl, .inl ⟨tag, hpending, rfl⟩⟩
    · obtain ⟨tag, hmem, rfl⟩ := hy
      refine ⟨_, le_rfl, ?_⟩
      by_cases hport : F.source port = i
      · rw [hport, hbacklog] at hmem
        rcases List.mem_append.mp hmem with hmem | hmem
        · exact .inFlight ⟨tag, hport ▸ hmem, rfl⟩
        · -- the message is written now, from an event at the current tag
          have hwritten : .taggedMessage port tag ∈ written := by simpa using hmem
          obtain ⟨-, hphase, rfl⟩ := hm.allowed _ hwritten
          have hintended := (hrange i).2 port (lfDelayTag (s.federate i).currentTag (F.delay port)) (by
            rw [federate_setFederate, if_pos rfl, hm.outbox, hwritten]
            simp)
          rw [super_intendedTag (hinv.coordinated i).valid.current hintended]
          subst hport
          refine .pending ?_ ⟨_, .current hphase, rfl⟩
          change (s.federate (F.source port)).phase.Alive
          rw [hphase]
          trivial
      · rw [hother _ hport] at hmem
        exact .inFlight ⟨tag, hmem, rfl⟩

/-- A federate reads what the infrastructure has written to it. -/
theorem Invariant.receive [DecidableEq K] (hinv : Invariant F s) {m : ToFederate K}
    {rest : List (ToFederate K)} (hsent : s.rti.sent i = m :: rest)
    (hr : Receives (F := F) (i := i) (s.federate i) f' (s.rti.node i) (s.rti.inTransitMessageTags i)
      (m :: rest) rest (s.backlog i) written)
    (hrange : State.InRange F { s.setFederate i f' with
      rti := { s.rti with sent := Function.update s.rti.sent i rest } }) :
    Invariant F { s.setFederate i f' with
      rti := { s.rti with sent := Function.update s.rti.sent i rest } } := by
  have hbacklog : (s.setFederate i f').backlog i = s.backlog i ++ written.toList :=
    backlog_of_outbox rfl (by simpa using hr.outbox)
  have hother : ∀ j, j ≠ i → (s.setFederate i f').backlog j = s.backlog j :=
    fun j hj => backlog_congr rfl (by simp [hj])
  refine ⟨hrange, fun j => ?_, hinv.safe.of_covers (monotone_arrive F) (.of_le ?_ ?_ ?_)⟩
  · change Coordinated F j ((s.setFederate i f').federate j) (s.rti.node j) _
      (Function.update s.rti.sent i rest j) ((s.setFederate i f').backlog j)
    rw [federate_setFederate]
    rcases eq_or_ne j i with rfl | hj
    · rw [if_pos rfl, Function.update_self, hbacklog]
      exact hr.coordinated
    · rw [if_neg hj, Function.update_of_ne hj, hother j hj]
      exact hinv.coordinated j
  · intro j halive
    change ((s.setFederate i f').federate j).phase.Alive at halive
    rw [federate_setFederate] at halive
    split_ifs at halive with hj
    · exact hj ▸ hr.alive halive
    · exact halive
  · rintro j y halive ⟨tag, hpending, rfl⟩
    change ((s.setFederate i f').federate j).phase.Alive at halive
    change Pending F j ((s.setFederate i f').federate j) (Function.update s.rti.sent i rest j) tag
      at hpending
    rw [federate_setFederate] at halive hpending
    rcases eq_or_ne j i with rfl | hj
    · rw [if_pos rfl] at halive hpending
      rw [Function.update_self] at hpending
      obtain ⟨x, hx, hpending⟩ := hr.pending halive tag hpending
      exact ⟨x.super, (super_le_super _ _).mpr hx, x, hsent ▸ hpending, rfl⟩
    · rw [if_neg hj, Function.update_of_ne hj] at hpending
      exact ⟨_, le_rfl, tag, hpending, rfl⟩
  · rintro port y ⟨tag, hmem, rfl⟩
    refine ⟨tag, ?_, rfl⟩
    change .taggedMessage port tag ∈ (s.setFederate i f').backlog (F.source port) at hmem
    by_cases hport : F.source port = i
    · rw [hport] at hmem ⊢
      rw [hbacklog] at hmem
      rcases List.mem_append.mp hmem with hmem | hmem
      · exact hmem
      · exact absurd (by simpa using hmem) (hr.written port tag)
    · rwa [hother _ hport] at hmem

end Federates

section Infrastructure

variable {s : State n K} {i : Fin n}

/-- What was confirmed is cleared from the messages in transit. -/
theorem Invariant.removeUpTo (hinv : Invariant F s) {tag : Tag} (hremoving : s.removing i = some tag) :
    Invariant F { s with
      rti := removeInTransit s.rti i tag
      removing := Function.update s.removing i none } := by
  refine ⟨hinv.inRange, fun j => ?_, hinv.safe.of_covers (monotone_arrive F)
    (.of_le (fun _ h => h) (fun _ y _ hy => ⟨y, le_rfl, hy⟩) ?_)⟩
  · have hj := hinv.coordinated j
    rcases eq_or_ne j i with rfl | hne
    · simp only [State.backlog, hremoving, Option.toList_some, List.map_cons, List.map_nil,
        List.cons_append, List.nil_append] at hj
      simpa [State.backlog, removeInTransit] using hj.removeUpTo
    · simpa [State.backlog, removeInTransit, hne] using hj
  · rintro port y ⟨tag', hmem, rfl⟩
    refine ⟨tag', ?_, rfl⟩
    rcases eq_or_ne (F.source port) i with heq | hne
    · simpa [State.backlog, heq, hremoving] using hmem
    · simpa [State.backlog, hne] using hmem

theorem Invariant.disconnect (hinv : Invariant F s) (hclosed : (s.federate i).phase = .closed)
    (hremoving : s.removing i = none) (houtbox : (s.federate i).outbox = []) :
    Invariant F { s with rti := s.rti.setNode i { s.rti.node i with state := .notConnected } } := by
  have hbacklog : s.backlog i = [] := by simp [State.backlog, hremoving, houtbox]
  refine ⟨hinv.inRange, fun j => ?_, ?_⟩
  · have hj := hinv.coordinated j
    change Coordinated F j (s.federate j) ((s.rti.setNode i _).node j) (s.rti.inTransitMessageTags j)
      (s.rti.sent j) (s.backlog j)
    rw [node_setNode]
    split_ifs with heq
    · subst heq
      rw [hbacklog] at hj ⊢
      refine hj.disconnect (hinv.inRange j).1 ?_
      rw [hclosed]
      exact id
    · exact hj
  · have hlast : (fun j => ((s.rti.setNode i { s.rti.node i with state := .notConnected }).node
        j).lastGranted.super) = fun j => (s.rti.node j).lastGranted.super := by
      funext j
      rw [node_setNode]
      split_ifs with hj
      · rw [hj]
      · rfl
    simp only [hlast]
    exact hinv.safe

end Infrastructure

section Runs

theorem coordinated_initial (i : Fin n) : Coordinated F i (F.initialFederate i)
    (F.initial.rti.node i) [] [] ([] : List (ToRti K)) := by
  have hrange : ∀ e ∈ (F.initialFederate i).eventQueue, F.InRange e.2 := by
    simpa [Federation.initialFederate] using F.initialEvents_inRange i
  have hvalid : Valid F i (F.initialFederate i) := {
    current := inRange_startTag
    atStart := fun hstart _ => List.mem_map_of_mem hstart
    fresh := fun _ => ⟨rfl, by simp [Federation.initialFederate], trivial⟩
    later := by simp [Federation.initialFederate]
    awaiting := by simp [Federation.initialFederate]
    started_le := by simp [Federation.initialFederate]
    granted_le := by simp [Federation.initialFederate]
    atStop := by simp [Federation.initialFederate] }
  refine {
    valid := hvalid
    granted := ⟨fun _ => le_rfl, by simp, .nil, by simp⟩
    written := {
      nextEvent := .inl rfl
      completed := .inl rfl
      confirmed := by simp
      announced := by simp
      transit := by simp
      sent := by simp
      resigned := by simp
      connected := fun h => absurd h (F.connected i) }
    promised := {
      skipped := .inl rfl
      skipped_granted := fun _ => le_rfl
      skipped_le := fun _ _ _ => bot_le
      promise := fun _ tag hpending => ⟨bot_le, ?_, trivial⟩ } }
  have hnever : neverTag < zeroTag := by decide
  exact hnever.trans_le (zeroTag_le_startTag.trans (startTag_le_own hvalid hrange hpending))

theorem invariant_initial : Invariant F F.initial := by
  have hrange : F.initial.InRange F := by
    intro i
    refine ⟨?_, by simp [Federation.initial, Federation.initialFederate]⟩
    simpa [Federation.initial, Federation.initialFederate] using F.initialEvents_inRange i
  refine ⟨hrange, coordinated_initial, fun e x ha => .inr (lt_of_lt_of_le ?_
    (zero_le_arrival hrange coordinated_initial ha))⟩
  change neverTag.super < zeroTag.super
  rw [super_lt_super]
  decide

variable {s t : State n K}

theorem Invariant.step_moves (hinv : Invariant F s) {i : Fin n} {f' : Federate K}
    {written : Option (ToRti K)} (hm : Moves F i (s.federate i) f' written)
    (hrange : (s.setFederate i f').InRange F) : Invariant F (s.setFederate i f') ∧
      ∀ j, ((s.setFederate i f').federate j).tardy = (s.federate j).tardy := by
  refine ⟨hinv.moves hm hrange, fun j => ?_⟩
  rw [federate_setFederate]
  split_ifs with hj
  · rw [hj, hm.tardy]
  · rfl

variable [DecidableEq K]

/-- Every step keeps the invariant, and no federate reads a message that is not in its future. -/
theorem Invariant.step (hcycle : ∀ j, F.isInZeroDelayCycle j = false)
    (hreacts : ∀ i, F.immediateUpstreams i ≠ [] → F.reactsAtStart i = true →
      F.startTag ∈ F.initialEvents i) (hinv : Invariant F s)
    (hstep : Step F s t) (hrange : t.InRange F) :
    Invariant F t ∧ ∀ i, (t.federate i).tardy = (s.federate i).tardy := by
  cases hstep with
  | @request i hphase =>
    obtain ⟨written, hm, -⟩ := Moves.sendNextEventTag (hinv.coordinated i).valid (hinv.inRange i).1
      (hphase ▸ trivial) (by simp [hphase])
    exact hinv.step_moves hm hrange
  | @wake i tag hphase =>
    obtain ⟨written, hm, -⟩ := Moves.wake (hinv.coordinated i).valid (hinv.inRange i).1 (hreacts i) hphase
    exact hinv.step_moves hm hrange
  | @begin i hphase hfresh =>
    exact hinv.step_moves (.begin (hinv.coordinated i).valid (hinv.inRange i).1 hphase hfresh) hrange
  | @advance i hphase hstarted hnext =>
    exact hinv.step_moves (.advance (hinv.coordinated i).valid (hinv.inRange i).1 hphase hstarted hnext) hrange
  | @schedule i tag hphase htag =>
    exact hinv.step_moves (.schedule (hinv.coordinated i).valid hphase htag) hrange
  | @send i port hphase hport =>
    obtain ⟨written, hm⟩ := Moves.sendTaggedMessage (hinv.coordinated i).valid hphase hport
    exact hinv.step_moves hm hrange
  | @complete i hphase =>
    obtain ⟨written, hm, -⟩ := Moves.complete (hinv.coordinated i).valid hphase
    exact hinv.step_moves hm hrange
  | @stop i hphase hstarted hstop =>
    obtain ⟨written, hm, -⟩ := Moves.stop (hinv.coordinated i).valid hphase hstarted hstop
    exact hinv.step_moves hm hrange
  | @resign i hphase =>
    exact hinv.step_moves (.resign (hinv.coordinated i).valid hphase) hrange
  | @receive i m rest hphase hsent =>
    obtain ⟨written, hr⟩ := receive_spec (hsent ▸ hinv.coordinated i)
    refine ⟨hinv.receive hsent hr hrange, fun j => ?_⟩
    change ((s.setFederate i _).federate j).tardy = _
    rw [federate_setFederate]
    split_ifs with hj
    · rw [hj, hr.tardy]
    · rfl
  | @handle i m rest hstate hremoving houtbox =>
    refine ⟨hinv.handle hcycle hremoving houtbox hrange, fun j => ?_⟩
    obtain ⟨outbox, heq⟩ := federate_afterRead s i m rest (Federated.handle F s.rti i m) j
    change ((s.afterRead i m rest (Federated.handle F s.rti i m)).federate j).tardy = _
    rw [heq]
  | removeUpTo hremoving => exact ⟨hinv.removeUpTo hremoving, fun _ => rfl⟩
  | disconnect hclosed hremoving houtbox =>
    exact ⟨hinv.disconnect hclosed hremoving houtbox, fun _ => rfl⟩

/-- Every run keeps the invariant. -/
theorem Reachable.invariant (hcycle : ∀ j, F.isInZeroDelayCycle j = false)
    (hreacts : ∀ i, F.immediateUpstreams i ≠ [] → F.reactsAtStart i = true →
      F.startTag ∈ F.initialEvents i) (h : Reachable F s) :
    Invariant F s ∧ ∀ i, (s.federate i).tardy = false := by
  induction h with
  | initial => exact ⟨invariant_initial, fun _ => rfl⟩
  | step _ hstep hrange ih =>
    obtain ⟨hinv, htardy⟩ := ih.1.step hcycle hreacts hstep hrange
    exact ⟨hinv, fun i => (htardy i).trans (ih.2 i)⟩

/-- Whatever the order of steps, no federate ever reads a message that is not in its future, and what is
on its way to one is later than the tag that it is at. A federate that waits for the start tag announces
the next event of its queue instead, so what it does at the start has to be on the queue. -/
theorem messages_inTime (F : Federation n K)
    (hcycle : ∀ j c cs, F.Path j j (c :: cs) → ∃ d ∈ c :: cs, 0 ≤ d)
    (hreacts : ∀ i, F.immediateUpstreams i ≠ [] → F.reactsAtStart i = true →
      F.startTag ∈ F.initialEvents i) (s : State n K) (hs : Reachable F s) :
    (∀ i, (s.federate i).tardy = false) ∧
    (∀ i port tag, .taggedMessage port tag ∈ s.rti.sent i → (s.federate i).executionStarted = true →
      (s.federate i).currentTag < tag) ∧
    (∀ i port tag, .taggedMessage port tag ∈ (s.federate i).outbox →
      (s.federate (F.target port)).executionStarted = true →
      (s.federate (F.target port)).currentTag < tag) := by
  obtain ⟨hinv, htardy⟩ :=
    hs.invariant (fun j => isInZeroDelayCycle_eq_false F.toTopology (hcycle j)) hreacts
  refine ⟨htardy, fun i port tag hmem hstarted => ?_, fun i port tag hmem hstarted => ?_⟩
  · obtain ⟨hupstream, -, hlt, -⟩ := (hinv.coordinated i).granted.message port tag hmem
    exact ((hinv.coordinated i).valid.started_le hupstream hstarted).trans_lt hlt
  · have hbacklog : .taggedMessage port tag ∈ s.backlog i := List.mem_append_right _ hmem
    obtain ⟨earlier, later, heq⟩ := List.append_of_mem hbacklog
    obtain ⟨hsource, -⟩ := (hinv.coordinated i).written.sent earlier port tag later heq
    obtain ⟨-, hlt, -⟩ := hinv.later (hsource ▸ hbacklog)
    obtain ⟨d, hd, -⟩ := exists_upstream (F := F) port
    have hupstream := List.ne_nil_of_mem hd
    have htarget := hinv.coordinated (F.target port)
    exact ((htarget.valid.started_le hupstream hstarted).trans
      (htarget.granted.lastTAG_le hupstream)).trans_lt hlt

/-- The pipeline, with a timer in the sender. -/
def pipelineFederation : Federation 2 Unit where
  toNetwork := pipeline
  stopTag _ := foreverTag
  initialEvents i := if i = sender then [pipeline.startTag] else []
  reactsAtStart _ := false
  stopTag_announced _ := .inl rfl
  initialEvents_inRange i t h := by
    split_ifs at h
    · exact List.mem_singleton.mp h ▸ inRange_startTag
    · exact absurd h List.not_mem_nil

/-- The sender has asked for the start tag. -/
def pipelineAsked : State 2 Unit :=
  pipelineFederation.initial.setFederate sender (sendNextEventTag pipelineFederation sender
    (pipelineFederation.initialFederate sender) pipelineFederation.startTag)

/-- It has begun. -/
def pipelineBegun : State 2 Unit :=
  pipelineAsked.setFederate sender (begin pipelineFederation sender (pipelineAsked.federate sender))

/-- It has sent a message. -/
def pipelineSent : State 2 Unit :=
  pipelineBegun.setFederate sender (sendTaggedMessage pipelineFederation sender (pipelineBegun.federate sender) ())

theorem outbox_pipelineSent :
    (pipelineSent.federate sender).outbox = [.nextEventTag ⟨0, 0⟩, .taggedMessage () ⟨10, 0⟩] := rfl

theorem reachable_pipelineSent : Reachable pipelineFederation pipelineSent := by
  have hsecond : ∀ e ∈ (pipelineFederation.initial.federate receiver).eventQueue, pipelineFederation.InRange e.2 :=
    fun e he => absurd he List.not_mem_nil
  have hasked : Reachable pipelineFederation pipelineAsked := by
    refine .step .initial (.request rfl) (Fin.forall_fin_two.mpr
      ⟨⟨fun e he => ?_, fun _ tag h => ?_⟩, hsecond, fun _ tag h => absurd h List.not_mem_nil⟩)
    · obtain rfl := List.mem_singleton.mp he
      exact inRange_startTag
    · exact absurd (List.mem_singleton.mp h) (by simp)
  have hbegun : Reachable pipelineFederation pipelineBegun := by
    refine .step hasked (.begin (by decide) rfl) (Fin.forall_fin_two.mpr
      ⟨⟨fun e he => absurd he List.not_mem_nil, fun _ tag h => ?_⟩, hsecond,
        fun _ tag h => absurd h List.not_mem_nil⟩)
    exact absurd (List.mem_singleton.mp h) (by simp)
  refine .step hbegun (.send (by decide) rfl) (Fin.forall_fin_two.mpr
    ⟨⟨fun e he => absurd he List.not_mem_nil, fun _ tag h => ?_⟩, hsecond,
      fun _ tag h => absurd h List.not_mem_nil⟩)
  have hmem : .taggedMessage () tag ∈ (pipelineSent.federate sender).outbox := h
  rw [outbox_pipelineSent] at hmem
  obtain rfl : tag = ⟨10, 0⟩ := by simpa using hmem
  constructor <;> decide

theorem messages_inTime_pipeline : Reachable pipelineFederation pipelineSent ∧
    (∀ i, (pipelineSent.federate i).tardy = false) ∧
    (∀ i port tag, .taggedMessage port tag ∈ pipelineSent.rti.sent i →
      (pipelineSent.federate i).executionStarted = true → (pipelineSent.federate i).currentTag < tag) ∧
    (∀ i port tag, .taggedMessage port tag ∈ (pipelineSent.federate i).outbox →
      (pipelineSent.federate (pipelineFederation.target port)).executionStarted = true →
      (pipelineSent.federate (pipelineFederation.target port)).currentTag < tag) := by
  refine ⟨reachable_pipelineSent, messages_inTime pipelineFederation (fun j c cs hpath => ?_)
    (fun i _ h => absurd h (by simp [pipelineFederation])) pipelineSent reachable_pipelineSent⟩
  refine ⟨c, List.mem_cons_self, ?_⟩
  cases hpath with
  | @cons _ e _ _ hmem _ =>
    change (j, c) ∈ pipelineFederation.sources e at hmem
    rw [mem_sources] at hmem
    simp only [pipelineFederation, pipeline] at hmem
    split_ifs at hmem
    · obtain ⟨-, rfl⟩ := Prod.mk.inj (List.mem_singleton.mp hmem)
      decide
    · exact absurd hmem List.not_mem_nil

end Runs

end LFBenchmarks.Federated
