import LFBenchmarks.Federated.Arrivals

namespace LFBenchmarks.Federated

open ReactorC Superdense Conservative

variable {n : Nat} {K : Type} {F : Federation n K}

section Records

theorem setNode_eq_self {R : Rti n K} {i : Fin n} {node : SchedulingNode} (h : node = R.node i) :
    R.setNode i node = R := by
  rw [Rti.setNode, h, Function.update_eq_self]

@[simp] theorem sent_setNode (R : Rti n K) (i : Fin n) (node : SchedulingNode) :
    (R.setNode i node).sent = R.sent := rfl

@[simp] theorem inTransitMessageTags_setNode (R : Rti n K) (i : Fin n) (node : SchedulingNode) :
    (R.setNode i node).inTransitMessageTags = R.inTransitMessageTags := rfl

@[simp] theorem node_write (R : Rti n K) (i : Fin n) (m : ToFederate K) : (R.write i m).node = R.node :=
  rfl

@[simp] theorem inTransitMessageTags_write (R : Rti n K) (i : Fin n) (m : ToFederate K) :
    (R.write i m).inTransitMessageTags = R.inTransitMessageTags := rfl

@[simp] theorem sent_write (R : Rti n K) (i j : Fin n) (m : ToFederate K) :
    (R.write i m).sent j = if j = i then R.sent i ++ [m] else R.sent j := by
  simp [Rti.write, Function.update_apply]

variable (W : Network n K) (R : Rti n K) (port : K) (tag : Tag)

@[simp] theorem node_forward : (Federated.forward W R port tag).node = R.node := by
  unfold Federated.forward
  simp only
  split_ifs <;> rfl

@[simp] theorem sent_forward (j : Fin n) : (Federated.forward W R port tag).sent j =
    if j = W.target port then R.sent (W.target port) ++ [.taggedMessage port tag] else R.sent j := by
  rw [← sent_write]
  unfold Federated.forward
  simp only
  split_ifs <;> rfl

variable {W R port tag}

theorem inTransitMessageTags_forward (h : (R.node (W.target port)).completed < tag) (j : Fin n) :
    (Federated.forward W R port tag).inTransitMessageTags j = if j = W.target port then
      pqueueTagInsertIfNoMatch (R.inTransitMessageTags (W.target port)) tag
    else R.inTransitMessageTags j := by
  simp [Federated.forward, h, Function.update_apply]

end Records

section Infrastructure

variable {s : State n K} {R : Rti n K}

/-- What the infrastructure writes adds no events, unless it is a message. -/
theorem covers_of_sent (hmessage : ∀ i port tag, .taggedMessage port tag ∈ R.sent i →
    .taggedMessage port tag ∈ s.rti.sent i) :
    Covers F.links (s.events F) (({ s with rti := R } : State n K).events F) := by
  refine .of_le (fun _ h => h) ?_ fun _ _ h => h
  rintro i y - ⟨tag, hpending, rfl⟩
  exact ⟨_, le_rfl, tag, hpending.of_inbox (hmessage i), rfl⟩

/-- What is granted with reason is not reached by what arrives. -/
theorem lt_arrival_of_covers (hinv : Invariant F s) {s' : State n K}
    (hcovers : Covers F.links (s.events F) (s'.events F)) {e : Fin n} {tag : Tag}
    (htag : tag = minUpstreamCompleted F.toNetwork s.rti e ∨
      tag = lfTagLatestEarlier (earliestFutureIncomingMessageTag F.toNetwork s.rti e).1)
    {x : Superdense} (ha : Arrival F.links (s'.events F) e x) : endOfTime ≤ x ∨ tag.super < x := by
  obtain ⟨y, hyx, hy⟩ := ha.of_covers (monotone_arrive F) hcovers
  have hlt : endOfTime ≤ y ∨ tag.super < y := by
    rcases htag with rfl | rfl
    · exact minUpstreamCompleted_lt_arrival hinv hy
    · exact latestEarlier_lt_arrival hinv hy
  exact hlt.imp (le_trans · hyx) (lt_of_lt_of_le · hyx)

theorem Invariant.heard (hinv : Invariant F s) (h : Heard F.toNetwork s.rti R) :
    Invariant F { s with rti := R } where
  inRange := hinv.inRange
  coordinated i := by
    have hi := hinv.coordinated i
    change Coordinated F i (s.federate i) (R.node i) (R.inTransitMessageTags i) (R.sent i) (s.backlog i)
    rw [h.inTransitMessageTags, h.sent]
    rcases h.node i with heq | ⟨-, heq⟩ <;> rw [heq]
    · exact hi
    · exact hi.hear (hinv.inRange i).1
  safe := by
    have hgranted : (fun i => (R.node i).lastGranted.super) =
        fun i => (s.rti.node i).lastGranted.super := by
      funext i
      rcases h.node i with heq | ⟨-, heq⟩ <;> rw [heq]
    simp only [hgranted]
    exact hinv.safe.of_covers (monotone_arrive F)
      (covers_of_sent fun i port tag hmem => by rwa [h.sent] at hmem)

theorem Invariant.grant (hinv : Invariant F s) (e : Fin n) {tag : Tag}
    (htag : tag = minUpstreamCompleted F.toNetwork s.rti e ∨
      tag = lfTagLatestEarlier (earliestFutureIncomingMessageTag F.toNetwork s.rti e).1) :
    Invariant F { s with rti := notifyTagAdvanceGrant s.rti e tag } := by
  unfold notifyTagAdvanceGrant
  split_ifs with hguard
  · exact hinv
  obtain ⟨-, hguard⟩ := not_or.mp hguard
  have hlt : (s.rti.node e).lastGranted < tag := by
    rw [← not_le, ← lfTagCompare_le_zero]
    exact (not_or.mp hguard).1
  refine ⟨hinv.inRange, fun i => ?_, ?_⟩
  · change Coordinated F i (s.federate i) _ _ _ (s.backlog i)
    simp only [node_setNode, node_write, inTransitMessageTags_setNode, inTransitMessageTags_write,
      sent_setNode, sent_write]
    split_ifs with hi
    · subst hi
      exact (hinv.coordinated i).grant (hinv.inRange i).1 hlt
    · exact hinv.coordinated i
  · have hcovers : Covers F.links (s.events F) (({ s with
        rti := (s.rti.write e (.tagAdvanceGrant tag)).setNode e
          { s.rti.node e with lastGranted := tag } } : State n K).events F) := by
      refine covers_of_sent fun i port t hmem => ?_
      simp only [sent_setNode, sent_write] at hmem
      split_ifs at hmem with hi
      · simpa [hi] using hmem
      · exact hmem
    refine (hinv.safe.of_covers (monotone_arrive F) hcovers).grant e (fun x ha => ?_) fun i hi => ?_
    · simpa using lt_arrival_of_covers hinv hcovers htag ha
    · simp [hi]

theorem Invariant.announce (hinv : Invariant F s) (i : Fin n) (tag : Tag) :
    Invariant F { s with rti := notifyDownstreamNextEventTag s.rti i tag } := by
  unfold notifyDownstreamNextEventTag
  split_ifs with hstate
  · exact hinv
  have hgranted : (fun j => (((s.rti.write i (.downstreamNextEventTag tag)).setNode i
      { s.rti.node i with lastDNET := tag }).node j).lastGranted.super) =
      fun j => (s.rti.node j).lastGranted.super := by
    funext j
    rcases eq_or_ne j i with rfl | hj
    · simp
    · simp [hj]
  refine ⟨hinv.inRange, fun j => ?_, ?_⟩
  · change Coordinated F j (s.federate j) _ _ _ (s.backlog j)
    simp only [node_setNode, node_write, inTransitMessageTags_setNode, inTransitMessageTags_write,
      sent_setNode, sent_write]
    split_ifs with hj
    · subst hj
      exact (hinv.coordinated j).notifyDNET (hinv.inRange j).1 tag
    · exact hinv.coordinated j
  · simp only [hgranted]
    refine hinv.safe.of_covers (monotone_arrive F) (covers_of_sent fun j port t hmem => ?_)
    simp only [sent_setNode, sent_write] at hmem
    split_ifs at hmem with hj
    · simpa [hj] using hmem
    · exact hmem

theorem Invariant.progress (hinv : Invariant F s) (h : Progress F.toNetwork s.rti R) :
    Invariant F { s with rti := R } := by
  generalize hR : s.rti = R₀ at h
  induction h with
  | refl => exact hR ▸ hinv
  | heard _ hheard ih => exact ih.heard hheard
  | grant e tag _ htag ih => exact ih.grant e htag
  | announce i tag _ ih => exact ih.announce i tag

end Infrastructure

section Handlers

variable {s : State n K} {i : Fin n} {m : ToRti K} {rest : List (ToRti K)} {R : Rti n K}

@[simp] theorem federate_setFederate (s : State n K) (i j : Fin n) (f : Federate K) :
    (s.setFederate i f).federate j = if j = i then f else s.federate j := by
  simp [State.setFederate, Function.update_apply]

/-- The state once the infrastructure has taken `m` from what federate `i` wrote, and has become `R`. -/
def State.afterRead (s : State n K) (i : Fin n) (m : ToRti K) (rest : List (ToRti K)) (R : Rti n K) :
    State n K :=
  { s.setFederate i { s.federate i with outbox := rest } with
    rti := R
    removing := Function.update s.removing i m.confirmed }

theorem federate_afterRead (s : State n K) (i : Fin n) (m : ToRti K) (rest : List (ToRti K)) (R : Rti n K)
    (j : Fin n) : ∃ outbox, (s.afterRead i m rest R).federate j = { s.federate j with outbox := outbox } := by
  change ∃ outbox, (s.setFederate i _).federate j = _
  rw [federate_setFederate]
  split_ifs with hj
  · exact ⟨rest, by rw [hj]⟩
  · exact ⟨(s.federate j).outbox, rfl⟩

theorem backlog_afterRead_self : (s.afterRead i m rest R).backlog i =
    m.confirmed.toList.map .latestTagConfirmed ++ rest := by
  simp [State.backlog, State.afterRead]

theorem backlog_afterRead_of_ne {j : Fin n} (hj : j ≠ i) :
    (s.afterRead i m rest R).backlog j = s.backlog j := by
  simp [State.backlog, State.afterRead, hj]

theorem backlog_eq_cons (hremoving : s.removing i = none)
    (houtbox : (s.federate i).outbox = m :: rest) : s.backlog i = m :: rest := by
  simp [State.backlog, hremoving, houtbox]

theorem mem_backlog_afterRead (hremoving : s.removing i = none)
    (houtbox : (s.federate i).outbox = m :: rest) {j : Fin n} {port : K} {tag : Tag}
    (hmem : .taggedMessage port tag ∈ (s.afterRead i m rest R).backlog j) :
    .taggedMessage port tag ∈ s.backlog j := by
  rcases eq_or_ne j i with rfl | hj
  · rw [backlog_afterRead_self] at hmem
    rw [backlog_eq_cons hremoving houtbox]
    refine List.mem_cons_of_mem _ ((List.mem_append.mp hmem).resolve_left fun hmem => ?_)
    obtain ⟨c, -, hc⟩ := List.mem_map.mp hmem
    exact absurd hc (by simp)
  · rwa [backlog_afterRead_of_ne hj] at hmem

/-- What is written to the federates meanwhile is on its way to them before. -/
theorem covers_afterRead (hremoving : s.removing i = none)
    (houtbox : (s.federate i).outbox = m :: rest)
    (hsent : ∀ j tag, Pending F j (s.federate j) (R.sent j) tag →
      Pending F j (s.federate j) (s.rti.sent j) tag ∨ Arrival F.links (s.events F) j tag.super) :
    Covers F.links (s.events F) ((s.afterRead i m rest R).events F) := by
  refine ⟨fun j halive => ?_, fun j y _ hy => ?_, fun port y hy => ?_⟩
  · change ((s.afterRead i m rest R).federate j).phase.Alive at halive
    obtain ⟨outbox, heq⟩ := federate_afterRead s i m rest R j
    rw [heq] at halive
    exact halive
  · obtain ⟨tag, hpending, rfl⟩ := hy
    change Pending F j ((s.afterRead i m rest R).federate j) (R.sent j) tag at hpending
    obtain ⟨outbox, heq⟩ := federate_afterRead s i m rest R j
    rw [heq] at hpending
    refine ⟨_, le_rfl, (hsent j tag (hpending.congr rfl rfl rfl fun heq => heq)).imp ?_ id⟩
    exact fun hpending => ⟨tag, hpending, rfl⟩
  · obtain ⟨tag, hmem, rfl⟩ := hy
    exact ⟨_, le_rfl, .inFlight ⟨tag, mem_backlog_afterRead hremoving houtbox hmem, rfl⟩⟩

theorem Coordinated.withOutbox {f : Federate K} {node : SchedulingNode} {inTransit : List Tag}
    {inbox : List (ToFederate K)} {backlog : List (ToRti K)}
    (h : Coordinated F i f node inTransit inbox backlog) (outbox : List (ToRti K)) :
    Coordinated F i { f with outbox := outbox } node inTransit inbox backlog where
  valid := { h.valid with }
  granted := { h.granted with }
  written := { h.written with }
  promised := {
    skipped := h.promised.skipped
    skipped_granted := h.promised.skipped_granted
    skipped_le := fun halive tag hp =>
      h.promised.skipped_le halive tag (hp.congr rfl rfl rfl fun heq => heq)
    promise := fun halive tag hp => h.promised.promise halive tag (hp.congr rfl rfl rfl fun heq => heq) }

/-- The records after something is read, when that of its writer and those of the others are right. -/
theorem coordinated_afterRead (hinv : Invariant F s)
    (hread : Coordinated F i (s.federate i) (R.node i) (R.inTransitMessageTags i) (R.sent i)
      (m.confirmed.toList.map .latestTagConfirmed ++ rest))
    (hnode : ∀ j, j ≠ i → R.node j = s.rti.node j)
    (htransit : ∀ j, j ≠ i → R.inTransitMessageTags j = s.rti.inTransitMessageTags j)
    (hsent : ∀ j, j ≠ i → R.sent j = s.rti.sent j) (j : Fin n) :
    Coordinated F j ((s.afterRead i m rest R).federate j) (R.node j) (R.inTransitMessageTags j)
      (R.sent j) ((s.afterRead i m rest R).backlog j) := by
  obtain ⟨outbox, heq⟩ := federate_afterRead s i m rest R j
  rw [heq]
  rcases eq_or_ne j i with rfl | hj
  · rw [backlog_afterRead_self]
    exact hread.withOutbox _
  · rw [backlog_afterRead_of_ne hj, hnode j hj, htransit j hj, hsent j hj]
    exact (hinv.coordinated j).withOutbox _

/-- Reading something that is not a message: the record of the one federate changes, and what it was
granted only where nothing arrives. -/
theorem Invariant.read (hinv : Invariant F s) (hremoving : s.removing i = none)
    (houtbox : (s.federate i).outbox = m :: rest) (hrange : (s.afterRead i m rest R).InRange F)
    (hsent : R.sent = s.rti.sent)
    (hnode : ∀ j, j ≠ i → R.node j = s.rti.node j)
    (htransit : ∀ j, j ≠ i → R.inTransitMessageTags j = s.rti.inTransitMessageTags j)
    (hlast : F.immediateUpstreams i ≠ [] → (R.node i).lastGranted = (s.rti.node i).lastGranted)
    (hread : Coordinated F i (s.federate i) (R.node i) (R.inTransitMessageTags i) (s.rti.sent i)
      (m.confirmed.toList.map .latestTagConfirmed ++ rest)) :
    Invariant F (s.afterRead i m rest R) := by
  have hcovers : Covers F.links (s.events F) ((s.afterRead i m rest R).events F) :=
    covers_afterRead hremoving houtbox fun j tag hpending => .inl (hsent ▸ hpending)
  refine ⟨hrange, coordinated_afterRead hinv (by rwa [hsent]) hnode htransit fun j _ => by rw [hsent],
    (hinv.safe.of_covers (monotone_arrive F) hcovers).grant i (fun x ha => ?_) fun j hj => ?_⟩
  · obtain ⟨y, hyx, hy⟩ := ha.of_covers (monotone_arrive F) hcovers
    change endOfTime ≤ x ∨ (R.node i).lastGranted.super < x
    rw [hlast (upstream_of_arrival hy)]
    exact (hinv.safe i y hy).imp (le_trans · hyx) (lt_of_lt_of_le · hyx)
  · change (R.node j).lastGranted.super = (s.rti.node j).lastGranted.super
    rw [hnode j hj]

section Forward

variable {port : K} {tag : Tag}

/-- A message under way is in the future of the federate it is for. -/
theorem Invariant.later (hinv : Invariant F s)
    (hmem : .taggedMessage port tag ∈ s.backlog (F.source port)) :
    F.InRange tag ∧ (s.rti.node (F.target port)).lastGranted < tag ∧
      (s.rti.node (F.target port)).completed < tag := by
  obtain ⟨earlier, later, heq⟩ := List.append_of_mem hmem
  obtain ⟨-, hrange, -⟩ := (hinv.coordinated (F.source port)).written.sent earlier port tag later heq
  have harrival : Arrival F.links (s.events F) (F.target port) tag.super := .inFlight ⟨tag, hmem, rfl⟩
  have hgranted : (s.rti.node (F.target port)).lastGranted < tag := by
    rw [← super_lt_super]
    exact (hinv.safe _ _ harrival).resolve_left (not_le.mpr (super_lt_endOfTime hrange.time))
  exact ⟨hrange, hgranted,
    ((hinv.coordinated _).completed_le (upstream_of_arrival harrival)).trans_lt hgranted⟩

/-- A message is forwarded, and brings the next event of its receiver forward to `next`. -/
theorem Invariant.forward (hinv : Invariant F s) (hremoving : s.removing i = none)
    (houtbox : (s.federate i).outbox = .taggedMessage port tag :: rest)
    (hrange : (s.afterRead i (.taggedMessage port tag) rest s.rti).InRange F) {next : Tag}
    (hnext : next = neverTag ∨ F.Announced next)
    (hnode : next ≤ (s.rti.node (F.target port)).nextEvent) (hle : next ≤ tag) :
    Invariant F (s.afterRead i (.taggedMessage port tag) rest
      ((Federated.forward F.toNetwork s.rti port tag).setNode (F.target port)
        { s.rti.node (F.target port) with nextEvent := next })) := by
  have hbacklog := backlog_eq_cons hremoving houtbox
  have hi := hbacklog ▸ hinv.coordinated i
  obtain ⟨hsource, -, -⟩ := hi.written.sent [] port tag rest rfl
  have hmem : .taggedMessage port tag ∈ s.backlog (F.source port) := by simp [hsource, hbacklog]
  obtain ⟨htag, hgranted, hcompleted⟩ := hinv.later hmem
  have harrival : Arrival F.links (s.events F) (F.target port) tag.super := .inFlight ⟨tag, hmem, rfl⟩
  have hupstream := upstream_of_arrival harrival
  have hread : Coordinated F i (s.federate i) (s.rti.node i) (s.rti.inTransitMessageTags i)
      (s.rti.sent i) ((ToRti.taggedMessage port tag).confirmed.toList.map .latestTagConfirmed ++ rest) :=
    hi.readMessage
  have hcovers := covers_afterRead (F := F) (R := (Federated.forward F.toNetwork s.rti port tag).setNode
    (F.target port) { s.rti.node (F.target port) with nextEvent := next }) hremoving houtbox
    fun j t hpending => ?_
  · have hlast : ∀ j, (((Federated.forward F.toNetwork s.rti port tag).setNode (F.target port)
        { s.rti.node (F.target port) with nextEvent := next }).node j).lastGranted =
        (s.rti.node j).lastGranted := by
      intro j
      rw [node_setNode, node_forward]
      split_ifs with hj
      · rw [hj]
      · rfl
    refine ⟨hrange, fun j => ?_, ?_⟩
    · have hj := coordinated_afterRead (R := s.rti) hinv hread (fun _ _ => rfl) (fun _ _ => rfl)
        (fun _ _ => rfl) j
      change Coordinated F j ((s.afterRead i (.taggedMessage port tag) rest s.rti).federate j) _ _ _
        ((s.afterRead i (.taggedMessage port tag) rest s.rti).backlog j)
      simp only [State.afterRead, node_setNode, node_forward, inTransitMessageTags_setNode,
        inTransitMessageTags_forward hcompleted, sent_setNode, sent_forward]
      split_ifs with heq
      · subst heq
        exact hj.forward hupstream htag hgranted hnext hnode hle
      · exact hj
    · have hsame : (fun j => (((s.afterRead i (.taggedMessage port tag) rest
          ((Federated.forward F.toNetwork s.rti port tag).setNode (F.target port)
            { s.rti.node (F.target port) with nextEvent := next })).rti.node j).lastGranted.super)) =
          fun j => (s.rti.node j).lastGranted.super := funext fun j => congrArg Tag.super (hlast j)
      rw [hsame]
      exact hinv.safe.of_covers (monotone_arrive F) hcovers
  · simp only [sent_setNode, sent_forward] at hpending
    split_ifs at hpending with heq
    · subst heq
      refine hpending.of_forward.imp id ?_
      rintro rfl
      exact harrival
    · exact .inl hpending

end Forward

variable (hcycle : ∀ j, F.isInZeroDelayCycle j = false) (hremoving : s.removing i = none)

include hcycle hremoving

theorem Invariant.handleNextEventTag (hinv : Invariant F s) {tag : Tag}
    (houtbox : (s.federate i).outbox = .nextEventTag tag :: rest)
    (hrange : (s.afterRead i (.nextEventTag tag) rest s.rti).InRange F) :
    Invariant F (s.afterRead i (.nextEventTag tag) rest
      (handleNextEventTag F.toNetwork s.rti i tag)) := by
  have hread := (backlog_eq_cons hremoving houtbox ▸ hinv.coordinated i).readNextEventTag
  unfold Federated.handleNextEventTag updateFederateNextEventTagLocked
  simp only [lfTagCompare_lt_zero]
  generalize (if pqueueTagPeekTag (s.rti.inTransitMessageTags i) < tag then
    pqueueTagPeekTag (s.rti.inTransitMessageTags i) else tag) = next at hread ⊢
  refine (hinv.read (R := s.rti.recordNextEvent (W := F.toNetwork) i next) hremoving houtbox hrange rfl
    (fun j hj => ?_) (fun j _ => rfl) (fun hupstream => ?_) ?_).progress
    (progress_updateSchedulingNode hcycle s.rti i next)
  · simp [Rti.recordNextEvent, hj]
  · simp [Rti.recordNextEvent, hupstream]
  · simpa [Rti.recordNextEvent, ToRti.confirmed] using hread

theorem Invariant.logicalTagComplete (hinv : Invariant F s) {tag : Tag}
    (houtbox : (s.federate i).outbox = .latestTagConfirmed tag :: rest)
    (hrange : (s.afterRead i (.latestTagConfirmed tag) rest s.rti).InRange F) :
    Invariant F (s.afterRead i (.latestTagConfirmed tag) rest
      (logicalTagComplete F.toNetwork s.rti i tag)) := by
  have hread := (backlog_eq_cons hremoving houtbox ▸ hinv.coordinated i).recordCompleted
  refine (hinv.read (R := s.rti.setNode i { s.rti.node i with completed := tag }) hremoving houtbox
    hrange rfl (fun j hj => ?_) (fun j _ => rfl) (fun _ => ?_) ?_).progress
    (progress_foldl (fun R downstream => ?_) _ _)
  · simp [hj]
  · simp
  · simpa [ToRti.confirmed] using hread
  · exact (progress_notifyAdvanceGrantIfSafe hcycle R downstream).trans
      (progress_notifyDownstream hcycle _ downstream)

theorem Invariant.handleFederateResign (hinv : Invariant F s)
    (houtbox : (s.federate i).outbox = .resign :: rest)
    (hrange : (s.afterRead i .resign rest s.rti).InRange F) :
    Invariant F (s.afterRead i .resign rest (handleFederateResign F.toNetwork s.rti i)) := by
  have hread := (backlog_eq_cons hremoving houtbox ▸ hinv.coordinated i).readResign
  refine (hinv.read (R := s.rti.setNode i { s.rti.node i with
    state := .notConnected, nextEvent := foreverTag }) hremoving houtbox hrange rfl
    (fun j hj => ?_) (fun j _ => rfl) (fun _ => ?_) ?_).progress (progress_notifyDownstream hcycle _ i)
  · simp [hj]
  · simp
  · simpa [ToRti.confirmed] using hread

theorem Invariant.handleTimedMessage (hinv : Invariant F s) {port : K} {tag : Tag}
    (houtbox : (s.federate i).outbox = .taggedMessage port tag :: rest)
    (hrange : (s.afterRead i (.taggedMessage port tag) rest s.rti).InRange F) :
    Invariant F (s.afterRead i (.taggedMessage port tag) rest
      (handleTimedMessage F.toNetwork s.rti port tag)) := by
  have hbacklog := backlog_eq_cons hremoving houtbox
  have hi := hbacklog ▸ hinv.coordinated i
  obtain ⟨hsource, htag, -⟩ := hi.written.sent [] port tag rest rfl
  unfold Federated.handleTimedMessage
  simp only [node_forward, lfTagCompare_lt_zero]
  by_cases hstate : (s.rti.node (F.target port)).state = .notConnected
  · rw [if_pos hstate]
    exact hinv.read hremoving houtbox hrange rfl (fun _ _ => rfl) (fun _ _ => rfl) (fun _ => rfl)
      hi.readMessage
  rw [if_neg hstate]
  have hmem : .taggedMessage port tag ∈ s.backlog (F.source port) := by simp [hsource, hbacklog]
  obtain ⟨-, -, hcompleted⟩ := hinv.later hmem
  have htarget := hinv.coordinated (F.target port)
  by_cases hlt : tag < (s.rti.node (F.target port)).nextEvent
  · rw [if_pos hlt]
    unfold updateFederateNextEventTagLocked
    simp only [lfTagCompare_lt_zero, inTransitMessageTags_forward hcompleted, if_true]
    rw [← min_def_lt]
    generalize hmin : min (pqueueTagPeekTag (pqueueTagInsertIfNoMatch
      (s.rti.inTransitMessageTags (F.target port)) tag)) tag = next
    have hle : next ≤ tag := hmin ▸ min_le_right _ _
    have hnext : F.Announced next := by
      rcases min_choice (pqueueTagPeekTag (pqueueTagInsertIfNoMatch
        (s.rti.inTransitMessageTags (F.target port)) tag)) tag with h | h <;> rw [← hmin, h]
      · refine (pqueueTagPeekTag_eq _).imp id fun hpeek => ?_
        rcases mem_pqueueTagInsertIfNoMatch.mp hpeek with heq | hpeek
        · rwa [heq]
        · exact htarget.written.transit _ hpeek
      · exact .inr htag
    have hforward := hinv.forward hremoving houtbox hrange (.inr hnext) (hle.trans hlt.le) hle
    have hrecord : (Federated.forward F.toNetwork s.rti port tag).recordNextEvent (W := F.toNetwork)
        (F.target port) next = (Federated.forward F.toNetwork s.rti port tag).setNode (F.target port)
          { s.rti.node (F.target port) with nextEvent := next } := by
      obtain ⟨d, hd, -⟩ := exists_upstream (F := F) port
      simp [Rti.recordNextEvent, List.ne_nil_of_mem hd]
    exact (hrecord ▸ hforward).progress (progress_updateSchedulingNode hcycle _ (F.target port) next)
  · rw [if_neg hlt]
    have hforward := hinv.forward hremoving houtbox hrange htarget.written.nextEvent le_rfl (not_lt.mp hlt)
    rwa [setNode_eq_self (by rw [node_forward])] at hforward

theorem Invariant.handle (hinv : Invariant F s) (houtbox : (s.federate i).outbox = m :: rest)
    (hrange : (s.afterRead i m rest s.rti).InRange F) :
    Invariant F (s.afterRead i m rest (handle F s.rti i m)) := by
  cases m with
  | nextEventTag tag => exact hinv.handleNextEventTag hcycle hremoving houtbox hrange
  | latestTagConfirmed tag => exact hinv.logicalTagComplete hcycle hremoving houtbox hrange
  | taggedMessage port tag => exact hinv.handleTimedMessage hcycle hremoving houtbox hrange
  | resign => exact hinv.handleFederateResign hcycle hremoving houtbox hrange

end Handlers

end LFBenchmarks.Federated
