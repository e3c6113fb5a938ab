import LFBenchmarks.Federated.FederateSteps

namespace LFBenchmarks.Federated

open ReactorC

variable {n : Nat} {K : Type} {F : Federation n K} {i : Fin n} {f : Federate K}
  {node node' : SchedulingNode} {inTransit inTransit' : List Tag}
  {inbox inbox' : List (ToFederate K)} {m : ToRti K} {backlog : List (ToRti K)}

theorem startTag_le_pending (h : Coordinated F i f node inTransit inbox backlog)
    (hrange : ∀ e ∈ f.eventQueue, F.InRange e.2) {tag : Tag} (hpending : Pending F i f inbox tag) :
    F.startTag ≤ tag := by
  rcases hpending.own_or_message with hpending | ⟨port, hmem⟩
  · exact startTag_le_own h.valid hrange hpending
  · exact (h.granted.message port tag hmem).2.1.start

/-- Messages other than those of ports are no events. -/
theorem Pending.of_inbox {tag : Tag} (h : Pending F i f inbox' tag)
    (hmessage : ∀ port t, .taggedMessage port t ∈ inbox' → .taggedMessage port t ∈ inbox) :
    Pending F i f inbox tag := by
  rcases h.own_or_message with h | ⟨port, hmem⟩
  · exact h.of_own
  · exact .message (hmessage port tag hmem)

/-- The record of a federate changes, and something other than a message is written to it. -/
theorem Coordinated.update (h : Coordinated F i f node inTransit inbox backlog)
    (hrange : ∀ e ∈ f.eventQueue, F.InRange e.2)
    (hnext : node'.nextEvent = neverTag ∨ F.Announced node'.nextEvent)
    (hcompleted : node'.completed = node.completed)
    (hstate : node'.state = .notConnected →
      ¬f.phase.Alive ∧ ∀ port tag, .taggedMessage port tag ∉ backlog)
    (hmessage : ∀ port t, .taggedMessage port t ∈ inbox' → .taggedMessage port t ∈ inbox)
    (hgranted : Granted F i f node' inTransit inbox')
    (hpromise : ∀ (B : List (ToRti K)) tag, F.startTag ≤ tag → Promise node inTransit B tag →
      Promise node' inTransit B tag) : Coordinated F i f node' inTransit inbox' backlog where
  valid := h.valid
  granted := hgranted
  written := { h.written with
    nextEvent := hnext
    completed := hcompleted ▸ h.written.completed
    sent := fun earlier port tag later heq => by
      obtain ⟨hsource, hrange, current, hcurrent, htag, hsent⟩ := h.written.sent earlier port tag later heq
      exact ⟨hsource, hrange, current, hcurrent, htag, hpromise _ _ hcurrent.start hsent⟩
    connected := hstate }
  promised := {
    skipped := h.promised.skipped
    skipped_granted := h.promised.skipped_granted
    skipped_le := fun halive tag hpending =>
      h.promised.skipped_le halive tag (hpending.of_inbox hmessage)
    promise := fun halive tag hpending => by
      have hpending := hpending.of_inbox hmessage
      exact hpromise _ _ (startTag_le_pending h hrange hpending) (h.promised.promise halive tag hpending) }

/-- A node not heard from is taken to start. -/
theorem Coordinated.hear (h : Coordinated F i f node inTransit inbox backlog)
    (hrange : ∀ e ∈ f.eventQueue, F.InRange e.2) :
    Coordinated F i f { node with nextEvent := F.startTag } inTransit inbox backlog :=
  h.update hrange (.inr (.inr inRange_startTag)) rfl h.written.connected (fun _ _ hmem => hmem)
    { h.granted with } fun _ _ hstart hp => ⟨hstart, hp.completed, hp.kept⟩

theorem Coordinated.grant (h : Coordinated F i f node inTransit inbox backlog)
    (hrange : ∀ e ∈ f.eventQueue, F.InRange e.2) {tag : Tag} (htag : node.lastGranted < tag) :
    Coordinated F i f { node with lastGranted := tag } inTransit (inbox ++ [.tagAdvanceGrant tag])
      backlog := by
  have hmessage : ∀ port t, .taggedMessage port t ∈ inbox ++ [.tagAdvanceGrant tag] →
      .taggedMessage port t ∈ inbox := by simp
  refine h.update hrange h.written.nextEvent rfl h.written.connected hmessage {
    lastTAG_le := fun hupstream => (h.granted.lastTAG_le hupstream).trans htag.le
    tag_le := fun hupstream t ht => ?_
    order := ?_
    message := fun port t ht => h.granted.message port t (hmessage port t ht) }
    fun _ _ _ hp => ⟨hp.nextEvent, hp.completed, hp.kept⟩
  · rcases List.mem_append.mp ht with ht | ht
    · exact (h.granted.tag_le hupstream t ht).trans htag.le
    · obtain rfl := ToFederate.tagAdvanceGrant.inj (List.mem_singleton.mp ht)
      exact le_rfl
  · rw [List.pairwise_append]
    refine ⟨h.granted.order, List.pairwise_singleton _ _, fun a _ b hb granted port t _ heq => ?_⟩
    obtain rfl := List.mem_singleton.mp hb
    exact absurd heq (by simp)

theorem Coordinated.notifyDNET (h : Coordinated F i f node inTransit inbox backlog)
    (hrange : ∀ e ∈ f.eventQueue, F.InRange e.2) (tag : Tag) :
    Coordinated F i f { node with lastDNET := tag } inTransit (inbox ++ [.downstreamNextEventTag tag])
      backlog := by
  have hmessage : ∀ port t, .taggedMessage port t ∈ inbox ++ [.downstreamNextEventTag tag] →
      .taggedMessage port t ∈ inbox := by simp
  refine h.update hrange h.written.nextEvent rfl h.written.connected hmessage {
    lastTAG_le := h.granted.lastTAG_le
    tag_le := fun hupstream t ht => h.granted.tag_le hupstream t (by simpa using ht)
    order := ?_
    message := fun port t ht => h.granted.message port t (hmessage port t ht) }
    fun _ _ _ hp => ⟨hp.nextEvent, hp.completed, hp.kept⟩
  rw [List.pairwise_append]
  refine ⟨h.granted.order, List.pairwise_singleton _ _, fun a _ b hb granted port t _ heq => ?_⟩
  obtain rfl := List.mem_singleton.mp hb
  exact absurd heq (by simp)

/-- The connection is gone. -/
theorem Coordinated.disconnect (h : Coordinated F i f node inTransit inbox [])
    (hrange : ∀ e ∈ f.eventQueue, F.InRange e.2) (hdead : ¬f.phase.Alive) :
    Coordinated F i f { node with state := .notConnected } inTransit inbox [] :=
  h.update hrange h.written.nextEvent rfl (fun _ => ⟨hdead, by simp⟩) (fun _ _ hmem => hmem)
    { h.granted with } fun _ _ _ hp => ⟨hp.nextEvent, hp.completed, hp.kept⟩

section Read

/-- The infrastructure has read the next thing that the federate wrote. -/
theorem Coordinated.read (h : Coordinated F i f node inTransit inbox (m :: backlog))
    (hnext : node'.nextEvent = neverTag ∨ F.Announced node'.nextEvent)
    (hcompleted : node'.completed = node.completed)
    (hlast : F.immediateUpstreams i ≠ [] → node'.lastGranted = node.lastGranted)
    (hstate : node'.state = .notConnected →
      ¬f.phase.Alive ∧ ∀ port tag, .taggedMessage port tag ∉ backlog)
    (hsub : inTransit' ⊆ inTransit)
    (hmessage : ∀ port tag, .taggedMessage port tag ∈ inbox → tag ∈ inTransit')
    (hpromise : (f.phase.Alive ∨ ∃ port tag, .taggedMessage port tag ∈ backlog) →
      ∀ B tag, Promise node inTransit (m :: B) tag → Promise node' inTransit' B tag) :
    Coordinated F i f node' inTransit' inbox backlog where
  valid := h.valid
  granted := {
    lastTAG_le := fun hupstream => hlast hupstream ▸ h.granted.lastTAG_le hupstream
    tag_le := fun hupstream => hlast hupstream ▸ h.granted.tag_le hupstream
    order := h.granted.order
    message := fun port tag hmem => by
      obtain ⟨hupstream, hrange, hlt, -⟩ := h.granted.message port tag hmem
      exact ⟨hupstream, hrange, hlt, hmessage port tag hmem⟩ }
  written := {
    nextEvent := hnext
    completed := hcompleted ▸ h.written.completed
    confirmed := fun tag hmem => h.written.confirmed tag (List.mem_cons_of_mem _ hmem)
    announced := fun tag hmem => h.written.announced tag (List.mem_cons_of_mem _ hmem)
    transit := fun tag hmem => h.written.transit tag (hsub hmem)
    sent := fun earlier port tag later heq => by
      obtain ⟨hsource, hrange, current, hcurrent, htag, hsent⟩ :=
        h.written.sent (m :: earlier) port tag later (by rw [heq, List.cons_append])
      exact ⟨hsource, hrange, current, hcurrent, htag,
        hpromise (.inr ⟨port, tag, by simp [heq]⟩) _ _ hsent⟩
    resigned := fun earlier later heq =>
      h.written.resigned (m :: earlier) later (by rw [heq, List.cons_append])
    connected := hstate }
  promised := {
    skipped := h.promised.skipped
    skipped_granted := h.promised.skipped_granted
    skipped_le := h.promised.skipped_le
    promise := fun halive tag hpending =>
      hpromise (.inl halive) _ _ (h.promised.promise halive tag hpending) }

theorem Coordinated.stillConnected (h : Coordinated F i f node inTransit inbox (m :: backlog)) :
    node.state = .notConnected → ¬f.phase.Alive ∧ ∀ port tag, .taggedMessage port tag ∉ backlog :=
  fun hstate => (h.written.connected hstate).imp id
    fun hbacklog port tag hmem => hbacklog port tag (List.mem_cons_of_mem _ hmem)

theorem Coordinated.readMessage {port : K} {tag : Tag}
    (h : Coordinated F i f node inTransit inbox (.taggedMessage port tag :: backlog)) :
    Coordinated F i f node inTransit inbox backlog :=
  h.read h.written.nextEvent rfl (fun _ => rfl) h.stillConnected (List.Subset.refl _)
    (fun port tag hmem => (h.granted.message port tag hmem).2.2.2)
    fun _ _ _ hp => ⟨hp.nextEvent, hp.completed, hp.kept⟩

/-- A message in transit stands in for its federate. -/
theorem Coordinated.readNextEventTag {tag : Tag}
    (h : Coordinated F i f node inTransit inbox (.nextEventTag tag :: backlog)) :
    Coordinated F i f { node with
        nextEvent := if pqueueTagPeekTag inTransit < tag then pqueueTagPeekTag inTransit else tag
        lastGranted := if F.immediateUpstreams i ≠ [] then node.lastGranted
          else if pqueueTagPeekTag inTransit < tag then pqueueTagPeekTag inTransit else tag }
      inTransit inbox backlog := by
  have hannounced := h.written.announced tag List.mem_cons_self
  refine h.read ?_ rfl (fun hupstream => if_pos hupstream) h.stillConnected (List.Subset.refl _)
    (fun port tag hmem => (h.granted.message port tag hmem).2.2.2) ?_
  · refine .inr ?_
    simp only
    split_ifs
    · exact (pqueueTagPeekTag_eq inTransit).imp id (h.written.transit _)
    · exact hannounced
  · rintro - B y hp
    obtain ⟨hle, hkept⟩ := hp.kept
    refine ⟨?_, hp.completed, hkept⟩
    rw [← min_def_lt]
    rcases hle with hle | ⟨t, ht, hle⟩
    · exact (min_le_right _ _).trans hle
    · exact (min_le_left _ _).trans ((pqueueTagPeekTag_le ht).trans hle)

theorem Coordinated.removeUpTo {tag : Tag}
    (h : Coordinated F i f node inTransit inbox (.latestTagConfirmed tag :: backlog)) :
    Coordinated F i f node (pqueueTagRemoveUpTo inTransit tag) inbox backlog := by
  have hkeep : ∀ t, t ∈ inTransit → tag < t → t ∈ pqueueTagRemoveUpTo inTransit tag := by
    intro t ht hlt
    refine List.mem_filter.mpr ⟨ht, decide_eq_true fun hremove => ?_⟩
    rw [lfTagCompare_le_zero] at hremove
    exact absurd hremove.2 (not_le.mpr hlt)
  refine h.read h.written.nextEvent rfl (fun _ => rfl) h.stillConnected (fun t ht => (List.mem_filter.mp ht).1)
    (fun port t hmem => ?_) ?_
  · exact hkeep t (h.granted.message port t hmem).2.2.2
      (confirmed_lt_message h.valid h.granted h.written hmem List.mem_cons_self)
  · rintro - B y hp
    refine ⟨hp.nextEvent, hp.completed, hp.kept.2.mono le_rfl fun t ht => ?_⟩
    obtain ⟨ht, hlt⟩ := List.mem_filter.mp ht
    exact hkeep t ht (of_decide_eq_true hlt)

theorem Coordinated.readResign (h : Coordinated F i f node inTransit inbox (.resign :: backlog)) :
    Coordinated F i f { node with state := .notConnected, nextEvent := foreverTag } inTransit inbox
      backlog := by
  obtain ⟨hdead, hlater⟩ := h.written.resigned [] backlog rfl
  refine h.read (.inr (.inl rfl)) rfl (fun _ => rfl) (fun _ => ⟨hdead, hlater⟩) (List.Subset.refl _)
    (fun port tag hmem => (h.granted.message port tag hmem).2.2.2) ?_
  rintro (halive | ⟨port, tag, hmem⟩)
  · exact absurd halive hdead
  · exact absurd hmem (hlater port tag)

/-- The first half of a confirmation: the tag is recorded, the messages up to it still to be cleared. -/
theorem Coordinated.recordCompleted {tag : Tag}
    (h : Coordinated F i f node inTransit inbox (.latestTagConfirmed tag :: backlog)) :
    Coordinated F i f { node with completed := tag } inTransit inbox
      (.latestTagConfirmed tag :: backlog) where
  valid := h.valid
  granted := { h.granted with }
  written := { h.written with
    completed := .inr (h.written.confirmed tag List.mem_cons_self)
    sent := fun earlier port t later heq => by
      obtain ⟨hsource, hrange, current, hcurrent, htag, hsent⟩ := h.written.sent earlier port t later heq
      refine ⟨hsource, hrange, current, hcurrent, htag, hsent.nextEvent, ?_, hsent.kept⟩
      cases earlier with
      | nil => simp at heq
      | cons head earlier =>
        obtain rfl : .latestTagConfirmed tag = head := List.head_eq_of_cons_eq heq
        exact hsent.kept.1 }
  promised := { h.promised with
    promise := fun halive t hpending => by
      have hp := h.promised.promise halive t hpending
      exact ⟨hp.nextEvent, hp.kept.1, hp.kept⟩ }

end Read

section Forward

theorem mem_pqueueTagInsertIfNoMatch {q : List Tag} {t u : Tag} :
    u ∈ pqueueTagInsertIfNoMatch q t ↔ u = t ∨ u ∈ q := by
  unfold pqueueTagInsertIfNoMatch
  split_ifs with h
  · exact ⟨.inr, fun hu => hu.elim (fun heq => heq ▸ h) id⟩
  · exact List.mem_cons

/-- Nothing the infrastructure knows to be completed is later than what it has granted. -/
theorem Coordinated.completed_le (h : Coordinated F i f node inTransit inbox backlog)
    (hupstream : F.immediateUpstreams i ≠ []) : node.completed ≤ node.lastGranted := by
  rcases h.written.completed with hnever | ⟨hstarted, -, hle⟩
  · exact hnever ▸ bot_le
  · exact (hle.trans (h.valid.started_le hupstream hstarted)).trans (h.granted.lastTAG_le hupstream)

theorem Pending.of_forward {port : K} {tag y : Tag}
    (h : Pending F i f (inbox ++ [.taggedMessage port tag]) y) : Pending F i f inbox y ∨ y = tag := by
  rcases h.own_or_message with h | ⟨p, hmem⟩
  · exact .inl h.of_own
  · rcases List.mem_append.mp hmem with hmem | hmem
    · exact .inl (.message hmem)
    · exact .inr (ToFederate.taggedMessage.inj (List.mem_singleton.mp hmem)).2

/-- A message is written to a federate, recorded as in transit, and brings its next event forward. -/
theorem Coordinated.forward (h : Coordinated F i f node inTransit inbox backlog) {port : K} {tag next : Tag}
    (hupstream : F.immediateUpstreams i ≠ []) (hrange : F.InRange tag) (hlt : node.lastGranted < tag)
    (hnext : next = neverTag ∨ F.Announced next) (hnode : next ≤ node.nextEvent) (hle : next ≤ tag) :
    Coordinated F i f { node with nextEvent := next } (pqueueTagInsertIfNoMatch inTransit tag)
      (inbox ++ [.taggedMessage port tag]) backlog := by
  have hsub : inTransit ⊆ pqueueTagInsertIfNoMatch inTransit tag :=
    fun t ht => mem_pqueueTagInsertIfNoMatch.mpr (.inr ht)
  have hlast := (h.granted.lastTAG_le hupstream).trans_lt hlt
  have hpromise : ∀ (B : List (ToRti K)) y, Promise node inTransit B y →
      Promise { node with nextEvent := next } (pqueueTagInsertIfNoMatch inTransit tag) B y :=
    fun B y hp => ⟨hnode.trans hp.nextEvent, hp.completed, hp.kept.mono le_rfl hsub⟩
  refine {
    valid := h.valid
    granted := {
      lastTAG_le := h.granted.lastTAG_le
      tag_le := fun hupstream t ht => h.granted.tag_le hupstream t (by simpa using ht)
      order := ?_
      message := fun p t hmem => ?_ }
    written := { h.written with
      nextEvent := hnext
      transit := fun t ht => ?_
      sent := fun earlier p t later heq => by
        obtain ⟨hsource, hrange, current, hcurrent, htag, hsent⟩ := h.written.sent earlier p t later heq
        exact ⟨hsource, hrange, current, hcurrent, htag, hpromise _ _ hsent⟩ }
    promised := {
      skipped := h.promised.skipped
      skipped_granted := h.promised.skipped_granted
      skipped_le := fun halive y hpending => ?_
      promise := fun halive y hpending => ?_ } }
  · rw [List.pairwise_append]
    refine ⟨h.granted.order, List.pairwise_singleton _ _, fun a ha b hb granted p t hgrant heq => ?_⟩
    obtain rfl := List.mem_singleton.mp hb
    obtain ⟨-, rfl⟩ := ToFederate.taggedMessage.inj heq
    exact (h.granted.tag_le hupstream granted (hgrant ▸ ha)).trans_lt hlt
  · rcases List.mem_append.mp hmem with hmem | hmem
    · obtain ⟨hupstream, hrange, hlt, ht⟩ := h.granted.message p t hmem
      exact ⟨hupstream, hrange, hlt, hsub ht⟩
    · obtain ⟨-, rfl⟩ := ToFederate.taggedMessage.inj (List.mem_singleton.mp hmem)
      exact ⟨hupstream, hrange, hlast, mem_pqueueTagInsertIfNoMatch.mpr (.inl rfl)⟩
  · rcases mem_pqueueTagInsertIfNoMatch.mp ht with rfl | ht
    · exact hrange
    · exact h.written.transit t ht
  · rcases hpending.of_forward with hpending | rfl
    · exact h.promised.skipped_le halive y hpending
    · exact (h.promised.skipped_granted hupstream).trans hlast.le
  · rcases hpending.of_forward with hpending | rfl
    · exact hpromise _ _ (h.promised.promise halive y hpending)
    · refine ⟨hle, (h.completed_le hupstream).trans_lt hlt,
        kept_of_mem (mem_pqueueTagInsertIfNoMatch.mpr (.inl rfl)) fun completed hc => ?_⟩
      obtain ⟨hstarted, -, hc⟩ := h.written.confirmed completed hc
      exact (hc.trans (h.valid.started_le hupstream hstarted)).trans_lt hlast

end Forward

end LFBenchmarks.Federated
