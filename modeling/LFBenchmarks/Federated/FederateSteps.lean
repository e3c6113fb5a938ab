import LFBenchmarks.Federated.Promises

namespace LFBenchmarks.Federated

open ReactorC

variable {n : Nat} {K : Type} (F : Federation n K) (i : Fin n)

section Moves

/-- What a federate may write on its way from `f` to `f'`. -/
def Allowed (f f' : Federate K) : ToRti K → Prop
  | .nextEventTag tag => F.Announced tag ∧ (f'.phase.Alive → ∀ y, Pending F i f' [] y → tag ≤ y)
  | .latestTagConfirmed tag => f.executionStarted = true ∧ tag = f.currentTag ∧
    ∀ y, Pending F i f' [] y → tag < y
  | .taggedMessage port tag => F.source port = i ∧ f.phase = .executing ∧
    tag = lfDelayTag f.currentTag (F.delay port)
  | .resign => ¬f'.phase.Alive

/-- What a federate does by itself. Its events come from those it had, and it skips the announcement of
a tag only when no message can come in before. -/
structure Moves (f f' : Federate K) (written : Option (ToRti K)) : Prop where
  valid : Valid F i f'
  lastTAG : f'.lastTAG = f.lastTAG
  tardy : f'.tardy = f.tardy
  outbox : f'.outbox = f.outbox ++ written.toList
  started : f.executionStarted = true → f'.executionStarted = true
  current : f.currentTag ≤ f'.currentTag
  alive : f'.phase.Alive → f.phase.Alive
  pending : f'.phase.Alive → ∀ inbox y, Pending F i f' inbox y → ∃ x ≤ y, Pending F i f inbox x
  skipped : f'.lastSkippedNET = f.lastSkippedNET ∨ f'.lastSkippedNET = neverTag ∨
    F.Announced f'.lastSkippedNET ∧
      (f'.phase.Alive → ∀ y, Pending F i f' [] y → f'.lastSkippedNET ≤ y) ∧
      (F.immediateUpstreams i ≠ [] → f'.lastSkippedNET ≤ f.lastTAG)
  allowed : ∀ m ∈ written, Allowed F i f f' m

variable {F i} {f f' : Federate K} {node : SchedulingNode} {inTransit : List Tag}
  {inbox : List (ToFederate K)} {backlog : List (ToRti K)} {written : Option (ToRti K)}

/-- An event is a federate's own, or is on its way to it in a message. -/
theorem Pending.own_or_message {tag : Tag} (h : Pending F i f inbox tag) :
    Pending F i f [] tag ∨ ∃ port, .taggedMessage port tag ∈ inbox := by
  cases h with
  | event he => exact .inl (.event he)
  | current hphase => exact .inl (.current hphase)
  | stop hstop => exact .inl (.stop hstop)
  | start hfresh hreacts => exact .inl (.start hfresh hreacts)
  | message hmem => exact .inr ⟨_, hmem⟩

theorem Pending.of_own {tag : Tag} (h : Pending F i f [] tag) : Pending F i f inbox tag := by
  cases h with
  | event he => exact .event he
  | current hphase => exact .current hphase
  | stop hstop => exact .stop hstop
  | start hfresh hreacts => exact .start hfresh hreacts
  | message hmem => exact absurd hmem List.not_mem_nil

/-- Nothing confirmed reaches a message that is not read. -/
theorem confirmed_lt_message (hvalid : Valid F i f) (hgranted : Granted F i f node inTransit inbox)
    (hwritten : Written F i f node inTransit backlog) {port : K} {tag completed : Tag}
    (hmem : .taggedMessage port tag ∈ inbox) (hc : .latestTagConfirmed completed ∈ backlog) :
    completed < tag := by
  obtain ⟨hupstream, -, hlt, -⟩ := hgranted.message port tag hmem
  obtain ⟨hstarted, -, hle⟩ := hwritten.confirmed completed hc
  exact hle.trans_lt ((hvalid.started_le hupstream hstarted).trans_lt hlt)

theorem Promised.moves (h : Coordinated F i f node inTransit inbox backlog)
    (hm : Moves F i f f' written) :
    Promised F i f' node inTransit inbox (backlog ++ written.toList) := by
  obtain ⟨hvalid, hgranted, hwritten, hpromised⟩ := h
  refine ⟨?_, fun hupstream => ?_, fun halive tag hpending => ?_, fun halive tag hpending => ?_⟩
  · rcases hm.skipped with heq | heq | ⟨hannounced, -, -⟩
    · exact heq ▸ hpromised.skipped
    · exact .inl heq
    · exact .inr hannounced
  · rw [hm.lastTAG]
    rcases hm.skipped with heq | heq | ⟨-, -, hle⟩
    · exact heq ▸ hpromised.skipped_granted hupstream
    · exact heq ▸ bot_le
    · exact hle hupstream
  · obtain ⟨x, hx, hpending'⟩ := hm.pending halive inbox tag hpending
    rcases hm.skipped with heq | heq | ⟨-, hown, hmessage⟩
    · exact heq ▸ (hpromised.skipped_le (hm.alive halive) x hpending').trans hx
    · exact heq ▸ bot_le
    · rcases hpending.own_or_message with hpending | ⟨port, hmem⟩
      · exact hown halive tag hpending
      · obtain ⟨hupstream, -, hlt, -⟩ := hgranted.message port tag hmem
        exact (hmessage hupstream).trans hlt.le
  · obtain ⟨x, hx, hpending'⟩ := hm.pending halive inbox tag hpending
    have hpromise := (hpromised.promise (hm.alive halive) x hpending').mono hx
    cases written with
    | none => simpa using hpromise
    | some m =>
      have hallowed := hm.allowed m rfl
      refine ⟨hpromise.nextEvent, hpromise.completed, hpromise.kept.append ?_ ?_⟩
      · rintro next rfl
        rcases hpending.own_or_message with hpending | ⟨port, hmem⟩
        · exact .inl (hallowed.2 halive tag hpending)
        · refine .inr ⟨tag, (hgranted.message port tag hmem).2.2.2, le_rfl, fun completed hc => ?_⟩
          exact confirmed_lt_message hvalid hgranted hwritten hmem hc
      · rintro completed rfl
        obtain ⟨hstarted, rfl, hown⟩ := hallowed
        rcases hpending.own_or_message with hpending | ⟨port, hmem⟩
        · exact hown tag hpending
        · obtain ⟨hupstream, -, hlt, -⟩ := hgranted.message port tag hmem
          exact (hvalid.started_le hupstream hstarted).trans_lt hlt

/-- The last element of a list is the one split off, or comes after it. -/
theorem append_singleton_eq {α : Type} {l earlier later : List α} {a b : α}
    (h : l ++ [a] = earlier ++ b :: later) : l = earlier ∧ a = b ∧ later = [] ∨
      ∃ later', l = earlier ++ b :: later' ∧ later = later' ++ [a] := by
  rcases List.eq_nil_or_concat later with rfl | ⟨later', c, rfl⟩
  · obtain ⟨rfl, hab⟩ := List.append_inj' h rfl
    exact .inl ⟨rfl, List.head_eq_of_cons_eq hab, rfl⟩
  · rw [List.concat_eq_append] at h ⊢
    rw [← List.cons_append, ← List.append_assoc] at h
    obtain ⟨rfl, hac⟩ := List.append_inj' h rfl
    exact .inr ⟨later', rfl, by rw [List.head_eq_of_cons_eq hac]⟩

/-- What is written stays in order while the federate moves on. -/
theorem Written.advance (h : Written F i f node inTransit backlog)
    (hstarted : f.executionStarted = true → f'.executionStarted = true)
    (hcurrent : f.currentTag ≤ f'.currentTag) (halive : f'.phase.Alive → f.phase.Alive) :
    Written F i f' node inTransit backlog := by
  have hdead : ¬f.phase.Alive → ¬f'.phase.Alive := fun hdead halive' => hdead (halive halive')
  refine { h with
    completed := h.completed.imp id ?_
    confirmed := fun tag hmem => ?_
    resigned := fun earlier later heq => (h.resigned earlier later heq).imp hdead id
    connected := fun hstate => (h.connected hstate).imp hdead id }
  · rintro ⟨hstart, hrange, hle⟩
    exact ⟨hstarted hstart, hrange, hle.trans hcurrent⟩
  · obtain ⟨hstart, hrange, hle⟩ := h.confirmed tag hmem
    exact ⟨hstarted hstart, hrange, hle.trans hcurrent⟩

/-- What may be written behind the backlog. -/
def Writable (F : Federation n K) (i : Fin n) (f : Federate K) (node : SchedulingNode)
    (inTransit : List Tag) (backlog : List (ToRti K)) : ToRti K → Prop
  | .nextEventTag tag => F.Announced tag
  | .latestTagConfirmed tag =>
    f.executionStarted = true ∧ F.InRange tag ∧ tag ≤ f.currentTag
  | .taggedMessage port tag => f.phase.Alive ∧ F.source port = i ∧ F.InRange tag ∧
    ∃ current, F.InRange current ∧ tag = lfDelayTag current (F.delay port) ∧
      Promise node inTransit backlog current
  | .resign => ¬f.phase.Alive

theorem Written.append (h : Written F i f node inTransit backlog) (m : ToRti K)
    (hm : Writable F i f node inTransit backlog m) :
    Written F i f node inTransit (backlog ++ [m]) := by
  -- a federate that has stopped writes no message any more
  have hquiet : ¬f.phase.Alive → ∀ port tag, .taggedMessage port tag ∈ backlog ++ [m] →
      .taggedMessage port tag ∈ backlog := by
    intro hstop port tag hmem
    rcases List.mem_append.mp hmem with hmem | hmem
    · exact hmem
    · obtain rfl := List.mem_singleton.mp hmem
      exact absurd hm.1 hstop
  refine { h with
    confirmed := fun tag hmem => ?_
    announced := fun tag hmem => ?_
    sent := fun earlier port tag later heq => ?_
    resigned := fun earlier later heq => ?_
    connected := fun hstate => ?_ }
  · rcases List.mem_append.mp hmem with hmem | hmem
    · exact h.confirmed tag hmem
    · obtain rfl := List.mem_singleton.mp hmem
      exact hm
  · rcases List.mem_append.mp hmem with hmem | hmem
    · exact h.announced tag hmem
    · obtain rfl := List.mem_singleton.mp hmem
      exact hm
  · rcases append_singleton_eq heq with ⟨rfl, rfl, rfl⟩ | ⟨later, rfl, rfl⟩
    · exact hm.2
    · exact h.sent earlier port tag later rfl
  · rcases append_singleton_eq heq with ⟨rfl, rfl, rfl⟩ | ⟨later, rfl, rfl⟩
    · exact ⟨hm, by simp⟩
    · obtain ⟨hstop, hlater⟩ := h.resigned earlier later rfl
      refine ⟨hstop, fun port tag hmem => ?_⟩
      rcases List.mem_append.mp hmem with hmem | hmem
      · exact hlater port tag hmem
      · obtain rfl := List.mem_singleton.mp hmem
        exact absurd hm.1 hstop
  · obtain ⟨hstop, hbacklog⟩ := h.connected hstate
    exact ⟨hstop, fun port tag hmem => hbacklog port tag (hquiet hstop port tag hmem)⟩

theorem Written.moves (h : Coordinated F i f node inTransit inbox backlog)
    (hm : Moves F i f f' written)
    (hrange : ∀ port tag, written = some (.taggedMessage port tag) → F.InRange tag) :
    Written F i f' node inTransit (backlog ++ written.toList) := by
  obtain ⟨hvalid, hgranted, hwritten, hpromised⟩ := h
  have hadvance {b : List (ToRti K)} (h : Written F i f node inTransit b) :
      Written F i f' node inTransit b := h.advance hm.started hm.current hm.alive
  cases written with
  | none => simpa using hadvance hwritten
  | some m =>
    have hallowed := hm.allowed m rfl
    rw [Option.toList_some]
    cases m with
    | nextEventTag tag => exact hadvance (hwritten.append _ hallowed.1)
    | latestTagConfirmed tag =>
      obtain ⟨hstarted, rfl, -⟩ := hallowed
      exact hadvance (hwritten.append _ ⟨hstarted, hvalid.current, le_rfl⟩)
    | taggedMessage port tag =>
      obtain ⟨hsource, hphase, rfl⟩ := hallowed
      have halive : f.phase.Alive := by
        rw [hphase]
        trivial
      exact hadvance (hwritten.append _ ⟨halive, hsource, hrange port _ rfl, f.currentTag,
        hvalid.current, rfl, hpromised.promise halive _ (.current hphase)⟩)
    | resign => exact (hadvance hwritten).append _ hallowed

theorem Coordinated.moves (h : Coordinated F i f node inTransit inbox backlog)
    (hm : Moves F i f f' written)
    (hrange : ∀ port tag, written = some (.taggedMessage port tag) → F.InRange tag) :
    Coordinated F i f' node inTransit inbox (backlog ++ written.toList) where
  valid := hm.valid
  granted := { h.granted with
    lastTAG_le := hm.lastTAG ▸ h.granted.lastTAG_le
    message := hm.lastTAG ▸ h.granted.message }
  written := Written.moves h hm hrange
  promised := Promised.moves h hm

end Moves

section NextEvent

variable {F i} {f : Federate K}

theorem getNextEventTag_eq (f : Federate K) : getNextEventTag F i f =
    min (pqueueTagPeekTag (f.eventQueue.map Prod.snd)) (F.stopTag i) := by
  unfold getNextEventTag
  simp only [gt_iff_lt, zero_lt_lfTagCompare]
  rw [min_comm, min_def_lt]

theorem getNextEventTag_le {e : Option K × Tag} (he : e ∈ f.eventQueue) : getNextEventTag F i f ≤ e.2 := by
  rw [getNextEventTag_eq]
  exact (min_le_left _ _).trans (pqueueTagPeekTag_le (List.mem_map_of_mem he))

theorem getNextEventTag_le_stopTag : getNextEventTag F i f ≤ F.stopTag i := by
  rw [getNextEventTag_eq]
  exact min_le_right _ _

theorem getNextEventTag_cases (f : Federate K) : getNextEventTag F i f = foreverTag ∨
    getNextEventTag F i f = F.stopTag i ∨ ∃ e ∈ f.eventQueue, e.2 = getNextEventTag F i f := by
  rw [getNextEventTag_eq]
  rcases min_choice (pqueueTagPeekTag (f.eventQueue.map Prod.snd)) (F.stopTag i) with h | h
  · rw [h]
    rcases pqueueTagPeekTag_eq (f.eventQueue.map Prod.snd) with h | h
    · exact .inl h
    · exact .inr (.inr (List.mem_map.mp h))
  · exact .inr (.inl h)

theorem announced_getNextEventTag (hrange : ∀ e ∈ f.eventQueue, F.InRange e.2) :
    F.Announced (getNextEventTag F i f) := by
  rcases getNextEventTag_cases (F := F) (i := i) f with h | h | ⟨e, he, h⟩
  · exact .inl h
  · exact h ▸ F.stopTag_announced i
  · exact .inr (h ▸ hrange e he)

theorem startTag_le_getNextEventTag (hrange : ∀ e ∈ f.eventQueue, F.InRange e.2) :
    F.startTag ≤ getNextEventTag F i f := by
  rcases announced_getNextEventTag (i := i) hrange with h | h
  · exact h ▸ le_top
  · exact h.start

/-- A federate not at work announces no tag later than one of its own events. -/
theorem getNextEventTag_le_own (hphase : f.phase ≠ .executing) (hreacts : f.executionStarted = false →
    F.reactsAtStart i = true → getNextEventTag F i f ≤ F.startTag) {tag : Tag}
    (h : Pending F i f [] tag) : getNextEventTag F i f ≤ tag := by
  cases h with
  | event he => exact getNextEventTag_le he
  | current hcurrent => exact absurd hcurrent hphase
  | stop => exact getNextEventTag_le_stopTag
  | start hfresh hstart => exact hreacts hfresh hstart
  | message hmem => exact absurd hmem List.not_mem_nil

end NextEvent

section Announcements

variable {F i} {f f' : Federate K} {p : Phase} {tag : Tag}

theorem Pending.congr {inbox : List (ToFederate K)} (h : Pending F i f' inbox tag)
    (hqueue : f'.eventQueue = f.eventQueue) (hcurrent : f'.currentTag = f.currentTag)
    (hstarted : f'.executionStarted = f.executionStarted)
    (hphase : f'.phase = .executing → f.phase = .executing) : Pending F i f inbox tag := by
  cases h with
  | event he => exact .event (hqueue ▸ he)
  | current hexecuting => exact hcurrent ▸ .current (hphase hexecuting)
  | stop hstop => exact .stop (hcurrent ▸ hstarted ▸ hstop)
  | start hfresh hreacts => exact .start (hstarted ▸ hfresh) hreacts
  | message hmem => exact .message hmem

/-- Nothing but the phase changes. -/
theorem Moves.phase (hvalid : Valid F i { f with phase := p }) (halive : p.Alive → f.phase.Alive)
    (hp : p = .executing → f.phase = .executing) : Moves F i f { f with phase := p } none where
  valid := hvalid
  lastTAG := rfl
  tardy := rfl
  outbox := (List.append_nil _).symm
  started := id
  current := le_rfl
  alive := halive
  pending _ _ y h := ⟨y, le_rfl, h.congr rfl rfl rfl hp⟩
  skipped := .inl rfl
  allowed _ h := by simp at h

theorem Moves.sendNET (hvalid : Valid F i { f with phase := p }) (halive : p.Alive → f.phase.Alive)
    (hp : p = .executing → f.phase = .executing) (htag : F.Announced tag)
    (hown : p.Alive → ∀ y, Pending F i { f with phase := p } [] y → tag ≤ y) :
    Moves F i f { f.sendNET tag with phase := p } (some (.nextEventTag tag)) where
  valid := { hvalid with }
  lastTAG := rfl
  tardy := rfl
  outbox := rfl
  started := id
  current := le_rfl
  alive := halive
  pending _ _ y h := ⟨y, le_rfl, h.congr rfl rfl rfl hp⟩
  skipped := .inr (.inl rfl)
  allowed m h := by
    obtain rfl := Option.some.inj h
    exact ⟨htag, fun hp y hy => hown hp y (hy.congr rfl rfl rfl fun heq => heq)⟩

theorem Moves.skip (hvalid : Valid F i { f with phase := p }) (halive : p.Alive → f.phase.Alive)
    (hp : p = .executing → f.phase = .executing) (htag : F.Announced tag)
    (hown : p.Alive → ∀ y, Pending F i { f with phase := p } [] y → tag ≤ y)
    (hgranted : F.immediateUpstreams i ≠ [] → tag ≤ f.lastTAG) :
    Moves F i f { f with lastSkippedNET := tag, phase := p } none where
  valid := { hvalid with }
  lastTAG := rfl
  tardy := rfl
  outbox := (List.append_nil _).symm
  started := id
  current := le_rfl
  alive := halive
  pending _ _ y h := ⟨y, le_rfl, h.congr rfl rfl rfl hp⟩
  skipped := .inr (.inr ⟨htag, fun hp y hy => hown hp y (hy.congr rfl rfl rfl fun heq => heq), hgranted⟩)
  allowed _ h := by simp at h

/-- An announcement is sent, skipped, or not needed. -/
theorem announce_cases (f : Federate K) (tag : Tag) : announce F i f tag = f ∨
    announce F i f tag = f.sendNET tag ∨
    announce F i f tag = { f with lastSkippedNET := tag } ∧
      (F.immediateUpstreams i ≠ [] → tag ≤ f.lastTAG) := by
  unfold announce
  simp only [ge_iff_le, zero_le_lfTagCompare, lfTagCompare_lt_zero]
  split_ifs with hisolated hgranted hnet hnet
  · exact .inl rfl
  · exact .inr (.inl rfl)
  · exact .inr (.inr ⟨rfl, fun _ => hgranted⟩)
  · exact .inr (.inl rfl)
  · exact .inr (.inr ⟨rfl, fun hupstream => absurd ⟨hupstream, not_le.mp hgranted⟩ (not_or.mp hnet).2⟩)

theorem Moves.announce (hvalid : Valid F i { f with phase := p }) (halive : p.Alive → f.phase.Alive)
    (hp : p = .executing → f.phase = .executing) (htag : F.Announced tag)
    (hown : p.Alive → ∀ y, Pending F i { f with phase := p } [] y → tag ≤ y) :
    ∃ written, Moves F i f { announce F i f tag with phase := p } written ∧
      ∀ port t, written ≠ some (.taggedMessage port t) := by
  rcases announce_cases (F := F) (i := i) f tag with h | h | ⟨h, hgranted⟩ <;> rw [h]
  · exact ⟨none, .phase hvalid halive hp, by simp⟩
  · exact ⟨_, .sendNET hvalid halive hp htag hown, by simp⟩
  · exact ⟨none, .skip hvalid halive hp htag hown hgranted, by simp⟩

end Announcements

section Steps

variable {F i} {f : Federate K}

theorem requested_started (h : f.executionStarted = true) : requested F i f = getNextEventTag F i f :=
  if_pos h

theorem requested_fresh (h : f.executionStarted = false) : requested F i f = F.startTag := by
  simp [requested, h]

theorem announced_requested (hrange : ∀ e ∈ f.eventQueue, F.InRange e.2) :
    F.Announced (requested F i f) := by
  unfold requested
  split_ifs
  · exact announced_getNextEventTag hrange
  · exact .inr inRange_startTag

theorem startTag_le_own (hvalid : Valid F i f) (hrange : ∀ e ∈ f.eventQueue, F.InRange e.2) {tag : Tag}
    (h : Pending F i f [] tag) : F.startTag ≤ tag := by
  cases h with
  | event he => exact (hrange _ he).start
  | current => exact hvalid.current.start
  | stop =>
    rcases F.stopTag_announced i with h | h
    · exact h ▸ le_top
    · exact h.start
  | start => exact le_rfl
  | message hmem => exact absurd hmem List.not_mem_nil

theorem requested_le_own (hvalid : Valid F i f) (hrange : ∀ e ∈ f.eventQueue, F.InRange e.2)
    (hphase : f.phase ≠ .executing) {tag : Tag} (h : Pending F i f [] tag) : requested F i f ≤ tag := by
  cases hstarted : f.executionStarted with
  | false =>
    rw [requested_fresh hstarted]
    exact startTag_le_own hvalid hrange h
  | true =>
    rw [requested_started hstarted]
    exact getNextEventTag_le_own hphase (fun hfresh => by simp [hstarted] at hfresh) h

theorem Moves.sendNextEventTag (hvalid : Valid F i f) (hrange : ∀ e ∈ f.eventQueue, F.InRange e.2)
    (halive : f.phase.Alive) (hphase : f.phase ≠ .executing) :
    ∃ written, Moves F i f (sendNextEventTag F i f (requested F i f)) written ∧
      ∀ port t, written ≠ some (.taggedMessage port t) := by
  unfold Federated.sendNextEventTag
  simp only [ge_iff_le, zero_le_lfTagCompare]
  split_ifs with hgranted
  · refine Moves.announce { hvalid with
      fresh := fun hfresh => ⟨(hvalid.fresh hfresh).1, by simp, trivial⟩
      awaiting := by simp
      granted_le := fun hupstream _ => hgranted.resolve_left hupstream
      atStop := by simp } (fun _ => halive) (by simp) (announced_requested hrange) fun _ y hy => ?_
    exact requested_le_own hvalid hrange hphase (hy.congr rfl rfl rfl (by simp))
  · refine Moves.announce { hvalid with
      fresh := fun hfresh => ⟨(hvalid.fresh hfresh).1, by simp, trivial⟩
      awaiting := fun tag htag => ⟨(not_or.mp hgranted).1, ?_⟩
      granted_le := by simp
      atStop := by simp } (fun _ => halive) (by simp) (announced_requested hrange) fun _ y hy => ?_
    · obtain rfl := Phase.awaiting.inj htag
      exact le_rfl
    · exact requested_le_own hvalid hrange hphase (hy.congr rfl rfl rfl (by simp))

theorem Moves.wake (hvalid : Valid F i f) (hrange : ∀ e ∈ f.eventQueue, F.InRange e.2)
    (hreacts : F.immediateUpstreams i ≠ [] → F.reactsAtStart i = true → F.startTag ∈ F.initialEvents i)
    {tag : Tag} (hphase : f.phase = .awaiting tag) :
    ∃ written, Moves F i f (wake F i f tag) written ∧
      ∀ port t, written ≠ some (.taggedMessage port t) := by
  have halive : f.phase.Alive := hphase ▸ trivial
  have hidle : f.phase ≠ .executing := by simp [hphase]
  obtain ⟨hupstream, hle⟩ := hvalid.awaiting tag hphase
  unfold Federated.wake
  simp only [ge_iff_le, zero_le_lfTagCompare, lfTagCompare_lt_zero, ne_eq, lfTagCompare_eq_zero]
  split_ifs with hgranted hagain hsame
  · have h := Moves.sendNextEventTag hvalid hrange halive hidle
    rwa [requested_started hagain.1] at h
  · refine ⟨none, .phase { hvalid with
      fresh := fun hfresh => ⟨(hvalid.fresh hfresh).1, by simp, trivial⟩
      awaiting := by simp
      granted_le := fun _ _ => ?_
      atStop := by simp } (fun _ => halive) (by simp), by simp⟩
    change requested F i f ≤ f.lastTAG
    cases hstarted : f.executionStarted with
    | true => exact hle.trans (not_lt.mp fun hlt => hagain ⟨hstarted, hlt⟩)
    | false =>
      rcases hgranted with h | h
      · rw [requested_fresh hstarted]
        exact (startTag_le_getNextEventTag hrange).trans h
      · exact hle.trans h
  · exact ⟨none, .phase hvalid (fun h => h) (fun h => h), by simp⟩
  · refine ⟨_, .sendNET hvalid (fun h => h) (fun h => h) (announced_getNextEventTag hrange) fun _ y hy => ?_,
      by simp⟩
    refine getNextEventTag_le_own hidle (fun hfresh hstart => ?_) hy
    exact getNextEventTag_le (hvalid.atStart (hreacts hupstream hstart) hfresh)

theorem mem_popEvents {tag : Tag} {e : Option K × Tag} :
    e ∈ (f.popEvents tag).eventQueue ↔ e ∈ f.eventQueue ∧ e.2 ≠ tag := by
  simp [Federate.popEvents, List.mem_filter]

theorem Moves.begin (hvalid : Valid F i f) (hrange : ∀ e ∈ f.eventQueue, F.InRange e.2)
    (hphase : f.phase = .granted) (hfresh : f.executionStarted = false) :
    Moves F i f (begin F i f) none := by
  obtain ⟨hcurrent, -, -⟩ := hvalid.fresh hfresh
  have hstop : f.currentTag ≤ F.stopTag i := by
    rw [hcurrent]
    exact startTag_le_own hvalid hrange (.stop (by simp [hfresh]))
  have hphase' : (Federated.begin F i f).phase = .executing ∨
      (Federated.begin F i f).phase = .ready := by
    unfold Federated.begin
    split_ifs
    · exact .inl rfl
    · exact .inr rfl
  refine {
    valid := {
      current := hvalid.current
      fresh := fun h => absurd h (by simp [Federated.begin])
      atStart := fun _ h => absurd h (by simp [Federated.begin])
      later := fun _ e he => ?_
      awaiting := fun tag htag => by rcases hphase' with h | h <;> simp [h] at htag
      started_le := fun hupstream _ => ?_
      granted_le := fun _ hgranted => by rcases hphase' with h | h <;> simp [h] at hgranted
      atStop := fun hat => by rcases hphase' with h | h <;> simp [h] at hat }
    lastTAG := rfl
    tardy := rfl
    outbox := (List.append_nil _).symm
    started := fun _ => rfl
    current := le_rfl
    alive := fun _ => hphase ▸ trivial
    pending := fun _ inbox y h => ?_
    skipped := .inl rfl
    allowed := by simp }
  · obtain ⟨he, hne⟩ := mem_popEvents.mp he
    exact lt_of_le_of_ne (hcurrent ▸ (hrange e he).start) (Ne.symm hne)
  · change f.currentTag ≤ f.lastTAG
    rw [hcurrent, ← requested_fresh (i := i) hfresh]
    exact hvalid.granted_le hupstream hphase
  · refine ⟨y, le_rfl, ?_⟩
    cases h with
    | event he => exact .event (mem_popEvents.mp he).1
    | current hexecuting =>
      change Pending F i f inbox f.currentTag
      unfold Federated.begin at hexecuting
      simp only [ge_iff_le, zero_le_lfTagCompare, ite_eq_left_iff, reduceCtorEq, imp_false,
        not_not] at hexecuting
      rcases hexecuting with hreacts | hevent | hat
      · exact hcurrent ▸ .start hfresh hreacts
      · obtain ⟨e, he, hsame⟩ := List.any_eq_true.mp hevent
        exact of_decide_eq_true hsame ▸ .event he
      · exact le_antisymm hat hstop ▸ .stop (by simp [hfresh])
    | stop => exact .stop (by simp [hfresh])
    | start h => exact absurd h (by simp [Federated.begin])
    | message hmem => exact .message hmem

theorem Moves.advance (hvalid : Valid F i f) (hrange : ∀ e ∈ f.eventQueue, F.InRange e.2)
    (hphase : f.phase = .granted) (hstarted : f.executionStarted = true)
    (hnext : getNextEventTag F i f ≠ foreverTag) : Moves F i f (advance F i f) none := by
  have halive : f.phase.Alive := hphase ▸ trivial
  unfold Federated.advance
  simp only [ge_iff_le, zero_le_lfTagCompare]
  split_ifs with hat
  · exact .phase { hvalid with
      fresh := fun h => absurd (hstarted.symm.trans h) (by simp)
      awaiting := by simp
      granted_le := by simp
      atStop := by simp } (fun _ => halive) (by simp)
  have hcurrent : f.currentTag < getNextEventTag F i f := by
    rcases getNextEventTag_cases (F := F) (i := i) f with h | h | ⟨e, he, h⟩
    · exact absurd h hnext
    · rw [h] at hat ⊢
      exact not_le.mp fun hle => hat ⟨le_rfl, hle⟩
    · exact h ▸ hvalid.later hstarted e he
  refine {
    valid := {
      current := (announced_getNextEventTag hrange).resolve_left hnext
      fresh := fun h => absurd (hstarted.symm.trans h) (by simp)
      atStart := fun _ h => absurd (hstarted.symm.trans h) (by simp)
      later := fun _ e he => ?_
      awaiting := by simp
      started_le := fun hupstream _ => ?_
      granted_le := by simp
      atStop := by simp }
    lastTAG := rfl
    tardy := rfl
    outbox := (List.append_nil _).symm
    started := id
    current := hcurrent.le
    alive := fun _ => halive
    pending := fun _ inbox y h => ?_
    skipped := .inl rfl
    allowed := by simp }
  · obtain ⟨he, hne⟩ := mem_popEvents.mp he
    exact lt_of_le_of_ne (getNextEventTag_le he) (Ne.symm hne)
  · rw [← requested_started hstarted]
    exact hvalid.granted_le hupstream hphase
  · refine ⟨y, le_rfl, ?_⟩
    cases h with
    | event he => exact .event (mem_popEvents.mp he).1
    | current =>
      change Pending F i f inbox (getNextEventTag F i f)
      rcases getNextEventTag_cases (F := F) (i := i) f with h | h | ⟨e, he, h⟩
      · exact absurd h hnext
      · exact h ▸ .stop fun _ => h ▸ hcurrent
      · exact h ▸ .event he
    | stop hlt => exact .stop fun _ => hcurrent.trans (hlt hstarted)
    | start h => exact absurd (hstarted.symm.trans h) (by simp)
    | message hmem => exact .message hmem

theorem Valid.started (hvalid : Valid F i f) (hphase : f.phase = .executing) :
    f.executionStarted = true := by
  by_contra h
  exact (hvalid.fresh (Bool.eq_false_iff.mpr h)).2.1 hphase

theorem Moves.refl (hvalid : Valid F i f) : Moves F i f f none where
  valid := hvalid
  lastTAG := rfl
  tardy := rfl
  outbox := (List.append_nil _).symm
  started := id
  current := le_rfl
  alive := id
  pending _ _ y h := ⟨y, le_rfl, h⟩
  skipped := .inl rfl
  allowed := by simp

theorem Moves.schedule (hvalid : Valid F i f) (hphase : f.phase = .executing) {tag : Tag}
    (htag : f.currentTag < tag) : Moves F i f (schedule F i f tag) none := by
  have hstarted := hvalid.started hphase
  unfold Federated.schedule
  split_ifs
  · exact .refl hvalid
  refine {
    valid := { hvalid with
      atStart := fun _ h => absurd (hstarted.symm.trans h) (by simp)
      later := fun _ e he => ?_
      awaiting := fun _ h => absurd (hphase.symm.trans h) (by simp)
      granted_le := fun _ h => absurd (hphase.symm.trans h) (by simp) }
    lastTAG := rfl
    tardy := rfl
    outbox := (List.append_nil _).symm
    started := id
    current := le_rfl
    alive := id
    pending := fun _ inbox y h => ?_
    skipped := .inl rfl
    allowed := by simp }
  · rcases List.mem_cons.mp he with rfl | he
    · exact htag
    · exact hvalid.later hstarted e he
  · cases h with
    | event he =>
      rcases List.mem_cons.mp he with rfl | he
      · exact ⟨f.currentTag, htag.le, .current hphase⟩
      · exact ⟨_, le_rfl, .event he⟩
    | current h => exact ⟨_, le_rfl, .current h⟩
    | stop h => exact ⟨_, le_rfl, .stop h⟩
    | start h h' => exact ⟨_, le_rfl, .start h h'⟩
    | message h => exact ⟨_, le_rfl, .message h⟩

theorem Moves.sendTaggedMessage (hvalid : Valid F i f) (hphase : f.phase = .executing) {port : K}
    (hport : F.source port = i) : ∃ written, Moves F i f (sendTaggedMessage F i f port) written := by
  unfold Federated.sendTaggedMessage
  by_cases hstop : lfTagCompare (lfDelayTag f.currentTag (F.delay port)) (F.stopTag i) > 0
  · exact ⟨none, by simpa only [hstop, if_true] using Moves.refl hvalid⟩
  simp only [hstop, if_false]
  refine ⟨some (.taggedMessage port (lfDelayTag f.currentTag (F.delay port))), {
    valid := { hvalid with }
    lastTAG := rfl
    tardy := rfl
    outbox := rfl
    started := id
    current := le_rfl
    alive := id
    pending := fun _ inbox y h => ⟨y, le_rfl, h.congr rfl rfl rfl fun heq => heq⟩
    skipped := .inl rfl
    allowed := fun m hm => ?_ }⟩
  obtain rfl := Option.some.inj hm
  exact ⟨hport, hphase, rfl⟩

theorem Moves.complete (hvalid : Valid F i f) (hphase : f.phase = .executing) :
    ∃ written, Moves F i f { latestTagConfirmed f with phase := .ready } written ∧
      ∀ port t, written ≠ some (.taggedMessage port t) := by
  have hstarted := hvalid.started hphase
  have hready : Valid F i { f with phase := .ready } := { hvalid with
    fresh := fun h => absurd (hstarted.symm.trans h) (by simp)
    awaiting := by simp
    granted_le := by simp
    atStop := by simp }
  have halive : f.phase.Alive := hphase ▸ trivial
  unfold latestTagConfirmed
  split_ifs
  · exact ⟨none, .phase hready (fun _ => halive) (by simp), by simp⟩
  refine ⟨some (.latestTagConfirmed f.currentTag), {
    valid := { hready with }
    lastTAG := rfl
    tardy := rfl
    outbox := rfl
    started := id
    current := le_rfl
    alive := fun _ => halive
    pending := fun _ inbox y h => ⟨y, le_rfl, h.congr rfl rfl rfl (by simp)⟩
    skipped := .inl rfl
    allowed := fun m hm => ?_ }, by simp⟩
  obtain rfl := Option.some.inj hm
  refine ⟨hstarted, rfl, fun y hy => ?_⟩
  cases hy with
  | event he => exact hvalid.later hstarted _ he
  | current h => simp at h
  | stop hlt => exact hlt hstarted
  | start h => exact absurd (hstarted.symm.trans h) (by simp)
  | message hmem => exact absurd hmem List.not_mem_nil

theorem Moves.stop (hvalid : Valid F i f) (hphase : f.phase = .ready)
    (hstarted : f.executionStarted = true) (hstop : F.stopTag i ≤ f.currentTag) :
    ∃ written, Moves F i f { Federated.announce F i f foreverTag with phase := .stopped } written ∧
      ∀ port t, written ≠ some (.taggedMessage port t) :=
  Moves.announce { hvalid with
    fresh := fun h => absurd (hstarted.symm.trans h) (by simp)
    awaiting := by simp
    granted_le := by simp
    atStop := fun _ => ⟨hstarted, hstop⟩ } (fun _ => hphase ▸ trivial) (by simp) (.inl rfl) False.elim

theorem Moves.resign (hvalid : Valid F i f) (hphase : f.phase = .stopped) :
    Moves F i f { f.write .resign with phase := .resigned } (some .resign) where
  valid := { hvalid with
    fresh := fun h => absurd ((hvalid.atStop (.inl hphase)).1.symm.trans h) (by simp)
    awaiting := by simp
    granted_le := by simp
    atStop := fun _ => hvalid.atStop (.inl hphase) }
  lastTAG := rfl
  tardy := rfl
  outbox := rfl
  started := id
  current := le_rfl
  alive := False.elim
  pending := False.elim
  skipped := .inl rfl
  allowed m hm := by
    obtain rfl := Option.some.inj hm
    exact id

end Steps

section Receive

variable {F i} {f f' : Federate K} {node : SchedulingNode} {inTransit : List Tag}
  {m : ToFederate K} {rest : List (ToFederate K)} {backlog : List (ToRti K)}

theorem Pending.of_rest {tag : Tag} (h : Pending F i f rest tag) : Pending F i f (m :: rest) tag := by
  rcases h.own_or_message with h | ⟨port, hmem⟩
  · exact h.of_own
  · exact .message (List.mem_cons_of_mem _ hmem)

theorem Coordinated.pop (h : Coordinated F i f node inTransit (m :: rest) backlog) :
    Coordinated F i f node inTransit rest backlog where
  valid := h.valid
  granted := {
    lastTAG_le := h.granted.lastTAG_le
    tag_le := fun hupstream tag hmem => h.granted.tag_le hupstream tag (List.mem_cons_of_mem _ hmem)
    order := h.granted.order.of_cons
    message := fun port tag hmem => h.granted.message port tag (List.mem_cons_of_mem _ hmem) }
  written := h.written
  promised := {
    skipped := h.promised.skipped
    skipped_granted := h.promised.skipped_granted
    skipped_le := fun halive tag hpending => h.promised.skipped_le halive tag hpending.of_rest
    promise := fun halive tag hpending => h.promised.promise halive tag hpending.of_rest }

/-- What reading a message does to a federate. -/
structure Receives (f f' : Federate K) (node : SchedulingNode) (inTransit : List Tag)
    (inbox rest : List (ToFederate K)) (backlog : List (ToRti K)) (written : Option (ToRti K)) : Prop where
  coordinated : Coordinated F i f' node inTransit rest (backlog ++ written.toList)
  outbox : f'.outbox = f.outbox ++ written.toList
  tardy : f'.tardy = f.tardy
  alive : f'.phase.Alive → f.phase.Alive
  pending : f'.phase.Alive → ∀ y, Pending F i f' rest y → ∃ x ≤ y, Pending F i f inbox x
  written : ∀ port t, written ≠ some (.taggedMessage port t)

theorem Receives.of_moves {written : Option (ToRti K)}
    (h : Coordinated F i f node inTransit (m :: rest) backlog) (hm : Moves F i f f' written)
    (hwritten : ∀ port t, written ≠ some (.taggedMessage port t)) :
    Receives (F := F) (i := i) f f' node inTransit (m :: rest) rest backlog written where
  coordinated := h.pop.moves hm fun port tag heq => absurd heq (hwritten port tag)
  outbox := hm.outbox
  tardy := hm.tardy
  alive := hm.alive
  pending halive y hy := by
    obtain ⟨x, hx, hpending⟩ := hm.pending halive rest y hy
    exact ⟨x, hx, hpending.of_rest⟩
  written := hwritten

theorem receive_tagAdvanceGrant {tag : Tag}
    (h : Coordinated F i f node inTransit (.tagAdvanceGrant tag :: rest) backlog)
    (hle : f.lastTAG ≤ tag) : Receives (F := F) (i := i) f { f with lastTAG := tag } node inTransit
      (.tagAdvanceGrant tag :: rest) rest backlog none := by
  obtain ⟨hvalid, hgranted, hwritten, hpromised⟩ := h.pop
  have hpending : ∀ y, Pending F i { f with lastTAG := tag } rest y → Pending F i f rest y :=
    fun y hy => hy.congr rfl rfl rfl fun heq => heq
  refine {
    coordinated := {
      valid := { hvalid with
        started_le := fun hupstream hstarted => (hvalid.started_le hupstream hstarted).trans hle
        granted_le := fun hupstream hphase => (hvalid.granted_le hupstream hphase).trans hle }
      granted := { hgranted with
        lastTAG_le := fun hupstream => h.granted.tag_le hupstream tag List.mem_cons_self
        message := fun port t hmem => ?_ }
      written := by simpa using { hwritten with }
      promised := {
        skipped := hpromised.skipped
        skipped_granted := fun hupstream => (hpromised.skipped_granted hupstream).trans hle
        skipped_le := fun halive y hy => hpromised.skipped_le halive y (hpending y hy)
        promise := fun halive y hy => by
          simpa using hpromised.promise halive y (hpending y hy) } }
    outbox := (List.append_nil _).symm
    tardy := rfl
    alive := fun halive => halive
    pending := fun _ y hy => ⟨y, le_rfl, (hpending y hy).of_rest⟩
    written := by simp }
  obtain ⟨hupstream, hrange, -, htransit⟩ := hgranted.message port t hmem
  exact ⟨hupstream, hrange, (List.pairwise_cons.mp h.granted.order).1 _ hmem tag port t rfl rfl, htransit⟩

theorem Moves.receivedDNET {written : Option (ToRti K)} (hm : Moves F i f f' written) (tag : Tag) :
    Moves F i f { f' with receivedAnyDNET := true, lastDNET := tag } written where
  valid := { hm.valid with }
  lastTAG := hm.lastTAG
  tardy := hm.tardy
  outbox := hm.outbox
  started := hm.started
  current := hm.current
  alive := hm.alive
  pending halive inbox y hy := hm.pending halive inbox y (hy.congr rfl rfl rfl fun heq => heq)
  skipped := hm.skipped.imp id (Or.imp id (And.imp id (And.imp
    (fun hown halive y hy => hown halive y (hy.congr rfl rfl rfl fun heq => heq)) id)))
  allowed m h := by
    have hallowed := hm.allowed m h
    cases m with
    | nextEventTag next =>
      exact ⟨hallowed.1, fun halive y hy => hallowed.2 halive y (hy.congr rfl rfl rfl fun heq => heq)⟩
    | latestTagConfirmed completed =>
      obtain ⟨hstarted, heq, hown⟩ := hallowed
      exact ⟨hstarted, heq, fun y hy => hown y (hy.congr rfl rfl rfl fun heq => heq)⟩
    | taggedMessage port t => exact hallowed
    | resign => exact hallowed

theorem receive_downstreamNextEventTag {tag : Tag} {m : ToFederate K}
    (h : Coordinated F i f node inTransit (m :: rest) backlog) :
    ∃ written, Receives (F := F) (i := i) f
      { (if lfTagCompare tag f.lastSkippedNET < 0 then f.sendNET f.lastSkippedNET else f) with
        receivedAnyDNET := true, lastDNET := tag } node inTransit (m :: rest) rest backlog written := by
  split_ifs with hskipped
  · rw [lfTagCompare_lt_zero] at hskipped
    have hannounced := h.promised.skipped.resolve_left (bot_le.trans_lt hskipped).ne'
    have hsend : Moves F i f (f.sendNET f.lastSkippedNET) (some (.nextEventTag f.lastSkippedNET)) :=
      Moves.sendNET h.valid (fun h => h) (fun h => h) hannounced
        fun halive y hy => h.promised.skipped_le halive y hy.of_own
    exact ⟨_, .of_moves h (hsend.receivedDNET tag) (by simp)⟩
  · exact ⟨none, .of_moves h ((Moves.refl h.valid).receivedDNET tag) (by simp)⟩

theorem requested_le_of_subset (hstarted : f'.executionStarted = f.executionStarted)
    (hsub : f.eventQueue ⊆ f'.eventQueue) : requested F i f' ≤ requested F i f := by
  cases h : f.executionStarted with
  | false => rw [requested_fresh h, requested_fresh (hstarted.trans h)]
  | true =>
    rw [requested_started h, requested_started (hstarted.trans h)]
    rcases getNextEventTag_cases (F := F) (i := i) f with h | h | ⟨e, he, h⟩
    · exact h ▸ le_top
    · exact h ▸ getNextEventTag_le_stopTag
    · exact h ▸ getNextEventTag_le (hsub he)

/-- A message becomes an event at its tag or later. -/
theorem receive_event {port : K} {tag tag' : Tag}
    (h : Coordinated F i f node inTransit (.taggedMessage port tag :: rest) backlog)
    (htag : tag ≤ tag') :
    Receives (F := F) (i := i) f { f with eventQueue := (some port, tag') :: f.eventQueue } node
      inTransit (.taggedMessage port tag :: rest) rest backlog none := by
  obtain ⟨hvalid, hgranted, hwritten, hpromised⟩ := h.pop
  obtain ⟨hupstream, -, hlt, -⟩ := h.granted.message port tag List.mem_cons_self
  have hrequested : requested F i { f with eventQueue := (some port, tag') :: f.eventQueue } ≤
      requested F i f := requested_le_of_subset rfl (List.subset_cons_self _ _)
  have hpending : ∀ y, Pending F i { f with eventQueue := (some port, tag') :: f.eventQueue } rest y →
      ∃ x ≤ y, Pending F i f (.taggedMessage port tag :: rest) x := by
    intro y hy
    cases hy with
    | event he =>
      rcases List.mem_cons.mp he with rfl | he
      · exact ⟨tag, htag, .message List.mem_cons_self⟩
      · exact ⟨_, le_rfl, .event he⟩
    | current hphase => exact ⟨_, le_rfl, .current hphase⟩
    | stop hstop => exact ⟨_, le_rfl, .stop hstop⟩
    | start hfresh hreacts => exact ⟨_, le_rfl, .start hfresh hreacts⟩
    | message hmem => exact ⟨_, le_rfl, .message (List.mem_cons_of_mem _ hmem)⟩
  refine {
    coordinated := {
      valid := { hvalid with
        atStart := fun hstart hfresh => List.mem_cons_of_mem _ (hvalid.atStart hstart hfresh)
        later := fun hstarted e he => ?_
        awaiting := fun t ht => (hvalid.awaiting t ht).imp id hrequested.trans
        granted_le := fun hupstream hphase => hrequested.trans (hvalid.granted_le hupstream hphase) }
      granted := { hgranted with }
      written := by simpa using { hwritten with }
      promised := {
        skipped := hpromised.skipped
        skipped_granted := hpromised.skipped_granted
        skipped_le := fun halive y hy => ?_
        promise := fun halive y hy => ?_ } }
    outbox := (List.append_nil _).symm
    tardy := rfl
    alive := fun halive => halive
    pending := fun _ => hpending
    written := by simp }
  · rcases List.mem_cons.mp he with rfl | he
    · exact ((hvalid.started_le hupstream hstarted).trans_lt hlt).trans_le htag
    · exact hvalid.later hstarted e he
  · obtain ⟨x, hx, hpending⟩ := hpending y hy
    exact (h.promised.skipped_le halive x hpending).trans hx
  · obtain ⟨x, hx, hpending⟩ := hpending y hy
    simpa using (h.promised.promise halive x hpending).mono hx

theorem le_next_microstep {tag : Tag} (h : F.InRange tag) :
    tag ≤ { tag with microstep := tag.microstep + 1 } := by
  have hm := h.microstep
  refine .inr ⟨rfl, ?_⟩
  rw [UInt32.le_iff_toNat_le, UInt32.toNat_add, UInt32.toNat_one, Nat.mod_eq_of_lt (by omega)]
  exact Nat.le_succ _

theorem receive_scheduleAtTag [DecidableEq K] {port : K} {tag : Tag}
    (h : Coordinated F i f node inTransit (.taggedMessage port tag :: rest) backlog) :
    Receives (F := F) (i := i) f (scheduleAtTag F i f port tag) node inTransit
      (.taggedMessage port tag :: rest) rest backlog none := by
  have hrange := (h.granted.message port tag List.mem_cons_self).2.1
  unfold scheduleAtTag
  simp only
  split_ifs
  · exact .of_moves h (.refl h.valid) (by simp)
  · exact .of_moves h (.refl h.valid) (by simp)
  · exact receive_event h (le_next_microstep hrange)
  · exact receive_event h le_rfl

/-- Whatever a federate reads, it stays coordinated, and what it reads is in its future. -/
theorem receive_spec [DecidableEq K] (h : Coordinated F i f node inTransit (m :: rest) backlog) :
    ∃ written, Receives (F := F) (i := i) f (receive F i f m) node inTransit (m :: rest) rest backlog
      written := by
  cases m with
  | tagAdvanceGrant tag =>
    unfold receive
    simp only [ge_iff_le, zero_le_lfTagCompare]
    split_ifs with hle
    · exact ⟨none, receive_tagAdvanceGrant h hle⟩
    · exact ⟨none, .of_moves h (.refl h.valid) (by simp)⟩
  | provisionalTagAdvanceGrant tag => exact ⟨none, .of_moves h (.refl h.valid) (by simp)⟩
  | downstreamNextEventTag tag => exact receive_downstreamNextEventTag h
  | taggedMessage port tag =>
    obtain ⟨hupstream, -, hlt, -⟩ := h.granted.message port tag List.mem_cons_self
    unfold receive
    simp only [ge_iff_le, zero_le_lfTagCompare, lfTagCompare_le_zero]
    split_ifs with htardy hstop
    · exact absurd ((h.valid.started_le hupstream htardy.1).trans_lt hlt) (not_lt.mpr htardy.2)
    · refine ⟨none, .of_moves h (.phase { h.valid with
        fresh := fun hfresh => absurd (hstop.1.symm.trans hfresh) (by simp)
        awaiting := by simp
        granted_le := by simp
        atStop := by simp } False.elim (by simp)) (by simp)⟩
    · exact ⟨none, receive_scheduleAtTag h⟩

end Receive

end LFBenchmarks.Federated
