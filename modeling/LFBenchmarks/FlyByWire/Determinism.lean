import LFBenchmarks.FlyByWire.System

namespace LFBenchmarks.FlyByWire

/-- The parts of the system a reaction may share with another one. -/
inductive Cell where
  | pfc (i : Fin 3)
  | wes
  | fman
  | stop
  | fault (i : Fin 3)
  | speedOut (i : Fin 3)
  | transOut (i : Fin 3)
  | status
  deriving DecidableEq, Fintype

/-- Cells a reaction reads or writes. A port it may leave unset counts as read. -/
def touches : Reaction → List Cell
  | .pfcStartup i => [.pfc i]
  | .pfcFaultIn i => [.pfc i, .fault i]
  | .pfcTimer i => [.pfc i, .speedOut i]
  | .pfcShutdown i => [.pfc i]
  | .transSpeed i => [.speedOut i, .transOut i]
  | .wesSpeed i => [.transOut i, .wes]
  | .wesVote => [.wes, .status]
  | .fmanStartup => [.fman]
  | .fmanTimer => .fman :: (List.finRange 3).map .fault
  | .pfcdsStatus => [.status, .stop]

def writes : Reaction → List Cell
  | .pfcStartup i => [.pfc i]
  | .pfcFaultIn i => [.pfc i]
  | .pfcTimer i => [.pfc i, .speedOut i]
  | .pfcShutdown i => [.pfc i]
  | .transSpeed i => [.transOut i]
  | .wesSpeed _ => [.wes]
  | .wesVote => [.wes, .status]
  | .fmanStartup => [.fman]
  | .fmanTimer => .fman :: (List.finRange 3).map .fault
  | .pfcdsStatus => [.stop]

/-- Reactions the precedence leaves unordered share no cell that one of them writes. -/
theorem writes_disjoint_touches : ∀ a b : Reaction, a ≠ b → precedes a b = false →
    precedes b a = false → ∀ c ∈ writes a, c ∉ touches b := by decide +kernel

def triggerPort : Reaction → List Cell
  | .pfcFaultIn i => [.fault i]
  | .transSpeed i => [.speedOut i]
  | .wesSpeed i => [.transOut i]
  | .pfcdsStatus => [.status]
  | _ => []

theorem writes_disjoint_triggerPort : ∀ a r : Reaction, precedes a r = false →
    ∀ c ∈ triggerPort r, c ∉ writes a := by decide +kernel

theorem writes_subset_touches : ∀ r : Reaction, ∀ c ∈ writes r, c ∈ touches r := by decide

theorem reactionOrder_respects :
    reactionOrder.Pairwise (fun a b => ¬precedes b a = true) := by decide +kernel

theorem reactionOrder_nodup : reactionOrder.Nodup := by decide

theorem mem_reactionOrder : ∀ r : Reaction, r ∈ reactionOrder := by decide

section Footprint

variable {V : Type*} [Field V] [LinearOrder V] [FloorRing V]

def Cell.agree (c : Cell) (s t : Sys V) : Prop :=
  match c with
  | .pfc i => s.pfc i = t.pfc i
  | .wes => s.wes = t.wes
  | .fman => s.fman = t.fman
  | .stop => s.stopRequested = t.stopRequested
  | .fault i => s.fault i = t.fault i
  | .speedOut i => s.speedOut i = t.speedOut i
  | .transOut i => s.transOut i = t.transOut i
  | .status => s.status = t.status

omit [Field V] [LinearOrder V] [FloorRing V] in
theorem Cell.agree_refl (c : Cell) (s : Sys V) : c.agree s s := by
  cases c <;> rfl

omit [Field V] [LinearOrder V] [FloorRing V] in
theorem Cell.agree_ext (s t : Sys V) (h : ∀ c : Cell, c.agree s t) : s = t := by
  cases s
  cases t
  congr
  · funext i; exact h (.pfc i)
  · exact h .wes
  · exact h .fman
  · exact h .stop
  · funext i; exact h (.fault i)
  · funext i; exact h (.speedOut i)
  · funext i; exact h (.transOut i)
  · exact h .status

theorem react_frame (E : Env V) (r : Reaction) (c : Cell) (s : Sys V) (hc : c ∉ writes r) :
    c.agree (react E r s) s := by
  cases r with
  | pfcFaultIn i =>
    simp only [react]
    split
    · cases c <;> simp_all [writes, Cell.agree]
    · exact c.agree_refl s
  | wesSpeed i =>
    simp only [react]
    split
    · cases c <;> simp_all [writes, Cell.agree]
    · exact c.agree_refl s
  | pfcdsStatus =>
    simp only [react]
    split
    · cases c <;> simp_all [writes, Cell.agree]
    · exact c.agree_refl s
  | _ => cases c <;> simp_all [writes, react, Cell.agree]

theorem react_depends (E : Env V) (r : Reaction) (s t : Sys V)
    (h : ∀ c ∈ touches r, c.agree s t) : ∀ c ∈ touches r, c.agree (react E r s) (react E r t) := by
  cases r with
  | pfcStartup i | pfcShutdown i =>
    have hpfc : s.pfc i = t.pfc i := h (.pfc i) (by simp [touches])
    simp [touches, react, Cell.agree, hpfc]
  | pfcFaultIn i =>
    have hpfc : s.pfc i = t.pfc i := h (.pfc i) (by simp [touches])
    have hfault : s.fault i = t.fault i := h (.fault i) (by simp [touches])
    cases hmsg : t.fault i with
    | none => simp [touches, react, Cell.agree, hpfc, hfault, hmsg]
    | some msg => simp [touches, react, Cell.agree, hpfc, hfault, hmsg]
  | pfcTimer i =>
    have hpfc : s.pfc i = t.pfc i := h (.pfc i) (by simp [touches])
    have hspeed : s.speedOut i = t.speedOut i := h (.speedOut i) (by simp [touches])
    simp [touches, react, Cell.agree, hpfc, hspeed]
  | transSpeed i =>
    have hspeed : s.speedOut i = t.speedOut i := h (.speedOut i) (by simp [touches])
    simp [touches, react, Cell.agree, hspeed]
  | wesSpeed i =>
    have hwes : s.wes = t.wes := h .wes (by simp [touches])
    have htrans : s.transOut i = t.transOut i := h (.transOut i) (by simp [touches])
    cases hmsg : t.transOut i with
    | none => simp [touches, react, Cell.agree, hwes, htrans, hmsg]
    | some msg => simp [touches, react, Cell.agree, hwes, htrans, hmsg]
  | wesVote =>
    have hwes : s.wes = t.wes := h .wes (by simp [touches])
    have hstatus : s.status = t.status := h .status (by simp [touches])
    simp [touches, react, Cell.agree, hwes, hstatus]
  | fmanStartup => simp [touches, react, Cell.agree]
  | fmanTimer =>
    have hfman : s.fman = t.fman := h .fman (by simp [touches])
    have hfault (i : Fin 3) : s.fault i = t.fault i := h (.fault i) (by simp [touches])
    simp [touches, react, Cell.agree, hfman, hfault]
  | pfcdsStatus =>
    have hstop : s.stopRequested = t.stopRequested := h .stop (by simp [touches])
    have hstatus : s.status = t.status := h .status (by simp [touches])
    cases hmsg : t.status with
    | none => simp [touches, react, Cell.agree, hstop, hstatus, hmsg]
    | some st => simp [touches, react, Cell.agree, hstop, hstatus, hmsg]

omit [Field V] [LinearOrder V] [FloorRing V] in
theorem triggered_depends (ev : Events) (r : Reaction) (s t : Sys V)
    (h : ∀ c ∈ triggerPort r, c.agree s t) : triggered ev r s = triggered ev r t := by
  cases r <;> simp_all [triggerPort, triggered, Cell.agree]

theorem triggerPort_subset_touches : ∀ r : Reaction, ∀ c ∈ triggerPort r, c ∈ touches r := by
  decide

def systemFootprint (E : Env V) (ev : Events) : Footprint (reactions E ev) Cell where
  agree := Cell.agree
  touches r := {c | c ∈ touches r}
  writes r := {c | c ∈ writes r}
  symm c s t h := by cases c <;> exact h.symm
  trans c s t u h k := by cases c <;> exact h.trans k
  ext := Cell.agree_ext
  writes_subset := writes_subset_touches
  frame r c s hc := by
    unfold ReactionSystem.fire
    split_ifs
    · exact react_frame E r c s hc
    · exact c.agree_refl s
  depends r s t h c hc := by
    have ht : (reactions E ev).triggered r s = (reactions E ev).triggered r t :=
      triggered_depends ev r s t (fun c hc => h c (triggerPort_subset_touches r c hc))
    unfold ReactionSystem.fire
    rw [ht]
    split_ifs
    · exact react_depends E r s t h c hc
    · exact h c hc

/-- Within a tag no triggered reaction makes a port absent again. -/
theorem present_persists (E : Env V) (ev : Events) (a : Reaction) (s : Sys V)
    (ha : triggered ev a s = true) :
    (∀ i, (s.fault i).isSome = true → ((react E a s).fault i).isSome = true) ∧
    (∀ i, (s.speedOut i).isSome = true → ((react E a s).speedOut i).isSome = true) ∧
    (∀ i, (s.transOut i).isSome = true → ((react E a s).transOut i).isSome = true) ∧
    (s.status.isSome = true → (react E a s).status.isSome = true) := by
  cases a with
  | pfcStartup j | pfcShutdown j | fmanStartup =>
    exact ⟨fun _ h => h, fun _ h => h, fun _ h => h, fun h => h⟩
  | pfcFaultIn j =>
    simp only [react]
    split <;> exact ⟨fun _ h => h, fun _ h => h, fun _ h => h, fun h => h⟩
  | pfcTimer j =>
    refine ⟨fun _ h => h, fun i h => ?_, fun _ h => h, fun h => h⟩
    by_cases hi : i = j
    · subst hi
      simp [react, h]
    · simpa [react, hi] using h
  | transSpeed j =>
    refine ⟨fun _ h => h, fun _ h => h, fun i h => ?_, fun h => h⟩
    by_cases hi : i = j
    · subst hi
      simpa [react, triggered] using ha
    · simpa [react, hi] using h
  | wesSpeed j =>
    simp only [react]
    split <;> exact ⟨fun _ h => h, fun _ h => h, fun _ h => h, fun h => h⟩
  | wesVote =>
    refine ⟨fun _ h => h, fun _ h => h, fun _ h => h, fun h => ?_⟩
    simp [react, h]
  | fmanTimer =>
    refine ⟨fun i h => ?_, fun _ h => h, fun _ h => h, fun h => h⟩
    simp [react, h]
  | pfcdsStatus =>
    simp only [react]
    split <;> exact ⟨fun _ h => h, fun _ h => h, fun _ h => h, fun h => h⟩

theorem triggered_persists (E : Env V) (ev : Events) (a r : Reaction) (s : Sys V)
    (h : triggered ev r s = true) : triggered ev r ((reactions E ev).fire a s) = true := by
  unfold ReactionSystem.fire
  split_ifs with ha
  · obtain ⟨hfault, hspeed, htrans, hstatus⟩ := present_persists E ev a s ha
    cases r with
    | pfcFaultIn i => exact hfault i h
    | transSpeed i => exact hspeed i h
    | wesSpeed i => exact htrans i h
    | pfcdsStatus => exact hstatus h
    | pfcStartup | pfcTimer | pfcShutdown | wesVote | fmanStartup | fmanTimer => exact h
  · exact h

theorem triggered_stable (E : Env V) (ev : Events) (a r : Reaction) (s : Sys V)
    (h : precedes a r = false) :
    triggered ev r ((reactions E ev).fire a s) = triggered ev r s :=
  triggered_depends ev r _ s (fun c hc =>
    (systemFootprint E ev).frame a c s (writes_disjoint_triggerPort a r h c hc))

/-- The main reactor satisfies the rules of deterministic execution. -/
theorem reactions_lawful (E : Env V) (ev : Events) :
    (reactions E ev).Lawful reactionOrder where
  commute a b hne hab hba s := by
    have hab' : precedes a b = false := Bool.eq_false_iff.mpr hab
    have hba' : precedes b a = false := Bool.eq_false_iff.mpr hba
    apply (systemFootprint E ev).fire_comm
    · exact Set.disjoint_left.mpr (writes_disjoint_touches a b hne hab' hba')
    · exact Set.disjoint_left.mpr (writes_disjoint_touches b a (Ne.symm hne) hba' hab')
  persists a r s h := triggered_persists E ev a r s h
  stable a r s h := triggered_stable E ev a r s (Bool.eq_false_iff.mpr h)
  nodup := reactionOrder_nodup
  respects := reactionOrder_respects
  all := mem_reactionOrder

end Footprint

section Tags

variable {V : Type*}

/-- What `nextTag` can answer, with the guard it has passed. -/
inductive Follows (E : Env V) (s : Sys V) : Tag → Tag → Prop where
  | vote {n : Nat} (hlt : n < E.timeout) : Follows E s (.tick n) (.vote n)
  | stop {n : Nat} (hstop : s.stopRequested = true) : Follows E s (.vote n) .shutdown
  | tick {n : Nat} (hgo : s.stopRequested = false) : Follows E s (.vote n) (.tick (n + 1))

theorem follows_of_nextTag (E : Env V) (tag tag' : Tag) (s : Sys V)
    (hnext : nextTag E tag s = some tag') : Follows E s tag tag' := by
  cases tag with
  | tick n =>
    simp only [nextTag] at hnext
    split_ifs at hnext with hlt
    cases hnext
    exact .vote hlt
  | vote n =>
    simp only [nextTag] at hnext
    split_ifs at hnext with hstop
    · cases hnext
      exact .stop hstop
    · cases hnext
      exact .tick (Bool.eq_false_iff.mpr hstop)
  | shutdown => cases hnext

end Tags

section Determinism

variable {V : Type*} [Field V] [LinearOrder V] [FloorRing V]

/-- One tag under the fixed schedule `reactionOrder`. -/
def runTag (E : Env V) (tag : Tag) (s : Sys V) : Sys V :=
  (reactions E (E.events tag)).fireAll reactionOrder s.clearPorts

/-- Every admissible schedule of a tag has the outcome of the fixed one. -/
theorem tagStep_iff (E : Env V) (tag : Tag) (s s' : Sys V) :
    TagStep E tag s s' ↔ s' = runTag E tag s := by
  have hlaw := reactions_lawful E (E.events tag)
  constructor
  · intro hsome
    obtain ⟨l, hl, rfl⟩ := hsome
    exact hlaw.admissible_exec _ l hl
  · rintro rfl
    obtain ⟨l, hl⟩ := hlaw.exists_admissible s.clearPorts
    exact ⟨l, hl, (hlaw.admissible_exec _ l hl).symm⟩

theorem step_unique (E : Env V) : Relator.RightUnique (Step E) := by
  rintro c _ _ ⟨h₁, k₁⟩ ⟨h₂, k₂⟩
  rw [tagStep_iff] at h₁ h₂
  subst h₁ h₂
  rw [k₁] at k₂
  cases k₂
  rfl

theorem finishes_unique (E : Env V) (log₁ log₂ : List Status) (h₁ : Finishes E log₁)
    (h₂ : Finishes E log₂) : log₁ = log₂ := by
  obtain ⟨c₁, s₁, hr₁, ht₁, hn₁, rfl⟩ := h₁
  obtain ⟨c₂, s₂, hr₂, ht₂, hn₂, rfl⟩ := h₂
  rw [tagStep_iff] at ht₁ ht₂
  have stuck (c : Config V) (s : Sys V) (ht : s = runTag E c.tag c.sys)
      (hn : nextTag E c.tag s = none) : ∀ d, ¬Step E c d := by
    rintro _ ⟨h, k⟩
    rw [tagStep_iff, ← ht] at h
    rw [h, hn] at k
    cases k
  have hc : c₁ = c₂ := by
    rcases hr₁.total_of_right_unique (step_unique E) hr₂ with h | h
    · rcases h.cases_head with h | ⟨d, hd, -⟩
      · exact h
      · exact absurd hd (stuck c₁ s₁ ht₁ hn₁ d)
    · rcases h.cases_head with h | ⟨d, hd, -⟩
      · exact h.symm
      · exact absurd hd (stuck c₂ s₂ ht₂ hn₂ d)
  subst hc
  rw [ht₁, ht₂]

theorem Reaches.vote {E : Env V} {n : Nat} {s : Sys V} (h : Reaches E (.tick n) s)
    (hn : n < E.timeout) : Reaches E (.vote n) (runTag E (.tick n) s) := by
  obtain ⟨log, hr⟩ := h
  refine ⟨_, hr.tail (Step.tag ((tagStep_iff E _ _ _).mpr rfl) ?_)⟩
  simp only [nextTag, if_pos hn]

theorem Reaches.tick {E : Env V} {n : Nat} {s : Sys V} (h : Reaches E (.vote n) s)
    (hgo : (runTag E (.vote n) s).stopRequested = false) :
    Reaches E (.tick (n + 1)) (runTag E (.vote n) s) := by
  obtain ⟨log, hr⟩ := h
  refine ⟨_, hr.tail (Step.tag ((tagStep_iff E _ _ _).mpr rfl) ?_)⟩
  simp only [nextTag, hgo, Bool.false_eq_true, if_false]

theorem Reaches.stop {E : Env V} {n : Nat} {s : Sys V} (h : Reaches E (.vote n) s)
    (hstop : (runTag E (.vote n) s).stopRequested = true) :
    Reaches E .shutdown (runTag E (.vote n) s) := by
  obtain ⟨log, hr⟩ := h
  refine ⟨_, hr.tail (Step.tag ((tagStep_iff E _ _ _).mpr rfl) ?_)⟩
  simp only [nextTag, hstop, if_true]

theorem reaches_first_tick (E : Env V) : Reaches E (.tick 0) (Sys.initial : Sys V) :=
  ⟨[], .refl⟩

/-- What holds at the first tick and is carried on by every tag holds wherever a run gets. -/
theorem Reaches.induction {E : Env V} {P : Tag → Sys V → Prop} (hinit : P (.tick 0) .initial)
    (hstep : ∀ tag tag' s, P tag s → Follows E (runTag E tag s) tag tag' →
      P tag' (runTag E tag s))
    {tag : Tag} {s : Sys V} (h : Reaches E tag s) : P tag s := by
  have hrun (c : Config V) (hc : Run E c) : P c.tag c.sys := by
    induction hc with
    | refl => exact hinit
    | tail _ hnext ih =>
      obtain ⟨htag, hnext⟩ := hnext
      rw [tagStep_iff] at htag
      subst htag
      exact hstep _ _ _ ih (follows_of_nextTag E _ _ _ hnext)
  obtain ⟨log, hc⟩ := h
  exact hrun _ hc

theorem Reaches.last {E : Env V} {tag : Tag} {s : Sys V} (h : Reaches E tag s)
    (hne : tag ≠ .tick 0) : ∃ before s₀, Reaches E before s₀ ∧ s = runTag E before s₀ ∧
      Follows E s before tag := by
  obtain ⟨log, hr⟩ := h
  rcases hr.cases_tail with hinit | ⟨c, hc, hstep⟩
  · exact absurd (congrArg Config.tag hinit) hne
  · obtain ⟨htag, hnext⟩ := hstep
    exact ⟨c.tag, c.sys, ⟨c.log, hc⟩, (tagStep_iff E _ _ _).mp htag,
      follows_of_nextTag E _ _ _ hnext⟩

theorem Reaches.of_vote {E : Env V} {n : Nat} {s : Sys V} (h : Reaches E (.vote n) s) :
    ∃ s₀, Reaches E (.tick n) s₀ ∧ s = runTag E (.tick n) s₀ := by
  obtain ⟨before, s₀, hr, hs, hnext⟩ := h.last (by simp)
  cases hnext with
  | vote => exact ⟨s₀, hr, hs⟩

theorem Reaches.of_tick_succ {E : Env V} {n : Nat} {s : Sys V}
    (h : Reaches E (.tick (n + 1)) s) :
    ∃ s₀, Reaches E (.vote n) s₀ ∧ s = runTag E (.vote n) s₀ ∧ s.stopRequested = false := by
  obtain ⟨before, s₀, hr, hs, hnext⟩ := h.last (by simp)
  cases hnext with
  | tick hgo => exact ⟨s₀, hr, hs, hgo⟩

/-- A run that gets to a later tick or vote went through every vote before it. -/
theorem Reaches.earlier {E : Env V} {n k : Nat} (hnk : n < k) {s : Sys V}
    (h : Reaches E (.tick k) s ∨ Reaches E (.vote k) s) :
    ∃ s₀, Reaches E (.vote n) s₀ ∧ (runTag E (.vote n) s₀).stopRequested = false := by
  induction k, hnk using Nat.le_induction generalizing s with
  | base =>
    have htick : ∃ t, Reaches E (.tick (n + 1)) t := by
      rcases h with h | h
      · exact ⟨s, h⟩
      · obtain ⟨t, ht, -⟩ := h.of_vote
        exact ⟨t, ht⟩
    obtain ⟨t, ht⟩ := htick
    obtain ⟨s₀, hr, hs, hgo⟩ := ht.of_tick_succ
    exact ⟨s₀, hr, hs ▸ hgo⟩
  | succ k hk ih =>
    rcases h with h | h
    · obtain ⟨t, ht, -⟩ := h.of_tick_succ
      exact ih (.inr ht)
    · obtain ⟨t, ht, -⟩ := h.of_vote
      obtain ⟨u, hu, -⟩ := ht.of_tick_succ
      exact ih (.inr hu)

theorem exists_finish (E : Env V) : ∃ log, Finishes E log := by
  have ending (tag : Tag) (s : Sys V) (h : Reaches E tag s)
      (hnone : nextTag E tag (runTag E tag s) = none) : ∃ log, Finishes E log := by
    obtain ⟨log, hr⟩ := h
    exact ⟨_, _, _, hr, (tagStep_iff E _ _ _).mpr rfl, hnone, rfl⟩
  have from_tick (k : Nat) : ∀ n s, n + k = E.timeout → Reaches E (.tick n) s →
      ∃ log, Finishes E log := by
    induction k with
    | zero =>
      intro n s hn h
      exact ending _ s h (by simp only [nextTag, show ¬n < E.timeout by omega, if_false])
    | succ k ih =>
      intro n s hn h
      have hv := h.vote (by omega)
      cases hstop : (runTag E (.vote n) (runTag E (.tick n) s)).stopRequested with
      | true => exact ending _ _ (hv.stop hstop) rfl
      | false => exact ih (n + 1) _ (by omega) (hv.tick hstop)
  exact from_tick E.timeout 0 .initial (by omega) (reaches_first_tick E)

/-- Whatever order the scheduler picks, a tag has one outcome, and a run one sequence of
statuses. -/
theorem schedule_independent (E : Env V) :
    (∀ (tag : Tag) (s : Sys V) (l₁ l₂ : List Reaction),
      (reactions E (E.events tag)).Admissible s l₁ →
      (reactions E (E.events tag)).Admissible s l₂ →
        (reactions E (E.events tag)).exec l₁ s = (reactions E (E.events tag)).exec l₂ s) ∧
    ∃! log, Finishes E log := by
  refine ⟨fun tag s l₁ l₂ => (reactions_lawful E (E.events tag)).admissible_unique s l₁ l₂, ?_⟩
  obtain ⟨log, h⟩ := exists_finish E
  exact ⟨log, h, fun other ho => finishes_unique E other log ho h⟩

/-- State at the start of tick `n`, as long as no vote requests the stop. -/
def onward (E : Env V) : Nat → Sys V
  | 0 => .initial
  | n + 1 => runTag E (.vote n) (runTag E (.tick n) (onward E n))

theorem reaches_onward (E : Env V) (n : Nat) (hn : n ≤ E.timeout)
    (hgo : ∀ k < n, (onward E (k + 1)).stopRequested = false) :
    Reaches E (.tick n) (onward E n) := by
  induction n with
  | zero => exact reaches_first_tick E
  | succ n ih =>
    have hprev := ih (by omega) (fun k hk => hgo k (by omega))
    exact (hprev.vote (by omega)).tick (hgo n (by omega))

/-- The tick of the bias, PFC by PFC upwards or downwards. -/
theorem schedule_independent_biased :
    let M := reactions biasedEnv (biasedEnv.events (.tick 2))
    let s := (onward biasedEnv 2).clearPorts
    let up := [.fmanTimer, .pfcFaultIn 1, .pfcTimer 0, .pfcTimer 1, .pfcTimer 2,
      .transSpeed 0, .transSpeed 1, .transSpeed 2, .wesSpeed 0, .wesSpeed 1, .wesSpeed 2]
    let down := [.pfcTimer 2, .pfcTimer 0, .fmanTimer, .transSpeed 0, .wesSpeed 0, .pfcFaultIn 1,
      .pfcTimer 1, .transSpeed 1, .transSpeed 2, .wesSpeed 1, .wesSpeed 2]
    M.exec up s = M.exec down s := by
  intro M s up down
  have hup : M.Admissible s up := by decide +kernel
  have hdown : M.Admissible s down := by decide +kernel
  exact (schedule_independent biasedEnv).1 (.tick 2) s up down hup hdown

end Determinism

end LFBenchmarks.FlyByWire
