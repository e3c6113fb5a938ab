import LFBenchmarks.Federated.Rti

namespace LFBenchmarks.Federated

open ReactorC Relax Superdense

section Matrix

attribute [local irreducible] lfTagAdd lfDelayTag

variable {n : Nat} (N : Topology n) {i j : Fin n}

theorem exists_minDelay (j : Fin n) :
    ∃ t, updateMinDelays N j = some t ∧ ∀ i, N.minDelay i j = t.pathDelays i := by
  obtain ⟨t, h⟩ := exists_updateMinDelays N j
  refine ⟨t, h, fun i => ?_⟩
  rw [Topology.minDelay, h, Option.getD_some]

/-- An entry of the matrix is the delay of a path without detours. -/
theorem minDelay_eq (i j : Fin n) : N.minDelay i j = foreverTag ∨
    ∃ c cs, N.Path i j (c :: cs) ∧ (c :: cs).length ≤ n ∧ N.minDelay i j = pathDelay (c :: cs) := by
  obtain ⟨t, h, hminDelay⟩ := exists_minDelay N j
  have hlabel := Search.label_eq_delay (label_record N j) (fun _ => rfl) (visit_of_updateMinDelays h) i
  rw [Fintype.card_fin] at hlabel
  rw [hminDelay]
  exact hlabel

theorem floor_minDelay_le {c : Int64} {cs : List Int64} (hpath : N.Path i j (c :: cs)) :
    (N.minDelay i j).floor ≤ walkDelay ((c :: cs).map Int64.toInt) := by
  obtain ⟨t, h, hminDelay⟩ := exists_minDelay N j
  rw [hminDelay]
  exact floor_pathDelays_le h hpath

theorem zeroTag_le_minDelay (i j : Fin n) : zeroTag ≤ N.minDelay i j := by
  rcases minDelay_eq N i j with h | ⟨c, cs, -, -, h⟩
  · exact h ▸ le_top
  · exact h ▸ zeroTag_le_pathDelay _

theorem time_minDelay (i j : Fin n) :
    (N.minDelay i j).time = forever → N.minDelay i j = foreverTag := by
  rcases minDelay_eq N i j with h | ⟨c, cs, -, -, h⟩
  · exact fun _ => h
  · exact h ▸ time_pathDelay _

theorem microstep_minDelay (i j : Fin n) :
    N.minDelay i j = foreverTag ∨ (N.minDelay i j).microstep.toNat < 2 ^ 16 := by
  rcases minDelay_eq N i j with h | ⟨c, cs, -, hlength, h⟩
  · exact .inl h
  · rw [h]
    exact (microstep_pathDelay _).imp id fun hm => (hm.trans hlength).trans_lt N.size

/-- A delay on every cycle: none is a zero-delay cycle. -/
theorem isInZeroDelayCycle_eq_false (h : ∀ c cs, N.Path j j (c :: cs) → ∃ d ∈ c :: cs, 0 ≤ d) :
    N.isInZeroDelayCycle j = false := by
  obtain ⟨t, ht⟩ := exists_updateMinDelays N j
  rw [Topology.isInZeroDelayCycle, ht, Option.getD_some, Bool.eq_false_iff, ne_eq,
    isInZeroDelayCycle_iff ht]
  rintro ⟨c, cs, hpath, hneg⟩
  obtain ⟨d, hd, hle⟩ := h c cs hpath
  exact absurd (hneg d hd) (Int64.not_lt.mpr hle)

end Matrix

variable {n : Nat} {K : Type} (W : Network n K)

section Heard

/-- What the infrastructure takes for the next event of a node. -/
def heard (R : Rti n K) (i : Fin n) : Tag :=
  if (R.node i).nextEvent = neverTag then W.startTag else (R.node i).nextEvent

/-- `R'` is `R` with some nodes not heard from taken to have an event at the start. -/
structure Heard (R R' : Rti n K) : Prop where
  sent : R'.sent = R.sent
  inTransitMessageTags : R'.inTransitMessageTags = R.inTransitMessageTags
  node : ∀ i, R'.node i = R.node i ∨
    (R.node i).nextEvent = neverTag ∧ R'.node i = { R.node i with nextEvent := W.startTag }

variable {W}

theorem startTag_ne_neverTag : W.startTag ≠ neverTag := by
  intro h
  have htime : W.startTime = never := congrArg Tag.time h
  have hnonneg := W.startTime_nonneg
  rw [htime] at hnonneg
  exact absurd hnonneg (by decide)

theorem Heard.refl (R : Rti n K) : Heard W R R := ⟨rfl, rfl, fun _ => .inl rfl⟩

theorem Heard.heard_eq {R R' : Rti n K} (h : Heard W R R') (i : Fin n) : heard W R' i = heard W R i := by
  unfold heard
  rcases h.node i with heq | ⟨hnever, heq⟩
  · rw [heq]
  · rw [heq, if_pos hnever, if_neg startTag_ne_neverTag]

theorem Heard.trans {R R' R'' : Rti n K} (h : Heard W R R') (h' : Heard W R' R'') :
    Heard W R R'' := by
  refine ⟨h'.sent.trans h.sent, h'.inTransitMessageTags.trans h.inTransitMessageTags, fun i => ?_⟩
  rcases h.node i with heq | ⟨hnever, heq⟩
  · rw [← heq]
    exact h'.node i
  · rcases h'.node i with heq' | ⟨hnever', -⟩
    · exact .inr ⟨hnever, heq'.trans heq⟩
    · rw [heq] at hnever'
      exact absurd hnever' startTag_ne_neverTag

@[simp] theorem node_setNode (R : Rti n K) (i j : Fin n) (node : SchedulingNode) :
    (R.setNode i node).node j = if j = i then node else R.node j := by
  simp [Rti.setNode, Function.update_apply]

theorem heard_hear (R : Rti n K) (i : Fin n) : Heard W R (R.hear W i) := by
  unfold Rti.hear
  split_ifs with hnever
  · rw [lfTagCompare_eq_zero] at hnever
    refine ⟨rfl, rfl, fun j => ?_⟩
    rcases eq_or_ne j i with rfl | hj
    · exact .inr ⟨hnever, by simp⟩
    · exact .inl (by simp [hj])
  · exact .refl R

theorem nextEvent_hear (R : Rti n K) (i : Fin n) :
    ((R.hear W i).node i).nextEvent = heard W R i := by
  unfold Rti.hear heard
  simp only [lfTagCompare_eq_zero]
  split_ifs with hnever
  · simp
  · rfl

end Heard

section Earliest

attribute [local irreducible] lfTagAdd

theorem earliestFrom_snd (e : Fin n) (acc : Tag × Rti n K) (i : Fin n) :
    Heard W acc.2 (earliestFrom W e acc i).2 := by
  unfold earliestFrom
  split_ifs
  · exact heard_hear acc.2 i
  · exact .refl acc.2

theorem earliestFrom_fst (e : Fin n) (acc : Tag × Rti n K) (i : Fin n) :
    (earliestFrom W e acc i).1 = if W.minDelay i e = foreverTag then acc.1
      else min acc.1 (lfTagAdd (heard W acc.2 i) (W.minDelay i e)) := by
  unfold earliestFrom
  simp only [ne_eq, lfTagCompare_eq_zero, nextEvent_hear, lfTagCompare_lt_zero]
  by_cases hpath : W.minDelay i e = foreverTag
  · simp only [hpath, not_true, if_false, if_true]
  · simp only [hpath, not_false_eq_true, if_true, if_false, min_comm acc.1, min_def_lt]

/-- The loop over the nodes: the least of where it starts and what each node upstream can cause. -/
theorem foldl_earliestFrom (e : Fin n) (l : List (Fin n)) (acc : Tag × Rti n K) :
    Heard W acc.2 (l.foldl (earliestFrom W e) acc).2 ∧
      IsLeast (insert acc.1 {a | ∃ i ∈ l, W.minDelay i e ≠ foreverTag ∧
        a = lfTagAdd (heard W acc.2 i) (W.minDelay i e)}) (l.foldl (earliestFrom W e) acc).1 := by
  induction l generalizing acc with
  | nil => exact ⟨.refl acc.2, .inl rfl, by simp [lowerBounds]⟩
  | cons i l ih =>
    rw [List.foldl_cons]
    have hstep := earliestFrom_snd W e acc i
    obtain ⟨hheard, hmem, hle⟩ := ih (earliestFrom W e acc i)
    simp only [hstep.heard_eq] at hmem hle
    rw [earliestFrom_fst] at hmem hle
    refine ⟨hstep.trans hheard, ?_, ?_⟩
    · rcases hmem with h | ⟨j, hj, hpath, h⟩
      · split_ifs at h with hpath
        · exact .inl h
        · rcases min_choice acc.1 (lfTagAdd (heard W acc.2 i) (W.minDelay i e)) with hmin | hmin
          · exact .inl (h.trans hmin)
          · exact .inr ⟨i, List.mem_cons_self, hpath, h.trans hmin⟩
      · exact .inr ⟨j, List.mem_cons_of_mem _ hj, hpath, h⟩
    · have hfirst := hle (.inl rfl)
      rintro a (rfl | ⟨j, hj, hpath, rfl⟩)
      · refine hfirst.trans ?_
        split_ifs
        · exact le_rfl
        · exact min_le_left _ _
      · rcases List.mem_cons.mp hj with rfl | hj
        · rw [if_neg hpath] at hfirst
          exact hfirst.trans (min_le_right _ _)
        · exact hle (.inr ⟨j, hj, hpath, rfl⟩)

theorem heard_earliest (R : Rti n K) (e : Fin n) :
    Heard W R (earliestFutureIncomingMessageTag W R e).2 :=
  (foldl_earliestFrom W e _ (foreverTag, R)).1

theorem isLeast_earliest (R : Rti n K) (e : Fin n) :
    IsLeast (insert foreverTag {a | ∃ i, W.minDelay i e ≠ foreverTag ∧
      a = lfTagAdd (heard W R i) (W.minDelay i e)}) (earliestFutureIncomingMessageTag W R e).1 := by
  have h := (foldl_earliestFrom W e (List.finRange n) (foreverTag, R)).2
  simp only [List.mem_finRange, true_and] at h
  rwa [earliestFutureIncomingMessageTag]

end Earliest

section Exact

attribute [local irreducible] lfTagAdd lfDelayTag

/-- A tag from the start on, below `forever` and with room for a microstep at every node. -/
structure Network.InRange (tag : Tag) : Prop where
  start : W.startTag ≤ tag
  time : tag.time ≠ forever
  microstep : tag.microstep.toNat + 2 ^ 16 + 1 < 2 ^ 32

variable {W}

theorem zeroTag_le_startTag : zeroTag ≤ W.startTag := (zeroTag_le _).mpr W.startTime_nonneg

theorem Network.InRange.zeroTag_le {tag : Tag} (h : W.InRange tag) : zeroTag ≤ tag :=
  zeroTag_le_startTag.trans h.start

theorem inRange_startTag : W.InRange W.startTag where
  start := le_rfl
  time := fun h => by
    have hlt := W.startTime_lt
    rw [show W.startTime = forever from h] at hlt
    exact absurd hlt (by decide)
  microstep := show (0 : UInt32).toNat + 2 ^ 16 + 1 < 2 ^ 32 by decide

/-- What a node announces, no event at all included. -/
def Network.Announced (W : Network n K) (tag : Tag) : Prop := tag = foreverTag ∨ W.InRange tag

theorem Network.Announced.zeroTag_le {tag : Tag} (h : W.Announced tag) : zeroTag ≤ tag := by
  rcases h with rfl | h
  · exact le_top
  · exact h.zeroTag_le

theorem Network.Announced.eq_foreverTag {tag : Tag} (h : W.Announced tag) :
    tag.time = forever → tag = foreverTag := by
  rcases h with rfl | h
  · exact fun _ => rfl
  · exact fun htime => absurd htime h.time

theorem Network.Announced.room {tag : Tag} (h : W.Announced tag) (i j : Fin n) :
    tag = foreverTag ∨ W.minDelay i j = foreverTag ∨
      tag.microstep.toNat + (W.minDelay i j).microstep.toNat < 2 ^ 32 := by
  rcases h with h | h
  · exact .inl h
  · have hm := h.microstep
    exact .inr ((microstep_minDelay _ i j).imp id (by omega))

variable {R : Rti n K} {e : Fin n}

/-- Nothing that a node upstream has left to do arrives earlier. -/
theorem floor_earliest_le (hR : ∀ i, W.Announced (heard W R i)) {i : Fin n} {c : Int64}
    {cs : List Int64} (hpath : W.Path i e (c :: cs)) {x : Superdense}
    (hx : (heard W R i).floor ≤ x) :
    (earliestFutureIncomingMessageTag W R e).1.floor ≤ afterAll ((c :: cs).map Int64.toInt) x := by
  obtain ⟨-, hle⟩ := isLeast_earliest W R e
  have hdelay := floor_minDelay_le W.toTopology hpath
  rw [afterAll_eq_plus]
  by_cases hfinite : W.minDelay i e = foreverTag
  · have htop := hle (.inl rfl)
    rw [hfinite] at hdelay
    exact (floor_mono htop).trans (hdelay.trans (le_plus ((zero_le_floor (hR i).zeroTag_le).trans hx)))
  · refine (floor_mono (hle (.inr ⟨i, hfinite, rfl⟩))).trans ?_
    exact floor_lfTagAdd_le (hR i).zeroTag_le (zeroTag_le_minDelay _ i e) (hR i).eq_foreverTag
      (time_minDelay _ i e) ((hR i).room i e) hx hdelay

/-- And something can arrive then, unless nothing ever does. -/
theorem exists_path_earliest (hR : ∀ i, W.Announced (heard W R i)) :
    (earliestFutureIncomingMessageTag W R e).1 = foreverTag ∨
      ∃ i c cs, W.Path i e (c :: cs) ∧ (earliestFutureIncomingMessageTag W R e).1.super =
        afterAll ((c :: cs).map Int64.toInt) (heard W R i).super := by
  obtain ⟨hmem, -⟩ := isLeast_earliest W R e
  rcases hmem with h | ⟨i, hfinite, h⟩
  · exact .inl h
  · by_cases htop : (earliestFutureIncomingMessageTag W R e).1 = foreverTag
    · exact .inl htop
    · obtain ⟨c, cs, hpath, -, hdelay⟩ := (minDelay_eq W.toTopology i e).resolve_left hfinite
      refine .inr ⟨i, c, cs, hpath, ?_⟩
      rw [h] at htop ⊢
      rw [super_lfTagAdd (hR i).zeroTag_le (zeroTag_le_minDelay _ i e) htop, afterAll_eq_plus, hdelay,
        super_pathDelay (hdelay ▸ hfinite)]

/-- The tag found is the earliest at which a message can come in when every node works from its next
event on: no path leads to an earlier one, and some path leads to it. -/
theorem earliestFutureIncomingMessageTag_exact (W : Network n K) (R : Rti n K) (e : Fin n)
    (hR : ∀ i, W.Announced (heard W R i)) :
    (∀ i c cs, W.Path i e (c :: cs) → ∀ x, (heard W R i).super ≤ x →
      (earliestFutureIncomingMessageTag W R e).1.floor ≤ afterAll ((c :: cs).map Int64.toInt) x) ∧
    ((earliestFutureIncomingMessageTag W R e).1 = foreverTag ∨
      ∃ i c cs, W.Path i e (c :: cs) ∧ (earliestFutureIncomingMessageTag W R e).1.super =
        afterAll ((c :: cs).map Int64.toInt) (heard W R i).super) :=
  ⟨fun _ _ _ hpath _ hx => floor_earliest_le hR hpath ((floor_le_super _).trans hx),
    exists_path_earliest hR⟩

def sender : Fin 2 := (Fin.last 0).castSucc

def receiver : Fin 2 := Fin.last 1

/-- Two federates and a connection of 10 ns from one to the other. -/
def pipeline : Network 2 Unit where
  size := by decide
  state _ := .granted
  immediateUpstreams i := if i = receiver then [(sender, 10)] else []
  immediateDownstreams i := if i = sender then [receiver] else []
  source _ := sender
  target _ := receiver
  delay _ := 10
  startTime := 0
  dnetDisabled := false
  covered _ := ⟨10, by simp, le_rfl⟩
  connected _ := by simp
  startTime_nonneg := by decide
  startTime_lt := by decide

/-- The sender has announced an event at 5 ns, the receiver has not been heard from. -/
def pipelineHeard : Rti 2 Unit where
  node i := ⟨neverTag, neverTag, neverTag, if i = sender then ⟨5, 0⟩ else neverTag, neverTag, .granted⟩
  inTransitMessageTags _ := []
  sent _ := []

theorem announced_pipelineHeard : ∀ i, pipeline.Announced (heard pipeline pipelineHeard i) := by
  refine Fin.forall_fin_two.mpr ⟨.inr ?_, .inr ?_⟩ <;> constructor <;> decide

theorem earliestFutureIncomingMessageTag_pipeline :
    (∀ i, pipeline.Announced (heard pipeline pipelineHeard i)) ∧
    (∀ i c cs, pipeline.Path i receiver (c :: cs) → ∀ x, (heard pipeline pipelineHeard i).super ≤ x →
      (earliestFutureIncomingMessageTag pipeline pipelineHeard receiver).1.floor ≤
        afterAll ((c :: cs).map Int64.toInt) x) ∧
    ((earliestFutureIncomingMessageTag pipeline pipelineHeard receiver).1 = foreverTag ∨
      ∃ i c cs, pipeline.Path i receiver (c :: cs) ∧
        (earliestFutureIncomingMessageTag pipeline pipelineHeard receiver).1.super =
          afterAll ((c :: cs).map Int64.toInt) (heard pipeline pipelineHeard i).super) :=
  ⟨announced_pipelineHeard,
    earliestFutureIncomingMessageTag_exact pipeline pipelineHeard receiver announced_pipelineHeard⟩

end Exact

end LFBenchmarks.Federated
