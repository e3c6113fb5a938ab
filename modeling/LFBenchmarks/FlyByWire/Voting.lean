import LFBenchmarks.FlyByWire.BehaviorTest

namespace LFBenchmarks.FlyByWire

section TwoOutOfThree

/-- Input `i` is absent or differs from the other two, which are present and equal. -/
def Outvoted (present : Fin 3 → Prop) (same : Fin 3 → Fin 3 → Prop) (i : Fin 3) : Prop :=
  (∀ j, j ≠ i → present j) ∧ (∀ j k, j ≠ i → k ≠ i → same j k) ∧
    (present i → ∀ j, j ≠ i → ¬same i j)

def Unanimous (present : Fin 3 → Prop) (same : Fin 3 → Fin 3 → Prop) : Prop :=
  (∀ i, present i) ∧ ∀ i j, same i j

/-- What two-out-of-three voting on three inputs says: the condition under which each result,
or no result, is the right one. -/
def TwoOutOfThree (present : Fin 3 → Prop) (same : Fin 3 → Fin 3 → Prop) :
    Option Status → Prop
  | none => ∀ i, ¬present i
  | some .ok => Unanimous present same
  | some (.errorPfc i) => Outvoted present same i
  | some .emergency =>
    (∃ i, present i) ∧ ¬Unanimous present same ∧ ∀ i, ¬Outvoted present same i
  | some .exit => False

/-- The status with its PFC number permuted. -/
def Status.permute (σ : Equiv.Perm (Fin 3)) : Status → Status
  | .errorPfc i => .errorPfc (σ i)
  | st => st

variable {present : Fin 3 → Prop} {same : Fin 3 → Fin 3 → Prop}

theorem fin_three_cases : ∀ i j k l : Fin 3, i ≠ j → i ≠ k → j ≠ k → l = i ∨ l = j ∨ l = k := by
  decide

theorem exists_third : ∀ i j : Fin 3, i ≠ j → ∃ k, k ≠ i ∧ k ≠ j := by decide

theorem Outvoted.unique {i j : Fin 3} (hi : Outvoted present same i)
    (hj : Outvoted present same j) : i = j := by
  by_contra hij
  obtain ⟨k, hki, hkj⟩ := exists_third i j hij
  exact hj.2.2 (hi.1 j (Ne.symm hij)) k hkj (hi.2.1 j k (Ne.symm hij) hki)

theorem Outvoted.not_unanimous {i : Fin 3} (h : Outvoted present same i) :
    ¬Unanimous present same := fun hall =>
  h.2.2 (hall.1 i) (i + 1) (by simp) (hall.2 i (i + 1))

theorem Outvoted.not_empty {i : Fin 3} (h : Outvoted present same i) : ∃ j, present j :=
  ⟨i + 1, h.1 (i + 1) (by simp)⟩

/-- The cases exclude each other. -/
theorem TwoOutOfThree.unique {c d : Option Status} (hc : TwoOutOfThree present same c)
    (hd : TwoOutOfThree present same d) : c = d := by
  have hfull (hall : Unanimous present same) (hno : ∀ i, ¬present i) : False :=
    hno 0 (hall.1 0)
  have hsome (i : Fin 3) (hi : Outvoted present same i) (hno : ∀ i, ¬present i) : False := by
    obtain ⟨j, hj⟩ := hi.not_empty
    exact hno j hj
  match c, d with
  | none, none => rfl
  | none, some .ok => exact (hfull hd hc).elim
  | none, some (.errorPfc i) => exact (hsome i hd hc).elim
  | none, some .emergency => exact (not_exists.mpr hc hd.1).elim
  | some .ok, none => exact (hfull hc hd).elim
  | some .ok, some .ok => rfl
  | some .ok, some (.errorPfc i) => exact (hd.not_unanimous hc).elim
  | some .ok, some .emergency => exact (hd.2.1 hc).elim
  | some (.errorPfc i), none => exact (hsome i hc hd).elim
  | some (.errorPfc i), some .ok => exact (hc.not_unanimous hd).elim
  | some (.errorPfc i), some (.errorPfc j) => rw [Outvoted.unique hc hd]
  | some (.errorPfc i), some .emergency => exact (hd.2.2 i hc).elim
  | some .emergency, none => exact (not_exists.mpr hd hc.1).elim
  | some .emergency, some .ok => exact (hc.2.1 hd).elim
  | some .emergency, some (.errorPfc i) => exact (hc.2.2 i hd).elim
  | some .emergency, some .emergency => rfl

theorem Outvoted.permute (σ : Equiv.Perm (Fin 3)) {i : Fin 3} (h : Outvoted present same i) :
    Outvoted (fun j => present (σ.symm j)) (fun j k => same (σ.symm j) (σ.symm k)) (σ i) := by
  have hne (j : Fin 3) (hj : j ≠ σ i) : σ.symm j ≠ i := by
    intro he
    rw [← he, σ.apply_symm_apply] at hj
    exact hj rfl
  refine ⟨fun j hj => h.1 _ (hne j hj), fun j k hj hk => h.2.1 _ _ (hne j hj) (hne k hk), ?_⟩
  intro hpresent j hj
  simp only [σ.symm_apply_apply] at hpresent ⊢
  exact h.2.2 hpresent _ (hne j hj)

theorem outvoted_permute_iff (σ : Equiv.Perm (Fin 3)) (i : Fin 3) :
    Outvoted (fun j => present (σ.symm j)) (fun j k => same (σ.symm j) (σ.symm k)) i ↔
      Outvoted present same (σ.symm i) := by
  constructor
  · intro h
    simpa using h.permute σ.symm
  · intro h
    simpa using h.permute σ

theorem unanimous_permute_iff (σ : Equiv.Perm (Fin 3)) :
    Unanimous (fun j => present (σ.symm j)) (fun j k => same (σ.symm j) (σ.symm k)) ↔
      Unanimous present same := by
  constructor
  · intro h
    exact ⟨fun i => by simpa using h.1 (σ i), fun i j => by simpa using h.2 (σ i) (σ j)⟩
  · intro h
    exact ⟨fun i => h.1 (σ.symm i), fun i j => h.2 (σ.symm i) (σ.symm j)⟩

/-- The cases do not depend on how the inputs are numbered. -/
theorem TwoOutOfThree.permute (σ : Equiv.Perm (Fin 3)) {c : Option Status}
    (h : TwoOutOfThree present same c) :
    TwoOutOfThree (fun j => present (σ.symm j)) (fun j k => same (σ.symm j) (σ.symm k))
      (c.map (Status.permute σ)) := by
  match c with
  | none => exact fun i => h (σ.symm i)
  | some .ok => exact (unanimous_permute_iff σ).mpr h
  | some (.errorPfc i) => exact Outvoted.permute σ h
  | some .emergency =>
    obtain ⟨⟨i, hi⟩, hno, hout⟩ := h
    exact ⟨⟨σ i, by simpa using hi⟩, fun hall => hno ((unanimous_permute_iff σ).mp hall),
      fun j hj => hout _ ((outvoted_permute_iff σ j).mp hj)⟩

end TwoOutOfThree

section Vote

variable {V : Type*}

/-- An input is present when its flag and its valid field are set. -/
def Wes.Present (w : Wes V) (i : Fin 3) : Prop :=
  w.hasS i = true ∧ (w.lastS i).valid = true

def Wes.Same (w : Wes V) (i j : Fin 3) : Prop :=
  (w.lastS i).counter = (w.lastS j).counter ∧ (w.lastS i).speed = (w.lastS j).speed

/-- Slot `i` of `w` becomes slot `σ i`. -/
def Wes.permute (σ : Equiv.Perm (Fin 3)) (w : Wes V) : Wes V :=
  { w with lastS := fun j => w.lastS (σ.symm j), hasS := fun j => w.hasS (σ.symm j) }

def SpeedMsg.sample (msg : SpeedMsg V) : BehaviorTest.Sample V := ⟨msg.counter, msg.speed⟩

theorem Wes.valid_iff (w : Wes V) (i : Fin 3) : w.valid i = true ↔ w.Present i := by
  simp [Wes.valid, Wes.Present]

theorem Wes.Same.symm {w : Wes V} {i j : Fin 3} (h : w.Same i j) : w.Same j i :=
  ⟨h.1.symm, h.2.symm⟩

theorem Wes.Same.trans {w : Wes V} {i j k : Fin 3} (hij : w.Same i j) (hjk : w.Same j k) :
    w.Same i k :=
  ⟨hij.1.trans hjk.1, hij.2.trans hjk.2⟩

variable [DecidableEq V]

theorem Wes.matching_iff (w : Wes V) (i j : Fin 3) :
    w.matching i j = true ↔ w.Present i ∧ w.Present j ∧ w.Same i j := by
  simp [Wes.matching, Wes.valid, Wes.Present, Wes.Same, and_assoc]

/-- A pair that matches and an input that does not match one of it: the third is outvoted. -/
theorem Wes.outvoted_of (w : Wes V) {i j k : Fin 3} (hij : i ≠ j) (hik : i ≠ k) (hjk : j ≠ k)
    (hmatch : w.matching j k = true) (hno : ¬w.matching i j = true) :
    Outvoted w.Present w.Same i := by
  obtain ⟨hj, hk, hsame⟩ := (w.matching_iff j k).mp hmatch
  have hothers (l : Fin 3) (hl : l ≠ i) : l = j ∨ l = k :=
    (fin_three_cases i j k l hij hik hjk).resolve_left hl
  refine ⟨fun l hl => ?_, fun l m hl hm => ?_, fun hi l hl heq => hno ?_⟩
  · rcases hothers l hl with rfl | rfl
    · exact hj
    · exact hk
  · rcases hothers l hl with rfl | rfl <;> rcases hothers m hm with rfl | rfl
    · exact ⟨rfl, rfl⟩
    · exact hsame
    · exact hsame.symm
    · exact ⟨rfl, rfl⟩
  · refine (w.matching_iff i j).mpr ⟨hi, hj, ?_⟩
    rcases hothers l hl with rfl | rfl
    · exact heq
    · exact heq.trans hsame.symm

theorem Wes.unanimous_of (w : Wes V) (h01 : w.matching 0 1 = true) (h02 : w.matching 0 2 = true) :
    Unanimous w.Present w.Same := by
  obtain ⟨h0, h1, hs1⟩ := (w.matching_iff 0 1).mp h01
  obtain ⟨-, h2, hs2⟩ := (w.matching_iff 0 2).mp h02
  have hzero (i : Fin 3) : w.Same 0 i := by
    rcases fin_three_cases 0 1 2 i (by decide) (by decide) (by decide) with rfl | rfl | rfl
    · exact ⟨rfl, rfl⟩
    · exact hs1
    · exact hs2
  refine ⟨fun i => ?_, fun i j => (hzero i).symm.trans (hzero j)⟩
  rcases fin_three_cases 0 1 2 i (by decide) (by decide) (by decide) with rfl | rfl | rfl
  · exact h0
  · exact h1
  · exact h2

/-- The if-chain of the vote decides by the right case. -/
theorem Wes.result_twoOutOfThree (w : Wes V) (hsome : ∃ i, w.Present i) :
    TwoOutOfThree w.Present w.Same (some w.result) := by
  have hcomm (i j : Fin 3) (h : ¬w.matching i j = true) : ¬w.matching j i = true := by
    intro hji
    obtain ⟨hj, hi, hsame⟩ := (w.matching_iff j i).mp hji
    exact h ((w.matching_iff i j).mpr ⟨hi, hj, hsame.symm⟩)
  unfold Wes.result
  split_ifs with hall h01 h02 h12
  · rw [Bool.and_eq_true] at hall
    exact w.unanimous_of hall.1 hall.2
  · have hno : ¬w.matching 0 2 = true := fun h02 => hall (by simp [h01, h02])
    exact w.outvoted_of (by decide) (by decide) (by decide) h01 (hcomm 0 2 hno)
  · exact w.outvoted_of (by decide) (by decide) (by decide) h02 (hcomm 0 1 h01)
  · exact w.outvoted_of (by decide) (by decide) (by decide) h12 h01
  · refine ⟨hsome, fun hu => h01 ((w.matching_iff 0 1).mpr ⟨hu.1 0, hu.1 1, hu.2 0 1⟩), ?_⟩
    -- whichever input were outvoted, the other two would match
    intro i hi
    have hpair (j k : Fin 3) (hj : j ≠ i) (hk : k ≠ i) : w.matching j k = true :=
      (w.matching_iff j k).mpr ⟨hi.1 j hj, hi.1 k hk, hi.2.1 j k hj hk⟩
    rcases fin_three_cases 0 1 2 i (by decide) (by decide) (by decide) with rfl | rfl | rfl
    · exact h12 (hpair 1 2 (by decide) (by decide))
    · exact h02 (hpair 0 2 (by decide) (by decide))
    · exact h01 (hpair 0 1 (by decide) (by decide))

theorem Wes.voteTick_eq (w : Wes V) :
    (∀ i, ¬w.Present i) ∧ w.voteTick.2 = none ∨
      (∃ i, w.Present i) ∧ w.voteTick.2 = some w.result := by
  have hcount : (∀ i, ¬w.Present i) ↔
      (w.valid 0).toNat + (w.valid 1).toNat + (w.valid 2).toNat = 0 := by
    simp [← Wes.valid_iff, Fin.forall_fin_succ, and_assoc]
  unfold Wes.voteTick
  split_ifs with hno hzero
  · have hclear : ∀ i, w.hasS i = false := by simpa [Fin.forall_fin_succ, and_assoc] using hno
    exact .inl ⟨fun i hi => by simp [Wes.Present, hclear i] at hi, rfl⟩
  · exact .inl ⟨hcount.mpr hzero, rfl⟩
  · refine .inr ⟨?_, rfl⟩
    by_contra hnone
    exact hzero (hcount.mp (not_exists.mp hnone))

theorem Wes.voteTick_twoOutOfThree (w : Wes V) :
    TwoOutOfThree w.Present w.Same w.voteTick.2 := by
  rcases w.voteTick_eq with ⟨hnone, hvote⟩ | ⟨hsome, hvote⟩
  · rw [hvote]
    exact hnone
  · rw [hvote]
    exact w.result_twoOutOfThree hsome

theorem Wes.expectedTmr_eq (w : Wes V) (hall : ∀ i, w.Present i) :
    BehaviorTest.expectedTmr (w.lastS 0).sample (w.lastS 1).sample (w.lastS 2).sample =
      BehaviorTest.statusName w.result.code := by
  have hmatch (i j : Fin 3) : w.matching i j =
      (decide ((w.lastS i).counter = (w.lastS j).counter) &&
        decide ((w.lastS i).speed = (w.lastS j).speed)) := by
    simp [Wes.matching, (w.valid_iff _).mpr (hall _)]
  simp only [BehaviorTest.expectedTmr, SpeedMsg.sample, Wes.result, hmatch,
    apply_ite Status.code, apply_ite BehaviorTest.statusName]
  rfl

/-- The vote of WES is exactly symmetric two-out-of-three. -/
theorem vote_two_out_of_three (w : Wes V) :
    let present := fun i => w.hasS i = true ∧ (w.lastS i).valid = true
    let same := fun i j => (w.lastS i).counter = (w.lastS j).counter ∧
      (w.lastS i).speed = (w.lastS j).speed
    (∀ c, w.voteTick.2 = c ↔ TwoOutOfThree present same c) ∧
    (∃! c, TwoOutOfThree present same c) ∧
    (∀ σ : Equiv.Perm (Fin 3), (w.permute σ).voteTick.2 = w.voteTick.2.map (Status.permute σ)) ∧
    ((∀ i, present i) → w.voteTick.2.map (fun st => BehaviorTest.statusName st.code) =
      some (BehaviorTest.expectedTmr (w.lastS 0).sample (w.lastS 1).sample
        (w.lastS 2).sample)) := by
  intro present same
  have hvote := w.voteTick_twoOutOfThree
  refine ⟨fun c => ⟨fun h => h ▸ hvote, fun h => hvote.unique h⟩,
    ⟨_, hvote, fun c hc => TwoOutOfThree.unique hc hvote⟩, fun σ => ?_, fun hall => ?_⟩
  · exact TwoOutOfThree.unique (w.permute σ).voteTick_twoOutOfThree (hvote.permute σ)
  · rcases w.voteTick_eq with ⟨hnone, -⟩ | ⟨-, hsome⟩
    · exact absurd (hall 0) (hnone 0)
    · rw [hsome, Option.map_some, w.expectedTmr_eq hall]

end Vote

end LFBenchmarks.FlyByWire
