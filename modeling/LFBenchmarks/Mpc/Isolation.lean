import LFBenchmarks.Mpc.Equilibrium
import LFBenchmarks.Mpc.Optimizer

namespace LFBenchmarks.Mpc

open Split (params)

section Displacement

variable {K : Type*} [Field K] [LinearOrder K] [IsStrictOrderedRing K]

theorem pass_lowers (x0 xref : Vector K nx) (k : Fin horizon) (p y z : K) (hz : -5 ≤ z) (hy : y ≤ 0)
    (hp : p ≤ (descent x0 xref).grad 0 k - 9 / 500000)
    (hyz : (1 - 1 / 100 * (1 / 5 + 1 / 20000)) * y - 1 / 100 * p ≤ z) :
    (descent x0 xref).Lowers (1 / 25) k y z := by
  let D := descent x0 xref
  have hrow : ∑ j ∈ Finset.univ.erase k, |D.hess k j| ≤ 9 / 20000 := hess_row x0 xref k
  have hdiag : D.hess k k ≤ 1 / 5 + 1 / 20000 := (hess_diag x0 xref k).2
  have hstay : (1 - 1 / 100 * D.hess k k) * y ≤ (1 - 1 / 100 * (1 / 5 + 1 / 20000)) * y :=
    mul_le_mul_of_nonpos_right (by linarith) hy
  constructor
  · exact (descent_lo x0 xref).le.trans hz
  · rw [descent_rate]
    linarith

theorem pass_le (x0 xref : Vector K nx) (hG : ∀ j, |(descent x0 xref).grad 0 j| ≤ 1 / 250)
    (k : Fin horizon) (y : ℕ → K) (hy : ∀ m < 50, (descent x0 xref).Lowers (1 / 25) k (y m) (y (m + 1)))
    (W : Fin horizon → K) (hW : ∀ j, |W j| ≤ 1 / 25) (hk : W k ≤ y 0) :
    (∀ j, |(pass x0 xref)^[50] W j| ≤ 1 / 25) ∧ (pass x0 xref)^[50] W k ≤ y 50 := by
  let D := descent x0 xref
  obtain ⟨hlo, hhi⟩ : D.lo < 0 ∧ 0 < D.hi := descent_around_zero x0 xref
  have hrate : D.rate = 1 / 100 := descent_rate x0 xref
  have hball : (999 / 1000 : K) * (1 / 25) + D.rate * (1 / 250) ≤ 1 / 25 := by
    rw [hrate]
    norm_num
  have hdiag : D.rate * D.hess k k ≤ 1 := by
    have hdiag' : D.hess k k ≤ 1 / 5 + 1 / 20000 := (hess_diag x0 xref k).2
    rw [hrate]
    linarith
  exact D.iterate_le _ (descent_dominant x0 xref) hlo hhi (1 / 25) (1 / 250) hG hball k hdiag
    (List.finRange horizon) (List.nodup_finRange horizon) (List.mem_finRange k) 50 y hy W hW hk

/-- The plan pushes back, and its first input by more than one call undoes. -/
structure Pushed (u : Vector K horizon) : Prop where
  small : ∀ k, |u.get k| ≤ 1 / 25
  back : ∀ k, u.get k ≤ 0
  first : u.get 0 ≤ -(7 / 200000)

/-- The state one unit off the reference, at rest. -/
def displaced : Vector K nx := #v[1, 0]

theorem descend_displaced (u : Vector K horizon) (hsmall : ∀ k, |u.get k| ≤ 1 / 25)
    (hback : ∀ k, u.get k ≤ 0) (k : Fin horizon) :
    |(descend params displaced origin u).get k| ≤ 1 / 25 ∧
      (descend params displaced origin u).get k ≤ -(7 / 200000) := by
  have hd : (displaced : Vector K nx)[0] - (origin : Vector K nx)[0] = 1 := by
    simp [displaced, origin]
  have hbounds (j : Fin horizon) := grad_rest_bounds (displaced : Vector K nx) origin rfl rfl
    (by rw [hd]; exact zero_le_one) j
  simp only [hd] at hbounds
  let y : ℕ → K := fun m => -(m * (7 / 10000000))
  have hlowers : ∀ m < 50, (descent displaced origin).Lowers (1 / 25) k (y m) (y (m + 1)) := by
    intro m hm
    simp only [y]
    have hm' : (m : K) ≤ 49 := by exact_mod_cast Nat.le_of_lt_succ hm
    have hm0 : (0 : K) ≤ m := Nat.cast_nonneg m
    refine pass_lowers _ _ k (1 / 10000 - 9 / 500000) _ _ ?_ ?_ ?_ ?_
    · push_cast
      linarith
    · linarith
    · linarith [(hbounds k).1]
    · push_cast
      linarith
  obtain ⟨hball, hpushed⟩ := pass_le _ _ (fun j => (hbounds j).2) k y hlowers u.get hsmall
    (by simpa [y] using hback k)
  rw [descend_get]
  refine ⟨hball k, hpushed.trans ?_⟩
  norm_num [y]

theorem pushed_displaced (u : Vector K horizon) (hsmall : ∀ k, |u.get k| ≤ 1 / 25)
    (hback : ∀ k, u.get k ≤ 0) : Pushed (shift (descend params displaced origin u)) := by
  have hplan := descend_displaced u hsmall hback
  constructor
  · intro k
    rw [shift_get]
    unfold entry
    split_ifs
    · exact (hplan ⟨_, by assumption⟩).1
    · rw [abs_zero]
      norm_num
  · intro k
    rw [shift_get]
    unfold entry
    split_ifs
    · exact (hplan ⟨_, by assumption⟩).2.trans (by norm_num)
    · exact le_rfl
  · exact ((shift_get _ 0).trans (entry_get _ 1)).le.trans (hplan 1).2

/-- One call does not forget the plan it is given: at rest on the reference it still pushes. -/
theorem descend_rest_neg (u : Vector K horizon) (hu : Pushed u) :
    (descend params (origin : Vector K nx) origin u).get 0 < 0 := by
  have hgrad (j : Fin horizon) : (descent (origin : Vector K nx) origin).grad 0 j = 0 := by
    obtain ⟨beta, -, -, hzero⟩ := grad_rest (origin : Vector K nx) origin rfl rfl j
    rw [hzero, sub_self, mul_zero]
  let y : ℕ → K := fun m => -(7 / 200000) + m * (3 / 10000000)
  have hlowers : ∀ m < 50, (descent origin origin).Lowers (1 / 25) 0 (y m) (y (m + 1)) := by
    intro m hm
    simp only [y]
    have hm' : (m : K) ≤ 49 := by exact_mod_cast Nat.le_of_lt_succ hm
    have hm0 : (0 : K) ≤ m := Nat.cast_nonneg m
    refine pass_lowers _ _ 0 (-(9 / 500000)) _ _ ?_ ?_ ?_ ?_
    · push_cast
      linarith
    · linarith
    · rw [hgrad, zero_sub]
    · push_cast
      linarith
  obtain ⟨-, hbelow⟩ := pass_le _ _ (fun j => by rw [hgrad, abs_zero]; norm_num) 0 y hlowers u.get
    hu.small (by simpa [y] using hu.first)
  rw [descend_get]
  refine hbelow.trans_lt ?_
  norm_num [y]

end Displacement

section Executions

variable {ι K : Type*} [DecidableEq ι] [Field K]
variable (solve : Vector K nx → Vector K nx → Vector K horizon → K × Vector K horizon)

/-- Which reaction runs on which instance, in order, without the values they run on. -/
def shapeOf (l : List (ι × Optimizer.Reaction K)) : List (ι × Optimizer.Kind) :=
  l.map fun e => (e.1, e.2.kind)

/-- The executions of instance `i`. -/
def own (i : ι) (l : List (ι × Optimizer.Reaction K)) : List (ι × Optimizer.Reaction K) :=
  l.filter fun e => e.1 = i

/-- What each instance sets on its output is what it sets when the others are left out. -/
def Isolated (l : List (ι × Optimizer.Reaction K)) : Prop :=
  ∀ i, Optimizers.outputs solve i l .initial = Optimizers.outputs solve i (own i l) .initial

theorem react_other (e : ι × Optimizer.Reaction K) (s : Optimizers ι K) (i : ι) (h : e.1 ≠ i) :
    (s.react solve e).1.instances i = s.instances i :=
  Function.update_of_ne (Ne.symm h) _ _

theorem react_uSeq (e : ι × Optimizer.Reaction K) (s : Optimizers ι K)
    (h : e.2.kind ≠ .xCurrent) : (s.react solve e).1.uSeq = s.uSeq := by
  obtain ⟨i, r⟩ := e
  cases r with
  | xRefIn xRef => rfl
  | xCurrent x => exact absurd rfl h
  | deadline => rfl

/-- An execution is decided by its own instance, and if it solves by the static sequence. -/
theorem react_congr (e : ι × Optimizer.Reaction K) (s t : Optimizers ι K)
    (hi : s.instances e.1 = t.instances e.1) (hu : e.2.kind = .xCurrent → s.uSeq = t.uSeq) :
    (s.react solve e).2 = (t.react solve e).2 ∧
      (s.react solve e).1.instances e.1 = (t.react solve e).1.instances e.1 ∧
        (s.uSeq = t.uSeq → (s.react solve e).1.uSeq = (t.react solve e).1.uSeq) := by
  obtain ⟨i, r⟩ := e
  cases r with
  | xRefIn xRef => simp_all [Optimizers.react, Optimizer.react]
  | xCurrent x => simp_all [Optimizers.react, Optimizer.react, Optimizer.Reaction.kind]
  | deadline => simp_all [Optimizers.react, Optimizer.react]

theorem outputs_own_of_no_solve (i : ι) (l : List (ι × Optimizer.Reaction K))
    (hl : ∀ e ∈ l, e.1 = i → e.2.kind ≠ .xCurrent) (s t : Optimizers ι K)
    (hi : s.instances i = t.instances i) :
    Optimizers.outputs solve i l s = Optimizers.outputs solve i (own i l) t := by
  induction l generalizing s t with
  | nil => rfl
  | cons e l ih =>
    have hrest : ∀ e ∈ l, e.1 = i → e.2.kind ≠ .xCurrent :=
      fun e he => hl e (List.mem_cons_of_mem _ he)
    by_cases he : e.1 = i
    · have hown : own i (e :: l) = e :: own i l := List.filter_cons_of_pos (by simpa using he)
      have hkind := hl e List.mem_cons_self he
      subst he
      obtain ⟨hout, hinst, -⟩ := react_congr solve e s t hi (fun h => absurd h hkind)
      rw [hown, Optimizers.outputs, Optimizers.outputs, hout, ih hrest _ _ hinst]
    · have hown : own i (e :: l) = own i l := List.filter_cons_of_neg (by simpa using he)
      rw [hown, Optimizers.outputs, if_neg he, List.nil_append]
      exact ih hrest _ _ ((react_other solve e s i he).trans hi)

theorem outputs_own_of_solver (i : ι) (l : List (ι × Optimizer.Reaction K))
    (hl : ∀ e ∈ l, e.2.kind = .xCurrent → e.1 = i) (s t : Optimizers ι K)
    (hi : s.instances i = t.instances i) (hu : s.uSeq = t.uSeq) :
    Optimizers.outputs solve i l s = Optimizers.outputs solve i (own i l) t := by
  induction l generalizing s t with
  | nil => rfl
  | cons e l ih =>
    have hrest : ∀ e ∈ l, e.2.kind = .xCurrent → e.1 = i :=
      fun e he => hl e (List.mem_cons_of_mem _ he)
    by_cases he : e.1 = i
    · have hown : own i (e :: l) = e :: own i l := List.filter_cons_of_pos (by simpa using he)
      subst he
      obtain ⟨hout, hinst, hseq⟩ := react_congr solve e s t hi (fun _ => hu)
      rw [hown, Optimizers.outputs, Optimizers.outputs, hout, ih hrest _ _ hinst (hseq hu)]
    · have hown : own i (e :: l) = own i l := List.filter_cons_of_neg (by simpa using he)
      have hkind : e.2.kind ≠ .xCurrent := fun h => he (hl e List.mem_cons_self h)
      rw [hown, Optimizers.outputs, if_neg he, List.nil_append]
      exact ih hrest _ _ ((react_other solve e s i he).trans hi)
        ((react_uSeq solve e s hkind).trans hu)

/-- Instances are isolated as long as only one of them ever solves. -/
theorem isolated_of_one_solver (l : List (ι × Optimizer.Reaction K))
    (h : ∀ i j, (i, .xCurrent) ∈ shapeOf l → (j, .xCurrent) ∈ shapeOf l → i = j) :
    Isolated solve l := by
  intro i
  have hmem (e : ι × Optimizer.Reaction K) (he : e ∈ l) (hk : e.2.kind = .xCurrent) :
      (e.1, .xCurrent) ∈ shapeOf l := by
    rw [← hk]
    exact List.mem_map_of_mem he
  by_cases hi : (i, .xCurrent) ∈ shapeOf l
  · exact outputs_own_of_solver solve i l (fun e he hk => h _ _ (hmem e he hk) hi) _ _ rfl rfl
  · refine outputs_own_of_no_solve solve i l (fun e he hei hk => hi ?_) _ _ rfl
    rw [← hei]
    exact hmem e he hk

end Executions

section Interference

variable {ι K : Type*} [DecidableEq ι] [Field K]

/-- Values for a shape: instance `b` is at rest on its reference, the others one unit off. -/
def probe (b : ι) (e : ι × Optimizer.Kind) : ι × Optimizer.Reaction K :=
  (e.1, match e.2 with
    | .xRefIn => .xRefIn origin
    | .xCurrent => .xCurrent (if e.1 = b then origin else displaced)
    | .deadline => .deadline)

theorem shapeOf_probe (b : ι) (shape : List (ι × Optimizer.Kind)) :
    shapeOf (shape.map (probe (K := K) b)) = shape := by
  have hkind (e : ι × Optimizer.Kind) : ((probe (K := K) b e).1, (probe (K := K) b e).2.kind) = e := by
    obtain ⟨i, k⟩ := e
    cases k <;> rfl
  rw [shapeOf, List.map_map]
  exact (List.map_congr_left (fun e _ => hkind e)).trans (List.map_id shape)

/-- Every instance still has its initial reference. -/
def Unmoved (s : Optimizers ι K) : Prop := ∀ i, s.instances i = .initial

variable [LinearOrder K]

theorem react_probe (b : ι) (e : ι × Optimizer.Kind) (s : Optimizers ι K) (hs : Unmoved s) :
    Unmoved (s.react Split.mpcSolve (probe b e)).1 := by
  intro j
  obtain ⟨i, k⟩ := e
  by_cases hj : i = j
  · subst hj
    have hi := hs i
    cases k <;>
      simp [probe, Optimizers.react, Optimizer.react, Optimizer.initial] at hi ⊢ <;> exact hi
  · rw [react_other Split.mpcSolve _ s j hj, hs j]

theorem run_probe_quiet (b : ι) (shape : List (ι × Optimizer.Kind))
    (hquiet : ∀ e ∈ shape, e.2 ≠ .xCurrent) (s : Optimizers ι K) (hs : Unmoved s) :
    Unmoved (s.run Split.mpcSolve (shape.map (probe b))) ∧
      (s.run Split.mpcSolve (shape.map (probe b))).uSeq = s.uSeq := by
  induction shape generalizing s with
  | nil => exact ⟨hs, rfl⟩
  | cons e shape ih =>
    obtain ⟨hmoved, hseq⟩ := ih (fun e he => hquiet e (List.mem_cons_of_mem _ he)) _
      (react_probe b e s hs)
    refine ⟨hmoved, hseq.trans ?_⟩
    have hkind : (probe (K := K) b e).2.kind ≠ .xCurrent := by
      have he := hquiet e List.mem_cons_self
      obtain ⟨i, k⟩ := e
      cases k <;> simp_all [probe, Optimizer.Reaction.kind]
    exact react_uSeq Split.mpcSolve _ s hkind

variable [IsStrictOrderedRing K]

theorem mpcSolve_rest : Split.mpcSolve (origin : Vector K nx) origin (Vector.replicate horizon 0) =
    (0, Vector.replicate horizon 0) := by
  rw [Split.mpcSolve, descend_rest rfl rfl rfl, shift_zero]
  exact congrArg (·, _) (Vector.getElem_replicate ..)

/-- Alone, an instance at rest applies zero. -/
theorem outputs_alone (b : ι) (shape : List (ι × Optimizer.Kind)) (s : Optimizers ι K)
    (hs : Unmoved s) (hu : s.uSeq = Vector.replicate horizon 0) :
    ∀ x ∈ Optimizers.outputs Split.mpcSolve b (own b (shape.map (probe b))) s, x = 0 := by
  induction shape generalizing s with
  | nil => exact fun x hx => absurd hx List.not_mem_nil
  | cons e shape ih =>
    obtain ⟨i, k⟩ := e
    by_cases hi : i = b
    · subst hi
      have hown : own i (((i, k) :: shape).map (probe (K := K) i)) =
          probe i (i, k) :: own i (shape.map (probe i)) := by
        rw [List.map_cons]
        exact List.filter_cons_of_pos (by simp [probe])
      have hkeep : (s.react Split.mpcSolve (probe i (i, k))).1.uSeq = Vector.replicate horizon 0 ∧
          ∀ x ∈ (s.react Split.mpcSolve (probe i (i, k))).2.toList, x = 0 := by
        have hinst := hs i
        cases k <;>
          simp [probe, Optimizers.react, Optimizer.react, hinst, hu, Optimizer.initial, mpcSolve_rest]
      intro x hx
      have hfst : (probe (K := K) i (i, k)).1 = i := rfl
      rw [hown, Optimizers.outputs, if_pos hfst, List.mem_append] at hx
      rcases hx with hx | hx
      · exact hkeep.2 x hx
      · exact ih _ (react_probe i (i, k) s hs) hkeep.1 x hx
    · have hown : own b (((i, k) :: shape).map (probe (K := K) b)) =
          own b (shape.map (probe b)) := by
        rw [List.map_cons]
        exact List.filter_cons_of_neg (by simp [probe, hi])
      rw [hown]
      exact ih s hs hu

theorem react_displaced (b i : ι) (hi : i ≠ b) (s : Optimizers ι K) (hs : Unmoved s)
    (hsmall : ∀ k, |s.uSeq.get k| ≤ 1 / 25) (hback : ∀ k, s.uSeq.get k ≤ 0) :
    Pushed (s.react Split.mpcSolve (probe b (i, .xCurrent))).1.uSeq := by
  have hinst := hs i
  have hsolve : (s.react Split.mpcSolve (probe b (i, .xCurrent))).1.uSeq =
      shift (descend params displaced origin s.uSeq) := by
    simp [probe, hi, Optimizers.react, Optimizer.react, hinst, Optimizer.initial, Split.mpcSolve]
  rw [hsolve]
  exact pushed_displaced s.uSeq hsmall hback

/-- With the plan of another instance in the static sequence, the first solve pushes. -/
theorem outputs_disturbed (b : ι) (shape : List (ι × Optimizer.Kind)) (s : Optimizers ι K)
    (hs : Unmoved s) (hu : Pushed s.uSeq) (hb : (b, .xCurrent) ∈ shape) :
    ∃ x ∈ Optimizers.outputs Split.mpcSolve b (shape.map (probe b)) s, x ≠ 0 := by
  induction shape generalizing s with
  | nil => exact absurd hb List.not_mem_nil
  | cons e shape ih =>
    have hmoved := react_probe b e s hs
    rw [List.map_cons]
    simp only [Optimizers.outputs, List.mem_append]
    by_cases he : e = (b, .xCurrent)
    · subst he
      refine ⟨_, .inl ?_, (descend_rest_neg s.uSeq hu).ne⟩
      have hinst := hs b
      simp [probe, Optimizers.react, Optimizer.react, hinst, Optimizer.initial, Split.mpcSolve,
        get_eq]
    · have hlater : (b, .xCurrent) ∈ shape := (List.mem_cons.mp hb).resolve_left (Ne.symm he)
      have hkeep : Pushed (s.react Split.mpcSolve (probe b e)).1.uSeq := by
        obtain ⟨i, k⟩ := e
        cases k with
        | xRefIn => exact hu
        | deadline => exact hu
        | xCurrent => exact react_displaced b i (fun h => he (by rw [h])) s hs hu.small hu.back
      obtain ⟨x, hx, hne⟩ := ih _ hmoved hkeep hlater
      exact ⟨x, .inr hx, hne⟩

theorem not_isolated_probe (b : ι) (pre post : List (ι × Optimizer.Kind)) (c : ι) (hc : c ≠ b)
    (hquiet : ∀ e ∈ pre, e.2 ≠ .xCurrent) (hb : (b, .xCurrent) ∈ post) :
    ¬Isolated Split.mpcSolve ((pre ++ (c, .xCurrent) :: post).map (probe (K := K) b)) := by
  intro hisolated
  have halone := outputs_alone (K := K) b (pre ++ (c, .xCurrent) :: post) .initial
    (fun _ => rfl) rfl
  rw [← hisolated b, List.map_append, List.map_cons, outputs_append] at halone
  obtain ⟨hmoved, hseq⟩ := run_probe_quiet b pre hquiet (Optimizers.initial (K := K)) (fun _ => rfl)
  let s := (Optimizers.initial (ι := ι) (K := K)).run Split.mpcSolve (pre.map (probe b))
  have hzero (k : Fin horizon) : s.uSeq.get k = 0 := by
    rw [hseq, get_eq]
    exact Vector.getElem_replicate ..
  have hpushed : Pushed (s.react Split.mpcSolve (probe b (c, .xCurrent))).1.uSeq := by
    refine react_displaced b c hc s hmoved (fun k => ?_) (fun k => (hzero k).le)
    rw [hzero, abs_zero]
    norm_num
  obtain ⟨x, hx, hne⟩ := outputs_disturbed b post _
    (react_probe b (c, .xCurrent) s hmoved) hpushed hb
  refine hne (halone x ?_)
  rw [List.mem_append, Optimizers.outputs, List.mem_append]
  exact .inr (.inr hx)

theorem exists_not_isolated (shape : List (ι × Optimizer.Kind)) (i j : ι) (hij : i ≠ j)
    (hi : (i, .xCurrent) ∈ shape) (hj : (j, .xCurrent) ∈ shape) :
    ∃ l : List (ι × Optimizer.Reaction K), shapeOf l = shape ∧ ¬Isolated Split.mpcSolve l := by
  -- the first to solve is undisturbed, so another of the two is looked at
  have hfind : ∃ e, shape.find? (fun e => e.2 = .xCurrent) = some e := by
    refine Option.isSome_iff_exists.mp (List.find?_isSome.mpr ⟨_, hi, ?_⟩)
    simp
  obtain ⟨⟨c, k⟩, hfirst⟩ := hfind
  obtain ⟨hk, pre, post, rfl, hquiet⟩ := List.find?_eq_some_iff_append.mp hfirst
  obtain rfl : k = .xCurrent := by simpa using hk
  obtain ⟨b, hbc, hb⟩ : ∃ b, c ≠ b ∧ (b, Optimizer.Kind.xCurrent) ∈ pre ++ (c, .xCurrent) :: post := by
    by_cases hci : c = i
    · exact ⟨j, hci ▸ hij, hj⟩
    · exact ⟨i, hci, hi⟩
  have hpost : (b, Optimizer.Kind.xCurrent) ∈ post := by
    rcases List.mem_append.mp hb with h | h
    · simpa using hquiet _ h
    · exact (List.mem_cons.mp h).resolve_left (fun h => hbc (congrArg Prod.fst h).symm)
  refine ⟨_, shapeOf_probe b _, not_isolated_probe b pre post c hbc (fun e he => ?_) hpost⟩
  simpa using hquiet e he

/-- Two instances share their warm start: whatever they measure, each behaves as if it were
alone exactly when at most one of them ever solves. -/
theorem instances_isolated_iff (shape : List (ι × Optimizer.Kind)) :
    ∀ solve ∈ [LfMain.solve, Split.mpcSolve],
      (∀ l : List (ι × Optimizer.Reaction K), shapeOf l = shape → Isolated solve l) ↔
        ∀ i j, (i, .xCurrent) ∈ shape → (j, .xCurrent) ∈ shape → i = j := by
  intro solve hmem
  obtain rfl := eq_mpcSolve hmem
  constructor
  · intro hall i j hi hj
    by_contra hij
    obtain ⟨l, hl, hnot⟩ := exists_not_isolated (K := K) shape i j hij hi hj
    exact hnot (hall l hl)
  · intro hone l hl
    exact isolated_of_one_solver Split.mpcSolve l (hl ▸ hone)

theorem instances_isolated_iff_missed :
    Isolated LfMain.solve
      [((0 : Fin 2), .xCurrent (#v[1, 0] : Vector ℚ nx)), (1, .deadline), (0, .xCurrent #v[1, 0])] :=
  (instances_isolated_iff [((0 : Fin 2), .xCurrent), (1, .deadline), (0, .xCurrent)] LfMain.solve
    (by simp)).mpr (by decide) _ rfl

theorem second_instance_disturbed :
    ¬∃ solve ∈ [LfMain.solve, Split.mpcSolve], Isolated solve
      [((0 : Fin 2), .xCurrent (#v[1, 0] : Vector ℚ nx)), (1, .xCurrent #v[0, 0])] := by
  rintro ⟨solve, hmem, hisolated⟩
  obtain rfl := eq_mpcSolve hmem
  exact not_isolated_probe (K := ℚ) (1 : Fin 2) [] [(1, .xCurrent)] 0 (by decide) (by simp)
    (by simp) hisolated

end Interference

end LFBenchmarks.Mpc
