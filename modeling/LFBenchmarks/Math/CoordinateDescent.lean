import Mathlib

namespace LFBenchmarks

section Saturate

variable {K : Type*} [LinearOrder K]

/-- Cut off above, then below. -/
def saturate (lo hi x : K) : K :=
  let x := if hi < x then hi else x
  if x < lo then lo else x

theorem saturate_eq (lo hi x : K) : saturate lo hi x = max lo (min hi x) := by
  unfold saturate
  rcases lt_or_ge hi x with h | h
  · simp only [if_pos h, min_eq_left h.le]
    split_ifs with hlo
    · exact (max_eq_left hlo.le).symm
    · exact (max_eq_right (not_lt.mp hlo)).symm
  · simp only [if_neg (not_lt.mpr h), min_eq_right h]
    split_ifs with hlo
    · exact (max_eq_left hlo.le).symm
    · exact (max_eq_right (not_lt.mp hlo)).symm

theorem saturate_mem (lo hi x : K) (h : lo ≤ hi) : lo ≤ saturate lo hi x ∧ saturate lo hi x ≤ hi := by
  rw [saturate_eq]
  exact ⟨le_max_left _ _, max_le h (min_le_left _ _)⟩

theorem saturate_of_mem (lo hi x : K) (hlo : lo ≤ x) (hhi : x ≤ hi) : saturate lo hi x = x := by
  rw [saturate_eq, min_eq_right hhi, max_eq_right hlo]

variable [Field K] [IsStrictOrderedRing K]

theorem saturate_lipschitz (lo hi x y : K) :
    |saturate lo hi x - saturate lo hi y| ≤ |x - y| := by
  rw [saturate_eq, saturate_eq]
  have hmax := abs_max_sub_max_le_max lo (min hi x) lo (min hi y)
  have hmin := abs_min_sub_min_le_max hi x hi y
  rw [sub_self, abs_zero, max_eq_right (abs_nonneg (min hi x - min hi y))] at hmax
  rw [sub_self, abs_zero, max_eq_right (abs_nonneg (x - y))] at hmin
  exact hmax.trans hmin

/-- Saturation moves towards the box: no further from `u` in the box than `x` lies. -/
theorem saturate_obtuse (lo hi x u : K) (hlo : lo ≤ u) (hhi : u ≤ hi) :
    (saturate lo hi x - x) * (saturate lo hi x - u) ≤ 0 := by
  rw [saturate_eq]
  rcases le_total hi x with h | h
  · rw [min_eq_left h, max_eq_right (hlo.trans hhi)]
    exact mul_nonpos_of_nonpos_of_nonneg (sub_nonpos.mpr h) (sub_nonneg.mpr hhi)
  · rw [min_eq_right h]
    rcases le_total lo x with hx | hx
    · rw [max_eq_right hx, sub_self, zero_mul]
    · rw [max_eq_left hx]
      exact mul_nonpos_of_nonneg_of_nonpos (sub_nonneg.mpr hx) (sub_nonpos.mpr hlo)

theorem saturate_neg (lo hi x : K) (h : lo ≤ hi) :
    saturate (-hi) (-lo) (-x) = -saturate lo hi x := by
  rw [saturate_eq, saturate_eq, min_neg_neg, max_neg_neg, neg_inj]
  rcases le_total lo x with hx | hx
  · rw [max_eq_right hx, max_eq_right (le_min h hx)]
  · rw [max_eq_left hx, min_eq_right h, max_eq_left ((min_le_right _ _).trans hx)]

end Saturate

/-- Projected coordinate descent in a box, along an affine gradient. -/
structure CoordinateDescent (ι K : Type*) [Fintype ι] [Field K] [LinearOrder K] where
  lo : K
  hi : K
  rate : K
  grad : (ι → K) → ι → K
  hess : ι → ι → K
  lo_le_hi : lo ≤ hi
  rate_pos : 0 < rate
  grad_sub : ∀ u w k, grad u k - grad w k = ∑ j, hess k j * (u j - w j)

namespace CoordinateDescent

variable {ι K : Type*} [Fintype ι] [DecidableEq ι]
variable [Field K] [LinearOrder K] (D : CoordinateDescent ι K)

def InBox (u : ι → K) : Prop := ∀ k, D.lo ≤ u k ∧ u k ≤ D.hi

def value (u : ι → K) (k : ι) : K := saturate D.lo D.hi (u k - D.rate * D.grad u k)

def step (u : ι → K) (k : ι) : ι → K := Function.update u k (D.value u k)

def sweep (l : List ι) (u : ι → K) : ι → K := l.foldl D.step u

theorem step_self (u : ι → K) (k : ι) : D.step u k k = D.value u k := Function.update_self ..

theorem step_of_ne (u : ι → K) (k j : ι) (h : j ≠ k) : D.step u k j = u j :=
  Function.update_of_ne h ..

theorem sweep_cons (k : ι) (l : List ι) (u : ι → K) :
    D.sweep (k :: l) u = D.sweep l (D.step u k) := rfl

theorem sweep_of_not_mem (l : List ι) (u : ι → K) (j : ι) (hj : j ∉ l) : D.sweep l u j = u j := by
  induction l generalizing u with
  | nil => rfl
  | cons k l ih =>
    have hjk : j ≠ k := fun h => hj (h ▸ List.mem_cons_self)
    have hjl : j ∉ l := fun h => hj (List.mem_cons_of_mem k h)
    rw [sweep_cons, ih (D.step u k) hjl, D.step_of_ne u k j hjk]

/-- What every update preserves holds after a pass, and what every new value has, every
visited coordinate has. -/
theorem sweep_visited (inv : (ι → K) → Prop) (R : ι → K → Prop)
    (hstep : ∀ u k, inv u → inv (D.step u k)) (hvalue : ∀ u k, inv u → R k (D.value u k))
    (l : List ι) (u : ι → K) (hu : inv u) :
    inv (D.sweep l u) ∧ ∀ j ∈ l, R j (D.sweep l u j) := by
  induction l generalizing u with
  | nil => exact ⟨hu, fun j hj => absurd hj List.not_mem_nil⟩
  | cons k l ih =>
    obtain ⟨hinv, hvisited⟩ := ih (D.step u k) (hstep u k hu)
    refine ⟨hinv, fun j hj => ?_⟩
    by_cases hjl : j ∈ l
    · exact hvisited j hjl
    · have hjk : j = k := (List.mem_cons.mp hj).resolve_right hjl
      rw [sweep_cons, D.sweep_of_not_mem l _ j hjl, hjk, step_self]
      exact hvalue u k hu

theorem step_inBox (u : ι → K) (k : ι) (hu : D.InBox u) : D.InBox (D.step u k) := by
  intro j
  by_cases hj : j = k
  · rw [hj, step_self]
    exact saturate_mem _ _ _ D.lo_le_hi
  · rw [D.step_of_ne u k j hj]
    exact hu j

theorem sweep_inBox (l : List ι) (u : ι → K) (hu : D.InBox u) : D.InBox (D.sweep l u) :=
  (D.sweep_visited D.InBox (fun _ _ => True) D.step_inBox (fun _ _ _ => True.intro) l u hu).1

variable [IsStrictOrderedRing K]

section Mirror

/-- The descent of the problem with all signs turned. -/
structure Mirrors (D' : CoordinateDescent ι K) : Prop where
  lo : D'.lo = -D.hi
  hi : D'.hi = -D.lo
  rate : D'.rate = D.rate
  grad : ∀ u k, D'.grad (-u) k = -D.grad u k

variable {D}

theorem Mirrors.step {D' : CoordinateDescent ι K} (h : D.Mirrors D') (u : ι → K) (k : ι) :
    D'.step (-u) k = -D.step u k := by
  have hvalue : D'.value (-u) k = -D.value u k := by
    have hmove : (-u) k - D.rate * -D.grad u k = -(u k - D.rate * D.grad u k) := by
      rw [Pi.neg_apply]
      ring
    rw [value, value, h.lo, h.hi, h.rate, h.grad, hmove, saturate_neg _ _ _ D.lo_le_hi]
  funext j
  by_cases hj : j = k
  · rw [hj, step_self, Pi.neg_apply, step_self, hvalue]
  · rw [D'.step_of_ne (-u) k j hj, Pi.neg_apply, Pi.neg_apply, D.step_of_ne u k j hj]

theorem Mirrors.sweep {D' : CoordinateDescent ι K} (h : D.Mirrors D') (l : List ι) (u : ι → K) :
    D'.sweep l (-u) = -D.sweep l u := by
  induction l generalizing u with
  | nil => rfl
  | cons k l ih => rw [sweep_cons, sweep_cons, h.step, ih]

theorem Mirrors.iterate {D' : CoordinateDescent ι K} (h : D.Mirrors D') (l : List ι) (n : ℕ)
    (u : ι → K) : (D'.sweep l)^[n] (-u) = -(D.sweep l)^[n] u := by
  induction n generalizing u with
  | zero => rfl
  | succ n ih => rw [Function.iterate_succ_apply, Function.iterate_succ_apply, h.sweep, ih]

end Mirror

section Contraction

/-- The row of the Hessian, read as the linear map of one coordinate update, has norm at most
`q`. -/
def Dominant (q : K) : Prop :=
  ∀ k, |1 - D.rate * D.hess k k| + D.rate * ∑ j ∈ Finset.univ.erase k, |D.hess k j| ≤ q

variable (q : K) (hq : D.Dominant q)

include hq

theorem descent_dist (u w : ι → K) (M : K) (hM : ∀ j, |u j - w j| ≤ M) (k : ι) :
    |(u k - D.rate * D.grad u k) - (w k - D.rate * D.grad w k)| ≤ q * M := by
  have hM0 : 0 ≤ M := (abs_nonneg _).trans (hM k)
  have hrow : (u k - D.rate * D.grad u k) - (w k - D.rate * D.grad w k) =
      (1 - D.rate * D.hess k k) * (u k - w k) -
        D.rate * ∑ j ∈ Finset.univ.erase k, D.hess k j * (u j - w j) := by
    have hsplit := Finset.add_sum_erase Finset.univ (fun j => D.hess k j * (u j - w j))
      (Finset.mem_univ k)
    have hgrad := D.grad_sub u w k
    rw [← hsplit] at hgrad
    linear_combination (-D.rate) * hgrad
  have hoff : |∑ j ∈ Finset.univ.erase k, D.hess k j * (u j - w j)| ≤
      (∑ j ∈ Finset.univ.erase k, |D.hess k j|) * M := by
    rw [Finset.sum_mul]
    refine (Finset.abs_sum_le_sum_abs _ _).trans (Finset.sum_le_sum (fun j _ => ?_))
    rw [abs_mul]
    exact mul_le_mul_of_nonneg_left (hM j) (abs_nonneg _)
  have hdiag : |(1 - D.rate * D.hess k k) * (u k - w k)| ≤ |1 - D.rate * D.hess k k| * M := by
    rw [abs_mul]
    exact mul_le_mul_of_nonneg_left (hM k) (abs_nonneg _)
  calc |(u k - D.rate * D.grad u k) - (w k - D.rate * D.grad w k)|
      ≤ |1 - D.rate * D.hess k k| * M +
          D.rate * ((∑ j ∈ Finset.univ.erase k, |D.hess k j|) * M) := by
        rw [hrow]
        refine (abs_sub _ _).trans (add_le_add hdiag ?_)
        rw [abs_mul, abs_of_pos D.rate_pos]
        exact mul_le_mul_of_nonneg_left hoff D.rate_pos.le
    _ = (|1 - D.rate * D.hess k k| + D.rate * ∑ j ∈ Finset.univ.erase k, |D.hess k j|) * M := by
        ring
    _ ≤ q * M := mul_le_mul_of_nonneg_right (hq k) hM0

theorem value_dist (u w : ι → K) (M : K) (hM : ∀ j, |u j - w j| ≤ M) (k : ι) :
    |D.value u k - D.value w k| ≤ q * M :=
  (saturate_lipschitz _ _ _ _).trans (D.descent_dist q hq u w M hM k)

/-- After a pass the coordinates it visited are closer by the factor `q`. -/
theorem sweep_dist (hq1 : q ≤ 1) (l : List ι) (u w : ι → K) (M : K)
    (hM : ∀ j, |u j - w j| ≤ M) (j : ι) :
    |D.sweep l u j - D.sweep l w j| ≤ M ∧
      (j ∈ l → |D.sweep l u j - D.sweep l w j| ≤ q * M) := by
  have hM0 : 0 ≤ M := (abs_nonneg _).trans (hM j)
  have hqM : q * M ≤ M := mul_le_of_le_one_left hM0 hq1
  induction l generalizing u w with
  | nil => exact ⟨hM j, fun h => absurd h List.not_mem_nil⟩
  | cons k l ih =>
    have hstep : ∀ i, |D.step u k i - D.step w k i| ≤ M := by
      intro i
      by_cases hi : i = k
      · rw [hi, step_self, step_self]
        exact (D.value_dist q hq u w M hM k).trans hqM
      · rw [D.step_of_ne u k i hi, D.step_of_ne w k i hi]
        exact hM i
    obtain ⟨hle, hvisited⟩ := ih (D.step u k) (D.step w k) hstep
    refine ⟨hle, fun hj => ?_⟩
    by_cases hjl : j ∈ l
    · exact hvisited hjl
    · have hjk : j = k := (List.mem_cons.mp hj).resolve_right hjl
      rw [sweep_cons, sweep_cons, D.sweep_of_not_mem l _ j hjl, D.sweep_of_not_mem l _ j hjl, hjk,
        step_self, step_self]
      exact D.value_dist q hq u w M hM k

variable (l : List ι) (hl : ∀ j, j ∈ l)

include hl

theorem iterate_dist (hq1 : q ≤ 1) (n : ℕ) (u w : ι → K) (M : K)
    (hM : ∀ j, |u j - w j| ≤ M) (j : ι) :
    |(D.sweep l)^[n] u j - (D.sweep l)^[n] w j| ≤ q ^ n * M := by
  induction n generalizing u w M with
  | zero =>
    rw [pow_zero, one_mul]
    exact hM j
  | succ n ih =>
    have hnext := ih (D.sweep l u) (D.sweep l w) (q * M)
      (fun i => (D.sweep_dist q hq hq1 l u w M hM i).2 (hl i))
    rw [Function.iterate_succ_apply, Function.iterate_succ_apply, pow_succ, mul_assoc]
    exact hnext

theorem sweep_fixed_unique (hq1 : q < 1) (u w : ι → K) (hu : D.sweep l u = u)
    (hw : D.sweep l w = w) : u = w := by
  rcases isEmpty_or_nonempty ι with hempty | hne
  · exact Subsingleton.elim u w
  · obtain ⟨k, hk⟩ := Finite.exists_max (fun j => |u j - w j|)
    have hdist := (D.sweep_dist q hq hq1.le l u w _ hk k).2 (hl k)
    rw [hu, hw] at hdist
    have hzero : |u k - w k| ≤ 0 := by
      by_contra hpos
      have hlt : q * |u k - w k| < |u k - w k| := mul_lt_of_lt_one_left (not_le.mp hpos) hq1
      exact absurd hdist (not_le.mpr hlt)
    funext j
    have hj : |u j - w j| ≤ 0 := (hk j).trans hzero
    exact sub_eq_zero.mp (abs_nonpos_iff.mp hj)

omit hl

theorem rate_mul_hess_lt (hq1 : q < 1) (k : ι) : D.rate * D.hess k k < 2 := by
  have hsum : 0 ≤ D.rate * ∑ j ∈ Finset.univ.erase k, |D.hess k j| :=
    mul_nonneg D.rate_pos.le (Finset.sum_nonneg (fun j _ => abs_nonneg _))
  have habs : |1 - D.rate * D.hess k k| < 1 := by
    have hrow := hq k
    linarith
  linarith [(abs_lt.mp habs).1]

end Contraction

section Minimiser

variable (f : (ι → K) → K)

structure Parabolic : Prop where
  along : ∀ u k t, f (Function.update u k (u k + t)) = f u + t * D.grad u k + t ^ 2 / 2 * D.hess k k

def IsMinimiser (u : ι → K) : Prop := D.InBox u ∧ ∀ w, D.InBox w → f u ≤ f w

variable (hf : D.Parabolic f)

include hf

theorem cost_step (u : ι → K) (k : ι) (hu : D.InBox u) :
    D.rate * f (D.step u k) + (1 - D.rate * D.hess k k / 2) * (D.value u k - u k) ^ 2 ≤
      D.rate * f u := by
  have hparabola := hf.along u k (D.value u k - u k)
  rw [add_sub_cancel] at hparabola
  have hstep : f (D.step u k) = f (Function.update u k (D.value u k)) := rfl
  have hobtuse : (D.value u k - (u k - D.rate * D.grad u k)) * (D.value u k - u k) ≤ 0 :=
    saturate_obtuse _ _ _ _ (hu k).1 (hu k).2
  rw [hstep, hparabola]
  linarith

variable (q : K) (hq : D.Dominant q) (hq1 : q < 1)

include hq hq1

theorem cost_step_le (u : ι → K) (k : ι) (hu : D.InBox u) : f (D.step u k) ≤ f u := by
  have hgain := D.cost_step f hf u k hu
  have hcurv := D.rate_mul_hess_lt q hq hq1 k
  have hpos : 0 ≤ (1 - D.rate * D.hess k k / 2) * (D.value u k - u k) ^ 2 :=
    mul_nonneg (by linarith) (sq_nonneg _)
  exact le_of_mul_le_mul_left (by linarith) D.rate_pos

/-- A coordinate update that does not lower the cost changes nothing. -/
theorem step_eq_of_cost (u : ι → K) (k : ι) (hu : D.InBox u) (h : f u ≤ f (D.step u k)) :
    D.step u k = u := by
  have hgain := D.cost_step f hf u k hu
  have hcurv := D.rate_mul_hess_lt q hq hq1 k
  have hle : D.rate * f u ≤ D.rate * f (D.step u k) := mul_le_mul_of_nonneg_left h D.rate_pos.le
  have hzero : D.value u k - u k = 0 := by
    by_contra hne
    have hpos : 0 < (1 - D.rate * D.hess k k / 2) * (D.value u k - u k) ^ 2 :=
      mul_pos (by linarith) (sq_pos_iff.mpr hne)
    linarith
  rw [step, sub_eq_zero.mp hzero, Function.update_eq_self]

theorem minimiser_sweep (l : List ι) (u : ι → K) (hu : D.IsMinimiser f u) : D.sweep l u = u := by
  induction l with
  | nil => rfl
  | cons k l ih =>
    have hstep : D.step u k = u :=
      D.step_eq_of_cost f hf q hq hq1 u k hu.1 (hu.2 _ (D.step_inBox u k hu.1))
    rw [sweep_cons, hstep, ih]

theorem minimiser_unique (u w : ι → K) (hu : D.IsMinimiser f u) (hw : D.IsMinimiser f w) :
    u = w :=
  D.sweep_fixed_unique q hq Finset.univ.toList (by simp) hq1 u w
    (D.minimiser_sweep f hf q hq hq1 _ u hu) (D.minimiser_sweep f hf q hq hq1 _ w hw)

theorem sweep_cost_le (l : List ι) (u : ι → K) (hu : D.InBox u) : f (D.sweep l u) ≤ f u := by
  induction l generalizing u with
  | nil => exact le_rfl
  | cons k l ih =>
    exact (ih _ (D.step_inBox u k hu)).trans (D.cost_step_le f hf q hq hq1 u k hu)

theorem iterate_cost_le (l : List ι) (n : ℕ) (u : ι → K) (hu : D.InBox u) :
    f ((D.sweep l)^[n] u) ≤ f u := by
  induction n generalizing u with
  | zero => exact le_rfl
  | succ n ih =>
    rw [Function.iterate_succ_apply]
    exact (ih _ (D.sweep_inBox l u hu)).trans (D.sweep_cost_le f hf q hq hq1 l u hu)

/-- A pass that does not lower the cost moves no coordinate it visits. -/
theorem step_eq_of_sweep_cost (l : List ι) (u : ι → K) (hu : D.InBox u)
    (h : f u ≤ f (D.sweep l u)) : ∀ k ∈ l, D.step u k = u := by
  induction l with
  | nil => exact fun k hk => absurd hk List.not_mem_nil
  | cons k l ih =>
    have hrest := D.sweep_cost_le f hf q hq hq1 l _ (D.step_inBox u k hu)
    have hk : D.step u k = u := D.step_eq_of_cost f hf q hq hq1 u k hu (h.trans hrest)
    rw [sweep_cons, hk] at h
    intro j hj
    rcases List.mem_cons.mp hj with rfl | hj
    · exact hk
    · exact ih h j hj

omit hf hq hq1

/-- No update moves `u`: the gradient points into the box nowhere. -/
theorem grad_of_step_eq (u : ι → K) (k : ι) (h : D.step u k = u) (x : K)
    (hx : D.lo ≤ x ∧ x ≤ D.hi) : 0 ≤ D.grad u k * (x - u k) := by
  have hvalue : D.value u k = u k := by
    have hk := congrFun h k
    rwa [step_self] at hk
  have hobtuse : (D.value u k - (u k - D.rate * D.grad u k)) * (D.value u k - x) ≤ 0 :=
    saturate_obtuse _ _ _ _ hx.1 hx.2
  rw [hvalue] at hobtuse
  by_contra hneg
  have hpos := mul_pos D.rate_pos (neg_pos.mpr (not_le.mp hneg))
  linarith

theorem minimiser_of_step_eq (htangent : ∀ u w, f u + ∑ k, D.grad u k * (w k - u k) ≤ f w)
    (u : ι → K) (hu : D.InBox u) (h : ∀ k, D.step u k = u) : D.IsMinimiser f u := by
  refine ⟨hu, fun w hw => ?_⟩
  have hslope : 0 ≤ ∑ k, D.grad u k * (w k - u k) :=
    Finset.sum_nonneg (fun k _ => D.grad_of_step_eq u k (h k) (w k) (hw k))
  exact (le_add_of_nonneg_right hslope).trans (htangent u w)

end Minimiser

section Existence

omit [DecidableEq ι] in
theorem exists_minimiser (D : CoordinateDescent ι ℝ) (f : (ι → ℝ) → ℝ) (hf : Continuous f) :
    ∃ u, D.IsMinimiser f u := by
  have hcompact : IsCompact (Set.pi Set.univ (fun _ : ι => Set.Icc D.lo D.hi)) :=
    isCompact_univ_pi (fun _ => isCompact_Icc)
  have hne : (Set.pi Set.univ (fun _ : ι => Set.Icc D.lo D.hi)).Nonempty :=
    ⟨fun _ => D.lo, fun _ _ => ⟨le_rfl, D.lo_le_hi⟩⟩
  obtain ⟨u, hu, hmin⟩ := hcompact.exists_isMinOn hne hf.continuousOn
  exact ⟨u, fun k => hu k (Set.mem_univ k), fun w hw => hmin (fun k _ => hw k)⟩

end Existence

section Origin

/-- The rest of the sequence weakens the gradient at the origin by its weight in the row at most. -/
theorem value_le (u : ι → K) (B : K) (hu : ∀ j, |u j| ≤ B) (k : ι) :
    D.value u k ≤ max D.lo ((1 - D.rate * D.hess k k) * u k -
      D.rate * (D.grad 0 k - (∑ j ∈ Finset.univ.erase k, |D.hess k j|) * B)) := by
  have hgrad := D.grad_sub u 0 k
  rw [← Finset.add_sum_erase Finset.univ _ (Finset.mem_univ k)] at hgrad
  simp only [Pi.zero_apply, sub_zero] at hgrad
  have hoff : |∑ j ∈ Finset.univ.erase k, D.hess k j * u j| ≤
      (∑ j ∈ Finset.univ.erase k, |D.hess k j|) * B := by
    rw [Finset.sum_mul]
    refine (Finset.abs_sum_le_sum_abs _ _).trans (Finset.sum_le_sum (fun j _ => ?_))
    rw [abs_mul]
    exact mul_le_mul_of_nonneg_left (hu j) (abs_nonneg _)
  have hpull : D.grad 0 k - (∑ j ∈ Finset.univ.erase k, |D.hess k j|) * B ≤
      D.grad 0 k + ∑ j ∈ Finset.univ.erase k, D.hess k j * u j := by
    have hbelow := neg_le_of_abs_le hoff
    linarith
  have hmove := mul_le_mul_of_nonneg_left hpull D.rate_pos.le
  rw [value, saturate_eq]
  refine max_le_max le_rfl ((min_le_right _ _).trans ?_)
  linear_combination hmove - D.rate * hgrad

/-- A gradient at the origin that outweighs the rest of the sequence pushes the coordinate
below zero. -/
theorem value_neg (hlo : D.lo < 0) (u : ι → K) (B : K) (hu : ∀ j, |u j| ≤ B) (k : ι) (huk : u k ≤ 0)
    (hdiag : D.rate * D.hess k k ≤ 1)
    (hdrift : (∑ j ∈ Finset.univ.erase k, |D.hess k j|) * B < D.grad 0 k) :
    D.value u k < 0 := by
  have hstay : (1 - D.rate * D.hess k k) * u k ≤ 0 :=
    mul_nonpos_of_nonneg_of_nonpos (by linarith) huk
  have hpush := mul_pos D.rate_pos (sub_pos.mpr hdrift)
  exact (D.value_le u B hu k).trans_lt (max_lt hlo (by linarith))

variable (q : K) (hq : D.Dominant q) (hlo : D.lo < 0) (hhi : 0 < D.hi)

include hq hlo hhi

theorem value_bound (u : ι → K) (B G : K) (hu : ∀ j, |u j| ≤ B) (k : ι)
    (hG : |D.grad 0 k| ≤ G) : |D.value u k| ≤ q * B + D.rate * G := by
  have hdist := D.value_dist q hq u 0 B (fun j => by simpa using hu j) k
  have hzero : |D.value 0 k| ≤ D.rate * G := by
    have hlip := saturate_lipschitz D.lo D.hi (0 - D.rate * D.grad 0 k) 0
    rw [saturate_of_mem D.lo D.hi 0 hlo.le hhi.le, sub_zero, sub_zero, zero_sub, abs_neg, abs_mul,
      abs_of_pos D.rate_pos] at hlip
    rw [value, Pi.zero_apply, zero_sub]
    exact hlip.trans (mul_le_mul_of_nonneg_left hG D.rate_pos.le)
  calc |D.value u k| = |(D.value u k - D.value 0 k) + D.value 0 k| := by rw [sub_add_cancel]
    _ ≤ q * B + D.rate * G := (abs_add_le _ _).trans (add_le_add hdist hzero)

theorem step_bound (u : ι → K) (B G : K) (hu : ∀ j, |u j| ≤ B) (hG : ∀ k, |D.grad 0 k| ≤ G)
    (hB : q * B + D.rate * G ≤ B) (k j : ι) : |D.step u k j| ≤ B := by
  by_cases hj : j = k
  · rw [hj, step_self]
    exact (D.value_bound q hq hlo hhi u B G hu k (hG k)).trans hB
  · rw [D.step_of_ne u k j hj]
    exact hu j

theorem sweep_bound (B G : K) (hG : ∀ k, |D.grad 0 k| ≤ G) (hB : q * B + D.rate * G ≤ B)
    (l : List ι) (u : ι → K) (hu : ∀ j, |u j| ≤ B) :
    (∀ j, |D.sweep l u j| ≤ B) ∧ ∀ j ∈ l, |D.sweep l u j| ≤ q * B + D.rate * G :=
  D.sweep_visited (fun u => ∀ j, |u j| ≤ B) (fun _ x => |x| ≤ q * B + D.rate * G)
    (fun u k hu => D.step_bound q hq hlo hhi u B G hu hG hB k)
    (fun u k hu => D.value_bound q hq hlo hhi u B G hu k (hG k)) l u hu

theorem sweep_neg (B G : K) (hG : ∀ k, |D.grad 0 k| ≤ G) (hB : q * B + D.rate * G ≤ B) (k : ι)
    (hdiag : D.rate * D.hess k k ≤ 1)
    (hdrift : (∑ j ∈ Finset.univ.erase k, |D.hess k j|) * B < D.grad 0 k)
    (l : List ι) (hk : k ∈ l) (u : ι → K) (hu : ∀ j, |u j| ≤ B) (huk : u k ≤ 0) :
    (∀ j, |D.sweep l u j| ≤ B) ∧ D.sweep l u k < 0 := by
  have hvalue : ∀ w i, (∀ j, |w j| ≤ B) ∧ w k ≤ 0 → i = k → D.value w i < 0 := by
    intro w i hw hi
    rw [hi]
    exact D.value_neg hlo w B hw.1 k hw.2 hdiag hdrift
  have hstep : ∀ w i, (∀ j, |w j| ≤ B) ∧ w k ≤ 0 →
      (∀ j, |D.step w i j| ≤ B) ∧ D.step w i k ≤ 0 := by
    intro w i hboth
    obtain ⟨hw, hwk⟩ := hboth
    refine ⟨D.step_bound q hq hlo hhi w B G hw hG hB i, ?_⟩
    by_cases hi : k = i
    · rw [← hi, step_self]
      exact (hvalue w k ⟨hw, hwk⟩ rfl).le
    · rw [D.step_of_ne w i k hi]
      exact hwk
  obtain ⟨⟨hball, -⟩, hvisited⟩ := D.sweep_visited
    (fun w => (∀ j, |w j| ≤ B) ∧ w k ≤ 0) (fun i x => i = k → x < 0) hstep hvalue l u ⟨hu, huk⟩
  exact ⟨hball, hvisited k hk rfl⟩

theorem iterate_bound (B G : K) (hG : ∀ k, |D.grad 0 k| ≤ G) (hB : q * B + D.rate * G ≤ B)
    (l : List ι) (hl : ∀ j, j ∈ l) (n : ℕ) (u : ι → K) (hu : ∀ j, |u j| ≤ B) :
    (∀ j, |(D.sweep l)^[n] u j| ≤ B) ∧
      ∀ j, |(D.sweep l)^[n + 1] u j| ≤ q * B + D.rate * G := by
  have hkeep : ∀ j, |(D.sweep l)^[n] u j| ≤ B := by
    induction n generalizing u with
    | zero => exact hu
    | succ n ih => exact ih _ (D.sweep_bound q hq hlo hhi B G hG hB l u hu).1
  refine ⟨hkeep, fun j => ?_⟩
  rw [Function.iterate_succ_apply']
  exact (D.sweep_bound q hq hlo hhi B G hG hB l _ hkeep).2 j (hl j)

theorem iterate_neg (B G : K) (hG : ∀ k, |D.grad 0 k| ≤ G) (hB : q * B + D.rate * G ≤ B) (k : ι)
    (hdiag : D.rate * D.hess k k ≤ 1)
    (hdrift : (∑ j ∈ Finset.univ.erase k, |D.hess k j|) * B < D.grad 0 k)
    (l : List ι) (hk : k ∈ l) (n : ℕ) (u : ι → K) (hu : ∀ j, |u j| ≤ B) (huk : u k ≤ 0) :
    (D.sweep l)^[n + 1] u k < 0 := by
  induction n generalizing u with
  | zero => exact (D.sweep_neg q hq hlo hhi B G hG hB k hdiag hdrift l hk u hu huk).2
  | succ n ih =>
    obtain ⟨hball, hneg⟩ := D.sweep_neg q hq hlo hhi B G hG hB k hdiag hdrift l hk u hu huk
    rw [Function.iterate_succ_apply]
    exact ih _ hball hneg.le

/-- One update takes the coordinate from `y` or below to `z` or below. -/
def Lowers (B : K) (k : ι) (y z : K) : Prop :=
  D.lo ≤ z ∧ (1 - D.rate * D.hess k k) * y -
    D.rate * (D.grad 0 k - (∑ j ∈ Finset.univ.erase k, |D.hess k j|) * B) ≤ z

theorem sweep_le (B G : K) (hG : ∀ k, |D.grad 0 k| ≤ G) (hB : q * B + D.rate * G ≤ B) (k : ι)
    (hdiag : D.rate * D.hess k k ≤ 1) (y z : K) (h : D.Lowers B k y z) (l : List ι) (hl : l.Nodup)
    (hk : k ∈ l) (u : ι → K) (hu : ∀ j, |u j| ≤ B) (huk : u k ≤ y) : D.sweep l u k ≤ z := by
  induction l generalizing u with
  | nil => exact absurd hk List.not_mem_nil
  | cons i l ih =>
    obtain ⟨hi, hrest⟩ := List.nodup_cons.mp hl
    rw [sweep_cons]
    by_cases hik : k = i
    · -- no later update of the pass visits the coordinate again
      subst hik
      have hstay : (1 - D.rate * D.hess k k) * u k ≤ (1 - D.rate * D.hess k k) * y :=
        mul_le_mul_of_nonneg_left huk (by linarith)
      rw [D.sweep_of_not_mem l _ k hi, step_self]
      exact (D.value_le u B hu k).trans (max_le h.1 (by linarith [h.2]))
    · refine ih hrest ((List.mem_cons.mp hk).resolve_left hik) _
        (D.step_bound q hq hlo hhi u B G hu hG hB i) ?_
      rwa [D.step_of_ne u i k hik]

theorem iterate_le (B G : K) (hG : ∀ k, |D.grad 0 k| ≤ G) (hB : q * B + D.rate * G ≤ B) (k : ι)
    (hdiag : D.rate * D.hess k k ≤ 1) (l : List ι) (hl : l.Nodup) (hk : k ∈ l) (n : ℕ) (y : ℕ → K)
    (hy : ∀ m < n, D.Lowers B k (y m) (y (m + 1))) (u : ι → K) (hu : ∀ j, |u j| ≤ B)
    (huk : u k ≤ y 0) : (∀ j, |(D.sweep l)^[n] u j| ≤ B) ∧ (D.sweep l)^[n] u k ≤ y n := by
  induction n with
  | zero => exact ⟨hu, huk⟩
  | succ n ih =>
    obtain ⟨hball, hbelow⟩ := ih (fun m hm => hy m (hm.trans (Nat.lt_succ_self n)))
    rw [Function.iterate_succ_apply']
    exact ⟨(D.sweep_bound q hq hlo hhi B G hG hB l _ hball).1,
      D.sweep_le q hq hlo hhi B G hG hB k hdiag _ _ (hy n (Nat.lt_succ_self n)) l hl hk _ hball
        hbelow⟩

end Origin

end CoordinateDescent

end LFBenchmarks
