import LFBenchmarks.Mpc.Objective

namespace LFBenchmarks.Mpc

open Split (params)

section Descent

variable {K : Type*} [Field K] [LinearOrder K] [IsStrictOrderedRing K]

theorem params_eq : (params : Params K) =
    ⟨1 / 1000, 50, 1 / 100, 10, 1, 1 / 10, 5, -5, 1 / 100000⟩ := by
  unfold params
  norm_num

/-- The descent loops as projected coordinate descent on the least-squares cost. -/
def descent (x0 xref : Vector K nx) : CoordinateDescent (Fin horizon) K where
  lo := params.uMin
  hi := params.uMax
  rate := params.optLr
  grad := (objective params x0 xref).grad
  hess := (objective params x0 xref).hess
  lo_le_hi := by
    rw [params_eq]
    norm_num
  rate_pos := by
    rw [params_eq]
    norm_num
  grad_sub := (objective params x0 xref).grad_sub

theorem descent_lo (x0 xref : Vector K nx) : (descent x0 xref).lo = -5 := by
  change params.uMin = -5
  rw [params_eq]

theorem descent_hi (x0 xref : Vector K nx) : (descent x0 xref).hi = 5 := by
  change params.uMax = 5
  rw [params_eq]

theorem descent_rate (x0 xref : Vector K nx) : (descent x0 xref).rate = 1 / 100 := by
  change params.optLr = 1 / 100
  rw [params_eq]

theorem centralDifference_eq (x0 xref : Vector K nx) (u : Vector K horizon) (k : Fin horizon) :
    centralDifference params x0 xref u k = (objective params x0 xref).grad u.get k := by
  have heps : (params.eps : K) ≠ 0 := by
    rw [params_eq]
    norm_num
  have htwo : (2.0 : K) = 2 := by norm_num
  simp only [centralDifference, computeCost_eq, get_set, htwo]
  exact (objective params x0 xref).central_difference u.get k params.eps heps

theorem updateEntry_get (x0 xref : Vector K nx) (u : Vector K horizon) (k : Fin horizon) :
    (updateEntry params x0 xref u k).get = (descent x0 xref).step u.get k := by
  rw [updateEntry, get_set, centralDifference_eq]
  rfl

theorem foldl_updateEntry_get (x0 xref : Vector K nx) (l : List (Fin horizon))
    (u : Vector K horizon) :
    (l.foldl (updateEntry params x0 xref) u).get = (descent x0 xref).sweep l u.get := by
  induction l generalizing u with
  | nil => rfl
  | cons k l ih =>
    rw [List.foldl_cons, ih, updateEntry_get]
    rfl

abbrev pass (x0 xref : Vector K nx) : (Fin horizon → K) → Fin horizon → K :=
  (descent x0 xref).sweep (List.finRange horizon)

theorem sweep_get (x0 xref : Vector K nx) (u : Vector K horizon) :
    (sweep params x0 xref u).get = pass x0 xref u.get :=
  foldl_updateEntry_get x0 xref (List.finRange horizon) u

theorem descend_get (x0 xref : Vector K nx) (u : Vector K horizon) :
    (descend params x0 xref u).get = (pass x0 xref)^[50] u.get := by
  have hiter (n : ℕ) (u : Vector K horizon) :
      ((sweep params x0 xref)^[n] u).get = (pass x0 xref)^[n] u.get := by
    induction n generalizing u with
    | zero => rfl
    | succ n ih => rw [Function.iterate_succ_apply, Function.iterate_succ_apply, ih, sweep_get]
  exact hiter 50 u

def InBox (P : Params K) (u : Vector K horizon) : Prop :=
  ∀ k : Fin horizon, P.uMin ≤ u.get k ∧ u.get k ≤ P.uMax

theorem descend_inBox (x0 xref : Vector K nx) (u : Vector K horizon) (hu : InBox params u) :
    InBox params (descend params x0 xref u) := by
  have hpass (n : ℕ) : ∀ v, (descent x0 xref).InBox v →
      (descent x0 xref).InBox ((pass x0 xref)^[n] v) := by
    induction n with
    | zero => exact fun _ hv => hv
    | succ n ih => exact fun v hv => ih _ ((descent x0 xref).sweep_inBox (List.finRange horizon) v hv)
  intro k
  rw [descend_get]
  exact hpass 50 u.get hu k

theorem shift_inBox (u : Vector K horizon) (hu : InBox params u) : InBox params (shift u) := by
  intro k
  rw [shift_get, entry, params_eq]
  split_ifs with h
  · have hk := hu ⟨k.val + 1, h⟩
    rw [params_eq] at hk
    exact hk
  · constructor
    · norm_num
    · norm_num

theorem zero_inBox : InBox (params : Params K) (Vector.replicate horizon 0) := by
  intro k
  rw [get_eq, Vector.getElem_replicate, params_eq]
  constructor
  · norm_num
  · norm_num

end Descent

section Hessian

variable {K : Type*} [Field K]

theorem weight_total : ∑ m, (weight m : K) = 20 := by
  have hsum := sum_weight (K := K) (fun _ => 1)
  simp only [mul_one, Finset.sum_const, Finset.card_univ, Fintype.card_fin] at hsum
  rw [hsum]
  norm_num

variable [LinearOrder K] [IsStrictOrderedRing K]

theorem weight_nonneg (m : Fin (horizon + 1)) : 0 ≤ (weight m : K) := by
  unfold weight
  split_ifs <;> norm_num

theorem coeff_bounds (x0 xref : Vector K nx) (m : Fin (horizon + 1)) (j : Fin horizon) :
    let c := (objective params x0 xref).coeff
    (0 ≤ c (.inl m) j ∧ c (.inl m) j ≤ 1 / 100000) ∧
      (0 ≤ c (.inr (.inl m)) j ∧ c (.inr (.inl m)) j ≤ 1 / 1000) := by
  simp only [objective, Sum.elim_inl, Sum.elim_inr, params_eq]
  split_ifs with h
  · have hlo : (j.val : K) + 1 ≤ m.val := by exact_mod_cast h
    have hj : (0 : K) ≤ j.val := Nat.cast_nonneg _
    have hhi : (m.val : K) ≤ 10 := by exact_mod_cast Nat.le_of_lt_succ m.isLt
    refine ⟨⟨?_, ?_⟩, ?_, ?_⟩ <;> linarith
  · norm_num

theorem hess_eq (x0 xref : Vector K nx) (k j : Fin horizon) :
    let c := (objective params x0 xref).coeff
    (objective params x0 xref).hess k j =
      ∑ m, weight m * (20 * c (.inl m) k * c (.inl m) j +
        2 * c (.inr (.inl m)) k * c (.inr (.inl m)) j) + if k = j then 1 / 5 else 0 := by
  intro c
  have hposition (m : Fin (horizon + 1)) : 2 * (objective params x0 xref).weight (.inl m) *
      c (.inl m) k * c (.inl m) j = weight m * (20 * c (.inl m) k * c (.inl m) j) := by
    simp only [objective, Sum.elim_inl, params_eq]
    ring
  have hvelocity (m : Fin (horizon + 1)) : 2 * (objective params x0 xref).weight (.inr (.inl m)) *
      c (.inr (.inl m)) k * c (.inr (.inl m)) j =
        weight m * (2 * c (.inr (.inl m)) k * c (.inr (.inl m)) j) := by
    simp only [objective, Sum.elim_inl, Sum.elim_inr, params_eq]
    ring
  have hinput : ∑ i, 2 * (objective params x0 xref).weight (.inr (.inr i)) *
      c (.inr (.inr i)) k * c (.inr (.inr i)) j = if k = j then 1 / 5 else 0 := by
    rw [Finset.sum_eq_single k]
    · simp only [c, objective, Sum.elim_inr, params_eq, if_true, eq_comm]
      split_ifs <;> norm_num
    · intro i _ hi
      simp [c, objective, Ne.symm hi]
    · simp
  rw [LeastSquares.hess, Fintype.sum_sum_type, Fintype.sum_sum_type]
  rw [Finset.sum_congr rfl (fun m _ => hposition m), Finset.sum_congr rfl (fun m _ => hvelocity m),
    hinput, ← add_assoc, ← Finset.sum_add_distrib]
  simp only [mul_add]

/-- Beyond the input weight every entry of the Hessian is small and not negative. -/
theorem hess_bounds (x0 xref : Vector K nx) (k j : Fin horizon) :
    let rest := (objective params x0 xref).hess k j - if k = j then 1 / 5 else 0
    0 ≤ rest ∧ rest ≤ 1 / 20000 := by
  intro rest
  let c := (objective params x0 xref).coeff
  have hrest : rest = ∑ m, weight m * (20 * c (.inl m) k * c (.inl m) j +
      2 * c (.inr (.inl m)) k * c (.inr (.inl m)) j) := by
    simp only [rest, hess_eq x0 xref k j]
    exact add_sub_cancel_right _ _
  have hprod (a b M : K) (ha : 0 ≤ a ∧ a ≤ M) (hb : 0 ≤ b ∧ b ≤ M) : 0 ≤ a * b ∧ a * b ≤ M * M :=
    ⟨mul_nonneg ha.1 hb.1, mul_le_mul ha.2 hb.2 hb.1 (ha.1.trans ha.2)⟩
  have hterm (m : Fin (horizon + 1)) :
      0 ≤ 20 * c (.inl m) k * c (.inl m) j + 2 * c (.inr (.inl m)) k * c (.inr (.inl m)) j ∧
        20 * c (.inl m) k * c (.inl m) j + 2 * c (.inr (.inl m)) k * c (.inr (.inl m)) j ≤
          1 / 400000 := by
    obtain ⟨hpk, hvk⟩ := coeff_bounds x0 xref m k
    obtain ⟨hpj, hvj⟩ := coeff_bounds x0 xref m j
    obtain ⟨hp0, hp1⟩ := hprod _ _ _ hpk hpj
    obtain ⟨hv0, hv1⟩ := hprod _ _ _ hvk hvj
    constructor
    · linarith
    · linarith
  rw [hrest]
  constructor
  · exact Finset.sum_nonneg (fun m _ => mul_nonneg (weight_nonneg m) (hterm m).1)
  · calc ∑ m, weight m * (20 * c (.inl m) k * c (.inl m) j +
          2 * c (.inr (.inl m)) k * c (.inr (.inl m)) j)
        ≤ ∑ m : Fin (horizon + 1), weight m * (1 / 400000) := Finset.sum_le_sum
          (fun m _ => mul_le_mul_of_nonneg_left (hterm m).2 (weight_nonneg m))
      _ = 1 / 20000 := by
          rw [← Finset.sum_mul, weight_total]
          norm_num

theorem hess_row (x0 xref : Vector K nx) (k : Fin horizon) :
    ∑ j ∈ Finset.univ.erase k, |(objective params x0 xref).hess k j| ≤ 9 / 20000 := by
  have hterm : ∀ j ∈ Finset.univ.erase k, |(objective params x0 xref).hess k j| ≤ 1 / 20000 := by
    intro j hj
    have hne : k ≠ j := (Finset.ne_of_mem_erase hj).symm
    have hbounds := hess_bounds x0 xref k j
    simp only [if_neg hne, sub_zero] at hbounds
    rw [abs_of_nonneg hbounds.1]
    exact hbounds.2
  have hcard : (Finset.univ.erase k).card = 9 := by
    rw [Finset.card_erase_of_mem (Finset.mem_univ k), Finset.card_univ, Fintype.card_fin]
    rfl
  have hsum := Finset.sum_le_card_nsmul _ _ _ hterm
  rw [hcard] at hsum
  refine hsum.trans (le_of_eq ?_)
  norm_num

theorem hess_diag (x0 xref : Vector K nx) (k : Fin horizon) :
    1 / 5 ≤ (objective params x0 xref).hess k k ∧
      (objective params x0 xref).hess k k ≤ 1 / 5 + 1 / 20000 := by
  have hbounds := hess_bounds x0 xref k k
  simp only [if_true] at hbounds
  constructor <;> linarith [hbounds.1, hbounds.2]

/-- The step size and the weights of the source make the descent diagonally dominant. -/
theorem descent_dominant (x0 xref : Vector K nx) :
    (descent x0 xref).Dominant (999 / 1000) := by
  intro k
  rw [descent_rate]
  have hrow : ∑ j ∈ Finset.univ.erase k, |(descent x0 xref).hess k j| ≤ 9 / 20000 :=
    hess_row x0 xref k
  obtain ⟨hlo, hhi⟩ : 1 / 5 ≤ (descent x0 xref).hess k k ∧
      (descent x0 xref).hess k k ≤ 1 / 5 + 1 / 20000 := hess_diag x0 xref k
  have hdiag : |1 - 1 / 100 * (descent x0 xref).hess k k| ≤ 998 / 1000 := by
    rw [abs_of_nonneg (by linarith)]
    linarith
  linarith

end Hessian

end LFBenchmarks.Mpc
