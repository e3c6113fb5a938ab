import LFBenchmarks.Mpc.Objective

namespace LFBenchmarks.Mpc

open Split (params)

section Gradient

variable {K : Type*} [Field K]

theorem sum_later (k : Fin horizon) (f : ℕ → K) :
    ∑ m ∈ Finset.Ioc k.val horizon, f m =
      ∑ m : Fin (horizon + 1), if k.val < m.val then f m.val else 0 := by
  rw [← Finset.sum_range (fun m => if k.val < m then f m else 0), ← Finset.sum_filter]
  refine Finset.sum_congr ?_ (fun _ _ => rfl)
  ext m
  simp only [Finset.mem_Ioc, Finset.mem_filter, Finset.mem_range]
  omega

variable [LinearOrder K] [IsStrictOrderedRing K] (P : Params K)

/-- Derivative of the documented objective in input `k`: its own term, and what it moves at every
later step, the last one weighted ten times. -/
def gradient (x0 xref : Vector K nx) (u : Vector K horizon) (k : Fin horizon) : K :=
  let x := DoubleIntegrator.run P.dt (pair x0) (entry u)
  2.0 * P.rInput * u.get k +
    ∑ m ∈ Finset.Ioc k.val horizon, (if m < horizon then 1 else 10.0) * 2.0 *
      (P.qPos * ((x m).1 - position xref) * P.dt ^ 2 * (m - k.val - 0.5) +
        P.qVel * ((x m).2 - velocity xref) * P.dt)

theorem gradient_eq (x0 xref : Vector K nx) (u : Vector K horizon) (k : Fin horizon) :
    let x := DoubleIntegrator.run P.dt (pair x0) (entry u)
    gradient P x0 xref u k = 2 * P.rInput * u.get k +
      ∑ m ∈ Finset.Ioc k.val horizon, (if m < horizon then 1 else 10) * 2 *
        (P.qPos * ((x m).1 - position xref) * P.dt ^ 2 * (m - k.val - 1 / 2) +
          P.qVel * ((x m).2 - velocity xref) * P.dt) := by
  have htwo : (2.0 : K) = 2 := by norm_num
  have hten : (10.0 : K) = 10 := by norm_num
  have hhalf : (0.5 : K) = 1 / 2 := by norm_num
  simp only [gradient, htwo, hten, hhalf]

theorem grad_eq (x0 xref : Vector K nx) (u : Vector K horizon) (k : Fin horizon) :
    (objective P x0 xref).grad u.get k = gradient P x0 xref u k := by
  let x := DoubleIntegrator.run P.dt (pair x0) (entry u)
  let p := objective P x0 xref
  have hposition (m : Fin (horizon + 1)) :
      2 * p.weight (.inl m) * p.coeff (.inl m) k * p.residual u.get (.inl m) =
        if k.val < m.val then weight m * 2 *
          (P.qPos * ((x m).1 - position xref) * P.dt ^ 2 * (m.val - k.val - 1 / 2)) else 0 := by
    rw [residual_position]
    simp only [p, objective, Sum.elim_inl]
    split_ifs
    · ring
    · ring
  have hvelocity (m : Fin (horizon + 1)) :
      2 * p.weight (.inr (.inl m)) * p.coeff (.inr (.inl m)) k *
          p.residual u.get (.inr (.inl m)) =
        if k.val < m.val then weight m * 2 *
          (P.qVel * ((x m).2 - velocity xref) * P.dt) else 0 := by
    rw [residual_velocity]
    simp only [p, objective, Sum.elim_inl, Sum.elim_inr]
    split_ifs
    · ring
    · ring
  have hinput : ∑ j : Fin horizon, 2 * p.weight (.inr (.inr j)) * p.coeff (.inr (.inr j)) k *
      p.residual u.get (.inr (.inr j)) = 2 * P.rInput * u.get k := by
    rw [Finset.sum_eq_single k]
    · rw [residual_input]
      simp [p, objective]
    · intro j _ hj
      simp [p, objective, Ne.symm hj]
    · simp
  have hsplit : p.grad u.get k = 2 * P.rInput * u.get k + ∑ m : Fin (horizon + 1),
      if k.val < m.val then weight m * 2 *
        (P.qPos * ((x m).1 - position xref) * P.dt ^ 2 * (m.val - k.val - 1 / 2) +
          P.qVel * ((x m).2 - velocity xref) * P.dt) else 0 := by
    rw [LeastSquares.grad, Fintype.sum_sum_type, Fintype.sum_sum_type, hinput]
    simp only [hposition, hvelocity]
    rw [← add_assoc, ← Finset.sum_add_distrib, add_comm]
    congr 1
    refine Finset.sum_congr rfl (fun m _ => ?_)
    split_ifs
    · ring
    · ring
  rw [gradient_eq, sum_later]
  exact hsplit

theorem central_difference_eq (x0 xref : Vector K nx) (u : Vector K horizon) (k : Fin horizon)
    (eps : K) (heps : eps ≠ 0) :
    (computeCost P x0 xref (u.set k.val (u.get k + eps) k.isLt) -
      computeCost P x0 xref (u.set k.val (u.get k - eps) k.isLt)) / (2.0 * eps) =
        gradient P x0 xref u k := by
  have htwo : (2.0 : K) = 2 := by norm_num
  rw [htwo, computeCost_eq, computeCost_eq, get_set, get_set, ← grad_eq]
  exact (objective P x0 xref).central_difference u.get k eps heps

end Gradient

section Exact

/-- The central difference of `mpc_solve` is the partial derivative of the documented objective,
whatever the step. -/
theorem central_difference_exact (x0 xref : Vector ℝ nx) (u : Vector ℝ horizon) (k : Fin horizon)
    (eps : ℝ) (heps : eps ≠ 0) :
    let P : Params ℝ := params
    let x := DoubleIntegrator.run P.dt (pair x0) (entry u)
    let slope := 2.0 * P.rInput * u.get k +
      ∑ m ∈ Finset.Ioc k.val horizon, (if m < horizon then 1 else 10.0) * 2.0 *
        (P.qPos * ((x m).1 - position xref) * P.dt ^ 2 * (m - k.val - 0.5) +
          P.qVel * ((x m).2 - velocity xref) * P.dt)
    (computeCost P x0 xref (u.set k.val (u.get k + eps) k.isLt) -
      computeCost P x0 xref (u.set k.val (u.get k - eps) k.isLt)) / (2.0 * eps) = slope ∧
    centralDifference { P with eps := eps } x0 xref u k = slope ∧
    HasDerivAt (fun t => documentedObjective P x0 xref (u.set k.val t k.isLt)) slope
      (u.get k) := by
  intro P x slope
  have hdiff := central_difference_eq P x0 xref u k eps heps
  refine ⟨hdiff, hdiff, ?_⟩
  · have hobjective (t : ℝ) : documentedObjective P x0 xref (u.set k.val t k.isLt) =
        (objective P x0 xref).cost (Function.update u.get k t) := by
      rw [← computeCost_documented, computeCost_eq, get_set]
    rw [funext hobjective]
    exact ((objective P x0 xref).hasDerivAt_cost u.get k).congr_deriv (grad_eq P x0 xref u k)

theorem central_difference_exact_one :
    let u : Vector ℝ horizon := Vector.replicate horizon 0
    let k : Fin horizon := 0
    HasDerivAt (fun t => documentedObjective params #v[1, 0] #v[0, 0] (u.set k.val t k.isLt))
      ((computeCost params #v[1, 0] #v[0, 0] (u.set k.val (u.get k + 1) k.isLt) -
        computeCost params #v[1, 0] #v[0, 0] (u.set k.val (u.get k - 1) k.isLt)) / (2.0 * 1))
      (u.get k) := by
  intro u k
  obtain ⟨hdiff, -, hderiv⟩ :=
    central_difference_exact #v[1, 0] #v[0, 0] u k 1 one_ne_zero
  rw [hdiff]
  exact hderiv

end Exact

end LFBenchmarks.Mpc
