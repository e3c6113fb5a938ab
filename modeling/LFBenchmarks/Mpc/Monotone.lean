import LFBenchmarks.Mpc.Convergence

namespace LFBenchmarks.Mpc

open Split (params)

section Monotone

variable {K : Type*} [Field K] [LinearOrder K] [IsStrictOrderedRing K]

theorem objective_weight_nonneg (x0 xref : Vector K nx)
    (m : Fin (horizon + 1) ⊕ Fin (horizon + 1) ⊕ Fin horizon) :
    0 ≤ (objective params x0 xref).weight m := by
  rcases m with m | m | m
  · simp only [objective, Sum.elim_inl, params_eq]
    exact mul_nonneg (weight_nonneg m) (by norm_num)
  · simp only [objective, Sum.elim_inl, Sum.elim_inr, params_eq]
    exact mul_nonneg (weight_nonneg m) (by norm_num)
  · simp only [objective, Sum.elim_inr, params_eq]
    norm_num

/-- A minimiser of `compute_cost` over the admissible sequences, as one of the descent. -/
theorem isMinimiser_iff (x0 xref : Vector K nx) (u : Vector K horizon) (hu : InBox params u) :
    (descent x0 xref).IsMinimiser (objective params x0 xref).cost u.get ↔
      ∀ w, InBox params w → computeCost params x0 xref u ≤ computeCost params x0 xref w := by
  constructor
  · intro hmin w hw
    rw [computeCost_eq, computeCost_eq]
    exact hmin.2 w.get hw
  · intro hmin
    refine ⟨hu, fun w hw => ?_⟩
    have hle := hmin (Vector.ofFn w) (fun k => by rw [get_ofFn]; exact hw k)
    rw [computeCost_eq, computeCost_eq, get_ofFn] at hle
    exact hle

/-- No update of the descent loops raises the cost, and a pass that leaves it starts at the
minimum. -/
theorem descent_monotone (x0 xref : Vector K nx) (u : Vector K horizon) (hu : InBox params u) :
    let cost := computeCost params x0 xref
    (∀ k : Fin horizon, cost (updateEntry params x0 xref u k) ≤ cost u ∧
      ((updateEntry params x0 xref u k).get k ≠ u.get k →
        cost (updateEntry params x0 xref u k) < cost u)) ∧
    (cost (sweep params x0 xref u) = cost u ↔ ∀ w, InBox params w → cost u ≤ cost w) ∧
    cost (descend params x0 xref u) ≤ cost u := by
  intro cost
  let D := descent x0 xref
  let f := (objective params x0 xref).cost
  have hf : D.Parabolic f := objective_parabolic x0 xref
  have hdominant : D.Dominant (999 / 1000) := descent_dominant x0 xref
  have hlt : (999 / 1000 : K) < 1 := by norm_num
  have hcost (w : Vector K horizon) : cost w = f w.get := computeCost_eq params x0 xref w
  have hbox : D.InBox u.get := hu
  refine ⟨fun k => ⟨?_, fun hmoved => ?_⟩, ?_, ?_⟩
  · rw [hcost, hcost, updateEntry_get]
    exact D.cost_step_le f hf _ hdominant hlt u.get k hbox
  · rw [hcost, hcost, updateEntry_get]
    by_contra hkeep
    have hstep := D.step_eq_of_cost f hf _ hdominant hlt u.get k hbox (not_lt.mp hkeep)
    have hget : (updateEntry params x0 xref u k).get k = u.get k := by
      rw [updateEntry_get]
      exact congrFun hstep k
    exact hmoved hget
  · rw [← isMinimiser_iff x0 xref u hu, hcost, hcost, sweep_get]
    constructor
    · intro heq
      have hstep := D.step_eq_of_sweep_cost f hf _ hdominant hlt (List.finRange horizon) u.get hbox
        heq.ge
      exact D.minimiser_of_step_eq f
        ((objective params x0 xref).cost_tangent (objective_weight_nonneg x0 xref)) u.get hbox
        (fun k => hstep k (List.mem_finRange k))
    · intro hmin
      exact congrArg f (D.minimiser_sweep f hf _ hdominant hlt (List.finRange horizon) u.get hmin)
  · rw [hcost, hcost, descend_get]
    exact D.iterate_cost_le f hf _ hdominant hlt (List.finRange horizon) 50 u.get hbox

theorem descent_monotone_zero :
    let u : Vector ℚ horizon := Vector.replicate horizon 0
    computeCost params #v[0, 0] #v[1, 0] (descend params #v[0, 0] #v[1, 0] u) ≤
      computeCost params #v[0, 0] #v[1, 0] u :=
  (descent_monotone #v[0, 0] #v[1, 0] (Vector.replicate horizon 0) zero_inBox).2.2

end Monotone

end LFBenchmarks.Mpc
