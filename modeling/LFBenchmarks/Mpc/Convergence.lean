import LFBenchmarks.Mpc.Descent

namespace LFBenchmarks.Mpc

open Split (params)

section Distance

variable {K : Type*} [Field K] [LinearOrder K]

def maxDist (u w : Vector K horizon) : K :=
  Finset.univ.sup' Finset.univ_nonempty (fun k : Fin horizon => |u.get k - w.get k|)

theorem maxDist_le_iff (u w : Vector K horizon) (M : K) :
    maxDist u w ≤ M ↔ ∀ k : Fin horizon, |u.get k - w.get k| ≤ M := by
  simp [maxDist]

theorem le_maxDist (u w : Vector K horizon) (k : Fin horizon) :
    |u.get k - w.get k| ≤ maxDist u w := (maxDist_le_iff u w _).mp le_rfl k

end Distance

section Parabola

variable {K : Type*} [Field K] [LinearOrder K] [IsStrictOrderedRing K]

theorem objective_parabolic (x0 xref : Vector K nx) :
    (descent x0 xref).Parabolic (objective params x0 xref).cost :=
  ⟨(objective params x0 xref).cost_update⟩

theorem pass_dist (x0 xref : Vector K nx) (u w : Vector K horizon) (n : ℕ) (k : Fin horizon) :
    |(pass x0 xref)^[n] u.get k - (pass x0 xref)^[n] w.get k| ≤ (999 / 1000) ^ n * maxDist u w :=
  (descent x0 xref).iterate_dist (999 / 1000) (descent_dominant x0 xref) (List.finRange horizon)
    List.mem_finRange (by norm_num) n u.get w.get _ (le_maxDist u w) k

end Parabola

section Convergence

theorem objective_continuous (x0 xref : Vector ℝ nx) :
    Continuous (objective params x0 xref).cost := by
  unfold LeastSquares.cost LeastSquares.residual
  fun_prop

/-- The descent of the solver converges geometrically to the one minimiser of the cost over the
box, from every warm start. -/
theorem descent_converges (x0 xref : Vector ℝ nx) :
    ∃ uStar : Vector ℝ horizon, InBox params uStar ∧
      (∀ u, InBox params u → computeCost params x0 xref uStar ≤ computeCost params x0 xref u) ∧
      (∀ w, InBox params w →
        (∀ u, InBox params u → computeCost params x0 xref w ≤ computeCost params x0 xref u) →
          w = uStar) ∧
      (∀ u, InBox params u →
        maxDist (sweep params x0 xref u) uStar ≤ 0.999 * maxDist u uStar ∧
          maxDist (descend params x0 xref u) uStar ≤
            0.999 ^ (params : Params ℝ).optIter * maxDist u uStar) ∧
      ∀ u, sweep params x0 xref u = u ↔ u = uStar := by
  let D := descent x0 xref
  let f := (objective params x0 xref).cost
  have hdominant := descent_dominant x0 xref
  have hlt : (999 / 1000 : ℝ) < 1 := by norm_num
  have hrate : (0.999 : ℝ) = 999 / 1000 := by norm_num
  obtain ⟨z, hz⟩ := D.exists_minimiser f (objective_continuous x0 xref)
  let uStar : Vector ℝ horizon := Vector.ofFn z
  have hget : uStar.get = z := get_ofFn z
  have hfixed : pass x0 xref z = z :=
    D.minimiser_sweep f (objective_parabolic x0 xref) _ hdominant hlt (List.finRange horizon) z hz
  have hiterate (n : ℕ) : (pass x0 xref)^[n] z = z := Function.iterate_fixed hfixed n
  refine ⟨uStar, ?_, fun u hu => ?_, fun w hw hmin => ?_, fun u hu => ⟨?_, ?_⟩, fun u => ⟨?_, ?_⟩⟩
  · intro k
    rw [hget]
    exact hz.1 k
  · rw [computeCost_eq, computeCost_eq, hget]
    exact hz.2 u.get hu
  · apply get_injective
    rw [hget]
    apply D.minimiser_unique f (objective_parabolic x0 xref) _ hdominant hlt w.get z _ hz
    refine ⟨hw, fun y hy => ?_⟩
    have hle := hmin (Vector.ofFn y) (fun k => by rw [get_ofFn]; exact hy k)
    rw [computeCost_eq, computeCost_eq, get_ofFn] at hle
    exact hle
  · rw [hrate, maxDist_le_iff]
    intro k
    have hdist := pass_dist x0 xref u uStar 1 k
    rw [pow_one, Function.iterate_one, hget, hfixed] at hdist
    rw [sweep_get, hget]
    exact hdist
  · rw [hrate, maxDist_le_iff]
    intro k
    have hdist := pass_dist x0 xref u uStar 50 k
    rw [hget, hiterate] at hdist
    rw [descend_get, hget]
    exact hdist
  · intro hsweep
    apply get_injective
    rw [hget]
    have hu : pass x0 xref u.get = u.get := by rw [← sweep_get, hsweep]
    exact D.sweep_fixed_unique _ hdominant (List.finRange horizon) List.mem_finRange hlt _ _ hu
      hfixed
  · rintro rfl
    apply get_injective
    rw [sweep_get, hget, hfixed]

end Convergence

end LFBenchmarks.Mpc
