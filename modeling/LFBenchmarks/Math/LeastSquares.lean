import Mathlib

namespace LFBenchmarks

/-- A weighted least-squares problem: residual `m` at `u` is `offset m + ∑ j, coeff m j * u j`. -/
structure LeastSquares (ι κ K : Type*) where
  weight : κ → K
  offset : κ → K
  coeff : κ → ι → K

namespace LeastSquares

section Cost

variable {ι κ K : Type*} [Fintype ι] [Field K] (p : LeastSquares ι κ K)

def residual (u : ι → K) (m : κ) : K := p.offset m + ∑ j, p.coeff m j * u j

theorem residual_sub (u w : ι → K) (m : κ) :
    p.residual u m - p.residual w m = ∑ j, p.coeff m j * (u j - w j) := by
  have hsum : ∑ j, p.coeff m j * (u j - w j) =
      ∑ j, p.coeff m j * u j - ∑ j, p.coeff m j * w j := by
    rw [← Finset.sum_sub_distrib]
    exact Finset.sum_congr rfl (fun j _ => by ring)
  rw [hsum, residual, residual]
  ring

variable [Fintype κ]

def cost (u : ι → K) : K := ∑ m, p.weight m * p.residual u m ^ 2

def grad (u : ι → K) (k : ι) : K := ∑ m, 2 * p.weight m * p.coeff m k * p.residual u m

def hess (k j : ι) : K := ∑ m, 2 * p.weight m * p.coeff m k * p.coeff m j

theorem grad_sub (u w : ι → K) (k : ι) :
    p.grad u k - p.grad w k = ∑ j, p.hess k j * (u j - w j) := by
  have hterm (m : κ) : 2 * p.weight m * p.coeff m k * p.residual u m -
      2 * p.weight m * p.coeff m k * p.residual w m =
        ∑ j, 2 * p.weight m * p.coeff m k * p.coeff m j * (u j - w j) := by
    rw [← mul_sub, residual_sub, Finset.mul_sum]
    exact Finset.sum_congr rfl (fun j _ => by ring)
  calc p.grad u k - p.grad w k
      = ∑ m, ∑ j, 2 * p.weight m * p.coeff m k * p.coeff m j * (u j - w j) := by
        rw [grad, grad, ← Finset.sum_sub_distrib]
        exact Finset.sum_congr rfl (fun m _ => hterm m)
    _ = ∑ j, p.hess k j * (u j - w j) := by
        rw [Finset.sum_comm]
        exact Finset.sum_congr rfl (fun j _ => by rw [hess, Finset.sum_mul])

/-- The cost is its tangent plus the weighted squares of the residual changes. -/
theorem cost_expand (u w : ι → K) :
    p.cost w = p.cost u + ∑ k, p.grad u k * (w k - u k) +
      ∑ m, p.weight m * (p.residual w m - p.residual u m) ^ 2 := by
  have hterm (m : κ) : p.weight m * p.residual w m ^ 2 =
      p.weight m * p.residual u m ^ 2 +
        ∑ k, 2 * p.weight m * p.coeff m k * p.residual u m * (w k - u k) +
          p.weight m * (p.residual w m - p.residual u m) ^ 2 := by
    have hsum : ∑ k, 2 * p.weight m * p.coeff m k * p.residual u m * (w k - u k) =
        2 * p.weight m * p.residual u m * (p.residual w m - p.residual u m) := by
      rw [residual_sub, Finset.mul_sum]
      exact Finset.sum_congr rfl (fun k _ => by ring)
    rw [hsum]
    ring
  have htangent : ∑ m, ∑ k, 2 * p.weight m * p.coeff m k * p.residual u m * (w k - u k) =
      ∑ k, p.grad u k * (w k - u k) := by
    rw [Finset.sum_comm]
    exact Finset.sum_congr rfl (fun k _ => by rw [grad, Finset.sum_mul])
  rw [cost, cost, Finset.sum_congr rfl (fun m _ => hterm m), Finset.sum_add_distrib,
    Finset.sum_add_distrib, htangent]

end Cost

section Convex

variable {ι κ K : Type*} [Fintype ι] [Fintype κ] [Field K] [LinearOrder K] [IsStrictOrderedRing K]
variable (p : LeastSquares ι κ K)

/-- With weights that are not negative the cost lies above its tangents. -/
theorem cost_tangent (hp : ∀ m, 0 ≤ p.weight m) (u w : ι → K) :
    p.cost u + ∑ k, p.grad u k * (w k - u k) ≤ p.cost w := by
  have hsquares : 0 ≤ ∑ m, p.weight m * (p.residual w m - p.residual u m) ^ 2 :=
    Finset.sum_nonneg (fun m _ => mul_nonneg (hp m) (sq_nonneg _))
  have hexpand := p.cost_expand u w
  linarith

end Convex

section Axis

variable {ι κ K : Type*} [Fintype ι] [DecidableEq ι] [Field K] (p : LeastSquares ι κ K)

theorem residual_update (u : ι → K) (k : ι) (t : K) (m : κ) :
    p.residual (Function.update u k (u k + t)) m = p.residual u m + p.coeff m k * t := by
  have hsum : ∑ j, p.coeff m j * (Function.update u k (u k + t) j - u j) = p.coeff m k * t := by
    rw [Finset.sum_eq_single k]
    · simp
    · intro j _ hj
      simp [Function.update_of_ne hj]
    · simp
  have hsub := p.residual_sub (Function.update u k (u k + t)) u m
  rw [hsum] at hsub
  linear_combination hsub

variable [Fintype κ]

/-- Along an axis the cost is a parabola. -/
theorem cost_update [CharZero K] (u : ι → K) (k : ι) (t : K) :
    p.cost (Function.update u k (u k + t)) = p.cost u + t * p.grad u k + t ^ 2 / 2 * p.hess k k := by
  have hterm (m : κ) : p.weight m * p.residual (Function.update u k (u k + t)) m ^ 2 =
      p.weight m * p.residual u m ^ 2 + t * (2 * p.weight m * p.coeff m k * p.residual u m) +
        t ^ 2 / 2 * (2 * p.weight m * p.coeff m k * p.coeff m k) := by
    rw [residual_update]
    ring
  rw [cost, Finset.sum_congr rfl (fun m _ => hterm m), Finset.sum_add_distrib,
    Finset.sum_add_distrib, ← Finset.mul_sum, ← Finset.mul_sum]
  rfl

/-- The central difference of the cost is its gradient, whatever the step. -/
theorem central_difference [CharZero K] (u : ι → K) (k : ι) (eps : K) (heps : eps ≠ 0) :
    (p.cost (Function.update u k (u k + eps)) - p.cost (Function.update u k (u k - eps))) /
      (2 * eps) = p.grad u k := by
  have hplus := p.cost_update u k eps
  have hminus := p.cost_update u k (-eps)
  rw [← sub_eq_add_neg] at hminus
  rw [hplus, hminus]
  field_simp
  ring

end Axis

section Derivative

variable {ι κ : Type*} [Fintype ι] [DecidableEq ι] [Fintype κ] (p : LeastSquares ι κ ℝ)

/-- The gradient is what it is called. -/
theorem hasDerivAt_cost (u : ι → ℝ) (k : ι) :
    HasDerivAt (fun t => p.cost (Function.update u k t)) (p.grad u k) (u k) := by
  have hparabola (t : ℝ) : p.cost (Function.update u k t) =
      p.cost u + ((t - u k) * p.grad u k + (t - u k) ^ 2 * (p.hess k k / 2)) := by
    have hupdate := p.cost_update u k (t - u k)
    rw [add_sub_cancel] at hupdate
    rw [hupdate]
    ring
  have hshift : HasDerivAt (fun t => t - u k) 1 (u k) := (hasDerivAt_id (u k)).sub_const (u k)
  have hlinear := hshift.mul_const (p.grad u k)
  have hsquare := (hshift.pow 2).mul_const (p.hess k k / 2)
  rw [funext hparabola]
  refine ((hlinear.add hsquare).const_add (p.cost u)).congr_deriv ?_
  simp

end Derivative

end LeastSquares

end LFBenchmarks
