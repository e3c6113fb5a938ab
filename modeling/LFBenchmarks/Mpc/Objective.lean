import LFBenchmarks.Math.DoubleIntegrator
import LFBenchmarks.Math.LeastSquares
import LFBenchmarks.Mpc.Solver

namespace LFBenchmarks.Mpc

section Trajectory

variable {K : Type*} [Field K] [LinearOrder K] [IsStrictOrderedRing K] (P : Params K)

def pair (x : Vector K nx) : K × K := (position x, velocity x)

theorem plantStep_pair (x : Vector K nx) (u : K) :
    pair (plantStep P x u) = DoubleIntegrator.step P.dt (pair x) u := by
  apply Prod.ext
  · change (1 : K) * x[0] + P.dt * x[1] + (0.5 : K) * P.dt * P.dt * u =
      x[0] + P.dt * x[1] + 0.5 * P.dt * P.dt * u
    ring
  · change (0 : K) * x[0] + (1 : K) * x[1] + P.dt * u = x[1] + P.dt * u
    ring

theorem costLoop_state (x0 xref : Vector K nx) (u : Vector K horizon) (k : ℕ) :
    pair (costLoop P x0 xref u k).2 = DoubleIntegrator.run P.dt (pair x0) (entry u) k := by
  induction k with
  | zero => rfl
  | succ k ih =>
    have hstep : (costLoop P x0 xref u (k + 1)).2 =
        propagate P (costLoop P x0 xref u k).2 (entry u k) := rfl
    rw [hstep, propagate_eq, plantStep_pair, ih]
    rfl

def stageCost (xref : Vector K nx) (x : K × K) (u : K) : K :=
  P.qPos * (x.1 - position xref) ^ 2 + P.qVel * (x.2 - velocity xref) ^ 2 + P.rInput * u ^ 2

theorem costLoop_cost (x0 xref : Vector K nx) (u : Vector K horizon) (k : ℕ) :
    (costLoop P x0 xref u k).1 = ∑ m ∈ Finset.range k,
      stageCost P xref (DoubleIntegrator.run P.dt (pair x0) (entry u) m) (entry u m) := by
  induction k with
  | zero => rfl
  | succ k ih =>
    have hstate := costLoop_state P x0 xref u k
    rw [Finset.sum_range_succ, ← ih, ← hstate]
    simp only [costLoop, stageCost, pair]
    ring

end Trajectory

section Objective

variable {K : Type*} [Field K] (P : Params K)

def weight (m : Fin (horizon + 1)) : K := if m.val < horizon then 1 else 10

/-- The cost as a least-squares problem in the input sequence: position errors, velocity errors
and inputs. -/
def objective (x0 xref : Vector K nx) :
    LeastSquares (Fin horizon) (Fin (horizon + 1) ⊕ Fin (horizon + 1) ⊕ Fin horizon) K where
  weight := Sum.elim (fun m => weight m * P.qPos)
    (Sum.elim (fun m => weight m * P.qVel) (fun _ => P.rInput))
  offset := Sum.elim (fun m => position x0 + m.val * P.dt * velocity x0 - position xref)
    (Sum.elim (fun _ => velocity x0 - velocity xref) (fun _ => 0))
  coeff := Sum.elim (fun m j => if j.val < m.val then P.dt * P.dt * (m.val - j.val - 0.5) else 0)
    (Sum.elim (fun m j => if j.val < m.val then P.dt else 0) (fun k j => if j = k then 1 else 0))

theorem sum_before (m : ℕ) (hm : m ≤ horizon) (f : ℕ → K) :
    ∑ i ∈ Finset.range m, f i = ∑ j : Fin horizon, if j.val < m then f j.val else 0 := by
  rw [← Finset.sum_range (fun i => if i < m then f i else 0), ← Finset.sum_filter]
  refine Finset.sum_congr ?_ (fun _ _ => rfl)
  ext i
  simp only [Finset.mem_range, Finset.mem_filter]
  omega

theorem sum_weight (f : Fin (horizon + 1) → K) : ∑ m, weight m * f m =
    ∑ m : Fin horizon, f m.castSucc + 10 * f (Fin.last horizon) := by
  have hinner (m : Fin horizon) : weight m.castSucc * f m.castSucc = f m.castSucc := by
    have hbefore : m.castSucc.val < horizon := m.isLt
    rw [weight, if_pos hbefore, one_mul]
  have hlast : (weight (Fin.last horizon) : K) = 10 := if_neg (by simp)
  rw [Fin.sum_univ_castSucc, Finset.sum_congr rfl (fun m _ => hinner m), hlast]

theorem residual_input (x0 xref : Vector K nx) (u : Vector K horizon) (k : Fin horizon) :
    (objective P x0 xref).residual u.get (.inr (.inr k)) = u.get k := by
  simp [LeastSquares.residual, objective]

theorem residual_velocity (x0 xref : Vector K nx) (u : Vector K horizon) (m : Fin (horizon + 1)) :
    (objective P x0 xref).residual u.get (.inr (.inl m)) =
      (DoubleIntegrator.run P.dt (pair x0) (entry u) m).2 - xref[1] := by
  rw [DoubleIntegrator.run_velocity, sum_before m.val (by omega), Finset.mul_sum,
    LeastSquares.residual]
  have hterm (j : Fin horizon) : (objective P x0 xref).coeff (.inr (.inl m)) j * u.get j =
      P.dt * if j.val < m.val then entry u j.val else 0 := by
    simp only [objective, Sum.elim_inl, Sum.elim_inr, entry_get]
    split_ifs
    · ring
    · ring
  rw [Finset.sum_congr rfl (fun j _ => hterm j)]
  simp only [objective, Sum.elim_inl, Sum.elim_inr, pair]
  ring

variable [LinearOrder K] [IsStrictOrderedRing K]

theorem residual_position (x0 xref : Vector K nx) (u : Vector K horizon) (m : Fin (horizon + 1)) :
    (objective P x0 xref).residual u.get (.inl m) =
      (DoubleIntegrator.run P.dt (pair x0) (entry u) m).1 - xref[0] := by
  rw [DoubleIntegrator.run_position, sum_before m.val (by omega), Finset.mul_sum,
    LeastSquares.residual]
  have hterm (j : Fin horizon) : (objective P x0 xref).coeff (.inl m) j * u.get j =
      P.dt * P.dt * if j.val < m.val then ((m.val : K) - j.val - 1 / 2) * entry u j.val else 0 := by
    simp only [objective, Sum.elim_inl, entry_get]
    split_ifs
    · ring
    · ring
  rw [Finset.sum_congr rfl (fun j _ => hterm j)]
  simp only [objective, Sum.elim_inl, pair]
  ring

/-- The documented objective: the stage costs along the trajectory and ten times the state cost
of its end. -/
def documentedObjective (x0 xref : Vector K nx) (u : Vector K horizon) : K :=
  let x := DoubleIntegrator.run P.dt (pair x0) (entry u)
  ∑ m : Fin horizon, stageCost P xref (x m) (u.get m) +
    10 * (P.qPos * ((x horizon).1 - position xref) ^ 2 +
      P.qVel * ((x horizon).2 - velocity xref) ^ 2)

theorem computeCost_documented (x0 xref : Vector K nx) (u : Vector K horizon) :
    computeCost P x0 xref u = documentedObjective P x0 xref u := by
  have hend := costLoop_state P x0 xref u horizon
  have hstages : (costLoop P x0 xref u horizon).1 = ∑ m : Fin horizon,
      stageCost P xref (DoubleIntegrator.run P.dt (pair x0) (entry u) m) (u.get m) := by
    rw [costLoop_cost, Finset.sum_range]
    exact Finset.sum_congr rfl (fun m _ => by rw [entry_get])
  have hten : (10.0 : K) = 10 := by norm_num
  rw [documentedObjective, ← hstages, ← hend]
  simp only [computeCost, pair, hten]
  ring

/-- `compute_cost` is the least-squares cost. -/
theorem computeCost_eq (x0 xref : Vector K nx) (u : Vector K horizon) :
    computeCost P x0 xref u = (objective P x0 xref).cost u.get := by
  let x := DoubleIntegrator.run P.dt (pair x0) (entry u)
  have hposition (m : Fin (horizon + 1)) : (objective P x0 xref).weight (.inl m) *
      (objective P x0 xref).residual u.get (.inl m) ^ 2 =
        weight m * (P.qPos * ((x m).1 - xref[0]) ^ 2) := by
    rw [residual_position]
    simp only [objective, Sum.elim_inl, x]
    ring
  have hvelocity (m : Fin (horizon + 1)) : (objective P x0 xref).weight (.inr (.inl m)) *
      (objective P x0 xref).residual u.get (.inr (.inl m)) ^ 2 =
        weight m * (P.qVel * ((x m).2 - xref[1]) ^ 2) := by
    rw [residual_velocity]
    simp only [objective, Sum.elim_inl, Sum.elim_inr, x]
    ring
  have hinput (k : Fin horizon) : (objective P x0 xref).weight (.inr (.inr k)) *
      (objective P x0 xref).residual u.get (.inr (.inr k)) ^ 2 = P.rInput * u.get k ^ 2 := by
    rw [residual_input]
    rfl
  rw [computeCost_documented, documentedObjective, LeastSquares.cost, Fintype.sum_sum_type,
    Fintype.sum_sum_type]
  simp only [hposition, hvelocity, hinput, sum_weight, stageCost, Finset.sum_add_distrib,
    Fin.val_castSucc, Fin.val_last]
  ring

end Objective

end LFBenchmarks.Mpc
