import LFBenchmarks.Mpc.Descent

namespace LFBenchmarks.Mpc

open Split (params)

section Mirror

variable {K : Type*} [Field K]

def negate {n : ℕ} (x : Vector K n) : Vector K n := x.map (fun a => -a)

theorem negate_getElem {n : ℕ} (x : Vector K n) (i : ℕ) (hi : i < n) : (negate x)[i] = -x[i] := by
  simp [negate]

theorem residual_negate (x0 xref : Vector K nx) (u : Fin horizon → K)
    (m : Fin (horizon + 1) ⊕ Fin (horizon + 1) ⊕ Fin horizon) :
    (objective params (negate x0) (negate xref)).residual (-u) m =
      -(objective params x0 xref).residual u m := by
  have hoffset : (objective params (negate x0) (negate xref)).offset m =
      -(objective params x0 xref).offset m := by
    rcases m with m | m | m
    · simp only [objective, Sum.elim_inl, negate_getElem]
      ring
    · simp only [objective, Sum.elim_inl, Sum.elim_inr, negate_getElem]
      ring
    · simp only [objective, Sum.elim_inr, neg_zero]
  have hsum : ∑ j, (objective params x0 xref).coeff m j * (-u) j =
      -∑ j, (objective params x0 xref).coeff m j * u j := by
    rw [← Finset.sum_neg_distrib]
    exact Finset.sum_congr rfl (fun j _ => mul_neg _ _)
  have hcoeff : (objective params (negate x0) (negate xref)).coeff =
      (objective params x0 xref).coeff := rfl
  rw [LeastSquares.residual, LeastSquares.residual, hoffset, hcoeff, hsum]
  ring

variable [LinearOrder K] [IsStrictOrderedRing K]

/-- Turning all signs of the measurement and of the reference mirrors the descent. -/
theorem descent_mirrors (x0 xref : Vector K nx) :
    (descent x0 xref).Mirrors (descent (negate x0) (negate xref)) where
  lo := by rw [descent_lo, descent_hi]
  hi := by rw [descent_lo, descent_hi, neg_neg]
  rate := rfl
  grad u k := by
    change (objective params (negate x0) (negate xref)).grad (-u) k =
      -(objective params x0 xref).grad u k
    rw [LeastSquares.grad, LeastSquares.grad, ← Finset.sum_neg_distrib]
    refine Finset.sum_congr rfl (fun m _ => ?_)
    have hweight : (objective params (negate x0) (negate xref)).weight m =
        (objective params x0 xref).weight m := rfl
    have hcoeff : (objective params (negate x0) (negate xref)).coeff m k =
        (objective params x0 xref).coeff m k := rfl
    rw [residual_negate, hweight, hcoeff]
    ring

end Mirror

section Translate

variable {K : Type*} [Field K]

/-- The state `x` seen from an origin `c` to the left. -/
def translate (c : K) (x : Vector K nx) : Vector K nx := #v[position x + c, velocity x]

/-- The controller sees positions only relative to the reference. -/
theorem objective_translate (c : K) (x0 xref : Vector K nx) :
    objective params (translate c x0) (translate c xref) = objective params x0 xref := by
  have hoffset : (objective params (translate c x0) (translate c xref)).offset =
      (objective params x0 xref).offset := by
    funext m
    rcases m with m | m | m
    · change position x0 + c + m.val * params.dt * velocity x0 - (position xref + c) =
        position x0 + m.val * params.dt * velocity x0 - position xref
      ring
    · rfl
    · rfl
  have hparts : objective params (translate c x0) (translate c xref) =
      { objective params x0 xref with
        offset := (objective params (translate c x0) (translate c xref)).offset } := rfl
  rw [hparts, hoffset]

variable [LinearOrder K] [IsStrictOrderedRing K]

theorem descend_translate (c : K) (x0 xref : Vector K nx) (u : Vector K horizon) :
    descend params (translate c x0) (translate c xref) u = descend params x0 xref u := by
  have hcost : computeCost params (translate c x0) (translate c xref) =
      computeCost params x0 xref := by
    funext w
    rw [computeCost_eq, computeCost_eq, objective_translate]
  have hupdate : updateEntry params (translate c x0) (translate c xref) =
      updateEntry params x0 xref := by
    funext w k
    simp only [updateEntry, centralDifference, hcost]
  have hsweep : sweep params (translate c x0) (translate c xref) = sweep params x0 xref := by
    funext w
    simp only [sweep, hupdate]
  rw [descend, descend, hsweep]

theorem mpcSolve_translate (c : K) (x0 xref : Vector K nx) (u : Vector K horizon) :
    Split.mpcSolve (translate c x0) (translate c xref) u = Split.mpcSolve x0 xref u := by
  simp only [Split.mpcSolve, descend_translate]

end Translate

section Negate

variable {K : Type*} [Field K]

theorem negate_get {n : ℕ} (u : Vector K n) : (negate u).get = -u.get := by
  funext k
  exact negate_getElem u k.val k.isLt

theorem shift_negate (u : Vector K horizon) : shift (negate u) = negate (shift u) := by
  apply get_injective
  funext k
  rw [shift_get, negate_get, Pi.neg_apply, shift_get, entry, entry]
  split_ifs
  · exact negate_getElem u _ _
  · exact neg_zero.symm

variable [LinearOrder K] [IsStrictOrderedRing K]

theorem descend_negate (x0 xref : Vector K nx) (u : Vector K horizon) :
    descend params (negate x0) (negate xref) (negate u) = negate (descend params x0 xref u) := by
  apply get_injective
  rw [descend_get, negate_get, negate_get, descend_get]
  exact (descent_mirrors x0 xref).iterate (List.finRange horizon) 50 u.get

theorem mpcSolve_negate (x0 xref : Vector K nx) (u : Vector K horizon) :
    Split.mpcSolve (negate x0) (negate xref) (negate u) =
      (-(Split.mpcSolve x0 xref u).1, negate (Split.mpcSolve x0 xref u).2) := by
  simp only [Split.mpcSolve, descend_negate, shift_negate]
  exact congrArg (·, _) (negate_getElem _ _ _)

end Negate

section Calls

variable {K : Type*} [Field K] [LinearOrder K]

/-- Successive calls of `mpc_solve` from the stored sequence `u`: the inputs they return and the
sequence stored after the last one. -/
def Split.mpcCalls : List (Vector K nx × Vector K nx) → Vector K horizon → List K × Vector K horizon
  | [], u => ([], u)
  | (x0, xref) :: calls, u =>
    let r := Split.mpcSolve x0 xref u
    let rest := Split.mpcCalls calls r.2
    (r.1 :: rest.1, rest.2)

variable [IsStrictOrderedRing K]

theorem mpcCalls_translate (c : K) (calls : List (Vector K nx × Vector K nx))
    (u : Vector K horizon) :
    Split.mpcCalls (calls.map (Prod.map (translate c) (translate c))) u = Split.mpcCalls calls u := by
  induction calls generalizing u with
  | nil => rfl
  | cons call calls ih =>
    obtain ⟨x0, xref⟩ := call
    simp only [List.map_cons, Prod.map_apply, Split.mpcCalls, mpcSolve_translate, ih]

theorem mpcCalls_negate (calls : List (Vector K nx × Vector K nx)) (u : Vector K horizon) :
    Split.mpcCalls (calls.map (Prod.map negate negate)) (negate u) =
      ((Split.mpcCalls calls u).1.map (fun a => -a), negate (Split.mpcCalls calls u).2) := by
  induction calls generalizing u with
  | nil => rfl
  | cons call calls ih =>
    obtain ⟨x0, xref⟩ := call
    simp only [List.map_cons, Prod.map_apply, Split.mpcCalls, mpcSolve_negate, ih]

/-- The controller does not know where the origin is, nor which side is the positive one. -/
theorem controller_symmetric (calls : List (Vector K nx × Vector K nx)) :
    let zero := Vector.replicate horizon 0
    let r := Split.mpcCalls calls zero
    (∀ c : K, Split.mpcCalls (calls.map (Prod.map (translate c) (translate c))) zero = r) ∧
    Split.mpcCalls (calls.map (Prod.map negate negate)) zero = (r.1.map (fun a => -a), negate r.2) := by
  intro zero r
  have hzero : negate zero = zero := by simp [negate, zero]
  refine ⟨fun c => mpcCalls_translate c calls zero, ?_⟩
  have hnegate := mpcCalls_negate calls zero
  rwa [hzero] at hnegate

/-- Two calls on the way to a reference, two units further on and the other way round. -/
theorem controller_symmetric_two :
    let calls : List (Vector ℚ nx × Vector ℚ nx) :=
      [(#v[0, 0], #v[1, 0]), (#v[1 / 10, 2], #v[1, 0])]
    let onward : List (Vector ℚ nx × Vector ℚ nx) :=
      [(#v[2, 0], #v[3, 0]), (#v[21 / 10, 2], #v[3, 0])]
    let turned : List (Vector ℚ nx × Vector ℚ nx) :=
      [(#v[0, 0], #v[-1, 0]), (#v[-1 / 10, -2], #v[-1, 0])]
    let zero := Vector.replicate horizon 0
    let r := Split.mpcCalls calls zero
    Split.mpcCalls onward zero = r ∧
      Split.mpcCalls turned zero = (r.1.map (fun a => -a), negate r.2) := by
  intro calls onward turned zero r
  obtain ⟨hshift, hmirror⟩ := controller_symmetric calls
  have honward : calls.map (Prod.map (translate 2) (translate 2)) = onward := by decide +kernel
  have hturned : calls.map (Prod.map negate negate) = turned := by decide +kernel
  rw [← honward, ← hturned]
  exact ⟨hshift 2, hmirror⟩

end Calls

end LFBenchmarks.Mpc
