import LFBenchmarks.Mpc.ClosedLoop
import LFBenchmarks.Mpc.Symmetry

namespace LFBenchmarks.Mpc

open Split (params)

section Rest

variable {K : Type*} [Field K] [LinearOrder K] [IsStrictOrderedRing K]

theorem grad_rest (x0 xref : Vector K nx) (hv : x0[1] = 0) (hr : xref[1] = 0) (k : Fin horizon) :
    ∃ beta, 1 / 10000 ≤ beta ∧ beta ≤ 1 / 250 ∧
      (descent x0 xref).grad 0 k = beta * (x0[0] - xref[0]) := by
  let c := (objective params x0 xref).coeff
  have hresidual (m) : (objective params x0 xref).residual 0 m = (objective params x0 xref).offset m := by
    simp [LeastSquares.residual]
  have hc (m : Fin (horizon + 1)) := (coeff_bounds x0 xref m k).1
  refine ⟨∑ m, weight m * (20 * c (.inl m) k), ?_, ?_, ?_⟩
  · have hlast : 1 / 2000000 ≤ c (.inl (Fin.last horizon)) k := by
      have hk : (k.val : K) + 1 ≤ 10 := by exact_mod_cast k.isLt
      simp only [c, objective, Sum.elim_inl, params_eq, Fin.val_last, if_pos k.isLt]
      push_cast
      linarith
    have hterm : weight (Fin.last horizon) * (20 * c (.inl (Fin.last horizon)) k) ≤
        ∑ m, weight m * (20 * c (.inl m) k) :=
      Finset.single_le_sum (f := fun m => weight m * (20 * c (.inl m) k))
        (fun m _ => mul_nonneg (weight_nonneg m) (by linarith [(hc m).1])) (Finset.mem_univ _)
    have hweight : (weight (Fin.last horizon) : K) = 10 := if_neg (by simp)
    rw [hweight] at hterm
    linarith
  · calc ∑ m, weight m * (20 * c (.inl m) k)
        ≤ ∑ m : Fin (horizon + 1), weight m * (1 / 5000) := Finset.sum_le_sum
          (fun m _ => mul_le_mul_of_nonneg_left (by linarith [(hc m).2]) (weight_nonneg m))
      _ = 1 / 250 := by
          rw [← Finset.sum_mul, weight_total]
          norm_num
  · have hposition (m : Fin (horizon + 1)) : 2 * (objective params x0 xref).weight (.inl m) *
        c (.inl m) k * (objective params x0 xref).offset (.inl m) =
          weight m * (20 * c (.inl m) k) * (x0[0] - xref[0]) := by
      simp only [objective, Sum.elim_inl, params_eq, hv]
      ring
    have hvelocity (m : Fin (horizon + 1)) :
        (objective params x0 xref).offset (.inr (.inl m)) = 0 := by
      simp only [objective, Sum.elim_inl, Sum.elim_inr, hv, hr, sub_zero]
    have hinput (i : Fin horizon) : (objective params x0 xref).offset (.inr (.inr i)) = 0 := rfl
    change (objective params x0 xref).grad 0 k = _
    rw [LeastSquares.grad, Fintype.sum_sum_type, Fintype.sum_sum_type, Finset.sum_mul]
    simp only [hresidual, hvelocity, hinput, mul_zero, Finset.sum_const_zero, add_zero]
    exact Finset.sum_congr rfl (fun m _ => hposition m)

theorem grad_rest_bounds (x0 xref : Vector K nx) (hv : x0[1] = 0) (hr : xref[1] = 0)
    (hd : (0 : K) ≤ x0[0] - xref[0]) (k : Fin horizon) :
    (x0[0] - xref[0]) / 10000 ≤ (descent x0 xref).grad 0 k ∧
      |(descent x0 xref).grad 0 k| ≤ (x0[0] - xref[0]) / 250 := by
  obtain ⟨beta, hlo, hhi, hgrad⟩ := grad_rest x0 xref hv hr k
  have hbeta : 0 ≤ beta := le_trans (by norm_num) hlo
  have hbelow := mul_le_mul_of_nonneg_right hlo hd
  have habove := mul_le_mul_of_nonneg_right hhi hd
  rw [hgrad, abs_of_nonneg (mul_nonneg hbeta hd)]
  constructor
  · linarith
  · linarith

theorem descent_around_zero (x0 xref : Vector K nx) :
    (descent x0 xref).lo < 0 ∧ 0 < (descent x0 xref).hi := by
  rw [descent_lo, descent_hi]
  constructor
  · norm_num
  · norm_num

/-- What a tick that changes nothing says about the warm start `W`: the plan it leads to begins
with zero, and is the warm start one entry later. -/
structure Cycle (x0 xref : Vector K nx) (W : Fin horizon → K) : Prop where
  first : (pass x0 xref)^[50] W 0 = 0
  shifted : ∀ k : Fin horizon,
    W k = if h : k.val + 1 < horizon then (pass x0 xref)^[50] W ⟨k.val + 1, h⟩ else 0

theorem Cycle.mirror {x0 xref : Vector K nx} {W : Fin horizon → K} (h : Cycle x0 xref W) :
    Cycle (negate x0) (negate xref) (-W) := by
  have hiter := (descent_mirrors x0 xref).iterate (List.finRange horizon) 50 W
  constructor
  · rw [hiter, Pi.neg_apply, h.first, neg_zero]
  · intro k
    rw [hiter, Pi.neg_apply, h.shifted k]
    split_ifs
    · rfl
    · exact neg_zero

variable {x0 xref : Vector K nx} {W : Fin horizon → K}

/-- A warm start that comes back is small against the offset. -/
theorem Cycle.small (h : Cycle x0 xref W) (hv : x0[1] = 0) (hr : xref[1] = 0)
    (hd : (0 : K) ≤ x0[0] - xref[0]) (j : Fin horizon) : |W j| ≤ (x0[0] - xref[0]) / 25 := by
  let D := descent x0 xref
  let d := x0[0] - xref[0]
  have hG : ∀ k, |D.grad 0 k| ≤ d / 250 := fun k => (grad_rest_bounds x0 xref hv hr hd k).2
  obtain ⟨hlo, hhi⟩ : D.lo < 0 ∧ 0 < D.hi := descent_around_zero x0 xref
  obtain ⟨i, hi⟩ := Finite.exists_max (fun j => |W j|)
  refine (hi j).trans ?_
  by_contra hlarge
  have hlarge : d / 25 < |W i| := not_le.mp hlarge
  have hrate : D.rate = 1 / 100 := descent_rate x0 xref
  have hball : 999 / 1000 * |W i| + D.rate * (d / 250) ≤ |W i| := by
    rw [hrate]
    linarith
  obtain ⟨-, hplan⟩ := D.iterate_bound _ (descent_dominant x0 xref) hlo hhi |W i| (d / 250) hG hball
    (List.finRange horizon) List.mem_finRange 49 W hi
  have hback : |W i| ≤ 999 / 1000 * |W i| + D.rate * (d / 250) := by
    have hi' := h.shifted i
    split_ifs at hi' with hlt
    · calc |W i| = |(pass x0 xref)^[50] W ⟨i.val + 1, hlt⟩| := congrArg abs hi'
        _ ≤ 999 / 1000 * |W i| + D.rate * (d / 250) := hplan _
    · have hd' : 0 ≤ d := hd
      rw [hi', abs_zero] at hlarge
      linarith
  rw [hrate] at hback
  linarith

/-- A pull to one side drives every input there that is not already on the other side. -/
theorem pass_neg_of (G : K) (hG : ∀ j, |(descent x0 xref).grad 0 j| ≤ G) (k : Fin horizon)
    (hpull : 9 / 20000 * (10 * G) < (descent x0 xref).grad 0 k) (hW : ∀ j, |W j| ≤ 10 * G)
    (hk : W k ≤ 0) : (pass x0 xref)^[50] W k < 0 := by
  let D := descent x0 xref
  obtain ⟨hlo, hhi⟩ : D.lo < 0 ∧ 0 < D.hi := descent_around_zero x0 xref
  have hrate : D.rate = 1 / 100 := descent_rate x0 xref
  have hpos : 0 ≤ 10 * G := (abs_nonneg _).trans (hW k)
  have hball : 999 / 1000 * (10 * G) + D.rate * G ≤ 10 * G := by
    rw [hrate]
    linarith
  have hdiag : D.rate * D.hess k k ≤ 1 := by
    have hdiag' : D.hess k k ≤ 1 / 5 + 1 / 20000 := (hess_diag x0 xref k).2
    rw [hrate]
    linarith
  have hdrift : (∑ j ∈ Finset.univ.erase k, |D.hess k j|) * (10 * G) < D.grad 0 k :=
    (mul_le_mul_of_nonneg_right (hess_row x0 xref k) hpos).trans_lt hpull
  exact D.iterate_neg _ (descent_dominant x0 xref) hlo hhi (10 * G) G hG hball k hdiag
    hdrift (List.finRange horizon) (List.mem_finRange k) 49 W hW hk

theorem pass_neg (hv : x0[1] = 0) (hr : xref[1] = 0) (hd : (0 : K) < x0[0] - xref[0])
    (hW : ∀ j, |W j| ≤ (x0[0] - xref[0]) / 25) (k : Fin horizon) (hk : W k ≤ 0) :
    (pass x0 xref)^[50] W k < 0 := by
  have hpull := (grad_rest_bounds x0 xref hv hr hd.le k).1
  refine pass_neg_of _ (fun j => (grad_rest_bounds x0 xref hv hr hd.le j).2) k ?_ ?_ hk
  · linarith
  · intro j
    linarith [hW j]

theorem Cycle.not_pos (h : Cycle x0 xref W) (hv : x0[1] = 0) (hr : xref[1] = 0) :
    ¬(0 : K) < x0[0] - xref[0] := by
  intro hd
  have hneg (k : Fin horizon) (hk : W k ≤ 0) : (pass x0 xref)^[50] W k < 0 :=
    pass_neg hv hr hd (h.small hv hr hd.le) k hk
  -- from the zero at the end of the warm start back to the first input
  have hall : ∀ (n : ℕ) (k : Fin horizon), k.val + n + 1 = horizon →
      (pass x0 xref)^[50] W k < 0 := by
    intro n
    induction n with
    | zero =>
      intro k hk
      have hlast : ¬k.val + 1 < horizon := by omega
      apply hneg k
      rw [h.shifted k, dif_neg hlast]
    | succ n ih =>
      intro k hk
      have hlt : k.val + 1 < horizon := by omega
      apply hneg k
      rw [h.shifted k, dif_pos hlt]
      exact (ih ⟨k.val + 1, hlt⟩ (by simp only; omega)).le
  have hfirst := hall 9 0 rfl
  rw [h.first] at hfirst
  exact lt_irrefl _ hfirst

theorem Cycle.rest (h : Cycle x0 xref W) (hv : x0[1] = 0) (hr : xref[1] = 0) :
    x0[0] = xref[0] ∧ W = 0 := by
  have hnot := h.not_pos hv hr
  have hnot' := h.mirror.not_pos (by rw [negate_getElem, hv, neg_zero])
    (by rw [negate_getElem, hr, neg_zero])
  rw [negate_getElem, negate_getElem] at hnot'
  have heq : x0[0] - xref[0] = 0 := by
    apply le_antisymm
    · exact not_lt.mp hnot
    · linarith [not_lt.mp hnot']
  refine ⟨sub_eq_zero.mp heq, ?_⟩
  funext j
  have hsmall := h.small hv hr heq.ge j
  rw [heq, zero_div] at hsmall
  exact abs_nonpos_iff.mp hsmall

theorem iterate_zero (hv : x0[1] = 0) (hr : xref[1] = 0) (hd : x0[0] = xref[0]) (n : ℕ) :
    (pass x0 xref)^[n] 0 = 0 := by
  let D := descent x0 xref
  obtain ⟨hlo, hhi⟩ : D.lo < 0 ∧ 0 < D.hi := descent_around_zero x0 xref
  have hstep (k : Fin horizon) : D.step 0 k = 0 := by
    obtain ⟨beta, -, -, hgrad⟩ := grad_rest x0 xref hv hr k
    rw [hd, sub_self, mul_zero] at hgrad
    have hvalue : D.value 0 k = 0 := by
      rw [CoordinateDescent.value, hgrad, mul_zero, Pi.zero_apply, sub_zero]
      exact saturate_of_mem D.lo D.hi 0 hlo.le hhi.le
    rw [CoordinateDescent.step, hvalue]
    exact Function.update_eq_self k 0
  have hsweep (l : List (Fin horizon)) : D.sweep l 0 = 0 := by
    induction l with
    | nil => rfl
    | cons k l ih => rw [CoordinateDescent.sweep_cons, hstep, ih]
  exact Function.iterate_fixed (hsweep (List.finRange horizon)) n

/-- At rest on the reference the descent plans nothing. -/
theorem descend_rest (hv : x0[1] = 0) (hr : xref[1] = 0) (hd : x0[0] = xref[0]) :
    descend params x0 xref (Vector.replicate horizon 0) = Vector.replicate horizon 0 := by
  apply get_injective
  rw [descend_get, replicate_zero_get, iterate_zero hv hr hd]

end Rest

section SteadyState

variable {K : Type*} [Field K] [LinearOrder K] [IsStrictOrderedRing K]

theorem plant_fixed (p v u : K) :
    Split.plant #v[p, v] u = #v[p, v] ↔ u = 0 ∧ v = 0 := by
  have hdt : (params : Params K).dt = 1 / 1000 := by rw [params_eq]
  have hpair := plantStep_pair params #v[p, v] u
  rw [split_plant]
  constructor
  · intro hfix
    have hstep : DoubleIntegrator.step (1 / 1000) (p, v) u = (p, v) := by
      rw [← hdt]
      exact hpair.symm.trans (congrArg pair hfix)
    have hvelocity : v + 1 / 1000 * u = v := congrArg Prod.snd hstep
    have hposition : p + 1 / 1000 * v + 0.5 * (1 / 1000) * (1 / 1000) * u = p :=
      congrArg Prod.fst hstep
    have hu : u = 0 := by linarith
    rw [hu] at hposition
    exact ⟨hu, by linarith⟩
  · intro hsome
    obtain ⟨rfl, rfl⟩ := hsome
    have hstep : DoubleIntegrator.step (params : Params K).dt (p, 0) 0 = (p, 0) := by
      simp [DoubleIntegrator.step]
    have hfix := hpair.trans hstep
    exact ext_state _ _ (congrArg Prod.fst hfix) (congrArg Prod.snd hfix)

/-- The loop has no steady-state error: without noise, a tick changes neither the plant nor the
warm start only on the reference, at rest and with nothing planned. -/
theorem steady_state_iff (r p v : K) (w : Vector K horizon) (tick : ℕ) (u : K) :
    let s : Loop K := ⟨#v[p, v], tick, #v[r, 0], w, u⟩
    let s' := Split.next (fun _ => 0) none false s
    (s'.plantX = s.plantX ∧ s'.uSeq = s.uSeq) ↔
      p = r ∧ v = 0 ∧ w = Vector.replicate horizon 0 := by
  intro s s'
  have hmeasured : #v[p + 0, v + 0 * 0.5] = #v[p, v] := by rw [add_zero, zero_mul, add_zero]
  have hplant : s'.plantX =
      Split.plant #v[p, v] (descend params #v[p + 0, v + 0 * 0.5] #v[r, 0] w)[0] := rfl
  have hseq : s'.uSeq = shift (descend params #v[p + 0, v + 0 * 0.5] #v[r, 0] w) := rfl
  rw [hmeasured] at hplant hseq
  have hplan := descend_get #v[p, v] #v[r, 0] w
  rw [hplant, hseq]
  constructor
  · intro hsome
    obtain ⟨hfix, hshift⟩ := hsome
    obtain ⟨hfirst, rfl⟩ := (plant_fixed p v _).mp hfix
    have hcycle : Cycle #v[p, 0] #v[r, 0] w.get := by
      constructor
      · rw [← hplan]
        exact hfirst
      · intro k
        have hk : w.get k = (shift (descend params #v[p, 0] #v[r, 0] w)).get k := by rw [hshift]
        rw [hk, shift_get, ← hplan]
        rfl
    obtain ⟨hp, hw⟩ := hcycle.rest rfl rfl
    exact ⟨hp, rfl, get_injective _ _ (hw.trans replicate_zero_get.symm)⟩
  · intro hsome
    obtain ⟨rfl, rfl, rfl⟩ := hsome
    rw [descend_rest rfl rfl rfl]
    exact ⟨(plant_fixed p 0 _).mpr ⟨Vector.getElem_replicate .., rfl⟩, shift_zero⟩

/-- On the reference nothing changes, one unit off something does. -/
theorem steady_state_iff_rest :
    let s (p : ℚ) : Loop ℚ := ⟨#v[p, 0], 0, #v[1, 0], Vector.replicate horizon 0, 0⟩
    let s' (p : ℚ) := Split.next (fun _ => 0) none false (s p)
    ((s' 1).plantX = (s 1).plantX ∧ (s' 1).uSeq = (s 1).uSeq) ∧
      ¬((s' 0).plantX = (s 0).plantX ∧ (s' 0).uSeq = (s 0).uSeq) := by
  intro s s'
  constructor
  · exact (steady_state_iff 1 1 0 (Vector.replicate horizon 0) 0 0).mpr ⟨rfl, rfl, rfl⟩
  · intro hsteady
    have hoff := (steady_state_iff 1 0 0 (Vector.replicate horizon 0) 0 0).mp hsteady
    exact absurd hoff.1 (by decide)

end SteadyState

end LFBenchmarks.Mpc
