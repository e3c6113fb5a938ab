import Mathlib

namespace LFBenchmarks

open Polynomial

section Cyclotomic

/-- The relations of the `N`-th roots of unity that need no arithmetic: a full turn, and the
corners of a regular polygon with a prime number of corners. -/
noncomputable def polygonIdeal (N : ℕ) : Ideal ℚ[X] :=
  Ideal.span ({X ^ N - 1} ∪ {f | ∃ p, p.Prime ∧ p ∣ N ∧ f = ∑ j ∈ Finset.range p, (X ^ (N / p)) ^ j})

theorem isCoprime_polygon (p m : ℕ) (hp : p ≠ 0) :
    IsCoprime (∑ j ∈ Finset.range p, ((X : ℚ[X]) ^ m) ^ j) (X ^ m - 1) := by
  have hone : (X : ℚ[X]) ^ m - 1 ∣ (∑ j ∈ Finset.range p, ((X : ℚ[X]) ^ m) ^ j) - C (p : ℚ) := by
    have hterm : ∀ j ∈ Finset.range p, (X : ℚ[X]) ^ m - 1 ∣ ((X : ℚ[X]) ^ m) ^ j - 1 :=
      fun j _ => sub_one_dvd_pow_sub_one _ j
    have hsum := Finset.dvd_sum hterm
    simpa using hsum
  obtain ⟨q, hq⟩ := hone
  have hunit : C ((p : ℚ)⁻¹) * C (p : ℚ) = 1 := by
    rw [← C_mul, inv_mul_cancel₀ (by exact_mod_cast hp), C_1]
  refine ⟨C ((p : ℚ)⁻¹), -(C ((p : ℚ)⁻¹) * q), ?_⟩
  linear_combination C ((p : ℚ)⁻¹) * hq + hunit

theorem isCoprime_polygonIdeal (N d : ℕ) (hd : d ∈ N.properDivisors) :
    IsCoprime (polygonIdeal N) (Ideal.span {cyclotomic d ℚ}) := by
  obtain ⟨⟨m, rfl⟩, hlt⟩ := Nat.mem_properDivisors.mp hd
  have hm : m ≠ 1 := by
    rintro rfl
    omega
  have hd0 : d ≠ 0 := by
    rintro rfl
    omega
  obtain ⟨p, hp, n, rfl⟩ := Nat.exists_prime_and_dvd hm
  have hdiv : d * (p * n) / p = d * n := by
    rw [mul_left_comm, Nat.mul_div_cancel_left _ hp.pos]
  have hdvd : cyclotomic d ℚ ∣ X ^ (d * n) - 1 :=
    (cyclotomic.dvd_X_pow_sub_one d ℚ).trans (by rw [pow_mul]; exact sub_one_dvd_pow_sub_one _ n)
  obtain ⟨a, b, hab⟩ := (isCoprime_polygon p (d * n) hp.ne_zero).of_isCoprime_of_dvd_right hdvd
  rw [Ideal.isCoprime_iff_exists]
  refine ⟨_, Ideal.mul_mem_left _ a (Ideal.subset_span (.inr ⟨p, hp, ?_, rfl⟩)), _,
    Ideal.mul_mem_left _ b (Ideal.subset_span rfl), ?_⟩
  · exact ⟨d * n, by ring⟩
  · rw [hdiv]
    exact hab

/-- These relations are all: they generate the minimal polynomial. -/
theorem cyclotomic_mem_polygonIdeal (N : ℕ) (hN : 0 < N) : cyclotomic N ℚ ∈ polygonIdeal N := by
  have hcoprime : IsCoprime (polygonIdeal N)
      (Ideal.span {∏ d ∈ N.properDivisors, cyclotomic d ℚ}) := by
    rw [← Ideal.prod_span_singleton]
    exact IsCoprime.prod_right (isCoprime_polygonIdeal N)
  obtain ⟨a, ha, b, hb, hab⟩ := Ideal.isCoprime_iff_exists.mp hcoprime
  obtain ⟨c, rfl⟩ := Ideal.mem_span_singleton'.mp hb
  have hproduct : cyclotomic N ℚ * ∏ d ∈ N.properDivisors, cyclotomic d ℚ = X ^ N - 1 := by
    rw [← prod_cyclotomic_eq_X_pow_sub_one hN, ← Nat.cons_self_properDivisors hN.ne',
      Finset.prod_cons]
  have hturn : (X : ℚ[X]) ^ N - 1 ∈ polygonIdeal N := Ideal.subset_span (.inl rfl)
  have hsplit : cyclotomic N ℚ = cyclotomic N ℚ * a + c * (X ^ N - 1) := by
    rw [← hproduct]
    linear_combination (-cyclotomic N ℚ) * hab
  rw [hsplit]
  exact add_mem (Ideal.mul_mem_left _ _ ha) (Ideal.mul_mem_left _ _ hturn)

end Cyclotomic

section Directions

/-- Formal sums of directions, with rational weights; a direction is an angle in degrees. -/
abbrev Directions := AddMonoidAlgebra ℚ ℚ

namespace Directions

noncomputable def single (a : ℚ) : Directions := AddMonoidAlgebra.single a 1

/-- The corners of the regular polygon with `p` corners, one of them in direction 0. -/
noncomputable def polygon (p : ℕ) : Directions := ∑ j ∈ Finset.range p, single (360 / p) ^ j

/-- Combinations of regular polygons with a prime number of corners, in any position; directions
are taken up to full turns. -/
noncomputable def balanced : Ideal Directions :=
  Ideal.span ({single 360 - 1} ∪ {x | ∃ p, p.Prime ∧ x = polygon p})

theorem single_add (a b : ℚ) : single (a + b) = single a * single b := by
  rw [single, single, single, AddMonoidAlgebra.single_mul_single, one_mul]

theorem single_zero : single 0 = 1 := rfl

theorem single_nsmul (a : ℚ) (n : ℕ) : single (n * a) = single a ^ n := by
  induction n with
  | zero => rw [Nat.cast_zero, zero_mul, single_zero, pow_zero]
  | succ n ih => rw [Nat.cast_succ, add_mul, one_mul, single_add, ih, pow_succ]

section Turns

variable {B : Type*} [CommRing B] [Algebra ℚ B] (φ : Directions →ₐ[ℚ] B) (hφ : φ (single 360) = 1)

include hφ

theorem map_turns (m : ℤ) : φ (single (m * 360)) = 1 := by
  have hnat (n : ℕ) : φ (single (n * 360)) = 1 := by
    rw [single_nsmul, map_pow, hφ, one_pow]
  obtain ⟨n, rfl | rfl⟩ := m.eq_nat_or_neg
  · exact_mod_cast hnat n
  · have hback : φ (single (n * 360)) * φ (single ((-(n : ℤ) : ℤ) * 360)) = 1 := by
      rw [← map_mul, ← single_add]
      push_cast
      rw [neg_mul, add_neg_cancel, single_zero, map_one]
    rwa [hnat, one_mul] at hback

/-- A whole number of steps is a power of one step, also backwards. -/
theorem map_steps (N : ℕ) (hN : 0 < N) (k : ℤ) :
    φ (single (k * (360 / N))) = φ (single (360 / N)) ^ (k % N).toNat := by
  have hmod : ((k % N).toNat : ℤ) = k % N := Int.toNat_of_nonneg (Int.emod_nonneg _ (by omega))
  have hsplit : (k : ℚ) * (360 / N) = (k % N).toNat * (360 / N) + (k / N : ℤ) * 360 := by
    have hk : (k : ℚ) = (k % N).toNat + N * (k / N : ℤ) := by
      have hint := (Int.emod_add_mul_ediv k N).symm
      rw [← hmod] at hint
      exact_mod_cast hint
    have hN' : (N : ℚ) ≠ 0 := by exact_mod_cast hN.ne'
    rw [hk]
    field_simp
  rw [hsplit, single_add, map_mul, map_turns φ hφ, mul_one, single_nsmul, map_pow]

end Turns

/-- Finitely many directions are steps of one regular polygon. -/
theorem exists_steps (x : Directions) : ∃ N : ℕ, 0 < N ∧ ∃ P : ℚ[X],
    ∀ (B : Type) [CommRing B] [Algebra ℚ B] (φ : Directions →ₐ[ℚ] B), φ (single 360) = 1 →
      φ x = aeval (φ (single (360 / N))) P := by
  induction x using AddMonoidAlgebra.induction_linear with
  | zero => exact ⟨1, one_pos, 0, fun B _ _ φ _ => by rw [map_zero, map_zero]⟩
  | add x y hx hy =>
    obtain ⟨N, hN, P, hP⟩ := hx
    obtain ⟨M, hM, Q, hQ⟩ := hy
    refine ⟨N * M, Nat.mul_pos hN hM, expand ℚ M P + expand ℚ N Q, fun B _ _ φ hφ => ?_⟩
    have hstep (n m : ℕ) (hm : 0 < m) :
        φ (single (360 / (n * m : ℕ))) ^ m = φ (single (360 / n)) := by
      have hm' : (m : ℚ) ≠ 0 := by exact_mod_cast hm.ne'
      rw [← map_pow, ← single_nsmul]
      congr 2
      push_cast
      field_simp
    rw [map_add, map_add, expand_aeval, expand_aeval, hstep N M hM, mul_comm N M, hstep M N hN,
      hP B φ hφ, hQ B φ hφ]
  | single a c =>
    have hden : (a.den : ℚ) ≠ 0 := by exact_mod_cast a.den_nz
    have hpos : 0 < 360 * a.den := Nat.mul_pos (by decide) a.den_pos
    refine ⟨360 * a.den, hpos, C c * X ^ (a.num % (360 * a.den : ℕ)).toNat, fun B _ _ φ hφ => ?_⟩
    have ha : a = a.num * (360 / (360 * a.den : ℕ)) := by
      conv_lhs => rw [← a.num_div_den]
      push_cast
      field_simp
    have hweight : AddMonoidAlgebra.single a c = c • single a := by
      rw [single, AddMonoidAlgebra.smul_single, smul_eq_mul, mul_one]
    rw [hweight, map_smul, map_mul, aeval_C, map_pow, aeval_X, ← map_steps φ hφ _ hpos, ← ha,
      Algebra.smul_def]

/-- The unit vector of a direction, as a complex number. -/
noncomputable def evaluate : Directions →ₐ[ℚ] ℂ :=
  AddMonoidAlgebra.lift ℚ ℂ ℚ
    { toFun := fun a => Complex.exp (Real.pi * Complex.I * (a.toAdd / 180 : ℚ))
      map_one' := by simp
      map_mul' := fun a b => by
        rw [← Complex.exp_add, toAdd_mul, add_div, Rat.cast_add, mul_add] }

theorem evaluate_single (a : ℚ) :
    evaluate (single a) = Complex.exp (2 * Real.pi * Complex.I * (a / 360 : ℚ)) := by
  have hangle : 2 * Real.pi * Complex.I * (a / 360 : ℚ) = Real.pi * Complex.I * (a / 180 : ℚ) := by
    push_cast
    ring
  rw [evaluate, single, AddMonoidAlgebra.lift_single, one_smul, hangle]
  rfl

theorem evaluate_turn : evaluate (single 360) = 1 := by
  rw [evaluate_single, div_self (by norm_num), Rat.cast_one, mul_one, Complex.exp_two_pi_mul_I]

theorem evaluate_step (N : ℕ) (hN : N ≠ 0) : IsPrimitiveRoot (evaluate (single (360 / N))) N := by
  have hroot := Complex.isPrimitiveRoot_exp N hN
  rw [evaluate_single, div_div_cancel_left' (by norm_num), Rat.cast_inv, Rat.cast_natCast,
    ← div_eq_mul_inv]
  exact hroot

theorem evaluate_balanced (x : Directions) (hx : x ∈ balanced) : evaluate x = 0 := by
  have hle : balanced ≤ RingHom.ker evaluate := by
    rw [balanced, Ideal.span_le]
    rintro y (rfl | ⟨p, hp, rfl⟩)
    · change evaluate (single 360 - 1) = 0
      rw [map_sub, map_one, evaluate_turn, sub_self]
    · change evaluate (polygon p) = 0
      simp only [polygon, map_sum, map_pow]
      exact (evaluate_step p hp.ne_zero).geom_sum_eq_zero hp.one_lt
  exact hle hx

theorem turn_eq_one {B : Type*} [CommRing B] [Algebra ℚ B] (φ : Directions →ₐ[ℚ] B)
    (hφ : ∀ y ∈ balanced, φ y = 0) : φ (single 360) = 1 := by
  have hdiff := hφ _ (Ideal.subset_span (.inl rfl))
  rwa [map_sub, map_one, sub_eq_zero] at hdiff

/-- What makes regular polygons vanish makes the relations among the steps of one vanish. -/
theorem aeval_step {B : Type*} [CommRing B] [Algebra ℚ B] (φ : Directions →ₐ[ℚ] B)
    (hφ : ∀ y ∈ balanced, φ y = 0) (N : ℕ) (hN : 0 < N) (P : ℚ[X]) (hP : P ∈ polygonIdeal N) :
    aeval (φ (single (360 / N))) P = 0 := by
  have hle : polygonIdeal N ≤ RingHom.ker (aeval (φ (single (360 / N)))) := by
    rw [polygonIdeal, Ideal.span_le]
    rintro f (rfl | ⟨p, hp, ⟨n, rfl⟩, rfl⟩)
    · change aeval _ (X ^ N - 1) = 0
      have hN' : (N : ℚ) ≠ 0 := by exact_mod_cast hN.ne'
      rw [map_sub, map_pow, aeval_X, map_one, ← map_pow, ← single_nsmul, mul_div_cancel₀ _ hN',
        turn_eq_one φ hφ, sub_self]
    · change aeval _ _ = 0
      have hn : (n : ℚ) ≠ 0 := by
        intro h
        simp [Nat.cast_eq_zero.mp h] at hN
      have hstep : (n : ℚ) * (360 / (p * n : ℕ)) = 360 / p := by
        push_cast
        field_simp
      rw [← hφ _ (Ideal.subset_span (.inr ⟨p, hp, rfl⟩)), polygon, Nat.mul_div_cancel_left _ hp.pos]
      simp only [map_sum, map_pow, aeval_X]
      rw [← map_pow, ← single_nsmul, hstep]
  exact hle hP

/-- Directions with rational weights cancel exactly when they are a combination of regular
polygons. -/
theorem mem_balanced_iff (x : Directions) : x ∈ balanced ↔ evaluate x = 0 := by
  refine ⟨evaluate_balanced x, fun hx => ?_⟩
  obtain ⟨N, hN, P, hP⟩ := exists_steps x
  have hpolynomial : P ∈ polygonIdeal N := by
    rw [hP ℂ evaluate evaluate_turn] at hx
    have hdvd := minpoly.dvd ℚ _ hx
    rw [← cyclotomic_eq_minpoly_rat (evaluate_step N hN.ne') hN] at hdvd
    exact Ideal.mem_of_dvd _ hdvd (cyclotomic_mem_polygonIdeal N hN)
  -- modulo the regular polygons `x` is this polynomial in one step
  let π := Ideal.Quotient.mkₐ ℚ balanced
  have hzero (y : Directions) (hy : y ∈ balanced) : π y = 0 := Ideal.Quotient.eq_zero_iff_mem.mpr hy
  rw [← Ideal.Quotient.eq_zero_iff_mem]
  exact (hP _ π (turn_eq_one π hzero)).trans (aeval_step π hzero N hN P hpolynomial)

/-- A direction and its mirror image: twice the cosine. -/
noncomputable def mirrored (a : ℚ) : Directions := single a + single (-a)

theorem evaluate_mirrored (a : ℚ) :
    evaluate (mirrored a) = ((2 * Real.cos (a * Real.pi / 180) : ℝ) : ℂ) := by
  have hangle : 2 * Real.pi * Complex.I * (a / 360 : ℚ) = (a * Real.pi / 180 : ℝ) * Complex.I := by
    push_cast
    ring
  have hback : 2 * Real.pi * Complex.I * (-a / 360 : ℚ) = -(a * Real.pi / 180 : ℝ) * Complex.I := by
    push_cast
    ring
  rw [mirrored, map_add, evaluate_single, evaluate_single, hangle, hback, Complex.ofReal_mul,
    Complex.ofReal_cos, Complex.ofReal_ofNat, Complex.two_cos]

/-- Up to regular polygons, the angles and their mirror images cancel. -/
def Balanced (angles : List ℚ) : Prop := (angles.map mirrored).sum ∈ balanced

theorem balanced_iff (angles : List ℚ) :
    Balanced angles ↔ (angles.map (fun a : ℚ => Real.cos (a * Real.pi / 180))).sum = 0 := by
  have hsum : evaluate (angles.map mirrored).sum =
      ((2 * (angles.map (fun a : ℚ => Real.cos (a * Real.pi / 180))).sum : ℝ) : ℂ) := by
    induction angles with
    | nil => simp
    | cons a l ih =>
      rw [List.map_cons, List.sum_cons, map_add, ih, evaluate_mirrored, List.map_cons, List.sum_cons,
        mul_add, Complex.ofReal_add]
  rw [Balanced, mem_balanced_iff, hsum, Complex.ofReal_eq_zero, mul_eq_zero,
    or_iff_right (two_ne_zero' ℝ)]

/-- The angles, in some order, are pairs of opposite directions or mirror images of such. -/
def PairsOff (angles : List ℚ) : Prop :=
  ∃ pairs : List (ℚ × ℚ), angles.Perm (pairs.flatMap (fun x => [x.1, x.2])) ∧
    ∀ x ∈ pairs, ∃ k : ℤ, x.1 = 360 * k + 180 + x.2 ∨ x.1 = 360 * k + 180 - x.2

theorem cos_opposite (a b : ℚ) (k : ℤ) (h : a = 360 * k + 180 + b ∨ a = 360 * k + 180 - b) :
    Real.cos (a * Real.pi / 180) + Real.cos (b * Real.pi / 180) = 0 := by
  rcases h with rfl | rfl
  · have hangle : ((360 * k + 180 + b : ℚ) : ℝ) * Real.pi / 180 =
        b * Real.pi / 180 + Real.pi + k * (2 * Real.pi) := by
      push_cast
      ring
    rw [hangle, Real.cos_add_int_mul_two_pi, Real.cos_add_pi, neg_add_cancel]
  · have hangle : ((360 * k + 180 - b : ℚ) : ℝ) * Real.pi / 180 =
        Real.pi - b * Real.pi / 180 + k * (2 * Real.pi) := by
      push_cast
      ring
    rw [hangle, Real.cos_add_int_mul_two_pi, Real.cos_pi_sub, neg_add_cancel]

theorem PairsOff.balanced {angles : List ℚ} (h : PairsOff angles) : Balanced angles := by
  obtain ⟨pairs, hperm, hopposite⟩ := h
  rw [balanced_iff, (hperm.map _).sum_eq]
  clear hperm
  induction pairs with
  | nil => rfl
  | cons x pairs ih =>
    obtain ⟨k, hk⟩ := hopposite x List.mem_cons_self
    have hrest := ih (fun y hy => hopposite y (List.mem_cons_of_mem _ hy))
    rw [List.flatMap_cons, List.map_append, List.sum_append, hrest, add_zero]
    simpa using cos_opposite x.1 x.2 k hk

end Directions

end Directions

end LFBenchmarks
