import Mathlib

namespace LFBenchmarks.Sphere

open Real InnerProductGeometry

section Haversine

/-- The haversine of an angle. -/
noncomputable def hav (t : ℝ) : ℝ := sin (t / 2.0) ^ 2

theorem hav_half (t : ℝ) : hav t = sin (t / 2) ^ 2 := by
  have htwo : (2.0 : ℝ) = 2 := by norm_num
  rw [hav, htwo]

theorem hav_eq (t : ℝ) : hav t = (1 - cos t) / 2 := by
  rw [hav_half, sin_sq_eq_half_sub, mul_div_cancel₀ t two_ne_zero]
  ring

theorem hav_nonneg (t : ℝ) : 0 ≤ hav t := sq_nonneg _

theorem hav_le_one (t : ℝ) : hav t ≤ 1 := sin_sq_le_one _

/-- The inverse haversine as the argument of a complex number. -/
theorem two_mul_arg (t : ℝ) (h0 : 0 ≤ t) (hpi : t ≤ π) :
    2 * Complex.arg ⟨√(1 - hav t), √(hav t)⟩ = t := by
  have hsin : √(hav t) = sin (t / 2) := by
    rw [hav_half]
    apply sqrt_sq
    exact sin_nonneg_of_nonneg_of_le_pi (by linarith) (by linarith)
  have hcos : √(1 - hav t) = cos (t / 2) := by
    rw [hav_half, ← cos_sq']
    apply sqrt_sq
    exact cos_nonneg_of_mem_Icc ⟨by linarith [pi_pos], by linarith⟩
  have hpolar : (⟨√(1 - hav t), √(hav t)⟩ : ℂ) =
      Complex.cos (t / 2 : ℝ) + Complex.sin (t / 2 : ℝ) * Complex.I := by
    rw [hsin, hcos, ← Complex.ofReal_cos, ← Complex.ofReal_sin]
    exact Complex.mk_eq_add_mul_I _ _
  rw [hpolar, Complex.arg_cos_add_sin_mul_I ⟨by linarith [pi_pos], by linarith⟩]
  ring

end Haversine

section Point

/-- The unit vector of a latitude and a longitude, in radians. -/
noncomputable def point (lat lon : ℝ) : EuclideanSpace ℝ (Fin 3) :=
  .toLp _ ![cos lat * cos lon, cos lat * sin lon, sin lat]

theorem inner_point (a l b k : ℝ) :
    inner ℝ (point a l) (point b k) = sin a * sin b + cos a * cos b * cos (k - l) := by
  rw [cos_sub]
  simp only [point, PiLp.inner_apply, Fin.sum_univ_three, RCLike.inner_apply, conj_trivial]
  simp
  ring

theorem norm_point (a l : ℝ) : ‖point a l‖ = 1 := by
  have hself : inner ℝ (point a l) (point a l) = (1 : ℝ) := by
    rw [inner_point, sub_self, cos_zero, mul_one, ← sq, ← sq, sin_sq_add_cos_sq]
  rw [real_inner_self_eq_norm_sq] at hself
  exact (pow_eq_one_iff_of_nonneg (norm_nonneg _) two_ne_zero).mp hself

/-- The spherical law of cosines. -/
theorem cos_angle_point (a l b k : ℝ) :
    cos (angle (point a l) (point b k)) = sin a * sin b + cos a * cos b * cos (k - l) := by
  rw [cos_angle, norm_point, norm_point, mul_one, div_one, inner_point]

/-- The haversine formula, for any angles at all. -/
theorem haversine_formula (a l b k : ℝ) :
    hav (b - a) + hav (k - l) * cos a * cos b = hav (angle (point a l) (point b k)) := by
  rw [hav_eq, hav_eq, hav_eq, cos_angle_point, cos_sub b a]
  ring

theorem point_eq_iff (a l b k : ℝ) :
    point a l = point b k ↔ angle (point a l) (point b k) = 0 := by
  constructor
  · intro heq
    rw [heq]
    exact angle_self (norm_ne_zero_iff.mp (by rw [norm_point]; exact one_ne_zero))
  · intro hzero
    have hinner := cos_angle_mul_norm_mul_norm (point a l) (point b k)
    rw [hzero, cos_zero, norm_point, norm_point, mul_one, mul_one] at hinner
    exact (inner_eq_one_iff_of_norm_eq_one (norm_point a l) (norm_point b k)).mp hinner.symm

theorem point_ext_iff (a l b k : ℝ) : point a l = point b k ↔
    cos a * cos l = cos b * cos k ∧ cos a * sin l = cos b * sin k ∧ sin a = sin b := by
  rw [PiLp.ext_iff, Fin.forall_fin_succ, Fin.forall_fin_two]
  exact Iff.rfl

end Point

end LFBenchmarks.Sphere
