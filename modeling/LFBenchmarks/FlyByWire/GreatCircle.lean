import LFBenchmarks.FlyByWire.Nav
import LFBenchmarks.Math.Sphere

namespace LFBenchmarks.FlyByWire

open InnerProductGeometry

section Coordinates

theorem degreesToRadians_sub (x y : ℝ) :
    degreesToRadians (x - y) = degreesToRadians x - degreesToRadians y := by
  unfold degreesToRadians
  ring

theorem degreesToRadians_inj (x y : ℝ) :
    degreesToRadians x = degreesToRadians y ↔ x = y := by
  rw [degreesToRadians, degreesToRadians, div_left_inj' (by norm_num), mul_left_inj' Real.pi_ne_zero]

theorem degreesToRadians_mem (x : ℝ) (h : 0 ≤ x ∧ x ≤ 180) :
    degreesToRadians x ∈ Set.Icc 0 Real.pi := by
  have hpi := Real.pi_pos
  unfold degreesToRadians
  constructor
  · exact div_nonneg (mul_nonneg h.1 hpi.le) (by norm_num)
  · rw [div_le_iff₀ (by norm_num), mul_comm Real.pi]
    exact mul_le_mul_of_nonneg_right h.2 hpi.le

/-- Latitude and longitude of a fix as `haversine_distance` reads them, in degrees; any real
numbers. -/
@[ext] structure Coordinates where
  latitude : ℝ
  longitude : ℝ

noncomputable def GllFix.coordinates (fix : GllFix) : Coordinates :=
  ⟨coordinate fix.latitude, coordinate fix.longitude⟩

namespace Coordinates

/-- `ha` over real coordinates. -/
noncomputable def ha (start finish : Coordinates) : ℝ :=
  let dLat := degreesToRadians (finish.latitude - start.latitude)
  let dLon := degreesToRadians (finish.longitude - start.longitude)
  let sLat := degreesToRadians start.latitude
  let eLat := degreesToRadians finish.latitude
  Real.sin (dLat / 2.0) ^ 2 + Real.sin (dLon / 2.0) ^ 2 * Real.cos sLat * Real.cos eLat

/-- `haversine_distance` over real coordinates. -/
noncomputable def distance (start finish : Coordinates) : ℝ :=
  let hc := 2.0 * atan2 (Real.sqrt (start.ha finish)) (Real.sqrt (1 - start.ha finish))
  earthRadiusKm * hc

/-- The unit vector towards the position with these coordinates. -/
noncomputable def direction (c : Coordinates) : EuclideanSpace ℝ (Fin 3) :=
  let lat := degreesToRadians c.latitude
  let lon := degreesToRadians c.longitude
  .toLp _ ![Real.cos lat * Real.cos lon, Real.cos lat * Real.sin lon, Real.sin lat]

theorem direction_eq (c : Coordinates) : c.direction =
    Sphere.point (degreesToRadians c.latitude) (degreesToRadians c.longitude) := rfl

theorem norm_direction (c : Coordinates) : ‖c.direction‖ = 1 := Sphere.norm_point _ _

/-- `ha` is the haversine of the central angle, negative cosines or not. -/
theorem ha_eq (p q : Coordinates) : p.ha q = Sphere.hav (angle p.direction q.direction) := by
  rw [direction_eq, direction_eq, ← Sphere.haversine_formula, ha]
  simp only [degreesToRadians_sub, Sphere.hav]

theorem ha_mem (p q : Coordinates) : 0 ≤ p.ha q ∧ p.ha q ≤ 1 := by
  rw [ha_eq]
  exact ⟨Sphere.hav_nonneg _, Sphere.hav_le_one _⟩

theorem distance_eq (p q : Coordinates) :
    p.distance q = earthRadiusKm * angle p.direction q.direction := by
  have htwo : (2.0 : ℝ) = 2 := by norm_num
  rw [distance, ha_eq, atan2, htwo,
    Sphere.two_mul_arg _ (angle_nonneg _ _) (angle_le_pi _ _)]

theorem distance_nonneg (p q : Coordinates) : 0 ≤ p.distance q := by
  rw [distance_eq]
  exact mul_nonneg (Nat.cast_nonneg _) (angle_nonneg _ _)

theorem distance_le (p q : Coordinates) : p.distance q ≤ Real.pi * earthRadiusKm := by
  rw [distance_eq, mul_comm]
  exact mul_le_mul_of_nonneg_right (angle_le_pi _ _) (Nat.cast_nonneg _)

theorem distance_eq_zero (p q : Coordinates) : p.distance q = 0 ↔ p.direction = q.direction := by
  have hradius : (earthRadiusKm : ℝ) ≠ 0 := by norm_num [earthRadiusKm]
  rw [distance_eq, mul_eq_zero, or_iff_right hradius]
  exact (Sphere.point_eq_iff _ _ _ _).symm

/-- The cosine of the central angle by the spherical law of cosines. -/
noncomputable def cosAngle (p q : Coordinates) : ℝ :=
  Real.sin (degreesToRadians p.latitude) * Real.sin (degreesToRadians q.latitude) +
    Real.cos (degreesToRadians p.latitude) * Real.cos (degreesToRadians q.latitude) *
      Real.cos (degreesToRadians (q.longitude - p.longitude))

theorem cosAngle_eq (p q : Coordinates) :
    p.cosAngle q = Real.cos (angle p.direction q.direction) := by
  rw [direction_eq, direction_eq, Sphere.cos_angle_point, cosAngle, degreesToRadians_sub]

theorem angle_eq_iff (p q p' q' : Coordinates) :
    angle p.direction q.direction = angle p'.direction q'.direction ↔
      p.cosAngle q = p'.cosAngle q' := by
  have hmem (p q : Coordinates) : angle p.direction q.direction ∈ Set.Icc 0 Real.pi :=
    ⟨angle_nonneg _ _, angle_le_pi _ _⟩
  rw [cosAngle_eq, cosAngle_eq]
  exact (Real.injOn_cos.eq_iff (hmem p q) (hmem p' q')).symm

theorem distance_eq_iff (p q p' q' : Coordinates) :
    p.distance q = p'.distance q' ↔ p.cosAngle q = p'.cosAngle q' := by
  have hradius : (earthRadiusKm : ℝ) ≠ 0 := by norm_num [earthRadiusKm]
  rw [distance_eq, distance_eq, mul_right_inj' hradius, angle_eq_iff]

/-- On one meridian only the difference of the latitudes counts. -/
theorem cosAngle_of_longitude (p q : Coordinates) (h : p.longitude = q.longitude) :
    p.cosAngle q = Real.cos (degreesToRadians (p.latitude - q.latitude)) := by
  have hzero : degreesToRadians (q.longitude - p.longitude) = 0 := by
    rw [h, sub_self, degreesToRadians, zero_mul, zero_div]
  rw [cosAngle, hzero, Real.cos_zero, degreesToRadians_sub, Real.cos_sub]
  ring

theorem distance_of_longitude (p q : Coordinates) (h : p.longitude = q.longitude)
    (hle : |p.latitude - q.latitude| ≤ 180) :
    p.distance q = earthRadiusKm * degreesToRadians |p.latitude - q.latitude| := by
  have habs : Real.cos (degreesToRadians (p.latitude - q.latitude)) =
      Real.cos (degreesToRadians |p.latitude - q.latitude|) := by
    rcases abs_choice (p.latitude - q.latitude) with heq | heq
    · rw [heq]
    · rw [heq, degreesToRadians, degreesToRadians, neg_mul, neg_div, Real.cos_neg]
  have hcos := cosAngle_eq p q
  rw [cosAngle_of_longitude p q h, habs] at hcos
  rw [distance_eq, Real.injOn_cos (degreesToRadians_mem _ ⟨abs_nonneg _, hle⟩)
    ⟨angle_nonneg _ _, angle_le_pi _ _⟩ hcos]

end Coordinates

/-- `haversine_distance` sees the coordinates of its fixes only. -/
theorem haversineHa_eq (start finish : GllFix) :
    haversineHa start finish = start.coordinates.ha finish.coordinates := rfl

theorem haversineDistance_eq (start finish : GllFix) :
    haversineDistance start finish = start.coordinates.distance finish.coordinates := rfl

/-- For any real coordinates `haversine_distance` is a great-circle distance. -/
theorem haversine_great_circle (p q r : Coordinates) :
    (0 ≤ p.ha q ∧ 0 ≤ 1 - p.ha q) ∧
    p.distance q = earthRadiusKm * angle p.direction q.direction ∧
    p.distance q = q.distance p ∧
    (0 ≤ p.distance q ∧ p.distance q ≤ Real.pi * earthRadiusKm) ∧
    p.distance p = 0 ∧
    p.distance r ≤ p.distance q + q.distance r ∧
    ∀ start finish : GllFix, start.coordinates = p → finish.coordinates = q →
      haversineHa start finish = p.ha q ∧ haversineDistance start finish = p.distance q := by
  obtain ⟨hlo, hhi⟩ := p.ha_mem q
  refine ⟨⟨hlo, sub_nonneg.mpr hhi⟩, p.distance_eq q, ?_, ⟨p.distance_nonneg q, p.distance_le q⟩,
    (p.distance_eq_zero p).mpr rfl, ?_, ?_⟩
  · rw [Coordinates.distance_eq, Coordinates.distance_eq, angle_comm]
  · rw [Coordinates.distance_eq, Coordinates.distance_eq, Coordinates.distance_eq, ← mul_add]
    exact mul_le_mul_of_nonneg_left (angle_le_angle_add_angle _ _ _) (Nat.cast_nonneg _)
  · intro start finish hstart hfinish
    rw [haversineHa_eq, haversineDistance_eq, hstart, hfinish]
    exact ⟨rfl, rfl⟩

end Coordinates

end LFBenchmarks.FlyByWire
