import LFBenchmarks.FlyByWire.GreatCircle
import LFBenchmarks.FlyByWire.Sentence
import LFBenchmarks.Math.Polygons

namespace LFBenchmarks.FlyByWire

open Stdio InnerProductGeometry

section GeoPosition

/-- The digits of an angle in a GLL sentence: `k` digits of degrees, two of minutes, decimals
of a minute behind the point. -/
structure DegreeMinutes (k : Nat) where
  degrees : List Char
  minutes : List Char
  fraction : List Char
  degrees_length : degrees.length = k
  minutes_length : minutes.length = 2
  all_digit : (degrees ++ minutes ++ fraction).all Char.isDigit = true
  minutes_lt : digitsValue 10 minutes < 60

namespace DegreeMinutes

variable {k : Nat}

theorem isDigit (a : DegreeMinutes k) :
    ∀ c ∈ a.degrees ++ a.minutes ++ a.fraction, c.isDigit = true :=
  List.all_eq_true.mp a.all_digit

def decimal (a : DegreeMinutes k) : Decimal where
  int := a.degrees ++ a.minutes
  frac := some a.fraction
  int_digit c hc := a.isDigit c (List.mem_append_left _ hc)
  frac_digit f hf c hc := by
    obtain rfl : a.fraction = f := by simpa using hf
    exact a.isDigit c (List.mem_append_right _ hc)

/-- Minutes with their decimals. -/
def minute (a : DegreeMinutes k) : Rat :=
  digitsValue 10 a.minutes + digitsValue 10 a.fraction / 10 ^ a.fraction.length

/-- The angle denoted, in degrees. -/
def value (a : DegreeMinutes k) : Rat := digitsValue 10 a.degrees + a.minute / 60

theorem digits_ne_nil (a : DegreeMinutes k) : a.decimal.digits ≠ [] := by
  have hlen : a.decimal.digits.length = k + 2 + a.fraction.length := by
    simp [decimal, Decimal.digits, a.degrees_length, a.minutes_length, Nat.add_assoc]
  intro hnil
  rw [hnil, List.length_nil] at hlen
  omega

/-- The number `sscanf` reads counts a degree as a hundred minutes. -/
theorem value_decimal (a : DegreeMinutes k) :
    a.decimal.value = 100 * digitsValue 10 a.degrees + a.minute := by
  have hpow : (10 : Rat) ^ a.fraction.length ≠ 0 := by positivity
  simp only [Decimal.value, decimal, Decimal.digits, Option.getD_some, digitsValue_append,
    a.minutes_length, minute]
  push_cast
  field_simp
  ring

theorem minute_nonneg (a : DegreeMinutes k) : 0 ≤ a.minute := by
  unfold minute
  positivity

theorem minute_lt (a : DegreeMinutes k) : a.minute < 60 := by
  have hint : (digitsValue 10 a.minutes : Rat) + 1 ≤ 60 := by
    exact_mod_cast a.minutes_lt
  have hfrac : (digitsValue 10 a.fraction : Rat) / 10 ^ a.fraction.length < 1 := by
    have hlt := digitsValue_lt a.fraction fun c hc => a.isDigit c (List.mem_append_right _ hc)
    rw [div_lt_one (by positivity)]
    exact_mod_cast hlt
  unfold minute
  linarith

theorem value_nonneg (a : DegreeMinutes k) : 0 ≤ a.value := by
  have hminute := a.minute_nonneg
  unfold value
  positivity

theorem abs_minute_sub_le (a b : DegreeMinutes k) : |a.minute - b.minute| ≤ 60 := by
  have ha := a.minute_nonneg
  have hb := b.minute_nonneg
  have ha' := a.minute_lt
  have hb' := b.minute_lt
  exact abs_le.mpr ⟨by linarith, by linarith⟩

/-- In one degree the readings differ by the minutes, the places by a sixtieth of them. -/
theorem sub_of_degrees (a b : DegreeMinutes k) (h : a.degrees = b.degrees) :
    a.decimal.value - b.decimal.value = a.minute - b.minute ∧
      a.value - b.value = (a.minute - b.minute) / 60 := by
  rw [a.value_decimal, b.value_decimal, value, value, h]
  constructor
  · ring
  · ring

end DegreeMinutes

/-- An accepted sentence leaves its two numbers in the fix, whatever the letters are. -/
theorem accepted_position (lat lon : Decimal) (latDir lonDir : Char) (rest : List Char)
    (fix : GllFix) (hlat : lat.digits ≠ []) (hlon : lon.digits ≠ [])
    (h : acceptedFix ("$GPGLL,".toList ++ (lat.text ++ ',' :: latDir :: ',' ::
      (lon.text ++ ',' :: lonDir :: ',' :: rest))) = some fix) :
    fix.latitude = .finite lat.value ∧ fix.longitude = .finite lon.value := by
  have hscan := sscanf_position lat lon latDir lonDir rest hlat hlon
  unfold acceptedFix parseGpgll at h
  rw [hscan] at h
  split at h
  · split at h
    · split at h
      · next hitems _ =>
        simp only [List.cons.injEq, Item.double.injEq] at hitems
        obtain ⟨rfl, -, rfl, -, -⟩ := hitems
        obtain rfl := Option.some.inj h
        exact ⟨rfl, rfl⟩
      · simp at h
    · simp at h
  · cases h

theorem position_accepted (lat lon : Decimal) (latDir lonDir : Char) (c : Char)
    (rest : List Char) (hlat : lat.digits ≠ []) (hlon : lon.digits ≠ [])
    (hc : c.isDigit = true) :
    ∃ fix, acceptedFix ("$GPGLL,".toList ++ (lat.text ++ ',' :: latDir :: ',' ::
      (lon.text ++ ',' :: lonDir :: ',' :: c :: rest))) = some fix := by
  have hscan := sscanf_position lat lon latDir lonDir (c :: rest) hlat hlon
  obtain ⟨items, hitems⟩ := sscanf_time c rest hc
  rw [hitems] at hscan
  have hstart (t : List Char) : gpgllSentence.isPrefixOf ("$GPGLL,".toList ++ t) = true := by
    rw [List.isPrefixOf_iff_prefix]
    exact ⟨',' :: t, rfl⟩
  unfold acceptedFix parseGpgll
  rw [if_pos (hstart _), hscan]
  exact ⟨_, rfl⟩

/-- A geographic position as a GLL sentence writes it. -/
structure GeoPosition where
  latitude : DegreeMinutes 2
  south : Bool
  longitude : DegreeMinutes 3
  west : Bool
  latitude_le : latitude.value ≤ 90
  longitude_le : longitude.value ≤ 180

namespace GeoPosition

/-- A sentence for the position, with any text behind its letters. -/
def sentence (p : GeoPosition) (rest : List Char) : List Char :=
  "$GPGLL,".toList ++ (p.latitude.decimal.text ++ ',' :: (if p.south then 'S' else 'N') :: ',' ::
    (p.longitude.decimal.text ++ ',' :: (if p.west then 'W' else 'E') :: ',' :: rest))

/-- The coordinates `haversine_distance` works on. -/
noncomputable def readings (p : GeoPosition) : Coordinates :=
  ⟨(p.latitude.decimal.value : ℝ), (p.longitude.decimal.value : ℝ)⟩

/-- The coordinates denoted: degrees plus minutes, south and west negative. -/
noncomputable def location (p : GeoPosition) : Coordinates :=
  ⟨if p.south then -(p.latitude.value : ℝ) else p.latitude.value,
    if p.west then -(p.longitude.value : ℝ) else p.longitude.value⟩

/-- Latitude in degrees, south negative. -/
def signedLatitude (p : GeoPosition) : Rat :=
  if p.south then -p.latitude.value else p.latitude.value

/-- Longitude in degrees, west negative. -/
def signedLongitude (p : GeoPosition) : Rat :=
  if p.west then -p.longitude.value else p.longitude.value

theorem location_eq (p : GeoPosition) :
    p.location = ⟨(p.signedLatitude : ℝ), (p.signedLongitude : ℝ)⟩ := by
  unfold location signedLatitude signedLongitude
  congr 1 <;> split_ifs <;> simp

/-- Angles whose cosines add up to four times the cosine of the central angle, from two latitudes
and the difference of the longitudes. -/
def centralAngles (a b d : Rat) : List Rat :=
  [a - b, a - b, 180 - (a + b), 180 - (a + b), a - b + d, a - b - d, a + b + d, a + b - d]

/-- The angles of the readings, and those of the positions denoted turned round. -/
def discrepancy (p q : GeoPosition) : List Rat :=
  centralAngles p.latitude.decimal.value q.latitude.decimal.value
      (q.longitude.decimal.value - p.longitude.decimal.value) ++
    (centralAngles p.signedLatitude q.signedLatitude
      (q.signedLongitude - p.signedLongitude)).map (180 - ·)

theorem coordinates_of_accepted (p : GeoPosition) (rest : List Char) (fix : GllFix)
    (h : acceptedFix (p.sentence rest) = some fix) : fix.coordinates = p.readings := by
  obtain ⟨hlat, hlon⟩ := accepted_position _ _ _ _ rest fix
    p.latitude.digits_ne_nil p.longitude.digits_ne_nil h
  simp only [GllFix.coordinates, hlat, hlon]
  rfl

/-- What `haversine_distance` is for: the distance of the positions denoted, zero exactly if
they are one. -/
def Measured (p q : GeoPosition) (f g : GllFix) : Prop :=
  haversineDistance f g =
      earthRadiusKm * angle p.location.direction q.location.direction ∧
    (haversineDistance f g = 0 ↔ p.location.direction = q.location.direction)

theorem measured_iff (p q : GeoPosition) (f g : GllFix) (hf : f.coordinates = p.readings)
    (hg : g.coordinates = q.readings) :
    Measured p q f g ↔ p.readings.cosAngle q.readings = p.location.cosAngle q.location := by
  unfold Measured
  rw [haversineDistance_eq, hf, hg, ← Coordinates.distance_eq, ← Coordinates.distance_eq_iff,
    ← Coordinates.distance_eq_zero]
  exact and_iff_left_of_imp fun heq => by rw [heq]

theorem sum_centralAngles (a b : Rat) (c d : ℝ) (c' d' : Rat) (hc : c = c') (hd : d = d') :
    ((centralAngles a b (d' - c')).map (fun x : Rat => Real.cos (x * Real.pi / 180))).sum =
      4 * Coordinates.cosAngle ⟨a, c⟩ ⟨b, d⟩ := by
  have hpi : degreesToRadians 180 = Real.pi := by
    unfold degreesToRadians
    ring
  have hcos (x : ℝ) : Real.cos (x * Real.pi / 180) = Real.cos (degreesToRadians x) := rfl
  have hadd (x y : ℝ) : degreesToRadians (x + y) = degreesToRadians x + degreesToRadians y := by
    unfold degreesToRadians
    ring
  subst hc hd
  simp only [centralAngles, List.map_cons, List.map_nil, List.sum_cons, List.sum_nil, Rat.cast_sub,
    Rat.cast_add, Rat.cast_ofNat, hcos, Coordinates.cosAngle]
  simp only [hadd, degreesToRadians_sub, hpi, Real.cos_add, Real.cos_sub, Real.sin_add, Real.sin_sub,
    Real.cos_pi, Real.sin_pi]
  ring

/-- The law of cosines turned into a question about regular polygons. -/
theorem balanced_discrepancy (p q : GeoPosition) :
    Directions.Balanced (discrepancy p q) ↔
      p.readings.cosAngle q.readings = p.location.cosAngle q.location := by
  have hturned (l : List Rat) :
      ((l.map (180 - ·)).map (fun x : Rat => Real.cos (x * Real.pi / 180))).sum =
        -(l.map (fun x : Rat => Real.cos (x * Real.pi / 180))).sum := by
    induction l with
    | nil => simp
    | cons x l ih =>
      have hx : Real.cos ((180 - x : Rat) * Real.pi / 180) = -Real.cos (x * Real.pi / 180) := by
        rw [← Real.cos_pi_sub]
        congr 1
        push_cast
        ring
      rw [List.map_cons, List.map_cons, List.sum_cons, ih, hx, List.map_cons, List.sum_cons, neg_add]
  rw [Directions.balanced_iff, discrepancy, List.map_append, List.sum_append, hturned,
    sum_centralAngles _ _ _ _ _ _ rfl rfl, sum_centralAngles _ _ _ _ _ _ rfl rfl, ← location_eq,
    ← location_eq, ← sub_eq_add_neg, ← mul_sub, mul_eq_zero, or_iff_right (by norm_num), sub_eq_zero]
  rfl

theorem signed_eq_iff (b c : Bool) (x : ℝ) :
    (if b then -x else x) = (if c then -x else x) ↔ b = c ∨ x = 0 := by
  cases b <;> cases c <;> simp [self_eq_neg, neg_eq_self]

theorem trig_location (p : GeoPosition) :
    (Real.sin (degreesToRadians p.location.latitude) =
      if p.south then -Real.sin (degreesToRadians p.latitude.value)
        else Real.sin (degreesToRadians p.latitude.value)) ∧
    Real.cos (degreesToRadians p.location.latitude) =
      Real.cos (degreesToRadians p.latitude.value) ∧
    (Real.sin (degreesToRadians p.location.longitude) =
      if p.west then -Real.sin (degreesToRadians p.longitude.value)
        else Real.sin (degreesToRadians p.longitude.value)) ∧
    Real.cos (degreesToRadians p.location.longitude) =
      Real.cos (degreesToRadians p.longitude.value) := by
  have hneg (x : ℝ) : degreesToRadians (-x) = -degreesToRadians x := by
    unfold degreesToRadians
    ring
  unfold location
  refine ⟨?_, ?_, ?_, ?_⟩
  · cases p.south <;> simp [hneg]
  · cases p.south <;> simp [hneg]
  · cases p.west <;> simp [hneg]
  · cases p.west <;> simp [hneg]

theorem cos_degrees_eq_iff (x y : ℝ) (hx : 0 ≤ x ∧ x ≤ 180) (hy : 0 ≤ y ∧ y ≤ 180) :
    Real.cos (degreesToRadians x) = Real.cos (degreesToRadians y) ↔ x = y := by
  rw [Real.injOn_cos.eq_iff (degreesToRadians_mem x hx) (degreesToRadians_mem y hy),
    degreesToRadians_inj]

theorem cos_degrees_eq_zero (x : ℝ) (hx : 0 ≤ x ∧ x ≤ 180) :
    Real.cos (degreesToRadians x) = 0 ↔ x = 90 := by
  have hright : degreesToRadians 90 = Real.pi / 2 := by
    unfold degreesToRadians
    ring
  rw [← cos_degrees_eq_iff x 90 hx (by norm_num), hright, Real.cos_pi_div_two]

theorem sin_degrees_eq_zero (x : ℝ) (hx : 0 ≤ x ∧ x ≤ 180) :
    Real.sin (degreesToRadians x) = 0 ↔ x = 0 ∨ x = 180 := by
  have hzero : Real.cos (degreesToRadians 0) = 1 := by simp [degreesToRadians]
  have hpi : Real.cos (degreesToRadians 180) = -1 := by simp [degreesToRadians]
  rw [Real.sin_eq_zero_iff_cos_eq, ← cos_degrees_eq_iff x 0 hx (by norm_num),
    ← cos_degrees_eq_iff x 180 hx (by norm_num), hzero, hpi]

/-- With the same digits only the letters can tell two positions apart. -/
theorem same_place_iff (p q : GeoPosition) (hlat : p.latitude = q.latitude)
    (hlon : p.longitude = q.longitude) :
    p.location.direction = q.location.direction ↔
      (p.south = q.south ∨ p.latitude.value = 0) ∧
      (p.west = q.west ∨ p.latitude.value = 90 ∨ p.longitude.value = 0 ∨
        p.longitude.value = 180) := by
  have hlatitude : 0 ≤ (p.latitude.value : ℝ) ∧ (p.latitude.value : ℝ) ≤ 90 := by
    constructor
    · exact_mod_cast p.latitude.value_nonneg
    · exact_mod_cast p.latitude_le
  have hlongitude : 0 ≤ (p.longitude.value : ℝ) ∧ (p.longitude.value : ℝ) ≤ 180 := by
    constructor
    · exact_mod_cast p.longitude.value_nonneg
    · exact_mod_cast p.longitude_le
  have hwide : 0 ≤ (p.latitude.value : ℝ) ∧ (p.latitude.value : ℝ) ≤ 180 :=
    ⟨hlatitude.1, hlatitude.2.trans (by norm_num)⟩
  have hne : (p.latitude.value : ℝ) ≠ 180 := by
    apply ne_of_lt
    exact lt_of_le_of_lt hlatitude.2 (by norm_num)
  obtain ⟨hsin, hcos, hsin', hcos'⟩ := p.trig_location
  obtain ⟨qsin, qcos, qsin', qcos'⟩ := q.trig_location
  rw [← hlat] at qsin qcos
  rw [← hlon] at qsin' qcos'
  rw [Coordinates.direction_eq, Coordinates.direction_eq, Sphere.point_ext_iff, hsin, hcos, hsin',
    hcos', qsin, qcos, qsin', qcos', and_iff_right rfl, mul_eq_mul_left_iff, signed_eq_iff,
    signed_eq_iff, sin_degrees_eq_zero _ hwide, sin_degrees_eq_zero _ hlongitude,
    cos_degrees_eq_zero _ hwide]
  norm_cast at hne ⊢
  rw [or_iff_left hne, and_comm, or_assoc, @or_comm (p.longitude.value = 0 ∨ _)]

theorem digits_iff (p q : GeoPosition) (hlat : p.latitude = q.latitude)
    (hlon : p.longitude = q.longitude) :
    p.readings.cosAngle q.readings = p.location.cosAngle q.location ↔
      p.location.direction = q.location.direction := by
  have hself : p.readings.distance q.readings = 0 := by
    rw [Coordinates.distance_eq_zero, readings, readings, hlat, hlon]
  rw [← Coordinates.distance_eq_iff, hself, eq_comm, Coordinates.distance_eq_zero]

theorem cos_degrees_eq_cos_iff (x y : ℝ) :
    Real.cos (degreesToRadians x) = Real.cos (degreesToRadians y) ↔
      ∃ k : ℤ, x = 360 * k + y ∨ x = 360 * k - y := by
  have hsum (k : ℤ) : 2 * k * Real.pi + degreesToRadians y = degreesToRadians (360 * k + y) := by
    unfold degreesToRadians
    ring
  have hdiff (k : ℤ) : 2 * k * Real.pi - degreesToRadians y = degreesToRadians (360 * k - y) := by
    unfold degreesToRadians
    ring
  rw [eq_comm, Real.cos_eq_cos_iff]
  simp only [hsum, hdiff, degreesToRadians_inj]

/-- On one meridian and in one hemisphere the distances agree only up to full circles. -/
theorem meridian_iff (p q : GeoPosition) (hsouth : p.south = q.south) (hwest : p.west = q.west)
    (hlon : p.longitude = q.longitude) :
    p.readings.cosAngle q.readings = p.location.cosAngle q.location ↔
      ∃ k : ℤ,
        p.latitude.decimal.value - q.latitude.decimal.value =
          360 * k + (p.latitude.value - q.latitude.value) ∨
        p.latitude.decimal.value - q.latitude.decimal.value =
          360 * k - (p.latitude.value - q.latitude.value) := by
  have hread : p.readings.longitude = q.readings.longitude := by
    simp only [readings, hlon]
  have hloc : p.location.longitude = q.location.longitude := by
    simp only [location, hlon, hwest]
  have hcos : Real.cos (degreesToRadians (p.location.latitude - q.location.latitude)) =
      Real.cos (degreesToRadians (p.latitude.value - q.latitude.value)) := by
    rw [degreesToRadians_sub, degreesToRadians_sub, Real.cos_sub, Real.cos_sub,
      p.trig_location.1, p.trig_location.2.1, q.trig_location.1, q.trig_location.2.1, hsouth]
    cases q.south <;> simp
  rw [Coordinates.cosAngle_of_longitude _ _ hread, Coordinates.cosAngle_of_longitude _ _ hloc, hcos,
    cos_degrees_eq_cos_iff]
  simp only [readings]
  norm_cast

theorem abs_latitude_sub (p q : GeoPosition) (hsouth : p.south = q.south) :
    |p.location.latitude - q.location.latitude| =
      |((p.latitude.value - q.latitude.value : Rat) : ℝ)| := by
  rw [location, location, hsouth, Rat.cast_sub]
  cases q.south
  · rfl
  · simp only [if_true]
    rw [neg_sub_neg, abs_sub_comm]

/-- Within one degree of a meridian every distance comes out sixty times too long. -/
theorem sixtyfold (p q : GeoPosition) (hsouth : p.south = q.south) (hwest : p.west = q.west)
    (hlon : p.longitude = q.longitude)
    (hdegrees : p.latitude.degrees = q.latitude.degrees) :
    p.readings.distance q.readings = 60 * p.location.distance q.location := by
  obtain ⟨hdecimal, hvalue⟩ := p.latitude.sub_of_degrees q.latitude hdegrees
  have hread : p.readings.latitude - q.readings.latitude =
      ((p.latitude.minute - q.latitude.minute : Rat) : ℝ) := by
    rw [← hdecimal, Rat.cast_sub]
    rfl
  have hloc : |p.location.latitude - q.location.latitude| =
      |((p.latitude.minute - q.latitude.minute : Rat) : ℝ)| / 60 := by
    rw [abs_latitude_sub p q hsouth, hvalue, Rat.cast_div, Rat.cast_ofNat, abs_div,
      abs_of_pos (by norm_num : (0 : ℝ) < 60)]
  have hle : |((p.latitude.minute - q.latitude.minute : Rat) : ℝ)| ≤ 60 := by
    exact_mod_cast p.latitude.abs_minute_sub_le q.latitude
  rw [Coordinates.distance_of_longitude, Coordinates.distance_of_longitude, hread, hloc]
  · unfold degreesToRadians
    ring
  · simp only [location, hlon, hwest]
  · rw [hloc]
    linarith [abs_nonneg ((p.latitude.minute - q.latitude.minute : Rat) : ℝ)]
  · simp only [readings, hlon]
  · rw [hread]
    linarith

theorem decimal_of_value_zero {k : Nat} (a : DegreeMinutes k) (h : a.value = 0) :
    a.decimal.value = 0 := by
  have hminute := a.minute_nonneg
  have hdegrees : (0 : Rat) ≤ digitsValue 10 a.degrees := Nat.cast_nonneg _
  unfold DegreeMinutes.value at h
  rw [a.value_decimal]
  linarith

/-- On the equator only the difference of the longitudes counts, up to full circles. -/
theorem equator_iff (p q : GeoPosition) (hp : p.latitude.value = 0) (hq : q.latitude.value = 0) :
    p.readings.cosAngle q.readings = p.location.cosAngle q.location ↔
      ∃ k : ℤ,
        q.longitude.decimal.value - p.longitude.decimal.value =
          360 * k + (q.signedLongitude - p.signedLongitude) ∨
        q.longitude.decimal.value - p.longitude.decimal.value =
          360 * k - (q.signedLongitude - p.signedLongitude) := by
  have hequator (c d : Coordinates) (hc : c.latitude = 0) (hd : d.latitude = 0) :
      c.cosAngle d = Real.cos (degreesToRadians (d.longitude - c.longitude)) := by
    have hzero : degreesToRadians 0 = 0 := by simp [degreesToRadians]
    rw [Coordinates.cosAngle, hc, hd, hzero, Real.sin_zero, Real.cos_zero]
    ring
  have hread (p : GeoPosition) (h : p.latitude.value = 0) : p.readings.latitude = 0 := by
    rw [readings, decimal_of_value_zero p.latitude h, Rat.cast_zero]
  have hloc (p : GeoPosition) (h : p.latitude.value = 0) : p.location.latitude = 0 := by
    simp [location, h]
  rw [hequator _ _ (hread p hp) (hread q hq), hequator _ _ (hloc p hp) (hloc q hq),
    location_eq, location_eq, cos_degrees_eq_cos_iff]
  simp only [readings]
  norm_cast

theorem accepted (p : GeoPosition) (c : Char) (rest : List Char) (hc : c.isDigit = true) :
    ∃ fix, acceptedFix (p.sentence (c :: rest)) = some fix :=
  position_accepted _ _ _ _ c rest p.latitude.digits_ne_nil p.longitude.digits_ne_nil hc

/-- The eighth meridian east at forty-five and a half degrees. -/
def midLatitude (south : Bool) : GeoPosition where
  latitude := ⟨['4', '5'], ['3', '0'], ['0', '0', '0', '0'], rfl, rfl, by decide, by decide⟩
  south := south
  longitude := ⟨['0', '0', '8'], ['0', '0'], ['0', '0', '0', '0'], rfl, rfl, by decide, by decide⟩
  west := false
  latitude_le := by decide +kernel
  longitude_le := by decide +kernel

/-- Where the equator meets the ninetieth meridian east. -/
def quarterEast : GeoPosition where
  latitude := ⟨['0', '0'], ['0', '0'], [], rfl, rfl, by decide, by decide⟩
  south := false
  longitude := ⟨['0', '9', '0'], ['0', '0'], [], rfl, rfl, by decide, by decide⟩
  west := false
  latitude_le := by decide +kernel
  longitude_le := by decide +kernel

/-- Four degrees and fifty minutes north on the zero meridian. -/
def zeroMeridian : GeoPosition where
  latitude := ⟨['0', '4'], ['5', '0'], [], rfl, rfl, by decide, by decide⟩
  south := false
  longitude := ⟨['0', '0', '0'], ['0', '0'], [], rfl, rfl, by decide, by decide⟩
  west := false
  latitude_le := by decide +kernel
  longitude_le := by decide +kernel

end GeoPosition

/-- `haversine_distance` measures between the positions denoted exactly when the angles of
readings and positions cancel up to regular polygons, as they do when they are pairs of opposite
directions. Same digits, one meridian and the equator leave questions of arithmetic. -/
theorem haversine_position_iff (p q : GeoPosition) (rest rest' : List Char) (f g : GllFix)
    (hf : acceptedFix (p.sentence rest) = some f)
    (hg : acceptedFix (q.sentence rest') = some g) :
    (p.Measured q f g ↔ Directions.Balanced (p.discrepancy q)) ∧
    (Directions.PairsOff (p.discrepancy q) → p.Measured q f g) ∧
    (p.latitude = q.latitude → p.longitude = q.longitude →
      (p.Measured q f g ↔ (p.south = q.south ∨ p.latitude.value = 0) ∧
        (p.west = q.west ∨ p.latitude.value = 90 ∨ p.longitude.value = 0 ∨
          p.longitude.value = 180))) ∧
    (p.south = q.south → p.west = q.west → p.longitude = q.longitude →
      (p.Measured q f g ↔ ∃ k : ℤ,
        p.latitude.decimal.value - q.latitude.decimal.value =
          360 * k + (p.latitude.value - q.latitude.value) ∨
        p.latitude.decimal.value - q.latitude.decimal.value =
          360 * k - (p.latitude.value - q.latitude.value))) ∧
    (p.latitude.value = 0 → q.latitude.value = 0 →
      (p.Measured q f g ↔ ∃ k : ℤ,
        q.longitude.decimal.value - p.longitude.decimal.value =
          360 * k + (q.signedLongitude - p.signedLongitude) ∨
        q.longitude.decimal.value - p.longitude.decimal.value =
          360 * k - (q.signedLongitude - p.signedLongitude))) := by
  have hiff := p.measured_iff q f g (p.coordinates_of_accepted rest f hf)
    (q.coordinates_of_accepted rest' g hg)
  have hbalanced := hiff.trans (p.balanced_discrepancy q).symm
  refine ⟨hbalanced, fun hpairs => hbalanced.mpr hpairs.balanced, fun hlat hlon => hiff.trans ?_,
    fun hsouth hwest hlon => hiff.trans ?_, fun hp hq => hiff.trans (p.equator_iff q hp hq)⟩
  · exact (p.digits_iff q hlat hlon).trans (p.same_place_iff q hlat hlon)
  · exact p.meridian_iff q hsouth hwest hlon

/-- Both the positions and their readings are a quarter of a circle apart. -/
theorem haversine_position_iff_quarter :
    let p := GeoPosition.quarterEast
    let q := GeoPosition.zeroMeridian
    p.sentence "120000,A".toList = "$GPGLL,0000.,N,09000.,E,120000,A".toList ∧
    q.sentence "120000,A".toList = "$GPGLL,0450.,N,00000.,E,120000,A".toList ∧
    ∃ f g, acceptedFix (p.sentence "120000,A".toList) = some f ∧
      acceptedFix (q.sentence "120000,A".toList) = some g ∧ p.Measured q f g := by
  intro p q
  obtain ⟨f, hf⟩ := p.accepted '1' "20000,A".toList (by decide)
  obtain ⟨g, hg⟩ := q.accepted '1' "20000,A".toList (by decide)
  obtain ⟨-, hpairs, -⟩ := haversine_position_iff p q _ _ f g hf hg
  refine ⟨by decide +kernel, by decide +kernel, f, g, hf, hg, hpairs ?_⟩
  refine ⟨[(-450, -450), (-270, -270), (-9450, 8550), (-8550, 9450), (1109 / 6, 29 / 6),
    (1109 / 6, 29 / 6), (1649 / 6, 569 / 6), (1591 / 6, 511 / 6)], by decide +kernel, ?_⟩
  simp only [List.forall_mem_cons, List.not_mem_nil, false_implies, implies_true, and_true]
  refine ⟨⟨-3, .inr ?_⟩, ⟨-2, .inr ?_⟩, ⟨-3, .inr ?_⟩, ⟨2, .inr ?_⟩, ⟨0, .inl ?_⟩, ⟨0, .inl ?_⟩,
    ⟨0, .inl ?_⟩, ⟨0, .inl ?_⟩⟩ <;> norm_num

/-- Ninety-one degrees of latitude apart, and no distance: the letters are not looked at. -/
theorem haversine_ignores_letters :
    let north := GeoPosition.midLatitude false
    let south := GeoPosition.midLatitude true
    north.sentence "120000,A".toList = "$GPGLL,4530.0000,N,00800.0000,E,120000,A".toList ∧
    south.sentence "120000,A".toList = "$GPGLL,4530.0000,S,00800.0000,E,120000,A".toList ∧
    ∃ f g, acceptedFix (north.sentence "120000,A".toList) = some f ∧
      acceptedFix (south.sentence "120000,A".toList) = some g ∧
      haversineDistance f g = 0 ∧ north.location.direction ≠ south.location.direction ∧
      ¬north.Measured south f g := by
  intro north south
  obtain ⟨f, hf⟩ := north.accepted '1' "20000,A".toList (by decide)
  obtain ⟨g, hg⟩ := south.accepted '1' "20000,A".toList (by decide)
  have hapart : north.location.direction ≠ south.location.direction := by
    rw [Ne, north.same_place_iff south rfl rfl]
    decide +kernel
  have hzero : haversineDistance f g = 0 := by
    rw [haversineDistance_eq, north.coordinates_of_accepted _ f hf,
      south.coordinates_of_accepted _ g hg]
    exact (Coordinates.distance_eq_zero _ _).mpr rfl
  refine ⟨by decide +kernel, by decide +kernel, f, g, hf, hg, hzero, hapart, ?_⟩
  intro hmeasured
  exact hapart (hmeasured.2.mp hzero)

end GeoPosition

end LFBenchmarks.FlyByWire
