import LFBenchmarks.Framework.Superdense
import LFBenchmarks.ReactorC.Tag

namespace LFBenchmarks.ReactorC

section Bounds

open Superdense

/-- A tag as a point in superdense time. -/
def Tag.super (a : Tag) : Superdense := point a.time.toInt a.microstep.toNat

/-- From here on the tags are `forever`. -/
def endOfTime : Superdense := point forever.toInt 0

/-- A tag at `forever` stands for every point from there on. -/
def Tag.floor (a : Tag) : Superdense := min a.super endOfTime

theorem super_le_super (a b : Tag) : a.super ≤ b.super ↔ a ≤ b := by
  rw [Tag.super, Tag.super, le_point, Tag.le_def, Int64.lt_iff_toInt_lt, Int64.toInt_inj,
    UInt32.le_iff_toNat_le]

theorem super_lt_super (a b : Tag) : a.super < b.super ↔ a < b := by
  rw [Tag.super, Tag.super, lt_point, Tag.lt_def, Int64.lt_iff_toInt_lt, Int64.toInt_inj,
    UInt32.lt_iff_toNat_lt]

theorem floor_le_super (a : Tag) : a.floor ≤ a.super := min_le_left _ _

theorem floor_mono : Monotone Tag.floor :=
  fun a b h => le_min ((min_le_left _ _).trans ((super_le_super a b).mpr h)) (min_le_right _ _)

theorem super_lt_endOfTime {a : Tag} (h : a.time ≠ forever) : a.super < endOfTime := by
  rw [Tag.super, endOfTime, lt_point]
  have : a.time.toInt ≠ forever.toInt := fun he => h (Int64.toInt_inj.mp he)
  have hle : a.time.toInt ≤ forever.toInt := Int64.toInt_le _
  omega

theorem floor_of_ne {a : Tag} (h : a.time ≠ forever) : a.floor = a.super :=
  min_eq_left (super_lt_endOfTime h).le

theorem floor_foreverTag : foreverTag.floor = endOfTime := by
  refine min_eq_right ?_
  rw [Tag.super, endOfTime, le_point]
  exact .inr ⟨rfl, Nat.zero_le _⟩

theorem zero_le_super {a : Tag} (h : zeroTag ≤ a) : point 0 0 ≤ a.super := by
  rw [show point 0 0 = zeroTag.super from rfl, super_le_super]
  exact h

theorem zero_le_floor {a : Tag} (h : zeroTag ≤ a) : point 0 0 ≤ a.floor :=
  le_min (zero_le_super h) (by decide)

theorem forever_sub_le (a : Int64) {b : Int64} (hb : 0 ≤ b) :
    forever - b ≤ a ↔ forever.toInt ≤ a.toInt + b.toInt := by
  rw [Int64.le_iff_toInt_le, Int64.toInt_zero] at hb
  have hf : forever.toInt = 2 ^ 63 - 1 := rfl
  have hlt := b.toInt_lt
  rw [Int64.le_iff_toInt_le, Int64.toInt_sub, hf, Int.bmod_eq_of_le (by omega) (by omega)]
  omega

theorem toInt_add_of_lt {a b : Int64} (ha : 0 ≤ a) (hb : 0 ≤ b) (h : ¬forever - b ≤ a) :
    (a + b).toInt = a.toInt + b.toInt := by
  rw [forever_sub_le a hb] at h
  rw [Int64.le_iff_toInt_le, Int64.toInt_zero] at ha hb
  have hf : forever.toInt = 2 ^ 63 - 1 := rfl
  rw [Int64.toInt_add, Int.bmod_eq_of_le (by omega) (by omega)]

theorem toNat_add_of_not_lt {x y : UInt32} (h : ¬x + y < x) :
    (x + y).toNat = x.toNat + y.toNat := by
  rw [UInt32.lt_iff_toNat_lt, UInt32.toNat_add] at h
  rw [UInt32.toNat_add]
  have hx := x.toNat_lt
  have hy := y.toNat_lt
  omega

/-- A sum that stays below `forever` is the sum in superdense time. -/
theorem super_lfTagAdd {a b : Tag} (ha : zeroTag ≤ a) (hb : zeroTag ≤ b)
    (h : lfTagAdd a b ≠ foreverTag) : (lfTagAdd a b).super = plus a.super b.super := by
  rw [zeroTag_le] at ha hb
  rw [lfTagAdd_of_nonneg ha hb] at h ⊢
  have htime : ¬forever - b.time ≤ a.time := fun htime => h (if_pos htime)
  rw [if_neg htime] at h ⊢
  simp only [Tag.super, plus_point, Int64.lt_iff_toInt_lt, Int64.toInt_zero] at h ⊢
  split_ifs at h ⊢ with hpos hwrap
  · rw [toInt_add_of_lt ha hb htime]
  · exact absurd rfl h
  · rw [toNat_add_of_not_lt hwrap]

/-- A sum that reaches `forever` does so in superdense time, unless its microsteps have wrapped. -/
theorem endOfTime_le_plus {a b : Tag} (ha : zeroTag ≤ a) (hb : zeroTag ≤ b)
    (hm : a.microstep.toNat + b.microstep.toNat < 2 ^ 32) (h : lfTagAdd a b = foreverTag) :
    endOfTime ≤ plus a.super b.super := by
  rw [zeroTag_le] at ha hb
  have hb' : 0 ≤ b.time.toInt := Int64.le_iff_toInt_le.mp hb
  by_cases htime : forever - b.time ≤ a.time
  · rw [forever_sub_le _ hb] at htime
    rw [Tag.super, Tag.super, plus_point, endOfTime]
    split_ifs <;> rw [le_point] <;> omega
  · have hsum := toInt_add_of_lt ha hb htime
    have hwrap : ¬a.microstep + b.microstep < a.microstep := by
      rw [UInt32.lt_iff_toNat_lt, UInt32.toNat_add, Nat.mod_eq_of_lt hm]
      omega
    rw [lfTagAdd_of_nonneg ha hb, if_neg htime, if_neg hwrap] at h
    rw [forever_sub_le _ hb] at htime
    split_ifs at h with hpos
    · have := congrArg (fun t => t.time.toInt) h
      simp only [hsum] at this
      exact absurd this (by rw [foreverTag]; simp only; omega)
    · have := congrArg (fun t => t.time.toInt) h
      exact absurd this (by rw [foreverTag]; simp only; omega)

/-- Lower bounds add up. -/
theorem floor_lfTagAdd_le {a b : Tag} {a' b' : Superdense} (ha : zeroTag ≤ a) (hb : zeroTag ≤ b)
    (hatop : a.time = forever → a = foreverTag) (hbtop : b.time = forever → b = foreverTag)
    (hm : a = foreverTag ∨ b = foreverTag ∨ a.microstep.toNat + b.microstep.toNat < 2 ^ 32)
    (hle : a.floor ≤ a') (hle' : b.floor ≤ b') : (lfTagAdd a b).floor ≤ plus a' b' := by
  have ha' := (zero_le_floor ha).trans hle
  have hb' := (zero_le_floor hb).trans hle'
  by_cases hatop' : a = foreverTag
  · rw [hatop', foreverTag_lfTagAdd hb]
    rw [hatop'] at hle
    exact hle.trans (le_plus_self a' hb')
  by_cases hbtop' : b = foreverTag
  · rw [hbtop', lfTagAdd_foreverTag ha]
    rw [hbtop'] at hle'
    exact hle'.trans (le_plus ha')
  rw [floor_of_ne fun h => hatop' (hatop h)] at hle
  rw [floor_of_ne fun h => hbtop' (hbtop h)] at hle'
  have hplus := plus_le_plus (zero_le_super hb) hle hle'
  by_cases htop : lfTagAdd a b = foreverTag
  · rw [htop, floor_foreverTag]
    exact (endOfTime_le_plus ha hb ((hm.resolve_left hatop').resolve_left hbtop') htop).trans hplus
  · exact (floor_le_super _).trans ((super_lfTagAdd ha hb htop).le.trans hplus)

end Bounds

section Delays

open Superdense

theorem super_lfDelayTag_zeroTag {d : Int64} (hd : d ≠ forever) :
    (lfDelayTag zeroTag d).super = ofDelay d.toInt := by
  have hneg : d < 0 ↔ d.toInt < 0 := by rw [Int64.lt_iff_toInt_lt, Int64.toInt_zero]
  have hzero : d = 0 ↔ d.toInt = 0 := by rw [← Int64.toInt_inj, Int64.toInt_zero]
  rw [lfDelayTag_zeroTag, if_neg hd, ofDelay]
  simp only [hneg, hzero]
  split_ifs <;> rfl

theorem floor_lfDelayTag_zeroTag (d : Int64) :
    (lfDelayTag zeroTag d).floor = ofDelay d.toInt := by
  by_cases hd : d = forever
  · rw [hd]
    decide
  · rw [Tag.floor, super_lfDelayTag_zeroTag hd]
    refine min_eq_left ?_
    have hle : d.toInt ≤ forever.toInt := Int64.toInt_le _
    have hpos : 0 < forever.toInt := by decide
    unfold ofDelay endOfTime
    split_ifs <;> rw [le_point] <;> omega

theorem ofDelay_le_ofDelay {d d' : Int64} (h : lfDelayTag zeroTag d ≤ lfDelayTag zeroTag d') :
    ofDelay d.toInt ≤ ofDelay d'.toInt := by
  rw [← floor_lfDelayTag_zeroTag, ← floor_lfDelayTag_zeroTag]
  exact floor_mono h

/-- The tag a message is given is the one it has in superdense time. -/
theorem super_lfDelayTag {g : Tag} {d : Int64} (hg : zeroTag ≤ g) (htime : g.time ≠ forever)
    (hm : g.microstep.toNat + 1 < 2 ^ 32) (h : lfDelayTag g d ≠ foreverTag) :
    (lfDelayTag g d).super = after d.toInt g.super := by
  rw [lfDelayTag_eq_lfTagAdd d hg (fun h => absurd h htime) (.inr hm)] at h ⊢
  have hd : d ≠ forever := by
    rintro rfl
    exact h (lfTagAdd_foreverTag hg)
  rw [super_lfTagAdd hg (zeroTag_le_lfDelayTag d) h, super_lfDelayTag_zeroTag hd, after]

theorem lfDelayStrict_neverTag (d : Int64) : lfDelayStrict neverTag d = neverTag := by
  simp [lfDelayStrict, lfDelayTag, neverTag]

theorem lfDelayStrict_le {c : Tag} {d : Int64} (hc : zeroTag ≤ c) (hd : d < 0) :
    lfDelayStrict c d ≤ c := by
  rw [zeroTag_le] at hc
  have hlt : c.time - 1 < c.time := by grind
  simp only [lfDelayStrict, lfDelayTag, hd, or_true, if_true]
  split_ifs
  · exact .inl hlt
  · exact le_rfl

/-- Where no tag reaches `forever`, the last tag before a delay has passed. -/
theorem lfDelayStrict_of_pos {c : Tag} {d : Int64} (hc : 0 ≤ c.time) (hd : 0 < d)
    (hover : ¬forever - d ≤ c.time) :
    lfDelayStrict c d = ⟨c.time + d - 1, -1⟩ := by
  have hnever : c.time ≠ never := by
    unfold never
    grind
  have hsum : c.time + d ≠ never ∧ c.time + d ≠ forever := by
    unfold never forever at *
    grind
  have hd' : ¬d < 0 ∧ d ≠ 0 ∧ d ≠ never ∧ d ≠ forever := by
    unfold never forever at *
    grind
  simp [lfDelayStrict, lfDelayTag, hnever, hover, hd', hsum]

/-- What a federate that has completed a tag rules out downstream: whatever comes after that tag
arrives later. -/
theorem lfDelayStrict_lt {c : Tag} {x : Superdense} (d : Int64) (hc : c = neverTag ∨ zeroTag ≤ c)
    (hm : c.microstep.toNat + 1 < 2 ^ 32) (hx : point 0 0 ≤ x) (h : c.super < x) :
    endOfTime ≤ after d.toInt x ∨ (lfDelayStrict c d).super < after d.toInt x := by
  have hle := le_after d.toInt x
  rcases hc with rfl | hc
  · rw [lfDelayStrict_neverTag]
    exact .inr (h.trans_le hle)
  by_cases hd : d < 0
  · exact .inr ((((super_le_super _ _).mpr (lfDelayStrict_le hc hd)).trans_lt h).trans_le hle)
  have hd : 0 ≤ d := by grind
  have hdInt : 0 ≤ d.toInt := Int64.le_iff_toInt_le.mp hd
  have hcTime := (zeroTag_le c).mp hc
  obtain ⟨t, m, rfl⟩ := eq_point x
  rw [Tag.super, lt_point] at h
  by_cases hover : forever - d ≤ c.time
  · refine .inl ?_
    rw [forever_sub_le _ hd] at hover
    rw [after_point, if_neg (by omega), endOfTime]
    split_ifs <;> rw [le_point] <;> omega
  refine .inr ?_
  by_cases hpos : 0 < d
  · have hdPos : 0 < d.toInt := Int64.lt_iff_toInt_lt.mp hpos
    have hsum := toInt_add_of_lt hcTime hd hover
    rw [lfDelayStrict_of_pos hcTime hpos hover, after_point, if_neg (by omega), if_neg (by omega),
      Tag.super, lt_point]
    refine .inl ?_
    have hone : (c.time + d - 1).toInt = c.time.toInt + d.toInt - 1 := by
      have hlt := (c.time + d).toInt_lt
      have hnonneg : 0 ≤ c.time.toInt := Int64.le_iff_toInt_le.mp hcTime
      rw [Int64.toInt_sub, hsum, Int64.toInt_one, Int.bmod_eq_of_le (by omega) (by omega)]
    change (c.time + d - 1).toInt < t + d.toInt
    omega
  · have hzero : d = 0 := by grind
    subst hzero
    have hnever : c.time ≠ never := by
      unfold never
      grind
    have hstrict : lfDelayStrict c 0 = ⟨c.time, c.microstep + 1⟩ := by
      simp only [lfDelayStrict, lfDelayTag, hover, if_false]
      simp [hnever]
    rw [hstrict, Int64.toInt_zero, after_point, if_neg (by omega), if_pos rfl, Tag.super, lt_point,
      UInt32.toNat_add, UInt32.toNat_one, Nat.mod_eq_of_lt hm]
    change c.time.toInt < t ∨ c.time.toInt = t ∧ _
    omega

theorem lfTagLatestEarlier_lt {t : Tag} (hbot : t ≠ neverTag) (htop : t ≠ foreverTag) :
    lfTagLatestEarlier t < t := by
  have hpos : t.microstep ≠ 0 → t.microstep - 1 < t.microstep := by grind
  have htime : t.microstep = 0 → t.time - 1 < t.time := by
    intro h
    have hne : t.time ≠ never := fun h' => hbot (Tag.ext h' h)
    unfold never at hne
    grind
  unfold lfTagLatestEarlier
  simp only [lfTagCompare_eq_zero, hbot, htop, or_self, if_false]
  split_ifs with h
  · exact .inl (htime h)
  · exact .inr ⟨rfl, hpos h⟩

end Delays

end LFBenchmarks.ReactorC
