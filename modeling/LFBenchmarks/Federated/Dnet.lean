import LFBenchmarks.ReactorC.Bounds

namespace LFBenchmarks.Federated

open ReactorC

/-- What a federate need not announce (`rti_common.c`): the difference of a tag and a delay.
`UINT_MAX` is the microstep `-1`. -/
def getDnetCandidate (nextEventTag minimumDelay : Tag) : Tag :=
  if nextEventTag.time = never ∨ lfTagCompare nextEventTag minimumDelay < 0 then neverTag
  else if nextEventTag.time = forever then foreverTag
  else
    let time := nextEventTag.time - minimumDelay.time
    if nextEventTag.microstep < minimumDelay.microstep then ⟨time - 1, -1⟩
    else if minimumDelay.time = 0 then ⟨time, nextEventTag.microstep - minimumDelay.microstep⟩
    else ⟨time, -1⟩

theorem getDnetCandidate_of_lt {a b : Tag} (h : a < b) : getDnetCandidate a b = neverTag :=
  if_pos (.inr ((lfTagCompare_lt_zero _ _).mpr h))

theorem getDnetCandidate_foreverTag (b : Tag) : getDnetCandidate foreverTag b = foreverTag := by
  have hle : ¬lfTagCompare foreverTag b < 0 := by
    rw [lfTagCompare_lt_zero]
    exact not_lt.mpr le_top
  have htime : foreverTag.time = forever := rfl
  rw [getDnetCandidate, if_neg (not_or.mpr ⟨by decide, hle⟩), if_pos htime]

theorem getDnetCandidate_of_le {a b : Tag} (ha : a.time ≠ forever) (hb : zeroTag ≤ b) (h : b ≤ a) :
    getDnetCandidate a b = if a.microstep < b.microstep then ⟨a.time - b.time - 1, -1⟩
      else if b.time = 0 then ⟨a.time - b.time, a.microstep - b.microstep⟩
      else ⟨a.time - b.time, -1⟩ := by
  have hnever : a.time ≠ never := by
    have hzero := (zeroTag_le a).mp (hb.trans h)
    unfold never
    grind
  have hlt : ¬lfTagCompare a b < 0 := by
    rw [lfTagCompare_lt_zero]
    exact not_lt.mpr h
  rw [getDnetCandidate, if_neg (not_or.mpr ⟨hnever, hlt⟩), if_neg ha]

theorem le_iff_toInt (a b : Tag) : a ≤ b ↔ a.time.toInt < b.time.toInt ∨
    a.time.toInt = b.time.toInt ∧ a.microstep.toNat ≤ b.microstep.toNat := by
  rw [Tag.le_def, Int64.lt_iff_toInt_lt, Int64.toInt_inj, UInt32.le_iff_toNat_le]

theorem toInt_sub_of_le {s t : Int64} (ht : 0 ≤ t) (h : t ≤ s) :
    (s - t).toInt = s.toInt - t.toInt := by
  rw [Int64.le_iff_toInt_le] at ht h
  rw [Int64.toInt_zero] at ht
  have hlt := s.toInt_lt
  rw [Int64.toInt_sub, Int.bmod_eq_of_le (by omega) (by omega)]

/-- After the delay `b`, `x` is not later than `a`, in numbers without bounds. -/
def SumLe (x b a : Tag) : Prop :=
  x.time.toInt + b.time.toInt < a.time.toInt ∨
    x.time.toInt + b.time.toInt = a.time.toInt ∧ b.microstep.toNat ≤ a.microstep.toNat ∧
      (b.time = 0 → x.microstep.toNat + b.microstep.toNat ≤ a.microstep.toNat)

theorem le_getDnetCandidate_of_le {a b x : Tag} (ha : a.time ≠ forever) (hb : zeroTag ≤ b)
    (h : b ≤ a) : x ≤ getDnetCandidate a b ↔ SumLe x b a := by
  rw [getDnetCandidate_of_le ha hb h]
  rw [zeroTag_le] at hb
  have htime : b.time ≤ a.time := by
    rw [Tag.le_def] at h
    grind
  have hsub := toInt_sub_of_le hb htime
  have hone : (a.time - b.time - 1).toInt = a.time.toInt - b.time.toInt - 1 := by
    have hlt := a.time.toInt_lt
    have hnonneg := Int64.le_iff_toInt_le.mp hb
    have hle := Int64.le_iff_toInt_le.mp htime
    rw [Int64.toInt_zero] at hnonneg
    rw [Int64.toInt_sub, hsub, Int64.toInt_one, Int.bmod_eq_of_le (by omega) (by omega)]
  have hlast : (-1 : UInt32).toNat = 2 ^ 32 - 1 := rfl
  have hmx := x.microstep.toNat_lt
  unfold SumLe
  split_ifs with hless hdelay
  · rw [UInt32.lt_iff_toNat_lt] at hless
    simp only [le_iff_toInt, hone]
    omega
  · have hmicro : (a.microstep - b.microstep).toNat = a.microstep.toNat - b.microstep.toNat :=
      UInt32.toNat_sub_of_le _ _ (UInt32.not_lt.mp hless)
    have hzero : b.time.toInt = 0 := by rw [hdelay, Int64.toInt_zero]
    rw [UInt32.lt_iff_toNat_lt] at hless
    simp only [le_iff_toInt, hsub, hmicro]
    rw [forall_prop_of_true hdelay]
    omega
  · rw [UInt32.lt_iff_toNat_lt] at hless
    simp only [le_iff_toInt, hsub, hlast, hdelay, false_implies, and_true]
    omega

theorem lfTagAdd_le_iff {a b x : Tag} (ha : a.time ≠ forever) (hb : zeroTag ≤ b)
    (hx : zeroTag ≤ x)
    (hm : b.time = 0 → x.microstep.toNat + b.microstep.toNat < 2 ^ 32) :
    lfTagAdd x b ≤ a ↔ SumLe x b a := by
  rw [zeroTag_le] at hb hx
  have hfinite : ¬foreverTag ≤ a := fun h => ha (congrArg Tag.time (top_le_iff.mp h))
  have hlt : a.time.toInt < forever.toInt := by
    have hle : a.time.toInt ≤ forever.toInt := Int64.toInt_le _
    have hne : a.time.toInt ≠ forever.toInt := fun h => ha (Int64.toInt_inj.mp h)
    omega
  unfold SumLe
  rw [lfTagAdd_of_nonneg hx hb]
  by_cases hover : forever - b.time ≤ x.time
  · rw [if_pos hover, iff_false_left hfinite]
    rw [forever_sub_le _ hb] at hover
    omega
  have hadd := toInt_add_of_lt hx hb hover
  rw [if_neg hover]
  by_cases hpos : 0 < b.time
  · have hne : b.time ≠ 0 := by grind
    simp only [if_pos hpos, le_iff_toInt, hadd, hne, false_implies, and_true]
  · have hzero : b.time = 0 := by grind
    have hwrap : ¬x.microstep + b.microstep < x.microstep := by
      rw [UInt32.lt_iff_toNat_lt, UInt32.toNat_add, Nat.mod_eq_of_lt (hm hzero)]
      omega
    have hsum : (x.microstep + b.microstep).toNat = x.microstep.toNat + b.microstep.toNat :=
      toNat_add_of_not_lt hwrap
    rw [if_neg hpos, if_neg hwrap, le_iff_toInt, hsum]
    simp only [hzero, Int64.toInt_zero, forall_const]
    omega

/-- The candidate undoes the addition: an event is not later than it exactly when, after the
delay, it is not later than the tag the candidate was computed from. -/
theorem le_getDnetCandidate {a b x : Tag} (ha : a.time = forever → a = foreverTag)
    (hb : zeroTag ≤ b) (hx : zeroTag ≤ x)
    (hm : b.time = 0 → x.microstep.toNat + b.microstep.toNat < 2 ^ 32) :
    x ≤ getDnetCandidate a b ↔ lfTagAdd x b ≤ a := by
  rcases lt_or_ge a b with hlt | hge
  · rw [getDnetCandidate_of_lt hlt]
    constructor
    · intro h
      exact absurd (hx.trans h) (by decide)
    · intro h
      exact absurd (hlt.trans_le ((le_lfTagAdd hx hb).trans h)) (lt_irrefl a)
  by_cases htop : a.time = forever
  · rw [ha htop, getDnetCandidate_foreverTag]
    exact iff_of_true le_top le_top
  · rw [le_getDnetCandidate_of_le htop hb hge, lfTagAdd_le_iff htop hb hx hm]

/-- An event seven microsteps after 20 ns is covered by an announcement 10 ns later. -/
theorem le_getDnetCandidate_positive :
    (⟨20, 7⟩ : Tag) ≤ getDnetCandidate ⟨30, 0⟩ ⟨10, 0⟩ ↔ lfTagAdd ⟨20, 7⟩ ⟨10, 0⟩ ≤ ⟨30, 0⟩ :=
  le_getDnetCandidate (by decide) (by decide) (by decide) (by decide)

end LFBenchmarks.Federated
