import Mathlib

namespace LFBenchmarks.ReactorC

def never : Int64 := Int64.minValue

def forever : Int64 := Int64.maxValue

@[ext] structure Tag where
  time : Int64
  microstep : UInt32
  deriving DecidableEq, Repr

def neverTag : Tag := ⟨never, 0⟩

def foreverTag : Tag := ⟨forever, -1⟩

def zeroTag : Tag := ⟨0, 0⟩

section Functions

def lfTimeAdd (a b : Int64) : Int64 :=
  if a = never ∨ b = never then never
  else if a = forever ∨ b = forever then forever
  else if a + b < a ∧ 0 < b then forever
  else if a < a + b ∧ b < 0 then never
  else a + b

/-- Not commutative: a second argument with a positive time drops the microstep of the first. -/
def lfTagAdd (a b : Tag) : Tag :=
  let res := lfTimeAdd a.time b.time
  if res = forever then foreverTag
  else if res = never then neverTag
  else
    let microstep := if 0 < b.time then 0 else a.microstep
    -- the microsteps wrap
    if microstep + b.microstep < microstep then foreverTag
    else ⟨res, microstep + b.microstep⟩

def lfTagCompare (tag1 tag2 : Tag) : Int :=
  if tag1.time < tag2.time then -1
  else if tag2.time < tag1.time then 1
  else if tag1.microstep < tag2.microstep then -1
  else if tag2.microstep < tag1.microstep then 1
  else 0

/-- A negative interval, `never` among them, is a connection without a delay. -/
def lfDelayTag (tag : Tag) (interval : Int64) : Tag :=
  if tag.time = never ∨ interval < 0 then tag
  else if forever - interval ≤ tag.time then foreverTag
  else if interval = 0 then { tag with microstep := tag.microstep + 1 }
  else ⟨tag.time + interval, 0⟩

def lfDelayStrict (tag : Tag) (interval : Int64) : Tag :=
  let result := lfDelayTag tag interval
  if interval ≠ 0 ∧ interval ≠ never ∧ interval ≠ forever ∧ result.time ≠ never ∧
      result.time ≠ forever then ⟨result.time - 1, -1⟩
  else result

def lfTagLatestEarlier (tag : Tag) : Tag :=
  if lfTagCompare tag neverTag = 0 ∨ lfTagCompare tag foreverTag = 0 then tag
  else if tag.microstep = 0 then ⟨tag.time - 1, -1⟩
  else { tag with microstep := tag.microstep - 1 }

end Functions

section Order

instance : LE Tag := ⟨fun a b => a.time < b.time ∨ a.time = b.time ∧ a.microstep ≤ b.microstep⟩

instance : LT Tag := ⟨fun a b => a.time < b.time ∨ a.time = b.time ∧ a.microstep < b.microstep⟩

theorem Tag.le_def (a b : Tag) :
    a ≤ b ↔ a.time < b.time ∨ a.time = b.time ∧ a.microstep ≤ b.microstep := .rfl

theorem Tag.lt_def (a b : Tag) :
    a < b ↔ a.time < b.time ∨ a.time = b.time ∧ a.microstep < b.microstep := .rfl

instance : DecidableLE Tag := fun _ _ => inferInstanceAs (Decidable (_ ∨ _))

instance : DecidableLT Tag := fun _ _ => inferInstanceAs (Decidable (_ ∨ _))

instance : LinearOrder Tag where
  le_refl a := by grind [Tag.le_def]
  le_trans a b c := by grind [Tag.le_def]
  lt_iff_le_not_ge a b := by grind [Tag.le_def, Tag.lt_def]
  le_antisymm a b := by grind [Tag.le_def, Tag.ext_iff]
  le_total a b := by grind [Tag.le_def]
  toDecidableLE := inferInstance
  toDecidableLT := inferInstance

instance : BoundedOrder Tag where
  top := foreverTag
  le_top a := by grind [Tag.le_def, foreverTag, forever]
  bot := neverTag
  bot_le a := by grind [Tag.le_def, neverTag, never]

theorem top_eq : (⊤ : Tag) = foreverTag := rfl

@[simp] theorem lfTagCompare_lt_zero (a b : Tag) : lfTagCompare a b < 0 ↔ a < b := by
  grind [lfTagCompare, Tag.lt_def]

@[simp] theorem zero_lt_lfTagCompare (a b : Tag) : 0 < lfTagCompare a b ↔ b < a := by
  grind [lfTagCompare, Tag.lt_def]

@[simp] theorem lfTagCompare_eq_zero (a b : Tag) : lfTagCompare a b = 0 ↔ a = b := by
  grind [lfTagCompare, Tag.ext_iff]

@[simp] theorem lfTagCompare_le_zero (a b : Tag) : lfTagCompare a b ≤ 0 ↔ a ≤ b := by
  rw [← not_lt (a := b), ← zero_lt_lfTagCompare, Int.not_lt]

@[simp] theorem zero_le_lfTagCompare (a b : Tag) : 0 ≤ lfTagCompare a b ↔ b ≤ a := by
  rw [← not_lt (a := a), ← lfTagCompare_lt_zero, Int.not_lt]

end Order

section Addition

theorem zeroTag_le (a : Tag) : zeroTag ≤ a ↔ 0 ≤ a.time := by grind [Tag.le_def, zeroTag]

/-- Times that are not negative add up to at most `forever`. -/
theorem lfTimeAdd_of_nonneg {a b : Int64} (ha : 0 ≤ a) (hb : 0 ≤ b) :
    lfTimeAdd a b = if forever - b ≤ a then forever else a + b := by
  unfold lfTimeAdd never forever
  split_ifs <;> grind

/-- Delays add their times; a microstep counts only as long as no time passes after it. -/
theorem lfTagAdd_of_nonneg {a b : Tag} (ha : 0 ≤ a.time) (hb : 0 ≤ b.time) :
    lfTagAdd a b = if forever - b.time ≤ a.time then foreverTag
      else if 0 < b.time then ⟨a.time + b.time, b.microstep⟩
      else if a.microstep + b.microstep < a.microstep then foreverTag
      else ⟨a.time, a.microstep + b.microstep⟩ := by
  unfold lfTagAdd
  rw [lfTimeAdd_of_nonneg ha hb]
  by_cases h : forever - b.time ≤ a.time
  · simp only [if_pos h, if_true]
  · have hf : a.time + b.time ≠ forever := by
      unfold forever at *
      grind
    have hn : a.time + b.time ≠ never := by
      unfold forever never at *
      grind
    simp only [if_neg h, if_neg hf, if_neg hn]
    by_cases hpos : 0 < b.time
    · simp [hpos]
    · have hzero : b.time = 0 := by grind
      simp [hzero]

theorem le_lfTagAdd {a b : Tag} (ha : zeroTag ≤ a) (hb : zeroTag ≤ b) : b ≤ lfTagAdd a b := by
  rw [zeroTag_le] at ha hb
  rw [lfTagAdd_of_nonneg ha hb]
  unfold forever
  split_ifs
  · exact le_top
  · grind [Tag.le_def]
  · exact le_top
  · grind [Tag.le_def]

theorem le_lfTagAdd_left {a b : Tag} (ha : zeroTag ≤ a) (hb : zeroTag ≤ b) : a ≤ lfTagAdd a b := by
  rw [zeroTag_le] at ha hb
  rw [lfTagAdd_of_nonneg ha hb]
  unfold forever
  split_ifs
  · exact le_top
  · grind [Tag.le_def]
  · exact le_top
  · grind [Tag.le_def]

/-- No sum ends at `forever` but the last tag of all. -/
theorem lfTagAdd_time_eq_forever {a b : Tag} (ha : zeroTag ≤ a) (hb : zeroTag ≤ b) :
    (lfTagAdd a b).time = forever ↔ lfTagAdd a b = foreverTag := by
  refine ⟨fun h => ?_, fun h => h ▸ rfl⟩
  rw [zeroTag_le] at ha hb
  rw [lfTagAdd_of_nonneg ha hb] at h ⊢
  split_ifs at h ⊢ with hover hpos
  · rfl
  · unfold forever at *
    grind
  · rfl
  · unfold forever at *
    grind

theorem lfTagAdd_le_lfTagAdd {a b c : Tag} (ha : zeroTag ≤ a) (hb : zeroTag ≤ b)
    (hm : a.microstep.toNat + b.microstep.toNat < 2 ^ 32) (h : b ≤ c) :
    lfTagAdd a b ≤ lfTagAdd a c := by
  have hc := hb.trans h
  rw [zeroTag_le] at ha hb hc
  rw [lfTagAdd_of_nonneg ha hb, lfTagAdd_of_nonneg ha hc]
  rw [Tag.le_def] at h
  have hwrap : ¬a.microstep + b.microstep < a.microstep := by
    rw [UInt32.lt_iff_toNat_lt, UInt32.toNat_add, Nat.mod_eq_of_lt hm]
    omega
  unfold forever
  split_ifs <;> first | exact le_top | grind [Tag.le_def, foreverTag, forever]

theorem lfTagAdd_zeroTag {a : Tag} (ha : zeroTag ≤ a) (htop : a.time = forever → a = foreverTag) :
    lfTagAdd a zeroTag = a := by
  have hle : forever - 0 ≤ a.time → a.time = forever := by
    unfold forever
    grind
  rw [lfTagAdd_of_nonneg ((zeroTag_le a).mp ha) (by decide)]
  simp only [zeroTag, Int64.lt_irrefl, if_false, UInt32.add_zero, UInt32.lt_irrefl]
  split_ifs with h
  · exact (htop (hle h)).symm
  · rfl

theorem foreverTag_lfTagAdd {b : Tag} (hb : zeroTag ≤ b) : lfTagAdd foreverTag b = foreverTag := by
  rw [zeroTag_le] at hb
  rw [lfTagAdd_of_nonneg (by decide) hb, if_pos]
  unfold foreverTag forever
  grind

theorem lfTagAdd_foreverTag {a : Tag} (ha : zeroTag ≤ a) : lfTagAdd a foreverTag = foreverTag :=
  top_le_iff.mp (le_lfTagAdd ha le_top)

theorem microstep_lfTagAdd_le {a b : Tag} (ha : zeroTag ≤ a) (hb : zeroTag ≤ b) :
    lfTagAdd a b = foreverTag ∨
      (lfTagAdd a b).microstep.toNat ≤ a.microstep.toNat + b.microstep.toNat := by
  rw [zeroTag_le] at ha hb
  rw [lfTagAdd_of_nonneg ha hb]
  split_ifs
  · exact .inl rfl
  · exact .inr (Nat.le_add_left _ _)
  · exact .inl rfl
  · exact .inr (UInt32.toNat_add _ _ ▸ Nat.mod_le _ _)

/-- With room for the microsteps. -/
theorem lfTagAdd_of_room {a b : Tag} (ha : 0 ≤ a.time) (hb : 0 ≤ b.time)
    (hm : a.microstep.toNat + b.microstep.toNat < 2 ^ 32) :
    lfTagAdd a b = if forever - b.time ≤ a.time then foreverTag
      else ⟨a.time + b.time, if 0 < b.time then b.microstep else a.microstep + b.microstep⟩ := by
  have hwrap : ¬a.microstep + b.microstep < a.microstep := by
    rw [UInt32.lt_iff_toNat_lt, UInt32.toNat_add, Nat.mod_eq_of_lt hm]
    omega
  have hzero : ¬0 < b.time → a.time + b.time = a.time := by grind
  rw [lfTagAdd_of_nonneg ha hb, if_neg hwrap]
  split_ifs with hover hpos
  · rfl
  · rfl
  · rw [hzero hpos]

theorem time_sum {s t : Int64} (hs : 0 ≤ s) (ht : 0 ≤ t) (h : ¬forever - t ≤ s) :
    0 ≤ s + t ∧ (0 < s + t ↔ 0 < s ∨ 0 < t) := by
  unfold forever at *
  grind

theorem time_assoc {s t u : Int64} (hs : 0 ≤ s) (ht : 0 ≤ t) (hu : 0 ≤ u)
    (hst : ¬forever - t ≤ s) (htu : ¬forever - u ≤ t) :
    forever - u ≤ s + t ↔ forever - (t + u) ≤ s := by
  unfold forever at *
  grind

theorem time_over {s t u : Int64} (hs : 0 ≤ s) (ht : 0 ≤ t) (hu : 0 ≤ u) :
    (forever - t ≤ s → ¬forever - u ≤ t → forever - (t + u) ≤ s) ∧
    (forever - u ≤ t → ¬forever - t ≤ s → forever - u ≤ s + t) := by
  unfold forever at *
  grind

/-- Sums associate as long as the microsteps do not wrap. -/
theorem lfTagAdd_assoc {a b c : Tag} (ha : zeroTag ≤ a) (hb : zeroTag ≤ b) (hc : zeroTag ≤ c)
    (hm : a.microstep.toNat + b.microstep.toNat + c.microstep.toNat < 2 ^ 32) :
    lfTagAdd (lfTagAdd a b) c = lfTagAdd a (lfTagAdd b c) := by
  have ha' := (zeroTag_le a).mp ha
  have hb' := (zeroTag_le b).mp hb
  have hc' := (zeroTag_le c).mp hc
  have hroom (x y : UInt32) : (x + y).toNat ≤ x.toNat + y.toNat :=
    UInt32.toNat_add x y ▸ Nat.mod_le _ _
  have hkl := hroom a.microstep b.microstep
  have hlm := hroom b.microstep c.microstep
  obtain ⟨hleft, hright⟩ := time_over ha' hb' hc'
  have hab := lfTagAdd_of_room ha' hb' (by omega)
  have hbc := lfTagAdd_of_room hb' hc' (by omega)
  by_cases h1 : forever - b.time ≤ a.time <;> by_cases h2 : forever - c.time ≤ b.time
  · rw [hab, if_pos h1, hbc, if_pos h2, foreverTag_lfTagAdd hc, lfTagAdd_foreverTag ha]
  · obtain ⟨htu, -⟩ := time_sum hb' hc' h2
    have hsum := (lfTagAdd_of_nonneg (a := a) (b := ⟨b.time + c.time, if 0 < c.time then c.microstep else
      b.microstep + c.microstep⟩) ha' htu).trans (if_pos (hleft h1 h2))
    rw [hab.trans (if_pos h1), hbc.trans (if_neg h2), foreverTag_lfTagAdd hc, hsum]
  · obtain ⟨hst, -⟩ := time_sum ha' hb' h1
    have hsum := (lfTagAdd_of_nonneg (a := ⟨a.time + b.time, if 0 < b.time then b.microstep else
      a.microstep + b.microstep⟩) (b := c) hst hc').trans (if_pos (hright h2 h1))
    rw [hab.trans (if_neg h1), hbc.trans (if_pos h2), lfTagAdd_foreverTag ha, hsum]
  · obtain ⟨hst, -⟩ := time_sum ha' hb' h1
    obtain ⟨htu, hpos⟩ := time_sum hb' hc' h2
    have hover := time_assoc ha' hb' hc' h1 h2
    have hl := lfTagAdd_of_room (a := ⟨a.time + b.time, if 0 < b.time then b.microstep else
      a.microstep + b.microstep⟩) (b := c) hst hc' (by simp only; split_ifs <;> omega)
    have hr := lfTagAdd_of_room (a := a) (b := ⟨b.time + c.time, if 0 < c.time then c.microstep else
      b.microstep + c.microstep⟩) ha' htu (by simp only; split_ifs <;> omega)
    rw [hab.trans (if_neg h1), hbc.trans (if_neg h2), hl, hr]
    simp only [hover, hpos, Int64.add_assoc]
    by_cases ht : 0 < b.time <;> by_cases hu : 0 < c.time
    · simp only [ht, hu, or_self, if_true]
    · simp only [ht, hu, or_false, if_true, if_false]
    · simp only [ht, hu, or_true, if_true, if_false]
    · simp only [ht, hu, or_self, if_false, UInt32.add_assoc]

end Addition

section Delay

/-- The delay of one connection, as a tag. -/
theorem lfDelayTag_zeroTag (interval : Int64) :
    lfDelayTag zeroTag interval = if interval < 0 then zeroTag
      else if interval = forever then foreverTag
      else if interval = 0 then ⟨0, 1⟩ else ⟨interval, 0⟩ := by
  unfold lfDelayTag zeroTag never forever
  simp only [Int64.zero_add]
  split_ifs <;> grind

theorem lfDelayTag_forever : lfDelayTag zeroTag forever = foreverTag := by decide

theorem zeroTag_le_lfDelayTag (interval : Int64) : zeroTag ≤ lfDelayTag zeroTag interval := by
  rw [lfDelayTag_zeroTag, zeroTag_le]
  unfold forever foreverTag zeroTag
  grind [forever]

theorem time_lfDelayTag_zeroTag (interval : Int64) :
    (lfDelayTag zeroTag interval).time = forever → lfDelayTag zeroTag interval = foreverTag := by
  rw [lfDelayTag_zeroTag]
  split_ifs with h1 h2 h3
  · exact fun h => absurd h (by decide)
  · exact fun _ => rfl
  · exact fun h => absurd h (by decide)
  · exact fun h => absurd h h2

theorem microstep_lfDelayTag (interval : Int64) : lfDelayTag zeroTag interval = foreverTag ∨
    (lfDelayTag zeroTag interval).microstep.toNat ≤ 1 := by
  rw [lfDelayTag_zeroTag]
  split_ifs
  · exact .inr (by decide)
  · exact .inl rfl
  · exact .inr (by decide)
  · exact .inr (Nat.zero_le _)

/-- Only a connection without a delay adds none. -/
theorem lfDelayTag_eq_zeroTag (interval : Int64) :
    lfDelayTag zeroTag interval = zeroTag ↔ interval < 0 := by
  rw [lfDelayTag_zeroTag]
  unfold zeroTag foreverTag forever
  grind

/-- A message takes the delay of its connection as a sum takes it, until the microsteps wrap. -/
theorem lfDelayTag_eq_lfTagAdd {tag : Tag} (interval : Int64) (hzero : zeroTag ≤ tag)
    (htop : tag.time = forever → tag = foreverTag)
    (hm : tag.time = forever ∨ tag.microstep.toNat + 1 < 2 ^ 32) :
    lfDelayTag tag interval = lfTagAdd tag (lfDelayTag zeroTag interval) := by
  have hinterval := (zeroTag_le _).mp (zeroTag_le_lfDelayTag interval)
  obtain ⟨t, m⟩ := tag
  rw [zeroTag_le] at hzero
  rw [lfTagAdd_of_nonneg hzero hinterval, lfDelayTag_zeroTag]
  clear hinterval
  have hwrap : t ≠ forever → ¬m + 1 < m := by
    intro h
    rw [UInt32.lt_iff_toNat_lt, UInt32.toNat_add]
    have hsmall : m.toNat + 1 < 2 ^ 32 := hm.resolve_left h
    rw [UInt32.toNat_one, Nat.mod_eq_of_lt hsmall]
    omega
  simp only [lfDelayTag]
  unfold foreverTag forever zeroTag never at *
  by_cases hneg : interval < 0
  · simp [hneg]
    grind
  · grind

theorem lfDelayTag_foreverTag (interval : Int64) :
    lfDelayTag foreverTag interval = foreverTag := by
  have hle : ¬interval < 0 → forever - interval ≤ forever := by
    unfold forever
    grind
  unfold lfDelayTag
  split_ifs with h h'
  · rfl
  · rfl
  · exact absurd (hle (not_or.mp h).2) h'
  · exact absurd (hle (not_or.mp h).2) h'

end Delay

end LFBenchmarks.ReactorC
