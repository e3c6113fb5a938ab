import Mathlib

namespace LFBenchmarks.LastWins

section LastValue

variable {κ ν : Type*}

/-- A record behind which another one with its key follows. -/
def Overwritten (records : List (κ × ν)) (r : κ × ν) : Prop :=
  ∃ before after, records = before ++ r :: after ∧ ∃ v, (r.1, v) ∈ after

theorem Overwritten.mem {records : List (κ × ν)} {r : κ × ν} (h : Overwritten records r) :
    r ∈ records := by
  obtain ⟨before, after, rfl, -⟩ := h
  simp

variable [DecidableEq κ]

/-- The value of the last record with key `k`, which is the one a dictionary keeps. -/
def lastValue : List (κ × ν) → κ → Option ν
  | [], _ => none
  | r :: rs, k => (lastValue rs k).or (if r.1 = k then some r.2 else none)

theorem lastValue_append (rs qs : List (κ × ν)) (k : κ) :
    lastValue (rs ++ qs) k = (lastValue qs k).or (lastValue rs k) := by
  induction rs with
  | nil => simp [lastValue]
  | cons r rs ih => rw [List.cons_append, lastValue, lastValue, ih, Option.or_assoc]

theorem mem_of_lastValue (records : List (κ × ν)) (k : κ) (v : ν)
    (h : lastValue records k = some v) : (k, v) ∈ records := by
  induction records with
  | nil => cases h
  | cons r rs ih =>
    rw [lastValue, Option.or_eq_some_iff] at h
    rcases h with h | ⟨-, h⟩
    · exact List.mem_cons_of_mem _ (ih h)
    · split_ifs at h with hk
      obtain rfl := hk
      obtain rfl := Option.some.inj h
      exact List.mem_cons_self

theorem lastValue_isSome (records : List (κ × ν)) (k : κ) :
    (lastValue records k).isSome = true ↔ ∃ v, (k, v) ∈ records := by
  constructor
  · intro h
    obtain ⟨v, hv⟩ := Option.isSome_iff_exists.mp h
    exact ⟨v, mem_of_lastValue records k v hv⟩
  · rintro ⟨v, hv⟩
    obtain ⟨before, after, rfl⟩ := List.append_of_mem hv
    rw [lastValue_append, lastValue, if_pos rfl]
    simp

theorem lastValue_eq_none (records : List (κ × ν)) (k : κ) :
    lastValue records k = none ↔ ∀ v, (k, v) ∉ records := by
  rw [← Option.not_isSome_iff_eq_none, lastValue_isSome, not_exists]

/-- A record is the last one of its key or overwritten. -/
theorem last_or_overwritten (records : List (κ × ν)) (r : κ × ν) (h : r ∈ records) :
    lastValue records r.1 = some r.2 ∨ Overwritten records r := by
  obtain ⟨before, after, rfl⟩ := List.append_of_mem h
  cases hlater : lastValue after r.1 with
  | none =>
    left
    rw [lastValue_append, lastValue, hlater, if_pos rfl]
    rfl
  | some v => exact .inr ⟨before, after, rfl, v, mem_of_lastValue after r.1 v hlater⟩

/-- `d[k] = v` for each record in turn. -/
def ofRecords (records : List (κ × ν)) : AList (fun _ : κ => ν) :=
  records.foldl (fun d r => d.insert r.1 r.2) ∅

theorem lookup_insertAll (records : List (κ × ν)) (d : AList (fun _ : κ => ν)) (k : κ) :
    (records.foldl (fun d r => d.insert r.1 r.2) d).lookup k =
      (lastValue records k).or (d.lookup k) := by
  induction records generalizing d with
  | nil => rfl
  | cons r rs ih =>
    rw [List.foldl_cons, ih, lastValue, Option.or_assoc]
    by_cases hk : r.1 = k
    · subst hk
      rw [if_pos rfl, AList.lookup_insert, Option.some_or]
    · rw [if_neg hk, AList.lookup_insert_ne (Ne.symm hk), Option.none_or]

theorem lookup_ofRecords (records : List (κ × ν)) (k : κ) :
    (ofRecords records).lookup k = lastValue records k := by
  rw [ofRecords, lookup_insertAll, AList.lookup_empty, Option.or_none]

theorem mem_ofRecords (records : List (κ × ν)) (k : κ) :
    k ∈ ofRecords records ↔ ∃ v, (k, v) ∈ records := by
  rw [← AList.lookup_isSome, lookup_ofRecords, lastValue_isSome]

theorem ofRecords_eq_empty (records : List (κ × ν)) :
    (ofRecords records).keys = [] ↔ records = [] := by
  constructor
  · intro hnil
    cases records with
    | nil => rfl
    | cons r rs =>
      have hmem : r.1 ∈ ofRecords (r :: rs) := (mem_ofRecords _ _).mpr ⟨r.2, List.mem_cons_self⟩
      rw [AList.mem_keys, hnil] at hmem
      cases hmem
  · rintro rfl
    rfl

end LastValue

section Agreement

variable {κ ν μ : Type*} (R : ν → μ → Prop)

/-- Every record has a related one with the same key in the other list. -/
def AllAgree (as : List (κ × ν)) (bs : List (κ × μ)) : Prop :=
  (∀ a ∈ as, ∃ v, (a.1, v) ∈ bs ∧ R a.2 v) ∧ ∀ b ∈ bs, ∃ v, (b.1, v) ∈ as ∧ R v b.2

/-- Every overwritten record has one. -/
def OverwrittenAgree (as : List (κ × ν)) (bs : List (κ × μ)) : Prop :=
  (∀ a, Overwritten as a → ∃ v, (a.1, v) ∈ bs ∧ R a.2 v) ∧
    ∀ b, Overwritten bs b → ∃ v, (b.1, v) ∈ as ∧ R v b.2

variable {R}

theorem allAgree_partner (as : List (κ × ν)) (bs : List (κ × μ)) : AllAgree R as bs ↔
    (∀ a ∈ as, ∃ b ∈ bs, a.1 = b.1 ∧ R a.2 b.2) ∧ ∀ b ∈ bs, ∃ a ∈ as, a.1 = b.1 ∧ R a.2 b.2 := by
  simp [AllAgree, Prod.exists]

variable [DecidableEq κ]

variable (R) in
/-- The last records of every key are related, or there is none in either list. -/
def LastAgree (as : List (κ × ν)) (bs : List (κ × μ)) : Prop :=
  ∀ k, Option.Rel R (lastValue as k) (lastValue bs k)

theorem rel_iff (a : Option ν) (b : Option μ) : Option.Rel R a b ↔
    (∀ x, a = some x → ∃ y, b = some y ∧ R x y) ∧ ∀ y, b = some y → ∃ x, a = some x ∧ R x y := by
  constructor
  · intro h
    cases h with
    | none =>
      refine ⟨fun x hx => ?_, fun y hy => ?_⟩
      · cases hx
      · cases hy
    | some hr =>
      refine ⟨fun x hx => ?_, fun y hy => ?_⟩
      · obtain rfl := Option.some.inj hx
        exact ⟨_, rfl, hr⟩
      · obtain rfl := Option.some.inj hy
        exact ⟨_, rfl, hr⟩
  · intro h
    obtain ⟨hleft, hright⟩ := h
    cases a with
    | none =>
      cases b with
      | none => exact .none
      | some y =>
        obtain ⟨x, hx, -⟩ := hright y rfl
        cases hx
    | some x =>
      obtain ⟨y, rfl, hr⟩ := hleft x rfl
      exact .some hr

theorem LastAgree.left {as : List (κ × ν)} {bs : List (κ × μ)} (h : LastAgree R as bs) (a : κ × ν)
    (ha : lastValue as a.1 = some a.2) : ∃ v, (a.1, v) ∈ bs ∧ R a.2 v := by
  obtain ⟨v, hv, hr⟩ := ((rel_iff _ _).mp (h a.1)).1 a.2 ha
  exact ⟨v, mem_of_lastValue bs a.1 v hv, hr⟩

theorem LastAgree.right {as : List (κ × ν)} {bs : List (κ × μ)} (h : LastAgree R as bs) (b : κ × μ)
    (hb : lastValue bs b.1 = some b.2) : ∃ v, (b.1, v) ∈ as ∧ R v b.2 := by
  obtain ⟨v, hv, hr⟩ := ((rel_iff _ _).mp (h b.1)).2 b.2 hb
  exact ⟨v, mem_of_lastValue as b.1 v hv, hr⟩

/-- Where the last records agree, all do as soon as the overwritten ones do. -/
theorem allAgree_iff (as : List (κ × ν)) (bs : List (κ × μ)) (h : LastAgree R as bs) :
    AllAgree R as bs ↔ OverwrittenAgree R as bs := by
  constructor
  · intro hall
    exact ⟨fun a ha => hall.1 a ha.mem, fun b hb => hall.2 b hb.mem⟩
  · intro hover
    refine ⟨fun a ha => ?_, fun b hb => ?_⟩
    · rcases last_or_overwritten as a ha with hlast | hlater
      · exact h.left a hlast
      · exact hover.1 a hlater
    · rcases last_or_overwritten bs b hb with hlast | hlater
      · exact h.right b hlast
      · exact hover.2 b hlater

end Agreement

end LFBenchmarks.LastWins
