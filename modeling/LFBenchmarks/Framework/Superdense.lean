import Mathlib.Data.Prod.Lex

namespace LFBenchmarks

/-- A point in superdense time without bounds, or an amount of it. -/
abbrev Superdense := ℤ ×ₗ ℕ

namespace Superdense

def point (t : ℤ) (m : ℕ) : Superdense := toLex (t, m)

theorem le_point (s t : ℤ) (l m : ℕ) : point s l ≤ point t m ↔ s < t ∨ s = t ∧ l ≤ m := Prod.Lex.le_iff

theorem lt_point (s t : ℤ) (l m : ℕ) : point s l < point t m ↔ s < t ∨ s = t ∧ l < m := Prod.Lex.lt_iff

theorem point_inj (s t : ℤ) (l m : ℕ) : point s l = point t m ↔ s = t ∧ l = m := by
  rw [point, point, toLex_inj, Prod.mk.injEq]

theorem eq_point (a : Superdense) : ∃ t m, a = point t m := ⟨(ofLex a).1, (ofLex a).2, rfl⟩

/-- The amount of a delay: none when negative, a microstep when zero. -/
def ofDelay (d : ℤ) : Superdense := if d < 0 then point 0 0 else if d = 0 then point 0 1 else point d 0

/-- Time passed drops the microsteps before it. -/
def plus (a b : Superdense) : Superdense :=
  if 0 < (ofLex b).1 then point ((ofLex a).1 + (ofLex b).1) (ofLex b).2
  else point (ofLex a).1 ((ofLex a).2 + (ofLex b).2)

@[simp] theorem plus_point (s t : ℤ) (l m : ℕ) :
    plus (point s l) (point t m) = if 0 < t then point (s + t) m else point s (l + m) := rfl

/-- The tag of an event after a delay. -/
def after (d : ℤ) (a : Superdense) : Superdense := plus a (ofDelay d)

theorem after_point (d t : ℤ) (m : ℕ) :
    after d (point t m) = if d < 0 then point t m else if d = 0 then point t (m + 1) else point (t + d) 0 := by
  unfold after ofDelay
  split_ifs with h h'
  · simp
  · simp
  · rw [plus_point, if_pos (by omega)]

section Order

theorem zero_le_ofDelay (d : ℤ) : point 0 0 ≤ ofDelay d := by
  unfold ofDelay
  split_ifs <;> rw [le_point] <;> omega

theorem le_plus {a b : Superdense} (ha : point 0 0 ≤ a) : b ≤ plus a b := by
  obtain ⟨s, l, rfl⟩ := eq_point a
  obtain ⟨t, m, rfl⟩ := eq_point b
  rw [le_point] at ha
  rw [plus_point]
  split_ifs <;> rw [le_point] <;> omega

theorem plus_le_plus_right {a b c : Superdense} (h : a ≤ b) : plus a c ≤ plus b c := by
  obtain ⟨s, l, rfl⟩ := eq_point a
  obtain ⟨t, m, rfl⟩ := eq_point b
  obtain ⟨u, k, rfl⟩ := eq_point c
  rw [le_point] at h
  rw [plus_point, plus_point]
  split_ifs <;> rw [le_point] <;> omega

theorem plus_le_plus_left {a b c : Superdense} (hb : point 0 0 ≤ b) (h : b ≤ c) :
    plus a b ≤ plus a c := by
  obtain ⟨s, l, rfl⟩ := eq_point a
  obtain ⟨t, m, rfl⟩ := eq_point b
  obtain ⟨u, k, rfl⟩ := eq_point c
  rw [le_point] at h hb
  rw [plus_point, plus_point]
  split_ifs <;> rw [le_point] <;> omega

theorem plus_le_plus {a b c d : Superdense} (hc : point 0 0 ≤ c) (hab : a ≤ b) (hcd : c ≤ d) :
    plus a c ≤ plus b d :=
  (plus_le_plus_right hab).trans (plus_le_plus_left hc hcd)

theorem le_plus_self (a : Superdense) {b : Superdense} (hb : point 0 0 ≤ b) : a ≤ plus a b := by
  obtain ⟨s, l, rfl⟩ := eq_point a
  obtain ⟨t, m, rfl⟩ := eq_point b
  rw [le_point] at hb
  rw [plus_point]
  split_ifs <;> rw [le_point] <;> omega

theorem plus_assoc {a b c : Superdense} (hb : point 0 0 ≤ b) (hc : point 0 0 ≤ c) :
    plus (plus a b) c = plus a (plus b c) := by
  obtain ⟨s, l, rfl⟩ := eq_point a
  obtain ⟨t, m, rfl⟩ := eq_point b
  obtain ⟨u, k, rfl⟩ := eq_point c
  rw [le_point] at hb hc
  rw [plus_point, plus_point]
  split_ifs <;> rw [plus_point, plus_point] <;> split_ifs <;> rw [point_inj] <;> omega

theorem after_le_after {a b : Superdense} (d : ℤ) (h : a ≤ b) : after d a ≤ after d b :=
  plus_le_plus_right h

theorem le_after (d : ℤ) (a : Superdense) : a ≤ after d a := by
  obtain ⟨t, m, rfl⟩ := eq_point a
  rw [after_point]
  split_ifs <;> rw [le_point] <;> omega

end Order

section Walks

/-- The delay of a walk, each connection before what follows it. -/
def walkDelay (ds : List ℤ) : Superdense := ds.foldr (fun d a => plus (ofDelay d) a) (point 0 0)

/-- The tag of an event after the delays of a walk. -/
def afterAll (ds : List ℤ) (a : Superdense) : Superdense := ds.foldl (fun a d => after d a) a

@[simp] theorem afterAll_nil (a : Superdense) : afterAll [] a = a := rfl

@[simp] theorem afterAll_cons (d : ℤ) (ds : List ℤ) (a : Superdense) :
    afterAll (d :: ds) a = afterAll ds (after d a) := rfl

theorem afterAll_append (ds es : List ℤ) (a : Superdense) :
    afterAll (ds ++ es) a = afterAll es (afterAll ds a) := by
  rw [afterAll, List.foldl_append]
  rfl

theorem zero_le_walkDelay (ds : List ℤ) : point 0 0 ≤ walkDelay ds := by
  induction ds with
  | nil => exact le_rfl
  | cons d ds ih => exact ih.trans (le_plus (zero_le_ofDelay d))

theorem afterAll_eq_plus (ds : List ℤ) (a : Superdense) : afterAll ds a = plus a (walkDelay ds) := by
  induction ds generalizing a with
  | nil =>
    obtain ⟨t, m, rfl⟩ := eq_point a
    simp [walkDelay]
  | cons d ds ih =>
    rw [afterAll_cons, ih, after, plus_assoc (zero_le_ofDelay d) (zero_le_walkDelay ds)]
    rfl

end Walks

end Superdense

end LFBenchmarks
