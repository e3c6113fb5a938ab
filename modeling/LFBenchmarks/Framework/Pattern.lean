import LFBenchmarks.Framework.PyText

namespace LFBenchmarks.Pattern

/-- A piece of a regular expression: a character of a class, a repeated class, or a word boundary. -/
inductive Item where
  | one (cls : Char → Bool)
  | star (cls : Char → Bool)
  | boundary

/-- `\w`, on ASCII text. On other text Python accepts every letter and digit. -/
def isWord (c : Char) : Bool := c.isAlphanum || c = '_'

/-- A repeated class, then whatever `rest` accepts; `prev` is the character before. -/
def starAt (cls : Char → Bool) (rest : Option Char → List Char → Bool) :
    Option Char → List Char → Bool
  | prev, [] => rest prev []
  | prev, c :: s => rest prev (c :: s) || (cls c && starAt cls rest (some c) s)

/-- The pattern matches the beginning of the text. -/
def matchAt : List Item → Option Char → List Char → Bool
  | [], _, _ => true
  | .one _ :: _, _, [] => false
  | .one cls :: p, _, c :: s => cls c && matchAt p (some c) s
  | .star cls :: p, prev, s => starAt cls (matchAt p) prev s
  | .boundary :: p, prev, s => (prev.any isWord != s.head?.any isWord) && matchAt p prev s

def searchFrom (p : List Item) : Option Char → List Char → Bool
  | prev, [] => matchAt p prev []
  | prev, c :: s => matchAt p prev (c :: s) || searchFrom p (some c) s

/-- `regex.search`: whether the pattern matches somewhere. -/
def search (p : List Item) (s : List Char) : Bool := searchFrom p none s

def literal (text : List Char) : List Item := text.map (fun c => .one (· = c))

/-- The character before what follows a piece of text. -/
theorem getLast?_cons_or (c : Char) (text : List Char) (prev : Option Char) :
    ((c :: text).getLast?).or prev = (text.getLast?).or (some c) := by
  cases text <;> simp [List.getLast?_cons]

theorem matchAt_literal (text : List Char) (p : List Item) (prev : Option Char) (s : List Char) :
    matchAt (literal text ++ p) prev s = true ↔
      ∃ t, s = text ++ t ∧ matchAt p ((text.getLast?).or prev) t = true := by
  induction text generalizing prev s with
  | nil => simp [literal]
  | cons c text ih =>
    cases s with
    | nil => simp [literal, matchAt]
    | cons d s =>
      have hcons : literal (c :: text) ++ p = .one (· = c) :: (literal text ++ p) := rfl
      rw [hcons, matchAt, Bool.and_eq_true, decide_eq_true_eq, ih, getLast?_cons_or]
      constructor
      · rintro ⟨rfl, t, rfl, ht⟩
        exact ⟨t, rfl, ht⟩
      · rintro ⟨t, hs, ht⟩
        obtain ⟨rfl, rfl⟩ := List.cons.inj hs
        exact ⟨rfl, t, rfl, ht⟩

theorem starAt_skip (cls : Char → Bool) (rest : Option Char → List Char → Bool)
    (prev : Option Char) (run s : List Char) (hrun : ∀ c ∈ run, cls c = true)
    (h : rest ((run.getLast?).or prev) s = true) : starAt cls rest prev (run ++ s) = true := by
  induction run generalizing prev with
  | nil =>
    cases s with
    | nil => exact h
    | cons c s => simp [starAt, show rest prev (c :: s) = true from h]
  | cons c run ih =>
    rw [getLast?_cons_or] at h
    have hc := hrun c (by simp)
    simp [starAt, hc, ih (some c) (fun d hd => hrun d (by simp [hd])) h]

/-- A repeated class stops somewhere, with the rest of the pattern behind it. -/
theorem exists_of_starAt (cls : Char → Bool) (rest : Option Char → List Char → Bool)
    (prev : Option Char) (s : List Char) (h : starAt cls rest prev s = true) :
    ∃ run t, s = run ++ t ∧ (∀ c ∈ run, cls c = true) ∧
      rest ((run.getLast?).or prev) t = true := by
  induction s generalizing prev with
  | nil => exact ⟨[], [], rfl, by simp, h⟩
  | cons c s ih =>
    rw [starAt, Bool.or_eq_true, Bool.and_eq_true] at h
    rcases h with h | ⟨hc, h⟩
    · exact ⟨[], c :: s, rfl, by simp, h⟩
    · obtain ⟨run, t, rfl, hrun, ht⟩ := ih (some c) h
      refine ⟨c :: run, t, rfl, ?_, ?_⟩
      · simpa [hc] using hrun
      · rwa [getLast?_cons_or]

/-- A pattern found in a text matches one of its suffixes. -/
theorem exists_of_searchFrom (p : List Item) (prev : Option Char) (s : List Char)
    (h : searchFrom p prev s = true) :
    ∃ before t, s = before ++ t ∧ matchAt p ((before.getLast?).or prev) t = true := by
  induction s generalizing prev with
  | nil => exact ⟨[], [], rfl, h⟩
  | cons c s ih =>
    rw [searchFrom, Bool.or_eq_true] at h
    rcases h with h | h
    · exact ⟨[], c :: s, rfl, h⟩
    · obtain ⟨before, t, rfl, ht⟩ := ih (some c) h
      exact ⟨c :: before, t, rfl, by rwa [getLast?_cons_or]⟩

theorem searchFrom_of_matchAt (p : List Item) (prev : Option Char) (before t : List Char)
    (h : matchAt p ((before.getLast?).or prev) t = true) :
    searchFrom p prev (before ++ t) = true := by
  induction before generalizing prev with
  | nil =>
    cases t with
    | nil => exact h
    | cons c t => simp [searchFrom, show matchAt p prev (c :: t) = true from h]
  | cons c before ih =>
    rw [getLast?_cons_or] at h
    simp [searchFrom, ih (some c) h]

theorem search_iff (p : List Item) (s : List Char) : search p s = true ↔
    ∃ before t, s = before ++ t ∧ matchAt p before.getLast? t = true := by
  constructor
  · intro h
    obtain ⟨before, t, hs, ht⟩ := exists_of_searchFrom p none s h
    exact ⟨before, t, hs, by simpa using ht⟩
  · rintro ⟨before, t, rfl, ht⟩
    exact searchFrom_of_matchAt p none before t (by simpa using ht)

theorem mem_of_search (c : Char) (p : List Item) (s : List Char)
    (h : search (.one (· = c) :: p) s = true) : c ∈ s := by
  obtain ⟨before, t, rfl, ht⟩ := (search_iff _ _).mp h
  cases t with
  | nil => simp [matchAt] at ht
  | cons d t =>
    rw [matchAt, Bool.and_eq_true, decide_eq_true_eq] at ht
    simp [ht.1]

/-- A pattern that starts with a character the text has only at its start can only match
there. -/
theorem search_head (c : Char) (p : List Item) (s : List Char) (h : c ∉ s) :
    search (.one (· = c) :: p) (c :: s) = matchAt p (some c) s := by
  rw [Bool.eq_iff_iff, search_iff]
  constructor
  · rintro ⟨before, t, hs, ht⟩
    cases before with
    | nil =>
      obtain rfl : c :: s = t := hs
      simpa [matchAt] using ht
    | cons d before =>
      obtain ⟨rfl, rfl⟩ := List.cons.inj hs
      cases t with
      | nil => simp [matchAt] at ht
      | cons e t =>
        rw [matchAt, Bool.and_eq_true, decide_eq_true_eq] at ht
        exact absurd (by simp [ht.1]) h
  · intro hs
    exact ⟨[], c :: s, rfl, by simpa [matchAt] using hs⟩

end LFBenchmarks.Pattern
