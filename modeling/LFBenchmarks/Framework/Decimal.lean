import LFBenchmarks.Framework.Stdio

namespace LFBenchmarks.Stdio

/-- Integer digits and, after a point if there is one, fraction digits. -/
structure Decimal where
  int : List Char
  frac : Option (List Char)
  int_digit : ∀ c ∈ int, c.isDigit = true
  frac_digit : ∀ f ∈ frac, ∀ c ∈ f, c.isDigit = true

def Decimal.digits (d : Decimal) : List Char := d.int ++ d.frac.getD []

def Decimal.text (d : Decimal) : List Char := d.int ++ d.frac.elim [] (fun f => '.' :: f)

/-- The number written, exactly. -/
def Decimal.value (d : Decimal) : Rat :=
  digitsValue 10 d.digits / (10 : Nat) ^ (d.frac.getD []).length

theorem digitsValue_append (base : Nat) (ds es : List Char) :
    digitsValue base (ds ++ es) = digitsValue base ds * base ^ es.length + digitsValue base es := by
  -- folding from a start value shifts it by one place a digit
  have hfold (n : Nat) : es.foldl (fun n c => base * n + digitValue c) n =
      n * base ^ es.length + digitsValue base es := by
    induction es generalizing n with
    | nil => simp [digitsValue]
    | cons c es ih =>
      rw [digitsValue, List.foldl_cons, List.foldl_cons, ih, ih (base * 0 + digitValue c),
        List.length_cons, pow_succ]
      ring
  rw [digitsValue, List.foldl_append, hfold]
  rfl

/-- A character that cannot be part of a number. -/
def endsNumeral (c : Char) : Bool :=
  !(c.isDigit || isSpace c || c ∈ ['.', '+', '-'] || c.toLower ∈ ['e', 'i', 'n', 'x'])

/-- The text is over, or the number before it is. -/
def Stops (t : List Char) : Prop := ∀ c ∈ t.head?, endsNumeral c = true

theorem stops_cons (c : Char) (t : List Char) (h : endsNumeral c = true) : Stops (c :: t) := by
  simpa [Stops] using h

theorem digit_cases (c : Char) (h : c.isDigit = true) :
    c ∈ ['0', '1', '2', '3', '4', '5', '6', '7', '8', '9'] := by
  have hbounds : 48 ≤ c.toNat ∧ c.toNat ≤ 57 := by
    simp only [Char.isDigit, Bool.and_eq_true, decide_eq_true_eq, ge_iff_le,
      UInt32.le_iff_toNat_le] at h
    exact h
  obtain ⟨hlo, hhi⟩ := hbounds
  rw [← Char.ofNat_toNat c]
  interval_cases c.toNat <;> decide

/-- Neither white space nor a sign, nor the letter of a word or of a hexadecimal prefix. -/
def Plain (c : Char) : Prop :=
  isSpace c = false ∧ c ∉ ['-', '+'] ∧ c.toLower ∉ ['i', 'n', 'x']

instance (c : Char) : Decidable (Plain c) := inferInstanceAs (Decidable (_ ∧ _ ∧ _))

theorem plain_digit (c : Char) (h : c.isDigit = true) : Plain c := by
  have hmem := digit_cases c h
  fin_cases hmem <;> decide

theorem plain_endsNumeral (c : Char) (h : endsNumeral c = true) : Plain c := by
  simp only [Plain, endsNumeral, Bool.not_eq_true', Bool.or_eq_false_iff, decide_eq_false_iff_not,
    List.mem_cons, List.not_mem_nil, or_false, not_or] at h ⊢
  tauto

/-- Without white space, sign, word or hexadecimal prefix a number is decimal. -/
theorem scanDouble_plain (s : List Char)
    (hfirst : ∀ c ∈ s.head?, Plain c)
    (hsecond : s.head? = some '0' → ∀ c ∈ s.tail.head?, Plain c) :
    scanDouble s =
      (scanNumber Char.isDigit 10 10 'e' s).map (fun r => (.finite r.1, r.2)) := by
  cases s with
  | nil => rfl
  | cons c s =>
    obtain ⟨hspace, hsign, hword⟩ := hfirst c rfl
    simp only [List.mem_cons, List.not_mem_nil, or_false, not_or] at hsign hword
    have hskip : skipSpace (c :: s) = c :: s := by simp [skipSpace, hspace]
    have hscan : scanSign (c :: s) = (false, c :: s) := by
      unfold scanSign
      split <;> simp_all
    have hhex : ¬(c = '0' ∧ spelled s ['x'] = 1) := by
      rintro ⟨rfl, hx⟩
      cases s with
      | nil => simp [spelled] at hx
      | cons d s =>
        obtain ⟨-, -, hd⟩ := hsecond rfl d rfl
        simp only [List.mem_cons, List.not_mem_nil, or_false, not_or] at hd
        simp [spelled, hd.2.2] at hx
    simp only [scanDouble, hskip, hscan, scanUnsigned, if_neg hword.1, if_neg hword.2.1,
      if_neg hhex]
    rfl

theorem digitsValue_lt (ds : List Char) (h : ∀ c ∈ ds, c.isDigit = true) :
    digitsValue 10 ds < 10 ^ ds.length := by
  induction ds using List.reverseRecOn with
  | nil => simp [digitsValue]
  | append_singleton ds c ih =>
    have hc : digitsValue 10 [c] < 10 := by
      have hmem := digit_cases c (h c (by simp))
      fin_cases hmem <;> decide
    have hds := ih (fun c hc => h c (by simp [hc]))
    rw [digitsValue_append, List.length_append, List.length_singleton, pow_one, pow_succ]
    omega

theorem takeWhile_digits (ds t : List Char) (hds : ∀ c ∈ ds, c.isDigit = true)
    (ht : ∀ c ∈ t.head?, c.isDigit = false) :
    (ds ++ t).takeWhile Char.isDigit = ds ∧ (ds ++ t).dropWhile Char.isDigit = t := by
  rw [List.takeWhile_append_of_pos hds, List.dropWhile_append_of_pos hds]
  cases t with
  | nil => simp
  | cons c t => simp [ht c rfl]

theorem Stops.not_digit {t : List Char} (h : Stops t) : ∀ c ∈ t.head?, c.isDigit = false := by
  intro c hc
  have hend := h c hc
  simp only [endsNumeral, Bool.not_eq_true', Bool.or_eq_false_iff] at hend
  exact hend.1.1.1

theorem scanMantissa_text (d : Decimal) (t : List Char) (ht : Stops t) :
    scanMantissa Char.isDigit (d.text ++ t) =
      if d.digits = [] then none else some (d.int, d.frac.getD [], t) := by
  obtain ⟨int, frac, hint, hfrac⟩ := d
  cases frac with
  | none =>
    obtain ⟨htake, hdrop⟩ := takeWhile_digits int t hint ht.not_digit
    have hpoint : ∀ u, t ≠ '.' :: u := by
      rintro u rfl
      have hend := ht '.' rfl
      revert hend
      decide
    simp only [Decimal.text, Decimal.digits, Option.elim_none, List.append_nil, Option.getD_none,
      scanMantissa, htake, hdrop]
  | some f =>
    obtain ⟨htake, hdrop⟩ := takeWhile_digits int ('.' :: (f ++ t)) hint (by simp)
    obtain ⟨htake', hdrop'⟩ := takeWhile_digits f t (hfrac f rfl) ht.not_digit
    simp only [Decimal.text, Decimal.digits, Option.elim_some, Option.getD_some, scanMantissa,
      List.append_assoc, List.cons_append, htake, hdrop, htake', hdrop', List.append_eq_nil_iff]

theorem scanExponent_stops (t : List Char) (ht : Stops t) : scanExponent 'e' t = some (0, t) := by
  cases t with
  | nil => rfl
  | cons c t =>
    have hend := ht c rfl
    have he : c.toLower ≠ 'e' := by
      rintro h
      simp [endsNumeral, h] at hend
    simp [scanExponent, he]

theorem Decimal.head_plain (d : Decimal) (t : List Char) (ht : Stops t) :
    ∀ c ∈ (d.text ++ t).head?, Plain c := by
  obtain ⟨int, frac, hint, hfrac⟩ := d
  intro c hc
  cases int with
  | cons a int =>
    obtain rfl : a = c := by simpa [Decimal.text] using hc
    exact plain_digit a (hint a (by simp))
  | nil =>
    cases frac with
    | some f =>
      obtain rfl : '.' = c := by simpa [Decimal.text] using hc
      decide
    | none =>
      have hhead : c ∈ t.head? := by simpa [Decimal.text] using hc
      exact plain_endsNumeral c (ht c hhead)

theorem Decimal.second_plain (d : Decimal) (t : List Char) (ht : Stops t)
    (h : (d.text ++ t).head? = some '0') : ∀ c ∈ (d.text ++ t).tail.head?, Plain c := by
  obtain ⟨int, frac, hint, hfrac⟩ := d
  cases int with
  | cons a int =>
    -- behind the first digit stands a shorter numeral
    exact Decimal.head_plain ⟨int, frac, fun c hc => hint c (by simp [hc]), hfrac⟩ t ht
  | nil =>
    cases frac with
    | some f => simp [Decimal.text] at h
    | none =>
      have hzero : t.head? = some '0' := by simpa [Decimal.text] using h
      exact absurd (ht '0' hzero) (by decide)

/-- A decimal numeral is read to its end and as the number it writes. -/
theorem scanDouble_text (d : Decimal) (t : List Char) (ht : Stops t) :
    scanDouble (d.text ++ t) = if d.digits = [] then none else some (.finite d.value, t) := by
  rw [scanDouble_plain _ (d.head_plain t ht) (d.second_plain t ht)]
  unfold scanNumber
  rw [scanMantissa_text d t ht]
  split_ifs with h
  · rfl
  · simp [scanExponent_stops t ht, Decimal.value, Decimal.digits]

/-- What is left of a numeral after cutting its end off is a numeral, if it has a digit left. -/
theorem Decimal.of_isPrefix (d : Decimal) (q : List Char) (h : q <+: d.text) :
    ∃ d' : Decimal, q = d'.text := by
  obtain ⟨int, frac, hint, hfrac⟩ := d
  rcases List.prefix_or_prefix_of_prefix h (List.prefix_append int _) with hq | ⟨r, rfl⟩
  · exact ⟨⟨q, none, fun c hc => hint c (hq.subset hc), by simp⟩, by simp [Decimal.text]⟩
  · have hr : r <+: frac.elim [] (fun f => '.' :: f) := (List.prefix_append_right_inj int).mp h
    cases frac with
    | none =>
      obtain rfl : r = [] := by simpa using hr
      exact ⟨⟨int, none, hint, by simp⟩, rfl⟩
    | some f =>
      rcases List.prefix_cons_iff.mp hr with rfl | ⟨g, rfl, hg⟩
      · exact ⟨⟨int, none, hint, by simp⟩, rfl⟩
      · refine ⟨⟨int, some g, hint, fun f' hf' c hc => ?_⟩, rfl⟩
        obtain rfl : g = f' := by simpa using hf'
        exact hfrac f rfl c (hg.subset hc)

theorem scanInt_digit (c : Char) (s : List Char) (h : c.isDigit = true) :
    scanInt (c :: s) = some ((digitsValue 10 ((c :: s).takeWhile Char.isDigit) : Int),
      (c :: s).dropWhile Char.isDigit) := by
  obtain ⟨hspace, hsign, -⟩ := plain_digit c h
  simp only [List.mem_cons, List.not_mem_nil, or_false, not_or] at hsign
  have hskip : skipSpace (c :: s) = c :: s := by simp [skipSpace, hspace]
  have hscan : scanSign (c :: s) = (false, c :: s) := by
    unfold scanSign
    split <;> simp_all
  simp [scanInt, hskip, hscan, h]

section Truncation

/-- At most `n` items are assigned on any text cut off from `s`. -/
def AssignsAtMost (n : Nat) (fmt : List Directive) (s : List Char) : Prop :=
  ∀ p, p <+: s → (sscanf fmt p).length ≤ n

theorem AssignsAtMost.literal {n : Nat} {fmt : List Directive} {s : List Char} (c : Char)
    (h : AssignsAtMost n fmt s) : AssignsAtMost n (.literal c :: fmt) (c :: s) := by
  intro p hp
  rcases List.prefix_cons_iff.mp hp with rfl | ⟨q, rfl, hq⟩
  · simp [sscanf_nil]
  · simpa [sscanf] using h q hq

theorem AssignsAtMost.literals {n : Nat} {fmt : List Directive} {s : List Char}
    (text : List Char) (h : AssignsAtMost n fmt s) :
    AssignsAtMost n (text.map .literal ++ fmt) (text ++ s) := by
  induction text with
  | nil => exact h
  | cons c text ih => exact ih.literal c

theorem AssignsAtMost.char {n : Nat} {fmt : List Directive} {s : List Char} (c : Char)
    (h : AssignsAtMost n fmt s) : AssignsAtMost (n + 1) (.c :: fmt) (c :: s) := by
  intro p hp
  rcases List.prefix_cons_iff.mp hp with rfl | ⟨q, rfl, hq⟩
  · simp [sscanf_nil]
  · simpa [sscanf] using h q hq

theorem AssignsAtMost.double {n : Nat} {fmt : List Directive} {s : List Char} (d : Decimal)
    (hs : Stops s) (h : AssignsAtMost n fmt s) :
    AssignsAtMost (n + 1) (.lf :: fmt) (d.text ++ s) := by
  -- the cut leaves a numeral and, if all of this one is left, some of what follows
  have hcut (d : Decimal) (q : List Char) (hq : q <+: s) :
      (sscanf (.lf :: fmt) (d.text ++ q)).length ≤ n + 1 := by
    have hstop : Stops q := by
      intro c hc
      obtain ⟨r, rfl⟩ := hq
      cases q with
      | nil => simp at hc
      | cons a q => exact hs c hc
    simp only [sscanf, scanDouble_text d q hstop]
    by_cases hd : d.digits = []
    · simp [hd]
    · simpa [hd] using h q hq
  intro p hp
  rcases List.prefix_or_prefix_of_prefix hp (List.prefix_append d.text s) with hpd | ⟨q, rfl⟩
  · obtain ⟨d', rfl⟩ := d.of_isPrefix p hpd
    simpa using hcut d' [] List.nil_prefix
  · exact hcut d q ((List.prefix_append_right_inj d.text).mp hp)

end Truncation

end LFBenchmarks.Stdio
