import LFBenchmarks.Framework.Stdio

namespace LFBenchmarks.Stdio

/-- Carriage returns and newlines only. -/
def Terminator (term : List Char) : Prop := ∀ c ∈ term, c ∈ ['\r', '\n']

theorem toLower_terminator : ∀ c ∈ ['\r', '\n'], c.toLower = c := by
  intro c hc
  fin_cases hc <;> rfl

theorem isDigit_terminator : ∀ c ∈ ['\r', '\n'], c.isDigit = false := by
  intro c hc
  fin_cases hc <;> rfl

theorem isSpace_terminator : ∀ c ∈ ['\r', '\n'], isSpace c = true := by simp [isSpace]

section Classes

variable {p : Char → Bool} {term : List Char}

theorem takeWhile_terminated (hp : ∀ c ∈ ['\r', '\n'], p c = false) (ht : Terminator term)
    (s : List Char) :
    (s ++ term).takeWhile p = s.takeWhile p ∧ (s ++ term).dropWhile p = s.dropWhile p ++ term := by
  induction s with
  | nil =>
    cases term with
    | nil => simp
    | cons c term => simp [hp c (ht c (by simp))]
  | cons c s ih =>
    simp only [List.cons_append, List.takeWhile_cons, List.dropWhile_cons]
    split_ifs
    · exact ⟨by rw [ih.1], ih.2⟩
    · exact ⟨rfl, rfl⟩

theorem skipSpace_terminated (ht : Terminator term) (s : List Char) :
    skipSpace (s ++ term) = if skipSpace s = [] then [] else skipSpace s ++ term := by
  unfold skipSpace
  induction s with
  | nil => simpa using fun c hc => isSpace_terminator c (ht c hc)
  | cons c s ih =>
    simp only [List.cons_append, List.dropWhile_cons]
    split_ifs at ih ⊢ <;> simp_all

theorem spelled_terminated (ht : Terminator term) (word : List Char)
    (hword : ∀ c ∈ ['\r', '\n'], c ∉ word) (s : List Char) :
    spelled (s ++ term) word = spelled s word := by
  induction s generalizing word with
  | nil =>
    cases term with
    | nil => rfl
    | cons c term =>
      cases word with
      | nil => rfl
      | cons w word =>
        have hc := ht c (by simp)
        have hne : c.toLower ≠ w := by
          rw [toLower_terminator c hc]
          exact fun h => hword c hc (by simp [h])
        simp [spelled, hne]
  | cons c s ih =>
    cases word with
    | nil => rfl
    | cons w word =>
      simp only [List.cons_append, spelled]
      rw [ih word (fun d hd hmem => hword d hd (by simp [hmem]))]

theorem spelled_le_length (s word : List Char) : spelled s word ≤ s.length := by
  induction s generalizing word with
  | nil => cases word <;> simp [spelled]
  | cons c s ih =>
    cases word with
    | nil => simp [spelled]
    | cons w word =>
      have h := ih word
      simp only [spelled, List.length_cons]
      split_ifs <;> omega

end Classes

section Numbers

variable {term : List Char}

theorem scanSign_terminated (ht : Terminator term) (s : List Char) :
    scanSign (s ++ term) = ((scanSign s).1, (scanSign s).2 ++ term) := by
  cases s with
  | nil =>
    cases term with
    | nil => rfl
    | cons c term =>
      have hc := ht c (by simp)
      unfold scanSign
      fin_cases hc <;> rfl
  | cons c s =>
    by_cases hm : c = '-'
    · subst hm
      rfl
    · by_cases hp : c = '+'
      · subst hp
        rfl
      · have hscan (s : List Char) : scanSign (c :: s) = (false, c :: s) := by
          unfold scanSign
          split <;> simp_all
        simp [hscan]

theorem scanMantissa_int (digit : Char → Bool) (s : List Char)
    (h : ∀ t, s.dropWhile digit ≠ '.' :: t) :
    scanMantissa digit s =
      if s.takeWhile digit = [] then none
      else some (s.takeWhile digit, [], s.dropWhile digit) := by
  unfold scanMantissa
  dsimp only
  split
  · next t heq => exact absurd heq (h t)
  · rfl

theorem scanMantissa_point (digit : Char → Bool) (s t : List Char)
    (h : s.dropWhile digit = '.' :: t) :
    scanMantissa digit s =
      if s.takeWhile digit = [] ∧ t.takeWhile digit = [] then none
      else some (s.takeWhile digit, t.takeWhile digit, t.dropWhile digit) := by
  simp only [scanMantissa, h]

theorem scanMantissa_terminated (ht : Terminator term) (digit : Char → Bool)
    (hdigit : ∀ c ∈ ['\r', '\n'], digit c = false) (s : List Char) :
    scanMantissa digit (s ++ term) =
      (scanMantissa digit s).map (fun r => (r.1, r.2.1, r.2.2 ++ term)) := by
  obtain ⟨htake, hdrop⟩ := takeWhile_terminated hdigit ht s
  by_cases hpoint : ∃ t, s.dropWhile digit = '.' :: t
  · obtain ⟨t, hs⟩ := hpoint
    have hst : (s ++ term).dropWhile digit = '.' :: (t ++ term) := by rw [hdrop, hs]; rfl
    obtain ⟨htake', hdrop'⟩ := takeWhile_terminated hdigit ht t
    rw [scanMantissa_point digit s t hs, scanMantissa_point digit _ _ hst, htake, htake', hdrop']
    split_ifs <;> rfl
  · have hs : ∀ t, s.dropWhile digit ≠ '.' :: t := not_exists.mp hpoint
    have hst : ∀ t, (s ++ term).dropWhile digit ≠ '.' :: t := by
      intro t heq
      rw [hdrop] at heq
      cases hrest : s.dropWhile digit with
      | nil =>
        rw [hrest, List.nil_append] at heq
        exact absurd (ht '.' (by simp [heq])) (by simp)
      | cons c u =>
        rw [hrest, List.cons_append, List.cons.injEq] at heq
        exact hs u (by rw [hrest, heq.1])
    rw [scanMantissa_int digit s hs, scanMantissa_int digit _ hst, htake, hdrop]
    split_ifs <;> rfl

theorem scanExponent_terminated (ht : Terminator term) (letter : Char)
    (hletter : ∀ c ∈ ['\r', '\n'], c ≠ letter) (s : List Char) :
    scanExponent letter (s ++ term) =
      (scanExponent letter s).map (fun r => (r.1, r.2 ++ term)) := by
  cases s with
  | nil =>
    cases term with
    | nil => rfl
    | cons c term =>
      have hc := ht c (by simp)
      have hne : c.toLower ≠ letter := by
        rw [toLower_terminator c hc]
        exact hletter c hc
      simp [scanExponent, hne]
  | cons c s =>
    obtain ⟨htake, hdrop⟩ := takeWhile_terminated isDigit_terminator ht (scanSign s).2
    simp only [List.cons_append, scanExponent, scanSign_terminated ht s, htake, hdrop]
    split_ifs <;> simp

theorem scanNumber_terminated (ht : Terminator term) (digit : Char → Bool)
    (hdigit : ∀ c ∈ ['\r', '\n'], digit c = false) (base expBase : Nat) (letter : Char)
    (hletter : ∀ c ∈ ['\r', '\n'], c ≠ letter) (s : List Char) :
    scanNumber digit base expBase letter (s ++ term) =
      (scanNumber digit base expBase letter s).map (fun r => (r.1, r.2 ++ term)) := by
  unfold scanNumber
  rw [scanMantissa_terminated ht digit hdigit s]
  cases scanMantissa digit s with
  | none => rfl
  | some r =>
    obtain ⟨int, frac, t⟩ := r
    simp only [Option.map_some, Option.bind_eq_bind, Option.bind_some,
      scanExponent_terminated ht letter hletter t]
    cases scanExponent letter t <;> rfl

theorem scanInfinity_terminated (ht : Terminator term) (s : List Char) :
    scanInfinity (s ++ term) = (scanInfinity s).map (· ++ term) := by
  unfold scanInfinity
  rw [spelled_terminated ht "infinity".toList (by simp) s]
  have hle := spelled_le_length s "infinity".toList
  dsimp only
  split_ifs
  · rw [List.drop_append_of_le_length hle]
    rfl
  · rfl

/-- What follows `nan`: a parenthesised sequence belongs to it and has to be closed. -/
def afterNan : List Char → Option (List Char)
  | '(' :: t =>
    match t.dropWhile (fun c => c.isAlphanum || c = '_') with
    | ')' :: rest => some rest
    | _ => none
  | rest => some rest

theorem scanNan_eq (s : List Char) :
    scanNan s = if spelled s "nan".toList = 3 then afterNan (s.drop 3) else none := rfl

theorem afterNan_of_ne (s : List Char) (h : ∀ t, s ≠ '(' :: t) : afterNan s = some s := by
  unfold afterNan
  split
  · next t => exact absurd rfl (h t)
  · rfl

theorem afterNan_terminated (ht : Terminator term) (s : List Char) :
    afterNan (s ++ term) = (afterNan s).map (· ++ term) := by
  have hother (c : Char) (hc : c ∉ ['\r', '\n']) (t : List Char) : term ≠ c :: t := by
    rintro rfl
    exact hc (ht c (by simp))
  by_cases hopen : ∃ t, s = '(' :: t
  · obtain ⟨t, rfl⟩ := hopen
    have hclass : ∀ c ∈ ['\r', '\n'], (c.isAlphanum || decide (c = '_')) = false := by
      intro c hc
      fin_cases hc <;> rfl
    obtain ⟨-, hdrop⟩ := takeWhile_terminated hclass ht t
    simp only [List.cons_append, afterNan, hdrop]
    cases t.dropWhile (fun c => c.isAlphanum || decide (c = '_')) with
    | nil =>
      simp only [List.nil_append]
      split
      · next rest => exact absurd rfl (hother ')' (by simp) rest)
      · rfl
    | cons c rest =>
      by_cases hc : c = ')'
      · subst hc
        rfl
      · simp [hc]
  · have hs : ∀ t, s ≠ '(' :: t := not_exists.mp hopen
    rw [afterNan_of_ne s hs, afterNan_of_ne]
    · rfl
    · intro t heq
      cases s with
      | nil => exact hother '(' (by simp) t heq
      | cons c s =>
        rw [List.cons_append, List.cons.injEq] at heq
        exact hs s (by rw [heq.1])

theorem scanNan_terminated (ht : Terminator term) (s : List Char) :
    scanNan (s ++ term) = (scanNan s).map (· ++ term) := by
  rw [scanNan_eq, scanNan_eq, spelled_terminated ht "nan".toList (by simp) s]
  split_ifs with h
  · have hle := spelled_le_length s "nan".toList
    rw [h] at hle
    rw [List.drop_append_of_le_length hle, afterNan_terminated ht]
  · rfl

theorem scanUnsigned_terminated (ht : Terminator term) (negative : Bool) (s : List Char) :
    scanUnsigned negative (s ++ term) =
      (scanUnsigned negative s).map (fun r => (r.1, r.2 ++ term)) := by
  have hhex : ∀ c ∈ ['\r', '\n'], isHexDigit c = false := by
    intro c hc
    fin_cases hc <;> rfl
  cases s with
  | nil =>
    cases term with
    | nil => rfl
    | cons c term =>
      have hc := ht c (by simp)
      fin_cases hc <;> rfl
  | cons c s =>
    have hx := spelled_terminated ht ['x'] (by simp) s
    have hinf := scanInfinity_terminated ht (c :: s)
    have hnan := scanNan_terminated ht (c :: s)
    have hdec := scanNumber_terminated ht Char.isDigit isDigit_terminator 10 10 'e' (by simp) (c :: s)
    rw [List.cons_append] at hinf hnan hdec
    simp only [List.cons_append, scanUnsigned, hx, hinf, hnan, hdec]
    by_cases hi : c.toLower = 'i'
    · rw [if_pos hi, if_pos hi, Option.map_map, Option.map_map]
      rfl
    · rw [if_neg hi, if_neg hi]
      by_cases hn : c.toLower = 'n'
      · rw [if_pos hn, if_pos hn, Option.map_map, Option.map_map]
        rfl
      · rw [if_neg hn, if_neg hn]
        by_cases hz : c = '0' ∧ spelled s ['x'] = 1
        · have hs : 1 ≤ s.length := hz.2 ▸ spelled_le_length s ['x']
          rw [if_pos hz, if_pos hz, List.drop_append_of_le_length hs,
            scanNumber_terminated ht isHexDigit hhex 16 2 'p' (by simp) (s.drop 1),
            Option.map_map, Option.map_map]
          rfl
        · rw [if_neg hz, if_neg hz, Option.map_map, Option.map_map]
          rfl

theorem scanDouble_terminated (ht : Terminator term) (s : List Char) :
    scanDouble (s ++ term) = (scanDouble s).map (fun r => (r.1, r.2 ++ term)) := by
  unfold scanDouble
  rw [skipSpace_terminated ht s]
  split_ifs with h
  · rw [h]
    rfl
  · simp only [scanSign_terminated ht, scanUnsigned_terminated ht]

theorem scanInt_terminated (ht : Terminator term) (s : List Char) :
    scanInt (s ++ term) = (scanInt s).map (fun r => (r.1, r.2 ++ term)) := by
  unfold scanInt
  rw [skipSpace_terminated ht s]
  split_ifs with h
  · rw [h]
    rfl
  · obtain ⟨htake, hdrop⟩ := takeWhile_terminated isDigit_terminator ht (scanSign (skipSpace s)).2
    simp only [scanSign_terminated ht, htake, hdrop]
    split_ifs <;> rfl

end Numbers

section Conversions

variable {term : List Char}

theorem scanString_terminated (ht : Terminator term) (w : Nat) (s : List Char) :
    scanString w (s ++ term) = (scanString w s).map (fun r => (r.1, r.2 ++ term)) := by
  unfold scanString
  rw [skipSpace_terminated ht s]
  split_ifs with h
  · simp [h]
  · have hspace : ∀ c ∈ ['\r', '\n'], (!isSpace c) = false := by simp [isSpace]
    have hcut : Terminator (term.take (w - (skipSpace s).length)) :=
      fun c hc => ht c (List.mem_of_mem_take hc)
    have hle : (((skipSpace s).take w).takeWhile (fun c => !isSpace c)).length ≤
        (skipSpace s).length :=
      ((List.takeWhile_prefix _).trans (List.take_prefix w _)).length_le
    simp only [List.take_append, (takeWhile_terminated hspace hcut _).1]
    split_ifs
    · rfl
    · rw [List.drop_append_of_le_length hle]
      rfl

/-- With and without the terminator the same items are assigned, or fewer than `n`. -/
def AgreesBelow (n : Nat) (fmt : List Directive) : Prop :=
  ∀ s term, Terminator term → sscanf fmt (s ++ term) = sscanf fmt s ∨
    (sscanf fmt (s ++ term)).length < n ∧ (sscanf fmt s).length < n

variable {n : Nat} {fmt : List Directive}

theorem agreesBelow_nil : AgreesBelow 0 [] := fun _ _ _ => .inl rfl

theorem AgreesBelow.cons {s term : List Char} {x : Item}
    (h : sscanf fmt (s ++ term) = sscanf fmt s ∨
      (sscanf fmt (s ++ term)).length < n ∧ (sscanf fmt s).length < n) :
    x :: sscanf fmt (s ++ term) = x :: sscanf fmt s ∨
      (x :: sscanf fmt (s ++ term)).length < n + 1 ∧ (x :: sscanf fmt s).length < n + 1 := by
  rcases h with h | ⟨h₁, h₂⟩
  · exact .inl (by rw [h])
  · exact .inr ⟨Nat.succ_lt_succ h₁, Nat.succ_lt_succ h₂⟩

theorem sscanf_literal_terminator (ht : Terminator term) (c : Char) (hc : c ∉ ['\r', '\n']) :
    sscanf (.literal c :: fmt) term = [] := by
  cases term with
  | nil => rfl
  | cons d term =>
    have hne : d ≠ c := by
      rintro rfl
      exact hc (ht d (by simp))
    simp [sscanf, hne]

theorem AgreesBelow.literal (c : Char) (hc : c ∉ ['\r', '\n']) (h : AgreesBelow n fmt) :
    AgreesBelow n (.literal c :: fmt) := by
  intro s term ht
  cases s with
  | nil => exact .inl (sscanf_literal_terminator ht c hc)
  | cons d s =>
    simp only [List.cons_append, sscanf]
    split_ifs
    · exact h s term ht
    · exact .inl rfl

theorem AgreesBelow.literals (text : List Char) (htext : ∀ c ∈ text, c ∉ ['\r', '\n'])
    (h : AgreesBelow n fmt) : AgreesBelow n (text.map .literal ++ fmt) := by
  induction text with
  | nil => exact h
  | cons c text ih => exact (ih (fun d hd => htext d (by simp [hd]))).literal c (htext c (by simp))

/-- A character conversion can take a terminator for the character, but not get past the
literal behind it. -/
theorem AgreesBelow.char (hn : 0 < n) (c : Char) (hc : c ∉ ['\r', '\n'])
    (h : AgreesBelow n (.literal c :: fmt)) :
    AgreesBelow (n + 1) (.c :: .literal c :: fmt) := by
  intro s term ht
  cases s with
  | nil =>
    cases term with
    | nil => exact .inl rfl
    | cons d term =>
      have hrest : Terminator term := fun e he => ht e (by simp [he])
      have hitems : sscanf (.c :: .literal c :: fmt) (d :: term) = [.char d] := by
        rw [sscanf, sscanf_literal_terminator hrest c hc]
      right
      rw [List.nil_append, hitems]
      simpa [sscanf] using hn
  | cons d s =>
    simp only [List.cons_append, sscanf]
    exact AgreesBelow.cons (h s term ht)

theorem AgreesBelow.double (h : AgreesBelow n fmt) : AgreesBelow (n + 1) (.lf :: fmt) := by
  intro s term ht
  simp only [sscanf, scanDouble_terminated ht s]
  cases scanDouble s with
  | none => exact .inl rfl
  | some r => exact AgreesBelow.cons (h r.2 term ht)

theorem AgreesBelow.int (h : AgreesBelow n fmt) : AgreesBelow (n + 1) (.d :: fmt) := by
  intro s term ht
  simp only [sscanf, scanInt_terminated ht s]
  cases scanInt s with
  | none => exact .inl rfl
  | some r => exact AgreesBelow.cons (h r.2 term ht)

theorem AgreesBelow.string (w : Nat) (h : AgreesBelow n fmt) :
    AgreesBelow (n + 1) (.s w :: fmt) := by
  intro s term ht
  simp only [sscanf, scanString_terminated ht w s]
  cases scanString w s with
  | none => exact .inl rfl
  | some r => exact AgreesBelow.cons (h r.2 term ht)

end Conversions

end LFBenchmarks.Stdio
