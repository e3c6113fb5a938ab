import LFBenchmarks.Framework.Pattern

namespace LFBenchmarks.CheckE2e

open PyText Pattern

section Script

/-- `\[NAME\s*\]\s*T=TIME s\s*\|\s*TEXT`. -/
def stamped (name : String) (time : List Item) (text : String) : List Item :=
  .one (· = '[') :: (literal name.toList ++ (.star isSpace :: .one (· = ']') :: .star isSpace ::
    .one (· = 'T') :: .one (· = '=') :: (time ++ (.one (· = ' ') :: .one (· = 's') ::
      .star isSpace :: .one (· = '|') :: .star isSpace :: literal text.toList))))

/-- `(5|6|7)`. -/
def fiveToSeven : List Item := [.one (· ∈ ['5', '6', '7'])]

/-- What the faults must lead to in the log of the controlled build. -/
def checks : List (List Item) :=
  [stamped "FMAN" (literal "5".toList) "TEST: STOP sent to PFC2",
    stamped "PFC2" (literal "5".toList) "STOPPED",
    stamped "WES" fiveToSeven "ERROR: PFC2 discordant",
    stamped "PFCDS" fiveToSeven "ERROR: PFC2 faulty",
    stamped "FMAN" (literal "8".toList) "TEST: CONT sent to PFC2",
    stamped "PFC2" (literal "8".toList) "RESUMED",
    stamped "WES" (literal "8".toList) "OK:",
    stamped "FMAN" (literal "640".toList) "TEST: BIAS sent to PFC3",
    stamped "PFC3" (literal "640".toList) "BIAS applied:",
    stamped "WES" (literal "640".toList) "ERROR: PFC3 discordant",
    stamped "PFCDS" (literal "640".toList) "ERROR: PFC3 faulty",
    stamped "WES" (literal "641".toList) "OK:"]

/-- `\bEMERGENCY\b`. -/
def emergency : List Item := .boundary :: (literal "EMERGENCY".toList ++ [.boundary])

def matchingLines (pattern : List Item) (lines : List (List Char)) : List (List Char) :=
  lines.filter (search pattern)

/-- The number of failed checks. -/
def failed (lines : List (List Char)) : Nat :=
  checks.countP (fun pattern => matchingLines pattern lines = []) +
    if matchingLines emergency lines = [] then 0 else 1

/-- The exit status, for a log file that may be missing. -/
def exitStatus (file : Option (List Char)) : Nat :=
  match file with
  | none => 2
  | some text => if failed (splitlines (universalNewlines text)) = 0 then 0 else 1

theorem matchingLines_eq_nil (pattern : List Item) (lines : List (List Char)) :
    matchingLines pattern lines = [] ↔ ∀ line ∈ lines, search pattern line = false := by
  simp [matchingLines, List.filter_eq_nil_iff]

/-- The script passes a log in which every check finds a line and no emergency is reported. -/
theorem exitStatus_eq_zero (text : List Char) : exitStatus (some text) = 0 ↔
    (∀ pattern ∈ checks, ∃ line ∈ splitlines (universalNewlines text),
      search pattern line = true) ∧
    ∀ line ∈ splitlines (universalNewlines text), search emergency line = false := by
  have hfound (pattern : List Item) (lines : List (List Char)) :
      matchingLines pattern lines ≠ [] ↔ ∃ line ∈ lines, search pattern line = true := by
    simp [matchingLines_eq_nil]
  have hzero : exitStatus (some text) = 0 ↔
      failed (splitlines (universalNewlines text)) = 0 := by
    simp only [exitStatus]
    split_ifs with h <;> simp [h]
  rw [hzero, failed, Nat.add_eq_zero_iff, List.countP_eq_zero, ← matchingLines_eq_nil]
  refine and_congr ?_ ?_
  · simp only [decide_eq_true_eq, ← hfound, ne_eq]
  · split_ifs with h <;> simp [h]

end Script

section Log

/-- A log file: every line with its line feed. -/
def logText (lines : List (List Char)) : List Char := lines.flatMap (· ++ ['\n'])

theorem universalNewlines_of_not_mem (s : List Char) (h : '\r' ∉ s) : universalNewlines s = s := by
  induction s using universalNewlines.induct with
  | case1 => rfl
  | case2 s ih => simp at h
  | case3 c s hne ih =>
    rw [List.mem_cons, not_or] at h
    rw [universalNewlines, ih h.2, if_neg (Ne.symm h.1)]
    exact hne

theorem splitOnP_logText (lines : List (List Char))
    (h : ∀ line ∈ lines, ∀ c ∈ line, isBoundary c = false) :
    (logText lines).splitOnP isBoundary = lines ++ [[]] := by
  induction lines with
  | nil => rfl
  | cons line lines ih =>
    have hcons : logText (line :: lines) = line ++ '\n' :: logText lines := by simp [logText]
    rw [hcons, List.splitOnP_append_cons _ _ (by decide), List.splitOnP_eq_singleton (h line (by simp)),
      ih (fun l hl => h l (by simp [hl]))]
    rfl

/-- A log of ASCII lines is read back line by line. -/
theorem splitlines_logText (lines : List (List Char))
    (h : ∀ line ∈ lines, ∀ c ∈ line, 32 ≤ c.toNat ∧ c.toNat < 127) :
    splitlines (universalNewlines (logText lines)) = lines := by
  have hreturn : '\r' ∉ logText lines := by
    intro hmem
    obtain ⟨line, hline, hc⟩ := List.mem_flatMap.mp hmem
    rcases List.mem_append.mp hc with hc | hc
    · exact absurd (h line hline _ hc).1 (by decide)
    · simp at hc
  have hboundary : ∀ line ∈ lines, ∀ c ∈ line, isBoundary c = false := by
    intro line hline c hc
    have hrange := h line hline c hc
    simp only [isBoundary, boundaryCodes, decide_eq_false_iff_not, List.mem_cons,
      List.not_mem_nil, or_false]
    omega
  rw [universalNewlines_of_not_mem _ hreturn, splitlines, splitOnP_logText lines hboundary]
  simp

end Log

section Stamped

/-- A repeated class in front of a character outside of it is skipped as a whole. -/
theorem matchAt_star_one (cls : Char → Bool) (c : Char) (p : List Item) (prev : Option Char)
    (run s : List Char) (hc : cls c = false) (hrun : ∀ d ∈ run, cls d = true)
    (hs : ∀ d ∈ s.head?, cls d = false) :
    matchAt (.star cls :: .one (· = c) :: p) prev (run ++ s) = true ↔
      ∃ t, s = c :: t ∧ matchAt p (some c) t = true := by
  rw [matchAt]
  constructor
  · intro h
    obtain ⟨run', t, heq, hrun', ht⟩ := exists_of_starAt _ _ _ _ h
    cases t with
    | nil => simp [matchAt] at ht
    | cons d t =>
      rw [matchAt, Bool.and_eq_true, decide_eq_true_eq] at ht
      obtain ⟨rfl, ht⟩ := ht
      -- both runs are what the text has in front of the first character outside the class
      have htake : run' = run := by
        have hleft : (run' ++ d :: t).takeWhile cls = run' := by
          simp [List.takeWhile_append_of_pos hrun', hc]
        have hright : (run ++ s).takeWhile cls = run := by
          rw [List.takeWhile_append_of_pos hrun]
          cases s with
          | nil => simp
          | cons e s => simp [hs e rfl]
        rw [← hleft, ← heq, hright]
      rw [htake] at heq
      exact ⟨t, List.append_cancel_left heq, ht⟩
  · rintro ⟨t, rfl, ht⟩
    apply starAt_skip _ _ _ _ _ hrun
    simpa [matchAt] using ht

/-- Two ways to cut a text at the first `c` are one. -/
theorem cut_inj (c : Char) (a b x y : List Char) (ha : c ∉ a) (hb : c ∉ b)
    (h : a ++ c :: x = b ++ c :: y) : a = b ∧ x = y := by
  induction a generalizing b with
  | nil =>
    cases b with
    | nil => exact ⟨rfl, (List.cons.inj h).2⟩
    | cons d b => exact absurd (List.cons.inj h).1 (fun hc => hb (by simp [hc]))
  | cons d a ih =>
    cases b with
    | nil => exact absurd (List.cons.inj h).1.symm (fun hc => ha (by simp [hc]))
    | cons e b =>
      obtain ⟨rfl, htail⟩ := List.cons.inj h
      obtain ⟨rfl, rfl⟩ := ih b (fun hc => ha (by simp [hc])) (fun hc => hb (by simp [hc])) htail
      exact ⟨rfl, rfl⟩

/-- A pattern for the seconds matches exactly these numbers. -/
def TimeIs (time : List Item) (options : List (List Char)) : Prop :=
  ∀ p prev number rest, ' ' ∉ number →
    (matchAt (time ++ .one (· = ' ') :: p) prev (number ++ ' ' :: rest) = true ↔
      number ∈ options ∧ matchAt p (some ' ') rest = true)

theorem timeIs_literal (digits : List Char) (h : ' ' ∉ digits) :
    TimeIs (literal digits) [digits] := by
  intro p prev number rest hnumber
  rw [matchAt_literal, List.mem_singleton]
  constructor
  · rintro ⟨t, heq, ht⟩
    cases t with
    | nil => simp [matchAt] at ht
    | cons c t =>
      rw [matchAt, Bool.and_eq_true, decide_eq_true_eq] at ht
      obtain ⟨rfl, ht⟩ := ht
      obtain ⟨rfl, rfl⟩ := cut_inj ' ' number digits rest t hnumber h heq
      exact ⟨rfl, ht⟩
  · rintro ⟨rfl, ht⟩
    exact ⟨' ' :: rest, rfl, by simpa [matchAt] using ht⟩

theorem timeIs_fiveToSeven : TimeIs fiveToSeven [['5'], ['6'], ['7']] := by
  intro p prev number rest hnumber
  cases number with
  | nil => simp [fiveToSeven, matchAt]
  | cons c number =>
    cases number with
    | nil => simp [fiveToSeven, matchAt]
    | cons d number =>
      have hd : d ≠ ' ' := by
        rintro rfl
        simp at hnumber
      simp [fiveToSeven, matchAt, hd]

/-- A line as the reactors print it: who, when and what. -/
def stampedLine (name blanks number body : List Char) : List Char :=
  '[' :: (name ++ (blanks ++ (']' :: ' ' :: 'T' :: '=' ::
    (number ++ (' ' :: 's' :: ' ' :: '|' :: ' ' :: body)))))

/-- What keeps the parts of a stamped line apart. -/
structure WellStamped (name blanks number body : List Char) : Prop where
  reactor : ∀ c ∈ name, isSpace c = false ∧ c ≠ ']'
  padding : ∀ c ∈ blanks, isSpace c = true
  seconds : ' ' ∉ number
  message : ∀ c ∈ body.head?, isSpace c = false
  bracket : '[' ∉ name ++ (blanks ++ (number ++ body))

theorem name_eq (name name₀ blanks run : List Char) (hname : ∀ c ∈ name, isSpace c = false)
    (hname₀ : ∀ c ∈ name₀, isSpace c = false) (hblanks : ∀ c ∈ blanks, isSpace c = true)
    (hrun : ∀ c ∈ run, isSpace c = true) (h : name₀ ++ blanks = name ++ run) : name₀ = name := by
  have hfront (front back : List Char) (hfront : ∀ c ∈ front, isSpace c = false)
      (hback : ∀ c ∈ back, isSpace c = true) :
      (front ++ back).takeWhile (fun c => !isSpace c) = front := by
    rw [List.takeWhile_append_of_pos (by simpa using hfront)]
    cases back with
    | nil => simp
    | cons c back => simp [hback c (by simp)]
  rw [← hfront name₀ blanks hname₀ hblanks, h, hfront name run hname hrun]

/-- The name of a stamped line, up to its closing bracket. -/
theorem matchAt_name (name name₀ blanks : List Char) (p : List Item) (prev : Option Char)
    (s : List Char) (hname : ∀ c ∈ name, isSpace c = false ∧ c ≠ ']')
    (hname₀ : ∀ c ∈ name₀, isSpace c = false ∧ c ≠ ']')
    (hblanks : ∀ c ∈ blanks, isSpace c = true) :
    matchAt (literal name ++ (.star isSpace :: .one (· = ']') :: p)) prev
        (name₀ ++ (blanks ++ ']' :: s)) = true ↔
      name₀ = name ∧ matchAt p (some ']') s = true := by
  have hclosing (run : List Char) (hrun : ∀ c ∈ run, isSpace c = true) : ']' ∉ run :=
    fun hmem => absurd (hrun ']' hmem) (by decide)
  have hfree (n run : List Char) (hn : ∀ c ∈ n, isSpace c = false ∧ c ≠ ']')
      (hrun : ∀ c ∈ run, isSpace c = true) : ']' ∉ n ++ run := by
    rw [List.mem_append, not_or]
    exact ⟨fun hmem => (hn ']' hmem).2 rfl, hclosing run hrun⟩
  rw [matchAt_literal]
  constructor
  · rintro ⟨t, heq, ht⟩
    rw [matchAt] at ht
    obtain ⟨run, u, rfl, hrun, hu⟩ := exists_of_starAt _ _ _ _ ht
    cases u with
    | nil => simp [matchAt] at hu
    | cons c u =>
      rw [matchAt, Bool.and_eq_true, decide_eq_true_eq] at hu
      obtain ⟨rfl, hu⟩ := hu
      rw [← List.append_assoc, ← List.append_assoc] at heq
      obtain ⟨hfront, rfl⟩ := cut_inj ']' _ _ _ _ (hfree name₀ blanks hname₀ hblanks)
        (hfree name run hname hrun) heq
      exact ⟨name_eq name name₀ blanks run (fun c hc => (hname c hc).1)
        (fun c hc => (hname₀ c hc).1) hblanks hrun hfront, hu⟩
  · rintro ⟨rfl, hs⟩
    refine ⟨blanks ++ ']' :: s, rfl, ?_⟩
    rw [matchAt]
    apply starAt_skip _ _ _ _ _ hblanks
    simpa [matchAt] using hs

theorem blank_space : ∀ c ∈ [' '], isSpace c = true := by
  intro c hc
  rw [List.mem_singleton] at hc
  rw [hc]
  decide

theorem matchAt_text (text body : List Char) (prev : Option Char)
    (htext : ∃ c t, text = c :: t ∧ isSpace c = false)
    (hbody : ∀ c ∈ body.head?, isSpace c = false) :
    matchAt (.star isSpace :: literal text) prev (' ' :: body) = true ↔ text <+: body := by
  obtain ⟨c, t, rfl, hc⟩ := htext
  have hstarts (u : List Char) : matchAt (literal t) (some c) u = true ↔ t <+: u := by
    have hlit := matchAt_literal t [] (some c) u
    rw [List.append_nil] at hlit
    rw [hlit]
    constructor
    · rintro ⟨v, rfl, -⟩
      exact List.prefix_append t v
    · rintro ⟨v, rfl⟩
      exact ⟨v, rfl, rfl⟩
  have hstar := matchAt_star_one isSpace c (literal t) prev [' '] body hc blank_space hbody
  refine hstar.trans ?_
  simp only [hstarts]
  constructor
  · rintro ⟨u, rfl, hu⟩
    exact List.cons_prefix_cons.mpr ⟨rfl, hu⟩
  · intro h
    obtain ⟨u, rfl⟩ := h
    exact ⟨t ++ u, rfl, List.prefix_append t u⟩

/-- A check finds a stamped line exactly when the reactor, the second and the beginning of the
message are the ones it asks for. -/
theorem search_stamped (name text : String) (time : List Item) (options : List (List Char))
    (htime : TimeIs time options)
    (hname : ∀ c ∈ name.toList, isSpace c = false ∧ c ≠ ']')
    (htext : ∃ c t, text.toList = c :: t ∧ isSpace c = false)
    (name₀ blanks number body : List Char) (h : WellStamped name₀ blanks number body) :
    search (stamped name time text) (stampedLine name₀ blanks number body) = true ↔
      name₀ = name.toList ∧ number ∈ options ∧ text.toList <+: body := by
  have hbracket := h.bracket
  simp only [List.mem_append, not_or] at hbracket
  rw [stamped, stampedLine, search_head _ _ _ (by simp [hbracket]),
    matchAt_name _ _ _ _ _ _ hname h.reactor h.padding]
  refine and_congr_right fun _ => ?_
  have hT := matchAt_star_one isSpace 'T' (.one (· = '=') :: (time ++ (.one (· = ' ') ::
    .one (· = 's') :: .star isSpace :: .one (· = '|') :: .star isSpace :: literal text.toList)))
    (some ']') [' '] ('T' :: '=' :: (number ++ (' ' :: 's' :: ' ' :: '|' :: ' ' :: body)))
    (by decide) blank_space (by simp; decide)
  refine hT.trans ?_
  simp only [List.cons.injEq, true_and, exists_eq_left', matchAt, decide_true, Bool.true_and]
  rw [htime _ _ _ _ h.seconds]
  refine and_congr_right fun _ => ?_
  have hbar := matchAt_star_one isSpace '|' (.star isSpace :: literal text.toList)
    (some 's') [' '] ('|' :: ' ' :: body) (by decide) blank_space (by simp; decide)
  simp only [matchAt, decide_true, Bool.true_and]
  refine hbar.trans ?_
  simp only [List.cons.injEq, true_and, exists_eq_left']
  exact matchAt_text _ _ _ htext h.message

end Stamped

end LFBenchmarks.CheckE2e
