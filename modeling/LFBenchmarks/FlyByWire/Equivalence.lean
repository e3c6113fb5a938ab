import LFBenchmarks.FlyByWire.Validation

namespace LFBenchmarks.FlyByWire

open Stdio

section Selection

theorem sscanf_six (s : List Char) (h : (sscanf gpgllFormat s).length = 6) :
    ∃ lat latDir lon lonDir time status, sscanf gpgllFormat s =
      [.double lat, .char latDir, .double lon, .char lonDir, .int time, .string status] := by
  have hitems := sscanf_assigns gpgllFormat s
  have hall : (conversions gpgllFormat).take 6 = [.lf, .c, .lf, .c, .d, .s 31] := rfl
  rw [h, hall] at hitems
  simp only [List.forall₂_cons_left_iff, List.forall₂_nil_left_iff] at hitems
  obtain ⟨x₁, _, h₁, ⟨x₂, _, h₂, ⟨x₃, _, h₃, ⟨x₄, _, h₄, ⟨x₅, _, h₅, ⟨x₆, _, h₆, rfl, rfl⟩, rfl⟩,
    rfl⟩, rfl⟩, rfl⟩, hitems⟩ := hitems
  rw [hitems]
  cases x₁ <;> try exact h₁.elim
  cases x₂ <;> try exact h₂.elim
  cases x₃ <;> try exact h₃.elim
  cases x₄ <;> try exact h₄.elim
  cases x₅ <;> try exact h₅.elim
  cases x₆ <;> try exact h₆.elim
  exact ⟨_, _, _, _, _, _, rfl⟩

theorem sixItems_of_length (items : List Item) (h : items.length ≠ 6) :
    Validation.sixItems items = none := by
  unfold Validation.sixItems
  split
  · simp at h
  · rfl

/-- Production accepts what yields all six items, with the position both builds store. -/
theorem acceptedFix_of_six (s : List Char) (h : (sscanf gpgllFormat s).length = 6) :
    ∃ fix, acceptedFix s = some fix ∧
      Validation.sixItems (sscanf gpgllFormat s) = some fix.position := by
  obtain ⟨lat, latDir, lon, lonDir, time, status, hitems⟩ := sscanf_six s h
  have hstart : gpgllSentence.isPrefixOf s = true := by
    have htag : "$GPGLL,".toList <+: s := sscanf_literals_of_pos _ (by
      change 0 < (sscanf gpgllFormat s).length
      omega)
    rw [List.isPrefixOf_iff_prefix]
    exact (List.prefix_append gpgllSentence [',']).trans htag
  refine ⟨⟨lat, latDir, lon, lonDir, time, true⟩, ?_, ?_⟩
  · simp [acceptedFix, parseGpgll, hstart, hitems]
  · rw [hitems]
    rfl

theorem gpgllFormat_agreesBelow : AgreesBelow 6 gpgllFormat := by
  have hcomma : ',' ∉ ['\r', '\n'] := by decide
  have hstatus := (agreesBelow_nil.string 31).literal ',' hcomma
  have hlonDir := AgreesBelow.char (by decide) ',' hcomma (hstatus.int.literal ',' hcomma)
  have hlon := (hlonDir.literal ',' hcomma).double
  have hlatDir := AgreesBelow.char (by decide) ',' hcomma (hlon.literal ',' hcomma)
  exact (hlatDir.literal ',' hcomma).double.literals "$GPGLL,".toList (by simp)

/-- On a line of text the validation build accepts what makes all six conversions in the
production build, which reads the line without its terminator. -/
theorem parse_line (body term : List Char)
    (hbody : ∀ c ∈ body, c ≠ '\x00' ∧ c ∉ ['\r', '\n'])
    (hterm : term ∈ [[], ['\r'], ['\n'], ['\r', '\n']]) :
    Validation.parse (body ++ term) =
      if (sscanf gpgllFormat body).length = 6 then (acceptedFix body).map GllFix.position
      else none := by
  have hterm' : Terminator term ∧ '\x00' ∉ term := by
    fin_cases hterm <;> simp [Terminator]
  have hstring : (body ++ term).takeWhile (· ≠ '\x00') = body ++ term := by
    rw [List.takeWhile_eq_self_iff]
    intro c hc
    rcases List.mem_append.mp hc with hc | hc
    · simpa using (hbody c hc).1
    · simpa using fun heq : c = '\x00' => hterm'.2 (heq ▸ hc)
  unfold Validation.parse
  rw [hstring]
  change Validation.sixItems (sscanf gpgllFormat (body ++ term)) = _
  rcases gpgllFormat_agreesBelow body term hterm'.1 with heq | ⟨hraw, hcut⟩
  · rw [heq]
    split_ifs with hsix
    · obtain ⟨fix, hfix, hitems⟩ := acceptedFix_of_six body hsix
      rw [hitems, hfix]
      rfl
    · exact sixItems_of_length _ hsix
  · rw [if_neg (by omega)]
    exact sixItems_of_length _ (by omega)

theorem nextFix_line (line : List Char) (h : OneLine line) (hlen : line.length ≤ 255) :
    (nextFix line).1 = bufferFix line := by
  unfold nextFix
  rw [scanLoop_eq]
  exact scanFor_oneLine bufferFix (by decide) line h hlen

/-- On a line of text that fits into the buffer the loop of the validation build accepts what
makes all six conversions in the production build, with the position the production loop stores. -/
theorem nextPosition_line (body term : List Char)
    (hbody : ∀ c ∈ body, c ≠ '\x00' ∧ c ∉ ['\r', '\n'])
    (hterm : term ∈ [[], ['\r'], ['\n'], ['\r', '\n']]) (hlen : (body ++ term).length ≤ 255) :
    (Validation.nextPosition (body ++ term)).1 =
      if (sscanf gpgllFormat body).length = 6 then
        (nextFix (body ++ term)).1.map GllFix.position
      else none := by
  have hone : OneLine (body ++ term) := by
    have hnot : '\n' ∉ body := fun hmem => (hbody _ hmem).2 (by simp)
    unfold OneLine
    fin_cases hterm <;> simp [hnot, List.dropLast_append_of_ne_nil]
    exact fun hmem => hnot (List.dropLast_subset _ hmem)
  have hfix : (nextFix (body ++ term)).1 = acceptedFix body := by
    rw [nextFix_line _ hone hlen, bufferFix, terminateAt_strcspn]
    exact congrArg acceptedFix (beforeTerminator_append body term hbody hterm)
  rw [hfix, ← parse_line body term hbody hterm]
  exact scanFor_oneLine Validation.parse (by decide) _ hone hlen

end Selection

section Files

/-- A carriage return stands only before a newline, or at the very end. -/
def CrBeforeLf (s : List Char) : Prop := ∀ a c b, s = a ++ '\r' :: c :: b → c = '\n'

theorem CrBeforeLf.of_isInfix {s t : List Char} (h : CrBeforeLf s) (ht : t <:+: s) :
    CrBeforeLf t := by
  obtain ⟨x, y, rfl⟩ := ht
  rintro a c b rfl
  exact h (x ++ a) c (b ++ y) (by simp)

theorem oneLine_fgetsPiece (n : Nat) (s : List Char) : OneLine (fgetsPiece n s).1 := by
  induction n generalizing s with
  | zero => simp [fgetsPiece, OneLine]
  | succ n ih =>
    cases s with
    | nil => simp [fgetsPiece, OneLine]
    | cons c s =>
      simp only [fgetsPiece]
      split_ifs with hc
      · simp [OneLine]
      · have hrest := ih s
        unfold OneLine at hrest ⊢
        cases hpiece : (fgetsPiece n s).1 with
        | nil => simp
        | cons d t =>
          rw [hpiece] at hrest
          rw [List.dropLast_cons_of_ne_nil (by simp)]
          simpa [Ne.symm hc] using hrest

theorem oneLine_of_mem_reads (fuel : Nat) (stream line : List Char)
    (h : line ∈ reads 256 fuel stream) : OneLine line := by
  obtain ⟨-, rest, -, rfl⟩ := reads_piece fuel stream line h
  exact oneLine_fgetsPiece _ rest

/-- In a text file every buffer holds the text of a line and at most its terminator. -/
theorem buffer_eq (line : List Char) (hone : OneLine line) (hcr : CrBeforeLf line)
    (hnul : '\x00' ∉ line) :
    ∃ term ∈ [[], ['\r'], ['\n'], ['\r', '\n']], line = beforeTerminator line ++ term := by
  have hlast (a : List Char) (c : Char) (t : List Char) (h : line = a ++ '\n' :: c :: t) :
      False := by
    refine hone ?_
    rw [h, List.dropLast_append_of_ne_nil (by simp), List.dropLast_cons_of_ne_nil (by simp)]
    simp
  have happ : line = beforeTerminator line ++
      line.dropWhile (fun c => c ≠ '\x00' ∧ c ∉ ['\r', '\n']) :=
    List.takeWhile_append_dropWhile.symm
  refine ⟨_, ?_, happ⟩
  cases hrest : line.dropWhile (fun c => c ≠ '\x00' ∧ c ∉ ['\r', '\n']) with
  | nil => simp
  | cons c t =>
    rw [hrest] at happ
    have hmem : c ∈ line := by
      rw [happ]
      simp
    have hstop : c = '\r' ∨ c = '\n' := by
      have hne : line.dropWhile (fun c => decide (c ≠ '\x00' ∧ c ∉ ['\r', '\n'])) ≠ [] := by
        rw [hrest]
        exact List.cons_ne_nil c t
      have hc := List.head_dropWhile_not _ hne
      simp only [hrest, List.head_cons, decide_eq_false_iff_not, not_and_or, not_not] at hc
      rcases hc with rfl | hc
      · exact absurd hmem hnul
      · simpa using hc
    rcases hstop with rfl | rfl
    · cases t with
      | nil => simp
      | cons d t =>
        obtain rfl := hcr _ d t happ
        cases t with
        | nil => simp
        | cons e t => exact (hlast (beforeTerminator line ++ ['\r']) e t (by simpa using happ)).elim
    · cases t with
      | nil => simp
      | cons e t => exact (hlast (beforeTerminator line) e t happ).elim

theorem parse_buffer (line : List Char) (hone : OneLine line) (hcr : CrBeforeLf line)
    (hnul : '\x00' ∉ line) :
    Validation.parse line =
      if (sscanf gpgllFormat (beforeTerminator line)).length = 6 then
        (bufferFix line).map GllFix.position
      else none := by
  obtain ⟨term, hterm, happ⟩ := buffer_eq line hone hcr hnul
  have hbody : ∀ c ∈ beforeTerminator line, c ≠ '\x00' ∧ c ∉ ['\r', '\n'] := by
    intro c hc
    simpa using List.mem_takeWhile_imp hc
  have hparse := parse_line _ term hbody hterm
  rw [← happ] at hparse
  rw [hparse, bufferFix, terminateAt_strcspn]
  rfl

theorem filterMap_ite_eq_iff {α β : Type*} (P : α → Prop) [DecidablePred P] (g : α → Option β)
    (l : List α) :
    l.filterMap (fun a => if P a then g a else none) = l.filterMap g ↔
      ∀ a ∈ l, (g a).isSome = true → P a := by
  have hle (l : List α) : (l.filterMap (fun a => if P a then g a else none)).length ≤
      (l.filterMap g).length := by
    induction l with
    | nil => simp
    | cons a l ih =>
      cases hg : g a with
      | none => simpa [hg] using ih
      | some b =>
        simp only [List.filterMap_cons, hg]
        split_ifs <;> simp <;> omega
  induction l with
  | nil => simp
  | cons a l ih =>
    cases hg : g a with
    | none => simpa [hg] using ih
    | some b =>
      by_cases hP : P a
      · simpa [hg, hP] using ih
      · have hshort := hle l
        have hskip : (a :: l).filterMap (fun a => if P a then g a else none) =
            l.filterMap (fun a => if P a then g a else none) := by simp [hP]
        have hkeep : (a :: l).filterMap g = b :: l.filterMap g := by simp [hg]
        rw [hskip, hkeep]
        constructor
        · intro heq
          rw [heq] at hshort
          simp at hshort
        · intro hall
          exact absurd (hall a (by simp) (by simp [hg])) hP

end Files

section Builds

variable {V : Type*} [Field V] [LinearOrder V] [FloorRing V]

/-- The loop of the validation build accepts the lines that make all six conversions in the
production build. On a text file both therefore assign the same fix to every counter exactly
when every buffer the production build accepts makes all six. -/
theorem validation_selects_six :
    (∀ body term : List Char, (∀ c ∈ body, c ≠ '\x00' ∧ c ∉ ['\r', '\n']) →
      term ∈ [[], ['\r'], ['\n'], ['\r', '\n']] → (body ++ term).length ≤ 255 → ∀ position,
        (Validation.nextPosition (body ++ term)).1 = some position ↔
          (sscanf gpgllFormat body).length = 6 ∧
            ∃ fix, (nextFix (body ++ term)).1 = some fix ∧ fix.position = position) ∧
    ∀ file : List Char, '\x00' ∉ file → CrBeforeLf file →
      ∀ (E : Env V) (distance : Position → Position → V), openG18 E.fopen = some file →
        Validation.openG18 E.fopen = some file →
        ((∀ n, Validation.Pfc.consumed E.fopen distance n =
            (Pfc.consumed E (fun _ => none) n).map GllFix.position) ↔
          ∀ line ∈ allReads 256 file, (bufferFix line).isSome = true →
            (sscanf gpgllFormat (beforeTerminator line)).length = 6) := by
  constructor
  · intro body term hbody hterm hlen position
    rw [nextPosition_line body term hbody hterm hlen]
    split_ifs with hsix
    · simp [hsix, Option.map_eq_some_iff]
    · simp [hsix]
  · intro file hnul hcr E distance hopen hopen'
    have hlive (n : Nat) : ¬Interrupted (fun _ => none) (n + 1) := by simp [Interrupted]
    have hfixes : E.fixes = acceptedFixes file := by simp [Env.fixes, hopen]
    -- counter by counter means as sequences
    have hseq : (∀ n, Validation.Pfc.consumed E.fopen distance n =
        (Pfc.consumed E (fun _ => none) n).map GllFix.position) ↔
          Validation.acceptedPositions file = (acceptedFixes file).map GllFix.position := by
      simp only [Validation.consumed_eq E.fopen distance file hopen',
        consumed_of_alive E _ _ (hlive _), hfixes, ← List.getElem?_map]
      exact ⟨fun h => List.ext_getElem? h, fun h n => by rw [h]⟩
    have hparse : ∀ line ∈ allReads 256 file, Validation.parse line =
        if (sscanf gpgllFormat (beforeTerminator line)).length = 6 then
          (bufferFix line).map GllFix.position
        else none := by
      intro line hline
      have hpart := reads_isInfix _ file line hline
      exact parse_buffer line (oneLine_of_mem_reads _ file line hline) (hcr.of_isInfix hpart)
        (fun hmem => hnul (hpart.subset hmem))
    rw [hseq, Validation.acceptedPositions, acceptedFixes_eq, List.map_filterMap,
      List.filterMap_congr hparse, filterMap_ite_eq_iff]
    simp

/-- A sentence whose time has fractional seconds makes five conversions: production flies it,
the validation build passes over it. -/
theorem fractional_seconds_passed_over :
    ¬∀ body term : List Char, (∀ c ∈ body, c ≠ '\x00' ∧ c ∉ ['\r', '\n']) →
      term ∈ [[], ['\r'], ['\n'], ['\r', '\n']] → (body ++ term).length ≤ 255 →
        ((Validation.nextPosition (body ++ term)).1.isSome = true ↔
          (nextFix (body ++ term)).1.isSome = true) := by
  intro h
  have hboth := h "$GPGLL,4547.1234,N,00856.5,E,123456.00,A*33".toList ['\n'] (by simp) (by simp)
    (by decide)
  exact absurd hboth (by decide +kernel)

end Builds

section Lag

theorem speedAt_eq (fixes : List GllFix) (n : Nat) :
    Validation.speedAt Validation.distance (fixes.map GllFix.position) n =
      nominalSpeed haversineDistance fixes n := by
  induction n with
  | zero => rfl
  | succ n ih =>
    simp only [Validation.speedAt, nominalSpeed, ih, Validation.distance_eq, List.getD_map]

/-- On the same fixes the validation build transmits what the production build transmitted one
sample before, and zero first; the counters agree and both stop at the same tick. -/
theorem one_sample_lag (fopen : String → Option (List Char)) (randMax : Nat) (rand : Nat → Nat)
    (file file' : List Char) (hopen : openG18 fopen = some file)
    (hopen' : Validation.openG18 fopen = some file')
    (hsame : Validation.acceptedPositions file' = (acceptedFixes file).map GllFix.position) :
    let production := Pfc.sent (shippedEnv fopen randMax rand) (fun _ => none)
    let validation := Validation.Pfc.sent fopen Validation.distance
    let m := (acceptedFixes file).length
    (∀ n, m ≤ n → production n = none ∧ validation n = none) ∧
    (0 < m → validation 0 = some ⟨0, 0, true⟩) ∧
    ∀ n, n < m → ∃ v, production n = some ⟨n, v, true⟩ ∧
      (n + 1 < m → validation (n + 1) = some ⟨n + 1, v, true⟩) := by
  intro production validation m
  have hfixes : (shippedEnv fopen randMax rand).fixes = acceptedFixes file := by
    simp [Env.fixes, shippedEnv, hopen]
  have hproduction (n : Nat) : production n =
      if n < m then some ⟨n, nominalSpeed haversineDistance (acceptedFixes file) n, true⟩
      else none := by
    obtain ⟨hsend, hclean⟩ := transmits_of_none (fun _ => none) n (fun _ _ => rfl)
    simp only [production, sent_eq, hfixes, hsend, hclean, and_true, if_false]
    rfl
  have hvalidation (n : Nat) : validation n =
      if n < m then some ⟨n, nominalSpeed haversineDistance (acceptedFixes file) (n - 1), true⟩
      else none := by
    simp only [validation, Validation.sent_eq fopen _ file' hopen', hsame, List.length_map,
      speedAt_eq]
    rfl
  refine ⟨fun n hn => ⟨?_, ?_⟩, fun hm => ?_, fun n hn => ⟨_, by rw [hproduction, if_pos hn], ?_⟩⟩
  · rw [hproduction, if_neg (by omega)]
  · rw [hvalidation, if_neg (by omega)]
  · rw [hvalidation, if_pos hm]
    rfl
  · intro hn'
    rw [hvalidation, if_pos hn']
    simp

theorem one_sample_lag_two :
    let fopen := fun _ => some (oneSentence ++ oneSentence)
    ∃ v, Pfc.sent (shippedEnv fopen 1 (fun _ => 0)) (fun _ => none) 0 = some ⟨0, v, true⟩ ∧
      Validation.Pfc.sent fopen Validation.distance 1 = some ⟨1, v, true⟩ := by
  intro fopen
  have hlen : (acceptedFixes (oneSentence ++ oneSentence)).length = 2 := by decide +kernel
  obtain ⟨-, -, hlag⟩ := one_sample_lag fopen 1 (fun _ => 0) (oneSentence ++ oneSentence)
    (oneSentence ++ oneSentence) rfl rfl (by decide +kernel)
  obtain ⟨v, hproduction, hvalidation⟩ := hlag 0 (by omega)
  exact ⟨v, by simpa using hproduction, by simpa using hvalidation (by omega)⟩

end Lag

end LFBenchmarks.FlyByWire
