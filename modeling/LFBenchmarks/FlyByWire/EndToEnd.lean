import LFBenchmarks.FlyByWire.Controlled
import LFBenchmarks.FlyByWire.Lines
import LFBenchmarks.Framework.Decimal
import LFBenchmarks.Scripts.CheckE2e

namespace LFBenchmarks.FlyByWire

open Pattern PyText CheckE2e

section Characters

/-- A visible character or a blank, other than the two the checks turn on. -/
def Plain (c : Char) : Prop := 32 ≤ c.toNat ∧ c.toNat < 127 ∧ c ≠ '[' ∧ c ≠ 'Y'

instance (c : Char) : Decidable (Plain c) := inferInstanceAs (Decidable (_ ∧ _))

theorem forall_of_all {P : Char → Prop} [DecidablePred P] {s : Line}
    (h : s.all (fun c => decide (P c)) = true) : ∀ c ∈ s, P c := by simpa using h

theorem plain_toDigits (n : Nat) : ∀ c ∈ Nat.toDigits 10 n, Plain c := by
  intro c hc
  have hdigit := Nat.isDigit_of_mem_toDigits (by decide) (by decide) hc
  have hmem := Stdio.digit_cases c hdigit
  fin_cases hmem <;> decide

theorem plain_append {s t : List Char} (hs : ∀ c ∈ s, Plain c) (ht : ∀ c ∈ t, Plain c) :
    ∀ c ∈ s ++ t, Plain c := fun c hc => (List.mem_append.mp hc).elim (hs c) (ht c)

theorem plain_intText (n : Int) : ∀ c ∈ intText n, Plain c := by
  unfold intText
  refine plain_append ?_ (plain_toDigits _)
  split_ifs
  · exact forall_of_all (by decide)
  · simp

variable {V : Type*} [Field V] [LinearOrder V] [FloorRing V]

theorem plain_fixedText (v : V) : ∀ c ∈ fixedText v, Plain c := by
  unfold fixedText
  refine plain_append (plain_append ?_ (plain_toDigits _)) ?_
  · split_ifs
    · exact forall_of_all (by decide)
    · simp
  · intro c hc
    rcases List.mem_cons.mp hc with rfl | hc
    · decide
    · rcases List.mem_append.mp hc with hc | hc
      · rw [(List.mem_replicate.mp hc).2]
        decide
      · exact plain_toDigits _ c hc

theorem plain_samplesText (samples : Fin 3 → SpeedMsg V) :
    ∀ c ∈ samplesText samples, Plain c := by
  have hsample (msg : SpeedMsg V) : ∀ c ∈ sampleText msg, Plain c :=
    plain_append (plain_append (plain_append (plain_append (forall_of_all (by decide)) (plain_intText _))
      (forall_of_all (by decide))) (plain_fixedText _)) (forall_of_all (by decide))
  unfold samplesText
  exact plain_append (plain_append (plain_append (plain_append (plain_append (forall_of_all (by decide))
    (hsample _)) (forall_of_all (by decide))) (hsample _)) (forall_of_all (by decide))) (hsample _)

end Characters

section Heads

/-- The part of a line's message that does not depend on the values printed. -/
def Kind.head : Kind → Line
  | .cannotOpen i => "ERROR: ".toList ++ pfcText i ++ ": Cannot open G18.txt".toList
  | .stopped _ => "STOPPED by failure generator".toList
  | .killed _ => "KILLED by failure generator".toList
  | .resumed _ => "RESUMED by failure generator".toList
  | .biasScheduled _ => "BIAS scheduled".toList
  | .endOfData _ => "End of G18.txt reached (counter=".toList
  | .biasApplied _ => "BIAS applied: ".toList
  | .agree => "OK: all speeds agree: ".toList
  | .discordant i => "ERROR: ".toList ++ pfcText i ++ " discordant | ".toList
  | .noTwoAgree => "EMERGENCY: no two PFCs agree | ".toList
  | .sent fault => "TEST: ".toList ++ fault.toList
  | .faulty i => "ERROR: ".toList ++ pfcText i ++ " faulty. Logged.".toList
  | .terminating => "EMERGENCY: all PFCs disagree! Terminating system.".toList
  | .finished => "All PFCs finished. Shutting down.".toList

def Kind.reactor : Kind → Line
  | .cannotOpen _ => []
  | .stopped i => pfcText i
  | .killed i => pfcText i
  | .resumed i => pfcText i
  | .biasScheduled i => pfcText i
  | .endOfData i => pfcText i
  | .biasApplied i => pfcText i
  | .agree => "WES".toList
  | .discordant _ => "WES".toList
  | .noTwoAgree => "WES".toList
  | .sent _ => "FMAN".toList
  | .faulty _ => "PFCDS".toList
  | .terminating => "PFCDS".toList
  | .finished => "PFCDS".toList

variable {V : Type*}

theorem Message.reactor_eq (msg : Message V) : msg.reactor.1 = msg.kind.reactor := by
  cases msg <;> rfl

theorem pfcText_chars (i : Fin 3) : ∀ c ∈ pfcText i, isSpace c = false ∧ c ≠ ']' ∧ Plain c := by
  fin_cases i <;> exact forall_of_all (by decide)

theorem Message.reactor_chars (msg : Message V) :
    (∀ c ∈ msg.reactor.1, isSpace c = false ∧ c ≠ ']' ∧ Plain c) ∧
      ∀ c ∈ msg.reactor.2, isSpace c = true ∧ Plain c := by
  have hblanks (n : Nat) : ∀ c ∈ List.replicate n ' ', isSpace c = true ∧ Plain c := by
    intro c hc
    rw [(List.mem_replicate.mp hc).2]
    decide
  have hwes : ∀ c ∈ "WES".toList, isSpace c = false ∧ c ≠ ']' ∧ Plain c :=
    forall_of_all (by decide)
  have hfman : ∀ c ∈ "FMAN".toList, isSpace c = false ∧ c ≠ ']' ∧ Plain c :=
    forall_of_all (by decide)
  have hpfcds : ∀ c ∈ "PFCDS".toList, isSpace c = false ∧ c ≠ ']' ∧ Plain c :=
    forall_of_all (by decide)
  cases msg with
  | stopped i | killed i | resumed i | biasScheduled i | endOfData i | biasApplied i =>
    exact ⟨pfcText_chars i, hblanks 2⟩
  | agree | discordant | noTwoAgree => exact ⟨hwes, hblanks 3⟩
  | sent => exact ⟨hfman, hblanks 2⟩
  | faulty | terminating | finished => exact ⟨hpfcds, hblanks 1⟩

variable [Field V] [LinearOrder V] [FloorRing V]

def Message.tail : Message V → Line
  | .endOfData _ counter => intText counter ++ ")".toList
  | .biasApplied _ nominal transmitted =>
    fixedText nominal ++ " -> ".toList ++ fixedText transmitted
  | .agree speed => fixedText speed
  | .discordant _ samples => samplesText samples
  | .noTwoAgree samples => samplesText samples
  | _ => []

theorem Message.body_eq (msg : Message V) : msg.body = msg.kind.head ++ msg.tail := by
  cases msg with
  | endOfData i counter => exact List.append_assoc _ _ _
  | biasApplied i nominal transmitted =>
    rw [Message.tail, List.append_assoc]
    exact (List.append_assoc _ _ _).trans (List.append_assoc _ _ _)
  | agree | discordant | noTwoAgree => rfl
  | _ => exact (List.append_nil _).symm

theorem Message.plain_tail (msg : Message V) : ∀ c ∈ msg.tail, Plain c := by
  cases msg with
  | endOfData i counter => exact plain_append (plain_intText _) (forall_of_all (by decide))
  | biasApplied i nominal transmitted =>
    exact plain_append (plain_append (plain_fixedText _) (forall_of_all (by decide))) (plain_fixedText _)
  | agree speed => exact plain_fixedText _
  | discordant i samples => exact plain_samplesText _
  | noTwoAgree samples => exact plain_samplesText _
  | _ => simp [Message.tail]

end Heads

section Found

variable {V : Type*} [Field V] [LinearOrder V] [FloorRing V]

/-- A message of this kind is one a check for `text` by `name` is after. -/
def Kind.found (name text : String) (k : Kind) : Bool :=
  k.reactor = name.toList ∧ text.toList <+: k.head

theorem Kind.found_iff (name text : String) (k : Kind) :
    k.found name text = true ↔ k.reactor = name.toList ∧ text.toList <+: k.head := by
  unfold Kind.found
  exact decide_eq_true_iff

/-- The values a line prints do not decide the check: no message stops inside its text. -/
def Decides (text : String) : Prop :=
  ∀ k ∈ [Kind.endOfData pfc1, .biasApplied pfc1, .agree, .discordant pfc1, .discordant pfc2,
    .discordant pfc3, .noTwoAgree], k.head <+: text.toList → text.toList <+: k.head

instance (text : String) : Decidable (Decides text) := inferInstanceAs (Decidable (∀ k ∈ _, _))

theorem prefix_body_iff (text : String) (htext : Decides text) (msg : Message V) :
    text.toList <+: msg.body ↔ text.toList <+: msg.kind.head := by
  rw [msg.body_eq]
  constructor
  · intro h
    rcases List.prefix_or_prefix_of_prefix h (List.prefix_append _ _) with hhead | hhead
    · exact hhead
    · cases msg with
      | endOfData i counter => exact htext (.endOfData 0) (by simp) hhead
      | biasApplied i nominal transmitted => exact htext (.biasApplied 0) (by simp) hhead
      | agree speed => exact htext .agree (by simp) hhead
      | discordant i samples =>
        refine htext (.discordant i) ?_ hhead
        fin_cases i <;> simp
      | noTwoAgree samples => exact htext .noTwoAgree (by simp) hhead
      | _ => simpa [Message.tail] using h
  · exact fun h => h.trans (List.prefix_append _ _)

/-- A kind of line that reports no emergency and can be told from the others. -/
structure Kind.Quiet (k : Kind) : Prop where
  plain : ∀ c ∈ k.head, Plain c
  first : ∃ c head, k.head = c :: head ∧ isSpace c = false

theorem Message.body_quiet (msg : Message V) (h : msg.kind.Quiet) :
    (∀ c ∈ msg.body, Plain c) ∧ ∀ c ∈ msg.body.head?, isSpace c = false := by
  rw [msg.body_eq]
  refine ⟨plain_append h.plain msg.plain_tail, ?_⟩
  obtain ⟨d, head, hhead, hd⟩ := h.first
  intro c hc
  rw [hhead, List.cons_append, List.head?_cons, Option.mem_some_iff] at hc
  rw [← hc, hd]

theorem Printed.line_at (t : Nat) (msg : Message V) : (Printed.at t msg).line =
    stampedLine msg.reactor.1 msg.reactor.2 (intText t) msg.body := by
  delta stampedLine
  exact rfl

theorem wellStamped (t : Nat) (msg : Message V) (h : msg.kind.Quiet) :
    WellStamped msg.reactor.1 msg.reactor.2 (intText t) msg.body := by
  obtain ⟨hname, hblanks⟩ := msg.reactor_chars
  obtain ⟨hbody, hhead⟩ := msg.body_quiet h
  refine ⟨fun c hc => ⟨(hname c hc).1, (hname c hc).2.1⟩, fun c hc => (hblanks c hc).1, ?_,
    hhead, ?_⟩
  · intro hmem
    rw [intText, if_neg (by omega), List.nil_append] at hmem
    exact absurd (Nat.isDigit_of_mem_toDigits (by decide) (by decide) hmem) (by decide)
  · intro hmem
    have hplain : ∀ c ∈ msg.reactor.1 ++ (msg.reactor.2 ++ (intText t ++ msg.body)), Plain c :=
      plain_append (fun c hc => (hname c hc).2.2) (plain_append (fun c hc => (hblanks c hc).2)
        (plain_append (plain_intText _) hbody))
    exact (hplain _ hmem).2.2.1 rfl

theorem intText_inj (m n : Nat) (h : intText m = intText n) : m = n := by
  rw [intText, intText, if_neg (by omega), if_neg (by omega), List.nil_append, List.nil_append,
    Int.natAbs_natCast, Int.natAbs_natCast] at h
  rw [← Nat.ofDigitChars_ten_toDigits (n := m), h, Nat.ofDigitChars_ten_toDigits]

/-- A check finds a printed line exactly when its second and its kind are the ones asked for. -/
theorem search_line (name text : String) (time : List Item) (times : List Nat)
    (htime : TimeIs time (times.map (fun t : Nat => intText t)))
    (hname : ∀ c ∈ name.toList, isSpace c = false ∧ c ≠ ']')
    (htext : ∃ c t, text.toList = c :: t ∧ isSpace c = false) (hdecides : Decides text)
    (hreactor : name.toList ≠ []) (x : Printed V) (hx : x.kind.2.Quiet) :
    search (stamped name time text) x.line = true ↔
      x.kind.1 ∈ times ∧ x.kind.2.found name text = true := by
  cases x with
  | cannotOpen i =>
    have hbracket : '[' ∉ (Printed.cannotOpen i : Printed V).line :=
      fun hmem => (hx.plain '[' hmem).2.2.1 rfl
    have hempty : (Kind.cannotOpen i).found name text = false := by
      simp [Kind.found, Kind.reactor, Ne.symm hreactor]
    constructor
    · exact fun h => absurd (mem_of_search _ _ _ h) hbracket
    · rintro ⟨-, hfound⟩
      rw [Printed.kind, hempty] at hfound
      exact Bool.noConfusion hfound
  | «at» t msg =>
    rw [Printed.line_at, search_stamped name text time _ htime hname htext _ _ _ _
      (wellStamped t msg hx), msg.reactor_eq, prefix_body_iff text hdecides]
    have htimes : intText t ∈ times.map (fun t : Nat => intText t) ↔ t ∈ times := by
      rw [List.mem_map]
      constructor
      · rintro ⟨u, hu, heq⟩
        rwa [← intText_inj u t heq]
      · exact fun ht => ⟨t, ht, rfl⟩
    rw [htimes, Printed.kind, Kind.found_iff]
    tauto

end Found

section Trace

theorem mem_controlledTrace (opened visible : Bool) (m t : Nat) (k : Kind) :
    (t, k) ∈ controlledTrace opened visible m ↔
      (t ≤ 645 ∧ k ∈ tickKinds opened m t) ∨ (t < 645 ∧ k ∈ voteKinds visible m t) := by
  simp only [controlledTrace, kindsBefore, secondKinds, List.mem_append, List.mem_flatMap,
    List.mem_range, List.mem_map, Prod.mk.injEq]
  constructor
  · rintro (⟨n, hn, k', hk, rfl, rfl⟩ | ⟨k', hk, rfl, rfl⟩)
    · rcases hk with hk | hk
      · exact .inl ⟨by omega, hk⟩
      · exact .inr ⟨hn, hk⟩
    · exact .inl ⟨by omega, hk⟩
  · rintro (⟨ht, hk⟩ | ⟨ht, hk⟩)
    · rcases Nat.lt_or_eq_of_le ht with hlt | rfl
      · exact .inl ⟨t, hlt, k, .inl hk, rfl, rfl⟩
      · exact .inr ⟨k, hk, rfl, rfl⟩
    · exact .inl ⟨t, ht, k, .inr hk, rfl, rfl⟩

/-- The lines of a tick come from FMAN and the PFCs. -/
theorem mem_tickKinds (opened : Bool) (m n : Nat) (k : Kind) (h : k ∈ tickKinds opened m n) :
    k ∈ [Kind.sent "STOP sent to PFC2", .sent "CONT sent to PFC2", .sent "BIAS sent to PFC3"] ∨
      ∃ i, k ∈ [Kind.cannotOpen i, .stopped i, .resumed i, .biasScheduled i, .endOfData i,
        .biasApplied i] := by
  rw [tickKinds, List.mem_append, List.mem_flatMap] at h
  rcases h with h | ⟨i, -, h⟩
  · left
    unfold controlledFault at h
    split_ifs at h <;> simp_all
  · right
    refine ⟨i, ?_⟩
    unfold pfcKinds at h
    simp only [List.mem_append] at h
    rcases h with (h | ((h | h) | h)) | h <;> split_ifs at h <;> simp_all

theorem mem_voteKinds (visible : Bool) (m n : Nat) (k : Kind) (h : k ∈ voteKinds visible m n) :
    k = .agree ∨ ∃ i, k = .discordant i ∨ k = .faulty i := by
  unfold voteKinds at h
  split_ifs at h
  · cases h
  · exact .inr ⟨1, by simpa using h⟩
  · exact .inr ⟨2, by simpa using h⟩
  · exact .inl (by simpa using h)

/-- Every line of the controlled run can be told from an emergency report. -/
theorem quiet_of_mem (opened visible : Bool) (m : Nat) (x : Nat × Kind)
    (h : x ∈ controlledTrace opened visible m) : x.2.Quiet := by
  obtain ⟨t, k⟩ := x
  rw [mem_controlledTrace] at h
  change k.Quiet
  rcases h with ⟨-, h⟩ | ⟨-, h⟩
  · rcases mem_tickKinds opened m t k h with h | ⟨i, h⟩
    · fin_cases h <;> exact ⟨forall_of_all (by decide), _, _, rfl, by decide⟩
    · fin_cases i <;> fin_cases h <;> exact ⟨forall_of_all (by decide), _, _, rfl, by decide⟩
  · rcases mem_voteKinds visible m t k h with rfl | ⟨i, rfl | rfl⟩
    · exact ⟨forall_of_all (by decide), _, _, rfl, by decide⟩
    · fin_cases i <;> exact ⟨forall_of_all (by decide), _, _, rfl, by decide⟩
    · fin_cases i <;> exact ⟨forall_of_all (by decide), _, _, rfl, by decide⟩

end Trace

section Verdict

/-- A check of the script: whose line it asks for, the pattern for the seconds and the seconds
themselves, and the beginning of the message. -/
structure Asked where
  name : String
  time : List Item
  times : List Nat
  text : String

def Asked.pattern (a : Asked) : List Item := stamped a.name a.time a.text

structure Asked.Clear (a : Asked) : Prop where
  time : TimeIs a.time (a.times.map (fun t : Nat => intText t))
  name : ∀ c ∈ a.name.toList, isSpace c = false ∧ c ≠ ']'
  text : ∃ c t, a.text.toList = c :: t ∧ isSpace c = false
  decides : Decides a.text
  nonempty : a.name.toList ≠ []

def asked : List Asked :=
  [⟨"FMAN", literal "5".toList, [5], "TEST: STOP sent to PFC2"⟩,
    ⟨"PFC2", literal "5".toList, [5], "STOPPED"⟩,
    ⟨"WES", fiveToSeven, [5, 6, 7], "ERROR: PFC2 discordant"⟩,
    ⟨"PFCDS", fiveToSeven, [5, 6, 7], "ERROR: PFC2 faulty"⟩,
    ⟨"FMAN", literal "8".toList, [8], "TEST: CONT sent to PFC2"⟩,
    ⟨"PFC2", literal "8".toList, [8], "RESUMED"⟩,
    ⟨"WES", literal "8".toList, [8], "OK:"⟩,
    ⟨"FMAN", literal "640".toList, [640], "TEST: BIAS sent to PFC3"⟩,
    ⟨"PFC3", literal "640".toList, [640], "BIAS applied:"⟩,
    ⟨"WES", literal "640".toList, [640], "ERROR: PFC3 discordant"⟩,
    ⟨"PFCDS", literal "640".toList, [640], "ERROR: PFC3 faulty"⟩,
    ⟨"WES", literal "641".toList, [641], "OK:"⟩]

theorem checks_eq : checks = asked.map Asked.pattern := rfl

theorem clear_of_literal (name text : String) (digits : String) (t : Nat)
    (hdigits : intText t = digits.toList) (hblank : ' ' ∉ digits.toList)
    (hname : name.toList.all (fun c => decide (isSpace c = false ∧ c ≠ ']')) = true)
    (htext : ∃ c u, text.toList = c :: u ∧ isSpace c = false) (hdecides : Decides text)
    (hne : name.toList ≠ []) : (Asked.mk name (literal digits.toList) [t] text).Clear := by
  refine ⟨?_, forall_of_all hname, htext, hdecides, hne⟩
  rw [List.map_singleton, hdigits]
  exact timeIs_literal digits.toList hblank

theorem clear_of_fiveToSeven (name text : String)
    (hname : name.toList.all (fun c => decide (isSpace c = false ∧ c ≠ ']')) = true)
    (htext : ∃ c u, text.toList = c :: u ∧ isSpace c = false) (hdecides : Decides text)
    (hne : name.toList ≠ []) : (Asked.mk name fiveToSeven [5, 6, 7] text).Clear :=
  ⟨timeIs_fiveToSeven, forall_of_all hname, htext, hdecides, hne⟩

theorem asked_clear : ∀ a ∈ asked, a.Clear := by
  intro a ha
  fin_cases ha
  case «3» | «2» =>
    exact clear_of_fiveToSeven _ _ (by decide) ⟨_, _, rfl, by decide⟩ (by decide) (by decide)
  all_goals
    exact clear_of_literal _ _ _ _ (by decide) (by decide) (by decide) ⟨_, _, rfl, by decide⟩
      (by decide) (by decide)

/-- What the trace must contain for a check to pass. -/
def Asked.Answered (a : Asked) (trace : List (Nat × Kind)) : Prop :=
  ∃ x ∈ trace, x.1 ∈ a.times ∧ x.2.found a.name a.text = true

theorem answered_asked (opened : Bool) (m : Nat) (hm : 641 < m) :
    ∀ a ∈ asked, a.Answered (controlledTrace opened true m) := by
  have htick (t : Nat) (k : Kind) (ht : t ≤ 645) (hk : k ∈ tickKinds opened m t) :
      (t, k) ∈ controlledTrace opened true m := (mem_controlledTrace _ _ _ _ _).mpr (.inl ⟨ht, hk⟩)
  have hvote (t : Nat) (k : Kind) (ht : t < 645) (hk : k ∈ voteKinds true m t) :
      (t, k) ∈ controlledTrace opened true m := (mem_controlledTrace _ _ _ _ _).mpr (.inr ⟨ht, hk⟩)
  have hnot (t : Nat) (ht : t ≤ 641) : ¬m ≤ t := by omega
  intro a ha
  fin_cases ha
  · exact ⟨(5, .sent "STOP sent to PFC2"), htick _ _ (by omega) (by simp [tickKinds,
      controlledFault]), by simp, by decide⟩
  · exact ⟨(5, .stopped 1), htick _ _ (by omega) (by simp [tickKinds, pfcKinds]), by simp,
      by decide⟩
  · exact ⟨(5, .discordant 1), hvote _ _ (by omega) (by simp [voteKinds, hnot]), by simp,
      by decide⟩
  · exact ⟨(5, .faulty 1), hvote _ _ (by omega) (by simp [voteKinds, hnot]), by simp, by decide⟩
  · exact ⟨(8, .sent "CONT sent to PFC2"), htick _ _ (by omega) (by simp [tickKinds,
      controlledFault]), by simp, by decide⟩
  · exact ⟨(8, .resumed 1), htick _ _ (by omega) (by simp [tickKinds, pfcKinds]), by simp,
      by decide⟩
  · exact ⟨(8, .agree), hvote _ _ (by omega) (by simp [voteKinds, hnot]), by simp, by decide⟩
  · exact ⟨(640, .sent "BIAS sent to PFC3"), htick _ _ (by omega) (by simp [tickKinds,
      controlledFault]), by simp, by decide⟩
  · have hlt : 640 < m := by omega
    exact ⟨(640, .biasApplied 2), htick _ _ (by omega) (by simp [tickKinds, pfcKinds, hlt]),
      by simp, by decide⟩
  · exact ⟨(640, .discordant 2), hvote _ _ (by omega) (by simp [voteKinds, hnot]), by simp,
      by decide⟩
  · exact ⟨(640, .faulty 2), hvote _ _ (by omega) (by simp [voteKinds, hnot]), by simp,
      by decide⟩
  · exact ⟨(641, .agree), hvote _ _ (by omega) (by simp [voteKinds, hnot]), by simp, by decide⟩

theorem not_wes_of_tick (opened : Bool) (m n : Nat) (k : Kind) (h : k ∈ tickKinds opened m n) :
    k.reactor ≠ "WES".toList := by
  rcases mem_tickKinds opened m n k h with h | ⟨i, h⟩
  · fin_cases h <;> decide
  · fin_cases i <;> fin_cases h <;> decide

/-- A WES line at a second comes from the vote of that second. -/
theorem vote_of_answered (opened visible : Bool) (m t : Nat) (time : List Item) (text : String)
    (h : (Asked.mk "WES" time [t] text).Answered (controlledTrace opened visible m)) :
    ∃ k ∈ voteKinds visible m t, k.found "WES" text = true := by
  obtain ⟨⟨u, k⟩, hmem, hu, hfound⟩ := h
  obtain rfl : u = t := List.mem_singleton.mp hu
  rcases (mem_controlledTrace _ _ _ _ _).mp hmem with ⟨-, hk⟩ | ⟨-, hk⟩
  · exact absurd ((Kind.found_iff _ _ _).mp hfound).1 (not_wes_of_tick _ _ _ _ hk)
  · exact ⟨k, hk, hfound⟩

/-- The last two checks on WES need the bias to show and the sample after it. -/
theorem of_answered_asked (opened visible : Bool) (m : Nat)
    (h : ∀ a ∈ asked, a.Answered (controlledTrace opened visible m)) :
    641 < m ∧ visible = true := by
  obtain ⟨k, hk, hfound⟩ := vote_of_answered opened visible m 640 _ _
    (h ⟨"WES", literal "640".toList, [640], "ERROR: PFC3 discordant"⟩ (by simp [asked]))
  obtain ⟨k', hk', -⟩ := vote_of_answered opened visible m 641 _ _
    (h ⟨"WES", literal "641".toList, [641], "OK:"⟩ (by simp [asked]))
  constructor
  · by_contra hm
    rw [voteKinds, if_pos (by omega)] at hk'
    cases hk'
  · by_contra hhidden
    have hvote : voteKinds visible m 640 = if m ≤ 640 then [] else [.agree] := by
      simp [voteKinds, hhidden]
    rw [hvote] at hk
    split_ifs at hk
    · cases hk
    · obtain rfl := List.mem_singleton.mp hk
      exact absurd hfound (by decide)

theorem mem_of_search_emergency (s : List Char) (h : search emergency s = true) : 'Y' ∈ s := by
  obtain ⟨before, t, rfl, ht⟩ := (search_iff _ _).mp h
  rw [emergency, matchAt, Bool.and_eq_true, matchAt_literal] at ht
  obtain ⟨-, u, rfl, -⟩ := ht
  exact List.mem_append_right _ (List.mem_append_left _ (by decide))

/-- What the runtime adds to the log: ASCII lines without a bracket that report no emergency. -/
structure Banner (line : Line) : Prop where
  ascii : ∀ c ∈ line, 32 ≤ c.toNat ∧ c.toNat < 127
  bracket : '[' ∉ line
  quiet : search emergency line = false

variable {V : Type*} [Field V] [LinearOrder V] [FloorRing V]

theorem plain_line (x : Printed V) (hx : x.kind.2.Quiet) :
    ∀ c ∈ x.line, 32 ≤ c.toNat ∧ c.toNat < 127 ∧ c ≠ 'Y' := by
  cases x with
  | cannotOpen i =>
    intro c hc
    obtain ⟨hlo, hhi, -, hy⟩ := hx.plain c hc
    exact ⟨hlo, hhi, hy⟩
  | «at» t msg =>
    obtain ⟨hname, hblanks⟩ := msg.reactor_chars
    have hbody := (msg.body_quiet hx).1
    intro c hc
    rw [Printed.line_at, stampedLine] at hc
    have hcase : c ∈ ['[', ']', ' ', 'T', '=', 's', '|'] ∨ Plain c := by
      simp only [List.mem_cons, List.mem_append] at hc
      rcases hc with hc | hc | hc | hc | hc | hc | hc | hc | hc | hc | hc | hc | hc | hc
      all_goals first
        | exact .inr (hname c hc).2.2
        | exact .inr (hblanks c hc).2
        | exact .inr (plain_intText _ c hc)
        | exact .inr (hbody c hc)
        | exact .inl (by simp [hc])
    rcases hcase with hc | ⟨hlo, hhi, -, hy⟩
    · fin_cases hc <;> decide
    · exact ⟨hlo, hhi, hy⟩

end Verdict

section Log

variable {V : Type*} [Field V] [LinearOrder V] [FloorRing V]

/-- Whatever the scheduling and wherever the runtime's own lines stand, the script passes the log
of a controlled run exactly when the file holds the sample of second 641 and the bias of second
640 changes the speed. -/
theorem controlled_verdict (E : Env V) (h : Controlled E) (out : List (Printed V))
    (hout : PrintsAll E out) (banner log : List Line) (hbanner : ∀ line ∈ banner, Banner line)
    (hlog : log.Perm (out.map Printed.line ++ banner)) :
    exitStatus (some (logText log)) = 0 ↔ 641 < E.fixes.length ∧ E.BiasVisible := by
  have htrace := h.trace out hout
  have hquiet (x : Printed V) (hx : x ∈ out) : x.kind.2.Quiet :=
    quiet_of_mem _ _ _ _ (htrace.subset (List.mem_map_of_mem hx))
  have hmem (line : Line) : line ∈ log ↔ (∃ x ∈ out, x.line = line) ∨ line ∈ banner := by
    rw [hlog.mem_iff, List.mem_append, List.mem_map]
  have hsplit : splitlines (universalNewlines (logText log)) = log := by
    apply splitlines_logText
    intro line hline c hc
    rcases (hmem line).mp hline with ⟨x, hx, rfl⟩ | hb
    · obtain ⟨hlo, hhi, -⟩ := plain_line x (hquiet x hx) c hc
      exact ⟨hlo, hhi⟩
    · exact (hbanner line hb).ascii c hc
  have hemergency : ∀ line ∈ log, search emergency line = false := by
    intro line hline
    rcases (hmem line).mp hline with ⟨x, hx, rfl⟩ | hb
    · by_contra hfound
      have hy := mem_of_search_emergency _ (by simpa using hfound)
      exact (plain_line x (hquiet x hx) 'Y' hy).2.2 rfl
    · exact (hbanner line hb).quiet
  -- only printed lines can answer a check, and they answer by their kind
  have hanswer (a : Asked) (ha : a ∈ asked) :
      (∃ line ∈ log, search a.pattern line = true) ↔ a.Answered
        (controlledTrace (openG18 E.fopen).isSome (decide E.BiasVisible) E.fixes.length) := by
    have hclear := asked_clear a ha
    have hsearch (x : Printed V) (hx : x ∈ out) := search_line a.name a.text a.time a.times
      hclear.time hclear.name hclear.text hclear.decides hclear.nonempty x (hquiet x hx)
    constructor
    · rintro ⟨line, hline, hfound⟩
      rcases (hmem line).mp hline with ⟨x, hx, rfl⟩ | hb
      · exact ⟨x.kind, htrace.subset (List.mem_map_of_mem hx), (hsearch x hx).mp hfound⟩
      · exact absurd (mem_of_search _ _ _ hfound) (hbanner line hb).bracket
    · rintro ⟨y, hy, hfound⟩
      obtain ⟨x, hx, rfl⟩ := List.mem_map.mp (htrace.symm.subset hy)
      exact ⟨x.line, (hmem _).mpr (.inl ⟨x, hx, rfl⟩), (hsearch x hx).mpr hfound⟩
  rw [exitStatus_eq_zero, hsplit, checks_eq, and_iff_left hemergency, List.forall_mem_map]
  constructor
  · intro hall
    have hanswered := of_answered_asked _ _ _ (fun a ha => (hanswer a ha).mp (hall a ha))
    exact ⟨hanswered.1, of_decide_eq_true hanswered.2⟩
  · rintro ⟨hm, hvisible⟩ a ha
    have hall := answered_asked (openG18 E.fopen).isSome E.fixes.length hm a ha
    rw [← decide_eq_true hvisible] at hall
    exact (hanswer a ha).mpr hall

/-- A file of 642 equal sentences. -/
def longFile : List Char :=
  (List.replicate 642 "$GPGLL,4547.1234,N,00856.5,E,123456,A*33\r\n".toList).flatten

theorem longFile_fixes : (acceptedFixes longFile).length = 642 := by
  have hmany (n : Nat) : (acceptedFixes (List.replicate n
      "$GPGLL,4547.1234,N,00856.5,E,123456,A*33\r\n".toList).flatten).length = n := by
    induction n with
    | zero => rfl
    | succ n ih =>
      have hend : LineEnd "$GPGLL,4547.1234,N,00856.5,E,123456,A*33\r\n".toList := by
        intro c hc
        exact (Option.some.inj hc).symm
      have hone : (acceptedFixes "$GPGLL,4547.1234,N,00856.5,E,123456,A*33\r\n".toList).length =
        1 := by decide
      rw [List.replicate_succ, List.flatten_cons, acceptedFixes_append _ _ hend,
        List.length_append, hone, ih]
      omega
  exact hmany 642

theorem nominalSpeed_unit (fixes : List GllFix) (n : Nat) :
    nominalSpeed (fun _ _ => (1 : Rat)) fixes n = n := by
  induction n with
  | zero => rfl
  | succ n ih => simp [nominalSpeed, ih]

theorem controlled_verdict_longFile :
    let E : Env Rat := ⟨fun _ => some longFile, fun _ _ => 1, controlledFaults, 645⟩
    ∃ out, PrintsAll E out ∧ exitStatus (some (logText (out.map Printed.line))) = 0 := by
  intro E
  obtain ⟨out, hout⟩ := exists_printsAll E
  have hfixes : E.fixes.length = 642 := by
    rw [Env.fixes, show openG18 E.fopen = some longFile from rfl, Option.elim_some, longFile_fixes]
  have hvisible : E.BiasVisible := by
    intro hsame
    have hzero := applyBias_eq_self _ hsame
    rw [show E.distance = fun _ _ => 1 from rfl, nominalSpeed_unit] at hzero
    norm_num at hzero
  refine ⟨out, hout, (controlled_verdict E ⟨rfl, rfl⟩ out hout [] _ (by simp)
    (by rw [List.append_nil])).mpr ⟨by omega, hvisible⟩⟩

end Log

end LFBenchmarks.FlyByWire
