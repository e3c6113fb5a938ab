import LFBenchmarks.Framework.LastWins
import LFBenchmarks.Framework.PyText

namespace LFBenchmarks.CompareBehavior

open PyText LastWins

abbrev Word := List Char

abbrev Statuses := AList (fun _ : Word => Word)

section Parsing

def readText (file : List Char) : List Char := universalNewlines file

/-- The words of every line. -/
def lineWords (file : List Char) : List (List Word) := (splitlines (readText file)).map split

/-- Scenario, original and expected status of a `C_BEHAVIOR` line. -/
def cLine (parts : List Word) : Option (Word × Word × Word) :=
  match parts with
  | [tag, scenario, original, _, expected, _] =>
    if tag = "C_BEHAVIOR".toList then some (scenario, original, expected) else none
  | _ => none

/-- Scenario and status of an `LF_BEHAVIOR` line. -/
def lfLine (parts : List Word) : Option (Word × Word) :=
  match parts with
  | [tag, scenario, status] =>
    if tag = "LF_BEHAVIOR".toList then some (scenario, status) else none
  | _ => none

def cLines (file : List Char) : List (Word × Word × Word) := (lineWords file).filterMap cLine

def lfLines (file : List Char) : List (Word × Word) := (lineWords file).filterMap lfLine

/-- `parse_c`: original and expected statuses by scenario. -/
def parseC (file : List Char) : Statuses × Statuses :=
  (lineWords file).foldl (fun (result, expected) parts =>
    match cLine parts with
    | some line => (result.insert line.1 line.2.1, expected.insert line.1 line.2.2)
    | none => (result, expected)) (∅, ∅)

def parseLf (file : List Char) : Statuses :=
  (lineWords file).foldl (fun result parts =>
    match lfLine parts with
    | some line => result.insert line.1 line.2
    | none => result) ∅

theorem foldl_filterMap_insert {α : Type*} (read : α → Option (Word × Word)) (xs : List α)
    (d : Statuses) :
    xs.foldl (fun d x => match read x with
      | some r => d.insert r.1 r.2
      | none => d) d = (xs.filterMap read).foldl (fun d r => d.insert r.1 r.2) d := by
  induction xs generalizing d with
  | nil => rfl
  | cons x xs ih =>
    rw [List.foldl_cons, List.filterMap_cons, ih]
    cases read x with
    | none => rfl
    | some r => rfl

theorem parseLf_eq (file : List Char) : parseLf file = ofRecords (lfLines file) :=
  foldl_filterMap_insert lfLine (lineWords file) ∅

/-- Expected statuses, line by line. -/
def expectations (file : List Char) : List (Word × Word) :=
  (cLines file).map (fun line => (line.1, line.2.2))

theorem parseC_expected (file : List Char) : (parseC file).2 = ofRecords (expectations file) := by
  have hfold (xs : List (List Word)) (d e : Statuses) :
      (xs.foldl (fun (result, expected) parts =>
        match cLine parts with
        | some line => (result.insert line.1 line.2.1, expected.insert line.1 line.2.2)
        | none => (result, expected)) (d, e)).2 =
      ((xs.filterMap cLine).map (fun line => (line.1, line.2.2))).foldl
        (fun d r => d.insert r.1 r.2) e := by
    induction xs generalizing d e with
    | nil => rfl
    | cons x xs ih =>
      rw [List.foldl_cons, List.filterMap_cons]
      cases cLine x with
      | none => exact ih d e
      | some line => exact ih _ _
  exact hfold (lineWords file) ∅ ∅

end Parsing

section Verdict

/-- `d.get (scenario, "MISSING")`. -/
def getOrMissing (d : Statuses) (scenario : Word) : Word :=
  (d.lookup scenario).getD "MISSING".toList

/-- Scenarios in which the port's status is not the expected one. -/
def failures (expected lfResult : Statuses) : Nat :=
  expected.keys.countP
    (fun scenario => getOrMissing lfResult scenario ≠ getOrMissing expected scenario)

/-- The exit status of the script. -/
def exitStatus (cOutput lfOutput : List Char) : Nat :=
  if failures (parseC cOutput).2 (parseLf lfOutput) = 0 then 0 else 1

theorem failures_eq_zero (cs ls : List (Word × Word)) :
    failures (ofRecords cs) (ofRecords ls) = 0 ↔ ∀ scenario expected,
      lastValue cs scenario = some expected →
        (lastValue ls scenario).getD "MISSING".toList = expected := by
  simp only [failures, getOrMissing, List.countP_eq_zero, lookup_ofRecords, ne_eq, decide_not,
    Bool.not_eq_true', decide_eq_false_iff_not, not_not]
  constructor
  · intro hall scenario expected hlast
    have hmem : scenario ∈ (ofRecords cs).keys := by
      rw [← AList.mem_keys, mem_ofRecords]
      exact ⟨expected, mem_of_lastValue cs scenario expected hlast⟩
    rw [hall scenario hmem, hlast]
    rfl
  · intro hall scenario hmem
    rw [← AList.mem_keys, mem_ofRecords, ← lastValue_isSome] at hmem
    obtain ⟨expected, hlast⟩ := Option.isSome_iff_exists.mp hmem
    rw [hall scenario expected hlast, hlast]
    rfl

/-- The script passes two outputs exactly when the last status of every expected scenario is the
last one expected. -/
theorem exitStatus_eq_zero (cOutput lfOutput : List Char) :
    exitStatus cOutput lfOutput = 0 ↔ ∀ scenario expected,
      lastValue (expectations cOutput) scenario = some expected →
        (lastValue (lfLines lfOutput) scenario).getD "MISSING".toList = expected := by
  rw [← failures_eq_zero, exitStatus, parseC_expected, parseLf_eq]
  split_ifs with hzero
  · exact ⟨fun _ => hzero, fun _ => rfl⟩
  · exact ⟨fun h => absurd h (by decide), fun h => absurd h hzero⟩

end Verdict

section Soundness

/-- The lines whose first word is `tag`, whether or not the parsers keep them. -/
def tagged (tag : Word) (file : List Char) : List (List Word) :=
  (lineWords file).filter (fun parts => parts.head? = some tag)

/-- The status a `C_BEHAVIOR` line expects is its fifth word. -/
def Expects (parts : List Word) (scenario expected : Word) : Prop :=
  parts[1]? = some scenario ∧ parts[4]? = some expected

def Reports (parts : List Word) (scenario status : Word) : Prop :=
  parts[1]? = some scenario ∧ parts[2]? = some status

theorem cLine_eq_some (parts : List Word) (line : Word × Word × Word) (h : cLine parts = some line) :
    ∃ keyword relation,
      parts = ["C_BEHAVIOR".toList, line.1, line.2.1, keyword, line.2.2, relation] := by
  unfold cLine at h
  split at h
  · next tag scenario original keyword expected relation =>
    by_cases htag : tag = "C_BEHAVIOR".toList
    · rw [if_pos htag, Option.some_inj] at h
      exact ⟨keyword, relation, by rw [htag, ← h]⟩
    · rw [if_neg htag] at h
      cases h
  · cases h

theorem lfLine_eq_some (parts : List Word) (line : Word × Word) (h : lfLine parts = some line) :
    parts = ["LF_BEHAVIOR".toList, line.1, line.2] := by
  unfold lfLine at h
  split at h
  · next tag scenario status =>
    by_cases htag : tag = "LF_BEHAVIOR".toList
    · rw [if_pos htag, Option.some_inj] at h
      rw [htag, ← h]
    · rw [if_neg htag] at h
      cases h
  · cases h

theorem expectations_tagged (file : List Char) (scenario expected : Word)
    (h : (scenario, expected) ∈ expectations file) :
    ∃ parts ∈ tagged "C_BEHAVIOR".toList file, Expects parts scenario expected := by
  obtain ⟨line, hline, heq⟩ := List.mem_map.mp h
  obtain ⟨parts, hparts, hread⟩ := List.mem_filterMap.mp hline
  obtain ⟨keyword, relation, rfl⟩ := cLine_eq_some parts line hread
  cases heq
  exact ⟨_, List.mem_filter.mpr ⟨hparts, decide_eq_true rfl⟩, rfl, rfl⟩

theorem lfLines_tagged (file : List Char) (scenario status : Word)
    (h : (scenario, status) ∈ lfLines file) :
    ∃ parts ∈ tagged "LF_BEHAVIOR".toList file, Reports parts scenario status := by
  obtain ⟨parts, hparts, hread⟩ := List.mem_filterMap.mp h
  obtain rfl := lfLine_eq_some parts _ hread
  exact ⟨_, List.mem_filter.mpr ⟨hparts, decide_eq_true rfl⟩, rfl, rfl⟩

variable (cOutput lfOutput : List Char)

/-- What a pass is read as: something was compared, every expected status was met by a line of
the port, and no line of the port contradicts one. -/
def Sound : Prop :=
  expectations cOutput ≠ [] ∧
    (∀ c ∈ tagged "C_BEHAVIOR".toList cOutput, ∃ scenario expected, Expects c scenario expected ∧
      ∃ lf ∈ tagged "LF_BEHAVIOR".toList lfOutput, Reports lf scenario expected) ∧
    ∀ lf ∈ tagged "LF_BEHAVIOR".toList lfOutput, ∀ c ∈ tagged "C_BEHAVIOR".toList cOutput,
      ∀ scenario status expected, Reports lf scenario status → Expects c scenario expected →
        status = expected

/-- Every line of the original says what it expects, no scenario of the original is repeated with
another status in either output, and what the script does not look at is met. -/
structure Unambiguous : Prop where
  compared : expectations cOutput ≠ []
  named : ∀ c ∈ tagged "C_BEHAVIOR".toList cOutput, ∃ scenario expected, Expects c scenario expected
  expected : ∀ c ∈ tagged "C_BEHAVIOR".toList cOutput, ∀ c' ∈ tagged "C_BEHAVIOR".toList cOutput,
    ∀ scenario e e', Expects c scenario e → Expects c' scenario e' → e = e'
  status : ∀ c ∈ tagged "C_BEHAVIOR".toList cOutput, ∀ scenario e, Expects c scenario e →
    ∀ lf ∈ tagged "LF_BEHAVIOR".toList lfOutput, ∀ lf' ∈ tagged "LF_BEHAVIOR".toList lfOutput,
      ∀ s s', Reports lf scenario s → Reports lf' scenario s' → s = s'
  unread : ∀ c ∈ tagged "C_BEHAVIOR".toList cOutput, ∀ scenario e, Expects c scenario e →
    scenario ∉ (expectations cOutput).map Prod.fst ∨ scenario ∉ (lfLines lfOutput).map Prod.fst →
      ∃ lf ∈ tagged "LF_BEHAVIOR".toList lfOutput, Reports lf scenario e

variable {cOutput lfOutput}

theorem unambiguous_of_sound (h : Sound cOutput lfOutput) : Unambiguous cOutput lfOutput := by
  obtain ⟨hne, hmet, hclean⟩ := h
  -- the scenario and the status of a line are the ones it is met with
  have hmet' : ∀ c ∈ tagged "C_BEHAVIOR".toList cOutput, ∀ scenario e, Expects c scenario e →
      ∃ lf ∈ tagged "LF_BEHAVIOR".toList lfOutput, Reports lf scenario e := by
    intro c hc scenario e hexpects
    obtain ⟨scenario', e', hexpects', lf, hlf, hreports⟩ := hmet c hc
    obtain rfl := Option.some_inj.mp (hexpects.1.symm.trans hexpects'.1)
    obtain rfl := Option.some_inj.mp (hexpects.2.symm.trans hexpects'.2)
    exact ⟨lf, hlf, hreports⟩
  constructor
  · exact hne
  · intro c hc
    obtain ⟨scenario, expected, hexpects, -⟩ := hmet c hc
    exact ⟨scenario, expected, hexpects⟩
  · intro c hc c' hc' scenario e e' hexpects hexpects'
    obtain ⟨lf, hlf, hreports⟩ := hmet' c hc scenario e hexpects
    exact hclean lf hlf c' hc' scenario e e' hreports hexpects'
  · intro c hc scenario e hexpects lf hlf lf' hlf' s s' hreports hreports'
    rw [hclean lf hlf c hc scenario s e hreports hexpects,
      hclean lf' hlf' c hc scenario s' e hreports' hexpects]
  · intro c hc scenario e hexpects _
    exact hmet' c hc scenario e hexpects

/-- A pass speaks for the scenarios of which both parsers keep a line. -/
theorem met_of_pass (h : Unambiguous cOutput lfOutput) (hpass : exitStatus cOutput lfOutput = 0)
    (c : List Word) (hc : c ∈ tagged "C_BEHAVIOR".toList cOutput) (scenario e : Word)
    (hexpects : Expects c scenario e) :
    ∃ lf ∈ tagged "LF_BEHAVIOR".toList lfOutput, Reports lf scenario e := by
  by_cases hread : scenario ∈ (expectations cOutput).map Prod.fst ∧
      scenario ∈ (lfLines lfOutput).map Prod.fst
  · obtain ⟨⟨kept, hkept, hkept'⟩, line, hline, hline'⟩ := And.imp List.mem_map.mp List.mem_map.mp hread
    obtain ⟨last, hlast⟩ := Option.isSome_iff_exists.mp
      ((lastValue_isSome (expectations cOutput) scenario).mpr ⟨kept.2, hkept' ▸ hkept⟩)
    obtain ⟨status, hstatus⟩ := Option.isSome_iff_exists.mp
      ((lastValue_isSome (lfLines lfOutput) scenario).mpr ⟨line.2, hline' ▸ hline⟩)
    obtain ⟨c', hc', hexpects'⟩ := expectations_tagged _ _ _ (mem_of_lastValue _ _ _ hlast)
    obtain ⟨lf, hlf, hreports⟩ := lfLines_tagged _ _ _ (mem_of_lastValue _ _ _ hstatus)
    have hsame := (exitStatus_eq_zero _ _).mp hpass scenario last hlast
    rw [hstatus, Option.getD_some, h.expected c' hc' c hc scenario last e hexpects' hexpects] at hsame
    exact ⟨lf, hlf, hsame ▸ hreports⟩
  · exact h.unread c hc scenario e hexpects (not_and_or.mp hread)

theorem sound_of_unambiguous (h : Unambiguous cOutput lfOutput)
    (hpass : exitStatus cOutput lfOutput = 0) : Sound cOutput lfOutput := by
  refine ⟨h.compared, fun c hc => ?_, fun lf hlf c hc scenario status e hreports hexpects => ?_⟩
  · obtain ⟨scenario, e, hexpects⟩ := h.named c hc
    exact ⟨scenario, e, hexpects, met_of_pass h hpass c hc scenario e hexpects⟩
  · obtain ⟨lf', hlf', hreports'⟩ := met_of_pass h hpass c hc scenario e hexpects
    exact h.status c hc scenario e hexpects lf hlf lf' hlf' status e hreports hreports'

/-- A pass can be trusted exactly when there was something to compare and no line that the
script drops or overwrites says otherwise. -/
theorem voting_verdict_iff (cOutput lfOutput : List Char) :
    (exitStatus cOutput lfOutput = 0 → Sound cOutput lfOutput) ↔
      (∃ scenario expected, lastValue (expectations cOutput) scenario = some expected ∧
        (lastValue (lfLines lfOutput) scenario).getD "MISSING".toList ≠ expected) ∨
      Unambiguous cOutput lfOutput := by
  constructor
  · intro h
    by_cases hpass : exitStatus cOutput lfOutput = 0
    · exact .inr (unambiguous_of_sound (h hpass))
    · left
      rw [exitStatus_eq_zero] at hpass
      push Not at hpass
      exact hpass
  · rintro (⟨scenario, expected, hlast, hother⟩ | hclear) hpass
    · exact absurd ((exitStatus_eq_zero _ _).mp hpass scenario expected hlast) hother
    · exact sound_of_unambiguous hclear hpass

/-- Nothing to compare passes, and so do a wrong decision that is printed before the right one
and a truncated line whose expectation is not met. -/
theorem nothing_compared_passes :
    let cOutput := "C_BEHAVIOR all_agree OK EXPECTED OK MATCH\n".toList
    let lfOutput := "LF_BEHAVIOR all_agree EMERGENCY\nLF_BEHAVIOR all_agree OK\n".toList
    let cutOutput := cOutput ++ "C_BEHAVIOR all_differ EMERGENCY EXPECTED EMERGENCY".toList
    let lfOutput' := "LF_BEHAVIOR all_agree OK\nLF_BEHAVIOR all_differ OK\n".toList
    (exitStatus [] lfOutput = 0 ∧ ¬Sound [] lfOutput) ∧
      (exitStatus cOutput lfOutput = 0 ∧ ¬Sound cOutput lfOutput) ∧
      exitStatus cutOutput lfOutput' = 0 ∧ ¬Sound cutOutput lfOutput' := by
  intro cOutput lfOutput cutOutput lfOutput'
  have hc : tagged "C_BEHAVIOR".toList cOutput =
      [["C_BEHAVIOR", "all_agree", "OK", "EXPECTED", "OK", "MATCH"].map String.toList] := by
    decide +kernel
  have hlf : tagged "LF_BEHAVIOR".toList lfOutput =
      [["LF_BEHAVIOR", "all_agree", "EMERGENCY"].map String.toList,
        ["LF_BEHAVIOR", "all_agree", "OK"].map String.toList] := by
    decide +kernel
  have hcut : ["C_BEHAVIOR", "all_differ", "EMERGENCY", "EXPECTED", "EMERGENCY"].map String.toList ∈
      tagged "C_BEHAVIOR".toList cutOutput := by
    decide +kernel
  have hlf' : ["LF_BEHAVIOR", "all_differ", "OK"].map String.toList ∈
      tagged "LF_BEHAVIOR".toList lfOutput' := by
    decide +kernel
  refine ⟨⟨rfl, fun hsound => hsound.1 rfl⟩, ⟨?_, fun hsound => ?_⟩, ?_, fun hsound => ?_⟩
  · decide +kernel
  · have hsame : "EMERGENCY".toList = "OK".toList :=
      hsound.2.2 _ (by rw [hlf]; exact List.mem_cons_self) _ (by rw [hc]; exact List.mem_cons_self)
        "all_agree".toList _ _ ⟨rfl, rfl⟩ ⟨rfl, rfl⟩
    exact absurd hsame (by decide)
  · decide +kernel
  · have hsame : "OK".toList = "EMERGENCY".toList :=
      hsound.2.2 _ hlf' _ hcut "all_differ".toList _ _ ⟨rfl, rfl⟩ ⟨rfl, rfl⟩
    exact absurd hsame (by decide)

end Soundness

end LFBenchmarks.CompareBehavior
