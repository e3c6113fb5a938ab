import LFBenchmarks.Framework.LastWins
import LFBenchmarks.Framework.PyText
import LFBenchmarks.Framework.Runs
import LFBenchmarks.FlyByWire.Lines

namespace LFBenchmarks.CompareFbw

open PyText Runs LastWins

section Records

def spaces (least : Nat) : Run := ⟨isSpace, least, none⟩

/-- A character of `[-+0-9.eE]`. -/
def isNumeric (c : Char) : Bool := c.isDigit || c ∈ ['-', '+', '.', 'e', 'E']

/-- `(-?\d+)\s+([-+0-9.eE]+)\s*$` -/
def recordPattern : List Run :=
  [⟨fun c => c = '-', 0, some 1⟩, ⟨isDecimal, 1, none⟩, spaces 1, ⟨isNumeric, 1, none⟩, spaces 0]

def cPattern : List Run := spaces 0 :: recordPattern

def lfPattern : List Run := spaces 0 :: "LF_DATA".toList.map .literal ++ spaces 1 :: recordPattern

theorem not_numeric_of_space (c : Char) (h : isSpace c = true) : isNumeric c = false :=
  space_cases (P := fun c => isNumeric c = false) (by decide +kernel) c h

theorem recordPattern_separated : Separated recordPattern := by
  have hspace (c : Char) (hc : isDecimal c = true) : ¬isSpace c = true := fun hs => by
    rw [not_decimal_of_space c hs] at hc
    cases hc
  have hnumeric (c : Char) (hc : isNumeric c = true) : ¬isSpace c = true := fun hs => by
    rw [not_numeric_of_space c hs] at hc
    cases hc
  have hminus : isDecimal '-' = false := by decide
  simp only [recordPattern, Separated, Starts, spaces, decide_eq_true_eq]
  refine ⟨?_, ?_, ?_, ?_, ?_, trivial⟩
  · rintro c rfl
    simp [hminus]
  · intro c hc
    simp [hspace c hc]
  · intro c hc
    simp [not_numeric_of_space c hc]
  · intro c hc
    simp [hnumeric c hc]
  · simp

theorem spaces_recordPattern_separated (least : Nat) :
    Separated (spaces least :: recordPattern) := by
  refine ⟨fun c hc hstart => ?_, recordPattern_separated⟩
  have hminus : ¬isSpace '-' = true := by decide
  simp only [recordPattern, Starts, decide_eq_true_eq, true_and, one_ne_zero, false_and,
    or_false] at hstart
  rcases hstart with rfl | hdecimal
  · exact hminus hc
  · rw [not_decimal_of_space c hc] at hdecimal
    cases hdecimal

/-- The pattern taken run by run, without backtracking, finds all lines of its form. -/
theorem match_cPattern (line : List Char) (pieces : List (List Char)) :
    matchRuns cPattern line = some pieces ↔ Matches cPattern pieces line :=
  matchRuns_iff cPattern (spaces_recordPattern_separated 0) pieces line

theorem lfPattern_separated : Separated lfPattern := by
  have hletters : "LF_DATA".toList = 'L' :: ['F', '_', 'D', 'A', 'T', 'A'] := by decide
  have hlast : ∀ c ∈ "LF_DATA".toList.getLast?, ¬Starts (spaces 1 :: recordPattern) c := by
    intro c hc
    obtain rfl : 'A' = c := by simpa [hletters] using hc
    simp [Starts, spaces, show isSpace 'A' = false by decide]
  refine ⟨fun c hc hstart => ?_, ?_⟩
  · rw [hletters] at hstart
    obtain rfl := (starts_literal 'L' _ c).mp hstart
    exact Bool.noConfusion (hc.symm.trans (by decide : isSpace 'L' = false))
  · apply separated_literals _ _ (spaces_recordPattern_separated 1) _ hlast
    decide

theorem match_lfPattern (line : List Char) (pieces : List (List Char)) :
    matchRuns lfPattern line = some pieces ↔ Matches lfPattern pieces line :=
  matchRuns_iff lfPattern lfPattern_separated pieces line

/-- The two groups of a match. -/
def groups (pieces : List (List Char)) : List Char × List Char :=
  match pieces.drop (pieces.length - 5) with
  | [minus, digits, _, number, _] => (minus ++ digits, number)
  | _ => ([], [])

/-- Counter and speed of a match as texts, one for each line that matches. -/
def recordLines (pattern : List Run) (file : List Char) : List (List Char × List Char) :=
  (FlyByWire.splitLines (universalNewlines file)).filterMap
    (fun line => (matchRuns pattern line).map groups)

/-- Conversion of a record; a `ValueError` of `int` or `float` is not caught. -/
def convert (texts : List Char × List Char) : Option (Int × ℚ) := do
  let counter ← int texts.1
  let speed ← float texts.2
  return (counter, speed)

abbrev Values := AList (fun _ : Int => ℚ)

/-- One line of the loop of `read_values`. -/
def readLine (pattern : List Run) (values : Values) (line : List Char) : Option Values :=
  match (matchRuns pattern line).map groups with
  | none => some values
  | some texts => (convert texts).map (fun record => values.insert record.1 record.2)

def readValues (file : List Char) (pattern : List Run) : Option Values :=
  (FlyByWire.splitLines (universalNewlines file)).foldlM (readLine pattern) ∅

/-- All records of a file, if each of them converts. -/
def records (pattern : List Run) (file : List Char) : Option (List (Int × ℚ)) :=
  (recordLines pattern file).mapM convert

theorem foldlM_readLine (pattern : List Run) (lines : List (List Char)) (values : Values) :
    lines.foldlM (readLine pattern) values =
      ((lines.filterMap (fun line => (matchRuns pattern line).map groups)).mapM convert).map
        (fun rs => rs.foldl (fun d r => d.insert r.1 r.2) values) := by
  induction lines generalizing values with
  | nil => rfl
  | cons line lines ih =>
    rw [List.foldlM_cons, List.filterMap_cons, readLine]
    cases hmatch : (matchRuns pattern line).map groups with
    | none => exact ih values
    | some texts =>
      cases hrecord : convert texts with
      | none => simp [hrecord]
      | some r =>
        rw [List.mapM_cons]
        simp only [hrecord, Option.map_some, Option.bind_eq_bind, Option.bind_some, ih]
        cases (lines.filterMap (fun line => (matchRuns pattern line).map groups)).mapM convert with
        | none => rfl
        | some rs => rfl

/-- `read_values` collects the records of the file in a dictionary. -/
theorem readValues_eq (file : List Char) (pattern : List Run) :
    readValues file pattern = (records pattern file).map ofRecords := by
  rw [readValues, foldlM_readLine]
  rfl

theorem mem_of_mapM {α β : Type*} (f : α → Option β) (xs : List α) (ys : List β)
    (h : xs.mapM f = some ys) :
    (∀ x ∈ xs, ∃ y ∈ ys, f x = some y) ∧ ∀ y ∈ ys, ∃ x ∈ xs, f x = some y := by
  induction xs generalizing ys with
  | nil =>
    obtain rfl : ys = [] := by simpa using h.symm
    simp
  | cons x xs ih =>
    rw [List.mapM_cons] at h
    obtain ⟨y, hy, h⟩ := Option.bind_eq_some_iff.mp h
    obtain ⟨rest, hrest, h⟩ := Option.bind_eq_some_iff.mp h
    obtain rfl := Option.some.inj h
    obtain ⟨hleft, hright⟩ := ih rest hrest
    refine ⟨fun a ha => ?_, fun b hb => ?_⟩
    · rcases List.mem_cons.mp ha with rfl | ha
      · exact ⟨y, List.mem_cons_self, hy⟩
      · obtain ⟨b, hb, hab⟩ := hleft a ha
        exact ⟨b, List.mem_cons_of_mem _ hb, hab⟩
    · rcases List.mem_cons.mp hb with rfl | hb
      · exact ⟨x, List.mem_cons_self, hy⟩
      · obtain ⟨a, ha, hab⟩ := hright b hb
        exact ⟨a, List.mem_cons_of_mem _ ha, hab⟩

end Records

section Verdict

structure Row where
  counter : Int
  cSpeed : ℚ
  lfSpeed : ℚ
  error : ℚ
  passed : Bool

structure Comparison where
  rows : List Row
  cOnly : List Int
  lfOnly : List Int

def sorted (counters : List Int) : List Int := counters.mergeSort (· ≤ ·)

/-- The row of a counter both logs have. -/
def row (tolerance : ℚ) (cValues lfValues : Values) (counter : Int) : Option Row := do
  let cSpeed ← cValues.lookup counter
  let lfSpeed ← lfValues.lookup counter
  let error := |cSpeed - lfSpeed|
  return ⟨counter, cSpeed, lfSpeed, error, error ≤ tolerance⟩

def compare (tolerance : ℚ) (cValues lfValues : Values) : Comparison where
  rows := (sorted (cValues.keys.filter (· ∈ lfValues.keys))).filterMap
    (row tolerance cValues lfValues)
  cOnly := sorted (cValues.keys.filter (· ∉ lfValues.keys))
  lfOnly := sorted (lfValues.keys.filter (· ∉ cValues.keys))

def Comparison.mismatches (r : Comparison) : List Row := r.rows.filter (fun row => !row.passed)

def Comparison.status (r : Comparison) : Nat :=
  if r.mismatches = [] ∧ r.cOnly = [] ∧ r.lfOnly = [] then 0 else 1

/-- The exit status of the script, with exact speeds and tolerance; an uncaught `ValueError` ends it
with 1. -/
def exitStatus (tolerance : ℚ) (cLog lfLog : List Char) : Nat :=
  match readValues cLog cPattern with
  | none => 1
  | some cValues =>
    match readValues lfLog lfPattern with
    | none => 1
    | some lfValues =>
      if cValues.keys = [] then 2
      else if lfValues.keys = [] then 2
      else (compare tolerance cValues lfValues).status

theorem mem_sorted (counters : List Int) (k : Int) : k ∈ sorted counters ↔ k ∈ counters :=
  List.mem_mergeSort

theorem sorted_eq_nil (counters : List Int) : sorted counters = [] ↔ counters = [] := by
  rw [List.eq_nil_iff_forall_not_mem, List.eq_nil_iff_forall_not_mem]
  simp only [mem_sorted]

/-- Two speeds within the tolerance. -/
def Within (tolerance x y : ℚ) : Prop := |x - y| ≤ tolerance

theorem row_eq_some (tolerance : ℚ) (cValues lfValues : Values) (k : Int) (r : Row) :
    row tolerance cValues lfValues k = some r ↔ ∃ x y, cValues.lookup k = some x ∧
      lfValues.lookup k = some y ∧ r = ⟨k, x, y, |x - y|, |x - y| ≤ tolerance⟩ := by
  unfold row
  cases cValues.lookup k with
  | none => simp
  | some x =>
    cases lfValues.lookup k with
    | none => simp
    | some y => simp [eq_comm]

theorem lookup_of_mem (values : Values) (k : Int) :
    k ∈ values.keys ↔ ∃ x, values.lookup k = some x := by
  rw [← AList.mem_keys, ← AList.lookup_isSome, Option.isSome_iff_exists]

theorem mismatches_eq_nil (tolerance : ℚ) (cValues lfValues : Values) :
    (compare tolerance cValues lfValues).mismatches = [] ↔
      ∀ k x y, cValues.lookup k = some x → lfValues.lookup k = some y → Within tolerance x y := by
  simp only [Comparison.mismatches, compare, List.filter_eq_nil_iff, List.mem_filterMap, mem_sorted,
    List.mem_filter, decide_eq_true_eq, row_eq_some, Bool.not_eq_true']
  constructor
  · intro hnone k x y hx hy
    have hkeys : k ∈ cValues.keys ∧ k ∈ lfValues.keys :=
      ⟨(lookup_of_mem _ _).mpr ⟨x, hx⟩, (lookup_of_mem _ _).mpr ⟨y, hy⟩⟩
    simpa [Within] using hnone _ ⟨k, hkeys, x, y, hx, hy, rfl⟩
  · rintro hall _ ⟨k, -, x, y, hx, hy, rfl⟩
    simpa [Within] using hall k x y hx hy

theorem status_eq_zero (tolerance : ℚ) (cValues lfValues : Values) :
    (compare tolerance cValues lfValues).status = 0 ↔
      ∀ k, Option.Rel (Within tolerance) (cValues.lookup k) (lfValues.lookup k) := by
  have hstatus : (compare tolerance cValues lfValues).status = 0 ↔
      (∀ k x y, cValues.lookup k = some x → lfValues.lookup k = some y → Within tolerance x y) ∧
      (∀ k ∈ cValues.keys, k ∈ lfValues.keys) ∧ ∀ k ∈ lfValues.keys, k ∈ cValues.keys := by
    rw [← mismatches_eq_nil]
    simp [Comparison.status, compare, sorted_eq_nil, List.filter_eq_nil_iff]
  rw [hstatus]
  simp only [lookup_of_mem, rel_iff]
  constructor
  · rintro ⟨hwithin, hleft, hright⟩ k
    refine ⟨fun x hx => ?_, fun y hy => ?_⟩
    · obtain ⟨y, hy⟩ := hleft k ⟨x, hx⟩
      exact ⟨y, hy, hwithin k x y hx hy⟩
    · obtain ⟨x, hx⟩ := hright k ⟨y, hy⟩
      exact ⟨x, hx, hwithin k x y hx hy⟩
  · intro hrel
    refine ⟨fun k x y hx hy => ?_, fun k hk => ?_, fun k hk => ?_⟩
    · obtain ⟨z, hz, hr⟩ := (hrel k).1 x hx
      rw [hy] at hz
      cases hz
      exact hr
    · obtain ⟨x, hx⟩ := hk
      obtain ⟨y, hy, -⟩ := (hrel k).1 x hx
      exact ⟨y, hy⟩
    · obtain ⟨y, hy⟩ := hk
      obtain ⟨x, hx, -⟩ := (hrel k).2 y hy
      exact ⟨x, hx⟩

/-- The script passes two logs exactly when each has a record, all records convert and the last
ones of every counter agree. -/
theorem exitStatus_eq_zero (tolerance : ℚ) (cLog lfLog : List Char) :
    exitStatus tolerance cLog lfLog = 0 ↔ ∃ cs ls, records cPattern cLog = some cs ∧
      records lfPattern lfLog = some ls ∧ cs ≠ [] ∧ ls ≠ [] ∧
        LastAgree (Within tolerance) cs ls := by
  unfold exitStatus
  rw [readValues_eq, readValues_eq]
  cases records cPattern cLog with
  | none => simp
  | some cs =>
    cases records lfPattern lfLog with
    | none => simp
    | some ls =>
      simp only [Option.map_some, ofRecords_eq_empty, Option.some.injEq, exists_and_left,
        exists_eq_left']
      by_cases hc : cs = []
      · simp [hc]
      · by_cases hl : ls = []
        · simp [hc, hl]
        · rw [if_neg hc, if_neg hl, status_eq_zero]
          simp only [hc, hl, LastAgree, lookup_ofRecords, ne_eq, not_false_eq_true, true_and]

end Verdict

section Soundness

/-- Two record lines with one counter and speeds within the tolerance. -/
def SameRecord (tolerance : ℚ) (texts texts' : List Char × List Char) : Prop :=
  ∃ counter speed speed', convert texts = some (counter, speed) ∧
    convert texts' = some (counter, speed') ∧ Within tolerance speed speed'

/-- What a pass is read as: there are records, and each of them has its partner. -/
def Sound (tolerance : ℚ) (cLog lfLog : List Char) : Prop :=
  (recordLines cPattern cLog ≠ [] ∧ recordLines lfPattern lfLog ≠ []) ∧
    (∀ c ∈ recordLines cPattern cLog, ∃ lf ∈ recordLines lfPattern lfLog,
      SameRecord tolerance c lf) ∧
    ∀ lf ∈ recordLines lfPattern lfLog, ∃ c ∈ recordLines cPattern cLog,
      SameRecord tolerance c lf

theorem records_ne_nil (pattern : List Run) (file : List Char) (rs : List (Int × ℚ))
    (h : records pattern file = some rs) : recordLines pattern file ≠ [] ↔ rs ≠ [] := by
  obtain ⟨hleft, hright⟩ := mem_of_mapM convert _ _ h
  constructor
  · intro hne
    obtain ⟨line, hline⟩ := List.exists_mem_of_ne_nil _ hne
    obtain ⟨r, hr, -⟩ := hleft line hline
    exact List.ne_nil_of_mem hr
  · intro hne
    obtain ⟨r, hr⟩ := List.exists_mem_of_ne_nil _ hne
    obtain ⟨line, hline, -⟩ := hright r hr
    exact List.ne_nil_of_mem hline

theorem partner_iff {α β : Type*} (f : α → Option β) (P : β → β → Prop) (xs ys : List α)
    (as bs : List β) (hx : xs.mapM f = some as) (hy : ys.mapM f = some bs) :
    (∀ x ∈ xs, ∃ y ∈ ys, ∃ a b, f x = some a ∧ f y = some b ∧ P a b) ↔
      ∀ a ∈ as, ∃ b ∈ bs, P a b := by
  obtain ⟨hxs, has⟩ := mem_of_mapM f xs as hx
  obtain ⟨hys, hbs⟩ := mem_of_mapM f ys bs hy
  constructor
  · intro hpartner a ha
    obtain ⟨x, hxmem, hfx⟩ := has a ha
    obtain ⟨y, hymem, a', b, hfx', hfy, hab⟩ := hpartner x hxmem
    obtain ⟨b', hb', hfy'⟩ := hys y hymem
    obtain rfl := Option.some.inj (hfx.symm.trans hfx')
    obtain rfl := Option.some.inj (hfy.symm.trans hfy')
    exact ⟨b, hb', hab⟩
  · intro hpartner x hxmem
    obtain ⟨a, ha, hfx⟩ := hxs x hxmem
    obtain ⟨b, hb, hab⟩ := hpartner a ha
    obtain ⟨y, hymem, hfy⟩ := hbs b hb
    exact ⟨y, hymem, a, b, hfx, hfy, hab⟩

theorem sameRecord_iff (tolerance : ℚ) (texts texts' : List Char × List Char) :
    SameRecord tolerance texts texts' ↔ ∃ a b, convert texts = some a ∧ convert texts' = some b ∧
      a.1 = b.1 ∧ Within tolerance a.2 b.2 := by
  constructor
  · rintro ⟨k, x, y, hx, hy, hxy⟩
    exact ⟨(k, x), (k, y), hx, hy, rfl, hxy⟩
  · rintro ⟨⟨k, x⟩, ⟨l, y⟩, hx, hy, rfl, hxy⟩
    exact ⟨k, x, y, hx, hy, hxy⟩

theorem sound_iff (tolerance : ℚ) (cLog lfLog : List Char) (cs ls : List (Int × ℚ))
    (hc : records cPattern cLog = some cs) (hl : records lfPattern lfLog = some ls) :
    Sound tolerance cLog lfLog ↔
      (cs ≠ [] ∧ ls ≠ []) ∧ AllAgree (Within tolerance) cs ls := by
  have hleft := partner_iff convert (fun a b => a.1 = b.1 ∧ Within tolerance a.2 b.2) _ _ cs ls
    hc hl
  have hright := partner_iff convert (fun b a => a.1 = b.1 ∧ Within tolerance a.2 b.2) _ _ ls cs
    hl hc
  have hswap (lf c : List Char × List Char) : SameRecord tolerance c lf ↔
      ∃ b a, convert lf = some b ∧ convert c = some a ∧ a.1 = b.1 ∧ Within tolerance a.2 b.2 := by
    rw [sameRecord_iff]
    constructor
    · rintro ⟨a, b, ha, hb, hab⟩
      exact ⟨b, a, hb, ha, hab⟩
    · rintro ⟨b, a, hb, ha, hab⟩
      exact ⟨a, b, ha, hb, hab⟩
  unfold Sound
  rw [records_ne_nil cPattern cLog cs hc, records_ne_nil lfPattern lfLog ls hl, allAgree_partner,
    ← hleft, ← hright]
  simp only [← hswap, ← sameRecord_iff]

/-- A pass can be trusted exactly when every record that a later line of its log overwrites has
its partner too. -/
theorem numerical_verdict_iff (tolerance : ℚ) (cLog lfLog : List Char) :
    (exitStatus tolerance cLog lfLog = 0 → Sound tolerance cLog lfLog) ↔
      ∀ cs ls, records cPattern cLog = some cs → records lfPattern lfLog = some ls →
        cs ≠ [] → ls ≠ [] → LastAgree (Within tolerance) cs ls →
          OverwrittenAgree (Within tolerance) cs ls := by
  constructor
  · intro h cs ls hc hl hcs hls hlast
    have hsound := h ((exitStatus_eq_zero _ _ _).mpr ⟨cs, ls, hc, hl, hcs, hls, hlast⟩)
    exact (allAgree_iff cs ls hlast).mp ((sound_iff _ _ _ cs ls hc hl).mp hsound).2
  · intro h hzero
    obtain ⟨cs, ls, hc, hl, hcs, hls, hlast⟩ := (exitStatus_eq_zero _ _ _).mp hzero
    have hover := h cs ls hc hl hcs hls hlast
    exact (sound_iff _ _ _ cs ls hc hl).mpr ⟨⟨hcs, hls⟩, (allAgree_iff cs ls hlast).mpr hover⟩

/-- A speed of 5 where the port has 7 passes: a later line has the counter too. -/
theorem overwritten_record_passes :
    let cLog := "1 5.0\n1 7.0\n".toList
    let lfLog := "LF_DATA 1 7.0\n".toList
    exitStatus 1e-4 cLog lfLog = 0 ∧ ¬Sound 1e-4 cLog lfLog := by
  intro cLog lfLog
  have hc : records cPattern cLog = some [(1, 5), (1, 7)] := by decide +kernel
  have hl : records lfPattern lfLog = some [(1, 7)] := by decide +kernel
  constructor
  · refine (exitStatus_eq_zero _ _ _).mpr ⟨_, _, hc, hl, by simp, by simp, fun k => ?_⟩
    by_cases hk : 1 = k
    · simp only [lastValue, hk, if_true, Option.none_or, Option.some_or]
      exact .some (by norm_num [Within])
    · simp only [lastValue, hk, if_false, Option.none_or]
      exact .none
  · intro hsound
    obtain ⟨-, hleft, -⟩ := (sound_iff _ _ _ _ _ hc hl).mp hsound
    obtain ⟨v, hv, hwithin⟩ := hleft (1, 5) (by simp)
    obtain rfl : v = 7 := by simpa using hv
    norm_num [Within] at hwithin

end Soundness

end LFBenchmarks.CompareFbw
