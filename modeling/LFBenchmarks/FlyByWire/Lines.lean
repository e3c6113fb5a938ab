import LFBenchmarks.FlyByWire.History

namespace LFBenchmarks.FlyByWire

open Stdio

section Lines

/-- The lines of a file, each with its newline, which the last one may lack. -/
def splitLines : List Char → List (List Char)
  | [] => []
  | c :: s =>
    if c = '\n' then [c] :: splitLines s
    else
      match splitLines s with
      | [] => [[c]]
      | line :: rest => (c :: line) :: rest

/-- A line without its terminator: a newline, a carriage return before it, or both. -/
def stripTerminator (line : List Char) : List Char :=
  let body := if line.getLast? = some '\n' then line.dropLast else line
  if body.getLast? = some '\r' then body.dropLast else body

def lineFix (line : List Char) : Option GllFix := acceptedFix (stripTerminator line)

/-- The consecutive pieces of 255 bytes a line is cut into by the buffer. -/
def pieces (line : List Char) : List (List Char) :=
  (List.range ((line.length + 254) / 255)).map (fun k => (line.drop (255 * k)).take 255)

/-- What is parsed of a piece: everything before the first line terminator. -/
def beforeTerminator (piece : List Char) : List Char :=
  piece.takeWhile (fun c => c ≠ '\x00' ∧ c ∉ ['\r', '\n'])

/-- The pieces of the line, each parsed on its own, give the fix of the line and no other. -/
def ReadsWhole (line : List Char) : Prop :=
  (pieces line).filterMap (fun piece => acceptedFix (beforeTerminator piece)) =
    (lineFix line).toList

/-- A newline stands at the end, if anywhere. -/
def OneLine (line : List Char) : Prop := '\n' ∉ line.dropLast

/-- Nothing, or text that ends with a newline. -/
def LineEnd (text : List Char) : Prop := ∀ c ∈ text.getLast?, c = '\n'

theorem splitLines_flatten (s : List Char) : (splitLines s).flatten = s := by
  induction s with
  | nil => rfl
  | cons c s ih =>
    unfold splitLines
    split_ifs with hc
    · simp [ih]
    · split
      · next hnil => simpa [hnil] using ih
      · next line rest hcons => simpa [hcons] using ih

/-- What a newline has, and what one more character in front keeps, every line has. -/
theorem splitLines_induction {P : List Char → Prop} (hnewline : P ['\n'])
    (hlast : ∀ c, c ≠ '\n' → P [c]) (hcons : ∀ c l, c ≠ '\n' → l ≠ [] → P l → P (c :: l))
    (s line : List Char) (h : line ∈ splitLines s) : P line := by
  suffices hall : ∀ l ∈ splitLines s, l ≠ [] ∧ P l from (hall line h).2
  clear h line
  induction s with
  | nil => simp [splitLines]
  | cons c s ih =>
    unfold splitLines
    split_ifs with hc
    · intro l hl
      rcases List.mem_cons.mp hl with rfl | hl
      · exact ⟨by simp, hc ▸ hnewline⟩
      · exact ih l hl
    · split
      · intro l hl
        obtain rfl := List.mem_singleton.mp hl
        exact ⟨by simp, hlast c hc⟩
      · next first rest hsplit =>
        intro l hl
        rcases List.mem_cons.mp hl with rfl | hl
        · obtain ⟨hne, hfirst⟩ := ih first (by simp [hsplit])
          exact ⟨by simp, hcons c first hc hne hfirst⟩
        · exact ih l (by simp [hsplit, hl])

theorem splitLines_ne_nil (s line : List Char) (h : line ∈ splitLines s) : line ≠ [] :=
  splitLines_induction (P := fun l => l ≠ []) (by simp) (by simp) (by simp) s line h

theorem oneLine_of_mem (s line : List Char) (h : line ∈ splitLines s) : OneLine line := by
  refine splitLines_induction (P := OneLine) (by simp [OneLine]) (by simp [OneLine])
    (fun c l hc hne hl => ?_) s line h
  unfold OneLine
  rw [List.dropLast_cons_of_ne_nil hne]
  simpa [Ne.symm hc, OneLine] using hl

/-- Only the last line may lack its newline. -/
theorem lineEnd_of_mem_dropLast (s line : List Char) (h : line ∈ (splitLines s).dropLast) :
    LineEnd line := by
  induction s generalizing line with
  | nil => simp [splitLines] at h
  | cons c s ih =>
    unfold splitLines at h
    split_ifs at h with hc
    · cases hrest : splitLines s with
      | nil => simp [hrest] at h
      | cons l rest =>
        rw [hrest, List.dropLast_cons_of_ne_nil (by simp)] at h
        rcases List.mem_cons.mp h with rfl | h
        · simp [LineEnd, hc]
        · exact ih line (hrest ▸ h)
    · split at h
      · simp at h
      · next l rest hcons =>
        cases rest with
        | nil => simp at h
        | cons m rest =>
          rw [List.dropLast_cons_of_ne_nil (by simp)] at h
          have hl : l ∈ (splitLines s).dropLast := by simp [hcons]
          rcases List.mem_cons.mp h with rfl | h
          · have hne := splitLines_ne_nil s l (List.dropLast_subset _ hl)
            obtain ⟨d, l', rfl⟩ := List.exists_cons_of_ne_nil hne
            simpa [LineEnd] using ih (d :: l') hl
          · exact ih line (by simp [hcons, h])

theorem LineEnd.of_append {text rest : List Char} (h : LineEnd (text ++ rest)) : LineEnd rest := by
  intro c hc
  refine h c ?_
  rw [Option.mem_def] at hc ⊢
  rw [List.getLast?_append, hc]
  rfl

end Lines

section Pieces

theorem terminateAt_strcspn (buf reject : List Char) :
    terminateAt buf (strcspn buf reject) =
      buf.takeWhile (fun c => c ≠ '\x00' ∧ c ∉ reject) := by
  unfold terminateAt strcspn
  rw [← List.prefix_iff_eq_take.mp (List.takeWhile_prefix _), List.takeWhile_takeWhile]
  congr 1
  funext c
  simp only [ne_eq, decide_not, Bool.decide_and]
  cases decide (c = '\x00') <;> simp

theorem fgetsPiece_oneLine (n : Nat) (line : List Char) (h : OneLine line) :
    fgetsPiece n line = (line.take n, line.drop n) := by
  induction n generalizing line with
  | zero => rfl
  | succ n ih =>
    cases line with
    | nil => rfl
    | cons c s =>
      unfold OneLine at h
      simp only [fgetsPiece, List.take_succ_cons, List.drop_succ_cons]
      split_ifs with hc
      · have hs : s = [] := by
          by_contra hne
          rw [List.dropLast_cons_of_ne_nil hne, hc] at h
          exact h (by simp)
        simp [hs]
      · have hline : OneLine s := by
          intro hmem
          cases s with
          | nil => simp at hmem
          | cons d s => exact h (by simp [hmem])
        rw [ih s hline]

/-- Reading never goes past the end of a line. -/
theorem fgetsPiece_lineEnd (n : Nat) (text rest : List Char) (hend : LineEnd text)
    (hne : text ≠ []) :
    fgetsPiece n (text ++ rest) = ((fgetsPiece n text).1, (fgetsPiece n text).2 ++ rest) := by
  induction n generalizing text with
  | zero => rfl
  | succ n ih =>
    obtain ⟨c, s, rfl⟩ := List.exists_cons_of_ne_nil hne
    simp only [List.cons_append, fgetsPiece]
    split_ifs with hc
    · rfl
    · have hs : s ≠ [] := by
        rintro rfl
        exact hc (hend c (by simp))
      have hsend : LineEnd s := (show LineEnd ([c] ++ s) from hend).of_append
      rw [ih s hsend hs]

theorem acceptedFixes_append (text rest : List Char) (hend : LineEnd text) :
    acceptedFixes (text ++ rest) = acceptedFixes text ++ acceptedFixes rest := by
  induction hn : text.length using Nat.strong_induction_on generalizing text with
  | _ n ih =>
    cases text with
    | nil => simp [acceptedFixes_nil]
    | cons c s =>
      obtain ⟨piece, left, hpiece⟩ : ∃ piece left, fgetsPiece 255 (c :: s) = (piece, left) :=
        ⟨_, _, rfl⟩
      have hread : fgets 256 (c :: s) = some (piece, left) := congrArg some hpiece
      have hmore : fgets 256 (c :: s ++ rest) = some (piece, left ++ rest) := by
        have h := fgetsPiece_lineEnd 255 (c :: s) rest hend (by simp)
        rw [hpiece] at h
        exact congrArg some h
      have hlt := fgets_length_lt 256 (by decide) _ _ _ hread
      have hleft : LineEnd left := by
        have happ := fgetsPiece_append 255 (c :: s)
        rw [hpiece] at happ
        rw [← happ] at hend
        exact hend.of_append
      rw [acceptedFixes_read _ _ _ hread, acceptedFixes_read _ _ _ hmore,
        ih _ (hn ▸ hlt) _ hleft rfl, List.append_assoc]

theorem acceptedFixes_flatten (lines : List (List Char)) (h : ∀ l ∈ lines.dropLast, LineEnd l) :
    acceptedFixes lines.flatten = lines.flatMap acceptedFixes := by
  induction lines with
  | nil => rfl
  | cons line lines ih =>
    cases lines with
    | nil => simp
    | cons next lines =>
      rw [List.dropLast_cons_of_ne_nil (by simp)] at h
      rw [List.flatten_cons, acceptedFixes_append _ _ (h line (by simp)),
        ih (fun l hl => h l (by simp [hl]))]
      rfl

theorem pieces_of_ne_nil (line : List Char) (h : line ≠ []) :
    pieces line = line.take 255 :: pieces (line.drop 255) := by
  have hlen := List.length_pos_iff.mpr h
  have hcount : (line.length + 254) / 255 = ((line.drop 255).length + 254) / 255 + 1 := by
    rw [List.length_drop]
    omega
  unfold pieces
  rw [hcount, List.range_succ_eq_map, List.map_cons, List.map_map]
  congr 1
  refine List.map_congr_left (fun k _ => ?_)
  simp only [Function.comp_apply, List.drop_drop]
  congr 2
  omega

/-- The loop reads a line piece by piece. -/
theorem acceptedFixes_oneLine (line : List Char) (h : OneLine line) :
    acceptedFixes line =
      (pieces line).filterMap (fun piece => acceptedFix (beforeTerminator piece)) := by
  induction hn : line.length using Nat.strong_induction_on generalizing line with
  | _ n ih =>
    by_cases hne : line = []
    · rw [hne]
      rfl
    · have hread : fgets 256 line = some (line.take 255, line.drop 255) := by
        rw [← fgetsPiece_oneLine 255 line h]
        obtain ⟨c, s, rfl⟩ := List.exists_cons_of_ne_nil hne
        rfl
      have hlt := fgets_length_lt 256 (by decide) _ _ _ hread
      have hleft : OneLine (line.drop 255) := by
        intro hmem
        rw [List.dropLast_drop_eq_drop_dropLast] at hmem
        exact h (List.mem_of_mem_drop hmem)
      rw [acceptedFixes_read _ _ _ hread, ih _ (hn ▸ hlt) _ hleft rfl, pieces_of_ne_nil line hne,
        terminateAt_strcspn, List.filterMap_cons]
      unfold beforeTerminator
      split <;> simp_all

/-- A line that fits into the buffer is read at once, by any loop that parses what it reads. -/
theorem scanFor_oneLine {α : Type*} (parse : List Char → Option α) (hnil : parse [] = none)
    (line : List Char) (h : OneLine line) (hlen : line.length ≤ 255) :
    (scanFor 256 parse (line.length + 1) line).1 = parse line := by
  cases line with
  | nil => exact hnil.symm
  | cons c s =>
    have hpiece := fgetsPiece_oneLine 255 (c :: s) h
    rw [List.take_of_length_le hlen, List.drop_of_length_le hlen] at hpiece
    have hread : fgets 256 (c :: s) = some (c :: s, []) := congrArg some hpiece
    have hall : allReads 256 (c :: s) = [c :: s] := allReads_read (by decide) _ _ _ hread
    rw [(scanFor_spec parse (by decide) _ _ (Nat.lt_succ_self _)).1]
    simp only [hall]
    cases hparse : parse (c :: s) <;> simp [hparse]

theorem stripTerminator_append (line : List Char) :
    ∃ term ∈ [[], ['\r'], ['\n'], ['\r', '\n']], line = stripTerminator line ++ term := by
  have hlast (l : List Char) (c : Char) (h : l.getLast? = some c) : l = l.dropLast ++ [c] :=
    (List.dropLast_append_getLast? c h).symm
  unfold stripTerminator
  by_cases hn : line.getLast? = some '\n'
  · simp only [if_pos hn]
    by_cases hr : line.dropLast.getLast? = some '\r'
    · refine ⟨['\r', '\n'], by simp, ?_⟩
      rw [if_pos hr]
      conv_lhs => rw [hlast line '\n' hn, hlast line.dropLast '\r' hr]
      simp
    · refine ⟨['\n'], by simp, ?_⟩
      rw [if_neg hr]
      exact hlast line '\n' hn
  · simp only [if_neg hn]
    by_cases hr : line.getLast? = some '\r'
    · refine ⟨['\r'], by simp, ?_⟩
      rw [if_pos hr]
      exact hlast line '\r' hr
    · exact ⟨[], by simp, by simp [if_neg hr]⟩

theorem OneLine.not_mem_stripTerminator {line : List Char} (h : OneLine line) :
    '\n' ∉ stripTerminator line := by
  have hbody : '\n' ∉ (if line.getLast? = some '\n' then line.dropLast else line) := by
    split_ifs with hn
    · exact h
    · exact fun hmem => h (List.mem_dropLast_of_mem_of_ne_getLast? hmem (Ne.symm hn))
  unfold stripTerminator
  intro hmem
  dsimp only at hmem
  split_ifs at hmem hbody
  · exact hbody (List.dropLast_subset _ hmem)
  · exact hbody hmem
  · exact hbody (List.dropLast_subset _ hmem)
  · exact hbody hmem

theorem beforeTerminator_append (body term : List Char)
    (hbody : ∀ c ∈ body, c ≠ '\x00' ∧ c ∉ ['\r', '\n'])
    (hterm : term ∈ [[], ['\r'], ['\n'], ['\r', '\n']]) :
    beforeTerminator (body ++ term) = body := by
  have hnil : beforeTerminator term = [] := by
    fin_cases hterm <;> rfl
  unfold beforeTerminator at hnil ⊢
  rw [List.takeWhile_append_of_pos (by simpa using hbody), hnil, List.append_nil]

/-- A line that fits into the buffer and has no carriage return inside is read as a line. -/
theorem readsWhole_of_short (line : List Char) (h : OneLine line) (hlen : line.length ≤ 255)
    (hnul : '\x00' ∉ line) (hcr : '\r' ∉ stripTerminator line) : ReadsWhole line := by
  by_cases hne : line = []
  · rw [hne]
    rfl
  · obtain ⟨term, hterm, happ⟩ := stripTerminator_append line
    have hbody : ∀ c ∈ stripTerminator line, c ≠ '\x00' ∧ c ∉ ['\r', '\n'] := by
      intro c hc
      have hline : c ∈ line := by
        rw [happ]
        exact List.mem_append_left _ hc
      have hlf := h.not_mem_stripTerminator
      refine ⟨fun h0 => hnul (h0 ▸ hline), ?_⟩
      simp only [List.mem_cons, List.not_mem_nil, or_false, not_or]
      exact ⟨fun h0 => hcr (h0 ▸ hc), fun h0 => hlf (h0 ▸ hc)⟩
    have hcut : beforeTerminator line = stripTerminator line := by
      conv_lhs => rw [happ]
      exact beforeTerminator_append _ _ hbody hterm
    unfold ReadsWhole lineFix
    rw [pieces_of_ne_nil line hne, List.take_of_length_le hlen, List.drop_of_length_le hlen,
      List.filterMap_cons, hcut]
    cases acceptedFix (stripTerminator line) <;> rfl

end Pieces

section Consumption

variable {V : Type*} [Field V] [LinearOrder V] [FloorRing V]

/-- The fix tick `n` of a PFC takes from the file: the one it keeps when it counts a sample. -/
def Pfc.consumed (E : Env V) (faults : Nat → Option FaultMsg) (n : Nat) : Option GllFix :=
  let p := Pfc.run E faults n
  let q := Pfc.run E faults (n + 1)
  if q.counter = p.counter then none else some q.prevFix

theorem consumed_of_alive (E : Env V) (faults : Nat → Option FaultMsg) (n : Nat)
    (h : ¬Interrupted faults (n + 1)) : Pfc.consumed E faults n = E.fixes[n]? := by
  have halive := (recorded_run E faults (n + 1)).alive.mpr h
  have hnext := (recorded_run E faults (n + 1)).nav halive
  have hprev : (Pfc.run E faults n).nav = navAt E n := by
    rw [← afterFault_nav]
    refine (recorded_afterFault E faults n).nav ?_
    exact (recorded_afterFault E faults n).alive.mpr h
  have hcounter : (Pfc.run E faults n).counter = (navAt E n).counter := by
    rw [← hprev]
    rfl
  have hq : (Pfc.run E faults (n + 1)).counter = (navAt E (n + 1)).counter ∧
      (Pfc.run E faults (n + 1)).prevFix = (navAt E (n + 1)).prevFix := by
    rw [← hnext]
    exact ⟨rfl, rfl⟩
  unfold Pfc.consumed
  simp only [hcounter, hq.1, hq.2, navAt_succ]
  rcases Nat.lt_or_ge n E.fixes.length with hn | hn
  · obtain ⟨file, hopen⟩ := E.opened_of_lt n hn
    have hread := (onTrack_navAt E file hopen n hn.le).read_of_lt hn
    obtain ⟨rest, hrest⟩ : ∃ rest, (navAt E n).read =
        (some (E.fixes.getD n GllFix.zero), rest) := ⟨_, Prod.ext hread rfl⟩
    simp [Nav.step, hrest, List.getElem?_eq_getElem hn]
  · obtain ⟨-, -, -, hkeep⟩ := (navAt E n).step_keeps E.distance (read_of_ge E n hn)
    simp [hkeep, hn]

theorem consumed_of_dead (E : Env V) (faults : Nat → Option FaultMsg) (n : Nat)
    (h : Interrupted faults (n + 1)) : Pfc.consumed E faults n = none := by
  have hdead : (Pfc.afterFault E faults n).alive = false := by
    by_contra halive
    exact (recorded_afterFault E faults n).alive.mp (by simpa using halive) h
  have hnav : (Pfc.run E faults (n + 1)).nav = (Pfc.run E faults n).nav := by
    rw [Pfc.run_succ, Pfc.timer_dead _ _ hdead, afterFault_nav]
  unfold Pfc.consumed
  rw [if_pos]
  exact congrArg Nav.counter hnav

theorem scanLoop_fuel (fuel : Nat) (stream : List Char) (fix : GllFix)
    (h : stream.length < fuel) :
    scanLoop fuel stream fix = scanLoop (stream.length + 1) stream fix := by
  rw [scanLoop_eq, scanLoop_eq, scanFor_fuel bufferFix (by decide) fuel stream h]

/-- Once a tick of a living PFC finds nothing, the end is noted and nothing is found later. -/
theorem consumed_none (E : Env V) (file : List Char) (hopen : openG18 E.fopen = some file)
    (faults : Nat → Option FaultMsg) (n : Nat) (h : ¬Interrupted faults (n + 1))
    (hnone : Pfc.consumed E faults n = none) :
    (Pfc.run E faults (n + 1)).eofReached = true ∧ ∀ k ≥ n, Pfc.consumed E faults k = none := by
  have hlen : E.fixes.length ≤ n := by
    rw [consumed_of_alive E faults n h] at hnone
    simpa using hnone
  have hnav := (recorded_run E faults (n + 1)).nav ((recorded_run E faults (n + 1)).alive.mpr h)
  refine ⟨?_, fun k hk => ?_⟩
  · have heof := (eofReached_iff E file hopen n).mpr hlen
    rw [← hnav] at heof
    exact heof
  · by_cases hk' : Interrupted faults (k + 1)
    · exact consumed_of_dead E faults k hk'
    · rw [consumed_of_alive E faults k hk']
      simp
      omega

end Consumption

section LineWise

variable {V : Type*} [Field V] [LinearOrder V] [FloorRing V]

theorem acceptedFixes_line (line : List Char) (h : OneLine line) :
    acceptedFixes line = (lineFix line).toList ↔ ReadsWhole line := by
  rw [acceptedFixes_oneLine line h]
  rfl

theorem filterMap_eq_flatMap (lines : List (List Char)) :
    lines.filterMap lineFix = lines.flatMap (fun line => (lineFix line).toList) := by
  induction lines with
  | nil => rfl
  | cons line lines ih =>
    rw [List.filterMap_cons, List.flatMap_cons, ih]
    cases lineFix line <;> rfl

/-- The fixes of the first lines of a file are those of each line, one after the other. -/
theorem acceptedFixes_first (file : List Char) (first rest : List (List Char))
    (h : splitLines file = first ++ rest) :
    acceptedFixes first.flatten = first.flatMap acceptedFixes := by
  refine acceptedFixes_flatten first (fun line hline => lineEnd_of_mem_dropLast file line ?_)
  rw [h]
  cases rest with
  | nil => simpa using hline
  | cons next rest =>
    rw [List.dropLast_append_of_ne_nil (by simp)]
    exact List.mem_append_left _ (List.dropLast_subset _ hline)

theorem acceptedFixes_of_readsWhole (file : List Char) (first rest : List (List Char))
    (h : splitLines file = first ++ rest) (hwhole : ∀ line ∈ first, ReadsWhole line) :
    acceptedFixes first.flatten = first.filterMap lineFix := by
  rw [acceptedFixes_first file first rest h, filterMap_eq_flatMap]
  refine List.flatMap_congr (fun line hline => ?_)
  have hone := oneLine_of_mem file line (by simp [h, hline])
  exact (acceptedFixes_line line hone).mpr (hwhole line hline)

/-- Inserting a rejected line changes no transmission exactly when no piece of it is accepted. -/
theorem insert_harmless_iff (before line after : List Char) (hbefore : LineEnd before)
    (hline : LineEnd line) (hone : OneLine line) (hrejected : lineFix line = none) :
    (∀ E E' : Env V, E.distance = E'.distance →
        openG18 E.fopen = some (before ++ line ++ after) →
        openG18 E'.fopen = some (before ++ after) →
        ∀ faults n, Pfc.sent E faults n = Pfc.sent E' faults n) ↔ ReadsWhole line := by
  have hwith : acceptedFixes (before ++ line ++ after) =
      acceptedFixes before ++ (acceptedFixes line ++ acceptedFixes after) := by
    rw [List.append_assoc, acceptedFixes_append _ _ hbefore, acceptedFixes_append _ _ hline]
  have hwithout := acceptedFixes_append before after hbefore
  rw [← acceptedFixes_line line hone, hrejected]
  constructor
  · intro h
    let E : Env V := ⟨fun _ => some (before ++ line ++ after), fun _ _ => 0,
      scheduledFaults fun _ _ => none, 0⟩
    let E' : Env V := ⟨fun _ => some (before ++ after), fun _ _ => 0,
      scheduledFaults fun _ _ => none, 0⟩
    -- the first tick past the data of the shorter sequence tells the two apart
    have hsent := h E E' rfl rfl rfl (fun _ => none) E'.fixes.length
    obtain ⟨hsend, -⟩ := transmits_of_none (fun _ => none) E'.fixes.length (fun _ _ => rfl)
    have hquiet : Pfc.sent E' (fun _ => none) E'.fixes.length = none := by
      rw [sent_eq, if_neg (by simp)]
    have hle : E.fixes.length ≤ E'.fixes.length := by
      by_contra hlt
      rw [hquiet, sent_eq, if_pos ⟨not_le.mp hlt, hsend⟩] at hsent
      cases hsent
    have hlen : E.fixes.length =
        (acceptedFixes before).length + ((acceptedFixes line).length +
          (acceptedFixes after).length) := by
      rw [← List.length_append, ← List.length_append, ← hwith]
      rfl
    have hlen' : E'.fixes.length = (acceptedFixes before).length + (acceptedFixes after).length := by
      rw [← List.length_append, ← hwithout]
      rfl
    exact List.eq_nil_of_length_eq_zero (by omega)
  · intro hnone E E' hdistance hopen hopen' faults n
    have hfixes : E.fixes = E'.fixes := by
      simp only [Env.fixes, hopen, hopen', Option.elim_some]
      rw [hwith, hwithout, hnone]
      rfl
    rw [sent_eq, sent_eq, hfixes, hdistance]

/-- Scanning is line-wise parsing, at every line end of a file, exactly when the file has no
line that its pieces of 255 bytes misrepresent. It always ends, and the end is final. -/
theorem scan_line_wise_iff (file : List Char) :
    ((∀ (E : Env V) (first rest : List (List Char)) (faults : Nat → Option FaultMsg) (n : Nat),
        splitLines file = first ++ rest → openG18 E.fopen = some first.flatten →
        ¬Interrupted faults (n + 1) →
        Pfc.consumed E faults n = (first.filterMap lineFix)[n]?) ↔
      ∀ line ∈ splitLines file, ReadsWhole line) ∧
    (∀ line ∈ splitLines file, line.length ≤ 255 → '\x00' ∉ line →
      '\r' ∉ stripTerminator line → ReadsWhole line) ∧
    (∀ fuel stream fix, stream.length < fuel →
      scanLoop fuel stream fix = scanLoop (stream.length + 1) stream fix) ∧
    (∀ (E : Env V) (faults : Nat → Option FaultMsg) (n : Nat), openG18 E.fopen = some file →
      ¬Interrupted faults (n + 1) → Pfc.consumed E faults n = none →
      (Pfc.run E faults (n + 1)).eofReached = true ∧ ∀ k ≥ n, Pfc.consumed E faults k = none) ∧
    (∀ before line after, LineEnd before → LineEnd line → OneLine line → lineFix line = none →
      ((∀ E E' : Env V, E.distance = E'.distance →
        openG18 E.fopen = some (before ++ line ++ after) →
        openG18 E'.fopen = some (before ++ after) →
        ∀ faults n, Pfc.sent E faults n = Pfc.sent E' faults n) ↔ ReadsWhole line)) := by
  refine ⟨?_, fun line hline hlen hnul hcr =>
      readsWhole_of_short line (oneLine_of_mem file line hline) hlen hnul hcr,
    scanLoop_fuel, fun E faults n hopen => consumed_none E file hopen faults n,
    insert_harmless_iff⟩
  constructor
  · intro h line hline
    obtain ⟨first, rest, hsplit⟩ := List.append_of_mem hline
    rw [← acceptedFixes_line line (oneLine_of_mem file line hline)]
    -- a PFC that reads the lines up to `line` takes exactly the line-wise fixes of these
    have hfixes (first rest : List (List Char)) (hsplit : splitLines file = first ++ rest) :
        first.flatMap acceptedFixes = first.flatMap (fun line => (lineFix line).toList) := by
      rw [← acceptedFixes_first file first rest hsplit, ← filterMap_eq_flatMap]
      let E : Env V := ⟨fun _ => some first.flatten, fun _ _ => 0,
        scheduledFaults fun _ _ => none, 0⟩
      have hlive (n : Nat) : ¬Interrupted (fun _ => none) (n + 1) := by simp [Interrupted]
      refine List.ext_getElem? (fun n => ?_)
      rw [← h E first rest (fun _ => none) n hsplit rfl (hlive n), consumed_of_alive _ _ _ (hlive n)]
      rfl
    have hshort := hfixes first (line :: rest) hsplit
    have hlong := hfixes (first ++ [line]) rest (by simpa using hsplit)
    rw [List.flatMap_append, List.flatMap_append, hshort] at hlong
    simpa using List.append_cancel_left hlong
  · intro hwhole E first rest faults n hsplit hopen hlive
    have hfirst : ∀ line ∈ first, ReadsWhole line := fun line hline =>
      hwhole line (by simp [hsplit, hline])
    rw [consumed_of_alive E faults n hlive]
    simp only [Env.fixes, hopen, Option.elim_some]
    rw [acceptedFixes_of_readsWhole file first rest hsplit hfirst]

/-- A line of 255 bytes of noise directly followed by a sentence. -/
def overlongLine : List Char := List.replicate 255 'x' ++ oneSentence

/-- The sentence at the end of an overlong line, which is rejected as a whole, is flown. -/
theorem overlong_line_flown :
    ¬∀ (E : Env ℚ) (file : List Char), openG18 E.fopen = some file → '\x00' ∉ file →
      ∀ n, Pfc.consumed E (fun _ => none) n = ((splitLines file).filterMap lineFix)[n]? := by
  intro h
  let E : Env ℚ := ⟨fun _ => some overlongLine, fun _ _ => 0, scheduledFaults fun _ _ => none, 0⟩
  have hfirst := h E overlongLine rfl (by decide +kernel) 0
  rw [consumed_of_alive _ _ _ (by simp [Interrupted])] at hfirst
  have hlines : (splitLines overlongLine).filterMap lineFix = [] := by decide +kernel
  have hlen : (acceptedFixes overlongLine).length = 1 := by decide +kernel
  have hfixes : E.fixes = acceptedFixes overlongLine := by simp [E, Env.fixes, openG18]
  rw [← hfixes] at hlen
  rw [hlines, List.getElem?_eq_getElem (by omega)] at hfirst
  cases hfirst

end LineWise

end LFBenchmarks.FlyByWire
