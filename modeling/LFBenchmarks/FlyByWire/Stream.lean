import LFBenchmarks.Framework.Scan
import LFBenchmarks.FlyByWire.Reactors

namespace LFBenchmarks.FlyByWire

open Stdio

/-- What the scanning loop hands to the parser, in order, if nothing is accepted on the way:
the pieces `fgets` reads with their line terminators cut off. -/
def linesRead : Nat → List Char → List (List Char)
  | 0, _ => []
  | fuel + 1, stream =>
    match fgets 256 stream with
    | none => []
    | some (line, rest) => terminateAt line (strcspn line ['\r', '\n']) :: linesRead fuel rest

/-- The accepted fixes of a stream, in reading order. -/
def acceptedFixes (stream : List Char) : List GllFix :=
  (linesRead (stream.length + 1) stream).filterMap acceptedFix

/-- What the loop makes of one buffer. -/
def bufferFix (line : List Char) : Option GllFix :=
  acceptedFix (terminateAt line (strcspn line ['\r', '\n']))

theorem linesRead_eq (fuel : Nat) (stream : List Char) :
    linesRead fuel stream =
      (reads 256 fuel stream).map (fun line => terminateAt line (strcspn line ['\r', '\n'])) := by
  induction fuel generalizing stream with
  | zero => rfl
  | succ fuel ih =>
    simp only [linesRead, reads]
    cases fgets 256 stream with
    | none => rfl
    | some r => simp [ih r.2]

theorem acceptedFixes_eq (stream : List Char) :
    acceptedFixes stream = (allReads 256 stream).filterMap bufferFix := by
  rw [acceptedFixes, linesRead_eq, List.filterMap_map]
  rfl

/-- The fix the loop carries from line to line has no say in what it finds. -/
theorem scanLoop_eq (fuel : Nat) (stream : List Char) (fix : GllFix) :
    scanLoop fuel stream fix = scanFor 256 bufferFix fuel stream := by
  induction fuel generalizing stream fix with
  | zero => rfl
  | succ fuel ih =>
    simp only [scanLoop, scanFor]
    cases fgets 256 stream with
    | none => rfl
    | some r =>
      obtain ⟨line, rest⟩ := r
      obtain ⟨hfound, hfix⟩ :=
        parseGpgll_accepted (terminateAt line (strcspn line ['\r', '\n'])) fix
      simp only [hfound, bufferFix]
      cases hacc : acceptedFix (terminateAt line (strcspn line ['\r', '\n'])) with
      | none => simpa using ih rest _
      | some f => simp [hfix f hacc]

theorem acceptedFixes_read (stream line rest : List Char)
    (h : fgets 256 stream = some (line, rest)) :
    acceptedFixes stream =
      (acceptedFix (terminateAt line (strcspn line ['\r', '\n']))).toList ++
        acceptedFixes rest := by
  rw [acceptedFixes_eq, acceptedFixes_eq, allReads_read (by decide) stream line rest h,
    List.filterMap_cons]
  unfold bufferFix
  cases acceptedFix (terminateAt line (strcspn line ['\r', '\n'])) <;> rfl

theorem acceptedFixes_nil : acceptedFixes [] = [] := rfl

/-- With more fuel than bytes left, the loop stops at the first accepted line, or at end of
file with nothing left. -/
theorem scanLoop_spec (fuel : Nat) (stream : List Char) (fix : GllFix)
    (h : stream.length < fuel) :
    (scanLoop fuel stream fix).1 = (acceptedFixes stream).head? ∧
      acceptedFixes (scanLoop fuel stream fix).2 = (acceptedFixes stream).tail ∧
      (acceptedFixes stream = [] → (scanLoop fuel stream fix).2 = []) := by
  simp only [scanLoop_eq, acceptedFixes_eq]
  exact scanFor_spec bufferFix (by decide) fuel stream h

theorem nextFix_fst (stream : List Char) :
    (nextFix stream).1 = (acceptedFixes stream).head? :=
  (scanLoop_spec _ stream _ (by omega)).1

theorem acceptedFixes_nextFix (stream : List Char) :
    acceptedFixes (nextFix stream).2 = (acceptedFixes stream).tail :=
  (scanLoop_spec _ stream _ (by omega)).2.1

end LFBenchmarks.FlyByWire
