import LFBenchmarks.Framework.Stdio

namespace LFBenchmarks.Stdio

section Scan

variable {α : Type*} (size : Nat) (parse : List Char → Option α)

/-- What successive calls of `fgets` return, at most `fuel` of them. -/
def reads : Nat → List Char → List (List Char)
  | 0, _ => []
  | fuel + 1, stream =>
    match fgets size stream with
    | none => []
    | some (line, rest) => line :: reads fuel rest

def allReads (stream : List Char) : List (List Char) := reads size (stream.length + 1) stream

/-- `while (fgets (..)) if (parse (..)) break;` with what is left of the stream. -/
def scanFor : Nat → List Char → Option α × List Char
  | 0, stream => (none, stream)
  | fuel + 1, stream =>
    match fgets size stream with
    | none => (none, stream)
    | some (line, rest) =>
      match parse line with
      | some x => (some x, rest)
      | none => scanFor fuel rest

variable {size}

theorem reads_fuel (hsize : 2 ≤ size) (fuel : Nat) (stream : List Char)
    (h : stream.length < fuel) : reads size fuel stream = allReads size stream := by
  unfold allReads
  induction fuel using Nat.strong_induction_on generalizing stream with
  | _ fuel ih =>
    obtain ⟨k, rfl⟩ : ∃ k, fuel = k + 1 := ⟨fuel - 1, by omega⟩
    simp only [reads]
    split
    · rfl
    · next line rest hread =>
      have hlt := fgets_length_lt size hsize stream line rest hread
      rcases Nat.lt_or_ge stream.length k with hk | hk
      · rw [ih k (by omega) rest (by omega), ih stream.length (by omega) rest hlt]
      · rw [show stream.length = k by omega]

theorem allReads_read (hsize : 2 ≤ size) (stream line rest : List Char)
    (h : fgets size stream = some (line, rest)) :
    allReads size stream = line :: allReads size rest := by
  have hlt := fgets_length_lt size hsize stream line rest h
  rw [allReads, reads, h]
  simp only [reads_fuel hsize stream.length rest hlt]

/-- Every read is the piece at some place of the stream. -/
theorem reads_piece (fuel : Nat) (stream line : List Char) (h : line ∈ reads size fuel stream) :
    ∃ before rest, stream = before ++ rest ∧ line = (fgetsPiece (size - 1) rest).1 := by
  induction fuel generalizing stream with
  | zero => simp [reads] at h
  | succ fuel ih =>
    cases stream with
    | nil => simp [reads, fgets] at h
    | cons c s =>
      simp only [reads, fgets, List.mem_cons] at h
      rcases h with rfl | h
      · exact ⟨[], c :: s, rfl, rfl⟩
      · obtain ⟨before, rest, hsplit, hline⟩ := ih _ h
        refine ⟨(fgetsPiece (size - 1) (c :: s)).1 ++ before, rest, ?_, hline⟩
        rw [List.append_assoc, ← hsplit, fgetsPiece_append]

theorem reads_isInfix (fuel : Nat) (stream line : List Char) (h : line ∈ reads size fuel stream) :
    line <:+: stream := by
  obtain ⟨before, rest, rfl, rfl⟩ := reads_piece fuel stream line h
  refine ⟨before, (fgetsPiece (size - 1) rest).2, ?_⟩
  rw [List.append_assoc, fgetsPiece_append]

theorem scanFor_fuel (hsize : 2 ≤ size) (fuel : Nat) (stream : List Char)
    (h : stream.length < fuel) :
    scanFor size parse fuel stream = scanFor size parse (stream.length + 1) stream := by
  induction fuel using Nat.strong_induction_on generalizing stream with
  | _ fuel ih =>
    obtain ⟨k, rfl⟩ : ∃ k, fuel = k + 1 := ⟨fuel - 1, by omega⟩
    simp only [scanFor]
    split
    · rfl
    · next line rest hread =>
      have hlt := fgets_length_lt size hsize stream line rest hread
      split
      · rfl
      · rcases Nat.lt_or_ge stream.length k with hk | hk
        · rw [ih k (by omega) rest (by omega), ih stream.length (by omega) rest hlt]
        · rw [show stream.length = k by omega]

/-- With more fuel than bytes left, the loop stops at the first read that parses, or at end of
file with nothing left. -/
theorem scanFor_spec (hsize : 2 ≤ size) (fuel : Nat) (stream : List Char)
    (h : stream.length < fuel) :
    let found := fun stream => (allReads size stream).filterMap parse
    (scanFor size parse fuel stream).1 = (found stream).head? ∧
      found (scanFor size parse fuel stream).2 = (found stream).tail ∧
      (found stream = [] → (scanFor size parse fuel stream).2 = []) := by
  intro found
  induction fuel generalizing stream with
  | zero => omega
  | succ fuel ih =>
    rw [scanFor]
    cases hread : fgets size stream with
    | none =>
      have hs : stream = [] := (fgets_eq_none size stream).mp hread
      subst hs
      simp [found, allReads, reads, fgets]
    | some r =>
      obtain ⟨line, rest⟩ := r
      have hlt := fgets_length_lt size hsize stream line rest hread
      have hfound : found stream = (parse line).toList ++ found rest := by
        simp only [found, allReads_read hsize stream line rest hread, List.filterMap_cons]
        cases parse line <;> rfl
      rw [hfound]
      cases hparse : parse line with
      | none => simpa [hparse] using ih rest (by omega)
      | some x => simp [hparse]

end Scan

end LFBenchmarks.Stdio
