import Mathlib

namespace LFBenchmarks.Runs

/-- At least `min` characters of the class, at most `max` if there is a limit. -/
structure Run where
  cls : Char → Bool
  min : Nat
  max : Option Nat

/-- Exactly the character `c`. -/
def Run.literal (c : Char) : Run := ⟨fun x => x = c, 1, some 1⟩

def Run.Fits (r : Run) (piece : List Char) : Prop :=
  (∀ c ∈ piece, r.cls c = true) ∧ r.min ≤ piece.length ∧ ∀ m ∈ r.max, piece.length ≤ m

/-- The longest run the text starts with. -/
def Run.take (r : Run) (s : List Char) : List Char :=
  (r.max.elim s (fun m => s.take m)).takeWhile r.cls

/-- The text cut into the runs of a pattern, each one as long as it gets. -/
def matchRuns : List Run → List Char → Option (List (List Char))
  | [], s => if s = [] then some [] else none
  | r :: rs, s =>
    if (r.take s).length < r.min then none
    else (matchRuns rs (s.drop (r.take s).length)).map (r.take s :: ·)

/-- The text is a sequence of runs as the pattern asks for. -/
def Matches (rs : List Run) (pieces : List (List Char)) (s : List Char) : Prop :=
  List.Forall₂ Run.Fits rs pieces ∧ pieces.flatten = s

/-- A text for the pattern can start with `c`. -/
def Starts : List Run → Char → Prop
  | [], _ => False
  | r :: rs, c => r.cls c = true ∨ r.min = 0 ∧ Starts rs c

/-- What follows a run cannot prolong it. -/
def Separated : List Run → Prop
  | [] => True
  | r :: rs => (∀ c, r.cls c = true → ¬Starts rs c) ∧ Separated rs

theorem starts_literal (d : Char) (rs : List Run) (c : Char) :
    Starts (.literal d :: rs) c ↔ c = d := by
  simp [Starts, Run.literal]

theorem separated_literals (word : List Char) (rs : List Run) (hrs : Separated rs)
    (hword : word.IsChain (· ≠ ·)) (hlast : ∀ c ∈ word.getLast?, ¬Starts rs c) :
    Separated (word.map .literal ++ rs) := by
  induction word with
  | nil => exact hrs
  | cons a word ih =>
    cases word with
    | nil =>
      refine ⟨fun c hc => ?_, hrs⟩
      obtain rfl : c = a := by simpa [Run.literal] using hc
      exact hlast c rfl
    | cons b word =>
      obtain ⟨hab, hchain⟩ := List.isChain_cons_cons.mp hword
      refine ⟨fun c hc => ?_, ih hchain fun c hc => hlast c (by simpa using hc)⟩
      obtain rfl : c = a := by simpa [Run.literal] using hc
      exact fun hstart => hab ((starts_literal b _ c).mp hstart)

theorem Run.take_fits (r : Run) (s : List Char) (h : r.min ≤ (r.take s).length) :
    r.Fits (r.take s) := by
  refine ⟨fun c hc => List.mem_takeWhile_imp hc, h, fun m hm => ?_⟩
  have hmax : r.max = some m := hm
  unfold Run.take
  rw [hmax, Option.elim_some]
  exact (List.takeWhile_prefix _).length_le.trans (List.length_take_le _ _)

theorem Run.take_prefix (r : Run) (s : List Char) : r.take s <+: s := by
  unfold Run.take
  cases r.max with
  | none => exact List.takeWhile_prefix _
  | some m => exact (List.takeWhile_prefix _).trans (List.take_prefix _ _)

theorem matches_of_matchRuns (rs : List Run) (s : List Char) (pieces : List (List Char))
    (h : matchRuns rs s = some pieces) : Matches rs pieces s := by
  induction rs generalizing s pieces with
  | nil =>
    rw [matchRuns] at h
    split_ifs at h with hs
    obtain rfl := Option.some.inj h
    exact ⟨.nil, hs.symm⟩
  | cons r rs ih =>
    rw [matchRuns] at h
    split_ifs at h with hlen
    obtain ⟨rest, hrest, rfl⟩ := Option.map_eq_some_iff.mp h
    obtain ⟨hfits, hflat⟩ := ih _ rest hrest
    refine ⟨.cons (r.take_fits s (not_lt.mp hlen)) hfits, ?_⟩
    rw [List.flatten_cons, hflat]
    exact (List.prefix_append_drop (r.take_prefix s)).symm

theorem starts_of_matches (rs : List Run) (pieces : List (List Char)) (c : Char) (s : List Char)
    (h : Matches rs pieces (c :: s)) : Starts rs c := by
  obtain ⟨hfits, hflat⟩ := h
  induction hfits with
  | nil => cases hflat
  | @cons r piece rs pieces hr _ ih =>
    cases piece with
    | nil =>
      right
      exact ⟨Nat.le_zero.mp hr.2.1, ih hflat⟩
    | cons d piece =>
      rw [List.flatten_cons, List.cons_append, List.cons.injEq] at hflat
      left
      exact hr.1 c (hflat.1 ▸ List.mem_cons_self)

theorem Run.take_append (r : Run) (piece t : List Char) (h : r.Fits piece)
    (ht : ∀ c ∈ t.head?, r.cls c = false) : r.take (piece ++ t) = piece := by
  have hstop (u : List Char) (hu : u <+: t) : u.takeWhile r.cls = [] := by
    cases u with
    | nil => rfl
    | cons c u =>
      obtain ⟨v, rfl⟩ := hu
      rw [List.takeWhile_cons, ht c rfl]
      rfl
  have hlimit : ∃ u, u <+: t ∧ r.max.elim (piece ++ t) (fun m => (piece ++ t).take m) = piece ++ u := by
    cases hmax : r.max with
    | none => exact ⟨t, List.prefix_rfl, rfl⟩
    | some m =>
      refine ⟨t.take (m - piece.length), List.take_prefix _ _, ?_⟩
      rw [Option.elim_some, List.take_append, List.take_of_length_le (h.2.2 m hmax)]
  obtain ⟨u, hu, heq⟩ := hlimit
  rw [Run.take, heq, List.takeWhile_append_of_pos h.1, hstop u hu, List.append_nil]

/-- Taking each run as long as it gets finds every match of a separated pattern. -/
theorem matchRuns_of_matches (rs : List Run) (hsep : Separated rs) (pieces : List (List Char))
    (s : List Char) (h : Matches rs pieces s) : matchRuns rs s = some pieces := by
  obtain ⟨hfits, rfl⟩ := h
  induction hfits with
  | nil => rfl
  | @cons r piece rs pieces hr hrest ih =>
    obtain ⟨hnext, hsep⟩ := hsep
    have hstop : ∀ c ∈ pieces.flatten.head?, r.cls c = false := by
      intro c hc
      obtain ⟨t, ht⟩ := List.head?_eq_some_iff.mp hc
      have hstart := starts_of_matches rs pieces c t ⟨hrest, ht⟩
      exact Bool.eq_false_iff.mpr (fun hcls => hnext c hcls hstart)
    rw [List.flatten_cons, matchRuns, r.take_append piece _ hr hstop, List.drop_left, ih hsep,
      if_neg (not_lt.mpr hr.2.1)]
    rfl

theorem matchRuns_iff (rs : List Run) (hsep : Separated rs) (pieces : List (List Char))
    (s : List Char) : matchRuns rs s = some pieces ↔ Matches rs pieces s :=
  ⟨matches_of_matchRuns rs s pieces, matchRuns_of_matches rs hsep pieces s⟩

end LFBenchmarks.Runs
