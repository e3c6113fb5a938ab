import LFBenchmarks.Mpc.Equilibrium
import LFBenchmarks.Mpc.Optimizer

namespace LFBenchmarks.Mpc

open Split (params)

section Plans

variable {K : Type*} [Field K] [LinearOrder K]
variable (solve : Vector K nx → Vector K nx → Vector K horizon → K × Vector K horizon)
variable (measured : ℕ → Vector K nx) (refs : ℕ → Option (Vector K nx)) (missed : ℕ → Bool)

/-- The last tick before `n` at which the solve was not replaced by the deadline handler. -/
def lastSolve (missed : ℕ → Bool) : ℕ → Option ℕ
  | 0 => none
  | n + 1 => if missed n then lastSolve missed n else some n

/-- What the solve of tick `n` plans, entry `k` for tick `n + k`. -/
def plan (n : ℕ) : Vector K horizon :=
  let s := Optimizer.run solve measured refs missed n
  descend params (measured n) ((refs n).getD s.1.currentRef) s.2

/-- The sequence that tick `n` finds holds the last plan, entry `k` for tick `n + k`. -/
def Aligned (n : ℕ) : Prop :=
  ∀ k : Fin horizon, (Optimizer.run solve measured refs missed n).2.get k =
    (lastSolve missed n).elim 0 fun m => entry (plan solve measured refs missed m) (n + k - m)

end Plans

section Alignment

variable {K : Type*} [Field K]

theorem forall_shift_eq (u : Vector K horizon) (d : ℕ) (hd : 0 < d)
    (h : ∀ k : Fin horizon, entry u k = entry u (k + d)) : u = Vector.replicate horizon 0 := by
  -- from the end of the sequence to its start: beyond the end every entry is zero
  have hzero : ∀ (n k : ℕ), horizon ≤ k + n → entry u k = 0 := by
    intro n
    induction n with
    | zero =>
      intro k hk
      exact dif_neg (by omega)
    | succ n ih =>
      intro k hk
      by_cases hlt : k < horizon
      · exact (h ⟨k, hlt⟩).trans (ih (k + d) (by omega))
      · exact dif_neg hlt
  apply get_injective
  funext k
  rw [← entry_get, hzero horizon k (by omega), get_eq, Vector.getElem_replicate]

variable [LinearOrder K]
variable {solve : Vector K nx → Vector K nx → Vector K horizon → K × Vector K horizon}
variable (measured : ℕ → Vector K nx) (refs : ℕ → Option (Vector K nx)) (missed : ℕ → Bool)

theorem lastSolve_lt (n m : ℕ) (h : lastSolve missed n = some m) : m < n ∧ missed m = false := by
  induction n with
  | zero => cases h
  | succ n ih =>
    rw [lastSolve] at h
    split_ifs at h with hn
    · exact ⟨(ih h).1.trans (by omega), (ih h).2⟩
    · cases h
      exact ⟨by omega, Bool.eq_false_iff.mpr hn⟩

theorem lastSolve_eq_none (n : ℕ) : lastSolve missed n = none ↔ ∀ m < n, missed m = true := by
  induction n with
  | zero => simp [lastSolve]
  | succ n ih =>
    rw [lastSolve, Nat.forall_lt_succ_right]
    split_ifs with hn
    · simp [ih, hn]
    · simp [hn]

/-- Only a solve touches the sequence, and it leaves its plan one entry forward. -/
theorem run_uSeq (hsolve : solve = Split.mpcSolve) (n : ℕ) :
    (Optimizer.run solve measured refs missed n).2 =
      (lastSolve missed n).elim (Vector.replicate horizon 0)
        fun m => shift (plan solve measured refs missed m) := by
  induction n with
  | zero => rfl
  | succ n ih =>
    rw [Optimizer.run, lastSolve]
    cases hm : missed n with
    | true =>
      rw [if_pos rfl, ← ih]
      cases hr : refs n <;> rfl
    | false =>
      rw [if_neg (by simp), Option.elim_some, plan]
      subst hsolve
      cases hr : refs n <;> rfl

theorem aligned_iff (hsolve : solve = Split.mpcSolve) (n : ℕ) :
    Aligned solve measured refs missed n ↔
      (∀ m, m + 1 = n → missed m = false) ∨ (∀ m < n, missed m = true) ∨
        (Optimizer.run solve measured refs missed n).2 = Vector.replicate horizon 0 := by
  have hseq := run_uSeq measured refs missed hsolve n
  rw [Aligned, hseq, ← lastSolve_eq_none]
  cases hlast : lastSolve missed n with
  | none => simp [get_eq]
  | some m =>
    obtain ⟨hmn, hmet⟩ := lastSolve_lt missed n m hlast
    let P := plan solve measured refs missed m
    have hshift (k : Fin horizon) : (shift P).get k = entry P (k + 1) := shift_get P k
    simp only [Option.elim_some, reduceCtorEq, false_or]
    constructor
    · intro haligned
      by_cases hnext : n = m + 1
      · left
        intro j hj
        rwa [show j = m by omega]
      · right
        apply forall_shift_eq _ (n - m - 1) (by omega)
        intro k
        rw [entry_get, haligned k, entry_shift]
        exact congrArg (entry P) (by omega)
    · intro hcase k
      rcases hcase with hbefore | hzero
      · have hnext : n = m + 1 := by
          obtain ⟨j, rfl⟩ : ∃ j, n = j + 1 := ⟨n - 1, by omega⟩
          rw [lastSolve, hbefore j rfl] at hlast
          simpa using hlast
        rw [hshift, hnext]
        exact congrArg (entry P) (by omega)
      · have hentry (i : ℕ) : entry P (i + 1) = 0 := by
          rw [← entry_shift, hzero, entry]
          split_ifs
          · exact Vector.getElem_replicate ..
          · rfl
        obtain ⟨i, hi⟩ : ∃ i, n + k - m = i + 1 := ⟨n + k - m - 1, by omega⟩
        rw [hshift, hentry, hi, hentry]

/-- A missed deadline leaves the sequence one tick behind: it is aligned exactly when the
deadline before was met, nothing was planned yet, or it is all zero. -/
theorem warm_start_aligned_iff (n : ℕ) :
    ∀ solve ∈ [LfMain.solve, Split.mpcSolve],
      Aligned solve measured refs missed n ↔
        (∀ m, m + 1 = n → missed m = false) ∨ (∀ m < n, missed m = true) ∨
          (Optimizer.run solve measured refs missed n).2 = Vector.replicate horizon 0 := by
  intro solve hmem
  exact aligned_iff measured refs missed (eq_mpcSolve hmem) n

theorem warm_start_aligned_iff_met :
    Aligned LfMain.solve (fun _ => (#v[1, 0] : Vector ℚ nx)) (fun _ => none) (fun _ => false) 1 :=
  (warm_start_aligned_iff _ _ _ 1 LfMain.solve (by simp)).mpr (.inl (fun _ _ => rfl))

theorem missed_deadline_misaligns :
    let measured : ℕ → Vector ℚ nx := fun _ => #v[1, 0]
    let missed : ℕ → Bool := fun n => n = 1
    missed 2 = false ∧ ∀ solve ∈ [LfMain.solve, Split.mpcSolve],
      ¬Aligned solve measured (fun _ => none) missed 2 := by
  intro measured missed
  refine ⟨rfl, fun solve hmem haligned => ?_⟩
  have hsolve := eq_mpcSolve hmem
  rcases (aligned_iff measured (fun _ => none) missed hsolve 2).mp haligned with h | h | h
  · exact absurd (h 1 rfl) (by decide)
  · exact absurd (h 0 (by decide)) (by decide)
  · have hseq := run_uSeq measured (fun _ => none) missed hsolve 2
    have hlast : lastSolve missed 2 = some 0 := rfl
    have hplan : plan solve measured (fun _ => none) missed 0 =
        descend params #v[1, 0] origin (Vector.replicate horizon 0) := rfl
    rw [h, hlast, Option.elim_some, hplan] at hseq
    -- the plan of tick 0 pushes back at every step, its entry 1 is not zero
    have hneg : (pass (#v[1, 0] : Vector ℚ nx) origin)^[50] (Vector.replicate horizon 0).get 1 < 0 :=
      pass_neg rfl rfl (by simp [origin]) (fun j => by simp [get_eq, origin]) 1 (by simp [get_eq])
    rw [← descend_get] at hneg
    have hsecond (w : Vector ℚ horizon) : (shift w).get 0 = w.get 1 :=
      (shift_get w 0).trans (entry_get w 1)
    have hfirst := congrArg (fun w : Vector ℚ horizon => w.get 0) hseq
    simp only [hsecond] at hfirst
    rw [get_eq, Vector.getElem_replicate] at hfirst
    exact hneg.ne hfirst.symm

end Alignment

end LFBenchmarks.Mpc
