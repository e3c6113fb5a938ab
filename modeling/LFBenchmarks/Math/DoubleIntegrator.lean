import Mathlib

namespace LFBenchmarks.DoubleIntegrator

section Trajectory

variable {K : Type*} [Field K]

/-- A point mass, position and velocity, under a constant input for the time `dt`. -/
def step (dt : K) (x : K × K) (u : K) : K × K :=
  (x.1 + dt * x.2 + 0.5 * dt * dt * u, x.2 + dt * u)

def run (dt : K) (x : K × K) (u : ℕ → K) : ℕ → K × K
  | 0 => x
  | n + 1 => step dt (run dt x u n) (u n)

theorem run_velocity (dt : K) (x : K × K) (u : ℕ → K) (n : ℕ) :
    (run dt x u n).2 = x.2 + dt * ∑ i ∈ Finset.range n, u i := by
  induction n with
  | zero => simp [run]
  | succ n ih =>
    rw [Finset.sum_range_succ]
    simp only [run, step, ih]
    ring

/-- Exact position under a piecewise constant input. -/
theorem run_position [CharZero K] (dt : K) (x : K × K) (u : ℕ → K) (n : ℕ) :
    (run dt x u n).1 =
      x.1 + n * dt * x.2 + dt * dt * ∑ i ∈ Finset.range n, (n - i - 1 / 2) * u i := by
  induction n with
  | zero => simp [run]
  | succ n ih =>
    have hshift : ∑ i ∈ Finset.range n, (((n + 1 : ℕ) : K) - i - 1 / 2) * u i =
        ∑ i ∈ Finset.range n, ((n : K) - i - 1 / 2) * u i + ∑ i ∈ Finset.range n, u i := by
      rw [← Finset.sum_add_distrib]
      refine Finset.sum_congr rfl (fun i _ => ?_)
      push_cast
      ring
    rw [Finset.sum_range_succ, hshift]
    simp only [run, step, ih, run_velocity]
    push_cast
    ring

end Trajectory

section Envelope

variable {K : Type*} [Field K] [LinearOrder K] [IsStrictOrderedRing K]

/-- Where inputs bounded by `c` can have brought the mass from rest at the origin in `n` steps. -/
structure Envelope (dt c : K) (n : ℕ) (x : K × K) : Prop where
  velocity : |x.2| ≤ c * dt * n
  position : |x.1| ≤ c / 2 * (dt * n) ^ 2

theorem envelope_zero (dt c : K) : Envelope dt c 0 (0, 0) := by
  constructor <;> simp

theorem Envelope.step {dt c : K} {n : ℕ} {x : K × K} (h : Envelope dt c n x) (hdt : 0 ≤ dt)
    (u : K) (hu : |u| ≤ c) : Envelope dt c (n + 1) (step dt x u) := by
  have hpush : |dt * u| ≤ dt * c := by
    rw [abs_mul, abs_of_nonneg hdt]
    exact mul_le_mul_of_nonneg_left hu hdt
  have hdrift : |dt * x.2| ≤ dt * (c * dt * n) := by
    rw [abs_mul, abs_of_nonneg hdt]
    exact mul_le_mul_of_nonneg_left h.velocity hdt
  have hhalf : |0.5 * dt * dt * u| ≤ 0.5 * dt * dt * c := by
    have hnonneg : 0 ≤ 0.5 * dt * dt := by positivity
    rw [abs_mul, abs_of_nonneg hnonneg]
    exact mul_le_mul_of_nonneg_left hu hnonneg
  constructor
  · calc |x.2 + dt * u| ≤ c * dt * n + dt * c :=
          (abs_add_le _ _).trans (add_le_add h.velocity hpush)
      _ = c * dt * (n + 1 : ℕ) := by
          push_cast
          ring
  · calc |x.1 + dt * x.2 + 0.5 * dt * dt * u|
        ≤ c / 2 * (dt * n) ^ 2 + dt * (c * dt * n) + 0.5 * dt * dt * c :=
          (abs_add_three _ _ _).trans (add_le_add (add_le_add h.position hdrift) hhalf)
      _ = c / 2 * (dt * (n + 1 : ℕ)) ^ 2 := by
          push_cast
          ring

end Envelope

section Continuous

/-- A mass on a line whose acceleration is held at `u k` from the time `k * dt` to the next. -/
structure HeldMotion (dt : ℝ) (u : ℕ → ℝ) (x : ℝ → ℝ × ℝ) : Prop where
  velocity : ∀ k : ℕ, ∀ t ∈ Set.Icc (k * dt) ((k + 1) * dt),
    HasDerivWithinAt (fun s => (x s).2) (u k) (Set.Icc (k * dt) ((k + 1) * dt)) t
  position : ∀ k : ℕ, ∀ t ∈ Set.Icc (k * dt) ((k + 1) * dt),
    HasDerivWithinAt (fun s => (x s).1) (x t).2 (Set.Icc (k * dt) ((k + 1) * dt)) t

theorem step_zero (x : ℝ × ℝ) (a : ℝ) : step 0 x a = x := by
  simp [step]

/-- Under a constant input the step of any duration is the motion itself. -/
theorem hasDerivAt_step_velocity (x : ℝ × ℝ) (a c t : ℝ) :
    HasDerivAt (fun s => (step (s - c) x a).2) a t := by
  have hshift : HasDerivAt (fun s : ℝ => s - c) 1 t := (hasDerivAt_id t).sub_const c
  have hlinear := (hshift.mul_const a).const_add x.2
  rw [one_mul] at hlinear
  exact hlinear

theorem hasDerivAt_step_position (x : ℝ × ℝ) (a c t : ℝ) :
    HasDerivAt (fun s => (step (s - c) x a).1) (step (t - c) x a).2 t := by
  have hshift : HasDerivAt (fun s : ℝ => s - c) 1 t := (hasDerivAt_id t).sub_const c
  have hsquare := ((hshift.const_mul (0.5 : ℝ)).mul hshift).mul_const a
  have hdrift := (hshift.mul_const x.2).const_add x.1
  refine (hdrift.add hsquare).congr_deriv ?_
  simp only [step]
  ring

/-- Two functions with one derivative on an interval differ as they do at its left end. -/
theorem eq_of_hasDerivWithinAt {f g f' : ℝ → ℝ} {a b : ℝ}
    (hf : ∀ t ∈ Set.Icc a b, HasDerivWithinAt f (f' t) (Set.Icc a b) t)
    (hg : ∀ t ∈ Set.Icc a b, HasDerivWithinAt g (f' t) (Set.Icc a b) t) (heq : f a = g a)
    (t : ℝ) (ht : t ∈ Set.Icc a b) : f t = g t := by
  have hleft : a ∈ Set.Icc a b := ⟨le_rfl, ht.1.trans ht.2⟩
  have hflat : ∀ s ∈ Set.Icc a b, HasDerivWithinAt (fun s => f s - g s) 0 (Set.Icc a b) s := by
    intro s hs
    have hsub := (hf s hs).sub (hg s hs)
    rw [sub_self] at hsub
    exact hsub
  have hbound := (convex_Icc a b).norm_image_sub_le_of_norm_hasDerivWithin_le (C := 0) hflat
    (fun _ _ => by rw [norm_zero]) hleft ht
  rw [zero_mul, heq, sub_self, sub_zero] at hbound
  exact sub_eq_zero.mp (norm_le_zero_iff.mp hbound)

theorem HeldMotion.piece {dt : ℝ} {u : ℕ → ℝ} {x : ℝ → ℝ × ℝ} (h : HeldMotion dt u x) (k : ℕ)
    (t : ℝ) (ht : t ∈ Set.Icc (k * dt) ((k + 1) * dt)) :
    x t = step (t - k * dt) (x (k * dt)) (u k) := by
  have hstart : step (k * dt - k * dt) (x (k * dt)) (u k) = x (k * dt) := by
    rw [sub_self, step_zero]
  have hvelocity := eq_of_hasDerivWithinAt (h.velocity k)
    (fun s _ => (hasDerivAt_step_velocity (x (k * dt)) (u k) (k * dt) s).hasDerivWithinAt)
    (congrArg Prod.snd hstart.symm)
  have hposition := eq_of_hasDerivWithinAt (h.position k)
    (fun s hs => by
      rw [hvelocity s hs]
      exact (hasDerivAt_step_position (x (k * dt)) (u k) (k * dt) s).hasDerivWithinAt)
    (congrArg Prod.fst hstart.symm)
  exact Prod.ext (hposition t ht) (hvelocity t ht)

/-- At the sampling times the motion is where the discrete steps put it. -/
theorem HeldMotion.sampled {dt : ℝ} {u : ℕ → ℝ} {x : ℝ → ℝ × ℝ} (h : HeldMotion dt u x)
    (hdt : 0 ≤ dt) (k : ℕ) : x (k * dt) = run dt (x 0) u k := by
  induction k with
  | zero =>
    rw [Nat.cast_zero, zero_mul]
    rfl
  | succ k ih =>
    have hmem : ((k + 1 : ℕ) : ℝ) * dt ∈ Set.Icc (k * dt) ((k + 1) * dt) := by
      push_cast
      constructor
      · linarith
      · exact le_rfl
    have hwidth : ((k + 1 : ℕ) : ℝ) * dt - k * dt = dt := by
      push_cast
      ring
    rw [h.piece k _ hmem, hwidth, ih]
    rfl

/-- The motion itself: the last sampled state, moved on for the time since then. -/
noncomputable def motion (dt : ℝ) (x : ℝ × ℝ) (u : ℕ → ℝ) (t : ℝ) : ℝ × ℝ :=
  step (t - ⌊t / dt⌋₊ * dt) (run dt x u ⌊t / dt⌋₊) (u ⌊t / dt⌋₊)

theorem motion_piece (dt : ℝ) (hdt : 0 < dt) (x : ℝ × ℝ) (u : ℕ → ℝ) (k : ℕ) (t : ℝ)
    (ht : t ∈ Set.Icc (k * dt) ((k + 1) * dt)) :
    motion dt x u t = step (t - k * dt) (run dt x u k) (u k) := by
  rcases ht.2.lt_or_eq with hlt | hend
  · have hnonneg : 0 ≤ t := (by positivity : 0 ≤ k * dt).trans ht.1
    have hfloor : ⌊t / dt⌋₊ = k := by
      rw [Nat.floor_eq_iff (div_nonneg hnonneg hdt.le)]
      exact ⟨(le_div_iff₀ hdt).mpr ht.1, (div_lt_iff₀ hdt).mpr hlt⟩
    rw [motion, hfloor]
  · -- the right end belongs to the next piece, which starts where this one stops
    have hfloor : ⌊t / dt⌋₊ = k + 1 := by
      have hquot : t / dt = ((k + 1 : ℕ) : ℝ) := by
        rw [hend, mul_div_cancel_right₀ _ hdt.ne']
        push_cast
        rfl
      rw [hquot, Nat.floor_natCast]
    have hzero : t - ((k + 1 : ℕ) : ℝ) * dt = 0 := by
      push_cast
      linarith
    have hwidth : t - k * dt = dt := by
      rw [hend]
      ring
    rw [motion, hfloor, hzero, hwidth, step_zero]
    rfl

theorem motion_zero (dt : ℝ) (hdt : 0 < dt) (x : ℝ × ℝ) (u : ℕ → ℝ) : motion dt x u 0 = x := by
  have hzero : (0 : ℝ) ∈ Set.Icc (((0 : ℕ) : ℝ) * dt) (((0 : ℕ) + 1) * dt) := by
    simp [hdt.le]
  rw [motion_piece dt hdt x u 0 0 hzero, Nat.cast_zero, zero_mul, sub_zero, step_zero]
  rfl

theorem heldMotion_motion (dt : ℝ) (hdt : 0 < dt) (x : ℝ × ℝ) (u : ℕ → ℝ) :
    HeldMotion dt u (motion dt x u) := by
  have hpiece := motion_piece dt hdt x u
  constructor
  · intro k t ht
    refine (hasDerivAt_step_velocity (run dt x u k) (u k) (k * dt) t).hasDerivWithinAt.congr
      (fun s hs => ?_) ?_
    · rw [hpiece k s hs]
    · rw [hpiece k t ht]
  · intro k t ht
    rw [hpiece k t ht]
    refine (hasDerivAt_step_position (run dt x u k) (u k) (k * dt) t).hasDerivWithinAt.congr
      (fun s hs => ?_) ?_
    · rw [hpiece k s hs]
    · rw [hpiece k t ht]

end Continuous

end LFBenchmarks.DoubleIntegrator
