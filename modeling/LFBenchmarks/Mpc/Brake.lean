import LFBenchmarks.Mpc.Equilibrium
import LFBenchmarks.Mpc.Gradient
import LFBenchmarks.Mpc.Trajectory

namespace LFBenchmarks.Mpc

open Split (params)

section Coasting

variable {K : Type*} [Field K] [LinearOrder K]

/-- A tick with a missed deadline ends with the input zero. -/
theorem next_missed (noise : ℕ → K) (xRef : Option (Vector K nx)) (s : Loop K) :
    (LfMain.next noise xRef true s).uApply = 0 := by
  cases xRef <;> rfl

theorem run_congr (noise : ℕ → K) (refs : ℕ → Option (Vector K nx)) (missed missed' : ℕ → Bool)
    (n : ℕ) (h : ∀ k < n, missed k = missed' k) :
    LfMain.run noise refs missed n = LfMain.run noise refs missed' n := by
  induction n with
  | zero => rfl
  | succ n ih =>
    have hprev := ih (fun k hk => h k (by omega))
    have hnow := h n (by omega)
    change LfMain.next noise (refs n) (missed n) _ = LfMain.next noise (refs n) (missed' n) _
    rw [hnow]
    exact congrArg _ hprev

/-- The pattern of misses that agrees with `missed` before tick `n` and misses every deadline
from there on. -/
def missedFrom (missed : ℕ → Bool) (n k : ℕ) : Bool := if k < n then missed k else true

variable [IsStrictOrderedRing K]

theorem run_missedFrom (noise : ℕ → K) (refs : ℕ → Option (Vector K nx)) (missed : ℕ → Bool)
    (n m : ℕ) :
    pair (LfMain.run noise refs (missedFrom missed n) (n + m)).plantX =
      DoubleIntegrator.run params.dt (pair (LfMain.run noise refs missed n).plantX)
        (fun _ => 0) m := by
  have hsame : LfMain.run noise refs (missedFrom missed n) n = LfMain.run noise refs missed n :=
    run_congr noise refs _ _ n (fun k hk => if_pos hk)
  have hidle (k : ℕ) : (LfMain.run noise refs (missedFrom missed n) (n + k + 1)).uApply = 0 := by
    have hmissed : missedFrom missed n (n + k) = true := if_neg (by omega)
    change (LfMain.next noise (refs (n + k)) (missedFrom missed n (n + k)) _).uApply = 0
    rw [hmissed, next_missed]
  rw [LfMain.run_trajectory, trajectory_congr _ _ _ (fun _ => 0) m (fun k _ => hidle k), hsame]
  exact trajectory_pair params _ _ m

/-- Without input the mass keeps its velocity. -/
theorem coasting (noise : ℕ → K) (refs : ℕ → Option (Vector K nx)) (missed : ℕ → Bool) (n m : ℕ) :
    let s := LfMain.run noise refs missed n
    let s' := LfMain.run noise refs (missedFrom missed n) (n + m)
    velocity s'.plantX = velocity s.plantX ∧
      position s'.plantX - position s.plantX = m * (1 / 1000 * velocity s.plantX) := by
  intro s s'
  have hdt : (params : Params K).dt = 1 / 1000 := by rw [params_eq]
  have hrun := run_missedFrom noise refs missed n m
  have hvelocity := DoubleIntegrator.run_velocity params.dt (pair s.plantX) (fun _ => 0) m
  have hposition := DoubleIntegrator.run_position params.dt (pair s.plantX) (fun _ => 0) m
  rw [← hrun] at hvelocity hposition
  simp only [mul_zero, Finset.sum_const_zero, add_zero] at hvelocity hposition
  refine ⟨hvelocity, ?_⟩
  have hdrift : position s'.plantX =
      position s.plantX + m * params.dt * velocity s.plantX := hposition
  rw [hdrift, hdt]
  ring

end Coasting

section Sensed

variable {K : Type*} [Field K] [LinearOrder K] [IsStrictOrderedRing K]

/-- What step `m` contributes to the gradient in input `k` when nothing is planned and the
sensor reads a resting plant off by `a` and, in velocity, by half of it. -/
def sensedTerm (a : K) (k m : ℕ) : K :=
  2.0 * (10.0 * (a + m * 0.001 * (a * 0.5)) * 0.001 ^ 2 * (m - k - 0.5) + a * 0.5 * 0.001)

theorem sensedTerm_eq (a : K) (k m : ℕ) : sensedTerm a k m =
    2 * (10 * (a + m * (1 / 1000) * (a / 2)) * (1 / 1000) ^ 2 * (m - k - 1 / 2) +
      a / 2 * (1 / 1000)) := by
  have htwo : (2.0 : K) = 2 := by norm_num
  have hten : (10.0 : K) = 10 := by norm_num
  have hmilli : (0.001 : K) = 1 / 1000 := by norm_num
  have hhalf : (0.5 : K) = 1 / 2 := by norm_num
  rw [sensedTerm, htwo, hten, hmilli, hhalf]
  ring

theorem grad_sensed (a : K) (k : Fin horizon) :
    (descent #v[a, a * 0.5] origin).grad 0 k = ∑ m ∈ Finset.Ioc k.val horizon,
      (if m < horizon then 1 else 10) * sensedTerm a k.val m := by
  let u : Vector K horizon := Vector.replicate horizon 0
  have hentry (m : ℕ) : entry u m = 0 := by
    unfold entry
    split_ifs
    · exact Vector.getElem_replicate ..
    · rfl
  have hposition (m : ℕ) : (DoubleIntegrator.run (1 / 1000) (pair #v[a, a * 0.5]) (entry u) m).1 -
      position (origin : Vector K nx) = a + m * (1 / 1000) * (a / 2) := by
    rw [DoubleIntegrator.run_position]
    simp only [hentry, mul_zero, Finset.sum_const_zero, add_zero, pair]
    change a + m * (1 / 1000) * (a * 0.5) - 0 = _
    ring
  have hvelocity (m : ℕ) : (DoubleIntegrator.run (1 / 1000) (pair #v[a, a * 0.5]) (entry u) m).2 -
      velocity (origin : Vector K nx) = a / 2 := by
    rw [DoubleIntegrator.run_velocity]
    simp only [hentry, mul_zero, Finset.sum_const_zero, add_zero, pair]
    change a * 0.5 - 0 = _
    ring
  have hgrad := grad_eq params #v[a, a * 0.5] (origin : Vector K nx) u k
  rw [replicate_zero_get] at hgrad
  refine hgrad.trans ?_
  rw [gradient_eq, replicate_zero_get, params_eq]
  simp only [Pi.zero_apply, mul_zero, zero_add, hposition, hvelocity, one_mul]
  refine Finset.sum_congr rfl (fun m _ => ?_)
  rw [sensedTerm_eq, ← mul_assoc]

theorem sensedTerm_bounds (a : K) (ha : 0 < a) (k m : ℕ) (hk : k < m) (hm : m ≤ horizon) :
    a / 1000 ≤ sensedTerm a k m ∧ sensedTerm a k m ≤ a / 800 := by
  have hlater : (0 : K) ≤ m - k - 1 / 2 := by
    have hone : (k : K) + 1 ≤ m := by exact_mod_cast hk
    linarith
  have hten : (m : K) - k - 1 / 2 ≤ 10 := by
    have hmten : (m : K) ≤ 10 := by exact_mod_cast hm
    have hnonneg : (0 : K) ≤ k := Nat.cast_nonneg k
    linarith
  have hoff : 0 ≤ a + m * (1 / 1000) * (a / 2) := by positivity
  have hoff' : a + m * (1 / 1000) * (a / 2) ≤ 201 / 200 * a := by
    have hmten : (m : K) ≤ 10 := by exact_mod_cast hm
    have hdrift := mul_le_mul_of_nonneg_right hmten ha.le
    linarith
  have hprod := mul_le_mul hoff' hten hlater (by linarith)
  have hpos := mul_nonneg hoff hlater
  rw [sensedTerm_eq]
  constructor
  · linarith
  · linarith

/-- The terminal step alone weighs ten, all the steps together weigh twenty. -/
theorem weighted_sum_bounds (f : ℕ → K) (lo hi : K) (hlo : 0 ≤ lo) (k : Fin horizon)
    (hf : ∀ m ∈ Finset.Ioc k.val horizon, lo ≤ f m ∧ f m ≤ hi) :
    10 * lo ≤ ∑ m ∈ Finset.Ioc k.val horizon, (if m < horizon then 1 else 10) * f m ∧
      ∑ m ∈ Finset.Ioc k.val horizon, (if m < horizon then 1 else 10) * f m ≤ 20 * hi := by
  have hw (m : ℕ) : (0 : K) ≤ if m < horizon then 1 else 10 := by
    split_ifs <;> norm_num
  have hlast : horizon ∈ Finset.Ioc k.val horizon := Finset.mem_Ioc.mpr ⟨k.isLt, le_rfl⟩
  have hhi : 0 ≤ hi := hlo.trans ((hf horizon hlast).1.trans (hf horizon hlast).2)
  constructor
  · have hterminal := Finset.single_le_sum
      (fun m hm => mul_nonneg (hw m) (hlo.trans (hf m hm).1)) hlast
    rw [if_neg (lt_irrefl _)] at hterminal
    linarith [(hf horizon hlast).1]
  · have hsub : Finset.Ioc k.val horizon ⊆ Finset.range (horizon + 1) := by
      intro m hm
      rw [Finset.mem_range]
      exact Nat.lt_succ_of_le (Finset.mem_Ioc.mp hm).2
    have htotal : ∑ m ∈ Finset.range (horizon + 1), (if m < horizon then 1 else 10 : K) = 20 :=
      (Finset.sum_range _).trans weight_total
    calc ∑ m ∈ Finset.Ioc k.val horizon, (if m < horizon then 1 else 10) * f m
        ≤ ∑ m ∈ Finset.Ioc k.val horizon, (if m < horizon then 1 else 10) * hi :=
          Finset.sum_le_sum (fun m hm => mul_le_mul_of_nonneg_left (hf m hm).2 (hw m))
      _ ≤ ∑ m ∈ Finset.range (horizon + 1), (if m < horizon then 1 else 10) * hi :=
          Finset.sum_le_sum_of_subset_of_nonneg hsub (fun m _ _ => mul_nonneg (hw m) hhi)
      _ = 20 * hi := by rw [← Finset.sum_mul, htotal]

theorem grad_sensed_bounds (a : K) (ha : 0 < a) (k : Fin horizon) :
    a / 100 ≤ (descent #v[a, a * 0.5] origin).grad 0 k ∧
      |(descent #v[a, a * 0.5] origin).grad 0 k| ≤ a / 40 := by
  obtain ⟨hlow, hhigh⟩ := weighted_sum_bounds (sensedTerm a k.val) (a / 1000) (a / 800)
    (by positivity) k (fun m hm =>
      sensedTerm_bounds a ha k m (Finset.mem_Ioc.mp hm).1 (Finset.mem_Ioc.mp hm).2)
  rw [← grad_sensed] at hlow hhigh
  rw [abs_of_nonneg (by linarith)]
  constructor
  · linarith
  · linarith

/-- The controller answers a positive reading with a negative input. -/
theorem descend_sensed (a : K) (ha : 0 < a) :
    applied (descend params #v[a, a * 0.5] origin (Vector.replicate horizon 0)) < 0 := by
  have hpull := (grad_sensed_bounds a ha 0).1
  have hneg := pass_neg_of (a / 40) (fun j => (grad_sensed_bounds a ha j).2) 0 (by linarith)
    (W := 0) (fun j => by rw [Pi.zero_apply, abs_zero]; linarith) le_rfl
  rw [← replicate_zero_get, ← descend_get] at hneg
  exact hneg

end Sensed

section Drift

/-- The sensor noise of `Plant`. -/
noncomputable def LfMain.noise (tick : ℕ) : ℝ := 0.0001 * Real.sin (tick * 0.37)

/-- The references of `Reference`, at startup and at its two timers. -/
noncomputable def LfMain.reference (tick : ℕ) : Option (Vector ℝ nx) :=
  if tick = 0 then some #v[0.0, 0.0]
  else if tick = 1000 then some #v[1.0, 0.0]
  else if tick = 3000 then some #v[0.5, 0.0]
  else none

theorem drift_unbounded (noise : ℕ → ℝ) (refs : ℕ → Option (Vector ℝ nx)) (missed : ℕ → Bool)
    (n : ℕ) (hmoving : velocity (LfMain.run noise refs missed n).plantX ≠ 0) (D : ℝ) :
    ∃ m, D < |position (LfMain.run noise refs (missedFrom missed n) (n + m)).plantX -
      position (LfMain.run noise refs missed n).plantX| := by
  have hstep : 0 < |1 / 1000 * velocity (LfMain.run noise refs missed n).plantX| :=
    abs_pos.mpr (by simpa using hmoving)
  obtain ⟨m, hm⟩ := exists_nat_gt (D / |1 / 1000 * velocity (LfMain.run noise refs missed n).plantX|)
  refine ⟨m, ?_⟩
  rw [(coasting noise refs missed n m).2, abs_mul, Nat.abs_cast]
  exact (div_lt_iff₀ hstep).mp hm

/-- The emergency brake holds the plant back exactly when there is nothing to brake. -/
theorem emergency_brake_iff (noise : ℕ → ℝ) (refs : ℕ → Option (Vector ℝ nx)) (missed : ℕ → Bool)
    (n : ℕ) :
    let s := LfMain.run noise refs missed n
    let s' := fun m => LfMain.run noise refs (missedFrom missed n) (n + m)
    (∃ D, ∀ m, |position (s' m).plantX - position s.plantX| ≤ D ∧
      |velocity (s' m).plantX| ≤ |velocity s.plantX|) ↔ velocity s.plantX = 0 := by
  intro s s'
  have hcoast := coasting noise refs missed n
  constructor
  · intro hconfined
    obtain ⟨D, hD⟩ := hconfined
    by_contra hmoving
    obtain ⟨m, hm⟩ := drift_unbounded noise refs missed n hmoving D
    exact absurd (hD m).1 (not_le.mpr hm)
  · intro hrest
    refine ⟨0, fun m => ⟨?_, (congrArg abs (hcoast m).1).le⟩⟩
    have hstill : position (s' m).plantX - position s.plantX = 0 := by
      rw [(hcoast m).2, hrest, mul_zero, mul_zero]
    rw [hstill, abs_zero]

theorem noise_one_pos : 0 < LfMain.noise 1 := by
  have hsin : 0 < Real.sin ((1 : ℕ) * 0.37) := by
    apply Real.sin_pos_of_pos_of_lt_pi
    · norm_num
    · have hpi := Real.pi_gt_three
      norm_num
      linarith
  exact mul_pos (by norm_num) hsin

theorem run_one : LfMain.run LfMain.noise LfMain.reference (fun k => k = 0) 1 =
    ⟨origin, 1, origin, Vector.replicate horizon 0, 0⟩ := by
  have hzero : (0.0 : ℝ) = 0 := by norm_num
  have hplant : plantStep params (origin : Vector ℝ nx) 0 = origin := by
    have hpair := plantStep_pair params (origin : Vector ℝ nx) 0
    have hstep : DoubleIntegrator.step (params : Params ℝ).dt (pair origin) 0 = (0, 0) := by
      simp [DoubleIntegrator.step, pair]
    rw [hstep] at hpair
    exact ext_state _ _ (congrArg Prod.fst hpair) (congrArg Prod.snd hpair)
  change Loop.mk (plantStep LfMain.params origin 0) 1 #v[(0.0 : ℝ), 0.0]
    (Vector.replicate horizon 0) 0 = _
  rw [lfMain_params, hplant, hzero]

/-- With the deadline of tick 0 missed and the one of tick 1 met, the noise of tick 1 has set the
plant in motion. -/
theorem moving_at_two :
    velocity (LfMain.run LfMain.noise LfMain.reference (fun k => k = 0) 2).plantX < 0 := by
  let u := applied (descend params #v[LfMain.noise 1, LfMain.noise 1 * 0.5] origin
    (Vector.replicate horizon 0))
  have hu : u < 0 := descend_sensed (LfMain.noise 1) noise_one_pos
  have hplant : (LfMain.run LfMain.noise LfMain.reference (fun k => k = 0) 2).plantX =
      plantStep params origin u := by
    change (LfMain.next LfMain.noise none false
      (LfMain.run LfMain.noise LfMain.reference (fun k => k = 0) 1)).plantX = _
    rw [run_one]
    change plantStep LfMain.params origin (applied (descend LfMain.params
      #v[0 + LfMain.noise 1, 0 + LfMain.noise 1 * 0.5] origin (Vector.replicate horizon 0))) = _
    rw [lfMain_params, zero_add, zero_add]
  have hvelocity : velocity (plantStep params origin u) = 0 + params.dt * u :=
    congrArg Prod.snd (plantStep_pair params (origin : Vector ℝ nx) u)
  have hdt : (params : Params ℝ).dt = 1 / 1000 := by rw [params_eq]
  rw [hplant, hvelocity, hdt]
  linarith

/-- Two ticks into a flight of the shipped program the brake lets the plant drift away. -/
theorem emergency_brake_coasts : ¬∀ (missed : ℕ → Bool) (n : ℕ),
    let s := LfMain.run LfMain.noise LfMain.reference missed n
    let s' := fun m => LfMain.run LfMain.noise LfMain.reference (missedFrom missed n) (n + m)
    ∃ D, ∀ m, |position (s' m).plantX - position s.plantX| ≤ D ∧
      |velocity (s' m).plantX| ≤ |velocity s.plantX| := by
  intro h
  obtain ⟨D, hD⟩ := h (fun k => k = 0) 2
  obtain ⟨m, hm⟩ := drift_unbounded LfMain.noise LfMain.reference (fun k => k = 0) 2
    moving_at_two.ne D
  exact absurd (hD m).1 (not_le.mpr hm)

end Drift

end LFBenchmarks.Mpc
