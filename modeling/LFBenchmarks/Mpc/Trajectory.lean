import LFBenchmarks.Mpc.ClosedLoop
import LFBenchmarks.Mpc.Objective
import LFBenchmarks.Mpc.Threaded

namespace LFBenchmarks.Mpc

open Split (params)
open DoubleIntegrator (HeldMotion)

section Trajectories

variable {K : Type*}

/-- The states of a plant that gets one input after the other. -/
def trajectory (plant : Vector K nx → K → Vector K nx) (x : Vector K nx) (u : ℕ → K) :
    ℕ → Vector K nx
  | 0 => x
  | k + 1 => plant (trajectory plant x u k) (u k)

theorem trajectory_congr (plant : Vector K nx → K → Vector K nx) (x : Vector K nx) (u w : ℕ → K)
    (k : ℕ) (h : ∀ i < k, u i = w i) : trajectory plant x u k = trajectory plant x w k := by
  induction k with
  | zero => rfl
  | succ k ih =>
    have hprev := ih (fun i hi => h i (by omega))
    rw [trajectory, trajectory, hprev, h k (by omega)]

theorem pair_injective (x y : Vector K nx) (h : pair x = pair y) : x = y :=
  ext_state x y (congrArg Prod.fst h) (congrArg Prod.snd h)

variable [Field K]

theorem foldl_trajectory (plant : Vector K nx → K → Vector K nx) (x : Vector K nx) (us : List K) :
    us.foldl plant x = trajectory plant x (fun k => us.getD k 0) us.length := by
  induction us using List.reverseRecOn with
  | nil => rfl
  | append_singleton us u ih =>
    have hlast : (us ++ [u]).getD us.length 0 = u := by simp
    have hprev := trajectory_congr plant x (fun k => (us ++ [u]).getD k 0) (fun k => us.getD k 0)
      us.length (fun k hk => by simp [List.getElem?_append_left hk])
    rw [List.foldl_append, List.length_append, List.length_singleton, trajectory, hlast, hprev,
      ← ih]
    rfl

/-- The beginning of an input sequence, as long as an array of the predictors is. -/
def firstInputs (u : ℕ → K) : Vector K horizon := Vector.ofFn fun k => u k

/-- The solution of the double integrator for inputs held over `DT` each. -/
def exactState (p v : K) (u : ℕ → K) (k : ℕ) : Vector K nx :=
  #v[p + k * params.dt * v + params.dt ^ 2 * ∑ i ∈ Finset.range k, (k - i - 0.5) * u i,
    v + params.dt * ∑ i ∈ Finset.range k, u i]

theorem entry_firstInputs (u : ℕ → K) (k : ℕ) (hk : k < horizon) :
    entry (firstInputs u) k = u k := by
  rw [entry, dif_pos hk, firstInputs, Vector.getElem_ofFn]

theorem xPred_trajectory (x0 : Vector K nx) (w : Vector K horizon) (k : ℕ) :
    Threaded.xPred x0 w k = trajectory (plantStep Threaded.params) x0 (entry w) k := by
  induction k with
  | zero => rfl
  | succ k ih => rw [trajectory, ← ih, ← propagate_eq, Threaded.xPred]

end Trajectories

section Agreement

variable {K : Type*} [Field K] [LinearOrder K] [IsStrictOrderedRing K]

theorem trajectory_pair (P : Params K) (x : Vector K nx) (u : ℕ → K) (k : ℕ) :
    pair (trajectory (plantStep P) x u k) = DoubleIntegrator.run P.dt (pair x) u k := by
  induction k with
  | zero => rfl
  | succ k ih =>
    rw [trajectory, plantStep_pair, ih]
    rfl

theorem exactState_pair (p v : K) (u : ℕ → K) (k : ℕ) :
    pair (exactState p v u k) = DoubleIntegrator.run params.dt (p, v) u k := by
  have hhalf : (0.5 : K) = 1 / 2 := by norm_num
  apply Prod.ext
  · rw [DoubleIntegrator.run_position, ← pow_two, ← hhalf]
    rfl
  · rw [DoubleIntegrator.run_velocity]
    rfl

theorem costLoop_trajectory (P : Params K) (x0 xref : Vector K nx) (w : Vector K horizon) (k : ℕ) :
    (costLoop P x0 xref w k).2 = trajectory (plantStep P) x0 (entry w) k := by
  apply pair_injective
  rw [costLoop_state, trajectory_pair]

theorem trajectory_exact (p v : K) (u : ℕ → K) (k : ℕ) :
    trajectory (plantStep params) #v[p, v] u k = exactState p v u k := by
  apply pair_injective
  rw [trajectory_pair, exactState_pair]
  rfl

theorem eq_plantStep {plant : Vector K nx → K → Vector K nx}
    (h : plant ∈ [plantStep Threaded.params, LfMain.plant, Split.plant]) :
    plant = plantStep params := by
  rw [split_plant, LfMain.plant, lfMain_params, threaded_params] at h
  simpa using h

/-- A predictor that reads its inputs from an array follows the plant as far as the array goes. -/
theorem trajectory_firstInputs (p v : K) (u : ℕ → K) (k : ℕ) (hk : k ≤ horizon) :
    trajectory (plantStep params) #v[p, v] (entry (firstInputs u)) k = exactState p v u k := by
  rw [← trajectory_exact]
  exact trajectory_congr _ _ _ _ k (fun i hi => entry_firstInputs u i (by omega))

theorem costLoop_exact (P : Params K) (hP : P ∈ [Split.params, LfMain.params, Threaded.params])
    (p v : K) (xref : Vector K nx) (u : ℕ → K) (k : ℕ) (hk : k ≤ horizon) :
    (costLoop P #v[p, v] xref (firstInputs u) k).2 = exactState p v u k := by
  rw [lfMain_params, threaded_params] at hP
  obtain rfl : P = params := by simpa using hP
  rw [costLoop_trajectory, trajectory_firstInputs p v u k hk]

theorem xPred_exact (p v : K) (u : ℕ → K) (k : ℕ) (hk : k ≤ horizon) :
    Threaded.xPred #v[p, v] (firstInputs u) k = exactState p v u k := by
  rw [xPred_trajectory, threaded_params, trajectory_firstInputs p v u k hk]

/-- The closed form is no approximation: a mass pushed in continuous time passes through it. -/
theorem exactState_sampled (x : ℝ × ℝ) (u : ℕ → ℝ) (m : ℝ → ℝ × ℝ)
    (hm : HeldMotion params.dt u m) (hstart : m 0 = x) (k : ℕ) :
    pair (exactState x.1 x.2 u k) = m (k * params.dt) := by
  have hdt : (0 : ℝ) ≤ params.dt := by
    change (0 : ℝ) ≤ 0.001
    norm_num
  rw [hm.sampled hdt, hstart, exactState_pair]

/-- The three plants and the two predictors compute one trajectory, the exact one. -/
theorem trajectories_agree (p v : K) (u : ℕ → K) :
    (∀ plant ∈ [plantStep Threaded.params, LfMain.plant, Split.plant],
      ∀ k, trajectory plant #v[p, v] u k = exactState p v u k) ∧
    (∀ P ∈ [Split.params, LfMain.params, Threaded.params], ∀ (xref : Vector K nx), ∀ k ≤ horizon,
      (costLoop P #v[p, v] xref (firstInputs u) k).2 = exactState p v u k) ∧
    (∀ (noise : ℕ → K) (s : Threaded.State K),
      s.prediction = .propagate #v[p, v] (firstInputs u) →
        ∃ s', Threaded.step noise .propagate s = some s' ∧
          ∀ k : Fin (horizon + 1), s'.xPred.get k = exactState p v u k) ∧
    ∀ (x : ℝ × ℝ) (w : ℕ → ℝ) (m : ℝ → ℝ × ℝ), HeldMotion params.dt w m → m 0 = x →
      ∀ k : ℕ, pair (exactState x.1 x.2 w k) = m (k * params.dt) := by
  refine ⟨fun plant hplant k => ?_, fun P hP xref k hk => ?_, fun noise s hs => ?_, ?_⟩
  · rw [eq_plantStep hplant, trajectory_exact]
  · exact costLoop_exact P hP p v xref u k hk
  · refine ⟨_, by rw [Threaded.step, hs], fun k => ?_⟩
    exact (Vector.getElem_ofFn _).trans (xPred_exact p v u k (by omega))
  · exact exactState_sampled

theorem trajectories_agree_two :
    let u : ℕ → ℚ := fun _ => 1
    let x : Vector ℚ nx := #v[0.002002, 1.002]
    trajectory Split.plant #v[0, 1] u 2 = x ∧
    (costLoop Split.params #v[0, 1] origin (firstInputs u) 2).2 = x ∧
    (∃ s', Threaded.step (fun _ => 0) .propagate
      { Threaded.State.initial [] with prediction := .propagate #v[0, 1] (firstInputs u) } = some s' ∧
        s'.xPred.get 2 = x) ∧
    pair (exactState (0 : ℝ) 1 (fun _ => 1) 2) =
      DoubleIntegrator.motion params.dt (0, 1) (fun _ => 1) ((2 : ℕ) * params.dt) := by
  intro u x
  obtain ⟨hplant, hcost, hpred, hexact⟩ := trajectories_agree (0 : ℚ) 1 u
  have hx : exactState 0 1 u 2 = x := by decide +kernel
  have hdt : (0 : ℝ) < params.dt := by
    change (0 : ℝ) < 0.001
    norm_num
  refine ⟨?_, ?_, ?_, ?_⟩
  · rw [hplant Split.plant (by simp) 2, hx]
  · rw [hcost Split.params (by simp) origin 2 (by decide), hx]
  · obtain ⟨s', hstep, hs'⟩ := hpred (fun _ => 0)
      { Threaded.State.initial [] with prediction := .propagate #v[0, 1] (firstInputs u) } rfl
    exact ⟨s', hstep, (hs' 2).trans hx⟩
  · exact hexact (0, 1) (fun _ => 1) _ (DoubleIntegrator.heldMotion_motion _ hdt _ _)
      (DoubleIntegrator.motion_zero _ hdt _ _) 2

end Agreement

section Programs

variable {K : Type*} [Field K]

/-- A tick of a Lingua Franca build moves the plant under the input the tick ends with. -/
theorem Loop.next_plantX
    (solve : Vector K nx → Vector K nx → Vector K horizon → K × Vector K horizon)
    (plant : Vector K nx → K → Vector K nx) (noise : ℕ → K) (xRef : Option (Vector K nx))
    (missed : Bool) (s : Loop K) :
    (s.next solve plant noise xRef missed).plantX =
      plant s.plantX (s.next solve plant noise xRef missed).uApply := by
  cases xRef <;> cases missed <;> rfl

theorem Loop.run_trajectory
    (solve : Vector K nx → Vector K nx → Vector K horizon → K × Vector K horizon)
    (plant : Vector K nx → K → Vector K nx) (noise : ℕ → K) (refs : ℕ → Option (Vector K nx))
    (missed : ℕ → Bool) (n m : ℕ) :
    (Loop.run solve plant noise refs missed (n + m)).plantX =
      trajectory plant (Loop.run solve plant noise refs missed n).plantX
        (fun k => (Loop.run solve plant noise refs missed (n + k + 1)).uApply) m := by
  induction m with
  | zero => rfl
  | succ m ih =>
    rw [trajectory, ← ih]
    exact Loop.next_plantX _ _ _ _ _ _

variable [LinearOrder K]

theorem LfMain.run_trajectory (noise : ℕ → K) (refs : ℕ → Option (Vector K nx))
    (missed : ℕ → Bool) (n m : ℕ) : (LfMain.run noise refs missed (n + m)).plantX =
      trajectory LfMain.plant (LfMain.run noise refs missed n).plantX
        (fun k => (LfMain.run noise refs missed (n + k + 1)).uApply) m :=
  Loop.run_trajectory LfMain.solve LfMain.plant noise refs missed n m

/-- The inputs `plant_step` is called with along a trace. -/
def Threaded.driven (noise : ℕ → K) : List Threaded.Action → Threaded.State K → List K
  | [], _ => []
  | a :: trace, s =>
    match Threaded.step noise a s with
    | none => []
    | some s' =>
      match a, s.actuator with
      | .plant, .plant u => u :: Threaded.driven noise trace s'
      | _, _ => Threaded.driven noise trace s'

theorem Threaded.step_plantX {s s' : Threaded.State K} (noise : ℕ → K) (a : Threaded.Action)
    (hstep : Threaded.step noise a s = some s') (ha : a ≠ .plant) : s'.plantX = s.plantX := by
  cases Threaded.moves_of_step noise a hstep with
  | plant => exact absurd rfl ha
  | sense | endSensor | wait | endPrediction | take | wakeup | propagate | endOptimizer | snapshot
  | solve | publish | shift | endActuator | apply | reference => rfl

theorem Threaded.run_driven {s s' : Threaded.State K} (noise : ℕ → K)
    (trace : List Threaded.Action) (hrun : Threaded.run noise trace s = some s') :
    s'.plantX = (Threaded.driven noise trace s).foldl (plantStep Threaded.params) s.plantX ∧
      (Threaded.driven noise trace s).length = trace.count .plant := by
  induction trace generalizing s with
  | nil =>
    cases hrun
    exact ⟨rfl, rfl⟩
  | cons a trace ih =>
    rw [Threaded.run_cons] at hrun
    obtain ⟨t, ht, hrest⟩ := Option.bind_eq_some_iff.mp hrun
    obtain ⟨hplant, hlength⟩ := ih hrest
    by_cases ha : a = .plant
    · subst ha
      cases Threaded.moves_of_step noise .plant ht with
      | plant u hat =>
        have hdriven : Threaded.driven noise (.plant :: trace) s =
            u :: Threaded.driven noise trace
              { s with plantX := plantStep params s.plantX u, actuator := .apply } := by
          simp only [Threaded.driven, ht, hat]
        rw [hdriven, hplant, List.foldl_cons, List.length_cons, hlength, List.count_cons_self]
        exact ⟨rfl, rfl⟩
    · have hdriven : Threaded.driven noise (a :: trace) s = Threaded.driven noise trace t := by
        simp only [Threaded.driven, ht]
        cases a <;> first | rfl | exact absurd rfl ha
      rw [hdriven, hplant, hlength, Threaded.step_plantX noise a ht ha, List.count_cons_of_ne ha]
      exact ⟨rfl, rfl⟩

variable [IsStrictOrderedRing K]

/-- Whatever is sensed, asked for or missed, the mass goes where its inputs take it exactly. -/
theorem LfMain.run_exact (noise : ℕ → K) (refs : ℕ → Option (Vector K nx)) (missed : ℕ → Bool)
    (n : ℕ) : (LfMain.run noise refs missed n).plantX =
      exactState 0 0 (fun k => (LfMain.run noise refs missed (k + 1)).uApply) n := by
  have hrun := LfMain.run_trajectory noise refs missed 0 n
  simp only [Nat.zero_add] at hrun
  rw [hrun, ← trajectory_exact]
  rfl

/-- While the inputs of a plan are applied, `compute_cost` foresees the plant. -/
theorem LfMain.run_foreseen (noise : ℕ → K) (refs : ℕ → Option (Vector K nx)) (missed : ℕ → Bool)
    (n m : ℕ) (xref : Vector K nx) (plan : Vector K horizon)
    (hplan : ∀ k < m, (LfMain.run noise refs missed (n + k + 1)).uApply = entry plan k) :
    (LfMain.run noise refs missed (n + m)).plantX =
      (costLoop LfMain.params (LfMain.run noise refs missed n).plantX xref plan m).2 := by
  rw [LfMain.run_trajectory, trajectory_congr _ _ _ _ m hplan, costLoop_trajectory]
  rfl

/-- In every interleaving the mass goes where the inputs of its plant steps take it exactly. -/
theorem Threaded.run_exact (noise : ℕ → K) (pending : List (Vector K nx))
    (trace : List Threaded.Action) (s : Threaded.State K)
    (hrun : Threaded.run noise trace (.initial pending) = some s) :
    s.plantX =
      exactState 0 0 (fun k => (Threaded.driven noise trace (.initial pending)).getD k 0)
        (trace.count .plant) := by
  obtain ⟨hplant, hlength⟩ := Threaded.run_driven noise trace hrun
  rw [hplant, foldl_trajectory, hlength, ← trajectory_exact]
  rfl

end Programs

end LFBenchmarks.Mpc
