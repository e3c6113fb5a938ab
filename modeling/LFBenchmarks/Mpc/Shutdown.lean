import LFBenchmarks.Mpc.Threaded

namespace LFBenchmarks.Mpc

section Awake

variable {K : Type*}

/-- Once the program stops, nobody sleeps on `g_cond_meas`; and only a stopped program has lost
its sensor. -/
structure Threaded.Awake (s : Threaded.State K) : Prop where
  prediction : s.shared.running = false → s.prediction ≠ .waiting
  sensor : s.sensorExited = true → s.shared.running = false

/-- Every thread has left its loop. -/
def Threaded.State.Exited (s : Threaded.State K) : Prop :=
  s.sensorExited = true ∧ s.prediction = .exited ∧ s.optimizer = .exited ∧
    s.actuator = .exited ∧ s.pending = []

theorem Threaded.signal_ne_waiting (thread : Threaded.PredictionThread K) :
    thread.signal ≠ .waiting := by
  cases thread <;> simp [Threaded.PredictionThread.signal]

variable [Field K]

theorem Threaded.awake_initial (pending : List (Vector K nx)) :
    Threaded.Awake (Threaded.State.initial pending) :=
  ⟨fun h => Bool.noConfusion h, fun h => Bool.noConfusion h⟩

variable [LinearOrder K]

/-- Only the sensor clears the running flag, in the section in which it signals. -/
theorem Threaded.Awake.step {s s' : Threaded.State K} (h : Threaded.Awake s) (noise : ℕ → K)
    (a : Threaded.Action) (hstep : Threaded.step noise a s = some s') : Threaded.Awake s' := by
  cases Threaded.moves_of_step noise a hstep with
  | sense hloop _ =>
    refine ⟨fun _ => Threaded.signal_ne_waiting s.prediction, fun hs => ?_⟩
    exact Bool.noConfusion (hloop.symm.trans hs)
  | endSensor _ hrun => exact ⟨h.prediction, fun _ => hrun⟩
  | wait _ _ hrun => exact ⟨fun hr => Bool.noConfusion (hrun.symm.trans hr), h.sensor⟩
  | endPrediction | take | wakeup | propagate =>
    refine ⟨fun _ hp => ?_, h.sensor⟩
    cases hp
  | endOptimizer | snapshot | solve | publish | shift | endActuator | apply | plant | reference =>
    exact ⟨h.prediction, h.sensor⟩

theorem Threaded.Awake.run {s s' : Threaded.State K} (h : Threaded.Awake s) (noise : ℕ → K)
    (trace : List Threaded.Action) (hrun : Threaded.run noise trace s = some s') :
    Threaded.Awake s' :=
  Threaded.run_induction (P := fun _ s => Threaded.Awake s) noise s h
    (fun _ a _ _ ht hstep => ht.step noise a hstep) trace s' hrun

/-- A thread that has not exited and is not asleep can take its next step; and the sleeper is
only asleep while the sensor runs. -/
theorem Threaded.Awake.progress {s : Threaded.State K} (h : Threaded.Awake s) (noise : ℕ → K)
    (hleft : ¬s.Exited) :
    ∃ a : Threaded.Action, a ≠ .wakeup ∧ (Threaded.step noise a s).isSome = true := by
  cases hsensor : s.sensorExited with
  | false =>
    refine ⟨.sensor, by decide, ?_⟩
    simp only [Threaded.step, hsensor, Bool.false_eq_true, if_false]
    split_ifs <;> rfl
  | true =>
    have hstopped := h.sensor hsensor
    cases hpredict : s.prediction with
    | lock => exact ⟨.predict, by decide, by simp [Threaded.step, hpredict, hstopped]⟩
    | waiting => exact absurd hpredict (h.prediction hstopped)
    | propagate x0 u => exact ⟨.propagate, by decide, by simp [Threaded.step, hpredict]⟩
    | exited =>
      cases hoptim : s.optimizer with
      | snapshot => exact ⟨.snapshot, by decide, by simp [Threaded.step, hoptim, hstopped]⟩
      | solve x0 xref => exact ⟨.solve, by decide, by simp [Threaded.step, hoptim]⟩
      | publish => exact ⟨.publish, by decide, by simp [Threaded.step, hoptim]⟩
      | shift => exact ⟨.shift, by decide, by simp [Threaded.step, hoptim]⟩
      | exited =>
        cases hactuate : s.actuator with
        | apply => exact ⟨.apply, by decide, by simp [Threaded.step, hactuate, hstopped]⟩
        | plant u => exact ⟨.plant, by decide, by simp [Threaded.step, hactuate]⟩
        | exited =>
          cases hpending : s.pending with
          | cons r rest => exact ⟨.reference, by decide, by simp [Threaded.step, hpending]⟩
          | nil => exact absurd ⟨hsensor, hpredict, hoptim, hactuate, hpending⟩ hleft

end Awake

section Completion

variable {K : Type*} [Field K] [LinearOrder K]

def Threaded.PredictionThread.remaining : Threaded.PredictionThread K → ℕ
  | .lock => 1
  | .waiting => 2
  | .propagate _ _ => 2
  | .exited => 0

def Threaded.OptimizerThread.remaining : Threaded.OptimizerThread K → ℕ
  | .snapshot => 1
  | .shift => 2
  | .publish => 3
  | .solve _ _ => 4
  | .exited => 0

def Threaded.ActuatorThread.remaining : Threaded.ActuatorThread K → ℕ
  | .apply => 1
  | .plant _ => 2
  | .exited => 0

def Threaded.State.remaining (s : Threaded.State K) : ℕ :=
  (if s.sensorExited then 0 else 1) + s.prediction.remaining + s.optimizer.remaining +
    s.actuator.remaining + s.pending.length

/-- A stopped program stays stopped, and every step brings it one step closer to its end. -/
theorem Threaded.step_stopped {s s' : Threaded.State K} (noise : ℕ → K) (a : Threaded.Action)
    (hstep : Threaded.step noise a s = some s') (hstop : s.shared.running = false) :
    s'.shared.running = false ∧ s'.remaining + 1 = s.remaining := by
  cases Threaded.moves_of_step noise a hstep with
  | sense _ hrun | wait _ _ hrun | take _ _ hrun | snapshot _ hrun | apply _ hrun =>
    exact Bool.noConfusion (hstop.symm.trans hrun)
  | endSensor hat | endPrediction hat | wakeup hat | propagate _ _ hat =>
    refine ⟨hstop, ?_⟩
    simp only [Threaded.State.remaining, hat, Threaded.PredictionThread.remaining,
      Bool.false_eq_true, if_true, if_false]
    omega
  | endOptimizer hat | solve _ _ hat | publish hat | shift hat =>
    refine ⟨hstop, ?_⟩
    simp only [Threaded.State.remaining, hat, Threaded.OptimizerThread.remaining]
    omega
  | endActuator hat | plant _ hat =>
    refine ⟨hstop, ?_⟩
    simp only [Threaded.State.remaining, hat, Threaded.ActuatorThread.remaining]
    omega
  | reference _ _ hat =>
    refine ⟨hstop, ?_⟩
    simp only [Threaded.State.remaining, hat, List.length_cons]
    omega

theorem Threaded.run_stopped {s s' : Threaded.State K} (noise : ℕ → K)
    (trace : List Threaded.Action) (hrun : Threaded.run noise trace s = some s')
    (hstop : s.shared.running = false) :
    s'.shared.running = false ∧ s'.remaining + trace.length = s.remaining := by
  refine Threaded.run_induction
    (P := fun l t => t.shared.running = false ∧ t.remaining + l.length = s.remaining) noise s
    ⟨hstop, rfl⟩ (fun l a t t' ht hstep => ?_) trace s' hrun
  obtain ⟨hstopped, hlength⟩ := ht
  obtain ⟨hstopped', hone⟩ := Threaded.step_stopped noise a hstep hstopped
  refine ⟨hstopped', ?_⟩
  rw [List.length_append, List.length_singleton]
  omega

/-- In no interleaving does the program hang: a stopped program has nobody asleep, unless all
threads have exited one of them can step without a spurious wakeup, and no stop is undone. -/
theorem shutdown_cannot_hang (noise : ℕ → K) (pending : List (Vector K nx))
    (trace : List Threaded.Action) (s : Threaded.State K)
    (hrun : Threaded.run noise trace (.initial pending) = some s) :
    (s.shared.running = false → s.prediction ≠ .waiting) ∧
    (¬s.Exited → ∃ a : Threaded.Action, a ≠ .wakeup ∧ (Threaded.step noise a s).isSome = true) ∧
    (s.shared.running = false → ∀ later s', Threaded.run noise later s = some s' →
      s'.shared.running = false) := by
  have hawake := (Threaded.awake_initial pending).run noise trace hrun
  exact ⟨hawake.prediction, hawake.progress noise, fun hstop later s' hlater =>
    (Threaded.run_stopped noise later hlater hstop).1⟩

/-- Nor does it run on: a stopped program has only so many steps left, and ends with all threads
exited. -/
theorem shutdown_completes (noise : ℕ → K) (pending : List (Vector K nx))
    (trace later : List Threaded.Action) (s s' : Threaded.State K)
    (hrun : Threaded.run noise trace (.initial pending) = some s)
    (hstop : s.shared.running = false) (hlater : Threaded.run noise later s = some s') :
    later.length ≤ s.remaining ∧ ((∀ a, Threaded.step noise a s' = none) → s'.Exited) := by
  refine ⟨by have := (Threaded.run_stopped noise later hlater hstop).2; omega, fun hstuck => ?_⟩
  have hawake := ((Threaded.awake_initial pending).run noise trace hrun).run noise later hlater
  by_contra hleft
  obtain ⟨a, -, henabled⟩ := hawake.progress noise hleft
  rw [hstuck a] at henabled
  cases henabled

/-- The sensor thread alone counts its ticks up to the end of the program. -/
theorem Threaded.run_sensor (noise : ℕ → K) (n : ℕ) (s : Threaded.State K)
    (hloop : s.sensorExited = false) (hrunning : s.shared.running = true)
    (hn : s.shared.tick + (n + 1) = Threaded.maxTicks) :
    ∃ s', Threaded.run noise (List.replicate (n + 1) .sensor) s = some s' ∧
      s'.shared.running = false ∧ s'.sensorExited = false := by
  induction n generalizing s with
  | zero =>
    refine ⟨s.sense noise, ?_, ?_, hloop⟩
    · simp [Threaded.run, Threaded.step, hloop, hrunning]
    · simp [Threaded.State.sense, hn.ge]
  | succ n ih =>
    have hstep : Threaded.step noise .sensor s = some (s.sense noise) := by
      simp [Threaded.step, hloop, hrunning]
    have hnext : (s.sense noise).shared.running = true := by
      have hlt : ¬Threaded.maxTicks ≤ s.shared.tick + 1 := by omega
      simp [Threaded.State.sense, hlt, hrunning]
    obtain ⟨s', hrun, hrest⟩ := ih (s.sense noise) hloop hnext (by simp [Threaded.State.sense]; omega)
    refine ⟨s', ?_, hrest⟩
    rw [List.replicate_succ]
    simpa [Threaded.run, hstep] using hrun

/-- The prediction thread falls asleep first, and the sensor thread ends the program. -/
theorem shutdown_cannot_hang_stopped : ∃ s : Threaded.State ℚ,
    Threaded.run (fun _ => 0) (.predict :: List.replicate Threaded.maxTicks .sensor)
        (.initial Threaded.setpoints) = some s ∧
      s.shared.running = false ∧ s.prediction ≠ .waiting ∧
      (∃ a : Threaded.Action, a ≠ .wakeup ∧ (Threaded.step (fun _ => 0) a s).isSome = true) ∧
      ∀ later s', Threaded.run (fun _ => 0) later s = some s' → s'.shared.running = false := by
  obtain ⟨n, hn⟩ : ∃ n, Threaded.maxTicks = n + 1 := ⟨4999, rfl⟩
  let asleep : Threaded.State ℚ :=
    { Threaded.State.initial Threaded.setpoints with prediction := .waiting }
  have hstart : asleep.shared.tick + (n + 1) = Threaded.maxTicks := (Nat.zero_add _).trans hn.symm
  obtain ⟨s, hsensor, hstop, hloop⟩ := Threaded.run_sensor (fun _ => (0 : ℚ)) n asleep rfl rfl hstart
  have hrun : Threaded.run (fun _ => (0 : ℚ)) (.predict :: List.replicate Threaded.maxTicks .sensor)
      (.initial Threaded.setpoints) = some s := by
    rw [hn]
    exact hsensor
  obtain ⟨hawake, hprogress, hlater⟩ := shutdown_cannot_hang _ _ _ s hrun
  refine ⟨s, hrun, hstop, hawake hstop, hprogress (fun hexited => ?_), hlater hstop⟩
  rw [Threaded.State.Exited, hloop] at hexited
  exact Bool.noConfusion hexited.1

end Completion

end LFBenchmarks.Mpc
