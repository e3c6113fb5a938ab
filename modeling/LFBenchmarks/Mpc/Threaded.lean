import LFBenchmarks.Mpc.Solver

namespace LFBenchmarks.Mpc.Threaded

def maxTicks : ℕ := 5000

/-- What the threads share under the mutex. One step of a thread is one critical section, or what it
does on its own data between two of them; sleeping is left out, so that it may take any time. -/
structure Shared (K : Type*) where
  xCurrent : Vector K nx
  xReference : Vector K nx
  uSequence : Vector K horizon
  uApplied : K
  newMeasurement : Bool
  newSolution : Bool
  running : Bool
  tick : ℕ

/-- Where the prediction thread stands: about to lock the mutex and test its loop condition,
asleep on `g_cond_meas`, or propagating its snapshot. -/
inductive PredictionThread (K : Type*) where
  | lock
  | waiting
  | propagate (x0 : Vector K nx) (u : Vector K horizon)
  | exited

inductive OptimizerThread (K : Type*) where
  | snapshot
  | solve (x0 xref : Vector K nx)
  | publish
  | shift
  | exited

inductive ActuatorThread (K : Type*) where
  | apply
  | plant (u : K)
  | exited

/-- The shared state, `g_plant_x`, where each thread stands and its locals: `x_pred`, the
optimizer's `u_seq`, and the setpoints the reference thread has yet to write. -/
structure State (K : Type*) where
  shared : Shared K
  plantX : Vector K nx
  sensorExited : Bool
  prediction : PredictionThread K
  xPred : Vector (Vector K nx) (horizon + 1)
  optimizer : OptimizerThread K
  uSeq : Vector K horizon
  actuator : ActuatorThread K
  pending : List (Vector K nx)

inductive Action where
  | sensor
  | predict
  | wakeup
  | propagate
  | snapshot
  | solve
  | publish
  | shift
  | apply
  | plant
  | reference
  deriving DecidableEq

section Steps

variable {K : Type*} [Field K] [LinearOrder K]

def State.initial (pending : List (Vector K nx)) : State K where
  shared := ⟨origin, origin, Vector.replicate horizon 0, 0, false, false, true, 0⟩
  plantX := origin
  sensorExited := false
  prediction := .lock
  xPred := Vector.replicate (horizon + 1) origin
  optimizer := .snapshot
  uSeq := Vector.replicate horizon 0
  actuator := .apply
  pending := pending

def setpoints : List (Vector K nx) := [#v[1.0, 0.0], #v[0.5, 0.0]]

/-- `pthread_cond_signal` on `g_cond_meas`: a sleeping waiter goes back to its test. -/
def PredictionThread.signal : PredictionThread K → PredictionThread K
  | .waiting => .lock
  | thread => thread

/-- The critical section of the sensor thread. -/
def State.sense (noise : ℕ → K) (s : State K) : State K :=
  let g := s.shared
  let xCurrent := #v[position s.plantX + noise g.tick, velocity s.plantX + noise g.tick * 0.5]
  let running := if maxTicks ≤ g.tick + 1 then false else g.running
  { s with
    shared := { g with xCurrent, newMeasurement := true, tick := g.tick + 1, running }
    prediction := s.prediction.signal }

/-- The states `prediction_thread` computes along its snapshot. -/
def xPred (x0 : Vector K nx) (u : Vector K horizon) : ℕ → Vector K nx
  | 0 => x0
  | k + 1 => propagate params (xPred x0 u k) (entry u k)

/-- One step of the thread the action belongs to, `none` if it cannot take this step now. The
wakeup is the spurious one. Nobody waits on `g_cond_sol`, so its signal is lost. -/
def step (noise : ℕ → K) (a : Action) (s : State K) : Option (State K) :=
  let g := s.shared
  match a with
  | .sensor =>
    if s.sensorExited then none
    else if g.running then some (s.sense noise)
    else some { s with sensorExited := true }
  | .predict =>
    match s.prediction with
    | .lock =>
      if !g.newMeasurement && g.running then some { s with prediction := .waiting }
      else if !g.running then some { s with prediction := .exited }
      else some { s with
        shared := { g with newMeasurement := false }
        prediction := .propagate g.xCurrent g.uSequence }
    | _ => none
  | .wakeup =>
    match s.prediction with
    | .waiting => some { s with prediction := .lock }
    | _ => none
  | .propagate =>
    match s.prediction with
    | .propagate x0 u =>
      some { s with xPred := Vector.ofFn fun k => xPred x0 u k, prediction := .lock }
    | _ => none
  | .snapshot =>
    match s.optimizer with
    | .snapshot =>
      if !g.running then some { s with optimizer := .exited }
      else some { s with optimizer := .solve g.xCurrent g.xReference }
    | _ => none
  | .solve =>
    match s.optimizer with
    | .solve x0 xref => some { s with uSeq := descend params x0 xref s.uSeq, optimizer := .publish }
    | _ => none
  | .publish =>
    match s.optimizer with
    | .publish =>
      some { s with
        shared := { g with uSequence := s.uSeq, newSolution := true }
        optimizer := .shift }
    | _ => none
  | .shift =>
    match s.optimizer with
    | .shift => some { s with uSeq := Mpc.shift s.uSeq, optimizer := .snapshot }
    | _ => none
  | .apply =>
    match s.actuator with
    | .apply =>
      if !g.running then some { s with actuator := .exited }
      else
        let uApply := applied g.uSequence
        some { s with shared := { g with uApplied := uApply }, actuator := .plant uApply }
    | _ => none
  | .plant =>
    match s.actuator with
    | .plant u => some { s with plantX := plantStep params s.plantX u, actuator := .apply }
    | _ => none
  | .reference =>
    match s.pending with
    | r :: rest => some { s with shared := { g with xReference := r }, pending := rest }
    | [] => none

/-- What a step does, case by case, with what it finds. -/
inductive Moves (noise : ℕ → K) (s : State K) : Action → State K → Prop where
  | sense (hloop : s.sensorExited = false) (hrun : s.shared.running = true) :
      Moves noise s .sensor (s.sense noise)
  | endSensor (hloop : s.sensorExited = false) (hrun : s.shared.running = false) :
      Moves noise s .sensor { s with sensorExited := true }
  | wait (hat : s.prediction = .lock) (hnew : s.shared.newMeasurement = false)
      (hrun : s.shared.running = true) : Moves noise s .predict { s with prediction := .waiting }
  | endPrediction (hat : s.prediction = .lock) (hrun : s.shared.running = false) :
      Moves noise s .predict { s with prediction := .exited }
  | take (hat : s.prediction = .lock) (hnew : s.shared.newMeasurement = true)
      (hrun : s.shared.running = true) : Moves noise s .predict { s with
        shared := { s.shared with newMeasurement := false }
        prediction := .propagate s.shared.xCurrent s.shared.uSequence }
  | wakeup (hat : s.prediction = .waiting) : Moves noise s .wakeup { s with prediction := .lock }
  | propagate (x0 : Vector K nx) (u : Vector K horizon) (hat : s.prediction = .propagate x0 u) :
      Moves noise s .propagate
        { s with xPred := Vector.ofFn fun k => xPred x0 u k, prediction := .lock }
  | endOptimizer (hat : s.optimizer = .snapshot) (hrun : s.shared.running = false) :
      Moves noise s .snapshot { s with optimizer := .exited }
  | snapshot (hat : s.optimizer = .snapshot) (hrun : s.shared.running = true) :
      Moves noise s .snapshot
        { s with optimizer := .solve s.shared.xCurrent s.shared.xReference }
  | solve (x0 xref : Vector K nx) (hat : s.optimizer = .solve x0 xref) :
      Moves noise s .solve
        { s with uSeq := descend params x0 xref s.uSeq, optimizer := .publish }
  | publish (hat : s.optimizer = .publish) : Moves noise s .publish { s with
      shared := { s.shared with uSequence := s.uSeq, newSolution := true }
      optimizer := .shift }
  | shift (hat : s.optimizer = .shift) : Moves noise s .shift
      { s with uSeq := Mpc.shift s.uSeq, optimizer := .snapshot }
  | endActuator (hat : s.actuator = .apply) (hrun : s.shared.running = false) :
      Moves noise s .apply { s with actuator := .exited }
  | apply (hat : s.actuator = .apply) (hrun : s.shared.running = true) :
      Moves noise s .apply { s with
        shared := { s.shared with uApplied := applied s.shared.uSequence }
        actuator := .plant (applied s.shared.uSequence) }
  | plant (u : K) (hat : s.actuator = .plant u) :
      Moves noise s .plant { s with plantX := plantStep params s.plantX u, actuator := .apply }
  | reference (r : Vector K nx) (rest : List (Vector K nx)) (hat : s.pending = r :: rest) :
      Moves noise s .reference
        { s with shared := { s.shared with xReference := r }, pending := rest }

theorem moves_of_step {s s' : State K} (noise : ℕ → K) (a : Action)
    (hstep : step noise a s = some s') : Moves noise s a s' := by
  cases a with
  | sensor =>
    simp only [step] at hstep
    split_ifs at hstep with hexited hrunning
    · cases hstep
      exact .sense (Bool.eq_false_iff.mpr hexited) hrunning
    · cases hstep
      exact .endSensor (Bool.eq_false_iff.mpr hexited) (Bool.eq_false_iff.mpr hrunning)
  | predict =>
    simp only [step] at hstep
    split at hstep
    · next hat =>
      split_ifs at hstep with hwait hstop
      · cases hstep
        rw [Bool.and_eq_true, Bool.not_eq_true'] at hwait
        exact .wait hat hwait.1 hwait.2
      · cases hstep
        exact .endPrediction hat (by simpa using hstop)
      · have hrun : s.shared.running = true := by simpa using hstop
        have hnew : s.shared.newMeasurement = true := by simpa [hrun] using hwait
        cases hstep
        exact .take hat hnew hrun
    · cases hstep
  | snapshot =>
    simp only [step] at hstep
    split at hstep
    · next hat =>
      split_ifs at hstep with hstop
      · cases hstep
        exact .endOptimizer hat (by simpa using hstop)
      · cases hstep
        exact .snapshot hat (by simpa using hstop)
    · cases hstep
  | apply =>
    simp only [step] at hstep
    split at hstep
    · next hat =>
      split_ifs at hstep with hstop
      · cases hstep
        exact .endActuator hat (by simpa using hstop)
      · cases hstep
        exact .apply hat (by simpa using hstop)
    · cases hstep
  | wakeup | propagate | solve | publish | shift | plant | reference =>
    simp only [step] at hstep
    split at hstep
    · next hat =>
      cases hstep
      constructor
      exact hat
    · cases hstep

def run (noise : ℕ → K) (trace : List Action) (s : State K) : Option (State K) :=
  trace.foldlM (fun s a => step noise a s) s

theorem run_nil (noise : ℕ → K) (s : State K) : run noise [] s = some s := rfl

theorem run_cons (noise : ℕ → K) (a : Action) (trace : List Action) (s : State K) :
    run noise (a :: trace) s = (step noise a s).bind (run noise trace) := rfl

theorem run_append (noise : ℕ → K) (l₁ l₂ : List Action) (s : State K) :
    run noise (l₁ ++ l₂) s = (run noise l₁ s).bind (run noise l₂) := by
  induction l₁ generalizing s with
  | nil => rfl
  | cons a l₁ ih =>
    rw [List.cons_append, run_cons, run_cons]
    cases step noise a s with
    | none => rfl
    | some t => exact ih t

/-- What holds at the start and is carried on by every step holds after any trace. -/
theorem run_induction {P : List Action → State K → Prop} (noise : ℕ → K) (s : State K)
    (hnil : P [] s)
    (hstep : ∀ l a t t', P l t → step noise a t = some t' → P (l ++ [a]) t')
    (trace : List Action) (s' : State K) (hrun : run noise trace s = some s') : P trace s' := by
  have hfrom (trace l : List Action) (t : State K) (ht : P l t)
      (hrun : run noise trace t = some s') : P (l ++ trace) s' := by
    induction trace generalizing l t with
    | nil =>
      cases hrun
      rw [List.append_nil]
      exact ht
    | cons a trace ih =>
      rw [run_cons] at hrun
      obtain ⟨t', ht', hrest⟩ := Option.bind_eq_some_iff.mp hrun
      rw [List.append_cons]
      exact ih (l ++ [a]) t' (hstep l a t t' ht ht') hrest
  exact hfrom trace [] s hnil hrun

end Steps

end LFBenchmarks.Mpc.Threaded
