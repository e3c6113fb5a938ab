import LFBenchmarks.Mpc.Solver

namespace LFBenchmarks.Mpc

section Reactions

variable {K : Type*} [Field K] [LinearOrder K]

/-- State of `Plant` and `Optimizer`, the static sequence of the solver, and the last value on
`u_apply`. -/
structure Loop (K : Type*) where
  plantX : Vector K nx
  tick : ℕ
  currentRef : Vector K nx
  uSeq : Vector K horizon
  uApply : K

def Loop.initial : Loop K := ⟨origin, 0, origin, Vector.replicate horizon 0, 0⟩

/-- `Plant`, `reaction(t)`, with any function of the tick count for the noise. -/
def Loop.sensor (noise : ℕ → K) (s : Loop K) : Vector K nx × Loop K :=
  (#v[position s.plantX + noise s.tick, velocity s.plantX + noise s.tick * 0.5],
    { s with tick := s.tick + 1 })

/-- `Optimizer`, `reaction(x_ref_in)`. -/
def Loop.xRefIn (xRef : Vector K nx) (s : Loop K) : Loop K := { s with currentRef := xRef }

/-- `Optimizer`, `reaction(x_current)`, over the solver it runs or calls. -/
def Loop.xCurrent (solve : Vector K nx → Vector K nx → Vector K horizon → K × Vector K horizon)
    (x : Vector K nx) (s : Loop K) : Loop K :=
  let r := solve x s.currentRef s.uSeq
  { s with uApply := r.1, uSeq := r.2 }

def Loop.deadline (s : Loop K) : Loop K := { s with uApply := 0 }

/-- `Plant`, `reaction(u)`, over its model of the mass. -/
def Loop.actuate (plant : Vector K nx → K → Vector K nx) (s : Loop K) : Loop K :=
  { s with plantX := plant s.plantX s.uApply }

/-- The reactions of one tick, with the reference that arrives at it, if any, and whether the
optimizer missed its deadline. -/
def Loop.next (solve : Vector K nx → Vector K nx → Vector K horizon → K × Vector K horizon)
    (plant : Vector K nx → K → Vector K nx) (noise : ℕ → K) (xRef : Option (Vector K nx))
    (missed : Bool) (s : Loop K) : Loop K :=
  let (x, s) := s.sensor noise
  let s := xRef.elim s s.xRefIn
  let s := if missed then s.deadline else s.xCurrent solve x
  s.actuate plant

def Loop.run (solve : Vector K nx → Vector K nx → Vector K horizon → K × Vector K horizon)
    (plant : Vector K nx → K → Vector K nx) (noise : ℕ → K) (refs : ℕ → Option (Vector K nx))
    (missed : ℕ → Bool) : ℕ → Loop K
  | 0 => Loop.initial
  | n + 1 => (Loop.run solve plant noise refs missed n).next solve plant noise (refs n) (missed n)

end Reactions

section Builds

variable {K : Type*} [Field K] [LinearOrder K]

def LfMain.solve (x0 xref : Vector K nx) (u : Vector K horizon) : K × Vector K horizon :=
  let u := descend params x0 xref u
  (applied u, shift u)

def LfMain.plant : Vector K nx → K → Vector K nx := plantStep params

def LfMain.next : (ℕ → K) → Option (Vector K nx) → Bool → Loop K → Loop K :=
  Loop.next LfMain.solve LfMain.plant

def LfMain.run : (ℕ → K) → (ℕ → Option (Vector K nx)) → (ℕ → Bool) → ℕ → Loop K :=
  Loop.run LfMain.solve LfMain.plant

/-- The plant step of the split build, with its coefficients written out. -/
def Split.plant (x : Vector K nx) (u : K) : Vector K nx :=
  #v[(1.0 : K) * position x + (0.001 : K) * velocity x + (0.0000005 : K) * u,
    (0.0 : K) * position x + (1.0 : K) * velocity x + (0.001 : K) * u]

def Split.next : (ℕ → K) → Option (Vector K nx) → Bool → Loop K → Loop K :=
  Loop.next Split.mpcSolve Split.plant

def Split.run : (ℕ → K) → (ℕ → Option (Vector K nx)) → (ℕ → Bool) → ℕ → Loop K :=
  Loop.run Split.mpcSolve Split.plant

end Builds

section Agreement

variable {K : Type*} [Field K] [LinearOrder K]

theorem lfMain_solve : (LfMain.solve : Vector K nx → _) = Split.mpcSolve := by
  funext x0 xref u
  rw [LfMain.solve, lfMain_params]
  rfl

/-- Both builds solve alike. -/
theorem eq_mpcSolve {solve : Vector K nx → Vector K nx → Vector K horizon → K × Vector K horizon}
    (h : solve ∈ [LfMain.solve, Split.mpcSolve]) : solve = Split.mpcSolve := by
  rw [lfMain_solve] at h
  simpa using h

variable [IsStrictOrderedRing K]

theorem split_plant : (Split.plant : Vector K nx → K → Vector K nx) = LfMain.plant := by
  funext x u
  have hdt : (LfMain.params : Params K).dt = 0.001 := rfl
  have hone : (1.0 : K) = 1 := by norm_num
  have hzero : (0.0 : K) = 0 := by norm_num
  have ha : (LfMain.params : Params K).A = ![![1, 0.001], ![0, 1]] := rfl
  have hb : (LfMain.params : Params K).B = ![0.0000005, 0.001] := by
    unfold Params.B
    rw [hdt]
    norm_num
  simp only [Split.plant, LfMain.plant, plantStep, ha, hb, hone, hzero]
  rfl

theorem split_run : (Split.run : (ℕ → K) → _) = LfMain.run := by
  unfold Split.run LfMain.run
  rw [split_plant, lfMain_solve]

end Agreement

end LFBenchmarks.Mpc
