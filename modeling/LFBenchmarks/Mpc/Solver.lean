import LFBenchmarks.Math.CoordinateDescent

namespace LFBenchmarks.Mpc

abbrev nx : ℕ := 2
abbrev horizon : ℕ := 10

/-- The three programs define the same constants and the same cost and descent loops, so these are
written once over the constants and each program applies them to its own. The `double` values are
exact numbers. With `NU = 1` an input is one number and the loops over `j < NU` are gone. -/
structure Params (K : Type*) where
  dt : K
  optIter : ℕ
  optLr : K
  qPos : K
  qVel : K
  rInput : K
  uMax : K
  uMin : K
  eps : K

section Solver

variable {K : Type*} [Field K] [LinearOrder K] (P : Params K)

/-- Entry 0 of a state. -/
abbrev position (x : Vector K nx) : K := x[0]

/-- Entry 1 of a state. -/
abbrev velocity (x : Vector K nx) : K := x[1]

/-- The state `{0.0, 0.0}` of a fresh array. -/
abbrev origin : Vector K nx := #v[0, 0]

/-- Entry 0 of an input sequence, the one that goes to the plant. -/
abbrev applied (u : Vector K horizon) : K := u[0]

def Params.A : Fin nx → Fin nx → K := ![![1, P.dt], ![0, 1]]

def Params.B : Fin nx → K := ![0.5 * P.dt * P.dt, P.dt]

/-- The two product loops of the propagation. -/
def propagate (x : Vector K nx) (u : K) : Vector K nx :=
  Vector.ofFn fun i => ∑ j, P.A i j * x[j] + P.B i * u

/-- Entry `k` of an input sequence, 0 past its end. -/
def entry (u : Vector K horizon) (k : ℕ) : K := if h : k < horizon then u[k] else 0

/-- Cost and state after `k` rounds of the loop in `compute_cost`. -/
def costLoop (x0 xref : Vector K nx) (u : Vector K horizon) : ℕ → K × Vector K nx
  | 0 => (0, x0)
  | k + 1 =>
    let (cost, x) := costLoop x0 xref u k
    let ex0 := position x - position xref
    let ex1 := velocity x - velocity xref
    let cost := cost + (P.qPos * ex0 * ex0 + P.qVel * ex1 * ex1)
    let cost := cost + P.rInput * entry u k * entry u k
    (cost, propagate P x (entry u k))

def computeCost (x0 xref : Vector K nx) (u : Vector K horizon) : K :=
  let (cost, x) := costLoop P x0 xref u horizon
  let ex0 := position x - position xref
  let ex1 := velocity x - velocity xref
  cost + (10.0 * P.qPos * ex0 * ex0 + 10.0 * P.qVel * ex1 * ex1)

def centralDifference (x0 xref : Vector K nx) (u : Vector K horizon) (k : Fin horizon) : K :=
  let up := u.set k (u[k] + P.eps)
  let um := u.set k (u[k] - P.eps)
  (computeCost P x0 xref up - computeCost P x0 xref um) / (2.0 * P.eps)

/-- The body of the descent loops: one entry moves down the gradient and is saturated. -/
def updateEntry (x0 xref : Vector K nx) (u : Vector K horizon) (k : Fin horizon) :
    Vector K horizon :=
  u.set k (saturate P.uMin P.uMax (u[k] - P.optLr * centralDifference P x0 xref u k))

def sweep (x0 xref : Vector K nx) (u : Vector K horizon) : Vector K horizon :=
  (List.finRange horizon).foldl (updateEntry P x0 xref) u

def descend (x0 xref : Vector K nx) (u : Vector K horizon) : Vector K horizon :=
  (sweep P x0 xref)^[P.optIter] u

/-- The warm start of the next solve: one entry forward, the last one zero. -/
def shift (u : Vector K horizon) : Vector K horizon :=
  Vector.ofFn fun k => if h : k.val + 1 < horizon then u[k.val + 1] else 0

/-- `plant_step`, and the actuator reaction of the one-file build. -/
def plantStep (x : Vector K nx) (u : K) : Vector K nx :=
  #v[P.A 0 0 * position x + P.A 0 1 * velocity x + P.B 0 * u,
    P.A 1 0 * position x + P.A 1 1 * velocity x + P.B 1 * u]

end Solver

section Programs

variable {K : Type*} [Field K]

/-- The constants of `mpc-lf-main/mpc.lf`. -/
def LfMain.params : Params K := ⟨0.001, 50, 0.01, 10.0, 1.0, 0.1, 5.0, -5.0, 1e-5⟩

/-- The constants of `mpc_solver.c`. -/
def Split.params : Params K := ⟨0.001, 50, 0.01, 10.0, 1.0, 0.1, 5.0, -5.0, 1e-5⟩

/-- The constants of `mpc_threaded.c`. -/
def Threaded.params : Params K := ⟨0.001, 50, 0.01, 10.0, 1.0, 0.1, 5.0, -5.0, 1e-5⟩

theorem lfMain_params : (LfMain.params : Params K) = Split.params := rfl

theorem threaded_params : (Threaded.params : Params K) = Split.params := rfl

variable [LinearOrder K]

/-- `mpc_solve`: the input to apply, and the static sequence it leaves behind. -/
def Split.mpcSolve (x0 xref : Vector K nx) (u : Vector K horizon) : K × Vector K horizon :=
  let u := descend params x0 xref u
  (applied u, shift u)

end Programs

section Loops

variable {K : Type*}

theorem get_eq {n : ℕ} (u : Vector K n) (k : Fin n) : u.get k = u[k.val] := rfl

theorem get_ofFn {n : ℕ} (f : Fin n → K) : (Vector.ofFn f).get = f := by
  funext k
  simp [get_eq]

theorem get_set (u : Vector K horizon) (k : Fin horizon) (x : K) :
    (u.set k x).get = Function.update u.get k x := by
  funext j
  by_cases hj : j = k
  · subst hj
    simp [get_eq]
  · have hne : k.val ≠ j.val := fun h => hj (Fin.ext h.symm)
    rw [Function.update_of_ne hj]
    simp [get_eq, Vector.getElem_set_ne, hne]

theorem get_injective (u w : Vector K horizon) (h : u.get = w.get) : u = w := by
  apply Vector.ext
  intro k hk
  exact congrFun h ⟨k, hk⟩

theorem ext_state (x y : Vector K nx) (h0 : x[0] = y[0]) (h1 : x[1] = y[1]) : x = y := by
  apply Vector.ext
  intro i hi
  have hlt : i < 2 := hi
  obtain h | h : i = 0 ∨ i = 1 := by omega
  · subst h
    exact h0
  · subst h
    exact h1

variable [Field K]

theorem entry_get (u : Vector K horizon) (k : Fin horizon) : entry u k = u.get k := by
  rw [entry, dif_pos k.isLt]
  rfl

theorem entry_shift (u : Vector K horizon) (k : ℕ) : entry (shift u) k = entry u (k + 1) := by
  unfold entry shift
  by_cases h : k < horizon
  · simp [h]
  · have hsucc : ¬k + 1 < horizon := by omega
    rw [dif_neg h, dif_neg hsucc]

theorem shift_get (u : Vector K horizon) (k : Fin horizon) :
    (shift u).get k = entry u (k.val + 1) := by rw [← entry_get, entry_shift]

theorem replicate_zero_get : (Vector.replicate horizon (0 : K)).get = 0 := by
  funext k
  exact Vector.getElem_replicate ..

theorem shift_zero : shift (Vector.replicate horizon (0 : K)) = Vector.replicate horizon 0 := by
  apply get_injective
  funext k
  rw [shift_get, entry, replicate_zero_get, Pi.zero_apply]
  split_ifs
  · exact Vector.getElem_replicate ..
  · rfl

theorem propagate_eq (P : Params K) (x : Vector K nx) (u : K) : propagate P x u = plantStep P x u := by
  apply ext_state
  · simp [propagate, plantStep, Fin.sum_univ_two]
  · simp [propagate, plantStep, Fin.sum_univ_two]

end Loops

end LFBenchmarks.Mpc
