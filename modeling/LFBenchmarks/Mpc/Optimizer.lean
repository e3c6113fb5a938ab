import LFBenchmarks.Mpc.ClosedLoop

namespace LFBenchmarks.Mpc

section Reactor

variable {K : Type*} [Field K]

/-- The declared state of an instance. The warm start is no part of it: it is a C `static` of the
reaction body in one build and of `mpc_solve` in the other, one array for the whole program, since the
generated reaction is one function that is called with the instance as its argument. -/
structure Optimizer (K : Type*) where
  currentRef : Vector K nx

def Optimizer.initial : Optimizer K := ⟨origin⟩

inductive Optimizer.Kind where
  | xRefIn
  | xCurrent
  | deadline
  deriving DecidableEq

/-- What the runtime executes on an instance: a reaction with the value of its trigger, or the
deadline handler in place of `reaction(x_current)`. -/
inductive Optimizer.Reaction (K : Type*) where
  | xRefIn (xRef : Vector K nx)
  | xCurrent (x : Vector K nx)
  | deadline

def Optimizer.Reaction.kind : Optimizer.Reaction K → Optimizer.Kind
  | .xRefIn _ => .xRefIn
  | .xCurrent _ => .xCurrent
  | .deadline => .deadline

/-- One execution: the state of the instance and the static sequence it leaves, and the value
it sets on `u_apply`. -/
def Optimizer.react
    (solve : Vector K nx → Vector K nx → Vector K horizon → K × Vector K horizon)
    (r : Optimizer.Reaction K) (o : Optimizer K) (uSeq : Vector K horizon) :
    Optimizer K × Vector K horizon × Option K :=
  match r with
  | .xRefIn xRef => ({ o with currentRef := xRef }, uSeq, none)
  | .xCurrent x =>
    let (u, uSeq) := solve x o.currentRef uSeq
    (o, uSeq, some u)
  | .deadline => (o, uSeq, some 0)

end Reactor

section Ticks

variable {K : Type*} [Field K]
variable (solve : Vector K nx → Vector K nx → Vector K horizon → K × Vector K horizon)

/-- The reactions of an instance at a tick, in declaration order. -/
def Optimizer.tickReactions (xRef : Option (Vector K nx)) (x : Vector K nx) (missed : Bool) :
    List (Optimizer.Reaction K) :=
  (xRef.map .xRefIn).toList ++ [if missed then .deadline else .xCurrent x]

def Optimizer.step (s : Optimizer K × Vector K horizon) (r : Optimizer.Reaction K) :
    Optimizer K × Vector K horizon :=
  ((s.1.react solve r s.2).1, (s.1.react solve r s.2).2.1)

/-- A single instance and the static sequence at the start of tick `n`, over the measurements,
references and missed deadlines of the ticks. -/
def Optimizer.run (measured : ℕ → Vector K nx) (refs : ℕ → Option (Vector K nx))
    (missed : ℕ → Bool) : ℕ → Optimizer K × Vector K horizon
  | 0 => (.initial, Vector.replicate horizon 0)
  | n + 1 =>
    (Optimizer.tickReactions (refs n) (measured n) (missed n)).foldl (Optimizer.step solve)
      (Optimizer.run measured refs missed n)

end Ticks

section Loop

variable {K : Type*} [Field K]
variable (solve : Vector K nx → Vector K nx → Vector K horizon → K × Vector K horizon)

/-- The closed loop runs this reactor on what its sensor measures. -/
theorem loop_optimizer (plant : Vector K nx → K → Vector K nx) (noise : ℕ → K)
    (refs : ℕ → Option (Vector K nx)) (missed : ℕ → Bool) (n : ℕ) :
    let s := Loop.run solve plant noise refs missed
    Optimizer.run solve (fun k => ((s k).sensor noise).1) refs missed n =
      (⟨(s n).currentRef⟩, (s n).uSeq) := by
  intro s
  induction n with
  | zero => rfl
  | succ n ih =>
    have hnext : s (n + 1) = (s n).next solve plant noise (refs n) (missed n) := rfl
    rw [Optimizer.run, ih, hnext]
    cases hr : refs n <;> cases hm : missed n <;> rfl

end Loop

section Instances

variable {ι K : Type*} [DecidableEq ι] [Field K]
variable (solve : Vector K nx → Vector K nx → Vector K horizon → K × Vector K horizon)

/-- A program with an Optimizer for each index: the state of each instance, and the one static
sequence. -/
structure Optimizers (ι K : Type*) where
  instances : ι → Optimizer K
  uSeq : Vector K horizon

def Optimizers.initial : Optimizers ι K := ⟨fun _ => .initial, Vector.replicate horizon 0⟩

def Optimizers.react (e : ι × Optimizer.Reaction K) (s : Optimizers ι K) :
    Optimizers ι K × Option K :=
  let (o, uSeq, u) := (s.instances e.1).react solve e.2 s.uSeq
  (⟨Function.update s.instances e.1 o, uSeq⟩, u)

/-- The values instance `i` sets on its `u_apply` while the program executes `l`, reactions of
all instances in the order in which they are executed. -/
def Optimizers.outputs (i : ι) : List (ι × Optimizer.Reaction K) → Optimizers ι K → List K
  | [], _ => []
  | e :: l, s =>
    (if e.1 = i then (s.react solve e).2.toList else []) ++
      Optimizers.outputs i l (s.react solve e).1

def Optimizers.run (l : List (ι × Optimizer.Reaction K)) (s : Optimizers ι K) : Optimizers ι K :=
  l.foldl (fun s e => (s.react solve e).1) s

theorem outputs_append (i : ι) (l₁ l₂ : List (ι × Optimizer.Reaction K)) (s : Optimizers ι K) :
    Optimizers.outputs solve i (l₁ ++ l₂) s =
      Optimizers.outputs solve i l₁ s ++ Optimizers.outputs solve i l₂ (s.run solve l₁) := by
  induction l₁ generalizing s with
  | nil => rfl
  | cons e l₁ ih =>
    simp only [List.cons_append, Optimizers.outputs, ih, List.append_assoc]
    rfl

end Instances

end LFBenchmarks.Mpc
