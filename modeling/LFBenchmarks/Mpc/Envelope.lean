import LFBenchmarks.Mpc.Equilibrium
import LFBenchmarks.Mpc.Threaded

namespace LFBenchmarks.Mpc

open Split (params)
open DoubleIntegrator (Envelope)

section Plant

variable {K : Type*} [Field K] [LinearOrder K] [IsStrictOrderedRing K]

def Admissible (u : K) : Prop := (params : Params K).uMin ≤ u ∧ u ≤ (params : Params K).uMax

theorem admissible_zero : Admissible (0 : K) := by
  unfold Admissible
  rw [params_eq]
  constructor
  · norm_num
  · norm_num

theorem envelope_plantStep (n : ℕ) (x : Vector K nx) (u : K)
    (h : Envelope (params : Params K).dt 5 n (pair x)) (hu : Admissible u) :
    Envelope (params : Params K).dt 5 (n + 1) (pair (plantStep params x u)) := by
  have habs : |u| ≤ 5 := by
    unfold Admissible at hu
    rw [params_eq] at hu
    exact abs_le.mpr hu
  have hdt : 0 ≤ (params : Params K).dt := by
    rw [params_eq]
    norm_num
  rw [plantStep_pair]
  exact h.step hdt u habs

theorem envelope_rest : Envelope (params : Params K).dt 5 0 (pair #v[0, 0]) :=
  DoubleIntegrator.envelope_zero _ _

end Plant

section LinguaFranca

variable {K : Type*} [Field K] [LinearOrder K] [IsStrictOrderedRing K]

structure Loop.Safe (n : ℕ) (s : Loop K) : Prop where
  warmStart : InBox params s.uSeq
  applied : Admissible s.uApply
  envelope : Envelope (params : Params K).dt 5 n (pair s.plantX)

theorem Loop.safe_initial : Loop.Safe 0 (Loop.initial : Loop K) :=
  ⟨zero_inBox, admissible_zero, envelope_rest⟩

theorem Loop.Safe.next {n : ℕ} {s : Loop K} (h : Loop.Safe n s) (noise : ℕ → K)
    (xRef : Option (Vector K nx)) (missed : Bool) :
    Loop.Safe (n + 1) (LfMain.next noise xRef missed s) := by
  have href : ∀ t : Loop K, Loop.Safe n t → Loop.Safe n (xRef.elim t t.xRefIn) := by
    intro t ht
    cases xRef with
    | none => exact ht
    | some r => exact ⟨ht.warmStart, ht.applied, ht.envelope⟩
  have hactuate : ∀ t : Loop K, Loop.Safe n t → Loop.Safe (n + 1) (t.actuate LfMain.plant) := by
    intro t ht
    exact ⟨ht.warmStart, ht.applied, envelope_plantStep n t.plantX t.uApply ht.envelope ht.applied⟩
  have hsolve : ∀ (t : Loop K) (x : Vector K nx), Loop.Safe n t →
      Loop.Safe n (t.xCurrent LfMain.solve x) := by
    intro t x ht
    have hplan : InBox params (descend LfMain.params x t.currentRef t.uSeq) := by
      rw [lfMain_params]
      exact descend_inBox x t.currentRef t.uSeq ht.warmStart
    exact ⟨shift_inBox _ hplan, hplan 0, ht.envelope⟩
  have hsensor : Loop.Safe n (s.sensor noise).2 := ⟨h.warmStart, h.applied, h.envelope⟩
  apply hactuate
  cases missed with
  | true =>
    have hheld := href _ hsensor
    exact ⟨hheld.warmStart, admissible_zero, hheld.envelope⟩
  | false => exact hsolve _ _ (href _ hsensor)

theorem LfMain.run_safe (noise : ℕ → K) (refs : ℕ → Option (Vector K nx)) (missed : ℕ → Bool)
    (n : ℕ) : Loop.Safe n (LfMain.run noise refs missed n) := by
  induction n with
  | zero => exact Loop.safe_initial
  | succ n ih => exact ih.next noise (refs n) (missed n)

end LinguaFranca

section Threads

variable {K : Type*} [Field K] [LinearOrder K] [IsStrictOrderedRing K]

/-- What holds after `n` plant steps of the threaded program: its own sequence, the published
one, the applied input and the one the actuator has taken are in the box. -/
structure Threaded.Safe (n : ℕ) (s : Threaded.State K) : Prop where
  warmStart : InBox params s.uSeq
  published : InBox params s.shared.uSequence
  applied : Admissible s.shared.uApplied
  taken : ∀ u, s.actuator = .plant u → Admissible u
  envelope : Envelope (params : Params K).dt 5 n (pair s.plantX)

theorem Threaded.safe_initial (pending : List (Vector K nx)) :
    Threaded.Safe 0 (Threaded.State.initial pending) :=
  ⟨zero_inBox, zero_inBox, admissible_zero, (fun _ h => nomatch h), envelope_rest⟩

theorem Threaded.Safe.step {n : ℕ} {s s' : Threaded.State K} (h : Threaded.Safe n s)
    (noise : ℕ → K) (a : Threaded.Action) (hstep : Threaded.step noise a s = some s') :
    Threaded.Safe (if a = .plant then n + 1 else n) s' := by
  obtain ⟨hwarm, hpub, happ, htaken, henv⟩ := h
  cases Threaded.moves_of_step noise a hstep with
  | sense | endSensor | wait | endPrediction | take | wakeup | propagate | endOptimizer | snapshot
  | reference => exact ⟨hwarm, hpub, happ, htaken, henv⟩
  | solve x0 xref =>
    have hplan : InBox params (descend Threaded.params x0 xref s.uSeq) := by
      rw [threaded_params]
      exact descend_inBox x0 xref s.uSeq hwarm
    exact ⟨hplan, hpub, happ, htaken, henv⟩
  | publish => exact ⟨hwarm, hwarm, happ, htaken, henv⟩
  | shift => exact ⟨shift_inBox s.uSeq hwarm, hpub, happ, htaken, henv⟩
  | endActuator => exact ⟨hwarm, hpub, happ, (fun _ hu => nomatch hu), henv⟩
  | apply =>
    refine ⟨hwarm, hpub, hpub 0, fun u hu => ?_, henv⟩
    cases hu
    exact hpub 0
  | plant u hat =>
    have hplant := envelope_plantStep n s.plantX u henv (htaken u hat)
    rw [← threaded_params] at hplant
    exact ⟨hwarm, hpub, happ, (fun _ hu => nomatch hu), hplant⟩

/-- Any interleaving, counted by its plant steps. -/
theorem Threaded.Safe.run {n : ℕ} {s s' : Threaded.State K} (h : Threaded.Safe n s)
    (noise : ℕ → K) (trace : List Threaded.Action) (hrun : Threaded.run noise trace s = some s') :
    Threaded.Safe (n + trace.count .plant) s' := by
  refine Threaded.run_induction (P := fun l t => Threaded.Safe (n + l.count .plant) t) noise s h
    (fun l a t t' ht hstep => ?_) trace s' hrun
  have hsafe := ht.step noise a hstep
  rw [List.count_append, List.count_singleton]
  by_cases ha : a = .plant
  · rw [if_pos ha] at hsafe
    simpa [ha, Nat.add_assoc] using hsafe
  · rw [if_neg ha] at hsafe
    simpa [ha] using hsafe

end Threads

section Programs

variable {K : Type*} [Field K] [LinearOrder K] [IsStrictOrderedRing K]

/-- No noise, reference, missed deadline or interleaving drives a plan or an applied input out of
`[U_MIN, U_MAX]`, or the mass out of what that allows. -/
theorem safety_envelope (noise : ℕ → K) :
    (∀ (refs : ℕ → Option (Vector K nx)) (missed : ℕ → Bool) (n : ℕ),
      ∀ s ∈ [LfMain.run noise refs missed n, Split.run noise refs missed n],
        InBox params s.uSeq ∧ Admissible s.uApply ∧
          |s.plantX[1]| ≤ 5 * 0.001 * n ∧ |s.plantX[0]| ≤ 5 / 2 * (0.001 * n) ^ 2) ∧
    (∀ (pending : List (Vector K nx)) (trace : List Threaded.Action) (s : Threaded.State K),
      Threaded.run noise trace (.initial pending) = some s →
        let n := trace.count .plant
        InBox params s.uSeq ∧ InBox params s.shared.uSequence ∧ Admissible s.shared.uApplied ∧
          (∀ u, s.actuator = .plant u → Admissible u) ∧
          |s.plantX[1]| ≤ 5 * 0.001 * n ∧ |s.plantX[0]| ≤ 5 / 2 * (0.001 * n) ^ 2) := by
  constructor
  · intro refs missed n s hs
    have hsafe : Loop.Safe n s := by
      rw [split_run] at hs
      simp only [List.mem_cons, List.not_mem_nil, or_false, or_self] at hs
      rw [hs]
      exact LfMain.run_safe noise refs missed n
    exact ⟨hsafe.warmStart, hsafe.applied, hsafe.envelope.velocity, hsafe.envelope.position⟩
  · intro pending trace s hrun n
    have hsafe := (Threaded.safe_initial pending).run noise trace hrun
    rw [zero_add] at hsafe
    exact ⟨hsafe.warmStart, hsafe.published, hsafe.applied, hsafe.taken, hsafe.envelope.velocity,
      hsafe.envelope.position⟩

/-- One tick towards a reference a unit to the left. -/
theorem safety_envelope_leftwards :
    let refs : ℕ → Option (Vector ℚ nx) := fun n => if n = 0 then some #v[-1, 0] else none
    let s := LfMain.run (fun _ => 0) refs (fun _ => false) 1
    s.uApply < 0 ∧ Admissible s.uApply ∧ InBox params s.uSeq ∧
      |s.plantX[1]| ≤ 5 * 0.001 * (1 : ℕ) ∧ |s.plantX[0]| ≤ 5 / 2 * (0.001 * (1 : ℕ)) ^ 2 := by
  intro refs s
  obtain ⟨hbuilds, -⟩ := safety_envelope (fun _ => (0 : ℚ))
  obtain ⟨hplan, happlied, hvelocity, hposition⟩ :=
    hbuilds refs (fun _ => false) 1 s List.mem_cons_self
  have hneg : (pass (origin : Vector ℚ nx) #v[-1, 0])^[50] (Vector.replicate horizon 0).get 0 < 0 :=
    pass_neg rfl rfl (by simp [origin]) (fun j => by simp [get_eq, origin]) 0 (by simp [get_eq])
  rw [← descend_get] at hneg
  have hinput : s.uApply = applied (descend params origin #v[-1, 0] (Vector.replicate horizon 0)) := by
    change applied (descend LfMain.params #v[0 + 0, 0 + 0 * 0.5] #v[-1, 0] _) = _
    rw [lfMain_params, add_zero, zero_mul, add_zero]
    rfl
  exact ⟨hinput ▸ hneg, happlied, hplan, hvelocity, hposition⟩

end Programs

end LFBenchmarks.Mpc
