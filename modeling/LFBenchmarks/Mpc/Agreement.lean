import LFBenchmarks.Mpc.ClosedLoop
import LFBenchmarks.Mpc.Threaded

namespace LFBenchmarks.Mpc

section Rounds

variable {K : Type*} [Field K]

def Threaded.round (xRef : Option (Vector K nx)) : List Threaded.Action :=
  (if xRef.isSome then [.reference] else []) ++
    [.sensor, .snapshot, .solve, .publish, .shift, .apply, .plant]

def Threaded.schedule (refs : ℕ → Option (Vector K nx)) (n : ℕ) : List Threaded.Action :=
  (List.range n).flatMap (fun k => Threaded.round (refs k))

structure Threaded.Between (k : ℕ) (pending : List (Vector K nx)) (s : Threaded.State K) :
    Prop where
  tick : s.shared.tick = k
  running : s.shared.running = true
  sensorExited : s.sensorExited = false
  optimizer : s.optimizer = .snapshot
  actuator : s.actuator = .apply
  pending : s.pending = pending

/-- The threads between two rounds hold what the reactors hold between two ticks. -/
structure Agree (a : Loop K) (s : Threaded.State K) : Prop where
  tick : a.tick = s.shared.tick
  plantX : a.plantX = s.plantX
  currentRef : a.currentRef = s.shared.xReference
  uSeq : a.uSeq = s.uSeq
  uApply : a.uApply = s.shared.uApplied

theorem agree_initial (pending : List (Vector K nx)) :
    Agree (Loop.initial : Loop K) (Threaded.State.initial pending) := ⟨rfl, rfl, rfl, rfl, rfl⟩

variable [LinearOrder K]

theorem Threaded.reference_round (noise : ℕ → K) (k : ℕ) (xRef : Option (Vector K nx))
    (rest : List (Vector K nx)) (s : Threaded.State K)
    (h : Threaded.Between k (xRef.toList ++ rest) s) :
    ∃ t, Threaded.run noise (if xRef.isSome then [.reference] else []) s = some t ∧
      Threaded.Between k rest t ∧
      ∀ a : Loop K, Agree a s → Agree (xRef.elim a a.xRefIn) t := by
  cases xRef with
  | none => exact ⟨s, rfl, h, fun _ ha => ha⟩
  | some r =>
    have hpending : s.pending = r :: rest := h.pending
    refine ⟨{ s with shared := { s.shared with xReference := r }, pending := rest }, ?_,
      ⟨h.tick, h.running, h.sensorExited, h.optimizer, h.actuator, rfl⟩,
      fun a ha => ⟨ha.tick, ha.plantX, rfl, ha.uSeq, ha.uApply⟩⟩
    rw [Option.isSome_some, if_pos rfl, Threaded.run_cons]
    simp only [Threaded.step, hpending, Option.bind_some, Threaded.run_nil]

theorem Threaded.control_round (noise : ℕ → K) (k : ℕ) (rest : List (Vector K nx))
    (s : Threaded.State K) (h : Threaded.Between k rest s) (hk : k + 1 < Threaded.maxTicks) :
    ∃ t, Threaded.run noise [.sensor, .snapshot, .solve, .publish, .shift, .apply, .plant] s =
        some t ∧
      Threaded.Between (k + 1) rest t ∧
      ∀ a : Loop K, Agree a s → Agree (a.next LfMain.solve LfMain.plant noise none false) t := by
  obtain ⟨⟨xCurrent, xReference, uSequence, uApplied, newMeasurement, newSolution, running, tick⟩,
    plantX, sensorExited, prediction, xPred, optimizer, uSeq, actuator, pending⟩ := s
  obtain ⟨htick, hrunning, hsensor, hoptimizer, hactuator, hpending⟩ := h
  dsimp only at htick hrunning hsensor hoptimizer hactuator hpending
  subst htick hrunning hsensor hoptimizer hactuator hpending
  have hgo : ¬Threaded.maxTicks ≤ tick + 1 := by omega
  let x := #v[plantX[0] + noise tick, plantX[1] + noise tick * 0.5]
  let plan := descend Threaded.params x xReference uSeq
  refine ⟨⟨⟨x, xReference, plan, plan[0], true, true, true, tick + 1⟩, plantStep params plantX plan[0],
    false, prediction.signal, xPred, .snapshot, shift plan, .apply, pending⟩, ?_,
    ⟨rfl, rfl, rfl, rfl, rfl, rfl⟩, fun a ha => ?_⟩
  · simp only [Threaded.run_cons, Threaded.step, Threaded.State.sense, if_neg hgo, if_true,
      Bool.false_eq_true, if_false, Bool.not_true, Option.bind_some, Threaded.run_nil]
    rfl
  · obtain ⟨htick, hplant, href, huSeq, huApply⟩ := ha
    dsimp only at htick hplant href huSeq huApply
    subst htick hplant href huSeq huApply
    exact ⟨rfl, rfl, rfl, rfl, rfl⟩

theorem Threaded.round_agree (noise : ℕ → K) (k : ℕ) (xRef : Option (Vector K nx))
    (rest : List (Vector K nx)) (s : Threaded.State K)
    (h : Threaded.Between k (xRef.toList ++ rest) s) (hk : k + 1 < Threaded.maxTicks) :
    ∃ t, Threaded.run noise (Threaded.round xRef) s = some t ∧ Threaded.Between (k + 1) rest t ∧
      ∀ a : Loop K, Agree a s → Agree (LfMain.next noise xRef false a) t := by
  obtain ⟨m, hm, hbetween, href⟩ := Threaded.reference_round noise k xRef rest s h
  obtain ⟨t, ht, hdone, hcontrol⟩ := Threaded.control_round noise k rest m hbetween hk
  refine ⟨t, ?_, hdone, fun a ha => ?_⟩
  · rw [Threaded.round, Threaded.run_append, hm]
    exact ht
  · have hnext : LfMain.next noise xRef false a =
        (xRef.elim a a.xRefIn).next LfMain.solve LfMain.plant noise none false := by
      cases xRef with
      | none => rfl
      | some r => rfl
    rw [hnext]
    exact hcontrol _ (href a ha)

theorem Threaded.schedule_agree (noise : ℕ → K) (refs : ℕ → Option (Vector K nx)) (n : ℕ)
    (hn : n < Threaded.maxTicks) (rest : List (Vector K nx)) :
    ∃ s, Threaded.run noise (Threaded.schedule refs n)
        (.initial ((List.range n).filterMap refs ++ rest)) = some s ∧
      Threaded.Between n rest s ∧ Agree (LfMain.run noise refs (fun _ => false) n) s := by
  induction n generalizing rest with
  | zero => exact ⟨_, rfl, ⟨rfl, rfl, rfl, rfl, rfl, rfl⟩, agree_initial rest⟩
  | succ n ih =>
    have hpending : (List.range (n + 1)).filterMap refs ++ rest =
        (List.range n).filterMap refs ++ ((refs n).toList ++ rest) := by
      rw [List.range_succ, List.filterMap_append, List.append_assoc]
      cases hr : refs n <;> simp [hr]
    have hschedule : Threaded.schedule refs (n + 1) =
        Threaded.schedule refs n ++ Threaded.round (refs n) := by
      simp [Threaded.schedule, List.range_succ]
    obtain ⟨s, hs, hbetween, hagree⟩ := ih (by omega) ((refs n).toList ++ rest)
    obtain ⟨t, ht, hdone, hround⟩ := Threaded.round_agree noise n (refs n) rest s hbetween hn
    refine ⟨t, ?_, hdone, hround _ hagree⟩
    rw [hpending, hschedule, Threaded.run_append, hs]
    exact ht

end Rounds

section Programs

variable {K : Type*} [Field K] [LinearOrder K] [IsStrictOrderedRing K]

/-- The three programs run the same closed loop, with setpoints beyond the `n` rounds pending or
not. -/
theorem closed_loops_agree (noise : ℕ → K) (refs : ℕ → Option (Vector K nx)) (n : ℕ)
    (hn : n < Threaded.maxTicks) (rest : List (Vector K nx)) :
    let lf := LfMain.run noise refs (fun _ => false) n
    let split := Split.run noise refs (fun _ => false) n
    ∃ s, Threaded.run noise (Threaded.schedule refs n)
        (.initial ((List.range n).filterMap refs ++ rest)) = some s ∧
      (lf.plantX = split.plantX ∧ split.plantX = s.plantX) ∧
      (lf.uApply = split.uApply ∧ split.uApply = s.shared.uApplied) ∧
      (lf.uSeq = split.uSeq ∧ split.uSeq = s.uSeq) := by
  intro lf split
  have hsplit : split = lf := by
    simp only [split, lf, split_run]
  obtain ⟨s, hs, -, hagree⟩ := Threaded.schedule_agree noise refs n hn rest
  rw [hsplit]
  exact ⟨s, hs, ⟨rfl, hagree.plantX⟩, ⟨rfl, hagree.uApply⟩, ⟨rfl, hagree.uSeq⟩⟩

theorem closed_loops_agree_two :
    let refs : ℕ → Option (Vector ℚ nx) := fun k => if k = 0 then some #v[1, 0] else none
    ∃ s, Threaded.run (fun _ => 0) (Threaded.schedule refs 2)
        (.initial ((List.range 2).filterMap refs ++ [#v[0.5, 0]])) = some s ∧
      (LfMain.run (fun _ => 0) refs (fun _ => false) 2).plantX = s.plantX := by
  intro refs
  obtain ⟨s, hs, ⟨hplit, hplant⟩, -, -⟩ :=
    closed_loops_agree (fun _ => 0) refs 2 (by decide) [#v[0.5, 0]]
  exact ⟨s, hs, hplit.trans hplant⟩

end Programs

end LFBenchmarks.Mpc
