import LFBenchmarks.FlyByWire.Determinism
namespace LFBenchmarks.FlyByWire

section TagEffect

variable {V : Type*} [Field V] [LinearOrder V] [FloorRing V]

def Pfc.atTag (E : Env V) (ev : Events) (fault : Option FaultMsg) (p : Pfc V) :
    Pfc V × Option (SpeedMsg V) :=
  let p := if ev.startup then p.startup E.fopen else p
  let p := fault.elim p p.faultIn
  let r := if ev.pfcTimer then p.timer E.distance else (p, none)
  (if ev.shutdown then r.1.shutdown else r.1, r.2)

theorem fireAll_pfc (E : Env V) (ev : Events) (i : Fin 3) (s : Sys V) :
    (reactions E ev).fireAll [.pfcStartup i, .pfcFaultIn i, .pfcTimer i, .pfcShutdown i] s =
      let r := (s.pfc i).atTag E ev (s.fault i)
      { s with pfc := Function.update s.pfc i r.1,
               speedOut := Function.update s.speedOut i (r.2 <|> s.speedOut i) } := by
  obtain ⟨startup, pfcTimer, fmanTimer, voteTick, shutdown⟩ := ev
  cases hf : s.fault i <;> cases startup <;> cases pfcTimer <;> cases shutdown <;>
    simp [ReactionSystem.fire, reactions, triggered, react, Pfc.atTag, hf]

def faultsAt (E : Env V) (ev : Events) (calls : Nat) : Nat × (Fin 3 → Option FaultMsg) :=
  let calls := if ev.startup then 0 else calls
  if ev.fmanTimer then E.source.react calls else (calls, fun _ => none)

theorem fireAll_fman (E : Env V) (ev : Events) (s : Sys V) :
    (reactions E ev).fireAll [.fmanStartup, .fmanTimer] s =
      let r := faultsAt E ev s.fman
      { s with fman := r.1, fault := fun i => r.2 i <|> s.fault i } := by
  obtain ⟨startup, pfcTimer, fmanTimer, voteTick, shutdown⟩ := ev
  cases startup <;> cases fmanTimer <;>
    simp [ReactionSystem.fire, reactions, triggered, react, faultsAt]

theorem update_each {α : Type*} (f g : Fin 3 → α) :
    Function.update (Function.update (Function.update f 0 (g 0)) 1 (g 1)) 2 (g 2) = g := by
  funext i
  fin_cases i <;> simp [Function.update]

theorem fireAll_pfcs (E : Env V) (ev : Events) (s : Sys V) :
    (reactions E ev).fireAll ((List.finRange 3).flatMap
        (fun i => [.pfcStartup i, .pfcFaultIn i, .pfcTimer i, .pfcShutdown i])) s =
      let r := fun i => (s.pfc i).atTag E ev (s.fault i)
      { s with pfc := fun i => (r i).1, speedOut := fun i => (r i).2 <|> s.speedOut i } := by
  simp only [List.finRange, List.ofFn_succ, List.ofFn_zero, List.flatMap_cons, List.flatMap_nil,
    ReactionSystem.fireAll_append, fireAll_pfc, List.append_nil]
  congr 1
  · exact update_each s.pfc (fun i => ((s.pfc i).atTag E ev (s.fault i)).1)
  · exact update_each s.speedOut
      (fun i => ((s.pfc i).atTag E ev (s.fault i)).2 <|> s.speedOut i)

def Wes.captureAll (msgs : Fin 3 → Option (SpeedMsg V)) (w : Wes V) : Wes V :=
  { w with lastS := fun i => (msgs i).getD (w.lastS i), hasS := fun i => (msgs i).isSome || w.hasS i }

theorem fire_transSpeed (E : Env V) (ev : Events) (i : Fin 3) (s : Sys V) :
    (reactions E ev).fire (.transSpeed i) s =
      { s with transOut := Function.update s.transOut i (s.speedOut i <|> s.transOut i) } := by
  cases h : s.speedOut i <;> simp [ReactionSystem.fire, reactions, triggered, react, h]

theorem fireAll_trans (E : Env V) (ev : Events) (s : Sys V) :
    (reactions E ev).fireAll ((List.finRange 3).map .transSpeed) s =
      { s with transOut := fun i => s.speedOut i <|> s.transOut i } := by
  simp only [List.finRange, List.ofFn_succ, List.ofFn_zero, List.map_cons, List.map_nil,
    ReactionSystem.fireAll_cons, ReactionSystem.fireAll_nil, fire_transSpeed]
  congr 1
  exact update_each s.transOut (fun i => s.speedOut i <|> s.transOut i)

theorem fire_wesSpeed (E : Env V) (ev : Events) (i : Fin 3) (s : Sys V) :
    (reactions E ev).fire (.wesSpeed i) s =
      { s with wes := { s.wes with
          lastS := Function.update s.wes.lastS i ((s.transOut i).getD (s.wes.lastS i))
          hasS := Function.update s.wes.hasS i ((s.transOut i).isSome || s.wes.hasS i) } } := by
  cases h : s.transOut i <;>
    simp [ReactionSystem.fire, reactions, triggered, react, Wes.capture, h]

theorem fireAll_wesSpeed (E : Env V) (ev : Events) (s : Sys V) :
    (reactions E ev).fireAll ((List.finRange 3).map .wesSpeed) s =
      { s with wes := s.wes.captureAll s.transOut } := by
  simp only [List.finRange, List.ofFn_succ, List.ofFn_zero, List.map_cons, List.map_nil,
    ReactionSystem.fireAll_cons, ReactionSystem.fireAll_nil, fire_wesSpeed, Wes.captureAll]
  congr 2
  · exact update_each s.wes.lastS (fun i => (s.transOut i).getD (s.wes.lastS i))
  · exact update_each s.wes.hasS (fun i => (s.transOut i).isSome || s.wes.hasS i)

theorem fireAll_vote (E : Env V) (ev : Events) (s : Sys V) :
    (reactions E ev).fireAll [.wesVote, .pfcdsStatus] s =
      let r := if ev.voteTick then s.wes.voteTick else (s.wes, none)
      let status := r.2 <|> s.status
      { s with wes := r.1, status := status,
               stopRequested := s.stopRequested || status.any Status.requestsStop } := by
  obtain ⟨startup, pfcTimer, fmanTimer, voteTick, shutdown⟩ := ev
  obtain ⟨pfc, wes, fman, stopRequested, fault, speedOut, transOut, status⟩ := s
  cases status <;> cases voteTick <;> cases hv : wes.voteTick.2 <;>
    simp [ReactionSystem.fire, reactions, triggered, react, hv]

/-- The effect of one tag on the whole system. -/
theorem runTag_eq (E : Env V) (tag : Tag) (s : Sys V) :
    runTag E tag s =
      let ev := E.events tag
      let faults := faultsAt E ev s.fman
      let r := fun i => (s.pfc i).atTag E ev (faults.2 i)
      let wes := s.wes.captureAll (fun i => (r i).2)
      let vote := if ev.voteTick then wes.voteTick else (wes, none)
      { pfc := fun i => (r i).1, wes := vote.1, fman := faults.1,
        stopRequested := s.stopRequested || vote.2.any Status.requestsStop,
        fault := faults.2, speedOut := fun i => (r i).2, transOut := fun i => (r i).2,
        status := vote.2 } := by
  simp only [runTag, reactionOrder, ReactionSystem.fireAll_append, fireAll_fman, fireAll_pfcs,
    fireAll_trans, fireAll_wesSpeed, fireAll_vote, Sys.clearPorts, Option.orElse_eq_orElse,
    Option.orElse_eq_or, Option.or_none]

end TagEffect

end LFBenchmarks.FlyByWire
