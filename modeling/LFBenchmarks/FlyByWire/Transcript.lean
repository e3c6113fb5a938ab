import LFBenchmarks.FlyByWire.Console
import LFBenchmarks.FlyByWire.Lockstep

namespace LFBenchmarks.FlyByWire

open ReactionSystem

section Order

variable {V : Type*} [Field V] [LinearOrder V] [FloorRing V]

theorem prints_depends (E : Env V) (tag : Tag) (r : Reaction) (s t : Sys V)
    (h : ∀ c ∈ touches r, c.agree s t) : prints E tag r s = prints E tag r t := by
  cases r with
  | pfcFaultIn i =>
    have hpfc : s.pfc i = t.pfc i := h (.pfc i) (by simp [touches])
    have hfault : s.fault i = t.fault i := h (.fault i) (by simp [touches])
    simp [prints, hpfc, hfault]
  | pfcTimer i =>
    have hpfc : s.pfc i = t.pfc i := h (.pfc i) (by simp [touches])
    simp [prints, hpfc]
  | wesVote =>
    have hwes : s.wes = t.wes := h .wes (by simp [touches])
    simp [prints, hwes]
  | pfcdsStatus =>
    have hstatus : s.status = t.status := h .status (by simp [touches])
    simp [prints, hstatus]
  | _ => rfl

theorem prints_local (E : Env V) (tag : Tag) :
    (reactions E (E.events tag)).PrintsLocally (prints E tag) := by
  apply (systemFootprint E (E.events tag)).printsLocally
  · exact prints_depends E tag
  · intro a b hne hab hba
    exact Set.disjoint_left.mpr (writes_disjoint_touches b a hne.symm
      (Bool.eq_false_iff.mpr hba) (Bool.eq_false_iff.mpr hab))

/-- What the fixed schedule of a tag prints. -/
def printTag (E : Env V) (tag : Tag) (s : Sys V) : List (Printed V) :=
  (reactions E (E.events tag)).outputAll (prints E tag) reactionOrder s.clearPorts

/-- Every schedule of a tag prints the lines of the fixed one. -/
theorem PrintStep.perm {E : Env V} {tag : Tag} {s s' : Sys V} {out : List (Printed V)}
    (h : PrintStep E tag s s' out) : s' = runTag E tag s ∧ out.Perm (printTag E tag s) := by
  obtain ⟨l, hl, rfl, rfl⟩ := h
  have hlaw := reactions_lawful E (E.events tag)
  exact ⟨hlaw.admissible_exec _ l hl, hlaw.output_perm (prints_local E tag) _ l hl⟩

theorem exists_printStep (E : Env V) (tag : Tag) (s : Sys V) :
    ∃ out, PrintStep E tag s (runTag E tag s) out := by
  have hlaw := reactions_lawful E (E.events tag)
  obtain ⟨l, hl⟩ := hlaw.exists_admissible s.clearPorts
  exact ⟨_, l, hl, (hlaw.admissible_exec _ l hl).symm, rfl⟩

end Order

section Blocks

variable {V : Type*} [Field V] [LinearOrder V] [FloorRing V]

theorem outputAll_silent (E : Env V) (ev : Events) (tag : Tag) (l : List Reaction) (s : Sys V)
    (h : ∀ r ∈ l, ∀ s : Sys V, prints E tag r s = []) :
    (reactions E ev).outputAll (prints E tag) l s = [] := by
  induction l generalizing s with
  | nil => rfl
  | cons r l ih =>
    rw [outputAll, h r (by simp), ih _ (fun q hq => h q (by simp [hq]))]
    simp

theorem outputAll_fman (E : Env V) (ev : Events) (tag : Tag) (s : Sys V) :
    (reactions E ev).outputAll (prints E tag) [.fmanStartup, .fmanTimer] s =
      if ev.fmanTimer then (failurePrints tag.seconds).map (.at tag.seconds) else [] := by
  obtain ⟨startup, pfcTimer, fmanTimer, voteTick, shutdown⟩ := ev
  cases startup <;> cases fmanTimer <;> simp [outputAll, reactions, triggered, prints]

/-- The lines of one PFC at one tag. -/
def Pfc.printsAt (E : Env V) (ev : Events) (t : Nat) (i : Fin 3) (fault : Option FaultMsg)
    (p : Pfc V) : List (Printed V) :=
  let p₁ := if ev.startup then p.startup E.fopen else p
  let p₂ := fault.elim p₁ p₁.faultIn
  (if ev.startup then Pfc.startupPrints E.fopen i else []) ++
    (fault.elim [] (fun fault => p₁.faultPrints i fault)).map (.at t) ++
    (if ev.pfcTimer then p₂.timerPrints E.distance i else []).map (.at t)

theorem outputAll_pfc (E : Env V) (ev : Events) (tag : Tag) (i : Fin 3) (s : Sys V) :
    (reactions E ev).outputAll (prints E tag)
        [.pfcStartup i, .pfcFaultIn i, .pfcTimer i, .pfcShutdown i] s =
      (s.pfc i).printsAt E ev tag.seconds i (s.fault i) := by
  obtain ⟨startup, pfcTimer, fmanTimer, voteTick, shutdown⟩ := ev
  cases hf : s.fault i <;> cases startup <;> cases pfcTimer <;>
    simp [outputAll, fire, reactions, triggered, react, prints, Pfc.printsAt, hf]

theorem outputAll_pfcs (E : Env V) (ev : Events) (tag : Tag) (s : Sys V) :
    (reactions E ev).outputAll (prints E tag) ((List.finRange 3).flatMap
        (fun i => [.pfcStartup i, .pfcFaultIn i, .pfcTimer i, .pfcShutdown i])) s =
      (List.finRange 3).flatMap
        (fun i => (s.pfc i).printsAt E ev tag.seconds i (s.fault i)) := by
  simp only [List.finRange, List.ofFn_succ, List.ofFn_zero, List.flatMap_cons, List.flatMap_nil,
    outputAll_append, outputAll_pfc, fireAll_pfc, List.append_nil]
  simp [Function.update]

theorem printTag_tick (E : Env V) (n : Nat) (s : Sys V) (h : AtTick E n s) :
    printTag E (.tick n) s =
      (if E.source.offset ≤ n then (failurePrints n).map (.at n) else []) ++
        (List.finRange 3).flatMap (fun i =>
          (s.pfc i).printsAt E (E.events (.tick n)) n i (E.messages n i)) := by
  have hfaults := h.faultsAt
  have hquiet (l : List Reaction) (hl : ∀ r ∈ l, ∀ s : Sys V, prints E (.tick n) r s = [])
      (t : Sys V) := outputAll_silent E (E.events (.tick n)) (.tick n) l t hl
  unfold printTag reactionOrder
  simp only [outputAll_append, outputAll_fman, outputAll_pfcs, fireAll_append, fireAll_fman,
    fireAll_pfcs, fireAll_trans, fireAll_wesSpeed]
  rw [hquiet _ (by simp [prints]), hquiet _ (by simp [prints])]
  simp only [Sys.clearPorts, hfaults]
  simp [outputAll, reactions, triggered, Env.events, fire, Tag.seconds]

theorem printTag_vote (E : Env V) (n : Nat) (s : Sys V) :
    printTag E (.vote n) s =
      (s.wes.votePrints ++ s.wes.voteTick.2.elim [] Status.prints).map (.at n) := by
  have hprints (i : Fin 3) : (s.pfc i).printsAt E (E.events (.vote n)) n i none = [] := by
    simp [Pfc.printsAt, Env.events]
  have hpfc (i : Fin 3) : (s.pfc i).atTag E (E.events (.vote n)) none = (s.pfc i, none) := by
    simp [Pfc.atTag, Env.events]
  have hfaults : faultsAt E (E.events (.vote n)) s.fman = (s.fman, fun _ => none) := by
    simp [faultsAt, Env.events]
  have hcapture : s.wes.captureAll (fun _ => none) = s.wes := by simp [Wes.captureAll]
  have hquiet (l : List Reaction) (hl : ∀ r ∈ l, ∀ s : Sys V, prints E (.vote n) r s = [])
      (t : Sys V) := outputAll_silent E (E.events (.vote n)) (.vote n) l t hl
  unfold printTag reactionOrder
  simp only [outputAll_append, outputAll_fman, outputAll_pfcs, fireAll_append, fireAll_fman,
    fireAll_pfcs, fireAll_trans, fireAll_wesSpeed]
  rw [hquiet _ (by simp [prints]), hquiet _ (by simp [prints])]
  simp only [Sys.clearPorts, hfaults, hpfc, Tag.seconds, hprints, Option.orElse_eq_orElse,
    Option.orElse_eq_or, Option.or_none, hcapture]
  cases hs : s.wes.voteTick.2 with
  | none => simp [outputAll, reactions, triggered, Env.events, fire, Tag.seconds, prints, react, hs]
  | some st =>
    simp [outputAll, reactions, triggered, Env.events, fire, Tag.seconds, prints, react, hs]

end Blocks

section Runs

variable {V : Type*} [Field V] [LinearOrder V] [FloorRing V]

/-- What holds before the first tag of the tags, the states and the lines, whatever their order,
and is carried on by every tag holds along a transcript. -/
theorem Transcript.induction {E : Env V} {P : Tag → Sys V → Multiset (Printed V) → Prop}
    (hinit : P (.tick 0) .initial 0)
    (hstep : ∀ tag tag' s out, P tag s out → Follows E (runTag E tag s) tag tag' →
      P tag' (runTag E tag s) (out + printTag E tag s))
    {c : Config V} {out : List (Printed V)} (h : Transcript E c out) : P c.tag c.sys out := by
  induction h with
  | init => exact hinit
  | @tag c s' tag' out new _ hprint hnext ih =>
    obtain ⟨rfl, hnew⟩ := hprint.perm
    have hsame : ((out ++ new : List (Printed V)) : Multiset (Printed V)) =
        out + printTag E c.tag c.sys := by
      rw [← Multiset.coe_add, Multiset.coe_eq_coe.mpr hnew]
    rw [hsame]
    exact hstep _ _ _ _ ih (follows_of_nextTag E _ _ _ hnext)

theorem PrintsAll.last {E : Env V} {P : Tag → Sys V → Multiset (Printed V) → Prop}
    (hrun : ∀ c out, Transcript E c out → P c.tag c.sys out) {out : List (Printed V)}
    (h : PrintsAll E out) : ∃ tag s before, P tag s before ∧ nextTag E tag (runTag E tag s) = none ∧
      (out : Multiset (Printed V)) = before + printTag E tag s := by
  obtain ⟨c, before, s', new, hc, hprint, hend, rfl⟩ := h
  obtain ⟨rfl, hnew⟩ := hprint.perm
  refine ⟨c.tag, c.sys, before, hrun c before hc, hend, ?_⟩
  rw [← Multiset.coe_add, Multiset.coe_eq_coe.mpr hnew]

/-- A run prints something and comes to its end. -/
theorem exists_printsAll (E : Env V) : ∃ out, PrintsAll E out := by
  have hrun (c : Config V) (h : Run E c) : ∃ out, Transcript E c out := by
    induction h with
    | refl => exact ⟨[], .init⟩
    | tail _ hstep ih =>
      obtain ⟨out, hout⟩ := ih
      obtain ⟨htag, hnext⟩ := hstep
      obtain ⟨new, hnew⟩ := exists_printStep E _ _
      rw [tagStep_iff] at htag
      subst htag
      exact ⟨out ++ new, hout.tag hnew hnext⟩
  obtain ⟨log, c, s', hc, htag, hend, -⟩ := exists_finish E
  obtain ⟨before, hbefore⟩ := hrun c hc
  rw [tagStep_iff] at htag
  subst htag
  obtain ⟨new, hnew⟩ := exists_printStep E c.tag c.sys
  exact ⟨_, c, before, _, new, hbefore, hnew, hend, rfl⟩

end Runs

end LFBenchmarks.FlyByWire
