import LFBenchmarks.Federated.Grants

namespace LFBenchmarks.Federated

open ReactorC

variable {n : Nat} {K : Type}

section Kept

/-- Reading `backlog` in order leaves the next event recorded no later than `tag`, and confirms nothing
from there on. A message in transit to the federate holds the next event back until it is confirmed. -/
def Kept (tag : Tag) : List Tag → List (ToRti K) → Prop
  | _, [] => True
  | inTransit, .nextEventTag next :: backlog =>
    (next ≤ tag ∨ ∃ m ∈ inTransit, m ≤ tag) ∧ Kept tag inTransit backlog
  | inTransit, .latestTagConfirmed completed :: backlog =>
    completed < tag ∧ Kept tag (inTransit.filter fun m => completed < m) backlog
  | inTransit, .taggedMessage _ _ :: backlog => Kept tag inTransit backlog
  | inTransit, .resign :: backlog => Kept tag inTransit backlog

theorem Kept.mono {tag tag' : Tag} {inTransit inTransit' : List Tag} {backlog : List (ToRti K)}
    (h : Kept tag inTransit backlog) (htag : tag ≤ tag') (hsub : inTransit ⊆ inTransit') :
    Kept tag' inTransit' backlog := by
  induction backlog generalizing inTransit inTransit' with
  | nil => trivial
  | cons m backlog ih =>
    cases m with
    | nextEventTag next =>
      refine ⟨?_, ih h.2 hsub⟩
      rcases h.1 with hnext | ⟨m, hm, hle⟩
      · exact .inl (hnext.trans htag)
      · exact .inr ⟨m, hsub hm, hle.trans htag⟩
    | latestTagConfirmed completed =>
      refine ⟨h.1.trans_le htag, ih h.2 ?_⟩
      exact fun m hm => by simp_all [List.mem_filter, List.subset_def]
    | taggedMessage port t => exact ih h hsub
    | resign => exact ih h hsub

/-- A message in transit keeps everything from its own tag on. -/
theorem kept_of_mem {tag : Tag} {inTransit : List Tag} {backlog : List (ToRti K)}
    (hmem : tag ∈ inTransit) (h : ∀ completed, .latestTagConfirmed completed ∈ backlog → completed < tag) :
    Kept tag inTransit backlog := by
  induction backlog generalizing inTransit with
  | nil => trivial
  | cons m backlog ih =>
    have htail := fun completed hc => h completed (List.mem_cons_of_mem _ hc)
    cases m with
    | nextEventTag next => exact ⟨.inr ⟨tag, hmem, le_rfl⟩, ih hmem htail⟩
    | latestTagConfirmed completed =>
      have hlt := h completed List.mem_cons_self
      exact ⟨hlt, ih (List.mem_filter.mpr ⟨hmem, decide_eq_true hlt⟩) htail⟩
    | taggedMessage port t => exact ih hmem htail
    | resign => exact ih hmem htail

/-- One more thing written. -/
theorem Kept.append {tag : Tag} {inTransit : List Tag} {backlog : List (ToRti K)} {m : ToRti K}
    (h : Kept tag inTransit backlog)
    (hnext : ∀ next, m = .nextEventTag next → next ≤ tag ∨ ∃ t ∈ inTransit, t ≤ tag ∧
      ∀ completed, .latestTagConfirmed completed ∈ backlog → completed < t)
    (hcompleted : ∀ completed, m = .latestTagConfirmed completed → completed < tag) :
    Kept tag inTransit (backlog ++ [m]) := by
  induction backlog generalizing inTransit with
  | nil =>
    cases m with
    | nextEventTag next =>
      refine ⟨(hnext next rfl).imp id ?_, trivial⟩
      rintro ⟨t, ht, hle, -⟩
      exact ⟨t, ht, hle⟩
    | latestTagConfirmed completed => exact ⟨hcompleted completed rfl, trivial⟩
    | taggedMessage port t => trivial
    | resign => trivial
  | cons head backlog ih =>
    have htail : ∀ next, m = .nextEventTag next → next ≤ tag ∨ ∃ t ∈ inTransit, t ≤ tag ∧
        ∀ completed, .latestTagConfirmed completed ∈ backlog → completed < t := by
      intro next hm
      refine (hnext next hm).imp id ?_
      rintro ⟨t, ht, hle, hlt⟩
      exact ⟨t, ht, hle, fun completed hc => hlt completed (List.mem_cons_of_mem _ hc)⟩
    cases head with
    | nextEventTag next => exact ⟨h.1, ih h.2 htail⟩
    | latestTagConfirmed completed =>
      refine ⟨h.1, ih h.2 fun next hm => ?_⟩
      refine (hnext next hm).imp id ?_
      rintro ⟨t, ht, hle, hlt⟩
      refine ⟨t, List.mem_filter.mpr ⟨ht, decide_eq_true (hlt completed List.mem_cons_self)⟩, hle, ?_⟩
      exact fun completed hc => hlt completed (List.mem_cons_of_mem _ hc)
    | taggedMessage port t => exact ih h htail
    | resign => exact ih h htail

end Kept

section Promise

/-- The infrastructure allows for an event at `tag`, and will when it has read `backlog`. -/
structure Promise (node : SchedulingNode) (inTransit : List Tag) (backlog : List (ToRti K))
    (tag : Tag) : Prop where
  nextEvent : node.nextEvent ≤ tag
  completed : node.completed < tag
  kept : Kept tag inTransit backlog

variable {node : SchedulingNode} {inTransit : List Tag} {backlog : List (ToRti K)} {tag : Tag}

theorem Promise.mono {tag' : Tag} (h : Promise node inTransit backlog tag) (htag : tag ≤ tag') :
    Promise node inTransit backlog tag' :=
  ⟨h.nextEvent.trans htag, h.completed.trans_le htag, h.kept.mono htag (List.Subset.refl _)⟩

end Promise

variable (F : Federation n K) (i : Fin n)

section Invariant

def Phase.Alive : Phase → Prop
  | .stopped | .resigned | .closed => False
  | _ => True

/-- The tags of the events that a federate has, or will have once it has read its messages. -/
inductive Pending (f : Federate K) (inbox : List (ToFederate K)) : Tag → Prop
  | event {e : Option K × Tag} : e ∈ f.eventQueue → Pending f inbox e.2
  | current : f.phase = .executing → Pending f inbox f.currentTag
  | stop : (f.executionStarted = true → f.currentTag < F.stopTag i) → Pending f inbox (F.stopTag i)
  | start : f.executionStarted = false → F.reactsAtStart i = true → Pending f inbox F.startTag
  | message {port : K} {tag : Tag} : .taggedMessage port tag ∈ inbox → Pending f inbox tag

/-- The tag that a federate asks for. -/
def requested (f : Federate K) : Tag :=
  if f.executionStarted then getNextEventTag F i f else F.startTag

/-- What holds of a federate by itself. -/
structure Valid (f : Federate K) : Prop where
  current : F.InRange f.currentTag
  fresh : f.executionStarted = false → f.currentTag = F.startTag ∧ f.phase ≠ .executing ∧ f.phase.Alive
  atStart : F.startTag ∈ F.initialEvents i → f.executionStarted = false → (none, F.startTag) ∈ f.eventQueue
  later : f.executionStarted = true → ∀ e ∈ f.eventQueue, f.currentTag < e.2
  awaiting : ∀ tag, f.phase = .awaiting tag → F.immediateUpstreams i ≠ [] ∧ requested F i f ≤ tag
  started_le : F.immediateUpstreams i ≠ [] → f.executionStarted = true → f.currentTag ≤ f.lastTAG
  granted_le : F.immediateUpstreams i ≠ [] → f.phase = .granted → requested F i f ≤ f.lastTAG
  atStop : f.phase = .stopped ∨ f.phase = .resigned → f.executionStarted = true ∧ F.stopTag i ≤ f.currentTag

/-- What holds between a federate and what the infrastructure has written to it. -/
structure Granted (f : Federate K) (node : SchedulingNode) (inTransit : List Tag)
    (inbox : List (ToFederate K)) : Prop where
  lastTAG_le : F.immediateUpstreams i ≠ [] → f.lastTAG ≤ node.lastGranted
  tag_le : F.immediateUpstreams i ≠ [] → ∀ tag, .tagAdvanceGrant tag ∈ inbox → tag ≤ node.lastGranted
  order : inbox.Pairwise fun a b =>
    ∀ granted port tag, a = .tagAdvanceGrant granted → b = .taggedMessage port tag → granted < tag
  message : ∀ port tag, .taggedMessage port tag ∈ inbox → F.immediateUpstreams i ≠ [] ∧
    F.InRange tag ∧ f.lastTAG < tag ∧ tag ∈ inTransit

/-- What holds between a federate and what it has written, as far as it is not read. -/
structure Written (f : Federate K) (node : SchedulingNode) (inTransit : List Tag)
    (backlog : List (ToRti K)) : Prop where
  nextEvent : node.nextEvent = neverTag ∨ F.Announced node.nextEvent
  completed : node.completed = neverTag ∨
    f.executionStarted = true ∧ F.InRange node.completed ∧ node.completed ≤ f.currentTag
  confirmed : ∀ tag, .latestTagConfirmed tag ∈ backlog →
    f.executionStarted = true ∧ F.InRange tag ∧ tag ≤ f.currentTag
  announced : ∀ tag, .nextEventTag tag ∈ backlog → F.Announced tag
  transit : ∀ tag ∈ inTransit, F.InRange tag
  sent : ∀ earlier port tag later, backlog = earlier ++ .taggedMessage port tag :: later →
    F.source port = i ∧ F.InRange tag ∧ ∃ current, F.InRange current ∧
      tag = lfDelayTag current (F.delay port) ∧ Promise node inTransit earlier current
  resigned : ∀ earlier later, backlog = earlier ++ .resign :: later →
    ¬f.phase.Alive ∧ ∀ port tag, .taggedMessage port tag ∉ later
  connected : node.state = .notConnected →
    ¬f.phase.Alive ∧ ∀ port tag, .taggedMessage port tag ∉ backlog

/-- What a federate that is alive has promised. -/
structure Promised (f : Federate K) (node : SchedulingNode) (inTransit : List Tag)
    (inbox : List (ToFederate K)) (backlog : List (ToRti K)) : Prop where
  skipped : f.lastSkippedNET = neverTag ∨ F.Announced f.lastSkippedNET
  skipped_granted : F.immediateUpstreams i ≠ [] → f.lastSkippedNET ≤ f.lastTAG
  skipped_le : f.phase.Alive → ∀ tag, Pending F i f inbox tag → f.lastSkippedNET ≤ tag
  promise : f.phase.Alive → ∀ tag, Pending F i f inbox tag → Promise node inTransit backlog tag

structure Coordinated (f : Federate K) (node : SchedulingNode) (inTransit : List Tag)
    (inbox : List (ToFederate K)) (backlog : List (ToRti K)) : Prop where
  valid : Valid F i f
  granted : Granted F i f node inTransit inbox
  written : Written F i f node inTransit backlog
  promised : Promised F i f node inTransit inbox backlog

end Invariant

end LFBenchmarks.Federated
