import LFBenchmarks.Federated.Federation
import Mathlib.Order.Bounds.Basic

namespace LFBenchmarks.Federated

open ReactorC

variable {n : Nat} {K : Type} (W : Network n K)

section Heard

attribute [local irreducible] lfTagAdd lfDelayTag

variable {W}

theorem Heard.earliest_eq {R R' : Rti n K} (h : Heard W R R') (e : Fin n) :
    (earliestFutureIncomingMessageTag W R' e).1 = (earliestFutureIncomingMessageTag W R e).1 := by
  have hleast := isLeast_earliest W R' e
  simp only [h.heard_eq] at hleast
  exact hleast.unique (isLeast_earliest W R e)

theorem heard_strictFrom (acc : Tag × Rti n K) (upstream : Fin n × Int64) :
    Heard W acc.2 (strictFrom W acc upstream).2 := by
  unfold strictFrom
  split_ifs
  · exact .refl _
  · exact (heard_hear acc.2 upstream.1).trans (heard_earliest W _ upstream.1)

theorem heard_eimtStrict (R : Rti n K) (e : Fin n) : Heard W R (eimtStrict W R e).2 := by
  have hfold : ∀ (l : List (Fin n × Int64)) (acc : Tag × Rti n K),
      Heard W acc.2 (l.foldl (strictFrom W) acc).2 := by
    intro l
    induction l with
    | nil => exact fun acc => .refl acc.2
    | cons upstream l ih => exact fun acc => (heard_strictFrom acc upstream).trans (ih _)
  exact hfold _ (foreverTag, R)

/-- Without zero-delay cycles a grant is never provisional, and has one of two reasons. -/
theorem tagAdvanceGrantIfSafe_cases (hcycle : ∀ j, W.isInZeroDelayCycle j = false) (R : Rti n K)
    (e : Fin n) :
    Heard W R (tagAdvanceGrantIfSafe W R e).2 ∧
      (tagAdvanceGrantIfSafe W R e).1.isProvisional = false ∧
      ((tagAdvanceGrantIfSafe W R e).1.tag = neverTag ∨
        (tagAdvanceGrantIfSafe W R e).1.tag = minUpstreamCompleted W R e ∨
        (tagAdvanceGrantIfSafe W R e).1.tag =
          lfTagLatestEarlier (earliestFutureIncomingMessageTag W R e).1) := by
  have hheard := (heard_earliest W R e).trans
    (heard_eimtStrict (earliestFutureIncomingMessageTag W R e).2 e)
  unfold tagAdvanceGrantIfSafe
  simp only [hcycle, Bool.false_eq_true, false_and, and_false, if_false]
  split_ifs
  · exact ⟨.refl R, rfl, .inr (.inl rfl)⟩
  · exact ⟨hheard, rfl, .inr (.inr rfl)⟩
  · exact ⟨hheard, rfl, .inl rfl⟩

theorem Heard.minUpstreamCompleted_eq {R R' : Rti n K} (h : Heard W R R') (e : Fin n) :
    minUpstreamCompleted W R' e = minUpstreamCompleted W R e := by
  have hnode : ∀ i, (R'.node i).state = (R.node i).state ∧
      (R'.node i).completed = (R.node i).completed := by
    intro i
    rcases h.node i with heq | ⟨-, heq⟩ <;> rw [heq] <;> exact ⟨rfl, rfl⟩
  simp only [minUpstreamCompleted, hnode]

end Heard

section Progress

/-- What the infrastructure does to let federates go on: it takes nodes not heard from to start, grants
tags, and says upstream what is awaited. -/
inductive Progress : Rti n K → Rti n K → Prop
  | refl (R : Rti n K) : Progress R R
  | heard {R R' R'' : Rti n K} : Progress R R' → Heard W R' R'' → Progress R R''
  | grant {R R' : Rti n K} (e : Fin n) (tag : Tag) : Progress R R' →
      tag = minUpstreamCompleted W R' e ∨
        tag = lfTagLatestEarlier (earliestFutureIncomingMessageTag W R' e).1 →
      Progress R (notifyTagAdvanceGrant R' e tag)
  | announce {R R' : Rti n K} (i : Fin n) (tag : Tag) : Progress R R' →
      Progress R (notifyDownstreamNextEventTag R' i tag)

variable {W}

theorem Progress.trans {R R' R'' : Rti n K} (h : Progress W R R') (h' : Progress W R' R'') :
    Progress W R R'' := by
  induction h' with
  | refl => exact h
  | heard _ hheard ih => exact .heard ih hheard
  | grant e tag _ htag ih => exact .grant e tag ih htag
  | announce i tag _ ih => exact .announce i tag ih

theorem progress_foldl {β : Type} {step : Rti n K → β → Rti n K}
    (hstep : ∀ R b, Progress W R (step R b)) (l : List β) (R : Rti n K) :
    Progress W R (l.foldl step R) := by
  induction l generalizing R with
  | nil => exact .refl R
  | cons b l ih => exact (hstep R b).trans (ih _)

theorem progress_notifyAdvanceGrantIfSafe (hcycle : ∀ j, W.isInZeroDelayCycle j = false)
    (R : Rti n K) (e : Fin n) : Progress W R (notifyAdvanceGrantIfSafe W R e) := by
  obtain ⟨hheard, hprovisional, htag⟩ := tagAdvanceGrantIfSafe_cases hcycle R e
  have hnow : Progress W R (tagAdvanceGrantIfSafe W R e).2 := .heard (.refl R) hheard
  unfold notifyAdvanceGrantIfSafe
  simp only [hprovisional, Bool.false_eq_true, if_false, ne_eq, lfTagCompare_eq_zero]
  by_cases hnever : (tagAdvanceGrantIfSafe W R e).1.tag = neverTag
  · rwa [if_neg (not_not.mpr hnever)]
  · rw [if_pos hnever]
    refine .grant e _ hnow ?_
    rw [hheard.minUpstreamCompleted_eq, hheard.earliest_eq]
    exact htag.resolve_left hnever

theorem progress_notifyDownstream (hcycle : ∀ j, W.isInZeroDelayCycle j = false) (R : Rti n K)
    (e : Fin n) : Progress W R (notifyDownstream W R e) := by
  have hfuel : ∀ (fuel : Nat) (acc : Rti n K × (Fin n → Bool)) (e : Fin n),
      Progress W acc.1 (notifyDownstreamAdvanceGrantIfSafe W fuel acc e).1 := by
    intro fuel
    induction fuel with
    | zero => exact fun acc _ => .refl acc.1
    | succ fuel ih =>
      rintro ⟨R, visited⟩ e
      rw [notifyDownstreamAdvanceGrantIfSafe]
      have hfold : ∀ (l : List (Fin n)) (acc : Rti n K × (Fin n → Bool)),
          Progress W acc.1 (l.foldl (fun acc downstream =>
            if acc.2 downstream then acc
            else notifyDownstreamAdvanceGrantIfSafe W fuel
              (notifyAdvanceGrantIfSafe W acc.1 downstream, acc.2) downstream) acc).1 := by
        intro l
        induction l with
        | nil => exact fun acc => .refl acc.1
        | cons downstream l ihl =>
          intro acc
          rw [List.foldl_cons]
          refine Progress.trans ?_ (ihl _)
          split_ifs
          · exact .refl acc.1
          · exact (progress_notifyAdvanceGrantIfSafe hcycle _ _).trans
              (ih (notifyAdvanceGrantIfSafe W acc.1 downstream, acc.2) downstream)
      exact hfold _ (R, Function.update visited e true)
  exact hfuel _ (R, _) e

theorem progress_announceUpstream (e : Fin n) (R : Rti n K) (i : Fin n) :
    Progress W R (announceUpstream W e R i) := by
  unfold announceUpstream
  simp only
  split_ifs
  · exact .announce _ _ (.refl R)
  · exact .refl R
  · exact .refl R

/-- The record that a new next event leaves, before anything follows from it. -/
def Rti.recordNextEvent (R : Rti n K) (e : Fin n) (tag : Tag) : Rti n K :=
  R.setNode e { R.node e with
    nextEvent := tag
    lastGranted := if W.immediateUpstreams e ≠ [] then (R.node e).lastGranted else tag }

theorem progress_updateSchedulingNode (hcycle : ∀ j, W.isInZeroDelayCycle j = false) (R : Rti n K)
    (e : Fin n) (tag : Tag) :
    Progress W (R.recordNextEvent (W := W) e tag) (updateSchedulingNodeNextEventTagLocked W R e tag) := by
  have hown : Progress W (R.recordNextEvent (W := W) e tag)
      (if W.immediateUpstreams e ≠ [] then
        notifyAdvanceGrantIfSafe W (R.setNode e { R.node e with nextEvent := tag }) e
      else (R.setNode e { R.node e with nextEvent := tag }).setNode e
        { (R.setNode e { R.node e with nextEvent := tag }).node e with lastGranted := tag }) := by
    unfold Rti.recordNextEvent
    split_ifs
    · exact progress_notifyAdvanceGrantIfSafe hcycle _ e
    · simpa [Rti.setNode] using Progress.refl _
  have hdownstream (R : Rti n K) : Progress W R ((List.finRange n).foldl (fun R j =>
      if lfTagCompare (W.minDelay e j) foreverTag ≠ 0 then notifyAdvanceGrantIfSafe W R j else R) R) := by
    refine progress_foldl (fun R j => ?_) _ R
    split_ifs
    · exact progress_notifyAdvanceGrantIfSafe hcycle R j
    · exact .refl R
  rw [updateSchedulingNodeNextEventTagLocked]
  have hafter := hown.trans (hdownstream _)
  by_cases hdisabled : W.dnetDisabled = true
  · simp only [hdisabled, if_true]
    exact hafter
  · simp only [hdisabled]
    exact hafter.trans (progress_foldl (progress_announceUpstream e) _ _)

end Progress

end LFBenchmarks.Federated
