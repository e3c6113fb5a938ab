import LFBenchmarks.Federated.RtiSteps
import LFBenchmarks.Framework.Conservative

namespace LFBenchmarks.Federated

open ReactorC Relax Superdense Conservative

variable {n : Nat} {K : Type} (F : Federation n K)

section Invariant

/-- What federate `i` has written and the infrastructure has not finished reading. -/
def State.backlog (s : State n K) (i : Fin n) : List (ToRti K) :=
  (s.removing i).toList.map .latestTagConfirmed ++ (s.federate i).outbox

def Federation.links : Links (Fin n) K Superdense where
  source := F.source
  target := F.target
  arrive port := after (F.delay port).toInt

def State.events (s : State n K) : Events (Fin n) K Superdense where
  alive i := (s.federate i).phase.Alive
  pending i x := ∃ tag, Pending F i (s.federate i) (s.rti.sent i) tag ∧ tag.super = x
  inFlight port x := ∃ tag, .taggedMessage port tag ∈ s.backlog (F.source port) ∧ tag.super = x

/-- Every federate and the infrastructure agree about each other, and no grant reaches what can still
arrive. -/
structure Invariant (s : State n K) : Prop where
  inRange : s.InRange F
  coordinated : ∀ i, Coordinated F i (s.federate i) (s.rti.node i) (s.rti.inTransitMessageTags i)
    (s.rti.sent i) (s.backlog i)
  safe : Safe F.links endOfTime (s.events F) fun i => (s.rti.node i).lastGranted.super

theorem monotone_arrive (port : K) : Monotone (F.links.arrive port) := fun _ _ h => after_le_after _ h

end Invariant

section Paths

variable {F}

theorem after_le_after_of_delay {d d' : Int64} (h : lfDelayTag zeroTag d ≤ lfDelayTag zeroTag d')
    (x : Superdense) : after d.toInt x ≤ after d'.toInt x :=
  plus_le_plus_left (zero_le_ofDelay _) (ofDelay_le_ofDelay h)

theorem mem_sources (e : Fin n) : F.sources e = F.immediateUpstreams e := if_neg (F.connected e)

/-- The connection that the infrastructure knows for a port. -/
theorem exists_upstream (port : K) : ∃ d, (F.source port, d) ∈ F.immediateUpstreams (F.target port) ∧
    ∀ x, after d.toInt x ≤ F.links.arrive port x := by
  obtain ⟨d, hmem, hle⟩ := F.covered port
  exact ⟨d, hmem, after_le_after_of_delay hle⟩

theorem path_single {i e : Fin n} {d : Int64} (h : (i, d) ∈ F.immediateUpstreams e) :
    F.Path i e [d] := .cons (show (i, d) ∈ F.sources e from mem_sources e ▸ h) .nil

theorem path_append {i j e : Fin n} {cs : List Int64} {d : Int64} (hpath : F.Path i j cs)
    (h : (j, d) ∈ F.immediateUpstreams e) : F.Path i e (cs ++ [d]) := by
  induction hpath with
  | nil => exact path_single h
  | cons hmem _ ih => exact .cons hmem ih

end Paths

section Bounds

variable {F} {s : State n K}

theorem heard_le {i : Fin n} {B : List (ToRti K)} {T : List Tag} {tag : Tag}
    (hstart : F.startTag ≤ tag) (h : Promise (s.rti.node i) T B tag) :
    heard F.toNetwork s.rti i ≤ tag := by
  unfold heard
  split_ifs
  · exact hstart
  · exact h.nextEvent

theorem announced_heard (hinv : Invariant F s) (i : Fin n) :
    F.Announced (heard F.toNetwork s.rti i) := by
  unfold heard
  split_ifs with hnever
  · exact .inr inRange_startTag
  · exact ((hinv.coordinated i).written.nextEvent).resolve_left hnever

theorem super_intendedTag {current : Tag} {port : K} (hcurrent : F.InRange current)
    (hrange : F.InRange (lfDelayTag current (F.delay port))) :
    (lfDelayTag current (F.delay port)).super = F.links.arrive port current.super := by
  have hm := hcurrent.microstep
  exact super_lfDelayTag hcurrent.zeroTag_le hcurrent.time (by omega)
    fun htop => hrange.time (htop ▸ rfl)

/-- A message on its way to the infrastructure arrives with the delay of its connection. -/
theorem exists_sent (hcoordinated : ∀ i, Coordinated F i (s.federate i) (s.rti.node i)
      (s.rti.inTransitMessageTags i) (s.rti.sent i) (s.backlog i)) {port : K} {tag : Tag}
    (hmem : .taggedMessage port tag ∈ s.backlog (F.source port)) :
    ∃ current, ∃ B : List (ToRti K), F.InRange current ∧
      Promise (s.rti.node (F.source port)) (s.rti.inTransitMessageTags (F.source port)) B current ∧
      tag.super = F.links.arrive port current.super := by
  obtain ⟨earlier, later, heq⟩ := List.append_of_mem hmem
  obtain ⟨-, hrange, current, hcurrent, htag, hpromise⟩ :=
    (hcoordinated (F.source port)).written.sent earlier port tag later heq
  subst htag
  exact ⟨current, earlier, hcurrent, hpromise, super_intendedTag hcurrent hrange⟩

theorem upstream_of_arrival {e : Fin n} {x : Superdense} (ha : Arrival F.links (s.events F) e x) :
    F.immediateUpstreams e ≠ [] := by
  have htarget (port : K) : F.immediateUpstreams (F.target port) ≠ [] := by
    obtain ⟨d, hd, -⟩ := exists_upstream (F := F) port
    exact List.ne_nil_of_mem hd
  cases ha with
  | inFlight => exact htarget _
  | pending => exact htarget _
  | onward => exact htarget _

theorem zero_le_arrival (hrange : s.InRange F) (hcoordinated : ∀ i, Coordinated F i (s.federate i)
      (s.rti.node i) (s.rti.inTransitMessageTags i) (s.rti.sent i) (s.backlog i)) {e : Fin n}
    {x : Superdense} (ha : Arrival F.links (s.events F) e x) : point 0 0 ≤ x := by
  induction ha with
  | inFlight hx =>
    obtain ⟨tag, hmem, rfl⟩ := hx
    obtain ⟨current, B, hcurrent, -, htag⟩ := exists_sent hcoordinated hmem
    exact htag ▸ (zero_le_super hcurrent.zeroTag_le).trans (le_after _ _)
  | pending halive hy =>
    obtain ⟨tag, hpending, rfl⟩ := hy
    have hstart := startTag_le_pending (hcoordinated _) (hrange _).1 hpending
    exact (zero_le_super (zeroTag_le_startTag.trans hstart)).trans (le_after _ _)
  | onward _ _ ih => exact ih.trans (le_after _ _)

/-- Whatever arrives comes along a path from a node whose next event the infrastructure knows. -/
theorem exists_path_of_arrival (hinv : Invariant F s) {e : Fin n} {x : Superdense}
    (ha : Arrival F.links (s.events F) e x) : ∃ i c cs y, F.Path i e (c :: cs) ∧
      (heard F.toNetwork s.rti i).floor ≤ y ∧ afterAll ((c :: cs).map Int64.toInt) y ≤ x := by
  have hpromised (i : Fin n) (B : List (ToRti K)) (T : List Tag) (tag : Tag)
      (hstart : F.startTag ≤ tag) (h : Promise (s.rti.node i) T B tag) :
      (heard F.toNetwork s.rti i).floor ≤ tag.super :=
    (floor_le_super _).trans ((super_le_super _ _).mpr (heard_le hstart h))
  induction ha with
  | @inFlight port x hx =>
    obtain ⟨tag, hmem, rfl⟩ := hx
    obtain ⟨d, hd, hle⟩ := exists_upstream (F := F) port
    obtain ⟨current, B, hcurrent, hpromise, htag⟩ := exists_sent hinv.coordinated hmem
    exact ⟨_, d, [], current.super, path_single hd, hpromised _ _ _ _ hcurrent.start hpromise,
      htag ▸ hle _⟩
  | @pending port y halive hy =>
    obtain ⟨tag, hpending, rfl⟩ := hy
    obtain ⟨d, hd, hle⟩ := exists_upstream (F := F) port
    have hcoordinated := hinv.coordinated (F.source port)
    exact ⟨_, d, [], tag.super, path_single hd, hpromised _ _ _ _
      (startTag_le_pending hcoordinated (hinv.inRange _).1 hpending)
      (hcoordinated.promised.promise halive tag hpending), hle _⟩
  | @onward port y _ _ ih =>
    obtain ⟨i, c, cs, x, hpath, hx, hxy⟩ := ih
    obtain ⟨d, hd, hle⟩ := exists_upstream (F := F) port
    refine ⟨i, c, cs ++ [d], x, path_append hpath hd, hx, ?_⟩
    rw [← List.cons_append, List.map_append, afterAll_append]
    exact (after_le_after d.toInt hxy).trans (hle y)

/-- The earliest incoming message is not later than anything that arrives. -/
theorem floor_earliest_le_arrival (hinv : Invariant F s) {e : Fin n} {x : Superdense}
    (ha : Arrival F.links (s.events F) e x) :
    (earliestFutureIncomingMessageTag F.toNetwork s.rti e).1.floor ≤ x := by
  obtain ⟨i, c, cs, y, hpath, hy, hle⟩ := exists_path_of_arrival hinv ha
  exact (floor_earliest_le (announced_heard hinv) hpath hy).trans hle

end Bounds

section Grants

variable {F} {s : State n K}

theorem earliest_regular (hinv : Invariant F s) (e : Fin n) :
    zeroTag ≤ (earliestFutureIncomingMessageTag F.toNetwork s.rti e).1 ∧
      ((earliestFutureIncomingMessageTag F.toNetwork s.rti e).1.time = forever →
        (earliestFutureIncomingMessageTag F.toNetwork s.rti e).1 = foreverTag) := by
  obtain ⟨hmem, -⟩ := isLeast_earliest F.toNetwork s.rti e
  rcases hmem with h | ⟨i, -, h⟩
  · rw [h]
    exact ⟨le_top, fun _ => rfl⟩
  · have hzero := (announced_heard hinv i).zeroTag_le
    have hdelay := zeroTag_le_minDelay F.toTopology i e
    rw [h]
    exact ⟨hdelay.trans (le_lfTagAdd hzero hdelay), (lfTagAdd_time_eq_forever hzero hdelay).mp⟩

/-- A grant because no message can come in before. -/
theorem latestEarlier_lt_arrival (hinv : Invariant F s) {e : Fin n} {x : Superdense}
    (ha : Arrival F.links (s.events F) e x) : endOfTime ≤ x ∨
      (lfTagLatestEarlier (earliestFutureIncomingMessageTag F.toNetwork s.rti e).1).super < x := by
  obtain ⟨hzero, htime⟩ := earliest_regular hinv e
  have hle := floor_earliest_le_arrival hinv ha
  by_cases htop : (earliestFutureIncomingMessageTag F.toNetwork s.rti e).1 = foreverTag
  · rw [htop, floor_foreverTag] at hle
    exact .inl hle
  · have hnever : (earliestFutureIncomingMessageTag F.toNetwork s.rti e).1 ≠ neverTag := by
      intro h
      rw [h] at hzero
      exact absurd hzero (by decide)
    rw [floor_of_ne fun h => htop (htime h)] at hle
    exact .inr (((super_lt_super _ _).mpr (lfTagLatestEarlier_lt hnever htop)).trans_le hle)

/-- A loop that only lowers its result ends no higher than where one element puts it. -/
theorem foldl_le_of_mem {α β : Type} [Preorder α] {step : α → β → α} (hstep : ∀ a b, step a b ≤ a)
    {l : List β} {b : β} (hb : b ∈ l) {c : α} (hc : ∀ a, step a b ≤ c) (a : α) :
    l.foldl step a ≤ c := by
  have hle : ∀ (l : List β) (a : α), l.foldl step a ≤ a := by
    intro l
    induction l with
    | nil => exact fun a => le_rfl
    | cons b l ih => exact fun a => (ih _).trans (hstep a b)
  induction l generalizing a with
  | nil => exact absurd hb List.not_mem_nil
  | cons head l ih =>
    rw [List.foldl_cons]
    rcases List.mem_cons.mp hb with rfl | hb
    · exact (hle l _).trans (hc a)
    · exact ih hb _

theorem minUpstreamCompleted_le (R : Rti n K) {i e : Fin n} {d : Int64}
    (hmem : (i, d) ∈ F.immediateUpstreams e) (hstate : (R.node i).state ≠ .notConnected) :
    minUpstreamCompleted F.toNetwork R e ≤ lfDelayStrict (R.node i).completed d := by
  refine foldl_le_of_mem (fun acc upstream => ?_) hmem (fun acc => ?_) foreverTag
  · simp only [lfTagCompare_lt_zero]
    split_ifs with hconnected hlt
    · exact le_rfl
    · exact hlt.le
    · exact le_rfl
  · simp only [lfTagCompare_lt_zero, if_neg hstate]
    split_ifs with hlt
    · exact le_rfl
    · exact not_lt.mp hlt

theorem lt_arrive_of_completed (hinv : Invariant F s) {port : K} {d : Int64} {y : Superdense}
    (hle : ∀ x, after d.toInt x ≤ F.links.arrive port x) (hzero : point 0 0 ≤ y)
    (hy : (s.rti.node (F.source port)).completed.super < y) :
    endOfTime ≤ F.links.arrive port y ∨
      (lfDelayStrict (s.rti.node (F.source port)).completed d).super < F.links.arrive port y := by
  have hcompleted := (hinv.coordinated (F.source port)).written.completed
  have hm : (s.rti.node (F.source port)).completed.microstep.toNat + 1 < 2 ^ 32 := by
    rcases hcompleted with h | ⟨-, h, -⟩
    · rw [h]
      decide
    · have hm := h.microstep
      omega
  refine (lfDelayStrict_lt d (hcompleted.imp id fun h => h.2.1.zeroTag_le) hm hzero hy).imp ?_ ?_
  · exact fun h => h.trans (hle y)
  · exact fun h => h.trans_le (hle y)

/-- A grant because every federate directly upstream has completed what could send something before. -/
theorem minUpstreamCompleted_lt_arrival (hinv : Invariant F s) {e : Fin n} {x : Superdense}
    (ha : Arrival F.links (s.events F) e x) : endOfTime ≤ x ∨
      (minUpstreamCompleted F.toNetwork s.rti e).super < x := by
  have hlink : ∀ (port : K) (y : Superdense), F.target port = e →
      (s.rti.node (F.source port)).state ≠ .notConnected → point 0 0 ≤ y →
      (s.rti.node (F.source port)).completed.super < y →
      endOfTime ≤ F.links.arrive port y ∨
        (minUpstreamCompleted F.toNetwork s.rti e).super < F.links.arrive port y := by
    rintro port y rfl hstate hzero hy
    obtain ⟨d, hd, hle⟩ := exists_upstream (F := F) port
    refine (lt_arrive_of_completed hinv hle hzero hy).imp id fun h => lt_of_le_of_lt ?_ h
    exact (super_le_super _ _).mpr (minUpstreamCompleted_le s.rti hd hstate)
  refine ha.cases_link (fun port htarget hflight => ?_) fun port y htarget harrive halive hy => ?_
  · obtain ⟨tag, hmem, rfl⟩ := hflight
    obtain ⟨current, B, hcurrent, hpromise, htag⟩ := exists_sent hinv.coordinated hmem
    rw [htag]
    refine hlink port _ htarget (fun hstate => ?_) (zero_le_super hcurrent.zeroTag_le)
      ((super_lt_super _ _).mpr hpromise.completed)
    exact ((hinv.coordinated _).written.connected hstate).2 port tag hmem
  · rw [← harrive]
    have hcoordinated := hinv.coordinated (F.source port)
    have hstate : (s.rti.node (F.source port)).state ≠ .notConnected :=
      fun hstate => (hcoordinated.written.connected hstate).1 halive
    rcases hy with ⟨tag, hpending, rfl⟩ | hy
    · have hstart := startTag_le_pending hcoordinated (hinv.inRange _).1 hpending
      exact hlink port _ htarget hstate (zero_le_super (zeroTag_le_startTag.trans hstart))
        ((super_lt_super _ _).mpr (hcoordinated.promised.promise halive tag hpending).completed)
    · have hupstream := upstream_of_arrival hy
      rcases hinv.safe _ _ hy with hend | hlt
      · exact .inl (hend.trans (le_after _ y))
      · refine hlink port _ htarget hstate (zero_le_arrival hinv.inRange hinv.coordinated hy) (lt_of_le_of_lt ?_ hlt)
        exact (super_le_super _ _).mpr (hcoordinated.completed_le hupstream)

end Grants

end LFBenchmarks.Federated
