import LFBenchmarks.Framework.Relax
import LFBenchmarks.ReactorC.Bounds
import Mathlib.Order.Bounds.Defs

namespace LFBenchmarks.Federated

open ReactorC Relax

inductive NodeState
  | notConnected
  | granted
  | pending
  deriving DecidableEq

/-- What the least delays between the nodes depend on (`rti_common.c`). The ids of the `n` nodes are 16
bits wide; a negative delay is a connection without one. -/
structure Topology (n : Nat) where
  size : n < 2 ^ 16
  state : Fin n → NodeState
  immediateUpstreams : Fin n → List (Fin n × Int64)

structure PathState (n : Nat) where
  pathDelays : Fin n → Tag
  count : Nat
  isInCycle : Bool
  isInZeroDelayCycle : Bool

variable {n : Nat} (N : Topology n)

section Source

def PathState.initial : PathState n := ⟨fun _ => foreverTag, 0, false, false⟩

/-- `_update_min_delays_upstream`, recursing at most `fuel` deep. -/
def updateMinDelaysUpstream (endNode : Fin n) :
    Nat → Option (Fin n) → PathState n → Option (PathState n)
  | 0, _, _ => none
  | fuel + 1, intermediate, s =>
    let delayFromIntermediateSoFar := intermediate.elim zeroTag s.pathDelays
    let i := intermediate.getD endNode
    if N.state i = .notConnected then some s
    else (N.immediateUpstreams i).foldlM (fun s upstream =>
      let connectionDelay := lfDelayTag zeroTag upstream.2
      let pathDelay := lfTagAdd connectionDelay delayFromIntermediateSoFar
      if lfTagCompare pathDelay (s.pathDelays upstream.1) < 0 then
        let s := if (s.pathDelays upstream.1).time = forever then { s with count := s.count + 1 }
          else s
        let s := { s with pathDelays := Function.update s.pathDelays upstream.1 pathDelay }
        if endNode ≠ upstream.1 then updateMinDelaysUpstream endNode fuel (some upstream.1) s
        else if lfTagCompare pathDelay zeroTag = 0 ∧ upstream.2 < 0 then
          some { s with isInCycle := true, isInZeroDelayCycle := true }
        else some { s with isInCycle := true, isInZeroDelayCycle := false }
      else some s) s

/-- One column of the matrix of `update_min_delays`, with the flags of its node. -/
def updateMinDelays (endNode : Fin n) : Option (PathState n) :=
  updateMinDelaysUpstream N endNode n none .initial

end Source

section Search

/-- The connections into a node; nothing passes through a node that is not connected. -/
def Topology.sources (i : Fin n) : List (Fin n × Int64) :=
  if N.state i = .notConnected then [] else N.immediateUpstreams i

/-- A path was found: a node is counted the first time, and a path back to the end is a cycle. -/
def PathState.record (endNode : Fin n) (s : PathState n) (upstream : Fin n) (interval : Int64)
    (pathDelay : Tag) : PathState n where
  pathDelays := Function.update s.pathDelays upstream pathDelay
  count := if (s.pathDelays upstream).time = forever then s.count + 1 else s.count
  isInCycle := if endNode ≠ upstream then s.isInCycle else true
  isInZeroDelayCycle := if endNode ≠ upstream then s.isInZeroDelayCycle
    else lfTagCompare pathDelay zeroTag = 0 ∧ interval < 0

def Topology.search (endNode : Fin n) : Search (Fin n) Int64 Tag (PathState n) where
  sources := N.sources
  add interval := lfTagAdd (lfDelayTag zeroTag interval)
  label := PathState.pathDelays
  record := PathState.record endNode

theorem search_add (endNode : Fin n) (c : Int64) (a : Tag) :
    (N.search endNode).add c a = lfTagAdd (lfDelayTag zeroTag c) a := by rw [Topology.search]

theorem search_label (endNode : Fin n) : (N.search endNode).label = PathState.pathDelays :=
  rfl

theorem label_record (endNode : Fin n) (s : PathState n) (i : Fin n) (c : Int64) (a : Tag) :
    (N.search endNode).label ((N.search endNode).record s i c a) =
      Function.update ((N.search endNode).label s) i a := rfl

theorem updateMinDelaysUpstream_eq_visit (endNode : Fin n) (fuel : Nat)
    (intermediate : Option (Fin n)) (s : PathState n) :
    updateMinDelaysUpstream N endNode fuel intermediate s =
      (N.search endNode).visit endNode fuel (intermediate.getD endNode)
        (intermediate.elim zeroTag s.pathDelays) s := by
  induction fuel generalizing intermediate s with
  | zero => rfl
  | succ fuel ih =>
    rename' s => s0
    rw [updateMinDelaysUpstream, Search.visit]
    by_cases hstate : N.state (intermediate.getD endNode) = .notConnected
    · simp [Topology.search, Topology.sources, hstate]
    · simp only [if_neg hstate]
      have hsources : (N.search endNode).sources (intermediate.getD endNode) =
          N.immediateUpstreams (intermediate.getD endNode) := if_neg hstate
      rw [hsources]
      congr 1
      funext s e
      unfold Search.relaxEdge
      simp only [ih, lfTagCompare_lt_zero, search_add, search_label]
      by_cases hlt : lfTagAdd (lfDelayTag zeroTag e.2) (intermediate.elim zeroTag s0.pathDelays) <
          s.pathDelays e.1
      · simp only [hlt, if_true]
        by_cases hend : endNode = e.1
        · rw [if_neg (not_not.mpr hend), if_pos hend.symm]
          simp only [Topology.search, PathState.record, if_neg (not_not.mpr hend)]
          split_ifs with hzero hfirst hfirst <;> simp_all
        · rw [if_pos hend, if_neg (Ne.symm hend)]
          simp only [Topology.search, PathState.record, if_pos hend]
          split_ifs with hfirst <;> simp
      · simp only [hlt, if_false]

end Search

section Paths

attribute [local irreducible] lfTagAdd lfDelayTag

/-- Connections that lead from node `i` to node `j` through connected nodes, in order. -/
def Topology.Path (i j : Fin n) (cs : List Int64) : Prop := (N.search j).Walk j i cs

/-- What the connections of a path add to a tag, each to the left of those after it. -/
def pathDelay (cs : List Int64) : Tag :=
  cs.foldr (fun c a => lfTagAdd (lfDelayTag zeroTag c) a) zeroTag

theorem pathDelay_cons (c : Int64) (cs : List Int64) :
    pathDelay (c :: cs) = lfTagAdd (lfDelayTag zeroTag c) (pathDelay cs) := by
  rw [pathDelay, List.foldr_cons, pathDelay]

theorem le_search_add (j : Fin n) (c : Int64) (a : Tag) (ha : zeroTag ≤ a) :
    a ≤ (N.search j).add c a := le_lfTagAdd (zeroTag_le_lfDelayTag c) ha

theorem zeroTag_le_pathDelay (cs : List Int64) : zeroTag ≤ pathDelay cs := by
  induction cs with
  | nil => exact le_rfl
  | cons c cs ih => exact ih.trans (le_lfTagAdd (zeroTag_le_lfDelayTag c) ih)

/-- Each connection adds one microstep at most. -/
theorem microstep_pathDelay (cs : List Int64) :
    pathDelay cs = foreverTag ∨ (pathDelay cs).microstep.toNat ≤ cs.length := by
  induction cs with
  | nil => exact .inr (Nat.zero_le _)
  | cons c cs ih =>
    rw [pathDelay_cons, List.length_cons]
    have hcs := zeroTag_le_pathDelay cs
    have hc := zeroTag_le_lfDelayTag c
    rcases ih with ih | ih
    · rw [ih]
      exact .inl (lfTagAdd_foreverTag hc)
    rcases microstep_lfDelayTag c with hm | hm
    · rw [hm]
      exact .inl (foreverTag_lfTagAdd hcs)
    · exact (microstep_lfTagAdd_le hc hcs).imp id (by omega)

/-- On paths no longer than the nodes are many the microsteps do not wrap, so that a connection keeps
the order of the delays after it. -/
theorem add_pathDelay_le (c : Int64) {cs : List Int64} {b : Tag} (hcs : cs.length < 2 ^ 16)
    (hb : pathDelay cs ≤ b) :
    lfTagAdd (lfDelayTag zeroTag c) (pathDelay cs) ≤ lfTagAdd (lfDelayTag zeroTag c) b := by
  have hzero := zeroTag_le_pathDelay cs
  rcases microstep_pathDelay cs with htop | hm
  · rw [htop] at hb ⊢
    rw [top_le_iff.mp hb, top_eq]
  rcases microstep_lfDelayTag c with htop | hmc
  · rw [htop, foreverTag_lfTagAdd hzero, foreverTag_lfTagAdd (hzero.trans hb)]
  · exact lfTagAdd_le_lfTagAdd (zeroTag_le_lfDelayTag c) hzero (by omega) hb

theorem time_pathDelay (cs : List Int64) :
    (pathDelay cs).time = forever → pathDelay cs = foreverTag := by
  cases cs with
  | nil => exact fun h => absurd h (by decide)
  | cons c cs => exact (lfTagAdd_time_eq_forever (zeroTag_le_lfDelayTag c) (zeroTag_le_pathDelay cs)).mp

theorem super_pathDelay {cs : List Int64} (h : pathDelay cs ≠ foreverTag) :
    (pathDelay cs).super = Superdense.walkDelay (cs.map Int64.toInt) := by
  induction cs with
  | nil => rfl
  | cons c cs ih =>
    have hc := zeroTag_le_lfDelayTag c
    have hcs := zeroTag_le_pathDelay cs
    rw [pathDelay_cons] at h ⊢
    have hne : pathDelay cs ≠ foreverTag := fun heq => h (heq ▸ lfTagAdd_foreverTag hc)
    have hc' : c ≠ forever := by
      rintro rfl
      exact h (lfDelayTag_forever ▸ foreverTag_lfTagAdd hcs)
    rw [super_lfTagAdd hc hcs h, ih hne, super_lfDelayTag_zeroTag hc']
    rfl

theorem pathDelay_eq_zeroTag (cs : List Int64) : pathDelay cs = zeroTag ↔ ∀ c ∈ cs, c < 0 := by
  induction cs with
  | nil => simp [pathDelay]
  | cons c cs ih =>
    have hc := zeroTag_le_lfDelayTag c
    have hcs := zeroTag_le_pathDelay cs
    rw [List.forall_mem_cons, ← ih, ← lfDelayTag_eq_zeroTag, pathDelay_cons]
    constructor
    · intro h
      have hleft := le_lfTagAdd_left hc hcs
      have hright := le_lfTagAdd hc hcs
      rw [h] at hleft hright
      exact ⟨le_antisymm hleft hc, le_antisymm hright hcs⟩
    · rintro ⟨hc, hcs⟩
      rw [hc, hcs]
      exact lfTagAdd_zeroTag le_rfl (by decide)

/-- The tag of a message, and of what follows from it at once, along connections. -/
def deliver (cs : List Int64) (tag : Tag) : Tag := cs.foldl lfDelayTag tag

theorem deliver_cons (c : Int64) (cs : List Int64) (tag : Tag) :
    deliver (c :: cs) tag = deliver cs (lfDelayTag tag c) := by
  rw [deliver, List.foldl_cons, deliver]

theorem deliver_foreverTag (cs : List Int64) : deliver cs foreverTag = foreverTag := by
  induction cs with
  | nil => rfl
  | cons c cs ih => rw [deliver_cons, lfDelayTag_foreverTag, ih]

/-- The delay of a path is what it adds to every tag whose microsteps leave room for it. -/
theorem deliver_eq_lfTagAdd (cs : List Int64) {tag : Tag} (hzero : zeroTag ≤ tag)
    (htop : tag.time = forever → tag = foreverTag)
    (hm : tag.time = forever ∨ tag.microstep.toNat + cs.length < 2 ^ 32) :
    deliver cs tag = lfTagAdd tag (pathDelay cs) := by
  induction cs generalizing tag with
  | nil => exact (lfTagAdd_zeroTag hzero htop).symm
  | cons c cs ih =>
    have hc := zeroTag_le_lfDelayTag c
    have hcs := zeroTag_le_pathDelay cs
    rw [List.length_cons] at hm
    rw [deliver_cons, pathDelay_cons, lfDelayTag_eq_lfTagAdd c hzero htop (hm.imp id (by omega))]
    by_cases hforever : tag.time = forever
    · rw [htop hforever, foreverTag_lfTagAdd hc, deliver_foreverTag,
        foreverTag_lfTagAdd (hcs.trans (le_lfTagAdd hc hcs))]
    have hm := hm.resolve_left hforever
    rcases microstep_lfDelayTag c with htop' | hmc
    · rw [htop', foreverTag_lfTagAdd hcs, lfTagAdd_foreverTag hzero, deliver_foreverTag]
    have hsum := microstep_lfTagAdd_le hzero hc
    rw [ih (hc.trans (le_lfTagAdd hzero hc)) (lfTagAdd_time_eq_forever hzero hc).mp
      (hsum.imp (congrArg Tag.time) (by omega))]
    rcases microstep_pathDelay cs with htop' | hmcs
    · rw [htop', lfTagAdd_foreverTag hc, lfTagAdd_foreverTag hzero,
        lfTagAdd_foreverTag (hc.trans (le_lfTagAdd hzero hc))]
    · exact lfTagAdd_assoc hzero hc hcs (by omega)

/-- Connections of 5 ns, of a microstep, without a delay and of 3 ns. -/
theorem deliver_eq_lfTagAdd_mixed :
    deliver [5, 0, -1, 3] ⟨100, 7⟩ = lfTagAdd ⟨100, 7⟩ (pathDelay [5, 0, -1, 3]) :=
  deliver_eq_lfTagAdd _ (by decide) (by decide) (by decide)

end Paths

section Result

attribute [local irreducible] lfTagAdd lfDelayTag

variable {N} {j : Fin n}

theorem exists_updateMinDelays (N : Topology n) (j : Fin n) : ∃ t, updateMinDelays N j = some t := by
  simp only [updateMinDelays, updateMinDelaysUpstream_eq_visit]
  exact Search.exists_visit (label_record N j) (le_search_add N j) n {j} le_rfl (by simp) (by simp)

theorem visit_of_updateMinDelays {t : PathState n} (h : updateMinDelays N j = some t) :
    (N.search j).visit j (Fintype.card (Fin n)) j zeroTag .initial = some t := by
  rw [updateMinDelays, updateMinDelaysUpstream_eq_visit] at h
  rwa [Fintype.card_fin]

theorem pathDelays_isLeast {t : PathState n} (h : updateMinDelays N j = some t) (i : Fin n) :
    IsLeast (insert foreverTag {a | ∃ c cs, N.Path i j (c :: cs) ∧ a = pathDelay (c :: cs)})
      (t.pathDelays i) := by
  have hvisit := visit_of_updateMinDelays h
  refine ⟨?_, ?_⟩
  · rcases Search.label_eq_delay (label_record N j) (fun _ => rfl) hvisit i with
      htop | ⟨c, cs, hwalk, -, hlabel⟩
    · exact .inl htop
    · exact .inr ⟨c, cs, hwalk, hlabel⟩
  · rintro a (rfl | ⟨c, cs, hwalk, rfl⟩)
    · exact le_top
    · refine Search.label_le_foldr id _ zeroTag (label_record N j) monotone_id le_rfl (le_search_add N j)
        (fun c cs b hlength hb => add_pathDelay_le c ?_ hb) (fun _ => rfl) hvisit hwalk
      exact lt_of_le_of_lt (hlength.trans_eq (Fintype.card_fin n)) N.size

/-- The nodes with a path. -/
def reached (pathDelays : Fin n → Tag) : Finset (Fin n) :=
  Finset.univ.filter fun i => pathDelays i ≠ foreverTag

theorem reached_update (f : Fin n → Tag) (i : Fin n) {a : Tag} (ha : a ≠ foreverTag) :
    reached (Function.update f i a) = insert i (reached f) := by
  ext k
  rcases eq_or_ne k i with rfl | hk <;> simp [reached, *]

/-- What the search keeps of its counter and of the flags of the end. -/
structure PathState.Flagged (j : Fin n) (s : PathState n) : Prop where
  count : s.count = (reached s.pathDelays).card
  time : ∀ i, (s.pathDelays i).time = forever → s.pathDelays i = foreverTag
  cycle : s.isInCycle = true ↔ s.pathDelays j ≠ foreverTag
  zero : s.isInZeroDelayCycle = true ↔ s.pathDelays j = zeroTag

theorem flagged_initial (j : Fin n) : PathState.Flagged j .initial where
  count := by simp [PathState.initial, reached]
  time _ _ := rfl
  cycle := by simp [PathState.initial]
  zero := by
    simp only [PathState.initial, Bool.false_eq_true, false_iff]
    decide

theorem flagged_record {s : PathState n} {i : Fin n} {c : Int64} {d : Tag} (hs : s.Flagged j)
    (hd : zeroTag ≤ d) (hlt : lfTagAdd (lfDelayTag zeroTag c) d < s.pathDelays i) :
    (s.record j i c (lfTagAdd (lfDelayTag zeroTag c) d)).Flagged j := by
  have hc := zeroTag_le_lfDelayTag c
  have hne : lfTagAdd (lfDelayTag zeroTag c) d ≠ foreverTag := (hlt.trans_le le_top).ne
  refine ⟨?_, fun k => ?_, ?_, ?_⟩
  · change (if (s.pathDelays i).time = forever then s.count + 1 else s.count) =
      (reached (Function.update s.pathDelays i _)).card
    rw [reached_update _ _ hne, hs.count]
    split_ifs with hfirst
    · exact (Finset.card_insert_of_notMem (by simp [reached, hs.time i hfirst])).symm
    · rw [Finset.insert_eq_of_mem]
      simpa [reached] using fun h => hfirst (congrArg Tag.time h)
  · rcases eq_or_ne k i with rfl | hk
    · simpa [PathState.record] using (lfTagAdd_time_eq_forever hc hd).mp
    · simpa [PathState.record, hk] using hs.time k
  · rcases eq_or_ne j i with rfl | hj
    · simp [PathState.record, hne]
    · simpa [PathState.record, hj] using hs.cycle
  · rcases eq_or_ne j i with rfl | hj
    · simp only [PathState.record, ne_eq, not_true, if_false, lfTagCompare_eq_zero,
        decide_eq_true_eq, Function.update_self, and_iff_left_iff_imp]
      intro h
      have hleft := le_lfTagAdd_left hc hd
      rw [h] at hleft
      exact (lfDelayTag_eq_zeroTag c).mp (le_antisymm hleft hc)
    · simpa [PathState.record, hj] using hs.zero

theorem flagged_updateMinDelays {t : PathState n} (h : updateMinDelays N j = some t) :
    t.Flagged j := by
  refine Search.visit_induction (PathState.Flagged j) (fun _ _ d => zeroTag ≤ d) ?_ _
    (visit_of_updateMinDelays h) le_rfl (flagged_initial j)
  intro fuel v d s i c hd hs _ hlt
  exact ⟨flagged_record hs hd hlt, fun _ => hd.trans (le_search_add N j c d hd)⟩

theorem isInZeroDelayCycle_iff {t : PathState n} (h : updateMinDelays N j = some t) :
    t.isInZeroDelayCycle = true ↔ ∃ c cs, N.Path j j (c :: cs) ∧ ∀ d ∈ c :: cs, d < 0 := by
  obtain ⟨hmem, hle⟩ := pathDelays_isLeast h j
  rw [(flagged_updateMinDelays h).zero]
  constructor
  · intro hzero
    rcases hmem with htop | ⟨c, cs, hpath, hdelay⟩
    · exact absurd (hzero.symm.trans htop) (by decide)
    · exact ⟨c, cs, hpath, (pathDelay_eq_zeroTag _).mp (hdelay ▸ hzero)⟩
  · rintro ⟨c, cs, hpath, hneg⟩
    have hdelay := hle (.inr ⟨c, cs, hpath, rfl⟩)
    rw [(pathDelay_eq_zeroTag _).mpr hneg] at hdelay
    refine le_antisymm hdelay ?_
    rcases hmem with htop | ⟨c, cs, -, hdelay⟩
    · exact htop ▸ le_top
    · exact hdelay ▸ zeroTag_le_pathDelay _

/-- The recursion ends, and leaves for every node the least delay of all paths from it, the number of
nodes with a path, and the two flags: whether a path leads back, and whether one does so without a
delay. -/
theorem updateMinDelays_correct (N : Topology n) (j : Fin n) :
    ∃ t, updateMinDelays N j = some t ∧
      (∀ i, IsLeast (insert foreverTag {a | ∃ c cs, N.Path i j (c :: cs) ∧ a = pathDelay (c :: cs)})
        (t.pathDelays i)) ∧
      t.count = (reached t.pathDelays).card ∧
      (t.isInCycle = true ↔ ∃ c cs, N.Path j j (c :: cs) ∧ pathDelay (c :: cs) ≠ foreverTag) ∧
      (t.isInZeroDelayCycle = true ↔ ∃ c cs, N.Path j j (c :: cs) ∧ ∀ d ∈ c :: cs, d < 0) := by
  obtain ⟨t, h⟩ := exists_updateMinDelays N j
  have hflags := flagged_updateMinDelays h
  obtain ⟨hmem, hle⟩ := pathDelays_isLeast h j
  refine ⟨t, h, pathDelays_isLeast h, hflags.count, ?_, ?_⟩
  · rw [hflags.cycle]
    constructor
    · intro hne
      obtain ⟨c, cs, hpath, hdelay⟩ := hmem.resolve_left hne
      exact ⟨c, cs, hpath, hdelay ▸ hne⟩
    · rintro ⟨c, cs, hpath, hne⟩ htop
      have hdelay := hle (.inr ⟨c, cs, hpath, rfl⟩)
      rw [htop] at hdelay
      exact hne (top_le_iff.mp hdelay)
  · exact isInZeroDelayCycle_iff h

/-- The delays found bound every path in superdense time, also one on which microsteps would wrap. -/
theorem floor_pathDelays_le {t : PathState n} (h : updateMinDelays N j = some t) {i : Fin n}
    {c : Int64} {cs : List Int64} (hpath : N.Path i j (c :: cs)) :
    (t.pathDelays i).floor ≤ Superdense.walkDelay ((c :: cs).map Int64.toInt) := by
  have hle := Search.label_le_foldr Tag.floor
    (fun (c : Int64) b => Superdense.plus (Superdense.ofDelay c.toInt) b) (Superdense.point 0 0)
    (label_record N j) floor_mono ?_ (fun c b _ => Superdense.le_plus (Superdense.zero_le_ofDelay _))
    ?_ (fun _ => rfl) (visit_of_updateMinDelays h) hpath
  · rw [Superdense.walkDelay, List.foldr_map]
    exact hle
  · exact floor_le_super _
  · intro c cs b hlength hb
    have hn : cs.length < 2 ^ 16 := (hlength.trans_eq (Fintype.card_fin n)).trans_lt N.size
    have hm : lfDelayTag zeroTag c = foreverTag ∨ pathDelay cs = foreverTag ∨
        (lfDelayTag zeroTag c).microstep.toNat + (pathDelay cs).microstep.toNat < 2 ^ 32 := by
      rcases microstep_lfDelayTag c with htop | hc
      · exact .inl htop
      · exact .inr ((microstep_pathDelay cs).imp id (by omega))
    exact floor_lfTagAdd_le (zeroTag_le_lfDelayTag c) (zeroTag_le_pathDelay cs)
      (time_lfDelayTag_zeroTag c) (time_pathDelay cs) hm (floor_lfDelayTag_zeroTag c).le hb

end Result

end LFBenchmarks.Federated
