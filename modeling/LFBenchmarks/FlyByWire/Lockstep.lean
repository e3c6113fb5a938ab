import LFBenchmarks.FlyByWire.History
import LFBenchmarks.FlyByWire.TagEffect

namespace LFBenchmarks.FlyByWire

section Lockstep

variable {V : Type*}

/-- Calls of `rand` the failure generator has made at the start of tick `n`. -/
def Env.calls (E : Env V) : Nat → Nat
  | 0 => 0
  | n + 1 => if E.source.offset ≤ n then (E.source.react (E.calls n)).1 else E.calls n

def Env.messages (E : Env V) (n : Nat) : Fin 3 → Option FaultMsg :=
  if E.source.offset ≤ n then (E.source.react (E.calls n)).2 else fun _ => none

def Env.faults (E : Env V) (i : Fin 3) (n : Nat) : Option FaultMsg := E.messages n i

theorem messages_before (E : Env V) (n : Nat) (hn : n < E.source.offset) (i : Fin 3) :
    E.messages n i = none := by
  unfold Env.messages
  rw [if_neg (by omega)]

/-- A schedule of messages reaches the PFCs as it is. -/
theorem messages_scheduled (E : Env V) (faults : Nat → Fin 3 → Option FaultMsg)
    (h : E.source = scheduledFaults faults) (n : Nat) : E.messages n = faults n := by
  have hcalls (n : Nat) : E.calls n = n := by
    induction n with
    | zero => rfl
    | succ n ih => simp [Env.calls, h, scheduledFaults, ih]
  unfold Env.messages
  rw [hcalls n, h]
  rfl

variable [Field V] [LinearOrder V] [FloorRing V]

/-- What PFC `i` transmits at tick `n` of a run. -/
def Env.sent (E : Env V) (n : Nat) (i : Fin 3) : Option (SpeedMsg V) :=
  Pfc.sent E (E.faults i) n

/-- State at the start of tick `n`: each PFC is the one that runs on its own with its
messages, and no captured sample is waiting. -/
structure AtTick (E : Env V) (n : Nat) (s : Sys V) : Prop where
  pfc : ∀ i, (if n = 0 then (s.pfc i).startup E.fopen else s.pfc i) = Pfc.run E (E.faults i) n
  fman : (if n = 0 then 0 else s.fman) = E.calls n
  hasS : ∀ i, s.wes.hasS i = false
  stopRequested : s.stopRequested = false

/-- State half a second later: WES holds exactly the samples of tick `n`. -/
structure AtVote (E : Env V) (n : Nat) (s : Sys V) : Prop where
  pfc : ∀ i, s.pfc i = Pfc.run E (E.faults i) (n + 1)
  fman : s.fman = E.calls (n + 1)
  speedOut : ∀ i, s.speedOut i = E.sent n i
  hasS : ∀ i, s.wes.hasS i = (E.sent n i).isSome
  lastS : ∀ i msg, E.sent n i = some msg → s.wes.lastS i = msg
  stopRequested : s.stopRequested = false

theorem atTick_initial (E : Env V) : AtTick E 0 (Sys.initial : Sys V) :=
  ⟨fun _ => rfl, rfl, fun _ => rfl, rfl⟩

theorem AtTick.faultsAt {E : Env V} {n : Nat} {s : Sys V} (h : AtTick E n s) :
    faultsAt E (E.events (.tick n)) s.fman = (E.calls (n + 1), E.messages n) := by
  have hc := h.fman
  simp only [FlyByWire.faultsAt, Env.events, decide_eq_true_eq, hc, Env.calls, Env.messages]
  split_ifs <;> rfl

theorem AtTick.atTag {E : Env V} {n : Nat} {s : Sys V} (h : AtTick E n s) (i : Fin 3) :
    (s.pfc i).atTag E (E.events (.tick n)) (E.messages n i) =
      (if n = E.timeout then (Pfc.run E (E.faults i) (n + 1)).shutdown
        else Pfc.run E (E.faults i) (n + 1), E.sent n i) := by
  have hp := h.pfc i
  simp only [Pfc.atTag, Env.events, decide_eq_true_eq, hp, if_true]
  rfl

/-- The PFCs, what they sent and what they were sent after the reactions of tick `n`. -/
theorem AtTick.after {E : Env V} {n : Nat} {s : Sys V} (h : AtTick E n s) (i : Fin 3) :
    let s' := runTag E (.tick n) s
    (s'.pfc i = if n = E.timeout then (Pfc.run E (E.faults i) (n + 1)).shutdown
      else Pfc.run E (E.faults i) (n + 1)) ∧
    s'.speedOut i = E.sent n i ∧ s'.fault i = E.messages n i := by
  rw [runTag_eq]
  simp only [h.faultsAt, h.atTag, and_self]

theorem AtTick.vote {E : Env V} {n : Nat} {s : Sys V} (h : AtTick E n s) (hn : n < E.timeout) :
    AtVote E n (runTag E (.tick n) s) := by
  have hpfc (i : Fin 3) : (s.pfc i).atTag E (E.events (.tick n)) (E.messages n i) =
      (Pfc.run E (E.faults i) (n + 1), E.sent n i) := by
    have hne : ¬n = E.timeout := by omega
    rw [h.atTag, if_neg hne]
  rw [runTag_eq]
  simp only [h.faultsAt, hpfc]
  refine ⟨fun _ => rfl, rfl, fun _ => rfl, fun i => ?_, fun i msg hm => ?_, ?_⟩
  · simp [Env.events, Wes.captureAll, h.hasS i]
  · simp [Env.events, Wes.captureAll, hm]
  · simp [Env.events, h.stopRequested]

theorem sent_valid (E : Env V) (n : Nat) (i : Fin 3) (msg : SpeedMsg V)
    (h : E.sent n i = some msg) : msg.counter = n ∧ msg.valid = true := by
  classical
  unfold Env.sent at h
  rw [sent_eq] at h
  split_ifs at h <;> cases h <;> exact ⟨rfl, rfl⟩

theorem AtVote.eofReached {E : Env V} {n : Nat} {s : Sys V} (h : AtVote E n s)
    (file : List Char) (hopen : openG18 E.fopen = some file) (i : Fin 3)
    (halive : (s.pfc i).alive = true) :
    (s.pfc i).eofReached = true ↔ E.fixes.length ≤ n := by
  rw [h.pfc i] at halive ⊢
  have hnav := (recorded_run E (E.faults i) (n + 1)).nav halive
  rw [← eofReached_iff E file hopen n, ← hnav]
  rfl

/-- The vote of tick `n`: on the samples of that tick, silent only without any, and nothing
stays captured on either exit. -/
theorem AtVote.voteTick {E : Env V} {n : Nat} {s : Sys V} (h : AtVote E n s) :
    (∀ i, s.wes.voteTick.1.hasS i = false) ∧
      s.wes.voteTick.2 = if ∀ i, E.sent n i = none then none else some s.wes.result := by
  have hvalid (i : Fin 3) : s.wes.valid i = (E.sent n i).isSome := by
    unfold Wes.valid
    rw [h.hasS i]
    cases hm : E.sent n i with
    | none => rfl
    | some msg => simp [h.lastS i msg hm, (sent_valid E n i msg hm).2]
  have hall : (∀ i, E.sent n i = none) ↔ ∀ i, s.wes.hasS i = false := by
    simp [h.hasS]
  by_cases hnone : ∀ i, E.sent n i = none
  · have hoff := hall.mp hnone
    have hvote : s.wes.voteTick = (s.wes, none) := by simp [Wes.voteTick, hoff]
    rw [hvote, if_pos hnone]
    exact ⟨hoff, rfl⟩
  · obtain ⟨i, hi⟩ := not_forall.mp hnone
    have hon : s.wes.hasS i = true ∧ s.wes.valid i = true := by
      rw [h.hasS i, hvalid i]
      cases hs : E.sent n i with
      | none => exact absurd hs hi
      | some msg => exact ⟨rfl, rfl⟩
    have hvote : s.wes.voteTick = ({ s.wes with hasS := fun _ => false }, some s.wes.result) := by
      unfold Wes.voteTick
      rw [if_neg, if_neg]
      · intro hz
        fin_cases i <;> simp_all
      · intro hz
        fin_cases i <;> simp_all
    rw [hvote, if_neg hnone]
    exact ⟨fun _ => rfl, rfl⟩

theorem runTag_vote (E : Env V) (n : Nat) (s : Sys V) :
    let s' := runTag E (.vote n) s
    s'.pfc = s.pfc ∧ s'.wes = s.wes.voteTick.1 ∧ s'.fman = s.fman ∧
      s'.status = s.wes.voteTick.2 ∧
      s'.stopRequested = (s.stopRequested || s.wes.voteTick.2.any Status.requestsStop) := by
  rw [runTag_eq]
  exact ⟨rfl, rfl, rfl, rfl, rfl⟩

theorem AtVote.status {E : Env V} {n : Nat} {s : Sys V} (h : AtVote E n s) :
    (runTag E (.vote n) s).status =
      if ∀ i, E.sent n i = none then none else some s.wes.result :=
  (runTag_vote E n s).2.2.2.1.trans h.voteTick.2

theorem AtVote.requested {E : Env V} {n : Nat} {s : Sys V} (h : AtVote E n s) :
    (runTag E (.vote n) s).stopRequested =
      (runTag E (.vote n) s).status.any Status.requestsStop := by
  obtain ⟨-, -, -, hstatus, hstop⟩ := runTag_vote E n s
  rw [hstop, hstatus, h.stopRequested, Bool.false_or]

theorem AtVote.tick {E : Env V} {n : Nat} {s : Sys V} (h : AtVote E n s)
    (hgo : (runTag E (.vote n) s).stopRequested = false) :
    AtTick E (n + 1) (runTag E (.vote n) s) := by
  obtain ⟨hpfc, hwes, hfman, -, -⟩ := runTag_vote E n s
  refine ⟨fun i => ?_, ?_, fun i => ?_, hgo⟩
  · simpa [hpfc] using h.pfc i
  · simpa [hfman] using h.fman
  · simpa [hwes] using h.voteTick.1 i

/-- The invariant of a run, by the tag it stands at. -/
def Lockstep (E : Env V) : Tag → Sys V → Prop
  | .tick n, s => AtTick E n s
  | .vote n, s => AtVote E n s
  | .shutdown, _ => True

theorem Reaches.lockstep {E : Env V} {tag : Tag} {s : Sys V} (h : Reaches E tag s) :
    Lockstep E tag s := by
  refine Reaches.induction (P := Lockstep E) (atTick_initial E)
    (fun tag tag' s hs hnext => ?_) h
  cases hnext with
  | vote hlt => exact AtTick.vote hs hlt
  | stop => exact True.intro
  | tick hgo => exact AtVote.tick hs hgo

theorem Reaches.atTick {E : Env V} {n : Nat} {s : Sys V} (h : Reaches E (.tick n) s) :
    AtTick E n s := h.lockstep

theorem Reaches.atVote {E : Env V} {n : Nat} {s : Sys V} (h : Reaches E (.vote n) s) :
    AtVote E n s := h.lockstep

/-- At every vote WES holds the samples of that very second, and of no other. -/
theorem no_vote_mixes_ticks (E : Env V) (n : Nat) (s s' : Sys V)
    (h : Reaches E (.vote n) s) (hvote : TagStep E (.vote n) s s') :
    (∀ i, (s.wes.hasS i = true ↔ (s.speedOut i).isSome = true) ∧
      ∀ msg, s.speedOut i = some msg → s.wes.lastS i = msg ∧ msg.counter = n) ∧
    (∀ i j, s.wes.hasS i = true → s.wes.hasS j = true →
      (s.wes.lastS i).counter = (s.wes.lastS j).counter) ∧
    ∀ i, s'.wes.hasS i = false := by
  have hv := h.atVote
  have hcapture (i : Fin 3) : (s.wes.hasS i = true ↔ (s.speedOut i).isSome = true) ∧
      ∀ msg, s.speedOut i = some msg → s.wes.lastS i = msg ∧ msg.counter = n := by
    rw [hv.hasS i, hv.speedOut i]
    exact ⟨Iff.rfl, fun msg hm => ⟨hv.lastS i msg hm, (sent_valid E n i msg hm).1⟩⟩
  have hcounter (i : Fin 3) (hi : s.wes.hasS i = true) : (s.wes.lastS i).counter = n := by
    obtain ⟨msg, hm⟩ := Option.isSome_iff_exists.mp ((hcapture i).1.mp hi)
    obtain ⟨hlast, hc⟩ := (hcapture i).2 msg hm
    rw [hlast, hc]
  refine ⟨hcapture, fun i j hi hj => (hcounter i hi).trans (hcounter j hj).symm, fun i => ?_⟩
  rw [tagStep_iff] at hvote
  rw [hvote, (runTag_vote E n s).2.1]
  exact hv.voteTick.1 i

/-- A stopped PFC leaves its flag down, the others carry the sample of the second. -/
theorem no_vote_mixes_ticks_stopped :
    let faults : Nat → Fin 3 → Option FaultMsg := fun n i =>
      if n = 1 ∧ i = 2 then some ⟨true, false, false, false⟩ else none
    let E : Env ℚ := { biasedEnv with source := scheduledFaults faults }
    let s := runTag E (.tick 1) (onward E 1)
    s.wes.hasS 2 = false ∧ (∀ i, i ≠ 2 → s.wes.hasS i = true ∧ (s.wes.lastS i).counter = 1) ∧
      ∀ i, (runTag E (.vote 1) s).wes.hasS i = false := by
  intro faults E s
  have hreach : Reaches E (.vote 1) s :=
    (reaches_onward E 1 (by decide) (by decide +kernel)).vote (by decide)
  obtain ⟨hcapture, -, hclear⟩ :=
    no_vote_mixes_ticks E 1 s (runTag E (.vote 1) s) hreach ((tagStep_iff E _ _ _).mpr rfl)
  have hsent : ∀ i, (s.speedOut i).isSome = true ↔ i ≠ 2 := by decide +kernel
  refine ⟨?_, fun i hi => ?_, hclear⟩
  · rw [← Bool.not_eq_true, (hcapture 2).1, hsent]
    exact fun hne => hne rfl
  · obtain ⟨msg, hmsg⟩ := Option.isSome_iff_exists.mp ((hsent i).mpr hi)
    obtain ⟨hlast, hcounter⟩ := (hcapture i).2 msg hmsg
    exact ⟨(hcapture i).1.mpr ((hsent i).mpr hi), hlast ▸ hcounter⟩

end Lockstep

end LFBenchmarks.FlyByWire
