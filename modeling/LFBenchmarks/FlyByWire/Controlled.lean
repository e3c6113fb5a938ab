import LFBenchmarks.FlyByWire.Transcript
import LFBenchmarks.FlyByWire.Verdict

namespace LFBenchmarks.FlyByWire

section Faults

variable {V : Type*}

/-- The controlled build, over any files and distances. -/
structure Controlled (E : Env V) : Prop where
  source : E.source = controlledFaults
  timeout : E.timeout = 645

theorem controlled_controlledEnv (fopen : String → Option (List Char)) : Controlled (controlledEnv fopen) :=
  ⟨rfl, rfl⟩

/-- The message the controlled sequence has for a PFC at a tick. -/
def controlledMessage (n : Nat) (i : Fin 3) : Option FaultMsg :=
  (controlledFault n).bind fun f => if f.target = i then some f.msg else none

theorem controlledFault_none (n : Nat) (h : n ≠ 5 ∧ n ≠ 8 ∧ n ≠ 640) : controlledFault n = none := by
  obtain ⟨h5, h8, h640⟩ := h
  simp [controlledFault, h5, h8, h640]

theorem Controlled.calls {E : Env V} (h : Controlled E) (n : Nat) : E.calls n = n - 2 := by
  induction n with
  | zero => rfl
  | succ n ih =>
    simp only [Env.calls, h.source, controlledFaults, ih]
    split_ifs <;> omega

theorem Controlled.faults {E : Env V} (h : Controlled E) (n : Nat) (i : Fin 3) :
    E.faults i n = controlledMessage n i := by
  unfold Env.faults Env.messages
  rw [h.calls n, h.source]
  by_cases hn : controlledFaults.offset ≤ n
  · have hfired : n - 2 + 2 = n := Nat.sub_add_cancel hn
    rw [if_pos hn, controlledMessage, ← hfired]
    rfl
  · have hearly : n < 2 := not_le.mp hn
    rw [if_neg hn, controlledMessage, controlledFault_none n (by omega)]
    rfl

theorem controlledMessage_none (n : Nat) (i : Fin 3) (h : ¬(i = 1 ∧ (n = 5 ∨ n = 8)))
    (h' : ¬(i = 2 ∧ n = 640)) : controlledMessage n i = none := by
  unfold controlledMessage controlledFault
  split_ifs <;> simp <;> intro hi <;> subst hi <;> simp_all

theorem controlledMessage_interrupt (n : Nat) (i : Fin 3) (msg : FaultMsg)
    (h : controlledMessage n i = some msg) : msg.interrupt = false := by
  unfold controlledMessage controlledFault at h
  split_ifs at h <;> simp at h <;> obtain ⟨-, rfl⟩ := h <;> rfl

variable {E : Env V} (h : Controlled E)
include h

theorem Controlled.not_interrupted (i : Fin 3) (n : Nat) : ¬Interrupted (E.faults i) n := by
  rintro ⟨k, -, msg, hmsg, hint⟩
  rw [h.faults] at hmsg
  rw [controlledMessage_interrupt k i msg hmsg] at hint
  exact Bool.noConfusion hint

/-- PFC2 alone is stopped, from tick 5 until tick 8. -/
theorem Controlled.resumed_iff (i : Fin 3) (n : Nat) :
    Resumed (E.faults i) n ↔ ¬(i = 1 ∧ 5 < n ∧ n ≤ 8) := by
  induction n with
  | zero => simp [Resumed]
  | succ n ih =>
    by_cases hswitch : i = 1 ∧ (n = 5 ∨ n = 8)
    · obtain ⟨rfl, rfl | rfl⟩ := hswitch
      · rw [resumed_succ_of_switch _ 5 ⟨true, false, false, false⟩ (h.faults 5 1) rfl]
        simp
      · rw [resumed_succ_of_switch _ 8 ⟨false, false, true, false⟩ (h.faults 8 1) rfl]
        simp
    · rw [resumed_succ_of_keep, ih]
      · omega
      · intro msg hmsg
        rw [h.faults] at hmsg
        by_cases hbias : i = 2 ∧ n = 640
        · obtain ⟨rfl, rfl⟩ := hbias
          cases hmsg
          rfl
        · rw [controlledMessage_none n i hswitch hbias] at hmsg
          cases hmsg

theorem Controlled.transmits_iff (i : Fin 3) (n : Nat) :
    Transmits (E.faults i) n ↔ ¬(i = 1 ∧ 5 ≤ n ∧ n < 8) := by
  rw [Transmits, h.resumed_iff]
  constructor
  · rintro ⟨-, hr⟩
    omega
  · intro hr
    exact ⟨h.not_interrupted i _, by omega⟩

/-- The bias of PFC3 is pending at tick 640 and at no other tick. -/
theorem Controlled.biased_iff (i : Fin 3) (n : Nat) :
    Biased (E.faults i) n ↔ i = 2 ∧ n = 640 := by
  constructor
  · rintro ⟨k, hk, ⟨msg, hmsg, hbias⟩, hlast⟩
    rw [h.faults] at hmsg
    have hsource : i = 2 ∧ k = 640 := by
      by_contra hnot
      by_cases hswitch : i = 1 ∧ (k = 5 ∨ k = 8)
      · obtain ⟨rfl, rfl | rfl⟩ := hswitch <;> cases hmsg <;> cases hbias
      · rw [controlledMessage_none k i hswitch hnot] at hmsg
        cases hmsg
    obtain ⟨rfl, rfl⟩ := hsource
    refine ⟨rfl, ?_⟩
    by_contra hn
    have hlt := hlast (n - 1) (by omega) ((h.transmits_iff 2 (n - 1)).mpr (by simp))
    omega
  · rintro ⟨rfl, rfl⟩
    exact ⟨640, by omega, ⟨_, h.faults 640 2, rfl⟩, fun j hj _ => hj⟩

variable [Field V] [LinearOrder V] [FloorRing V]

/-- What a PFC sends in the controlled run. -/
theorem Controlled.sent (n : Nat) (i : Fin 3) :
    E.sent n i = if n < E.fixes.length ∧ ¬(i = 1 ∧ 5 ≤ n ∧ n < 8) then
      some ⟨n, if i = 2 ∧ n = 640 then applyBias (nominalSpeed E.distance E.fixes n)
        else nominalSpeed E.distance E.fixes n, true⟩ else none := by
  classical
  rw [Env.sent, sent_eq]
  simp only [h.transmits_iff, h.biased_iff]

end Faults

section Kinds

/-- What a line is about, without the values it prints. -/
inductive Kind where
  | cannotOpen (i : Fin 3)
  | stopped (i : Fin 3)
  | killed (i : Fin 3)
  | resumed (i : Fin 3)
  | biasScheduled (i : Fin 3)
  | endOfData (i : Fin 3)
  | biasApplied (i : Fin 3)
  | agree
  | discordant (i : Fin 3)
  | noTwoAgree
  | sent (fault : String)
  | faulty (i : Fin 3)
  | terminating
  | finished
  deriving DecidableEq

variable {V : Type*}

def Message.kind : Message V → Kind
  | .stopped i => .stopped i
  | .killed i => .killed i
  | .resumed i => .resumed i
  | .biasScheduled i => .biasScheduled i
  | .endOfData i _ => .endOfData i
  | .biasApplied i _ _ => .biasApplied i
  | .agree _ => .agree
  | .discordant i _ => .discordant i
  | .noTwoAgree _ => .noTwoAgree
  | .sent fault => .sent fault
  | .faulty i => .faulty i
  | .terminating => .terminating
  | .finished => .finished

/-- The second and the kind of a line; the one without a time comes at the start. -/
def Printed.kind : Printed V → Nat × Kind
  | .cannotOpen i => (0, .cannotOpen i)
  | .at t msg => (t, msg.kind)

/-- The lines of PFC `i` at tick `n` of the controlled run, with `m` samples to read. -/
def pfcKinds (opened : Bool) (m n : Nat) (i : Fin 3) : List Kind :=
  (if n = 0 ∧ opened = false then [.cannotOpen i] else []) ++
    ((if n = 5 ∧ i = pfc2 then [.stopped i] else []) ++
      (if n = 8 ∧ i = pfc2 then [.resumed i] else []) ++
      (if n = 640 ∧ i = pfc3 then [.biasScheduled i] else [])) ++
    (if n < m then if n = 640 ∧ i = pfc3 then [.biasApplied i] else []
      else if opened ∧ n = m then [.endOfData i] else [])

def tickKinds (opened : Bool) (m n : Nat) : List Kind :=
  (controlledFault n).elim [] (fun f => [.sent f.text]) ++
    (List.finRange 3).flatMap (pfcKinds opened m n)

/-- The lines of the vote half a second later; `visible` says whether the bias changes the
speed. -/
def voteKinds (visible : Bool) (m n : Nat) : List Kind :=
  if m ≤ n then []
  else if 5 ≤ n ∧ n < 8 then [.discordant pfc2, .faulty pfc2]
  else if n = 640 ∧ visible then [.discordant pfc3, .faulty pfc3]
  else [.agree]

end Kinds

section Lines

variable {V : Type*} [Field V]

/-- The stream of a PFC that keeps living is open, and not yet known to be at its end. -/
theorem navAt_reading (E : Env V) (n : Nat) (hn : E.fixes.length ≤ n) :
    ((navAt E n).fp.isSome && !(navAt E n).eofReached) =
      decide ((openG18 E.fopen).isSome ∧ n = E.fixes.length) := by
  cases hopen : openG18 E.fopen with
  | none =>
    have hfp : (navAt E n).fp = none := by
      clear hn
      induction n with
      | zero => exact hopen
      | succ n ih =>
        rw [navAt_succ]
        cases heof : (navAt E n).eofReached <;> simp [Nav.step, Nav.read, ih, heof]
    simp [hfp]
  | some file =>
    rcases Nat.eq_or_lt_of_le hn with rfl | hlt
    · have h := onTrack_navAt E file hopen E.fixes.length le_rfl
      obtain ⟨rest, hfp, -⟩ := h.fp
      simp [hfp, h.eofReached]
    · obtain ⟨k, rfl⟩ : ∃ k, n = k + 1 := ⟨n - 1, by omega⟩
      have heof := (eofReached_iff E file hopen k).mpr (by omega)
      simp [heof]
      omega

variable [LinearOrder V] [FloorRing V]

theorem Pfc.timerPrints_alive (distance : GllFix → GllFix → V) (i : Fin 3) (p : Pfc V)
    (h : p.alive = true) : (p.timerPrints distance i).map Message.kind =
      if (p.nav.sample distance).isSome then
        if p.active && p.bias then [.biasApplied i] else []
      else if p.nav.fp.isSome && !p.nav.eofReached then [.endOfData i] else [] := by
  obtain ⟨fp, prevFix, hasPrev, accumulatedSpeed, counter, active, alive, bias, eofReached⟩ := p
  obtain rfl : alive = true := h
  cases fp with
  | none => cases eofReached <;> simp [Pfc.timerPrints, Pfc.nav, Nav.sample, Nav.read]
  | some stream =>
    cases eofReached with
    | true => simp [Pfc.timerPrints, Pfc.nav, Nav.sample, Nav.read]
    | false =>
      rcases hr : nextFix stream with ⟨fix, rest⟩
      cases fix <;> cases active <;> cases bias <;>
        simp [Pfc.timerPrints, Pfc.nav, Nav.sample, Nav.read, hr, Message.kind]

variable {E : Env V} (h : Controlled E)
include h

theorem Controlled.run_flags (i : Fin 3) (n : Nat) :
    (Pfc.run E (E.faults i) n).alive = true ∧
      ((Pfc.run E (E.faults i) n).active = true ↔ ¬(i = 1 ∧ 5 < n ∧ n ≤ 8)) := by
  have hrec := recorded_run E (E.faults i) n
  have halive := hrec.alive.mpr (h.not_interrupted i n)
  exact ⟨halive, (hrec.active halive).trans (h.resumed_iff i n)⟩

/-- The timer lines of a PFC in the controlled run. -/
theorem Controlled.timer_kinds (i : Fin 3) (n : Nat) :
    ((Pfc.afterFault E (E.faults i) n).timerPrints E.distance i).map Message.kind =
      if n < E.fixes.length then if n = 640 ∧ i = 2 then [.biasApplied i] else []
      else if (openG18 E.fopen).isSome ∧ n = E.fixes.length then [.endOfData i] else [] := by
  have hrec := recorded_afterFault E (E.faults i) n
  have halive := hrec.alive.mpr (h.not_interrupted i (n + 1))
  rw [Pfc.timerPrints_alive _ _ _ halive, hrec.nav halive]
  by_cases hn : n < E.fixes.length
  · have hactive := (hrec.active halive).trans (h.resumed_iff i (n + 1))
    have hbias : (Pfc.afterFault E (E.faults i) n).bias = true ↔ i = 2 ∧ n = 640 :=
      (hrec.bias halive hn.le).trans (h.biased_iff i n)
    rw [sample_of_lt E n hn, if_pos hn]
    by_cases hb : n = 640 ∧ i = 2
    · obtain ⟨rfl, rfl⟩ := hb
      simp [hactive, hbias]
    · have hoff : (Pfc.afterFault E (E.faults i) n).bias = false := by
        rw [← Bool.not_eq_true, hbias]
        tauto
      simp [hoff, hb]
  · rw [sample_of_ge E n (by omega), if_neg hn, navAt_reading E n (by omega)]
    simp

theorem Controlled.fault_kinds (i : Fin 3) (n : Nat) :
    (((controlledMessage n i).elim [] (fun fault =>
        (Pfc.run E (E.faults i) n).faultPrints i fault))).map Message.kind =
      (if n = 5 ∧ i = 1 then [.stopped i] else []) ++
        (if n = 8 ∧ i = 1 then [.resumed i] else []) ++
        (if n = 640 ∧ i = 2 then [.biasScheduled i] else []) := by
  obtain ⟨halive, hactive⟩ := h.run_flags i n
  by_cases hswitch : i = 1 ∧ (n = 5 ∨ n = 8)
  · obtain ⟨rfl, rfl | rfl⟩ := hswitch
    · have hup : (Pfc.run E (E.faults 1) 5).active = true := hactive.mpr (by omega)
      simp [controlledMessage, controlledFault, Pfc.faultPrints, halive, hup, Message.kind]
    · have hdown : (Pfc.run E (E.faults 1) 8).active = false := by
        rw [← Bool.not_eq_true, hactive]
        omega
      simp [controlledMessage, controlledFault, Pfc.faultPrints, halive, hdown, Message.kind]
  · by_cases hbias : i = 2 ∧ n = 640
    · obtain ⟨rfl, rfl⟩ := hbias
      simp [controlledMessage, controlledFault, Pfc.faultPrints, halive, Message.kind]
    · have h5 : ¬(n = 5 ∧ i = 1) := by omega
      have h8 : ¬(n = 8 ∧ i = 1) := by omega
      have h640 : ¬(n = 640 ∧ i = 2) := by omega
      rw [controlledMessage_none n i hswitch hbias, if_neg h5, if_neg h8, if_neg h640]
      rfl

theorem Controlled.pfc_kinds {n : Nat} {s : Sys V} (htick : AtTick E n s) (i : Fin 3) :
    ((s.pfc i).printsAt E (E.events (.tick n)) n i (E.messages n i)).map Printed.kind =
      (pfcKinds (openG18 E.fopen).isSome E.fixes.length n i).map (n, ·) := by
  have hstart : (if (E.events (.tick n)).startup = true then (s.pfc i).startup E.fopen
      else s.pfc i) = Pfc.run E (E.faults i) n := by
    simpa [Env.events] using htick.pfc i
  have hmsg : E.messages n i = controlledMessage n i := h.faults n i
  have hafter : (controlledMessage n i).elim (Pfc.run E (E.faults i) n)
      (Pfc.run E (E.faults i) n).faultIn = Pfc.afterFault E (E.faults i) n := by
    rw [Pfc.afterFault, h.faults n i]
  have hopen : (if (E.events (.tick n)).startup = true then
      (Pfc.startupPrints E.fopen i : List (Printed V)) else []).map Printed.kind =
      (if n = 0 ∧ (openG18 E.fopen).isSome = false then [Kind.cannotOpen i] else []).map (n, ·) := by
    by_cases hn : n = 0
    · subst hn
      cases hf : openG18 E.fopen <;> simp [Env.events, Pfc.startupPrints, hf, Printed.kind]
    · simp [Env.events, hn]
  have htimed (msgs : List (Message V)) :
      (msgs.map (Printed.at n)).map Printed.kind = (msgs.map Message.kind).map (n, ·) := by
    simp [Printed.kind]
  have hticks : (E.events (.tick n)).pfcTimer = true := rfl
  simp only [Pfc.printsAt, hstart, hmsg, hafter, hticks, if_true, List.map_append, htimed,
    hopen, h.fault_kinds i n, h.timer_kinds i n, pfcKinds]
  rfl

/-- The lines of tick `n` of the controlled run. -/
theorem Controlled.tick_kinds {n : Nat} {s : Sys V} (htick : AtTick E n s) :
    (printTag E (.tick n) s).map Printed.kind =
      (tickKinds (openG18 E.fopen).isSome E.fixes.length n).map (n, ·) := by
  have hfman : (if E.source.offset ≤ n then (failurePrints n).map (Printed.at n) else
      ([] : List (Printed V))).map Printed.kind =
      ((controlledFault n).elim [] (fun f => [Kind.sent f.text])).map (n, ·) := by
    unfold failurePrints
    by_cases hn : E.source.offset ≤ n
    · rw [if_pos hn]
      cases controlledFault n <;> rfl
    · have hearly : n < 2 := by
        rw [h.source] at hn
        exact not_le.mp hn
      rw [if_neg hn, controlledFault_none n (by omega)]
      rfl
  rw [printTag_tick E n s htick, List.map_append, hfman, tickKinds, List.map_append,
    List.map_flatMap, List.map_flatMap]
  simp only [h.pfc_kinds htick]

end Lines

section Statuses

variable {V : Type*} [LinearOrder V]

/-- What WES and PFCDS say about a status. -/
def Status.kinds : Status → List Kind
  | .ok => [.agree]
  | .errorPfc i => [.discordant i, .faulty i]
  | .emergency => [.noTwoAgree, .terminating]
  | .exit => [.finished]

theorem Wes.vote_kinds (w : Wes V) :
    (w.votePrints ++ w.voteTick.2.elim [] Status.prints).map Message.kind =
      w.voteTick.2.elim [] Status.kinds := by
  have hprints : w.votePrints = if !w.hasS 0 && !w.hasS 1 && !w.hasS 2 then []
      else if (w.valid 0).toNat + (w.valid 1).toNat + (w.valid 2).toNat = 0 then []
      else match w.result with
        | .ok => [.agree (w.lastS 0).speed]
        | .errorPfc i => [.discordant i w.lastS]
        | .emergency => [.noTwoAgree w.lastS]
        | .exit => [] := rfl
  rw [hprints, Wes.voteTick]
  split_ifs
  · rfl
  · rfl
  · cases w.result <;> simp [Status.prints, Message.kind, Status.kinds]

end Statuses

section Votes

variable {V : Type*} [Field V] [LinearOrder V] [FloorRing V]

/-- The sample PFC `i` sends is the unbiased one of this tick. -/
def Env.SentNominal (E : Env V) (n : Nat) (i : Fin 3) : Prop :=
  E.sent n i = some ⟨n, nominalSpeed E.distance E.fixes n, true⟩

/-- When at most one PFC sends anything else, two samples match exactly when both are nominal. -/
theorem AtVote.matching_nominal {E : Env V} {n : Nat} {s : Sys V} (hv : AtVote E n s)
    (hmost : ∀ i j, i ≠ j → E.SentNominal n i ∨ E.SentNominal n j) (i j : Fin 3) (hij : i ≠ j) :
    s.wes.matching i j = true ↔ E.SentNominal n i ∧ E.SentNominal n j := by
  unfold Wes.matching Wes.valid
  rw [hv.hasS i, hv.hasS j]
  cases hi : E.sent n i with
  | none => simp [Env.SentNominal, hi]
  | some a =>
    cases hj : E.sent n j with
    | none => simp [Env.SentNominal, hj]
    | some b =>
      obtain ⟨hac, hav⟩ := sent_valid E n i a hi
      obtain ⟨hbc, hbv⟩ := sent_valid E n j b hj
      obtain ⟨ac, as, av⟩ := a
      obtain ⟨bc, bs, bv⟩ := b
      subst hac hav hbc hbv
      have hone := hmost i j hij
      simp only [Env.SentNominal, hi, hj, Option.some.injEq, SpeedMsg.mk.injEq, true_and,
        and_true] at hone ⊢
      simp only [hv.lastS i _ hi, hv.lastS j _ hj, Option.isSome_some, Bool.and_true,
        decide_true, Bool.true_and, decide_eq_true_eq]
      constructor
      · rintro rfl
        exact ⟨hone.elim id id, hone.elim id id⟩
      · rintro ⟨rfl, rfl⟩
        rfl

variable {E : Env V} (h : Controlled E)
include h

theorem Controlled.sentNominal_iff {n : Nat} (hn : n < E.fixes.length) (i : Fin 3) :
    E.SentNominal n i ↔ ¬(i = 1 ∧ 5 ≤ n ∧ n < 8) ∧
      (i = 2 ∧ n = 640 → applyBias (nominalSpeed E.distance E.fixes n) =
        nominalSpeed E.distance E.fixes n) := by
  rw [Env.SentNominal, h.sent n i]
  by_cases hstop : i = 1 ∧ 5 ≤ n ∧ n < 8
  · simp [hstop]
  · by_cases hbias : i = 2 ∧ n = 640
    · obtain ⟨rfl, rfl⟩ := hbias
      simp [hn]
    · simp [hn, hstop, hbias]

/-- The bias of tick 640 changes the speed. -/
def Env.BiasVisible (E : Env V) : Prop :=
  applyBias (nominalSpeed E.distance E.fixes 640) ≠ nominalSpeed E.distance E.fixes 640

instance (E : Env V) : Decidable E.BiasVisible := inferInstanceAs (Decidable (_ ≠ _))

theorem Controlled.result {n : Nat} {s : Sys V} (hv : AtVote E n s) (hn : n < E.fixes.length) :
    s.wes.result = if 5 ≤ n ∧ n < 8 then .errorPfc 1
      else if n = 640 ∧ E.BiasVisible then .errorPfc 2 else .ok := by
  have hnominal := h.sentNominal_iff hn
  have hmost (i j : Fin 3) (hij : i ≠ j) : E.SentNominal n i ∨ E.SentNominal n j := by
    rw [hnominal, hnominal]
    by_contra hnone
    omega
  obtain ⟨hok, herror, -⟩ := s.wes.result_iff (E.SentNominal n) (hv.matching_nominal hmost)
  split_ifs with hstop hbias
  · rw [herror]
    refine ⟨fun j hj => (hnominal j).mpr ⟨by omega, fun hj' => ?_⟩, fun hone => ?_⟩
    · exact absurd hj'.2 (by omega)
    · exact ((hnominal 1).mp hone).1 ⟨rfl, hstop⟩
  · obtain ⟨rfl, hvisible⟩ := hbias
    rw [herror]
    refine ⟨fun j hj => (hnominal j).mpr ⟨by omega, fun hj' => absurd hj'.1 hj⟩, fun htwo => ?_⟩
    exact hvisible (((hnominal 2).mp htwo).2 ⟨rfl, rfl⟩)
  · rw [hok]
    intro i
    rw [hnominal]
    refine ⟨by omega, ?_⟩
    rintro ⟨rfl, rfl⟩
    by_contra hvisible
    exact hbias ⟨rfl, hvisible⟩

/-- The vote of the controlled run: what it prints, and that it never asks for a stop. -/
theorem Controlled.vote_kinds {n : Nat} {s : Sys V} (hv : AtVote E n s) :
    (printTag E (.vote n) s).map Printed.kind =
        (voteKinds (decide E.BiasVisible) E.fixes.length n).map (n, ·) ∧
      (runTag E (.vote n) s).stopRequested = false := by
  have htimed (msgs : List (Message V)) :
      (msgs.map (Printed.at n)).map Printed.kind = (msgs.map Message.kind).map (n, ·) := by
    simp [Printed.kind]
  have hvote := hv.voteTick.2
  rw [printTag_vote, htimed, s.wes.vote_kinds, hv.requested, hv.status, hvote]
  by_cases hn : n < E.fixes.length
  · have hsent : ¬∀ i, E.sent n i = none := by
      intro hnone
      have h0 := hnone 0
      rw [h.sent n 0, if_pos ⟨hn, by omega⟩] at h0
      cases h0
    rw [if_neg hsent, h.result hv hn, voteKinds, if_neg (not_le.mpr hn)]
    split_ifs with hstop hbias hbias'
    all_goals simp_all [Status.kinds, Status.requestsStop]
  · have hnone : ∀ i, E.sent n i = none := by
      intro i
      rw [h.sent n i, if_neg (fun hlt => hn hlt.1)]
    rw [if_pos hnone, voteKinds, if_pos (not_lt.mp hn)]
    exact ⟨rfl, rfl⟩

end Votes

section Trace

variable {V : Type*} [Field V] [LinearOrder V] [FloorRing V]

/-- The lines of second `n`: those of the tick, then those of the vote. -/
def secondKinds (opened visible : Bool) (m n : Nat) : List (Nat × Kind) :=
  (tickKinds opened m n ++ voteKinds visible m n).map (n, ·)

/-- The lines of the first `n` seconds. -/
def kindsBefore (opened visible : Bool) (m n : Nat) : List (Nat × Kind) :=
  (List.range n).flatMap (secondKinds opened visible m)

theorem kindsBefore_succ (opened visible : Bool) (m n : Nat) :
    kindsBefore opened visible m (n + 1) = kindsBefore opened visible m n ++
      (tickKinds opened m n).map (n, ·) ++ (voteKinds visible m n).map (n, ·) := by
  rw [kindsBefore, List.range_succ, List.flatMap_append, List.flatMap_singleton, secondKinds,
    List.map_append, List.append_assoc]
  rfl

/-- The lines of a controlled run. The timeout ends it after the tick at 645 s. -/
def controlledTrace (opened visible : Bool) (m : Nat) : List (Nat × Kind) :=
  kindsBefore opened visible m 645 ++ (tickKinds opened m 645).map (645, ·)

/-- The lines printed before a tag, and where the PFCs and WES stand. -/
def TraceAt (E : Env V) (tag : Tag) (s : Sys V) (out : Multiset (Printed V)) : Prop :=
  let opened := (openG18 E.fopen).isSome
  let m := E.fixes.length
  let before := kindsBefore opened (decide E.BiasVisible) m
  match tag with
  | .tick n => AtTick E n s ∧ n ≤ 645 ∧
      out.map Printed.kind = (before n : Multiset (Nat × Kind))
  | .vote n => AtVote E n s ∧ n < 645 ∧
      out.map Printed.kind = (before n ++ (tickKinds opened m n).map (n, ·) : Multiset (Nat × Kind))
  | .shutdown => False

variable {E : Env V} (h : Controlled E)
include h

theorem Controlled.traceAt (c : Config V) (out : List (Printed V)) (hc : Transcript E c out) :
    TraceAt E c.tag c.sys out := by
  refine Transcript.induction (P := TraceAt E) ?_ ?_ hc
  · exact ⟨atTick_initial E, by omega, rfl⟩
  · intro tag tag' s out hat hnext
    cases hnext with
    | @vote n hlt =>
      obtain ⟨htick, -, hout⟩ := hat
      refine ⟨htick.vote hlt, h.timeout ▸ hlt, ?_⟩
      rw [Multiset.map_add, hout, Multiset.map_coe, h.tick_kinds htick]
      rfl
    | @stop n hstop =>
      rw [(h.vote_kinds hat.1).2] at hstop
      exact Bool.noConfusion hstop
    | @tick n hgo =>
      obtain ⟨hvote, hlt, hout⟩ := hat
      refine ⟨hvote.tick hgo, hlt, ?_⟩
      rw [Multiset.map_add, hout, Multiset.map_coe, (h.vote_kinds hvote).1, Multiset.coe_add,
        kindsBefore_succ]

/-- Every controlled run prints the same lines, up to the order of reactions within a tag. -/
theorem Controlled.trace (out : List (Printed V)) (hout : PrintsAll E out) :
    (out.map Printed.kind).Perm
      (controlledTrace (openG18 E.fopen).isSome (decide E.BiasVisible) E.fixes.length) := by
  obtain ⟨tag, s, before, hat, hend, hsame⟩ := hout.last (P := TraceAt E) h.traceAt
  cases tag with
  | shutdown => exact hat.elim
  | vote n =>
    simp only [nextTag] at hend
    split_ifs at hend
  | tick n =>
    obtain ⟨htick, hle, hbefore⟩ := hat
    have hlast : n = 645 := by
      simp only [nextTag] at hend
      split_ifs at hend with hlt
      rw [h.timeout] at hlt
      omega
    subst hlast
    rw [← Multiset.coe_eq_coe, ← Multiset.map_coe, hsame, Multiset.map_add, hbefore,
      Multiset.map_coe, h.tick_kinds htick]
    rfl

end Trace

end LFBenchmarks.FlyByWire
