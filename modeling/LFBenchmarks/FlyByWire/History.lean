import LFBenchmarks.FlyByWire.Navigation

namespace LFBenchmarks.FlyByWire

section History

/-- A message before tick `n` carried INT. -/
def Interrupted (faults : Nat → Option FaultMsg) (n : Nat) : Prop :=
  ∃ k < n, ∃ msg, faults k = some msg ∧ msg.interrupt = true

def FaultMsg.switches (msg : FaultMsg) : Bool := msg.stop || msg.cont

/-- The last message before tick `n` that carried STOP or CONT carried CONT, or there was
none. -/
def Resumed (faults : Nat → Option FaultMsg) (n : Nat) : Prop :=
  ∀ k < n, ∀ msg, faults k = some msg → msg.switches = true →
    (∀ j, k < j → j < n → ∀ later, faults j = some later → later.switches = false) →
    msg.cont = true

/-- By its messages up to and including tick `n`, a PFC may transmit at tick `n`. -/
def Transmits (faults : Nat → Option FaultMsg) (n : Nat) : Prop :=
  ¬Interrupted faults (n + 1) ∧ Resumed faults (n + 1)

/-- A message with BIAS before tick `n` came after every transmission before tick `t`. -/
def BiasSince (faults : Nat → Option FaultMsg) (n t : Nat) : Prop :=
  ∃ k < n, (∃ msg, faults k = some msg ∧ msg.bias = true) ∧ ∀ j < t, Transmits faults j → j < k

/-- A message with BIAS arrived after the previous transmission and at or before tick `n`. -/
def Biased (faults : Nat → Option FaultMsg) (n : Nat) : Prop := BiasSince faults (n + 1) n

instance (faults : Nat → Option FaultMsg) (n : Nat) : Decidable (Interrupted faults n) :=
  inferInstanceAs (Decidable (∃ k, k < n ∧ ∃ msg, msg ∈ faults k ∧ msg.interrupt = true))

instance (faults : Nat → Option FaultMsg) (n : Nat) : Decidable (Resumed faults n) :=
  inferInstanceAs (Decidable (∀ k, k < n → ∀ msg, msg ∈ faults k → msg.switches = true →
    (∀ j, k + 1 ≤ j → j < n → ∀ later, later ∈ faults j → later.switches = false) → msg.cont = true))

instance (faults : Nat → Option FaultMsg) (n : Nat) : Decidable (Transmits faults n) :=
  inferInstanceAs (Decidable (_ ∧ _))

instance (faults : Nat → Option FaultMsg) (n : Nat) : Decidable (Biased faults n) :=
  inferInstanceAs (Decidable (∃ k, k < n + 1 ∧ (∃ msg, msg ∈ faults k ∧ msg.bias = true) ∧
    ∀ j, j < n → Transmits faults j → j < k))

theorem interrupted_succ (faults : Nat → Option FaultMsg) (n : Nat) :
    Interrupted faults (n + 1) ↔
      Interrupted faults n ∨ ∃ msg, faults n = some msg ∧ msg.interrupt = true := by
  constructor
  · intro hsome
    obtain ⟨k, hk, msg, hm, hi⟩ := hsome
    rcases Nat.lt_succ_iff_lt_or_eq.mp hk with h | rfl
    · exact .inl ⟨k, h, msg, hm, hi⟩
    · exact .inr ⟨msg, hm, hi⟩
  · intro hcase
    rcases hcase with ⟨k, hk, msg, hm, hi⟩ | ⟨msg, hm, hi⟩
    · exact ⟨k, by omega, msg, hm, hi⟩
    · exact ⟨n, by omega, msg, hm, hi⟩

theorem resumed_succ_of_keep (faults : Nat → Option FaultMsg) (n : Nat)
    (h : ∀ msg, faults n = some msg → msg.switches = false) :
    Resumed faults (n + 1) ↔ Resumed faults n := by
  constructor
  · intro hr k hk msg hm hs hlast
    apply hr k (by omega) msg hm hs
    intro j hkj hj later hl
    rcases Nat.lt_succ_iff_lt_or_eq.mp hj with hj | rfl
    · exact hlast j hkj hj later hl
    · exact h later hl
  · intro hr k hk msg hm hs hlast
    rcases Nat.lt_succ_iff_lt_or_eq.mp hk with hk | rfl
    · exact hr k hk msg hm hs (fun j hkj hj => hlast j hkj (by omega))
    · rw [h msg hm] at hs
      exact Bool.noConfusion hs

/-- A tick with STOP or CONT decides by itself. -/
theorem resumed_succ_of_switch (faults : Nat → Option FaultMsg) (n : Nat) (msg : FaultMsg)
    (hm : faults n = some msg) (hs : msg.switches = true) :
    Resumed faults (n + 1) ↔ msg.cont = true := by
  constructor
  · intro hr
    exact hr n (by omega) msg hm hs (fun j hnj hj => by omega)
  · intro hc k hk other ho hos hlast
    rcases Nat.lt_succ_iff_lt_or_eq.mp hk with hk | rfl
    · have hoff := hlast n hk (by omega) msg hm
      rw [hs] at hoff
      exact Bool.noConfusion hoff
    · rw [hm] at ho
      cases ho
      exact hc

theorem biasSince_succ (faults : Nat → Option FaultMsg) (n t : Nat) (ht : t ≤ n) :
    BiasSince faults (n + 1) t ↔
      BiasSince faults n t ∨ ∃ msg, faults n = some msg ∧ msg.bias = true := by
  constructor
  · intro hsome
    obtain ⟨k, hk, hb, hlast⟩ := hsome
    rcases Nat.lt_succ_iff_lt_or_eq.mp hk with h | rfl
    · exact .inl ⟨k, h, hb, hlast⟩
    · exact .inr hb
  · intro hcase
    rcases hcase with ⟨k, hk, hb, hlast⟩ | hb
    · exact ⟨k, by omega, hb, hlast⟩
    · exact ⟨n, by omega, hb, fun j hj _ => by omega⟩

theorem biasSince_tick (faults : Nat → Option FaultMsg) (n : Nat) :
    BiasSince faults (n + 1) (n + 1) ↔ BiasSince faults (n + 1) n ∧ ¬Transmits faults n := by
  constructor
  · intro hsome
    obtain ⟨k, hk, hb, hlast⟩ := hsome
    refine ⟨⟨k, hk, hb, fun j hj => hlast j (by omega)⟩, fun ht => ?_⟩
    have hlt := hlast n (by omega) ht
    omega
  · intro hsome
    obtain ⟨⟨k, hk, hb, hlast⟩, hn⟩ := hsome
    refine ⟨k, hk, hb, fun j hj ht => ?_⟩
    rcases Nat.lt_succ_iff_lt_or_eq.mp hj with hj | rfl
    · exact hlast j hj ht
    · exact absurd ht hn

theorem transmits_of_none (faults : Nat → Option FaultMsg) (n : Nat)
    (h : ∀ k ≤ n, faults k = none) : Transmits faults n ∧ ¬Biased faults n := by
  refine ⟨⟨?_, fun k hk msg hm => ?_⟩, ?_⟩
  · intro hsome
    obtain ⟨k, hk, msg, hm, -⟩ := hsome
    rw [h k (by omega)] at hm
    cases hm
  · rw [h k (by omega)] at hm
    cases hm
  · intro hsome
    obtain ⟨k, hk, ⟨msg, hm, -⟩, -⟩ := hsome
    rw [h k (by omega)] at hm
    cases hm

end History

section Alone

variable {V : Type*} [Field V]

/-- What a PFC's flags say at the start of tick `n` about the messages before it, and that
its navigation state is the one of a PFC without faults. -/
structure Recorded (E : Env V) (faults : Nat → Option FaultMsg) (n t : Nat) (p : Pfc V) :
    Prop where
  alive : p.alive = true ↔ ¬Interrupted faults n
  nav : p.alive = true → p.nav = navAt E t
  active : p.alive = true → (p.active = true ↔ Resumed faults n)
  bias : p.alive = true → t ≤ E.fixes.length → (p.bias = true ↔ BiasSince faults n t)

/-- The fault reaction records the message of its tick. -/
theorem Recorded.afterFault {E : Env V} {faults : Nat → Option FaultMsg} {n : Nat} {p : Pfc V}
    (h : Recorded E faults n n p) :
    Recorded E faults (n + 1) n ((faults n).elim p p.faultIn) := by
  cases hm : faults n with
  | none =>
    have hi : Interrupted faults (n + 1) ↔ Interrupted faults n := by
      simp [interrupted_succ, hm]
    have hr := resumed_succ_of_keep faults n (by simp [hm])
    have hb : BiasSince faults (n + 1) n ↔ BiasSince faults n n := by
      simp [biasSince_succ faults n n le_rfl, hm]
    exact ⟨h.alive.trans (not_congr hi).symm, h.nav, fun ha => (h.active ha).trans hr.symm,
      fun ha hn => (h.bias ha hn).trans hb.symm⟩
  | some msg =>
    have hi : Interrupted faults (n + 1) ↔ Interrupted faults n ∨ msg.interrupt = true := by
      simp [interrupted_succ, hm]
    have hb : BiasSince faults (n + 1) n ↔ BiasSince faults n n ∨ msg.bias = true := by
      simp [biasSince_succ faults n n le_rfl, hm]
    simp only [Option.elim_some]
    have hlive : (p.faultIn msg).alive = true → p.alive = true ∧ msg.interrupt = false := by
      simp [Pfc.faultIn_eq]
    constructor
    · rw [hi, not_or, ← h.alive]
      simp [Pfc.faultIn_eq]
    · intro ha
      rw [Pfc.faultIn_nav, h.nav (hlive ha).1]
    · intro ha
      obtain ⟨hp, hint⟩ := hlive ha
      by_cases hs : msg.switches = true
      · rw [resumed_succ_of_switch faults n msg hm hs]
        cases hc : msg.cont <;> simp_all [Pfc.faultIn_eq, FaultMsg.switches]
      · have hkeep : ∀ other, faults n = some other → other.switches = false := by
          intro other ho
          rw [hm] at ho
          cases ho
          simpa using hs
        rw [resumed_succ_of_keep faults n hkeep, ← h.active hp]
        simp_all [Pfc.faultIn_eq, FaultMsg.switches]
    · intro ha hn
      obtain ⟨hp, hint⟩ := hlive ha
      rw [hb, ← h.bias hp hn]
      simp [Pfc.faultIn_eq, hp, hint]

variable [LinearOrder V] [FloorRing V]

/-- One PFC on its own: its state at the start of tick `n`, given the messages it receives. -/
def Pfc.run (E : Env V) (faults : Nat → Option FaultMsg) : Nat → Pfc V
  | 0 => Pfc.initial.startup E.fopen
  | n + 1 => (((faults n).elim (Pfc.run E faults n) (Pfc.run E faults n).faultIn).timer E.distance).1

def Pfc.afterFault (E : Env V) (faults : Nat → Option FaultMsg) (n : Nat) : Pfc V :=
  (faults n).elim (Pfc.run E faults n) (Pfc.run E faults n).faultIn

def Pfc.sent (E : Env V) (faults : Nat → Option FaultMsg) (n : Nat) : Option (SpeedMsg V) :=
  ((Pfc.afterFault E faults n).timer E.distance).2

theorem Pfc.run_succ (E : Env V) (faults : Nat → Option FaultMsg) (n : Nat) :
    Pfc.run E faults (n + 1) = ((Pfc.afterFault E faults n).timer E.distance).1 := rfl

theorem Pfc.run_zero (E : Env V) (faults : Nat → Option FaultMsg) :
    Pfc.run E faults 0 = Pfc.initial.startup E.fopen := rfl

theorem Recorded.timer {E : Env V} {faults : Nat → Option FaultMsg} {n : Nat} {p : Pfc V}
    (h : Recorded E faults (n + 1) n p) :
    Recorded E faults (n + 1) (n + 1) (p.timer E.distance).1 := by
  cases ha : p.alive with
  | false =>
    rw [Pfc.timer_dead E.distance p ha]
    exact ⟨h.alive, fun hp => by simp [ha] at hp, fun hp => by simp [ha] at hp,
      fun hp => by simp [ha] at hp⟩
  | true =>
    obtain ⟨hnav, halive, hactive, hbias, -⟩ := Pfc.timer_alive E.distance p ha
    refine ⟨?_, fun _ => ?_, fun _ => ?_, fun _ hn => ?_⟩
    · rw [halive, ← h.alive, ha]
    · rw [hnav, h.nav ha, navAt_succ]
    · rw [hactive, h.active ha]
    · rw [hbias, h.nav ha, sample_of_lt E n (by omega), biasSince_tick,
        ← h.bias ha (by omega)]
      have ht : Transmits faults n ↔ p.active = true := by
        rw [h.active ha]
        exact and_iff_right (h.alive.mp ha)
      simp [ht]

theorem recorded_run (E : Env V) (faults : Nat → Option FaultMsg) (n : Nat) :
    Recorded E faults n n (Pfc.run E faults n) := by
  induction n with
  | zero =>
    refine ⟨?_, fun _ => rfl, fun _ => ?_, fun _ _ => ?_⟩
    · simp [Pfc.run_zero, Pfc.initial, Pfc.startup, Interrupted]
    · simp [Pfc.run_zero, Pfc.initial, Pfc.startup, Resumed]
    · simp [Pfc.run_zero, Pfc.initial, Pfc.startup, BiasSince]
  | succ n ih => exact ih.afterFault.timer

theorem recorded_afterFault (E : Env V) (faults : Nat → Option FaultMsg) (n : Nat) :
    Recorded E faults (n + 1) n (Pfc.afterFault E faults n) :=
  (recorded_run E faults n).afterFault

/-- What a PFC transmits, read off its messages. -/
theorem sent_eq (E : Env V) (faults : Nat → Option FaultMsg) (n : Nat) :
    Pfc.sent E faults n =
      if n < E.fixes.length ∧ Transmits faults n then
        let v := nominalSpeed E.distance E.fixes n
        some ⟨n, if Biased faults n then applyBias v else v, true⟩
      else none := by
  have h := recorded_afterFault E faults n
  unfold Pfc.sent
  cases ha : (Pfc.afterFault E faults n).alive with
  | false =>
    have hint : Interrupted faults (n + 1) := by
      by_contra hn
      rw [h.alive.mpr hn] at ha
      exact Bool.noConfusion ha
    rw [Pfc.timer_dead _ _ ha]
    simp [Transmits, hint]
  | true =>
    have ht : Transmits faults n ↔ (Pfc.afterFault E faults n).active = true := by
      rw [h.active ha]
      exact and_iff_right (h.alive.mp ha)
    rw [(Pfc.timer_alive E.distance _ ha).2.2.2.2, h.nav ha]
    by_cases hn : n < E.fixes.length
    · have hb : Biased faults n ↔ (Pfc.afterFault E faults n).bias = true := (h.bias ha hn.le).symm
      rw [sample_of_lt E n hn]
      simp [hn, ht, hb]
    · rw [sample_of_ge E n (by omega)]
      simp [hn]

theorem afterFault_nav (E : Env V) (faults : Nat → Option FaultMsg) (n : Nat) :
    (Pfc.afterFault E faults n).nav = (Pfc.run E faults n).nav := by
  unfold Pfc.afterFault
  cases faults n with
  | none => rfl
  | some msg => exact Pfc.faultIn_nav msg _

theorem run_nav_succ (E : Env V) (faults : Nat → Option FaultMsg) (n : Nat) :
    (Pfc.run E faults (n + 1)).nav = (Pfc.run E faults n).nav ∨
      (Pfc.run E faults n).nav = navAt E n ∧
        (Pfc.run E faults (n + 1)).nav = navAt E (n + 1) := by
  rw [Pfc.run_succ, ← afterFault_nav E faults n]
  cases ha : (Pfc.afterFault E faults n).alive with
  | false =>
    left
    rw [Pfc.timer_dead _ _ ha]
  | true =>
    right
    have hnav := (recorded_afterFault E faults n).nav ha
    rw [(Pfc.timer_alive E.distance _ ha).1, hnav, navAt_succ]
    exact ⟨rfl, rfl⟩

/-- From the tick that meets end of file on, only that tick still moves the stream. -/
theorem run_nav_at_end (E : Env V) (faults : Nat → Option FaultMsg) (n : Nat)
    (hn : E.fixes.length ≤ n) :
    let p := (Pfc.run E faults n).nav
    let q := (Pfc.run E faults (n + 1)).nav
    q.hasPrev = p.hasPrev ∧ q.prevFix = p.prevFix ∧ q.accumulatedSpeed = p.accumulatedSpeed ∧
      q.counter = p.counter ∧ (E.fixes.length < n → q.fp = p.fp) := by
  rcases run_nav_succ E faults n with h | ⟨hp, hq⟩
  · simp [h]
  · obtain ⟨h₁, h₂, h₃, h₄⟩ := (navAt E n).step_keeps E.distance (read_of_ge E n hn)
    rw [hp, hq, navAt_succ]
    refine ⟨h₁, h₂, h₃, h₄, fun hlt => ?_⟩
    obtain ⟨k, rfl⟩ : ∃ k, n = k + 1 := ⟨n - 1, by omega⟩
    rw [← navAt_succ, navAt_settled E (k + 1) hn, navAt_settled E k (by omega)]

theorem run_fp_at_end (E : Env V) (faults : Nat → Option FaultMsg) (n : Nat)
    (hn : E.fixes.length ≤ n) :
    (Pfc.run E faults (n + 1)).fp = (Pfc.run E faults (E.fixes.length + 1)).fp := by
  induction n, hn using Nat.le_induction with
  | base => rfl
  | succ n hn ih => exact ((run_nav_at_end E faults (n + 1) (by omega)).2.2.2.2 (by omega)).trans ih

/-- The transmissions of a PFC are decided by its messages and the fault-free speeds alone,
and no message reaches its navigation state. -/
theorem pfc_history (E : Env V) (file : List Char) (hopen : openG18 E.fopen = some file)
    (faults : Nat → Option FaultMsg) :
    let fixes := acceptedFixes file
    let m := fixes.length
    let v := nominalSpeed E.distance fixes
    (∀ n < m,
      (¬Transmits faults n → Pfc.sent E faults n = none) ∧
      (Transmits faults n → Biased faults n →
        Pfc.sent E faults n = some ⟨n, applyBias (v n), true⟩) ∧
      (Transmits faults n → ¬Biased faults n → Pfc.sent E faults n = some ⟨n, v n, true⟩)) ∧
    (∀ n, ¬Interrupted faults n →
      let p := Pfc.run E faults n
      let q := Pfc.run E (fun _ => none) n
      p.hasPrev = q.hasPrev ∧ p.prevFix = q.prevFix ∧
        p.accumulatedSpeed = q.accumulatedSpeed ∧ p.counter = q.counter ∧ p.fp = q.fp) ∧
    (∀ n ≥ m,
      let p := Pfc.run E faults n
      let q := Pfc.run E faults (n + 1)
      Pfc.sent E faults n = none ∧ q.hasPrev = p.hasPrev ∧ q.prevFix = p.prevFix ∧
        q.accumulatedSpeed = p.accumulatedSpeed ∧ q.counter = p.counter ∧
        q.fp = (Pfc.run E faults (m + 1)).fp) := by
  classical
  have hfix : E.fixes = acceptedFixes file := by simp [Env.fixes, hopen]
  rw [← hfix]
  refine ⟨fun n hn => ?_, fun n hint => ?_, fun n hn => ?_⟩
  · refine ⟨fun ht => ?_, fun ht hb => ?_, fun ht hb => ?_⟩
    · simp [sent_eq, ht]
    · simp [sent_eq, hn, ht, hb]
    · simp [sent_eq, hn, ht, hb]
  · have h := recorded_run E faults n
    have h₀ := recorded_run E (fun _ => none) n
    have halive := h.alive.mpr hint
    have halive₀ := h₀.alive.mpr (by simp [Interrupted])
    have hnav : (Pfc.run E faults n).nav = (Pfc.run E (fun _ => none) n).nav :=
      (h.nav halive).trans (h₀.nav halive₀).symm
    exact ⟨congrArg Nav.hasPrev hnav, congrArg Nav.prevFix hnav,
      congrArg Nav.accumulatedSpeed hnav, congrArg Nav.counter hnav, congrArg Nav.fp hnav⟩
  · obtain ⟨h₁, h₂, h₃, h₄, -⟩ := run_nav_at_end E faults n hn
    refine ⟨?_, h₁, h₂, h₃, h₄, run_fp_at_end E faults n hn⟩
    simp [sent_eq, show ¬n < E.fixes.length by omega]

/-- A file with one accepted sentence and a line of noise. -/
def oneSentence : List Char := "$GPGLL,4547.1234,N,00856.5,E,123456,A*33\r\nnoise\n".toList

theorem oneSentence_fixes : (acceptedFixes oneSentence).length = 1 := by decide

/-- A bias that comes with a STOP shows on the first sample after the CONT. -/
theorem pfc_history_resumed :
    let faults : Nat → Option FaultMsg := fun n =>
      if n = 1 then some ⟨true, false, false, true⟩
      else if n = 2 then some ⟨false, false, true, false⟩
      else none
    let sent := Pfc.sent biasedEnv faults
    sent 0 = some ⟨0, 0, true⟩ ∧ sent 1 = none ∧ sent 2 = some ⟨2, applyBias 2, true⟩ ∧
      sent 3 = some ⟨3, 3, true⟩ ∧ sent 4 = none := by
  intro faults sent
  have hlen : (acceptedFixes fourSentences).length = 4 := by decide +kernel
  obtain ⟨hbefore, -, hafter⟩ := pfc_history biasedEnv fourSentences rfl faults
  have hspeed : nominalSpeed biasedEnv.distance (acceptedFixes fourSentences) 2 = 2 := by
    decide +kernel
  have hspeed' : nominalSpeed biasedEnv.distance (acceptedFixes fourSentences) 3 = 3 := by
    decide +kernel
  refine ⟨(hbefore 0 (by omega)).2.2 (by decide) (by decide),
    (hbefore 1 (by omega)).1 (by decide), ?_, ?_, (hafter 4 hlen.le).1⟩
  · rw [← hspeed]
    exact (hbefore 2 (by omega)).2.1 (by decide) (by decide)
  · rw [← hspeed']
    exact (hbefore 3 (by omega)).2.2 (by decide) (by decide)

end Alone

end LFBenchmarks.FlyByWire
