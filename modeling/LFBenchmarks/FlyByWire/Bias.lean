import LFBenchmarks.FlyByWire.Verdict

namespace LFBenchmarks.FlyByWire

section Corrupted

variable {V : Type*} [Field V] [LinearOrder V] [FloorRing V]

/-- At the tick that leads from `s` to `s'` PFC `i` sends a sample with its bias flag set: the
sample goes through `apply_bias`. -/
def Corrupted (s s' : Sys V) (i : Fin 3) : Prop :=
  ((s'.fault i).elim (s.pfc i) (s.pfc i).faultIn).bias = true ∧ (s'.speedOut i).isSome = true

/-- The speed a sample carries: the one the PFC has just computed, through `apply_bias` if the
flag was set. -/
theorem Pfc.timer_sent (distance : GllFix → GllFix → V) (p : Pfc V) (msg : SpeedMsg V)
    (h : (p.timer distance).2 = some msg) :
    let v := (p.timer distance).1.accumulatedSpeed
    msg.speed = if p.bias then applyBias v else v := by
  intro v
  cases halive : p.alive with
  | false =>
    rw [Pfc.timer_dead distance p halive] at h
    cases h
  | true =>
    obtain ⟨hnav, -, -, -, hsent⟩ := Pfc.timer_alive distance p halive
    have hv : v = (p.nav.step distance).accumulatedSpeed := congrArg Nav.accumulatedSpeed hnav
    rw [hsent] at h
    rcases hr : p.nav.read with ⟨fix, rest⟩
    cases fix with
    | none => simp [Nav.sample, hr] at h
    | some fix =>
      have hspeed : v = p.nav.speedFor distance fix := by
        rw [hv, Nav.step, hr]
      cases hactive : p.active with
      | false => simp [hactive] at h
      | true =>
        simp only [hactive, if_true, Nav.sample, hr, Option.map_some] at h
        rw [hspeed, ← Option.some.inj h]

end Corrupted

section AtTick

variable {V : Type*} [Field V] [LinearOrder V] [FloorRing V]
variable {E : Env V} {n : Nat} {s : Sys V}

/-- The flag the timer reaction finds. -/
theorem AtTick.corrupted (h : AtTick E n s) (i : Fin 3) :
    Corrupted s (runTag E (.tick n) s) i ↔
      (Pfc.afterFault E (E.faults i) n).bias = true ∧ (E.sent n i).isSome = true := by
  obtain ⟨-, hsent, hfault⟩ := h.after i
  have hbias : ((E.messages n i).elim (s.pfc i) (s.pfc i).faultIn).bias =
      (Pfc.afterFault E (E.faults i) n).bias := by
    rw [Pfc.afterFault, ← h.pfc i, Env.faults]
    cases E.messages n i with
    | none => split_ifs <;> rfl
    | some msg =>
      simp only [Option.elim_some, Pfc.faultIn_eq]
      split_ifs <;> rfl
  rw [Corrupted, hsent, hfault, hbias]

theorem AtTick.sample_speed (h : AtTick E n s) (i : Fin 3) (msg : SpeedMsg V)
    (hmsg : (runTag E (.tick n) s).speedOut i = some msg) :
    let v := ((runTag E (.tick n) s).pfc i).accumulatedSpeed
    (Corrupted s (runTag E (.tick n) s) i → msg.speed = applyBias v) ∧
      (¬Corrupted s (runTag E (.tick n) s) i → msg.speed = v) := by
  intro v
  obtain ⟨hpfc, hsent, -⟩ := h.after i
  rw [hsent] at hmsg
  have hv : v = (Pfc.run E (E.faults i) (n + 1)).accumulatedSpeed := by
    simp only [v, hpfc]
    split_ifs <;> rfl
  have hspeed : msg.speed = if (Pfc.afterFault E (E.faults i) n).bias then applyBias v else v := by
    rw [hv]
    exact Pfc.timer_sent E.distance _ msg hmsg
  rw [h.corrupted i, hmsg]
  constructor
  · intro hbias
    rw [hspeed, if_pos hbias.1]
  · intro hclean
    rw [hspeed, if_neg (fun hbias => hclean ⟨hbias, rfl⟩)]

/-- A corrupted sample answers a message of the same tick. -/
theorem message_of_corrupted (i : Fin 3)
    (hbias : (Pfc.afterFault E (E.faults i) n).bias = true)
    (hsent : (E.sent n i).isSome = true) : (E.messages n i).isSome = true := by
  classical
  unfold Env.sent at hsent
  rw [sent_eq] at hsent
  by_cases hsend : n < E.fixes.length ∧ Transmits (E.faults i) n
  · have h := recorded_afterFault E (E.faults i) n
    have hpending : Biased (E.faults i) n :=
      (h.bias (h.alive.mpr hsend.2.1) hsend.1.le).mp hbias
    exact message_of_biased (E.faults i) n hsend.2 hpending
  · rw [if_neg hsend] at hsent
    cases hsent

/-- Before end of file an active PFC has sent its sample and with it used up the flag. -/
theorem AtTick.bias_cleared (h : AtTick E n s) (file : List Char)
    (hopen : openG18 E.fopen = some file) (i : Fin 3) :
    let p := (runTag E (.tick n) s).pfc i
    p.alive = true → p.active = true → p.eofReached = false → p.bias = false := by
  let q := Pfc.run E (E.faults i) (n + 1)
  have hq : q.alive = true → q.active = true → q.eofReached = false → q.bias = false := by
    intro halive hactive heof
    have hrecorded := recorded_run E (E.faults i) (n + 1)
    have hnav := hrecorded.nav halive
    have hlast : n < E.fixes.length := by
      by_contra hend
      have hreached := (eofReached_iff E file hopen n).mpr (not_lt.mp hend)
      rw [← hnav] at hreached
      exact Bool.noConfusion (heof.symm.trans hreached)
    have hsend : Transmits (E.faults i) n :=
      ⟨hrecorded.alive.mp halive, (hrecorded.active halive).mp hactive⟩
    rw [← Bool.not_eq_true, hrecorded.bias halive hlast, biasSince_tick]
    exact fun hpending => hpending.2 hsend
  obtain ⟨hpfc, -, -⟩ := h.after i
  simp only [hpfc]
  split_ifs
  · exact hq
  · exact hq

end AtTick

section OneBias

variable {V : Type*} [Field V] [LinearOrder V] [FloorRing V]

/-- At most one sample of a tick is biased, and with a file to read no flag outlives the tick on
a PFC that goes on transmitting. -/
theorem one_biased_sample (E : Env V) (randMax : Nat) (rand : Nat → Nat)
    (hsource : E.source = failureGenerator randMax rand) (n : Nat) (s s' : Sys V)
    (h : Reaches E (.tick n) s) (hstep : TagStep E (.tick n) s s') :
    (∀ i, (openG18 E.fopen).isSome = true → (s'.pfc i).alive = true →
      (s'.pfc i).active = true → (s'.pfc i).eofReached = false → (s'.pfc i).bias = false) ∧
    (∀ i msg, s'.speedOut i = some msg →
      (Corrupted s s' i → msg.speed = applyBias (s'.pfc i).accumulatedSpeed) ∧
        (¬Corrupted s s' i → msg.speed = (s'.pfc i).accumulatedSpeed)) ∧
    ∀ i j, Corrupted s s' i → Corrupted s s' j → i = j := by
  rw [tagStep_iff] at hstep
  subst hstep
  have htick := h.atTick
  refine ⟨fun i hopen => ?_, htick.sample_speed, fun i j hi hj => ?_⟩
  · obtain ⟨file, hfile⟩ := Option.isSome_iff_exists.mp hopen
    exact htick.bias_cleared file hfile i
  · have hmessage (k : Fin 3) (hk : Corrupted s (runTag E (.tick n) s) k) :
        (E.messages n k).isSome = true := by
      obtain ⟨hbias, hsent⟩ := (htick.corrupted k).mp hk
      exact message_of_corrupted k hbias hsent
    exact one_target E randMax rand hsource n i j (hmessage i hi) (hmessage j hj)

/-- The third sample of PFC 2 is corrupted, and no other. -/
theorem one_biased_sample_second :
    let s := onward biasedEnv 2
    let s' := runTag biasedEnv (.tick 2) s
    (∃ msg, s'.speedOut 1 = some msg ∧ msg.speed = applyBias (s'.pfc 1).accumulatedSpeed) ∧
      (s'.pfc 1).bias = false ∧ ∀ i, Corrupted s s' i ↔ i = 1 := by
  intro s s'
  have hreach : Reaches biasedEnv (.tick 2) s :=
    reaches_onward biasedEnv 2 (by decide) (by decide +kernel)
  obtain ⟨hcleared, hspeed, hone⟩ := one_biased_sample biasedEnv 1 biasToSecond rfl 2 s s' hreach
    ((tagStep_iff _ _ _ _).mpr rfl)
  have hbiased : Corrupted s s' 1 := ⟨by decide +kernel, by decide +kernel⟩
  obtain ⟨msg, hmsg⟩ := Option.isSome_iff_exists.mp hbiased.2
  refine ⟨⟨msg, hmsg, (hspeed 1 msg hmsg).1 hbiased⟩, ?_, fun i => ⟨fun hi => hone i 1 hi hbiased, ?_⟩⟩
  · exact hcleared 1 rfl (by decide +kernel) (by decide +kernel) (by decide +kernel)
  · rintro rfl
    exact hbiased

end OneBias

section NoFile

variable {V : Type*}

theorem fixes_of_no_file (E : Env V) (hopen : openG18 E.fopen = none) : E.fixes.length = 0 := by
  simp [Env.fixes, hopen]

variable [Field V] [LinearOrder V] [FloorRing V]

/-- Without a file the run goes on in silence. -/
theorem Reaches.on_without_file {E : Env V} {n : Nat} {s : Sys V} (h : Reaches E (.tick n) s)
    (hopen : openG18 E.fopen = none) (hn : n < E.timeout) :
    Reaches E (.tick (n + 1)) (runTag E (.vote n) (runTag E (.tick n) s)) := by
  classical
  have hvote := (h.vote hn)
  have hsilent (i : Fin 3) : E.sent n i = none := by
    rw [Env.sent, sent_eq, fixes_of_no_file E hopen, if_neg (fun hsend => absurd hsend.1 (by simp))]
  apply hvote.tick
  rw [hvote.atVote.requested, hvote.atVote.status, if_pos hsilent]
  rfl

theorem reaches_without_file (E : Env V) (hopen : openG18 E.fopen = none) (n : Nat)
    (hn : n ≤ E.timeout) : ∃ s, Reaches E (.tick n) s := by
  induction n with
  | zero => exact ⟨_, reaches_first_tick E⟩
  | succ n ih =>
    obtain ⟨s, hs⟩ := ih (by omega)
    exact ⟨_, hs.on_without_file hopen (by omega)⟩

theorem Pfc.timer_without_file (distance : GllFix → GllFix → V) (p : Pfc V) (h : p.fp = none) :
    p.timer distance = (p, none) := by
  unfold Pfc.timer
  rw [h]

theorem run_without_file (E : Env V) (hopen : openG18 E.fopen = none)
    (faults : Nat → Option FaultMsg) (n : Nat) (h : ∀ k < n, faults k = none) :
    Pfc.run E faults n = Pfc.initial.startup E.fopen := by
  induction n with
  | zero => rfl
  | succ n ih =>
    rw [Pfc.run_succ, Pfc.afterFault, h n (by omega), Option.elim_none,
      ih (fun k hk => h k (by omega)), Pfc.timer_without_file _ _ hopen]

/-- Without a file a bias stays pending on a PFC that is alive, active and not at end of file. -/
theorem bias_kept_without_file : ¬∀ (fopen : String → Option (List Char)) (randMax : Nat)
    (rand : Nat → Nat) (n : Nat) (s s' : Sys ℝ),
    Reaches (shippedEnv fopen randMax rand) (.tick n) s →
    TagStep (shippedEnv fopen randMax rand) (.tick n) s s' →
    ∀ i, (s'.pfc i).alive = true → (s'.pfc i).active = true → (s'.pfc i).eofReached = false →
      (s'.pfc i).bias = false := by
  intro h
  let E := shippedEnv (fun _ => none) 1 biasToSecond
  have hopen : openG18 E.fopen = none := rfl
  obtain ⟨s, hs⟩ := reaches_without_file E hopen 2 (by simp [E, shippedEnv])
  have hfaults (n : Nat) (hn : n < 2) : E.faults 1 n = none := messages_before E n hn 1
  have hbias : E.faults 1 2 = some ⟨false, false, false, true⟩ := by
    change ((failureGenerator 1 biasToSecond).react 0).2 1 = _
    simp [failureGenerator, biasToSecond]
    norm_num
  have hpfc : (runTag E (.tick 2) s).pfc 1 = Pfc.run E (E.faults 1) 3 := by
    have hne : ¬2 = E.timeout := by simp [E, shippedEnv]
    rw [(hs.atTick.after 1).1, if_neg hne]
  have hrun : Pfc.run E (E.faults 1) 3 = { Pfc.initial.startup E.fopen with bias := true } := by
    rw [Pfc.run_succ, Pfc.afterFault, run_without_file E hopen (E.faults 1) 2 hfaults, hbias,
      Option.elim_some, Pfc.faultIn_eq, Pfc.timer_without_file _ _ hopen]
    rfl
  have hcleared := h (fun _ => none) 1 biasToSecond 2 s _ hs ((tagStep_iff E _ _ _).mpr rfl) 1
  rw [hpfc, hrun] at hcleared
  exact Bool.noConfusion (hcleared rfl rfl rfl)

end NoFile

end LFBenchmarks.FlyByWire
