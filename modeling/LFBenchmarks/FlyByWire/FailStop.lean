import LFBenchmarks.FlyByWire.Verdict

namespace LFBenchmarks.FlyByWire

section Down

variable {V : Type*} [Field V] [LinearOrder V] [FloorRing V]

/-- Interrupted or stopped. -/
def Pfc.Down (p : Pfc V) : Prop := p.alive = false ∨ p.active = false

theorem afterFault_down (E : Env V) (faults : Nat → Option FaultMsg) (n : Nat) :
    (Pfc.afterFault E faults n).Down ↔ ¬Transmits faults n := by
  have h := recorded_afterFault E faults n
  unfold Pfc.Down
  cases ha : (Pfc.afterFault E faults n).alive with
  | false =>
    have hint : ¬¬Interrupted faults (n + 1) := h.alive.not.mp (by simp [ha])
    simpa using fun ht : Transmits faults n => hint ht.1
  | true =>
    have ht : Transmits faults n ↔ (Pfc.afterFault E faults n).active = true := by
      rw [h.active ha]
      exact and_iff_right (h.alive.mp ha)
    simp [ht]

theorem run_down (E : Env V) (faults : Nat → Option FaultMsg) (n : Nat) :
    (Pfc.run E faults (n + 1)).Down ↔ ¬Transmits faults n := by
  rw [← afterFault_down E faults n, Pfc.run_succ]
  unfold Pfc.Down
  cases ha : (Pfc.afterFault E faults n).alive with
  | false => simp [Pfc.timer_dead _ _ ha, ha]
  | true =>
    obtain ⟨-, halive, hactive, -⟩ := Pfc.timer_alive E.distance _ ha
    simp [halive, hactive]

theorem transmits_of_up (E : Env V) (faults : Nat → Option FaultMsg) (n : Nat)
    (hup : ¬(Pfc.run E faults n).Down) (hnone : faults n = none) : Transmits faults n := by
  have h := (afterFault_down E faults n).not
  rw [not_not] at h
  refine h.mp ?_
  unfold Pfc.afterFault
  rwa [hnone, Option.elim_none]

theorem AtTick.down {E : Env V} {n : Nat} {s : Sys V} (h : AtTick E n s) (i : Fin 3) :
    (s.pfc i).Down ↔ (Pfc.run E (E.faults i) n).Down := by
  rw [← h.pfc i]
  split_ifs <;> rfl

theorem sent_isSome (E : Env V) (n : Nat) (hn : n < E.fixes.length) (i : Fin 3) :
    E.sent n i ≠ none ↔ Transmits (E.faults i) n := by
  classical
  unfold Env.sent
  rw [sent_eq]
  by_cases ht : Transmits (E.faults i) n <;> simp [hn, ht]

end Down

section FailStop

variable {V : Type*} [Field V] [LinearOrder V] [FloorRing V]
variable {E : Env V} (randMax : Nat) (rand : Nat → Nat)
variable (hsource : E.source = failureGenerator randMax rand)

include hsource

/-- With at most one PFC down, the one the generator addresses leaves a third to transmit. -/
theorem exists_sender (n : Nat) (hn : n < E.fixes.length)
    (hdown : ∀ i j, (Pfc.run E (E.faults i) n).Down → (Pfc.run E (E.faults j) n).Down → i = j) :
    ∃ i, E.sent n i ≠ none := by
  have hsilent (i : Fin 3) (h : E.sent n i = none) :
      (Pfc.run E (E.faults i) n).Down ∨ (E.messages n i).isSome = true := by
    by_contra hboth
    obtain ⟨hup, hmsg⟩ := not_or.mp hboth
    have ht := transmits_of_up E (E.faults i) n hup (Option.not_isSome_iff_eq_none.mp hmsg)
    exact (sent_isSome E n hn i).mpr ht h
  by_contra hnone
  push Not at hnone
  -- two of the three PFCs would be silent for the same reason
  have htarget := one_target E randMax rand hsource n
  rcases hsilent 0 (hnone 0) with h0 | h0 <;> rcases hsilent 1 (hnone 1) with h1 | h1 <;>
    rcases hsilent 2 (hnone 2) with h2 | h2
  all_goals first
    | exact absurd (hdown 0 1 h0 h1) (by decide)
    | exact absurd (hdown 0 2 h0 h2) (by decide)
    | exact absurd (hdown 1 2 h1 h2) (by decide)
    | exact absurd (htarget 0 1 h0 h1) (by decide)
    | exact absurd (htarget 0 2 h0 h2) (by decide)
    | exact absurd (htarget 1 2 h1 h2) (by decide)

theorem AtVote.stop_of_few {n : Nat} {s : Sys V} (h : AtVote E n s)
    (hsent : ∃ i, E.sent n i ≠ none)
    (hfew : ∀ i j, E.SentTruth n i → E.SentTruth n j → i = j) :
    (runTag E (.vote n) s).stopRequested = true := by
  have hemergency := (h.verdict randMax rand hsource).2.2.1.mpr ⟨hsent, hfew⟩
  rw [h.requested, hemergency]
  rfl

/-- A vote that goes on leaves at most one PFC down. -/
theorem AtVote.one_down {n : Nat} {s : Sys V} (h : AtVote E n s) (hn : n < E.fixes.length)
    (hsent : ∃ i, E.sent n i ≠ none) (hgo : (runTag E (.vote n) s).stopRequested = false)
    (i j : Fin 3) (hi : (Pfc.run E (E.faults i) (n + 1)).Down)
    (hj : (Pfc.run E (E.faults j) (n + 1)).Down) : i = j := by
  have hmany : ¬∀ i j, E.SentTruth n i → E.SentTruth n j → i = j := by
    intro hfew
    rw [h.stop_of_few randMax rand hsource hsent hfew] at hgo
    exact Bool.noConfusion hgo
  push Not at hmany
  obtain ⟨a, b, ⟨msg, ha, -⟩, ⟨msg', hb, -⟩, hab⟩ := hmany
  have hup (k : Fin 3) (m : SpeedMsg V) (hk : E.sent n k = some m) :
      ¬(Pfc.run E (E.faults k) (n + 1)).Down := by
    rw [run_down, not_not]
    exact (sent_isSome E n hn k).mp (by simp [hk])
  have hne (k l : Fin 3) (hk : ¬(Pfc.run E (E.faults k) (n + 1)).Down)
      (hl : (Pfc.run E (E.faults l) (n + 1)).Down) : l ≠ k := by
    rintro rfl
    exact hk hl
  have hia := hne a i (hup a msg ha) hi
  have hib := hne b i (hup b msg' hb) hi
  have hja := hne a j (hup a msg ha) hj
  have hjb := hne b j (hup b msg' hb) hj
  omega

theorem Reaches.one_down (n : Nat) (s : Sys V) (h : Reaches E (.tick n) s)
    (hn : n < E.fixes.length) (i j : Fin 3) (hi : (s.pfc i).Down) (hj : (s.pfc j).Down) :
    i = j := by
  induction n generalizing s i j with
  | zero =>
    rw [h.atTick.down i] at hi
    simp [Pfc.run_zero, Pfc.Down, Pfc.initial, Pfc.startup] at hi
  | succ n ih =>
    obtain ⟨s₀, hvote, rfl, hgo⟩ := h.of_tick_succ
    obtain ⟨s₁, htick, -⟩ := hvote.of_vote
    have hsent := exists_sender randMax rand hsource n (by omega) (fun a b ha hb =>
      ih s₁ htick (by omega) a b ((htick.atTick.down a).mpr ha) ((htick.atTick.down b).mpr hb))
    rw [h.atTick.down] at hi hj
    exact hvote.atVote.one_down randMax rand hsource (by omega) hsent hgo i j hi hj

theorem Reaches.exists_sender (n : Nat) (s : Sys V) (h : Reaches E (.vote n) s)
    (hn : n < E.fixes.length) : ∃ i, E.sent n i ≠ none := by
  obtain ⟨s₀, htick, -⟩ := h.of_vote
  exact FlyByWire.exists_sender randMax rand hsource n hn (fun a b ha hb =>
    htick.one_down randMax rand hsource n s₀ hn a b ((htick.atTick.down a).mpr ha)
      ((htick.atTick.down b).mpr hb))

/-- Losing two PFCs never goes unreported: before end of data a vote always has a sample to
judge, and one on fewer than two fault-free speeds is the last. The last part says when the
living PFCs meet end of file. -/
theorem fail_stop (file : List Char) (hopen : openG18 E.fopen = some file) :
    (∀ n s, Reaches E (.tick n) s → n < E.fixes.length →
      ∀ i j, (s.pfc i).Down → (s.pfc j).Down → i = j) ∧
    (∀ n s s', Reaches E (.vote n) s → TagStep E (.vote n) s s' → n < E.fixes.length →
      let truthful := fun i => ∃ msg, s.speedOut i = some msg ∧ msg.speed = E.faultFreeSpeed n
      (∃ i, (s.speedOut i).isSome = true) ∧ (∃ status, s'.status = some status) ∧
      ((∀ i j, truthful i → truthful j → i = j) → s'.stopRequested = true ∧
        ∀ k > n, ∀ t, ¬Reaches E (.tick k) t ∧ ¬Reaches E (.vote k) t)) ∧
    (∀ n s, Reaches E (.vote n) s → ∀ i, (s.pfc i).alive = true →
      ((s.pfc i).eofReached = true ↔ E.fixes.length ≤ n)) := by
  refine ⟨fun n s h hn => h.one_down randMax rand hsource n s hn, fun n s s' h hvote hn => ?_,
    fun n s h i => h.atVote.eofReached file hopen i⟩
  intro truthful
  have hv := h.atVote
  have hsent := h.exists_sender randMax rand hsource n s hn
  rw [tagStep_iff] at hvote
  subst hvote
  refine ⟨?_, ?_, fun hfew => ?_⟩
  · simpa [hv.speedOut, Option.isSome_iff_ne_none] using hsent
  · rw [hv.status, if_neg (by simpa using hsent)]
    exact ⟨_, rfl⟩
  · have hone : ∀ i j, E.SentTruth n i → E.SentTruth n j → i = j := by
      simp only [truthful, hv.speedOut] at hfew
      exact hfew
    refine ⟨hv.stop_of_few randMax rand hsource hsent hone, fun k hk t => ?_⟩
    -- a later tag would come from a vote `n` that went on, on the same samples
    have hlater : ¬(Reaches E (.tick k) t ∨ Reaches E (.vote k) t) := by
      intro ht
      obtain ⟨s₀, hr, hgo⟩ := Reaches.earlier hk ht
      rw [hr.atVote.stop_of_few randMax rand hsource hsent hone] at hgo
      exact Bool.noConfusion hgo
    exact not_or.mp hlater

omit hsource

/-- PFC 2 is stopped at tick 2 and PFC 1 sends a corrupted sample at tick 3. -/
def stopThenBias (k : Nat) : Nat := if k = 1 ∨ k = 5 ∨ k = 9 then 0 else 1

def lossEnv : Env ℚ := { biasedEnv with source := failureGenerator 1 stopThenBias }

/-- With one PFC down and one corrupted, the vote of the tick is the last. -/
theorem fail_stop_loss :
    let s := runTag lossEnv (.tick 3) (onward lossEnv 3)
    (s.pfc 1).Down ∧ (runTag lossEnv (.vote 3) s).stopRequested = true ∧
      ∀ k > 3, ∀ t, ¬Reaches lossEnv (.tick k) t ∧ ¬Reaches lossEnv (.vote k) t := by
  intro s
  have hreach : Reaches lossEnv (.vote 3) s :=
    (reaches_onward lossEnv 3 (by decide) (by decide +kernel)).vote (by decide)
  have hlen : 3 < lossEnv.fixes.length := by decide +kernel
  obtain ⟨-, hvote, -⟩ := fail_stop (E := lossEnv) 1 stopThenBias rfl fourSentences rfl
  obtain ⟨-, -, hlast⟩ := hvote 3 s _ hreach ((tagStep_iff _ _ _ _).mpr rfl) hlen
  have htrue : ∀ i, (s.speedOut i).map SpeedMsg.speed = some (lossEnv.faultFreeSpeed 3) → i = 2 := by
    decide +kernel
  have hthird (i : Fin 3)
      (h : ∃ msg, s.speedOut i = some msg ∧ msg.speed = lossEnv.faultFreeSpeed 3) : i = 2 := by
    obtain ⟨msg, hmsg, hspeed⟩ := h
    exact htrue i (by rw [hmsg, Option.map_some, hspeed])
  refine ⟨.inr ?_, hlast (fun i j hi hj => (hthird i hi).trans (hthird j hj).symm)⟩
  decide +kernel

end FailStop

end LFBenchmarks.FlyByWire
