import LFBenchmarks.FlyByWire.Verdict

namespace LFBenchmarks.FlyByWire

section Finished

variable {V : Type*}

def Pfc.Finished (p : Pfc V) : Prop := p.alive = true → p.eofReached = true

theorem Pfc.Finished.faultIn {p : Pfc V} (h : p.Finished) (fault : FaultMsg) :
    (p.faultIn fault).Finished := by
  intro ha
  rw [Pfc.faultIn_eq] at ha ⊢
  simp only [Bool.and_eq_true] at ha
  exact h ha.1

variable [Field V] [LinearOrder V] [FloorRing V]

theorem Pfc.Finished.timer {p : Pfc V} (h : p.Finished) (distance : GllFix → GllFix → V) :
    p.timer distance = (p, none) := by
  have hskip : (!p.alive || p.eofReached) = true := by
    cases ha : p.alive with
    | false => rfl
    | true => simp [h ha]
  unfold Pfc.timer
  split
  · rfl
  · rw [if_pos hskip]

theorem Pfc.silent_of_finished (p : Pfc V) (distance : GllFix → GllFix → V)
    (h : (p.timer distance).1.Finished) : (p.timer distance).2 = none := by
  by_cases hp : p.Finished
  · rw [hp.timer]
  · obtain ⟨ha, he⟩ : p.alive = true ∧ p.eofReached = false := by simpa [Pfc.Finished] using hp
    obtain ⟨hnav, halive, -, -, hsent⟩ := Pfc.timer_alive distance p ha
    have heof : (p.nav.step distance).eofReached = true := by
      rw [← hnav]
      exact h halive
    rcases hr : p.nav.read with ⟨fix, rest⟩
    cases fix with
    | none => simp [hsent, Nav.sample, hr]
    | some fix =>
      simp only [Nav.step, hr] at heof
      exact absurd (he.symm.trans heof) (by simp)

theorem finished_run_succ (E : Env V) (faults : Nat → Option FaultMsg) (n : Nat)
    (h : (Pfc.run E faults n).Finished) : (Pfc.run E faults (n + 1)).Finished := by
  have hafter : (Pfc.afterFault E faults n).Finished := by
    unfold Pfc.afterFault
    cases faults n with
    | none => exact h
    | some fault => exact h.faultIn fault
  rw [Pfc.run_succ, hafter.timer]
  exact hafter

end Finished

section EndOfData

variable {V : Type*} [Field V] [LinearOrder V] [FloorRing V]

/-- A vote with all PFCs finished passes in silence. -/
theorem AtVote.silent {E : Env V} {n : Nat} {s : Sys V} (h : AtVote E n s)
    (hend : ∀ i, (s.pfc i).Finished) :
    (runTag E (.vote n) s).status = none ∧ (runTag E (.vote n) s).stopRequested = false := by
  have hnone (i : Fin 3) : E.sent n i = none := by
    apply Pfc.silent_of_finished
    rw [← Pfc.run_succ, ← h.pfc i]
    exact hend i
  have hstatus : (runTag E (.vote n) s).status = none := by rw [h.status, if_pos hnone]
  exact ⟨hstatus, by rw [h.requested, hstatus]; rfl⟩

theorem Reaches.runs_on {E : Env V} {n : Nat} {s : Sys V} (h : Reaches E (.vote n) s)
    (hend : ∀ i, (s.pfc i).Finished) (k : Nat) (hk : n ≤ k) (htime : k < E.timeout) :
    ∃ t, Reaches E (.vote k) t ∧ ∀ i, (t.pfc i).Finished := by
  induction k, hk using Nat.le_induction with
  | base => exact ⟨s, h, hend⟩
  | succ k hk ih =>
    obtain ⟨t, ht, hfin⟩ := ih (by omega)
    have hnext := (ht.tick (ht.atVote.silent hfin).2).vote htime
    refine ⟨_, hnext, fun i => ?_⟩
    rw [hnext.atVote.pfc i]
    apply finished_run_succ
    rw [← ht.atVote.pfc i]
    exact hfin i

/-- End of data is never announced: at the first vote with every living PFC at end of file, and
at every later one up to the timeout, WES is silent and no stop is requested. -/
theorem end_of_data_silent (E : Env V) (n : Nat) (s s' : Sys V) (h : Reaches E (.vote n) s)
    (hend : ∀ i, (s.pfc i).alive = true → (s.pfc i).eofReached = true)
    (hvote : TagStep E (.vote n) s s') :
    ¬(s'.status = some .exit ∧ s'.stopRequested = true) ∧
    (s'.status = none ∧ s'.stopRequested = false) ∧
    ∀ k ≥ n, k < E.timeout → ∃ t t', Reaches E (.vote k) t ∧ TagStep E (.vote k) t t' ∧
      t'.status = none ∧ t'.stopRequested = false := by
  rw [tagStep_iff] at hvote
  subst hvote
  obtain ⟨hstatus, hstop⟩ := h.atVote.silent hend
  refine ⟨by simp [hstatus], ⟨hstatus, hstop⟩, fun k hk htime => ?_⟩
  obtain ⟨t, ht, hfin⟩ := h.runs_on hend k hk htime
  exact ⟨t, _, ht, (tagStep_iff E _ _ _).mpr rfl, ht.atVote.silent hfin⟩

/-- On a file of one sentence the shipped build has all PFCs alive and at end of file at
second 1. -/
theorem oneSentence_ends :
    let E := shippedEnv (fun _ => some oneSentence) 1 (fun _ => 0)
    ∃ s, Reaches E (.vote 1) s ∧
      ∀ i, (s.pfc i).alive = true ∧ (s.pfc i).eofReached = true := by
  intro E
  have hnone (k : Nat) (hk : k < 2) (i : Fin 3) : E.messages k i = none :=
    messages_before E k hk i
  have htime : E.timeout = 750 := rfl
  have hreach := reaches_before_messages E 1 (fun _ => 0) rfl 1 (by omega) oneSentence_fixes.ge
    (fun k hk => hnone k (by omega))
  obtain ⟨s, h1⟩ : ∃ s, Reaches E (.vote 1) s := ⟨_, hreach.vote (by omega)⟩
  have halive (i : Fin 3) : (s.pfc i).alive = true := by
    rw [h1.atVote.pfc i, (recorded_run E (E.faults i) 2).alive]
    intro hsome
    obtain ⟨k, hk, msg, hm, -⟩ := hsome
    rw [Env.faults, hnone k hk i] at hm
    cases hm
  have hopen : openG18 E.fopen = some oneSentence := rfl
  have hlen : E.fixes.length ≤ 1 := oneSentence_fixes.le
  exact ⟨s, h1, fun i => ⟨halive i, (h1.atVote.eofReached _ hopen i (halive i)).mpr hlen⟩⟩

theorem oneSentence_runs_on :
    let E := shippedEnv (fun _ => some oneSentence) 1 (fun _ => 0)
    ∃ s s', Reaches E (.vote 1) s ∧
      (∀ i, (s.pfc i).alive = true ∧ (s.pfc i).eofReached = true) ∧
      TagStep E (.vote 1) s s' ∧ ¬(s'.status = some .exit ∧ s'.stopRequested = true) := by
  intro E
  obtain ⟨s, h, hend⟩ := oneSentence_ends
  refine ⟨s, _, h, hend, (tagStep_iff E _ _ _).mpr rfl, ?_⟩
  rw [(h.atVote.silent (fun i _ => (hend i).2)).1]
  simp

theorem end_of_data_silent_oneSentence :
    let E := shippedEnv (fun _ => some oneSentence) 1 (fun _ => 0)
    ∃ s s', Reaches E (.vote 1) s ∧ TagStep E (.vote 1) s s' ∧ s'.status = none ∧
      s'.stopRequested = false := by
  intro E
  obtain ⟨s, h, hend⟩ := oneSentence_ends
  have hstep : TagStep E (.vote 1) s (runTag E (.vote 1) s) := (tagStep_iff E _ _ _).mpr rfl
  exact ⟨s, _, h, hstep, (end_of_data_silent E 1 s _ h (fun i _ => (hend i).2) hstep).2.1⟩

end EndOfData

end LFBenchmarks.FlyByWire
