import LFBenchmarks.FlyByWire.Lockstep

namespace LFBenchmarks.FlyByWire

section Bias

variable {V : Type*} [Field V] [LinearOrder V] [IsStrictOrderedRing V] [FloorRing V]

theorem roundAway_intCast (k : Int) : roundAway (k : V) = k := by
  have half (m : Int) : ⌊(m : V) + 0.5⌋ = m := by
    rw [Int.floor_eq_iff]
    constructor <;> norm_num
  unfold roundAway
  split_ifs
  · exact half k
  · rw [← Int.cast_neg, half, neg_neg]

/-- A bias is invisible only on a speed of zero. -/
theorem applyBias_eq_self (v : V) (h : applyBias v = v) : v = 0 := by
  rw [applyBias_eq] at h
  have hv : v = ((4 * roundAway v : Int) : V) := by
    push_cast
    exact h.symm
  have hround : roundAway v = 4 * roundAway v := by
    conv_lhs => rw [hv]
    exact roundAway_intCast _
  have hzero : roundAway v = 0 := by omega
  rw [hv, hzero]
  norm_num

end Bias

section Result

variable {V : Type*} [DecidableEq V]

theorem Wes.result_iff (w : Wes V) (A : Fin 3 → Prop)
    (hmatch : ∀ i j, i ≠ j → (w.matching i j = true ↔ A i ∧ A j)) :
    (w.result = .ok ↔ ∀ i, A i) ∧
    (∀ i, w.result = .errorPfc i ↔ (∀ j, j ≠ i → A j) ∧ ¬A i) ∧
    (w.result = .emergency ↔ ∀ i j, A i → A j → i = j) := by
  have h01 := hmatch 0 1 (by decide)
  have h02 := hmatch 0 2 (by decide)
  have h12 := hmatch 1 2 (by decide)
  unfold Wes.result
  classical
  simp only [Bool.and_eq_true, h01, h02, h12]
  by_cases h0 : A 0 <;> by_cases h1 : A 1 <;> by_cases h2 : A 2 <;>
    simp [h0, h1, h2, Fin.forall_fin_succ]

end Result

section Messages

/-- With a transmission at tick `n` nothing older than the message of that tick is pending. -/
theorem message_of_biased (faults : Nat → Option FaultMsg) (n : Nat)
    (ht : Transmits faults n) (hb : Biased faults n) : (faults n).isSome = true := by
  by_contra hnone
  have hm : faults n = none := by simpa using hnone
  obtain ⟨k, hk, ⟨msg, hmsg, -⟩, hlast⟩ := hb
  have hkn : k < n := by
    rcases Nat.lt_succ_iff_lt_or_eq.mp hk with h | rfl
    · exact h
    · rw [hm] at hmsg
      cases hmsg
  obtain ⟨p, rfl⟩ : ∃ p, n = p + 1 := ⟨n - 1, by omega⟩
  -- without a message the flags at tick `p + 1` are those of tick `p`
  have hprev : Transmits faults p := by
    refine ⟨fun hi => ht.1 ((interrupted_succ faults (p + 1)).mpr (.inl hi)), ?_⟩
    exact (resumed_succ_of_keep faults (p + 1) (by simp [hm])).mp ht.2
  have hlt := hlast p (by omega) hprev
  omega

end Messages

section Verdict

variable {V : Type*}

theorem one_target (E : Env V) (randMax : Nat) (rand : Nat → Nat)
    (hsource : E.source = failureGenerator randMax rand) (n : Nat) (i j : Fin 3)
    (hi : (E.messages n i).isSome = true) (hj : (E.messages n j).isSome = true) : i = j := by
  unfold Env.messages at hi hj
  rw [hsource] at hi hj
  split_ifs at hi hj
  · simp only [failureGenerator] at hi hj
    split_ifs at hi hj with h₁ h₂
    · exact Fin.ext (h₁.2.symm.trans h₂.2)
    all_goals simp_all
  · simp at hi

variable [Field V] [LinearOrder V] [FloorRing V]

/-- The speed a never-faulted PFC computes for sample `n`. -/
def Env.faultFreeSpeed (E : Env V) (n : Nat) : V :=
  (Pfc.run E (fun _ => none) (n + 1)).accumulatedSpeed

theorem faultFreeSpeed_eq (E : Env V) (n : Nat) (hn : n < E.fixes.length) :
    E.faultFreeSpeed n = nominalSpeed E.distance E.fixes n := by
  obtain ⟨file, hopen⟩ := E.opened_of_lt n hn
  have h := recorded_run E (fun _ => none) (n + 1)
  have hnav := h.nav (h.alive.mpr (by simp [Interrupted]))
  have hspeed := (onTrack_navAt E file hopen (n + 1) hn).speed
  rw [← hnav] at hspeed
  exact hspeed

def Env.SentTruth (E : Env V) (n : Nat) (i : Fin 3) : Prop :=
  ∃ msg, E.sent n i = some msg ∧ msg.speed = E.faultFreeSpeed n

/-- A wrong speed comes from a message of the same tick. -/
theorem message_of_wrong (E : Env V) (n : Nat) (i : Fin 3) (msg : SpeedMsg V)
    (hs : E.sent n i = some msg) (hw : msg.speed ≠ E.faultFreeSpeed n) :
    (E.messages n i).isSome = true := by
  classical
  unfold Env.sent at hs
  rw [sent_eq] at hs
  split_ifs at hs with hsend hb
  · exact message_of_biased (E.faults i) n hsend.2 hb
  · obtain rfl := Option.some.inj hs
    exact absurd (faultFreeSpeed_eq E n hsend.1).symm hw

/-- Two of the captured samples match exactly when both are the fault-free one. -/
theorem AtVote.matching {E : Env V} {n : Nat} {s : Sys V} (h : AtVote E n s)
    (randMax : Nat) (rand : Nat → Nat) (hsource : E.source = failureGenerator randMax rand)
    (i j : Fin 3) (hij : i ≠ j) :
    s.wes.matching i j = true ↔ E.SentTruth n i ∧ E.SentTruth n j := by
  unfold Wes.matching Wes.valid
  rw [h.hasS i, h.hasS j]
  cases hi : E.sent n i with
  | none => simp [Env.SentTruth, hi]
  | some a =>
    cases hj : E.sent n j with
    | none => simp [Env.SentTruth, hj]
    | some b =>
      obtain ⟨hac, hav⟩ := sent_valid E n i a hi
      obtain ⟨hbc, hbv⟩ := sent_valid E n j b hj
      simp only [h.lastS i a hi, h.lastS j b hj, Env.SentTruth, hi, hj, hac, hbc, hav, hbv,
        Option.isSome_some, Bool.and_true, Bool.true_and, decide_true, decide_eq_true_eq,
        Option.some.injEq, exists_eq_left']
      constructor
      · intro heq
        by_cases ha : a.speed = E.faultFreeSpeed n
        · exact ⟨ha, heq ▸ ha⟩
        · have hb : b.speed ≠ E.faultFreeSpeed n := heq ▸ ha
          exact absurd (one_target E randMax rand hsource n i j
            (message_of_wrong E n i a hi ha) (message_of_wrong E n j b hj hb)) hij
      · intro hsome
        obtain ⟨ha, hb⟩ := hsome
        rw [ha, hb]

theorem AtVote.verdict {E : Env V} {n : Nat} {s : Sys V} (h : AtVote E n s)
    (randMax : Nat) (rand : Nat → Nat) (hsource : E.source = failureGenerator randMax rand) :
    let status := (runTag E (.vote n) s).status
    (status = some .ok ↔ ∀ i, E.SentTruth n i) ∧
    (∀ i, status = some (.errorPfc i) ↔ (∀ j, j ≠ i → E.SentTruth n j) ∧ ¬E.SentTruth n i) ∧
    (status = some .emergency ↔ (∃ i, E.sent n i ≠ none) ∧
      ∀ i j, E.SentTruth n i → E.SentTruth n j → i = j) ∧
    (status = none ↔ ∀ i, E.sent n i = none) := by
  intro status
  have hstatus : status = if ∀ i, E.sent n i = none then none else some s.wes.result := h.status
  obtain ⟨hok, herror, hemergency⟩ :=
    s.wes.result_iff (E.SentTruth n) (h.matching randMax rand hsource)
  have hsent (i : Fin 3) (hi : E.SentTruth n i) : ¬∀ j, E.sent n j = none := by
    obtain ⟨msg, hm, -⟩ := hi
    intro hall
    rw [hall i] at hm
    cases hm
  by_cases hall : ∀ i, E.sent n i = none
  · rw [if_pos hall] at hstatus
    have hfalse (i : Fin 3) : ¬E.SentTruth n i := fun hi => hsent i hi hall
    refine ⟨?_, fun i => ?_, ?_, ?_⟩
    · simpa [hstatus] using ⟨0, hfalse 0⟩
    · have hother : ∃ j, j ≠ i ∧ ¬E.SentTruth n j := ⟨i + 1, by simp, hfalse _⟩
      simp only [hstatus, reduceCtorEq, false_iff]
      intro hsome
      obtain ⟨hj, -⟩ := hsome
      obtain ⟨j, hji, hnj⟩ := hother
      exact hnj (hj j hji)
    · simp [hstatus, hall]
    · simp [hstatus, hall]
  · rw [if_neg hall] at hstatus
    refine ⟨?_, fun i => ?_, ?_, ?_⟩
    · simp [hstatus, hok]
    · simp [hstatus, herror i]
    · simp only [hstatus, Option.some.injEq, hemergency]
      exact (and_iff_right (not_forall.mp hall)).symm
    · simp [hstatus, hall]

theorem sentTruth_of_none (E : Env V) (n : Nat) (i : Fin 3) (hn : n < E.fixes.length)
    (h : ∀ k ≤ n, E.messages k i = none) : E.SentTruth n i := by
  obtain ⟨hsend, hclean⟩ := transmits_of_none (E.faults i) n h
  refine ⟨⟨n, nominalSpeed E.distance E.fixes n, true⟩, ?_, (faultFreeSpeed_eq E n hn).symm⟩
  simp [Env.sent, sent_eq, hn, hsend, hclean]

/-- Until a message comes the run goes on, as long as there is data. -/
theorem reaches_before_messages (E : Env V) (randMax : Nat) (rand : Nat → Nat)
    (hsource : E.source = failureGenerator randMax rand) (n : Nat) (hn : n ≤ E.timeout)
    (hlen : n ≤ E.fixes.length) (hquiet : ∀ k < n, ∀ i, E.messages k i = none) :
    Reaches E (.tick n) (onward E n) := by
  induction n with
  | zero => exact reaches_first_tick E
  | succ n ih =>
    have hvote := (ih (by omega) (by omega) (fun k hk => hquiet k (by omega))).vote (by omega)
    have htrue (i : Fin 3) : E.SentTruth n i :=
      sentTruth_of_none E n i (by omega) (fun k hk => hquiet k (by omega) i)
    apply hvote.tick
    rw [hvote.atVote.requested, (hvote.atVote.verdict randMax rand hsource).1.mpr htrue]
    rfl

variable [IsStrictOrderedRing V]

/-- WES judges the true speed: its status tells which PFCs sent the speed of a never-faulted
PFC, and no wrong speed is ever agreed on. -/
theorem vote_verdict (E : Env V) (randMax : Nat) (rand : Nat → Nat)
    (hsource : E.source = failureGenerator randMax rand) (n : Nat) (s s' : Sys V)
    (h : Reaches E (.vote n) s) (hvote : TagStep E (.vote n) s s') :
    let v := E.faultFreeSpeed n
    let transmitted := fun i => (s.speedOut i).isSome = true
    let truthful := fun i => ∃ msg, s.speedOut i = some msg ∧ msg.speed = v
    (s'.status = some .ok ↔ ∀ i, truthful i) ∧
    (∀ i, s'.status = some (.errorPfc i) ↔ (∀ j, j ≠ i → truthful j) ∧ ¬truthful i) ∧
    (s'.status = some .emergency ↔
      (∃ i, transmitted i) ∧ ∀ i j, truthful i → truthful j → i = j) ∧
    (s'.status = none ↔ ∀ i, ¬transmitted i) ∧
    (∀ i, truthful i → s'.status ≠ some (.errorPfc i)) ∧
    (∀ i j a b, i ≠ j → s.speedOut i = some a → s.speedOut j = some b → a.speed = b.speed →
      a.speed = v ∧ (a.speed = applyBias v → v = 0)) := by
  intro v transmitted truthful
  have hv := h.atVote
  have htruth (i : Fin 3) : truthful i ↔ E.SentTruth n i := by
    simp only [truthful, hv.speedOut i]
    rfl
  obtain ⟨hok, herror, hemergency, hnone⟩ := hv.verdict randMax rand hsource
  rw [tagStep_iff] at hvote
  simp only [htruth, transmitted, hvote, hv.speedOut, Option.isSome_iff_ne_none, not_not]
  refine ⟨hok, herror, hemergency, hnone, fun i hi herr => ((herror i).mp herr).2 hi, ?_⟩
  intro i j a b hij ha hb hab
  obtain ⟨hac, hav⟩ := sent_valid E n i a ha
  obtain ⟨hbc, hbv⟩ := sent_valid E n j b hb
  have hmatch : s.wes.matching i j = true := by
    simp [Wes.matching, Wes.valid, hv.hasS, ha, hb, hv.lastS i a ha, hv.lastS j b hb, hac, hbc,
      hav, hbv, hab]
  obtain ⟨⟨msg, hm, hspeed⟩, -⟩ := (hv.matching randMax rand hsource i j hij).mp hmatch
  rw [ha] at hm
  cases hm
  exact ⟨hspeed, fun hbias => applyBias_eq_self v (hbias.symm.trans hspeed)⟩

/-- The vote on a corrupted sample of PFC 2. -/
theorem vote_verdict_biased :
    let s := runTag biasedEnv (.tick 2) (onward biasedEnv 2)
    (runTag biasedEnv (.vote 2) s).status = some (.errorPfc 1) ∧
      (∃ msg, s.speedOut 0 = some msg ∧ msg.speed = biasedEnv.faultFreeSpeed 2) ∧
      (s.speedOut 1).isSome = true ∧
      ¬∃ msg, s.speedOut 1 = some msg ∧ msg.speed = biasedEnv.faultFreeSpeed 2 := by
  intro s
  have hreach : Reaches biasedEnv (.vote 2) s :=
    (reaches_onward biasedEnv 2 (by decide) (by decide +kernel)).vote (by decide)
  obtain ⟨-, herror, -⟩ := vote_verdict biasedEnv 1 biasToSecond rfl 2 s _ hreach
    ((tagStep_iff _ _ _ _).mpr rfl)
  have hstatus : (runTag biasedEnv (.vote 2) s).status = some (.errorPfc 1) := by decide +kernel
  obtain ⟨hothers, hwrong⟩ := (herror 1).mp hstatus
  exact ⟨hstatus, hothers 0 (by decide), by decide +kernel, hwrong⟩

end Verdict

end LFBenchmarks.FlyByWire
