import LFBenchmarks.FlyByWire.Bias
import LFBenchmarks.FlyByWire.GreatCircle

namespace LFBenchmarks.FlyByWire

section Accumulation

variable {V : Type*} [Field V] [LinearOrder V] [FloorRing V]

/-- What one timer reaction can do to the speed. -/
theorem Pfc.timer_speed (distance : GllFix → GllFix → V) (p : Pfc V) :
    let q := (p.timer distance).1
    q.accumulatedSpeed = p.accumulatedSpeed ∨ q.accumulatedSpeed = 0 ∨
      ∃ f g, q.accumulatedSpeed = p.accumulatedSpeed + distance f g := by
  intro q
  cases halive : p.alive with
  | false =>
    left
    simp only [q, Pfc.timer_dead distance p halive]
  | true =>
    have hspeed : q.accumulatedSpeed = (p.nav.step distance).accumulatedSpeed :=
      congrArg Nav.accumulatedSpeed (Pfc.timer_alive distance p halive).1
    rw [hspeed]
    rcases hr : p.nav.read with ⟨fix, rest⟩
    cases fix with
    | none =>
      left
      rw [Nav.step, hr]
      rfl
    | some fix =>
      right
      rw [Nav.step, hr]
      simp only [Nav.speedFor, computeSpeed_eq]
      split_ifs
      · exact .inr ⟨_, _, rfl⟩
      · exact .inl rfl

theorem Pfc.afterFault_speed (E : Env V) (faults : Nat → Option FaultMsg) (n : Nat) :
    (Pfc.afterFault E faults n).accumulatedSpeed = (Pfc.run E faults n).accumulatedSpeed :=
  congrArg Nav.accumulatedSpeed (afterFault_nav E faults n)

/-- A PFC that sends has lived so far and computed the speed of a PFC without faults. -/
theorem run_speed_of_sent (E : Env V) (faults : Nat → Option FaultMsg) (n : Nat)
    (h : (Pfc.sent E faults n).isSome = true) :
    (Pfc.run E faults (n + 1)).accumulatedSpeed = E.faultFreeSpeed n := by
  classical
  rw [sent_eq] at h
  by_cases hsend : n < E.fixes.length ∧ Transmits faults n
  · have halive := (recorded_run E faults (n + 1)).alive.mpr hsend.2.1
    have halive' := (recorded_run E (fun _ => none) (n + 1)).alive.mpr (by simp [Interrupted])
    have hnav := (recorded_run E faults (n + 1)).nav halive
    have hnav' := (recorded_run E (fun _ => none) (n + 1)).nav halive'
    exact congrArg Nav.accumulatedSpeed (hnav.trans hnav'.symm)
  · rw [if_neg hsend] at h
    cases h

variable [IsStrictOrderedRing V]

/-- With `n` distances of at most `d` each the speed stays between 0 and `n * d`. -/
theorem Pfc.run_speed_mem (E : Env V) (d : V)
    (hd : ∀ f g, 0 ≤ E.distance f g ∧ E.distance f g ≤ d) (faults : Nat → Option FaultMsg)
    (n : Nat) :
    0 ≤ (Pfc.run E faults n).accumulatedSpeed ∧ (Pfc.run E faults n).accumulatedSpeed ≤ n * d := by
  have hpos : 0 ≤ d := (hd GllFix.zero GllFix.zero).1.trans (hd GllFix.zero GllFix.zero).2
  induction n with
  | zero => simp [Pfc.run_zero, Pfc.startup, Pfc.initial]
  | succ n ih =>
    obtain ⟨hlo, hhi⟩ := ih
    have hstep := Pfc.timer_speed E.distance (Pfc.afterFault E faults n)
    simp only [Pfc.afterFault_speed] at hstep
    rw [Pfc.run_succ, Nat.cast_succ, add_mul, one_mul]
    rcases hstep with hkeep | hzero | ⟨f, g, hadd⟩
    · rw [hkeep]
      exact ⟨hlo, by linarith⟩
    · rw [hzero]
      exact ⟨le_rfl, by positivity⟩
    · obtain ⟨hf, hg⟩ := hd f g
      rw [hadd]
      exact ⟨by linarith, by linarith⟩

end Accumulation

section Timeout

variable {V : Type*} [Field V] [LinearOrder V] [FloorRing V]

def Tag.within (timeout : Nat) : Tag → Prop
  | .tick n => n ≤ timeout
  | .vote n => n < timeout
  | .shutdown => True

/-- No tag of a run lies behind the timeout. -/
theorem Reaches.within {E : Env V} {tag : Tag} {s : Sys V} (h : Reaches E tag s) :
    tag.within E.timeout := by
  refine Reaches.induction (P := fun tag _ => tag.within E.timeout) (Nat.zero_le _)
    (fun tag tag' s hs hnext => ?_) h
  cases hnext with
  | vote hlt => exact hlt
  | stop => exact True.intro
  | tick => exact hs

theorem Reaches.le_timeout {E : Env V} {n : Nat} {s : Sys V} (h : Reaches E (.tick n) s) :
    n ≤ E.timeout := h.within

end Timeout

section IntRange

/-- Conversion to a 32-bit `int`, undefined out of range. -/
def toInt (x : Int) : Option Int := if -2147483648 ≤ x ∧ x ≤ 2147483647 then some x else none

/-- `<<` on a 32-bit `int`, undefined on a negative operand and on overflow. -/
def shiftLeft (x : Int) (k : Nat) : Option Int :=
  if 0 ≤ x ∧ x * 2 ^ k ≤ 2147483647 then some (x <<< k) else none

variable {V : Type*} [Field V] [LinearOrder V] [IsStrictOrderedRing V] [FloorRing V]

/-- `apply_bias` with a 32-bit `int`, where C defines it. -/
def applyBiasInt (speed : V) : Option V :=
  ((toInt (roundAway speed)).bind (fun rounded => shiftLeft rounded 2)).map
    (fun shifted : Int => (shifted : V))

/-- Half is rounded up, which is away from zero here. -/
theorem roundAway_mem (v : V) (h : 0 ≤ v) :
    0 ≤ roundAway v ∧ (roundAway v : V) - 1 / 2 ≤ v ∧ v < (roundAway v : V) + 1 / 2 := by
  have hround : roundAway v = ⌊v + 1 / 2⌋ := by
    rw [roundAway, if_pos h]
    norm_num
  have hle := Int.floor_le (v + 1 / 2)
  have hlt := Int.lt_floor_add_one (v + 1 / 2)
  rw [hround]
  refine ⟨Int.floor_nonneg.mpr (by positivity), by linarith, by linarith⟩

theorem applyBiasInt_eq (v : V) (h : 0 ≤ v) (hle : v ≤ 536870911) :
    applyBiasInt v = some (applyBias v) := by
  obtain ⟨hnonneg, hround, -⟩ := roundAway_mem v h
  have hbound : roundAway v < 536870912 := by
    have hlt : (roundAway v : V) < ((536870912 : Int) : V) := by
      push_cast
      linarith
    exact_mod_cast hlt
  have hint : toInt (roundAway v) = some (roundAway v) := if_pos (by omega)
  have hshift : shiftLeft (roundAway v) 2 = some (roundAway v <<< (2 : Nat)) := if_pos (by omega)
  rw [applyBiasInt, hint, Option.bind_some, hshift, Option.map_some]
  rfl

theorem applyBias_eq_self_iff (v : V) : applyBias v = v ↔ v = 0 := by
  constructor
  · exact applyBias_eq_self v
  · rintro rfl
    have hzero := roundAway_intCast (V := V) 0
    rw [Int.cast_zero] at hzero
    rw [applyBias_eq, hzero, Int.cast_zero, mul_zero]

end IntRange

section Range

/-- The shipped distances and timeout under any messages to the PFCs. -/
noncomputable def faultedEnv (fopen : String → Option (List Char)) (source : FaultSource) : Env ℝ :=
  ⟨fopen, haversineDistance, source, 750⟩

variable {E : Env ℝ} {n : Nat} {s : Sys ℝ}

theorem AtTick.speed_eq (h : AtTick E n s) (i : Fin 3) :
    ((runTag E (.tick n) s).pfc i).accumulatedSpeed =
      (Pfc.run E (E.faults i) (n + 1)).accumulatedSpeed := by
  rw [(h.after i).1]
  split_ifs <;> rfl

theorem AtTick.speed_of_sent (h : AtTick E n s) (i : Fin 3)
    (hsent : ((runTag E (.tick n) s).speedOut i).isSome = true) :
    ((runTag E (.tick n) s).pfc i).accumulatedSpeed = E.faultFreeSpeed n := by
  rw [(h.after i).2.1] at hsent
  rw [h.speed_eq i]
  exact run_speed_of_sent E (E.faults i) n hsent

/-- 751 half circumferences of the earth are far from the bound of an `int`. -/
theorem AtTick.speed_mem (h : AtTick E n s) (hdistance : E.distance = haversineDistance)
    (hn : n ≤ 750) (i : Fin 3) :
    let v := ((runTag E (.tick n) s).pfc i).accumulatedSpeed
    0 ≤ v ∧ v ≤ 536870911 := by
  intro v
  have hd (f g : GllFix) :
      0 ≤ E.distance f g ∧ E.distance f g ≤ Real.pi * earthRadiusKm := by
    rw [hdistance, haversineDistance_eq]
    exact ⟨Coordinates.distance_nonneg _ _, Coordinates.distance_le _ _⟩
  obtain ⟨hlo, hhi⟩ := Pfc.run_speed_mem E _ hd (E.faults i) (n + 1)
  have hcount : ((n + 1 : Nat) : ℝ) ≤ 751 := by exact_mod_cast Nat.succ_le_succ hn
  have hcircle : Real.pi * (earthRadiusKm : ℝ) ≤ 4 * 6371 := by
    have hradius : (earthRadiusKm : ℝ) = 6371 := by norm_num [earthRadiusKm]
    rw [hradius]
    exact mul_le_mul_of_nonneg_right Real.pi_le_four (by norm_num)
  have hv : v = (Pfc.run E (E.faults i) (n + 1)).accumulatedSpeed := h.speed_eq i
  rw [hv]
  refine ⟨hlo, hhi.trans ?_⟩
  calc ((n + 1 : Nat) : ℝ) * (Real.pi * earthRadiusKm)
      ≤ 751 * (4 * 6371) := mul_le_mul hcount hcircle ((hd GllFix.zero GllFix.zero).1.trans
        (hd GllFix.zero GllFix.zero).2) (by norm_num)
    _ ≤ 536870911 := by norm_num

/-- A wrong sample is named, or the vote ends the run. -/
theorem AtVote.wrong_sample (h : AtVote E n s) (randMax : Nat) (rand : Nat → Nat)
    (hsource : E.source = failureGenerator randMax rand) (i : Fin 3) (msg : SpeedMsg ℝ)
    (hmsg : E.sent n i = some msg) (hwrong : msg.speed ≠ E.faultFreeSpeed n) :
    (runTag E (.vote n) s).status = some (.errorPfc i) ∨
      (runTag E (.vote n) s).status = some .emergency := by
  obtain ⟨-, herror, hemergency, -⟩ := h.verdict randMax rand hsource
  have hfalse : ¬E.SentTruth n i := by
    rintro ⟨other, hother, hspeed⟩
    rw [hmsg] at hother
    cases hother
    exact hwrong hspeed
  by_cases hothers : ∀ j, j ≠ i → E.SentTruth n j
  · exact .inl ((herror i).mpr ⟨hothers, hfalse⟩)
  · obtain ⟨j, hj⟩ := not_forall.mp hothers
    obtain ⟨hji, hwrongj⟩ := Classical.not_imp.mp hj
    refine .inr (hemergency.mpr ⟨⟨i, by simp [hmsg]⟩, fun a b ha hb => ?_⟩)
    -- only the third PFC is left to have sent the true speed
    have hai : a ≠ i := fun heq => hfalse (heq ▸ ha)
    have haj : a ≠ j := fun heq => hwrongj (heq ▸ ha)
    have hbi : b ≠ i := fun heq => hfalse (heq ▸ hb)
    have hbj : b ≠ j := fun heq => hwrongj (heq ▸ hb)
    omega

/-- Under any messages the bias is computed without overflow and shows on every speed but zero;
with the messages of the generator no vote passes over it. -/
theorem bias_observable (fopen : String → Option (List Char)) (source : FaultSource) (n : Nat)
    (s s' : Sys ℝ) (h : Reaches (faultedEnv fopen source) (.tick n) s)
    (hstep : TagStep (faultedEnv fopen source) (.tick n) s s') :
    let v := fun i => (s'.pfc i).accumulatedSpeed
    (∀ i, 0 ≤ v i ∧ applyBiasInt (v i) = some (applyBias (v i)) ∧
      applyBias (v i) = 4 * (roundAway (v i) : ℝ) ∧
      ((roundAway (v i) : ℝ) - 1 / 2 ≤ v i ∧ v i < (roundAway (v i) : ℝ) + 1 / 2) ∧
      (applyBias (v i) = v i ↔ v i = 0)) ∧
    (∀ i msg, s'.speedOut i = some msg → Corrupted s s' i → msg.speed = applyBias (v i)) ∧
    (∀ i j a b, s'.speedOut i = some a → s'.speedOut j = some b → Corrupted s s' i →
      ¬Corrupted s s' j → (a.speed = b.speed ↔ v i = 0)) ∧
    ∀ randMax rand, source = failureGenerator randMax rand → n < 750 →
      ∀ i, Corrupted s s' i → v i ≠ 0 →
        ∀ s'', TagStep (faultedEnv fopen source) (.vote n) s' s'' →
          s''.status = some (.errorPfc i) ∨ s''.status = some .emergency := by
  have hle : n ≤ 750 := h.le_timeout
  have htick := h.atTick
  rw [tagStep_iff] at hstep
  subst hstep
  intro v
  have hmem (i : Fin 3) : 0 ≤ v i ∧ v i ≤ 536870911 := htick.speed_mem rfl hle i
  have hbias (i : Fin 3) (msg : SpeedMsg ℝ) := htick.sample_speed i msg
  refine ⟨fun i => ?_, fun i msg hmsg => (hbias i msg hmsg).1, ?_, ?_⟩
  · obtain ⟨hlo, hhi⟩ := hmem i
    exact ⟨hlo, applyBiasInt_eq _ hlo hhi, applyBias_eq _, (roundAway_mem _ hlo).2,
      applyBias_eq_self_iff _⟩
  · intro i j a b ha hb hi hj
    have hvi : v i = (faultedEnv fopen source).faultFreeSpeed n :=
      htick.speed_of_sent i (by rw [ha]; rfl)
    have hvj : v j = (faultedEnv fopen source).faultFreeSpeed n :=
      htick.speed_of_sent j (by rw [hb]; rfl)
    rw [(hbias i a ha).1 hi, (hbias j b hb).2 hj]
    change applyBias (v i) = v j ↔ v i = 0
    rw [hvj, ← hvi, applyBias_eq_self_iff]
  · intro randMax rand hsource hn i hi hne s'' hvote
    rw [tagStep_iff] at hvote
    subst hvote
    obtain ⟨msg, hmsg⟩ := Option.isSome_iff_exists.mp hi.2
    have hv : v i = (faultedEnv fopen source).faultFreeSpeed n :=
      htick.speed_of_sent i hi.2
    have hsent : (faultedEnv fopen source).sent n i = some msg := by
      rw [← (htick.after i).2.1, hmsg]
    apply (htick.vote hn).wrong_sample randMax rand hsource i msg hsent
    rw [(hbias i msg hmsg).1 hi, ← hv]
    exact fun heq => hne ((applyBias_eq_self_iff (v i)).mp heq)

/-- Readings one degree of latitude apart, and the second once more. -/
def oneDegree : List Char :=
  ("$GPGLL,4530.0000,N,00800.0000,E,120000,A\n$GPGLL,4531.0000,N,00800.0000,E,120001,A\n" ++
    "$GPGLL,4531.0000,N,00800.0000,E,120002,A\n").toList

theorem oneDegree_fixes (source : FaultSource) :
    (faultedEnv (fun _ => some oneDegree) source).fixes =
      [⟨.finite 4530, 'N', .finite 800, 'E', 120000, true⟩,
        ⟨.finite 4531, 'N', .finite 800, 'E', 120001, true⟩,
        ⟨.finite 4531, 'N', .finite 800, 'E', 120002, true⟩] := by
  have hopen : (faultedEnv (fun _ => some oneDegree) source).fixes = acceptedFixes oneDegree := by
    simp only [Env.fixes, faultedEnv, openG18, Option.elim_some]
  rw [hopen]
  decide +kernel

theorem oneDegree_speed (source : FaultSource) :
    (faultedEnv (fun _ => some oneDegree) source).faultFreeSpeed 2 ≠ 0 := by
  let fix (lat : Rat) (time : Int) : GllFix := ⟨.finite lat, 'N', .finite 800, 'E', time, true⟩
  have hfixes : (faultedEnv (fun _ => some oneDegree) source).fixes =
      [fix 4530 120000, fix 4531 120001, fix 4531 120002] := oneDegree_fixes source
  have hfirst : haversineDistance (fix 4530 120000) (fix 4531 120001) =
      earthRadiusKm * degreesToRadians 1 := by
    have hone : |(coordinate (.finite 4530) : ℝ) - coordinate (.finite 4531)| = 1 := by
      norm_num [coordinate]
    rw [haversineDistance_eq, Coordinates.distance_of_longitude (fix 4530 120000).coordinates
      (fix 4531 120001).coordinates rfl]
    · exact congrArg (fun d => earthRadiusKm * degreesToRadians d) hone
    · exact hone.trans_le (by norm_num)
  have hpos : 0 < earthRadiusKm * degreesToRadians 1 := by
    unfold degreesToRadians
    exact mul_pos (by norm_num [earthRadiusKm]) (by positivity)
  have hsecond : 0 ≤ haversineDistance (fix 4531 120001) (fix 4531 120002) := by
    rw [haversineDistance_eq]
    exact Coordinates.distance_nonneg _ _
  rw [faultFreeSpeed_eq _ _ (by simp [hfixes]), hfixes]
  change 0 + haversineDistance (fix 4530 120000) (fix 4531 120001) +
    haversineDistance (fix 4531 120001) (fix 4531 120002) ≠ 0
  rw [hfirst, zero_add]
  exact (add_pos_of_pos_of_nonneg hpos hsecond).ne'

/-- A bias on a speed that is not zero is sent by PFC 2 at tick 2 and noticed at the vote. -/
theorem bias_observable_second :
    let E := faultedEnv (fun _ => some oneDegree) (failureGenerator 1 biasToSecond)
    let s := onward E 2
    let s' := runTag E (.tick 2) s
    Corrupted s s' 1 ∧ (s'.pfc 1).accumulatedSpeed ≠ 0 ∧
      applyBias (s'.pfc 1).accumulatedSpeed ≠ (s'.pfc 1).accumulatedSpeed ∧
      ((runTag E (.vote 2) s').status = some (.errorPfc 1) ∨
        (runTag E (.vote 2) s').status = some .emergency) := by
  intro E s s'
  have htime : E.timeout = 750 := rfl
  have hlen : E.fixes.length = 3 := by rw [oneDegree_fixes]; rfl
  have hreach : Reaches E (.tick 2) s := reaches_before_messages E 1 biasToSecond rfl 2
    (by omega) (by omega) (fun k hk => messages_before E k hk)
  have hsends : Transmits (E.faults 1) 2 := by decide +kernel
  have hbiased : Biased (E.faults 1) 2 := by decide +kernel
  have hcorrupted : Corrupted s s' 1 := by
    have hrecorded := recorded_afterFault E (E.faults 1) 2
    rw [hreach.atTick.corrupted]
    refine ⟨(hrecorded.bias (hrecorded.alive.mpr hsends.1) (by omega)).mpr hbiased, ?_⟩
    rw [Env.sent, sent_eq, if_pos ⟨by omega, hsends⟩]
    rfl
  have hspeed : (s'.pfc 1).accumulatedSpeed ≠ 0 := by
    rw [hreach.atTick.speed_of_sent 1 hcorrupted.2]
    exact oneDegree_speed _
  obtain ⟨hrange, -, -, hvote⟩ := bias_observable (fun _ => some oneDegree) _ 2 s s' hreach
    ((tagStep_iff E _ _ _).mpr rfl)
  exact ⟨hcorrupted, hspeed, fun heq => hspeed ((hrange 1).2.2.2.2.mp heq),
    hvote 1 biasToSecond rfl (by omega) 1 hcorrupted hspeed _ ((tagStep_iff E _ _ _).mpr rfl)⟩

end Range

end LFBenchmarks.FlyByWire
