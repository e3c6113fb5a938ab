import LFBenchmarks.FlyByWire.TagEffect

namespace LFBenchmarks.FlyByWire

namespace BehaviorTest

variable {V : Type*}

/-- `sample_t` of the C harness, which votes with the structure of the original program. -/
structure Sample (V : Type*) where
  counter : Int
  speed : V

/-- The decision structure of the original C WES. -/
def originalWes [DecidableEq V] (p1 p2 p3 : Sample V) : String :=
  if decide (p1.counter = p2.counter) && decide (p1.speed = p2.speed) then
    if decide (p1.counter = p3.counter) && decide (p1.speed = p3.speed) then "OK"
    else "ERROR_PFC3"
  else if decide (p1.counter = p3.counter) then "ERROR_PFC2"
  else if decide (p2.counter = p3.counter) then "ERROR_PFC1"
  else "EMERGENCY"

def expectedTmr [DecidableEq V] (p1 p2 p3 : Sample V) : String :=
  let match12 := decide (p1.counter = p2.counter) && decide (p1.speed = p2.speed)
  let match13 := decide (p1.counter = p3.counter) && decide (p1.speed = p3.speed)
  let match23 := decide (p2.counter = p3.counter) && decide (p2.speed = p3.speed)
  if match12 && match13 then "OK"
  else if match12 then "ERROR_PFC3"
  else if match13 then "ERROR_PFC2"
  else if match23 then "ERROR_PFC1"
  else "EMERGENCY"

theorem originalWes_of_match [DecidableEq V] (p1 p2 p3 : Sample V)
    (h : p1.counter = p2.counter ∧ p1.speed = p2.speed) :
    originalWes p1 p2 p3 = expectedTmr p1 p2 p3 := by
  unfold originalWes expectedTmr
  simp only [h, decide_true, Bool.and_self, Bool.true_and, if_true]

theorem originalWes_of_not_match [DecidableEq V] (p1 p2 p3 : Sample V)
    (h : ¬(p1.counter = p2.counter ∧ p1.speed = p2.speed)) :
    originalWes p1 p2 p3 = (if p1.counter = p3.counter then "ERROR_PFC2"
      else if p2.counter = p3.counter then "ERROR_PFC1" else "EMERGENCY") ∧
    expectedTmr p1 p2 p3 =
      (if p1.counter = p3.counter ∧ p1.speed = p3.speed then "ERROR_PFC2"
        else if p2.counter = p3.counter ∧ p2.speed = p3.speed then "ERROR_PFC1"
        else "EMERGENCY") := by
  simp only [originalWes, expectedTmr, ← Bool.decide_and, decide_eq_true_eq, h, decide_false,
    Bool.false_and, Bool.false_eq_true, if_false, and_self]

/-- Where the original voter departs from the symmetric one: it takes equal counters for a match
and blames the third. -/
theorem original_wes_extent [DecidableEq V] (p1 p2 p3 : Sample V) :
    let original := originalWes p1 p2 p3
    let expected := expectedTmr p1 p2 p3
    (original ≠ expected ↔
      ¬(p1.counter = p2.counter ∧ p1.speed = p2.speed) ∧
        (p1.counter = p3.counter ∧ p1.speed ≠ p3.speed ∨
          p1.counter ≠ p3.counter ∧ p2.counter = p3.counter ∧ p2.speed ≠ p3.speed)) ∧
    (original ≠ expected →
      original = "ERROR_PFC2" ∧ expected ∈ ["EMERGENCY", "ERROR_PFC1"] ∨
        original = "ERROR_PFC1" ∧ expected = "EMERGENCY") ∧
    (original = "EMERGENCY" → expected = "EMERGENCY") := by
  intro original expected
  by_cases h12 : p1.counter = p2.counter ∧ p1.speed = p2.speed
  · have heq : original = expected := originalWes_of_match p1 p2 p3 h12
    simp [heq, h12]
  · obtain ⟨horiginal, hexpected⟩ := originalWes_of_not_match p1 p2 p3 h12
    rw [show original = _ from horiginal, show expected = _ from hexpected]
    simp only [h12, not_false_eq_true, true_and]
    by_cases h13 : p1.counter = p3.counter
    · -- blamed on PFC2 whatever the speeds
      by_cases hs : p1.speed = p3.speed
      · simp [h13, hs]
      · by_cases h23 : p2.counter = p3.counter ∧ p2.speed = p3.speed
        · simp [h13, hs, h23]
        · simp [h13, hs, h23]
    · by_cases h23 : p2.counter = p3.counter
      · by_cases hs : p2.speed = p3.speed
        · simp [h13, h23, hs]
        · simp [h13, h23, hs]
      · simp [h13, h23]

/-- The status constants of the test are an enumeration of its own. -/
def statusOk : Int := 0

def statusErrorPfc1 : Int := 1

def statusErrorPfc2 : Int := 2

def statusErrorPfc3 : Int := 3

def statusEmergency : Int := 4

def statusName (status : Int) : String :=
  if status = statusOk then "OK"
  else if status = statusErrorPfc1 then "ERROR_PFC1"
  else if status = statusErrorPfc2 then "ERROR_PFC2"
  else if status = statusErrorPfc3 then "ERROR_PFC3"
  else if status = statusEmergency then "EMERGENCY"
  else "UNKNOWN"

/-- `test_speed_msg_t`. -/
structure SpeedMsg (V : Type*) where
  counter : Int
  speed : V
  valid : Bool
  scenario : Int

/-- `behavior_result_t`. -/
structure Result where
  scenario : Int
  status : Int
  deriving DecidableEq

/-- State of the WES under test. -/
structure Wes (V : Type*) where
  lastS1 : SpeedMsg V
  lastS2 : SpeedMsg V
  lastS3 : SpeedMsg V
  hasS1 : Bool
  hasS2 : Bool
  hasS3 : Bool

def Wes.initial [Zero V] : Wes V :=
  ⟨⟨0, 0, false, 0⟩, ⟨0, 0, false, 0⟩, ⟨0, 0, false, 0⟩, false, false, false⟩

/-- The three reactions to an input. -/
def Wes.capture (msg : SpeedMsg V) (w : Wes V) : Fin 3 → Wes V
  | 0 => { w with lastS1 := msg, hasS1 := true }
  | 1 => { w with lastS2 := msg, hasS2 := true }
  | 2 => { w with lastS3 := msg, hasS3 := true }

def Wes.captureAll (msgs : Fin 3 → Option (SpeedMsg V)) (w : Wes V) : Wes V :=
  (List.finRange 3).foldl (fun w i => (msgs i).elim w (fun msg => w.capture msg i)) w

def SpeedMsg.same [DecidableEq V] (a b : SpeedMsg V) : Bool :=
  decide (a.counter = b.counter) && decide (a.speed = b.speed)

/-- `reaction(vote_tick)` of the WES under test, which waits for all three inputs. -/
def Wes.voteTick [DecidableEq V] (w : Wes V) : Wes V × Option Result :=
  if !w.hasS1 || !w.hasS2 || !w.hasS3 then (w, none)
  else
    let match12 := w.lastS1.same w.lastS2
    let match13 := w.lastS1.same w.lastS3
    let match23 := w.lastS2.same w.lastS3
    let status :=
      if match12 && match13 then statusOk
      else if match12 then statusErrorPfc3
      else if match13 then statusErrorPfc2
      else if match23 then statusErrorPfc1
      else statusEmergency
    ({ w with hasS1 := false, hasS2 := false, hasS3 := false },
      some ⟨w.lastS1.scenario, status⟩)

end BehaviorTest

/-- The number of a status in the navigation header. -/
def Status.code : Status → Int
  | .ok => 0
  | .errorPfc 0 => 1
  | .errorPfc 1 => 2
  | .errorPfc 2 => 3
  | .emergency => 4
  | .exit => 5

section Arrivals

variable {V : Type*}

theorem BehaviorTest.Wes.captureAll_eq (msgs : Fin 3 → Option (BehaviorTest.SpeedMsg V))
    (w : BehaviorTest.Wes V) :
    w.captureAll msgs =
      ⟨(msgs 0).getD w.lastS1, (msgs 1).getD w.lastS2, (msgs 2).getD w.lastS3,
        (msgs 0).isSome || w.hasS1, (msgs 1).isSome || w.hasS2, (msgs 2).isSome || w.hasS3⟩ := by
  simp only [BehaviorTest.Wes.captureAll, List.finRange, List.ofFn_succ, List.ofFn_zero,
    List.foldl_cons, List.foldl_nil]
  cases h0 : msgs 0 <;> cases h1 : msgs 1 <;> cases h2 : msgs 2 <;>
    simp [BehaviorTest.Wes.capture, h1, h2]

variable [DecidableEq V]

/-- A vote of the flying WES emits something exactly when a valid sample is captured. -/
theorem Wes.voteTick_isSome (w : Wes V) :
    w.voteTick.2.isSome = true ↔ ∃ i, w.valid i = true := by
  have hhas (i : Fin 3) (hi : w.hasS i = false) : w.valid i = false := by simp [Wes.valid, hi]
  unfold Wes.voteTick
  split_ifs with hno hcount
  · simp only [Bool.and_eq_true, Bool.not_eq_true'] at hno
    obtain ⟨⟨h0, h1⟩, h2⟩ := hno
    simp [Fin.exists_fin_succ, hhas 0 h0, hhas 1 h1, hhas 2 h2]
  · simp only [Nat.add_eq_zero_iff, Bool.toNat_eq_zero] at hcount
    obtain ⟨⟨h0, h1⟩, h2⟩ := hcount
    simp [Fin.exists_fin_succ, h0, h1, h2]
  · cases h0 : w.valid 0 <;> cases h1 : w.valid 1 <;> cases h2 : w.valid 2 <;>
      simp_all [Fin.exists_fin_succ]

/-- A vote of the WES under test emits something exactly when all three samples are captured. -/
theorem BehaviorTest.Wes.voteTick_isSome (w : BehaviorTest.Wes V) :
    w.voteTick.2.isSome = true ↔ w.hasS1 = true ∧ w.hasS2 = true ∧ w.hasS3 = true := by
  unfold BehaviorTest.Wes.voteTick
  cases h1 : w.hasS1 <;> cases h2 : w.hasS2 <;> cases h3 : w.hasS3 <;> simp

variable [Zero V]

/-- What reaches a WES: at each second, for each input, the sample that arrives if one does,
with the scenario number the test message carries besides. -/
abbrev Arrivals (V : Type*) := Nat → Fin 3 → Option (BehaviorTest.Sample V × Int)

def Arrivals.production (a : Arrivals V) (n : Nat) (i : Fin 3) : Option (SpeedMsg V) :=
  (a n i).map (fun m => ⟨m.1.counter, m.1.speed, true⟩)

def Arrivals.test (a : Arrivals V) (n : Nat) (i : Fin 3) : Option (BehaviorTest.SpeedMsg V) :=
  (a n i).map (fun m => ⟨m.1.counter, m.1.speed, true, m.2⟩)

/-- The state of WES at the start of second `n`, each second captures and then a vote. -/
def Wes.after (a : Arrivals V) : Nat → Wes V
  | 0 => .initial
  | n + 1 => ((Wes.after a n).captureAll (a.production n)).voteTick.1

def Wes.vote (a : Arrivals V) (n : Nat) : Option Status :=
  ((Wes.after a n).captureAll (a.production n)).voteTick.2

def BehaviorTest.Wes.after (a : Arrivals V) : Nat → BehaviorTest.Wes V
  | 0 => .initial
  | n + 1 => ((BehaviorTest.Wes.after a n).captureAll (a.test n)).voteTick.1

def BehaviorTest.Wes.vote (a : Arrivals V) (n : Nat) : Option Int :=
  ((BehaviorTest.Wes.after a n).captureAll (a.test n)).voteTick.2.map (·.status)

def Arrivals.Full (a : Arrivals V) (n : Nat) : Prop := ∀ i, (a n i).isSome = true

def Arrivals.Empty (a : Arrivals V) (n : Nat) : Prop := ∀ i, a n i = none

/-- No sample is pending. -/
def BehaviorTest.Wes.Clear (w : BehaviorTest.Wes V) : Prop :=
  w.hasS1 = false ∧ w.hasS2 = false ∧ w.hasS3 = false

theorem vote_isSome (a : Arrivals V) (n : Nat) (hclear : ∀ i, (Wes.after a n).hasS i = false) :
    (Wes.vote a n).isSome = true ↔ ¬a.Empty n := by
  unfold Wes.vote
  rw [Wes.voteTick_isSome, Arrivals.Empty, not_forall]
  refine exists_congr (fun i => ?_)
  cases h : a n i <;> simp [Wes.valid, Wes.captureAll, Arrivals.production, h, hclear i]

theorem testVote_isSome (a : Arrivals V) (n : Nat)
    (hclear : (BehaviorTest.Wes.after a n).Clear) :
    (BehaviorTest.Wes.vote a n).isSome = true ↔ a.Full n := by
  obtain ⟨h1, h2, h3⟩ := hclear
  unfold BehaviorTest.Wes.vote
  rw [Option.isSome_map, BehaviorTest.Wes.voteTick_isSome, BehaviorTest.Wes.captureAll_eq]
  simp [h1, h2, h3, Arrivals.Full, Arrivals.test, Fin.forall_fin_succ]

/-- With all three samples valid and the same in both, the two votes decide alike. -/
theorem vote_eq_of_full (a : Arrivals V) (n : Nat) (hfull : a.Full n) :
    (Wes.vote a n).map Status.code = BehaviorTest.Wes.vote a n := by
  choose m hm using fun i => Option.isSome_iff_exists.mp (hfull i)
  let w := (Wes.after a n).captureAll (a.production n)
  let t := (BehaviorTest.Wes.after a n).captureAll (a.test n)
  have ht : t = (BehaviorTest.Wes.after a n).captureAll (a.test n) := rfl
  rw [BehaviorTest.Wes.captureAll_eq] at ht
  have hvalid (i : Fin 3) : w.valid i = true := by
    simp [w, Wes.valid, Wes.captureAll, Arrivals.production, hm]
  have hhas (i : Fin 3) : w.hasS i = true := by
    simp [w, Wes.captureAll, Arrivals.production, hm]
  have hmatch : w.matching 0 1 = t.lastS1.same t.lastS2 ∧
      w.matching 0 2 = t.lastS1.same t.lastS3 ∧ w.matching 1 2 = t.lastS2.same t.lastS3 := by
    simp [ht, w, Wes.matching, Wes.captureAll, Arrivals.production, Arrivals.test, hm,
      BehaviorTest.SpeedMsg.same, Wes.valid]
  have hcaptured : t.hasS1 = true ∧ t.hasS2 = true ∧ t.hasS3 = true := by
    simp [ht, Arrivals.test, hm]
  change w.voteTick.2.map Status.code = t.voteTick.2.map (·.status)
  simp only [Wes.voteTick, BehaviorTest.Wes.voteTick, hhas, hvalid, hcaptured, Wes.result, hmatch]
  cases t.lastS1.same t.lastS2 <;> cases t.lastS1.same t.lastS3 <;>
    cases t.lastS2.same t.lastS3 <;> rfl

/-- At a second with all inputs or none both voters go from clear flags to clear flags. -/
theorem Wes.after_clear (a : Arrivals V) (n : Nat) (h : ∀ k < n, a.Full k ∨ a.Empty k)
    (i : Fin 3) : (Wes.after a n).hasS i = false := by
  induction n generalizing i with
  | zero => rfl
  | succ n ih =>
    have hclear := ih (fun k hk => h k (by omega))
    unfold Wes.after Wes.voteTick
    rcases h n (by omega) with hfull | hempty
    · choose m hm using fun i => Option.isSome_iff_exists.mp (hfull i)
      simp [Wes.valid, Wes.captureAll, Arrivals.production, hm]
    · unfold Arrivals.Empty at hempty
      simp [Wes.captureAll, Arrivals.production, hempty, hclear]

theorem BehaviorTest.Wes.after_clear (a : Arrivals V) (n : Nat)
    (h : ∀ k < n, a.Full k ∨ a.Empty k) : (BehaviorTest.Wes.after a n).Clear := by
  induction n with
  | zero => exact ⟨rfl, rfl, rfl⟩
  | succ n ih =>
    obtain ⟨h1, h2, h3⟩ := ih (fun k hk => h k (by omega))
    unfold BehaviorTest.Wes.after BehaviorTest.Wes.voteTick
    rw [BehaviorTest.Wes.captureAll_eq]
    rcases h n (by omega) with hfull | hempty
    · choose m hm using fun i => Option.isSome_iff_exists.mp (hfull i)
      simp [Arrivals.test, hm, BehaviorTest.Wes.Clear]
    · unfold Arrivals.Empty at hempty
      simp [Arrivals.test, hempty, h1, h2, h3, BehaviorTest.Wes.Clear]

/-- After a common past, the two votes of a second agree exactly when all of its inputs
arrive or none does. -/
theorem vote_eq_iff (a : Arrivals V) (n : Nat) (h : ∀ k < n, a.Full k ∨ a.Empty k) :
    (Wes.vote a n).map Status.code = BehaviorTest.Wes.vote a n ↔ a.Full n ∨ a.Empty n := by
  have hprod := vote_isSome a n (Wes.after_clear a n h)
  have htest := testVote_isSome a n (BehaviorTest.Wes.after_clear a n h)
  constructor
  · intro heq
    rw [← heq, Option.isSome_map, hprod] at htest
    by_cases hempty : a.Empty n
    · exact .inr hempty
    · exact .inl (htest.mp hempty)
  · intro hall
    rcases hall with hfull | hempty
    · exact vote_eq_of_full a n hfull
    · have hpartial : ¬a.Full n := fun hfull => by simpa [hempty 0] using hfull 0
      have hquiet : Wes.vote a n = none :=
        Option.not_isSome_iff_eq_none.mp (fun hsome => hprod.mp hsome hempty)
      have htestquiet : BehaviorTest.Wes.vote a n = none :=
        Option.not_isSome_iff_eq_none.mp (fun hsome => hpartial (htest.mp hsome))
      rw [hquiet, htestquiet]
      rfl

/-- The WES under test is the flying one as long as the inputs of a second arrive together:
up to any second the two emit the same status at every vote exactly when at each second all
three arrive or none does. -/
theorem tested_wes_flies_iff (a : Arrivals V) (N : Nat) :
    (∀ n < N, (Wes.vote a n).map Status.code = BehaviorTest.Wes.vote a n) ↔
      ∀ n < N, a.Full n ∨ a.Empty n := by
  constructor
  · intro h n
    induction n using Nat.strong_induction_on with
    | _ n ih =>
      intro hn
      exact (vote_eq_iff a n (fun k hk => ih k hk (by omega))).mp (h n hn)
  · intro h n hn
    exact (vote_eq_iff a n (fun k hk => h k (by omega))).mpr (h n hn)

/-- With a single input arriving the flying WES declares an emergency and the WES under test
says nothing. -/
theorem tested_wes_waits : ¬∀ (a : Arrivals ℚ) (n : Nat),
    (Wes.vote a n).map Status.code = BehaviorTest.Wes.vote a n := by
  intro h
  let a : Arrivals ℚ := fun n i => if n = 0 ∧ i = 0 then some (⟨0, 0⟩, 0) else none
  have hvote : Wes.vote a 0 = some .emergency := by decide
  have htest : BehaviorTest.Wes.vote a 0 = none := by decide
  have heq := h a 0
  rw [hvote, htest] at heq
  cases heq

end Arrivals

end LFBenchmarks.FlyByWire
