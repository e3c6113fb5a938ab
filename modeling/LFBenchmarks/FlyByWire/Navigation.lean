import LFBenchmarks.FlyByWire.Stream
import LFBenchmarks.FlyByWire.System

namespace LFBenchmarks.FlyByWire

section Navigation

variable {V : Type*}

/-- The part of a PFC's state the timer reaction computes from the file alone. -/
@[ext] structure Nav (V : Type*) where
  fp : Option (List Char)
  hasPrev : Bool
  prevFix : GllFix
  accumulatedSpeed : V
  counter : Int
  eofReached : Bool

def Pfc.nav (p : Pfc V) : Nav V :=
  ⟨p.fp, p.hasPrev, p.prevFix, p.accumulatedSpeed, p.counter, p.eofReached⟩

theorem Pfc.faultIn_eq (fault : FaultMsg) (p : Pfc V) :
    p.faultIn fault = { p with
      active := (p.active && !(fault.stop && p.alive)) ||
        (fault.cont && p.alive && !fault.interrupt)
      alive := p.alive && !fault.interrupt
      bias := p.bias || (fault.bias && p.alive && !fault.interrupt) } := by
  obtain ⟨stop, interrupt, cont, bias⟩ := fault
  obtain ⟨fp, prevFix, hasPrev, accumulatedSpeed, counter, active, alive, pending, eof⟩ := p
  cases stop <;> cases interrupt <;> cases cont <;> cases bias <;> cases active <;>
    cases alive <;> cases pending <;> rfl

theorem Pfc.faultIn_nav (fault : FaultMsg) (p : Pfc V) : (p.faultIn fault).nav = p.nav := by
  rw [Pfc.faultIn_eq]
  rfl

variable [Field V]

def Nav.speedFor (distance : GllFix → GllFix → V) (nav : Nav V) (fix : GllFix) : V :=
  if nav.hasPrev then computeSpeed distance nav.accumulatedSpeed nav.prevFix fix else 0

/-- The fix the next tick of a living PFC finds, and the rest of its stream. -/
def Nav.read (nav : Nav V) : Option GllFix × Option (List Char) :=
  if nav.eofReached then (none, nav.fp)
  else (nav.fp.bind fun stream => (nextFix stream).1, nav.fp.map fun stream => (nextFix stream).2)

def Nav.step (distance : GllFix → GllFix → V) (nav : Nav V) : Nav V :=
  match nav.read with
  | (none, rest) => { nav with fp := rest, eofReached := nav.eofReached || nav.fp.isSome }
  | (some fix, rest) =>
    ⟨rest, true, fix, nav.speedFor distance fix, nav.counter + 1, nav.eofReached⟩

/-- Counter and nominal speed of the sample the next tick computes. -/
def Nav.sample (distance : GllFix → GllFix → V) (nav : Nav V) : Option (Int × V) :=
  nav.read.1.map fun fix => (nav.counter + 1, nav.speedFor distance fix)

variable [LinearOrder V] [FloorRing V]

theorem Pfc.timer_dead (distance : GllFix → GllFix → V) (p : Pfc V) (h : p.alive = false) :
    p.timer distance = (p, none) := by
  unfold Pfc.timer
  split
  · rfl
  · simp [h]

/-- The timer reaction of a living PFC: navigation advances whatever the flags are, and the
flags decide what is sent. -/
theorem Pfc.timer_alive (distance : GllFix → GllFix → V) (p : Pfc V) (h : p.alive = true) :
    let found := p.nav.sample distance
    let r := p.timer distance
    r.1.nav = p.nav.step distance ∧ r.1.alive = true ∧ r.1.active = p.active ∧
      r.1.bias = (p.bias && !(found.isSome && p.active)) ∧
      r.2 = if p.active then
          found.map (fun s => ⟨s.1, if p.bias then applyBias s.2 else s.2, true⟩)
        else none := by
  obtain ⟨fp, prevFix, hasPrev, accumulatedSpeed, counter, active, alive, bias, eofReached⟩ := p
  obtain rfl : alive = true := h
  cases fp with
  | none => cases eofReached <;> simp [Pfc.timer, Pfc.nav, Nav.step, Nav.sample, Nav.read]
  | some stream =>
    cases eofReached with
    | true => simp [Pfc.timer, Pfc.nav, Nav.step, Nav.sample, Nav.read]
    | false =>
      rcases hr : nextFix stream with ⟨fix, rest⟩
      cases fix <;> cases active <;> cases bias <;> cases hasPrev <;>
        simp [Pfc.timer, Pfc.nav, Nav.step, Nav.sample, Nav.read, Nav.speedFor, hr]

end Navigation

section FaultFree

variable {V : Type*}

def Env.fixes (E : Env V) : List GllFix := (openG18 E.fopen).elim [] acceptedFixes

theorem Env.opened_of_lt (E : Env V) (n : Nat) (hn : n < E.fixes.length) :
    ∃ file, openG18 E.fopen = some file := by
  cases h : openG18 E.fopen with
  | none => simp [Env.fixes, h] at hn
  | some file => exact ⟨file, rfl⟩

variable [Field V]

/-- Speed of sample `n` along the fixes: the distances flown so far, added up. -/
def nominalSpeed (distance : GllFix → GllFix → V) (fixes : List GllFix) : Nat → V
  | 0 => 0
  | n + 1 => nominalSpeed distance fixes n +
      distance (fixes.getD n GllFix.zero) (fixes.getD (n + 1) GllFix.zero)

/-- Navigation state at the start of tick `n` of a PFC that keeps living. -/
def navAt (E : Env V) (n : Nat) : Nav V :=
  (Nav.step E.distance)^[n] (Pfc.initial.startup E.fopen).nav

theorem navAt_succ (E : Env V) (n : Nat) : navAt E (n + 1) = (navAt E n).step E.distance :=
  Function.iterate_succ_apply' _ _ _

/-- Before end of data the stream holds exactly the fixes not consumed yet. -/
structure OnTrack (E : Env V) (n : Nat) (nav : Nav V) : Prop where
  fp : ∃ rest, nav.fp = some rest ∧ acceptedFixes rest = E.fixes.drop n
  eofReached : nav.eofReached = false
  counter : nav.counter = n - 1
  hasPrev : nav.hasPrev = decide (0 < n)
  speed : nav.accumulatedSpeed = nominalSpeed E.distance E.fixes (n - 1)
  prevFix : 0 < n → nav.prevFix = E.fixes.getD (n - 1) GllFix.zero

theorem OnTrack.read {E : Env V} {n : Nat} {nav : Nav V} (h : OnTrack E n nav) :
    nav.read.1 = (E.fixes.drop n).head? ∧
      ∃ rest, nav.read.2 = some rest ∧ acceptedFixes rest = E.fixes.drop (n + 1) := by
  obtain ⟨rest, hfp, hrest⟩ := h.fp
  have hread : nav.read = ((nextFix rest).1, some (nextFix rest).2) := by
    simp [Nav.read, h.eofReached, hfp]
  rw [hread, nextFix_fst, hrest]
  refine ⟨rfl, _, rfl, ?_⟩
  rw [acceptedFixes_nextFix, hrest, List.tail_drop]

theorem OnTrack.read_of_lt {E : Env V} {n : Nat} {nav : Nav V} (h : OnTrack E n nav)
    (hn : n < E.fixes.length) : nav.read.1 = some (E.fixes.getD n GllFix.zero) := by
  rw [h.read.1, List.head?_drop, List.getD_eq_getElem?_getD, List.getElem?_eq_getElem hn]
  rfl

theorem OnTrack.speedFor {E : Env V} {n : Nat} {nav : Nav V} (h : OnTrack E n nav) :
    nav.speedFor E.distance (E.fixes.getD n GllFix.zero) =
      nominalSpeed E.distance E.fixes n := by
  unfold Nav.speedFor
  rw [h.hasPrev]
  cases n with
  | zero => rfl
  | succ n =>
    rw [h.prevFix (by omega), h.speed, computeSpeed_eq]
    rfl

theorem OnTrack.step {E : Env V} {n : Nat} {nav : Nav V} (h : OnTrack E n nav)
    (hn : n < E.fixes.length) : OnTrack E (n + 1) (nav.step E.distance) := by
  obtain ⟨rest, hrest, hdrop⟩ := h.read.2
  have hread : nav.read = (some (E.fixes.getD n GllFix.zero), some rest) :=
    Prod.ext (h.read_of_lt hn) hrest
  unfold Nav.step
  rw [hread]
  exact ⟨⟨rest, rfl, hdrop⟩, h.eofReached, by simp [h.counter], by simp, h.speedFor,
    fun _ => rfl⟩

theorem onTrack_navAt (E : Env V) (file : List Char) (hopen : openG18 E.fopen = some file)
    (n : Nat) (hn : n ≤ E.fixes.length) : OnTrack E n (navAt E n) := by
  induction n with
  | zero =>
    have hfix : E.fixes = acceptedFixes file := by simp [Env.fixes, hopen]
    refine ⟨⟨file, hopen, by simp [hfix]⟩, rfl, rfl, rfl, rfl, fun h => by omega⟩
  | succ n ih =>
    rw [navAt_succ]
    exact (ih (by omega)).step (by omega)

theorem sample_of_lt (E : Env V) (n : Nat) (hn : n < E.fixes.length) :
    (navAt E n).sample E.distance = some ((n : Int), nominalSpeed E.distance E.fixes n) := by
  obtain ⟨file, hopen⟩ := E.opened_of_lt n hn
  have h := onTrack_navAt E file hopen n hn.le
  unfold Nav.sample
  rw [h.read_of_lt hn, Option.map_some, h.speedFor, h.counter]
  simp

theorem Nav.step_of_read_none (distance : GllFix → GllFix → V) (nav : Nav V)
    (h : nav.read.1 = none) :
    (nav.step distance).read.1 = none ∧
      (nav.step distance).step distance = nav.step distance := by
  obtain ⟨fp, hasPrev, prevFix, speed, counter, eof⟩ := nav
  cases eof <;> cases fp <;> simp_all [Nav.step, Nav.read]

theorem Nav.step_keeps (distance : GllFix → GllFix → V) (nav : Nav V)
    (h : nav.read.1 = none) :
    (nav.step distance).hasPrev = nav.hasPrev ∧ (nav.step distance).prevFix = nav.prevFix ∧
      (nav.step distance).accumulatedSpeed = nav.accumulatedSpeed ∧
      (nav.step distance).counter = nav.counter := by
  unfold Nav.step
  split
  · exact ⟨rfl, rfl, rfl, rfl⟩
  · next fix rest hread =>
    rw [hread] at h
    cases h

theorem read_at_end (E : Env V) : (navAt E E.fixes.length).read.1 = none := by
  cases hopen : openG18 E.fopen with
  | none =>
    have hlen : E.fixes.length = 0 := by simp [Env.fixes, hopen]
    rw [hlen]
    simp [navAt, Nav.read, Pfc.nav, Pfc.startup, hopen]
  | some file =>
    rw [(onTrack_navAt E file hopen _ le_rfl).read.1]
    simp

theorem read_of_ge (E : Env V) (n : Nat) (hn : E.fixes.length ≤ n) :
    (navAt E n).read.1 = none := by
  induction n, hn using Nat.le_induction with
  | base => exact read_at_end E
  | succ n hn ih =>
    rw [navAt_succ]
    exact ((navAt E n).step_of_read_none E.distance ih).1

theorem sample_of_ge (E : Env V) (n : Nat) (hn : E.fixes.length ≤ n) :
    (navAt E n).sample E.distance = none := by
  simp [Nav.sample, read_of_ge E n hn]

theorem navAt_settled (E : Env V) (n : Nat) (hn : E.fixes.length ≤ n) :
    navAt E (n + 1) = navAt E (E.fixes.length + 1) := by
  induction n, hn using Nat.le_induction with
  | base => rfl
  | succ n hn ih =>
    rw [navAt_succ E (n + 1), navAt_succ E n,
      ((navAt E n).step_of_read_none E.distance (read_of_ge E n hn)).2, ← navAt_succ, ih]

theorem eofReached_iff (E : Env V) (file : List Char) (hopen : openG18 E.fopen = some file)
    (n : Nat) : (navAt E (n + 1)).eofReached = true ↔ E.fixes.length ≤ n := by
  by_cases hn : n < E.fixes.length
  · simp [(onTrack_navAt E file hopen (n + 1) hn).eofReached, hn]
  · have hlast := onTrack_navAt E file hopen E.fixes.length le_rfl
    obtain ⟨rest, hfp, -⟩ := hlast.fp
    have hread := read_at_end E
    have heof : (navAt E (E.fixes.length + 1)).eofReached = true := by
      rw [navAt_succ]
      unfold Nav.step
      split
      · simp [hfp]
      · next fix _ hsome =>
        rw [hsome] at hread
        cases hread
    rw [navAt_settled E n (by omega), heof]
    simp [show E.fixes.length ≤ n by omega]

end FaultFree

end LFBenchmarks.FlyByWire
