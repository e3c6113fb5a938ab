import Mathlib.Order.Monotone.Defs
import Mathlib.Order.Lattice
import Mathlib.Logic.Function.Basic

namespace LFBenchmarks.Conservative

universe u

/-- The links between nodes that work on events in order of time, each with what it makes of the time
of an event. -/
structure Links (ν κ τ : Type u) where
  source : κ → ν
  target : κ → ν
  arrive : κ → τ → τ

/-- What can still cause events: those a node has, while it is alive, and those under way. -/
structure Events (ν κ τ : Type u) where
  alive : ν → Prop
  pending : ν → τ → Prop
  inFlight : κ → τ → Prop

variable {ν κ τ : Type u} (L : Links ν κ τ)

/-- The times at which an event can still arrive. -/
inductive Arrival (E : Events ν κ τ) : ν → τ → Prop
  | inFlight {k : κ} {x : τ} : E.inFlight k x → Arrival E (L.target k) x
  | pending {k : κ} {y : τ} : E.alive (L.source k) → E.pending (L.source k) y →
      Arrival E (L.target k) (L.arrive k y)
  | onward {k : κ} {y : τ} : E.alive (L.source k) → Arrival E (L.source k) y →
      Arrival E (L.target k) (L.arrive k y)

/-- The last link decides: what its source can no longer receive or do, does not come over it. -/
theorem Arrival.cases_link {L : Links ν κ τ} {E : Events ν κ τ} {e : ν} {x : τ} {P : Prop} (ha : Arrival L E e x)
    (inFlight : ∀ k, L.target k = e → E.inFlight k x → P)
    (link : ∀ k y, L.target k = e → L.arrive k y = x → E.alive (L.source k) →
      E.pending (L.source k) y ∨ Arrival L E (L.source k) y → P) : P := by
  cases ha with
  | inFlight hx => exact inFlight _ rfl hx
  | pending halive hy => exact link _ _ rfl rfl halive (.inl hy)
  | onward halive hy => exact link _ _ rfl rfl halive (.inr hy)

variable [LinearOrder τ]

/-- Nothing arrives before the end of time that is not later than what a node was granted. -/
def Safe (horizon : τ) (E : Events ν κ τ) (granted : ν → τ) : Prop :=
  ∀ e x, Arrival L E e x → horizon ≤ x ∨ granted e < x

/-- Whatever `E'` can still cause, `E` can cause at that time or earlier. -/
structure Covers (E E' : Events ν κ τ) : Prop where
  alive : ∀ f, E'.alive f → E.alive f
  pending : ∀ f y, E'.alive f → E'.pending f y → ∃ x ≤ y, E.pending f x ∨ Arrival L E f x
  inFlight : ∀ k y, E'.inFlight k y → ∃ x ≤ y, Arrival L E (L.target k) x

variable {L} {horizon : τ} {E E' : Events ν κ τ} {granted granted' : ν → τ}

theorem Arrival.of_covers (hmono : ∀ k, Monotone (L.arrive k)) (h : Covers L E E') {e : ν} {y : τ}
    (ha : Arrival L E' e y) : ∃ x ≤ y, Arrival L E e x := by
  induction ha with
  | inFlight hx => exact h.inFlight _ _ hx
  | @pending k y halive hy =>
    obtain ⟨x, hxy, hx | hx⟩ := h.pending _ _ halive hy
    · exact ⟨_, hmono k hxy, .pending (h.alive _ halive) hx⟩
    · exact ⟨_, hmono k hxy, .onward (h.alive _ halive) hx⟩
  | @onward k y halive _ ih =>
    obtain ⟨x, hxy, hx⟩ := ih
    exact ⟨_, hmono k hxy, .onward (h.alive _ halive) hx⟩

/-- Nothing new, nothing earlier. -/
theorem Covers.of_le (halive : ∀ f, E'.alive f → E.alive f)
    (hpending : ∀ f y, E'.alive f → E'.pending f y → ∃ x ≤ y, E.pending f x)
    (hinFlight : ∀ k y, E'.inFlight k y → E.inFlight k y) : Covers L E E' where
  alive := halive
  pending f y ha hy := by
    obtain ⟨x, hxy, hx⟩ := hpending f y ha hy
    exact ⟨x, hxy, .inl hx⟩
  inFlight k y hy := ⟨y, le_rfl, .inFlight (hinFlight k y hy)⟩

theorem Safe.of_covers (hmono : ∀ k, Monotone (L.arrive k)) (hs : Safe L horizon E granted)
    (h : Covers L E E') : Safe L horizon E' granted := by
  intro e y ha
  obtain ⟨x, hxy, hx⟩ := ha.of_covers hmono h
  exact (hs e x hx).imp (le_trans · hxy) (lt_of_lt_of_le · hxy)

/-- A node may be granted whatever nothing can still arrive at or before. -/
theorem Safe.grant (hs : Safe L horizon E granted) (e : ν)
    (hgranted : ∀ x, Arrival L E e x → horizon ≤ x ∨ granted' e < x)
    (hsame : ∀ f, f ≠ e → granted' f = granted f) : Safe L horizon E granted' := by
  intro f x ha
  rcases eq_or_ne f e with rfl | hf
  · exact hgranted x ha
  · exact (hs f x ha).imp id ((hsame f hf).trans_lt ·)

end LFBenchmarks.Conservative
