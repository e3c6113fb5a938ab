import LFBenchmarks.Framework.Schedule

namespace LFBenchmarks

namespace ReactionSystem

variable {R S L : Type*} (M : ReactionSystem R S) (prints : R → S → List L)

/-- The lines printed while the reactions `l` are executed one after the other. -/
def output : List R → S → List L
  | [], _ => []
  | r :: l, s => prints r s ++ output l (M.body r s)

/-- The lines printed when every reaction of `l` that is triggered is executed. -/
def outputAll : List R → S → List L
  | [], _ => []
  | r :: l, s => (if M.triggered r s then prints r s else []) ++ outputAll l (M.fire r s)

/-- The system together with the lines printed so far. Those of reactions without precedence can come
in any order. -/
def logged : ReactionSystem R (S × Multiset L) where
  triggered r x := M.triggered r x.1
  body r x := (M.body r x.1, x.2 + prints r x.1)
  prec := M.prec

theorem logged_exec (l : List R) (s : S) (m : Multiset L) :
    (M.logged prints).exec l (s, m) = (M.exec l s, m + (M.output prints l s : Multiset L)) := by
  induction l generalizing s m with
  | nil => simp [output]
  | cons r l ih =>
    rw [exec_cons, exec_cons, output, ← Multiset.coe_add, ← add_assoc]
    exact ih (M.body r s) (m + prints r s)

theorem logged_fire (r : R) (s : S) (m : Multiset L) :
    (M.logged prints).fire r (s, m) =
      (M.fire r s, m + (if M.triggered r s then prints r s else [] : List L)) := by
  unfold fire
  cases h : M.triggered r s with
  | true => simp [logged, h]
  | false => simp [logged, h]

theorem logged_fireAll (l : List R) (s : S) (m : Multiset L) :
    (M.logged prints).fireAll l (s, m) =
      (M.fireAll l s, m + (M.outputAll prints l s : Multiset L)) := by
  induction l generalizing s m with
  | nil => simp [outputAll]
  | cons r l ih =>
    rw [fireAll_cons, fireAll_cons, logged_fire, ih, outputAll, ← Multiset.coe_add, add_assoc]

theorem logged_admissible (s : S) (m : Multiset L) (l : List R) (h : M.Admissible s l) :
    (M.logged prints).Admissible (s, m) l where
  nodup := h.nodup
  respects := h.respects
  enabled l₁ r l₂ hl := by
    rw [logged_exec]
    exact h.enabled l₁ r l₂ hl
  complete r hr := by
    rw [logged_exec] at hr
    exact h.complete r hr

/-- What a reaction prints does not depend on reactions the precedence leaves unordered with
it. -/
def PrintsLocally : Prop :=
  ∀ a b, a ≠ b → ¬M.prec a b → ¬M.prec b a → ∀ s, prints a (M.fire b s) = prints a s

variable {M prints} {order : List R}

theorem Lawful.logged (hM : M.Lawful order) (hp : M.PrintsLocally prints) :
    (M.logged prints).Lawful order where
  commute a b hne hab hba x := by
    obtain ⟨s, m⟩ := x
    have hta : M.triggered a (M.fire b s) = M.triggered a s := hM.stable b a s hba
    have htb : M.triggered b (M.fire a s) = M.triggered b s := hM.stable a b s hab
    rw [logged_fire, logged_fire, logged_fire, logged_fire, hM.commute a b hne hab hba, hta, htb,
      hp a b hne hab hba, hp b a hne.symm hba hab, add_right_comm]
  persists a r x h := by
    obtain ⟨s, m⟩ := x
    rw [logged_fire]
    exact hM.persists a r s h
  stable a r x h := by
    obtain ⟨s, m⟩ := x
    rw [logged_fire]
    exact hM.stable a r s h
  nodup := hM.nodup
  respects := hM.respects
  all := hM.all

/-- Every admissible order of a tag prints the same lines as the fixed order. -/
theorem Lawful.output_perm [DecidableEq R] (hM : M.Lawful order) (hp : M.PrintsLocally prints)
    (s : S) (l : List R) (h : M.Admissible s l) :
    (M.output prints l s).Perm (M.outputAll prints order s) := by
  have hsame := (hM.logged hp).admissible_exec (s, 0) l (M.logged_admissible prints s 0 l h)
  rw [logged_exec, logged_fireAll, zero_add, zero_add] at hsame
  exact Multiset.coe_eq_coe.mp (congrArg Prod.snd hsame)

theorem outputAll_append (l₁ l₂ : List R) (s : S) : M.outputAll prints (l₁ ++ l₂) s =
    M.outputAll prints l₁ s ++ M.outputAll prints l₂ (M.fireAll l₁ s) := by
  induction l₁ generalizing s with
  | nil => rfl
  | cons r l₁ ih => rw [List.cons_append, outputAll, ih, outputAll, fireAll_cons, List.append_assoc]

end ReactionSystem

namespace Footprint

variable {R S C L : Type*} {M : ReactionSystem R S} (F : Footprint M C)

/-- What is printed from touched cells alone is printed locally, when unordered reactions share
no written cell. -/
theorem printsLocally (prints : R → S → List L)
    (hprints : ∀ r s t, (∀ c ∈ F.touches r, F.agree c s t) → prints r s = prints r t)
    (hdisj : ∀ a b, a ≠ b → ¬M.prec a b → ¬M.prec b a → Disjoint (F.writes b) (F.touches a)) :
    M.PrintsLocally prints := by
  intro a b hne hab hba s
  apply hprints
  intro c hc
  exact F.frame b c s (fun hw => Set.disjoint_left.mp (hdisj a b hne hab hba) hw hc)

end Footprint

end LFBenchmarks
