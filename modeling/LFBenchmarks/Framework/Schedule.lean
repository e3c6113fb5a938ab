import Mathlib

namespace LFBenchmarks

/-- The reactions of a reactive program at one tag: when each one is triggered, what its
body does to the state, and the static precedence between reactions. -/
structure ReactionSystem (R S : Type*) where
  triggered : R → S → Bool
  body : R → S → S
  prec : R → R → Prop

namespace ReactionSystem

variable {R S : Type*} (M : ReactionSystem R S)

/-- A reaction whose trigger is absent does nothing. -/
def fire (r : R) (s : S) : S := if M.triggered r s then M.body r s else s

def exec (l : List R) (s : S) : S := l.foldl (fun s r => M.body r s) s

def fireAll (l : List R) (s : S) : S := l.foldl (fun s r => M.fire r s) s

def Respects (l : List R) : Prop := l.Pairwise (fun a b => ¬M.prec b a)

structure Admissible (s : S) (l : List R) : Prop where
  nodup : l.Nodup
  respects : M.Respects l
  enabled : ∀ l₁ r l₂, l = l₁ ++ r :: l₂ → M.triggered r (M.exec l₁ s) = true
  complete : ∀ r, M.triggered r (M.exec l s) = true → r ∈ l

instance (s : S) (l : List R) [Fintype R] [DecidableEq R] [DecidableRel M.prec] :
    Decidable (M.Admissible s l) :=
  decidable_of_iff
    (l.Nodup ∧ l.Pairwise (fun a b => ¬M.prec b a) ∧
      (∀ k : Fin l.length, M.triggered l[k] (M.exec (l.take k) s) = true) ∧
      ∀ r, M.triggered r (M.exec l s) = true → r ∈ l)
    (by
      constructor
      · rintro ⟨hnodup, hrespects, henabled, hcomplete⟩
        refine ⟨hnodup, hrespects, ?_, hcomplete⟩
        rintro l₁ r l₂ rfl
        simpa using henabled ⟨l₁.length, by simp⟩
      · intro h
        refine ⟨h.nodup, h.respects, fun k => ?_, h.complete⟩
        refine h.enabled (l.take k) l[k] (l.drop (k + 1)) ?_
        rw [Fin.getElem_fin, List.getElem_cons_drop, List.take_append_drop])

/-- Unordered reactions commute, a trigger once present stays present, only a preceding
reaction can produce it, and `order` is one list of all reactions the precedence allows. -/
structure Lawful (order : List R) : Prop where
  commute : ∀ a b, a ≠ b → ¬M.prec a b → ¬M.prec b a →
    ∀ s, M.fire a (M.fire b s) = M.fire b (M.fire a s)
  persists : ∀ a r s, M.triggered r s = true → M.triggered r (M.fire a s) = true
  stable : ∀ a r s, ¬M.prec a r → M.triggered r (M.fire a s) = M.triggered r s
  nodup : order.Nodup
  respects : M.Respects order
  all : ∀ r, r ∈ order

@[simp] theorem exec_nil (s : S) : M.exec [] s = s := rfl
@[simp] theorem exec_cons (r : R) (l : List R) (s : S) :
    M.exec (r :: l) s = M.exec l (M.body r s) := rfl
@[simp] theorem fireAll_nil (s : S) : M.fireAll [] s = s := rfl
@[simp] theorem fireAll_cons (r : R) (l : List R) (s : S) :
    M.fireAll (r :: l) s = M.fireAll l (M.fire r s) := rfl

theorem exec_append (l₁ l₂ : List R) (s : S) :
    M.exec (l₁ ++ l₂) s = M.exec l₂ (M.exec l₁ s) := List.foldl_append

theorem fireAll_append (l₁ l₂ : List R) (s : S) :
    M.fireAll (l₁ ++ l₂) s = M.fireAll l₂ (M.fireAll l₁ s) := List.foldl_append

theorem fire_of_triggered {r : R} {s : S} (h : M.triggered r s = true) :
    M.fire r s = M.body r s := by simp [fire, h]

theorem fire_of_not_triggered {r : R} {s : S} (h : M.triggered r s = false) :
    M.fire r s = s := by simp [fire, h]

theorem exec_eq_fireAll (l : List R) (s : S)
    (h : ∀ l₁ r l₂, l = l₁ ++ r :: l₂ → M.triggered r (M.exec l₁ s) = true) :
    M.exec l s = M.fireAll l s := by
  induction l generalizing s with
  | nil => rfl
  | cons r l ih =>
    have hr : M.triggered r s = true := h [] r l rfl
    rw [exec_cons, fireAll_cons, M.fire_of_triggered hr]
    apply ih
    intro l₁ q l₂ hl
    exact h (r :: l₁) q l₂ (by rw [hl]; rfl)

variable {M} {order : List R} (hM : M.Lawful order)
include hM

theorem Lawful.fireAll_persists (l : List R) (r : R) (s : S)
    (h : M.triggered r s = true) : M.triggered r (M.fireAll l s) = true := by
  induction l generalizing s with
  | nil => exact h
  | cons a l ih => exact ih _ (hM.persists a r s h)

theorem Lawful.fire_comm_list (a : R) (l : List R) (s : S)
    (h : ∀ x ∈ l, x ≠ a ∧ ¬M.prec a x ∧ ¬M.prec x a) :
    M.fire a (M.fireAll l s) = M.fireAll l (M.fire a s) := by
  induction l generalizing s with
  | nil => rfl
  | cons x l ih =>
    obtain ⟨hne, hax, hxa⟩ := h x (by simp)
    rw [fireAll_cons, fireAll_cons, ih _ (fun y hy => h y (by simp [hy])),
      hM.commute a x (Ne.symm hne) hax hxa]

/-- Two orders of the same reactions that both respect the precedence end in one state. -/
theorem Lawful.fireAll_perm (l₁ l₂ : List R) (hp : l₁.Perm l₂) (hn : l₁.Nodup)
    (h₁ : M.Respects l₁) (h₂ : M.Respects l₂) (s : S) : M.fireAll l₁ s = M.fireAll l₂ s := by
  induction l₁ generalizing l₂ s with
  | nil => rw [hp.symm.eq_nil]
  | cons a l₁ ih =>
    obtain ⟨x, y, rfl⟩ := List.append_of_mem (hp.subset (List.mem_cons_self (a := a)))
    have hrest : l₁.Perm (x ++ y) := (hp.trans List.perm_middle).cons_inv
    obtain ⟨ha, hn'⟩ := List.nodup_cons.mp hn
    obtain ⟨hfirst, h₁'⟩ := List.pairwise_cons.mp h₁
    have hsub : (x ++ y).Sublist (x ++ a :: y) :=
      (List.Sublist.refl x).append (List.sublist_cons_self a y)
    have hmid : ∀ z ∈ x, z ≠ a ∧ ¬M.prec a z ∧ ¬M.prec z a := by
      intro z hz
      have hmem : z ∈ l₁ := hrest.symm.subset (List.mem_append_left y hz)
      refine ⟨fun e => ha (e ▸ hmem), ?_, hfirst z hmem⟩
      exact (List.pairwise_append.mp h₂).2.2 z hz a (by simp)
    rw [fireAll_cons, ih (x ++ y) hrest hn' h₁' (h₂.sublist hsub), fireAll_append,
      fireAll_append, fireAll_cons, hM.fire_comm_list a x s hmid]

theorem Lawful.fireAll_filter (p : R → Bool) (l : List R) (s : S)
    (h : ∀ r ∈ l, p r = false → M.triggered r (M.fireAll (l.filter p) s) = false) :
    M.fireAll l s = M.fireAll (l.filter p) s := by
  induction l generalizing s with
  | nil => rfl
  | cons r l ih =>
    cases hp : p r with
    | true =>
      rw [List.filter_cons_of_pos hp, fireAll_cons, fireAll_cons]
      apply ih
      intro q hq hpq
      have hh := h q (by simp [hq]) hpq
      rwa [List.filter_cons_of_pos hp, fireAll_cons] at hh
    | false =>
      have hfil : (r :: l).filter p = l.filter p := List.filter_cons_of_neg (by simp [hp])
      rw [hfil] at h ⊢
      have hoff : M.triggered r s = false := by
        by_contra hon
        have hend := hM.fireAll_persists (l.filter p) r s (by simpa using hon)
        rw [h r (by simp) hp] at hend
        exact Bool.noConfusion hend
      rw [fireAll_cons, M.fire_of_not_triggered hoff]
      exact ih s (fun q hq => h q (by simp [hq]))

/-- Every admissible order of a tag ends in the state of the fixed order `order`. -/
theorem Lawful.admissible_exec [DecidableEq R] (s : S) (l : List R) (h : M.Admissible s l) :
    M.exec l s = M.fireAll order s := by
  have hfire : M.exec l s = M.fireAll l s := M.exec_eq_fireAll l s h.enabled
  have hperm : l.Perm (order.filter (fun r => decide (r ∈ l))) := by
    apply (List.perm_ext_iff_of_nodup h.nodup (hM.nodup.filter _)).mpr
    intro r
    simp [hM.all r]
  have hsort : M.fireAll l s = M.fireAll (order.filter (fun r => decide (r ∈ l))) s :=
    hM.fireAll_perm _ _ hperm h.nodup h.respects
      (hM.respects.sublist List.filter_sublist) s
  rw [hfire, hsort]
  symm
  apply hM.fireAll_filter
  intro r _ hr
  rw [← hsort, ← hfire]
  by_contra hon
  have hmem := h.complete r (by simpa using hon)
  simp [hmem] at hr

theorem Lawful.admissible_unique [DecidableEq R] (s : S) (l₁ l₂ : List R)
    (h₁ : M.Admissible s l₁) (h₂ : M.Admissible s l₂) : M.exec l₁ s = M.exec l₂ s :=
  (hM.admissible_exec s l₁ h₁).trans (hM.admissible_exec s l₂ h₂).symm

theorem Lawful.triggered_suffix (r : R) (l : List R) (s : S)
    (h : ∀ x ∈ l, ¬M.prec x r) : M.triggered r (M.fireAll l s) = M.triggered r s := by
  induction l generalizing s with
  | nil => rfl
  | cons x l ih =>
    rw [fireAll_cons, ih _ (fun y hy => h y (by simp [hy])), hM.stable x r s (h x (by simp))]

/-- Executing `order` and skipping what is not triggered is an admissible order. -/
theorem Lawful.exists_admissible (s : S) : ∃ l, M.Admissible s l := by
  classical
  let p : R → Bool := fun r => M.triggered r (M.fireAll order s)
  have hself : ∀ l₁ r l₂, order = l₁ ++ r :: l₂ → M.triggered r (M.fireAll l₁ s) = p r := by
    intro l₁ r l₂ hl
    have hr := hM.respects
    rw [hl] at hr
    have hlater := (List.pairwise_cons.mp (List.pairwise_append.mp hr).2.1).1
    change _ = M.triggered r (M.fireAll order s)
    rw [hl, fireAll_append, fireAll_cons, hM.triggered_suffix r l₂ _ hlater]
    by_cases hrr : M.prec r r
    · cases ht : M.triggered r (M.fireAll l₁ s) with
      | true => exact (hM.persists r r _ ht).symm
      | false => rw [M.fire_of_not_triggered ht, ht]
    · exact (hM.stable r r _ hrr).symm
  -- `order` run up to any point equals its triggered reactions run up to that point
  have hrun : ∀ l₁ l₂, order = l₁ ++ l₂ → M.exec (l₁.filter p) s = M.fireAll l₁ s := by
    intro l₁
    induction l₁ using List.reverseRecOn with
    | nil => exact fun _ _ => rfl
    | append_singleton l₁ r ih =>
      intro l₂ hl
      have hl' : order = l₁ ++ r :: l₂ := by rw [hl]; simp
      have hr := hself l₁ r l₂ hl'
      rw [List.filter_append, exec_append, ih _ hl', fireAll_append]
      cases hp : p r with
      | true => simp [hp, M.fire_of_triggered (hr.trans hp)]
      | false => simp [hp, M.fire_of_not_triggered (hr.trans hp)]
  refine ⟨order.filter p, hM.nodup.filter p, hM.respects.sublist List.filter_sublist, ?_, ?_⟩
  · intro l₁ r l₂ hl
    obtain ⟨o₁, o₂, ho, ho₁, ho₂⟩ := List.filter_eq_append_iff.mp hl
    obtain ⟨u, v, hv, hu, hr, -⟩ := List.filter_eq_cons_iff.mp ho₂
    have hsplit : order = (o₁ ++ u) ++ r :: v := by rw [ho, hv]; simp
    have hfil : (o₁ ++ u).filter p = l₁ := by
      rw [List.filter_append, ho₁, List.filter_eq_nil_iff.mpr (by simpa using hu)]
      simp
    rw [← hfil, hrun _ _ hsplit, hself _ _ _ hsplit]
    exact hr
  · intro r hr
    rw [hrun order [] (by simp)] at hr
    exact List.mem_filter.mpr ⟨hM.all r, hr⟩

end ReactionSystem

/-- A view of the state as cells, with the cells each reaction may touch and may write.
`agree c s t` says that cell `c` holds the same in `s` and `t`. -/
structure Footprint {R S : Type*} (M : ReactionSystem R S) (C : Type*) where
  agree : C → S → S → Prop
  touches : R → Set C
  writes : R → Set C
  symm : ∀ c s t, agree c s t → agree c t s
  trans : ∀ c s t u, agree c s t → agree c t u → agree c s u
  ext : ∀ s t, (∀ c, agree c s t) → s = t
  writes_subset : ∀ r, writes r ⊆ touches r
  frame : ∀ r c s, c ∉ writes r → agree c (M.fire r s) s
  depends : ∀ r s t, (∀ c ∈ touches r, agree c s t) →
    ∀ c ∈ touches r, agree c (M.fire r s) (M.fire r t)

namespace Footprint

variable {R S C : Type*} {M : ReactionSystem R S} (F : Footprint M C)

theorem agree_of_touched (a b : R) (hba : Disjoint (F.writes b) (F.touches a)) (s : S)
    (c : C) (hc : c ∈ F.touches a) :
    F.agree c (M.fire a (M.fire b s)) (M.fire b (M.fire a s)) := by
  have keep : ∀ d ∈ F.touches a, F.agree d (M.fire b s) s :=
    fun d hd => F.frame b d s (fun hw => Set.disjoint_left.mp hba hw hd)
  have hb : c ∉ F.writes b := fun hw => Set.disjoint_left.mp hba hw hc
  exact F.trans c _ _ _ (F.depends a _ s keep c hc) (F.symm c _ _ (F.frame b c _ hb))

/-- Reactions that write no cell the other one touches commute. -/
theorem fire_comm (a b : R) (hab : Disjoint (F.writes a) (F.touches b))
    (hba : Disjoint (F.writes b) (F.touches a)) (s : S) :
    M.fire a (M.fire b s) = M.fire b (M.fire a s) := by
  apply F.ext
  intro c
  by_cases ha : c ∈ F.touches a
  · exact F.agree_of_touched a b hba s c ha
  by_cases hb : c ∈ F.touches b
  · exact F.symm c _ _ (F.agree_of_touched b a hab s c hb)
  have hwa : c ∉ F.writes a := fun hw => ha (F.writes_subset a hw)
  have hwb : c ∉ F.writes b := fun hw => hb (F.writes_subset b hw)
  have left := F.trans c _ _ _ (F.frame a c (M.fire b s) hwa) (F.frame b c s hwb)
  have right := F.trans c _ _ _ (F.frame b c (M.fire a s) hwb) (F.frame a c s hwa)
  exact F.trans c _ _ _ left (F.symm c _ _ right)

end Footprint

end LFBenchmarks
