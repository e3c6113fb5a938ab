import Mathlib.Data.Fintype.Card
import Mathlib.Order.BoundedOrder.Basic

namespace LFBenchmarks.Relax

universe u

/-- Relaxation in depth: when the label of a node falls, the edges into it are looked at again at once.
Edges are kept at their heads. What the search writes down about an edge it has used is up to the
state; the labels are read from it. -/
structure Search (ν κ α σ : Type u) where
  sources : ν → List (ν × κ)
  add : κ → α → α
  label : σ → ν → α
  record : σ → ν → κ → α → σ

variable {ν κ α σ : Type u} (S : Search ν κ α σ) (root : ν)

namespace Search

/-- A walk to the root, as the connections along it. -/
inductive Walk : ν → List κ → Prop
  | nil : Walk root []
  | cons {w v : ν} {c : κ} {cs : List κ} : (w, c) ∈ S.sources v → Walk v cs → Walk w (c :: cs)

def delay (zero : α) (cs : List κ) : α := cs.foldr S.add zero

@[simp] theorem delay_nil (zero : α) : S.delay zero [] = zero := rfl

@[simp] theorem delay_cons (zero : α) (c : κ) (cs : List κ) :
    S.delay zero (c :: cs) = S.add c (S.delay zero cs) := rfl

section Closed

variable [LinearOrder α]

/-- No edge into `w` offers less than what its source has, when `w` itself is at `a`. -/
def Closed (s : σ) (w : ν) (a : α) : Prop := ∀ e ∈ S.sources w, S.label s e.1 ≤ S.add e.2 a

/-- What a search may do to the labels: lower them, and leave no node lowered with an edge open. -/
structure Advance (s t : σ) : Prop where
  le : ∀ w, S.label t w ≤ S.label s w
  closed : ∀ w, w ≠ root → S.label t w ≠ S.label s w → S.Closed t w (S.label t w)

variable {S root}

theorem Closed.of_le {s t : σ} {w : ν} {a : α} (hc : S.Closed s w a)
    (hle : ∀ w, S.label t w ≤ S.label s w) : S.Closed t w a :=
  fun e he => (hle e.1).trans (hc e he)

theorem Advance.refl (s : σ) : S.Advance root s s := ⟨fun _ => le_rfl, fun _ _ h => absurd rfl h⟩

theorem Advance.trans {s t x : σ} (hst : S.Advance root s t) (htx : S.Advance root t x) :
    S.Advance root s x := by
  refine ⟨fun w => (htx.le w).trans (hst.le w), fun w hw hne => ?_⟩
  by_cases heq : S.label x w = S.label t w
  · rw [heq] at hne ⊢
    exact (hst.closed w hw hne).of_le htx.le
  · exact htx.closed w hw heq

end Closed

variable [DecidableEq ν] [LinearOrder α]

/-- One edge into a node whose label is `d`. -/
def relaxEdge (go : ν → α → σ → Option σ) (d : α) (s : σ) (e : ν × κ) : Option σ :=
  if S.add e.2 d < S.label s e.1 then
    if e.1 = root then some (S.record s e.1 e.2 (S.add e.2 d))
    else go e.1 (S.add e.2 d) (S.record s e.1 e.2 (S.add e.2 d))
  else some s

/-- The first argument bounds the depth of the recursion. -/
def visit : Nat → ν → α → σ → Option σ
  | 0, _, _, _ => none
  | fuel + 1, v, d, s => (S.sources v).foldlM (S.relaxEdge root (visit fuel) d) s

variable {S root}

section Record

variable (hrecord : ∀ s w c a, S.label (S.record s w c a) = Function.update (S.label s) w a)
include hrecord

omit [LinearOrder α] in
theorem label_record_self (s : σ) (w : ν) (c : κ) (a : α) : S.label (S.record s w c a) w = a := by
  rw [hrecord, Function.update_self]

omit [LinearOrder α] in
theorem label_record_of_ne (s : σ) {w x : ν} (c : κ) (a : α) (h : x ≠ w) :
    S.label (S.record s w c a) x = S.label s x := by
  rw [hrecord, Function.update_of_ne h]

theorem label_record_le (s : σ) (w x : ν) (c : κ) {a : α} (h : a < S.label s w) :
    S.label (S.record s w c a) x ≤ S.label s x := by
  rcases eq_or_ne x w with rfl | hne
  · rw [label_record_self hrecord]
    exact h.le
  · rw [label_record_of_ne hrecord s c a hne]

/-- An edge used leaves its source closed, provided the search from there does. -/
theorem advance_relaxEdge {go : ν → α → σ → Option σ}
    (hgo : ∀ w a s t, go w a s = some t → S.Advance root s t ∧ S.Closed t w a)
    {d : α} {s t : σ} {e : ν × κ} (h : S.relaxEdge root go d s e = some t) :
    S.Advance root s t ∧ S.label t e.1 ≤ S.add e.2 d := by
  unfold relaxEdge at h
  split_ifs at h with hlt hroot
  · obtain rfl := Option.some.inj h
    refine ⟨⟨fun w => label_record_le hrecord s e.1 w e.2 hlt, fun w hw hne => ?_⟩, ?_⟩
    · exact absurd (label_record_of_ne hrecord s _ _ (hroot ▸ hw)) hne
    · rw [label_record_self hrecord]
  · obtain ⟨hadv, hclosed⟩ := hgo _ _ _ _ h
    have hself := hadv.le e.1
    rw [label_record_self hrecord] at hself
    refine ⟨⟨fun w => (hadv.le w).trans (label_record_le hrecord s e.1 w e.2 hlt),
      fun w hw hne => ?_⟩, hself⟩
    -- the source itself: closed for the label it was given, or lowered once more and closed for that
    by_cases heq : S.label t w = S.label (S.record s e.1 e.2 (S.add e.2 d)) w
    · rcases eq_or_ne w e.1 with rfl | hwe
      · rw [heq, label_record_self hrecord]
        exact hclosed
      · exact absurd (heq.trans (label_record_of_ne hrecord s _ _ hwe)) hne
    · exact hadv.closed w hw heq
  · obtain rfl := Option.some.inj h
    exact ⟨.refl _, not_lt.mp hlt⟩

theorem advance_foldlM {go : ν → α → σ → Option σ}
    (hgo : ∀ w a s t, go w a s = some t → S.Advance root s t ∧ S.Closed t w a)
    (d : α) (l : List (ν × κ)) {s t : σ} (h : l.foldlM (S.relaxEdge root go d) s = some t) :
    S.Advance root s t ∧ ∀ e ∈ l, S.label t e.1 ≤ S.add e.2 d := by
  induction l generalizing s with
  | nil =>
    obtain rfl := Option.some.inj h
    exact ⟨.refl _, by simp⟩
  | cons e l ih =>
    rw [List.foldlM_cons, Option.bind_eq_bind, Option.bind_eq_some_iff] at h
    obtain ⟨x, hx, hrest⟩ := h
    obtain ⟨hsx, hle⟩ := advance_relaxEdge hrecord hgo hx
    obtain ⟨hxt, hall⟩ := ih hrest
    refine ⟨hsx.trans hxt, fun e' he' => ?_⟩
    rcases List.mem_cons.mp he' with rfl | hmem
    · exact (hxt.le _).trans hle
    · exact hall e' hmem

theorem advance_visit (fuel : Nat) {v : ν} {d : α} {s t : σ}
    (h : S.visit root fuel v d s = some t) : S.Advance root s t ∧ S.Closed t v d := by
  induction fuel generalizing v d s t with
  | zero => simp [visit] at h
  | succ fuel ih => exact advance_foldlM hrecord (fun _ _ _ _ hgo => ih hgo) d _ h

end Record

section Induction

variable (I : σ → Prop) (Q : Nat → ν → α → Prop)

/-- The induction of the whole search: what every write keeps. `Q` is what is known of a node when its
edges are looked at. -/
theorem visit_induction
    (hstep : ∀ fuel v d s w c, Q (fuel + 1) v d → I s → (w, c) ∈ S.sources v →
      S.add c d < S.label s w → I (S.record s w c (S.add c d)) ∧ (w ≠ root → Q fuel w (S.add c d)))
    (fuel : Nat) {v : ν} {d : α} {s t : σ} (h : S.visit root fuel v d s = some t)
    (hq : Q fuel v d) (hi : I s) : I t := by
  induction fuel generalizing v d s t with
  | zero => simp [visit] at h
  | succ fuel ih =>
    have hfold : ∀ l : List (ν × κ), (∀ e ∈ l, e ∈ S.sources v) → ∀ {s : σ}, I s →
        l.foldlM (S.relaxEdge root (S.visit root fuel) d) s = some t → I t := by
      intro l
      induction l with
      | nil =>
        intro _ s hi h
        exact Option.some.inj h ▸ hi
      | cons e l ihl =>
        intro hsub s hi h
        rw [List.foldlM_cons, Option.bind_eq_bind, Option.bind_eq_some_iff] at h
        obtain ⟨x, hx, hrest⟩ := h
        refine ihl (fun e' he' => hsub e' (List.mem_cons_of_mem _ he')) ?_ hrest
        unfold relaxEdge at hx
        split_ifs at hx with hlt hroot
        · exact Option.some.inj hx ▸ (hstep fuel v d s _ _ hq hi (hsub e (by simp)) hlt).1
        · have hs := hstep fuel v d s _ _ hq hi (hsub e (by simp)) hlt
          exact ih hx (hs.2 hroot) hs.1
        · exact Option.some.inj hx ▸ hi
    exact hfold _ (fun _ he => he) hi h

end Induction

section Termination

variable [Fintype ν]

/-- The nodes whose edges are being looked at have no more than the label they led to, so that none
of them is entered again: the recursion is no deeper than there are nodes. -/
theorem exists_visit
    (hrecord : ∀ s w c a, S.label (S.record s w c a) = Function.update (S.label s) w a)
    {zero : α} (hadd : ∀ c a, zero ≤ a → a ≤ S.add c a) (fuel : Nat) (stack : Finset ν) {v : ν}
    {d : α} {s : σ} (hd : zero ≤ d) (hstack : ∀ w ∈ stack, w = root ∨ S.label s w ≤ d)
    (hfuel : Fintype.card ν < stack.card + fuel) : ∃ t, S.visit root fuel v d s = some t := by
  induction fuel generalizing stack v d s with
  | zero => exact absurd (Finset.card_le_univ stack) (by omega)
  | succ fuel ih =>
    have hfold : ∀ (l : List (ν × κ)) {s : σ}, (∀ w ∈ stack, w = root ∨ S.label s w ≤ d) →
        ∃ t, l.foldlM (S.relaxEdge root (S.visit root fuel) d) s = some t := by
      intro l
      induction l with
      | nil => exact fun {s} _ => ⟨s, rfl⟩
      | cons e l ihl =>
        intro s hs
        have hnext : ∃ x, S.relaxEdge root (S.visit root fuel) d s e = some x := by
          unfold relaxEdge
          split_ifs with hlt hroot
          · exact ⟨_, rfl⟩
          · have hfresh : e.1 ∉ stack := fun hmem => by
              rcases hs e.1 hmem with h | h
              · exact hroot h
              · exact absurd (h.trans (hadd e.2 d hd)) (not_le.mpr hlt)
            refine ih (insert e.1 stack) (hd.trans (hadd e.2 d hd)) (fun w hw => ?_) (by
              rw [Finset.card_insert_of_notMem hfresh]; omega)
            rcases eq_or_ne w e.1 with rfl | hne
            · exact .inr (label_record_self hrecord _ _ _ _).le
            · rw [label_record_of_ne hrecord s _ _ hne]
              exact (hs w (Finset.mem_of_mem_insert_of_ne hw hne)).imp id
                fun h => h.trans (hadd e.2 d hd)
          · exact ⟨_, rfl⟩
        obtain ⟨x, hx⟩ := hnext
        have hle : ∀ w, S.label x w ≤ S.label s w :=
          (advance_relaxEdge hrecord (fun _ _ _ _ hgo => advance_visit hrecord fuel hgo) hx).1.le
        obtain ⟨t, ht⟩ := ihl fun w hw => (hs w hw).imp id ((hle w).trans ·)
        exact ⟨t, by rw [List.foldlM_cons, hx]; exact ht⟩
    exact hfold _ hstack

end Termination

section Least

variable [Fintype ν] [OrderTop α] {zero : α}

/-- Every label is the top or the delay of a walk with no more connections than there are nodes. -/
theorem label_eq_delay
    (hrecord : ∀ s w c a, S.label (S.record s w c a) = Function.update (S.label s) w a)
    {s t : σ} (hs : ∀ w, S.label s w = ⊤)
    (h : S.visit root (Fintype.card ν) root zero s = some t) (w : ν) :
    S.label t w = ⊤ ∨ ∃ c cs, S.Walk root w (c :: cs) ∧ (c :: cs).length ≤ Fintype.card ν ∧
      S.label t w = S.delay zero (c :: cs) := by
  refine visit_induction (fun s => ∀ w, S.label s w = ⊤ ∨
      ∃ c cs, S.Walk root w (c :: cs) ∧ (c :: cs).length ≤ Fintype.card ν ∧
        S.label s w = S.delay zero (c :: cs))
    (fun fuel v d => ∃ cs, S.Walk root v cs ∧ cs.length + fuel = Fintype.card ν ∧
      d = S.delay zero cs) ?_ _ h ⟨[], .nil, by simp, rfl⟩ (fun w => .inl (hs w)) w
  rintro fuel v _ s w c ⟨cs, hwalk, hlength, rfl⟩ hlabels hmem -
  have hcons : S.Walk root w (c :: cs) := .cons hmem hwalk
  refine ⟨fun x => ?_, fun _ => ⟨c :: cs, hcons, by simp; omega, rfl⟩⟩
  rcases eq_or_ne x w with rfl | hne
  · exact .inr ⟨c, cs, hcons, by simp; omega, label_record_self hrecord _ _ _ _⟩
  · rw [label_record_of_ne hrecord s _ _ hne]
    exact hlabels x

/-- No walk is shorter than the label, even one that comes back to the root on its way. The walks may
be measured in another order than the labels: what is asked of a connection is that it keeps a bound
on what it is added to, and this only behind short walks. -/
theorem label_le_foldr {β : Type*} [Preorder β] (φ : α → β) (plus : κ → β → β) (zero' : β)
    (hrecord : ∀ s w c a, S.label (S.record s w c a) = Function.update (S.label s) w a)
    (hφ : Monotone φ) (hzero : φ zero ≤ zero') (hplus : ∀ c b, zero' ≤ b → b ≤ plus c b)
    (hsim : ∀ c cs b, cs.length ≤ Fintype.card ν → φ (S.delay zero cs) ≤ b →
      φ (S.add c (S.delay zero cs)) ≤ plus c b)
    {s t : σ} (hs : ∀ w, S.label s w = ⊤)
    (h : S.visit root (Fintype.card ν) root zero s = some t) {w : ν} {c : κ} {cs : List κ}
    (hwalk : S.Walk root w (c :: cs)) : φ (S.label t w) ≤ (c :: cs).foldr plus zero' := by
  obtain ⟨hadv, hclosed⟩ := advance_visit hrecord _ h
  have hnonneg : ∀ cs : List κ, zero' ≤ cs.foldr plus zero' := by
    intro cs
    induction cs with
    | nil => exact le_rfl
    | cons c cs ih => exact ih.trans (hplus c _ ih)
  have hwalks : ∀ {w cs}, S.Walk root w cs → cs ≠ [] →
      φ (S.label t w) ≤ cs.foldr plus zero' := by
    intro w cs hw
    induction hw with
    | nil => exact fun hne => absurd rfl hne
    | @cons w v c cs hmem hw ih =>
      intro _
      rw [List.foldr_cons]
      rcases eq_or_ne v root with rfl | hv
      · exact (hφ (hclosed _ hmem)).trans (hsim c [] _ (by simp) (hzero.trans (hnonneg cs)))
      · have hne : cs ≠ [] := by
          rintro rfl
          cases hw
          exact hv rfl
        specialize ih hne
        by_cases htop : S.label t v = ⊤
        · rw [htop] at ih
          exact (hφ le_top).trans (ih.trans (hplus c _ (hnonneg cs)))
        · rcases label_eq_delay hrecord hs h v with h' | ⟨c', cs', -, hlength, hlabel⟩
          · exact absurd h' htop
          have hv' := hadv.closed v hv (by rwa [hs]) _ hmem
          refine (hφ hv').trans ?_
          rw [hlabel] at ih ⊢
          exact hsim c _ _ hlength ih
  exact hwalks hwalk (by simp)

end Least

end Search

end LFBenchmarks.Relax
