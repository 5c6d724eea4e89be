import Mathlib.Data.List.Chain
import Mathlib.Data.Set.Basic
import Mathlib.Logic.Relation

/-!
# Connected parts of a set

`PathIn adj A p q`: a path of `adj`-neighbours inside the set `A` leads from `p` to `q`. For a symmetric `adj` it is
an equivalence on `A` (`PathIn.refl`, `PathIn.symm`, `PathIn.trans`); its classes are the connected parts of `A`.

`KeepsComponents adj A B`: shrinking `A` to `B` neither splits, nor merges, nor loses a connected part. It composes
(`KeepsComponents.trans`), and `keepsComponents_of_takeover` gives a local condition for it: every deleted element has
one or two kept neighbours that are near all its other neighbours.
-/

namespace LeftFelt.Lib

variable {P : Type*} {adj : P → P → Prop} {A B C : Set P} {p q r : P}

/-- A path of neighbours inside `A` leads from `p` to `q`. -/
def PathIn (adj : P → P → Prop) (A : Set P) (p q : P) : Prop :=
  p ∈ A ∧ Relation.ReflTransGen (fun a b => adj a b ∧ b ∈ A) p q

theorem PathIn.refl (hp : p ∈ A) : PathIn adj A p p := ⟨hp, .refl⟩

theorem PathIn.mem_left (h : PathIn adj A p q) : p ∈ A := h.1

theorem PathIn.mem_right (h : PathIn adj A p q) : q ∈ A := by
  obtain ⟨hp, h⟩ := h
  cases h with
  | refl => exact hp
  | tail _ h => exact h.2

theorem PathIn.tail (h : PathIn adj A p q) (ha : adj q r) (hr : r ∈ A) : PathIn adj A p r :=
  ⟨h.1, h.2.tail ⟨ha, hr⟩⟩

theorem PathIn.single (hp : p ∈ A) (ha : adj p q) (hq : q ∈ A) : PathIn adj A p q := (PathIn.refl hp).tail ha hq

/-- A list of neighbours is a path. -/
theorem PathIn.of_isChain {l : List P} (hp : p ∈ A) (hl : (p :: l).IsChain fun a b => adj a b ∧ b ∈ A)
    (hq : (p :: l).getLast (List.cons_ne_nil p l) = q) : PathIn adj A p q :=
  ⟨hp, List.relationReflTransGen_of_exists_isChain_cons l hl hq⟩

theorem PathIn.trans (h₁ : PathIn adj A p q) (h₂ : PathIn adj A q r) : PathIn adj A p r := ⟨h₁.1, h₁.2.trans h₂.2⟩

/-- Induction along a path, from its first element. -/
theorem PathIn.induction {M : P → Prop} (h : PathIn adj A p q) (h0 : M p)
    (hstep : ∀ a b, PathIn adj A p a → adj a b → b ∈ A → M a → M b) : M q := by
  obtain ⟨hp, h⟩ := h
  induction h with
  | refl => exact h0
  | tail hab hbc ih => exact hstep _ _ ⟨hp, hab⟩ hbc.1 hbc.2 ih

theorem PathIn.symm (hs : ∀ a ∈ A, ∀ b ∈ A, adj a b → adj b a) (h : PathIn adj A p q) : PathIn adj A q p := by
  refine h.induction (M := fun a => PathIn adj A a p) (PathIn.refl h.1) ?_
  intro a b hpa hab hb ih
  exact (PathIn.single hb (hs a hpa.mem_right b hb hab) hpa.mem_right).trans ih

/-- Another adjacency with more neighbours. -/
theorem PathIn.imp {adj' : P → P → Prop} (hadj : ∀ a ∈ A, ∀ b ∈ A, adj a b → adj' a b) (h : PathIn adj A p q) :
    PathIn adj' A p q :=
  h.induction (M := PathIn adj' A p) (PathIn.refl h.1) fun a b hpa hab hb ih =>
    ih.tail (hadj a hpa.mem_right b hb hab) hb

theorem PathIn.mono (hAB : A ⊆ B) (h : PathIn adj A p q) : PathIn adj B p q :=
  ⟨hAB h.1, Relation.ReflTransGen.mono (fun _ _ h => ⟨h.1, hAB h.2⟩) _ _ h.2⟩

/-- A property that neighbours share is the same all over a connected part. -/
theorem PathIn.congr {M : P → Prop} (hM : ∀ a ∈ A, ∀ b ∈ A, adj a b → (M a ↔ M b)) (h : PathIn adj A p q) :
    M p ↔ M q :=
  h.induction (M := fun a => M p ↔ M a) Iff.rfl fun a b hpa hab hb ih => ih.trans (hM a hpa.mem_right b hb hab)

/-! ## Shrinking a set without changing its connected parts -/

/-- Going from `A` to the smaller `B`, no connected part is split, merged or lost. -/
structure KeepsComponents (adj : P → P → Prop) (A B : Set P) : Prop where
  subset : B ⊆ A
  joined : ∀ p ∈ B, ∀ q ∈ B, (PathIn adj B p q ↔ PathIn adj A p q)
  survives : ∀ p ∈ A, ∃ q ∈ B, PathIn adj A p q

theorem KeepsComponents.refl : KeepsComponents adj A A :=
  ⟨fun _ h => h, fun _ _ _ _ => Iff.rfl, fun p hp => ⟨p, hp, PathIn.refl hp⟩⟩

theorem KeepsComponents.trans (h₁ : KeepsComponents adj A B) (h₂ : KeepsComponents adj B C) :
    KeepsComponents adj A C := by
  refine ⟨fun p hp => h₁.subset (h₂.subset hp), fun p hp q hq => ?_, fun p hp => ?_⟩
  · exact (h₂.joined p hp q hq).trans (h₁.joined p (h₂.subset hp) q (h₂.subset hq))
  · obtain ⟨q, hq, hpq⟩ := h₁.survives p hp
    obtain ⟨r, hr, hqr⟩ := h₂.survives q hq
    exact ⟨r, hr, hpq.trans (hqr.mono h₁.subset)⟩

/-- `b` is `a` or a neighbour of it. -/
def Near (adj : P → P → Prop) (a b : P) : Prop := a = b ∨ adj a b

/-- The kept elements `s` and `t` take over the deleted element `d`: they are its neighbours, near each other, and
every neighbour of `d` in `A` is near one of them. -/
structure TakesOver (adj : P → P → Prop) (A B : Set P) (d s t : P) : Prop where
  left : s ∈ B ∧ adj d s
  right : t ∈ B ∧ adj d t
  near : Near adj s t
  cover : ∀ b ∈ A, adj d b → Near adj b s ∨ Near adj b t

/-- The kept element that stands for `a`. -/
structure Stands (adj : P → P → Prop) (A B : Set P) (a b : P) : Prop where
  mem : b ∈ B
  path : PathIn adj A a b
  self : a ∈ B → b = a
  reach : ∀ c ∈ B, adj a c → PathIn adj B b c

section Takeover

variable (hsymm : ∀ a b, adj a b → adj b a)
include hsymm

theorem near_joined {a b : P} (ha : a ∈ B) (hb : b ∈ B) (h : Near adj b a) : PathIn adj B a b := by
  rcases h with rfl | h
  · exact PathIn.refl ha
  · exact PathIn.single ha (hsymm _ _ h) hb

/-- Neighbours in `A` are stood for by elements that are joined in `B`. -/
theorem stands_adj (h : ∀ d ∈ A, d ∉ B → ∃ s t, TakesOver adj A B d s t) {a a' b b' : P} (ha' : a' ∈ A)
    (haa' : adj a a') (ha : a ∈ A) (hb : Stands adj A B a b) (hb' : Stands adj A B a' b') : PathIn adj B b b' := by
  by_cases haB : a ∈ B
  · rw [hb.self haB]
    exact (hb'.reach a haB (hsymm _ _ haa')).symm fun a _ b _ => hsymm a b
  by_cases haB' : a' ∈ B
  · rw [hb'.self haB']
    exact hb.reach a' haB' haa'
  -- both are deleted: one of the two that take over `a` is a common neighbour
  obtain ⟨s, t, hst⟩ := h a ha haB
  have common : ∃ c ∈ B, adj a c ∧ adj a' c := by
    rcases hst.cover a' ha' haa' with hn | hn
    · refine ⟨s, hst.left.1, hst.left.2, hn.resolve_left ?_⟩
      rintro rfl
      exact haB' hst.left.1
    · refine ⟨t, hst.right.1, hst.right.2, hn.resolve_left ?_⟩
      rintro rfl
      exact haB' hst.right.1
  obtain ⟨c, hc, hac, hac'⟩ := common
  exact (hb.reach c hc hac).trans ((hb'.reach c hc hac').symm fun a _ b _ => hsymm a b)

variable (hBA : B ⊆ A)
include hBA

/-- Every element of `A` has a stand-in. -/
theorem exists_stands (h : ∀ d ∈ A, d ∉ B → ∃ s t, TakesOver adj A B d s t) {a : P} (ha : a ∈ A) :
    ∃ b, Stands adj A B a b := by
  by_cases haB : a ∈ B
  · exact ⟨a, haB, PathIn.refl ha, fun _ => rfl, fun c hc hac => PathIn.single haB hac hc⟩
  · obtain ⟨s, t, hst⟩ := h a ha haB
    refine ⟨s, hst.left.1, PathIn.single ha hst.left.2 (hBA hst.left.1), fun h => absurd h haB, fun c hc hac => ?_⟩
    have hs_t : PathIn adj B s t := (near_joined hsymm hst.right.1 hst.left.1 hst.near).symm fun a _ b _ => hsymm a b
    rcases hst.cover c (hBA hc) hac with hn | hn
    · exact near_joined hsymm hst.left.1 hc hn
    · exact hs_t.trans (near_joined hsymm hst.right.1 hc hn)

/-- **Local deletion**: if every deleted element is taken over by kept neighbours, the connected parts stay. -/
theorem keepsComponents_of_takeover (h : ∀ d ∈ A, d ∉ B → ∃ s t, TakesOver adj A B d s t) :
    KeepsComponents adj A B := by
  refine ⟨hBA, fun p hp q hq => ⟨fun h => h.mono hBA, fun hpq => ?_⟩, fun p hp => ?_⟩
  · have key : ∀ b, Stands adj A B q b → PathIn adj B p b := by
      refine hpq.induction (M := fun a => ∀ b, Stands adj A B a b → PathIn adj B p b) ?_ ?_
      · intro b hb
        rw [hb.self hp]
        exact PathIn.refl hp
      · intro a a' hpa haa' ha' ih b' hb'
        obtain ⟨b, hb⟩ := exists_stands hsymm hBA h hpa.mem_right
        exact (ih b hb).trans (stands_adj hsymm h ha' haa' hpa.mem_right hb hb')
    obtain ⟨b, hb⟩ := exists_stands hsymm hBA h (hBA hq)
    have hbq := key b hb
    rwa [hb.self hq] at hbq
  · obtain ⟨b, hb⟩ := exists_stands hsymm hBA h hp
    exact ⟨b, hb.mem, hb.path⟩

end Takeover

end LeftFelt.Lib
