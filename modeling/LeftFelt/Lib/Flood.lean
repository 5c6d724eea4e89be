import LeftFelt.Lib.PathIn
import Mathlib.Data.List.Count
import Mathlib.Logic.Function.Basic

/-!
# Growing a region with a stack

A region grows from its seed: an element is taken from the stack, and those of its neighbours that have no label (0) and
are accepted get the label of the region and go on the stack. What is kept is `Grows`: the elements of the region are
joined to the seed inside of it, all but the seed are accepted, and other labels stay. Every element goes on the stack
once, so the search ends after at most as many rounds as there are elements without a label, and one for the seed
(`flood_spec`).
-/

namespace LeftFelt.Lib

variable {P : Type*} [DecidableEq P]

/-- The labels, and the elements whose neighbours have not been looked at. -/
structure Flood (P : Type*) where
  label : P → Nat
  stack : List P

namespace Flood

/-- A neighbour is looked at. -/
def push (n : Nat) (accept : P → Bool) (s : Flood P) (q : P) : Flood P :=
  if s.label q = 0 ∧ accept q then ⟨Function.update s.label q n, q :: s.stack⟩ else s

/-- The element on top of the stack is attended to, as long as there is one. -/
def flood (nbrs : P → List P) (n : Nat) (accept : P → Bool) : Nat → Flood P → Option (Flood P)
  | 0, _ => none
  | fuel + 1, s =>
    match s.stack with
    | [] => some s
    | p :: ps => flood nbrs n accept fuel ((nbrs p).foldl (push n accept) ⟨s.label, ps⟩)

variable {nbrs : P → List P} {adj : P → P → Prop} {n : Nat} {accept : P → Bool} {seed : P} {before : P → Nat}
  {s : Flood P} {cells : List P}

/-- A region has begun to grow from `seed`, where the labels were `before`. -/
structure Grows (adj : P → P → Prop) (n : Nat) (accept : P → Bool) (seed : P) (before : P → Nat) (s : Flood P) :
    Prop where
  root : s.label seed = n
  old : ∀ q, before q ≠ 0 → s.label q = before q
  new : ∀ q, before q = 0 → s.label q = 0 ∨ s.label q = n
  joined : ∀ q, s.label q = n → PathIn adj {q | s.label q = n} seed q
  accepted : ∀ q, s.label q = n → q = seed ∨ accept q = true
  stack : ∀ q ∈ s.stack, s.label q = n

/-- The seed alone. -/
theorem Grows.start (hbefore : ∀ q, before q ≠ n) (hseed : before seed = 0) :
    Grows adj n accept seed before ⟨Function.update before seed n, [seed]⟩ := by
  have honly : ∀ q, Function.update before seed n q = n → q = seed := by
    intro q hq
    by_contra hne
    rw [Function.update_of_ne hne] at hq
    exact hbefore q hq
  refine ⟨Function.update_self .., fun q hq => ?_, fun q hq => ?_, fun q hq => ?_, fun q hq => Or.inl (honly q hq),
    fun q hq => ?_⟩
  · refine Function.update_of_ne ?_ _ _
    rintro rfl
    exact hq hseed
  · by_cases hqs : q = seed
    · subst hqs
      exact Or.inr (Function.update_self ..)
    · exact Or.inl ((Function.update_of_ne hqs _ _).trans hq)
  · obtain rfl := honly q hq
    exact PathIn.refl hq
  · obtain rfl := List.mem_singleton.1 hq
    exact Function.update_self ..

/-- **A neighbour of the region is looked at.** -/
theorem Grows.push (h : Grows adj n accept seed before s) (hn : n ≠ 0) {p q : P} (hp : s.label p = n)
    (hadj : q ≠ p → adj p q) : Grows adj n accept seed before (push n accept s q) := by
  unfold Flood.push
  split_ifs with hcond
  swap
  · exact h
  obtain ⟨hzero, haccept⟩ := hcond
  have hne : ∀ {a}, s.label a = n → a ≠ q := by
    rintro a ha rfl
    exact hn (ha.symm.trans hzero)
  have hkept : ∀ {a}, s.label a = n → Function.update s.label q n a = n := fun ha =>
    (Function.update_of_ne (hne ha) _ _).trans ha
  have hmono : {a | s.label a = n} ⊆ {a | Function.update s.label q n a = n} := fun a ha => hkept ha
  have hcase : ∀ {a}, Function.update s.label q n a = n → a = q ∨ s.label a = n := by
    intro a ha
    by_cases haq : a = q
    · exact Or.inl haq
    · rw [Function.update_of_ne haq] at ha
      exact Or.inr ha
  refine ⟨hkept h.root, fun a ha => ?_, fun a ha => ?_, fun a ha => ?_, fun a ha => ?_, fun a ha => ?_⟩
  · have haq : a ≠ q := by
      rintro rfl
      exact ha (by rw [← h.old a ha, hzero])
    exact (Function.update_of_ne haq _ _).trans (h.old a ha)
  · by_cases haq : a = q
    · subst haq
      exact Or.inr (Function.update_self ..)
    · show Function.update s.label q n a = 0 ∨ Function.update s.label q n a = n
      rw [Function.update_of_ne haq]
      exact h.new a ha
  · rcases hcase ha with rfl | ha
    · exact ((h.joined p hp).mono hmono).tail (hadj (hne hp).symm) (Function.update_self ..)
    · exact (h.joined a ha).mono hmono
  · rcases hcase ha with rfl | ha
    · exact Or.inr haccept
    · exact h.accepted a ha
  · rcases List.mem_cons.1 ha with rfl | ha
    · exact Function.update_self ..
    · exact hkept (h.stack a ha)

/-- Labels that are not 0 stay. -/
theorem label_push {p : P} (hp : s.label p ≠ 0) (q : P) : (Flood.push n accept s q).label p = s.label p := by
  unfold Flood.push
  split_ifs with hcond
  · refine Function.update_of_ne ?_ _ _
    rintro rfl
    exact hp hcond.1
  · rfl

/-- How much there is to do: the elements on the stack, and those that may still come on it. -/
def todo (cells : List P) (s : Flood P) : Nat := s.stack.length + cells.countP fun q => s.label q = 0

theorem todo_push (hn : n ≠ 0) {q : P} (hq : q ∈ cells) : todo cells (Flood.push n accept s q) ≤ todo cells s := by
  unfold Flood.push
  split_ifs with hcond
  swap
  · exact Nat.le_refl _
  have hfilter : (cells.filter fun a => Function.update s.label q n a = 0) =
      (cells.filter fun a => s.label a = 0).filter fun a => a ≠ q := by
    rw [List.filter_filter]
    refine List.filter_congr fun a _ => ?_
    by_cases haq : a = q
    · subst haq
      simp [hn]
    · simp [haq]
  have hcount : (cells.countP fun a => Function.update s.label q n a = 0) < cells.countP fun a => s.label a = 0 := by
    rw [List.countP_eq_length_filter, List.countP_eq_length_filter, hfilter]
    exact List.length_filter_lt_length_iff_exists.2 ⟨q, List.mem_filter.2 ⟨hq, by simpa using hcond.1⟩, by simp⟩
  simp only [todo, List.length_cons]
  omega

/-- All neighbours are looked at. -/
theorem Grows.round (h : Grows adj n accept seed before s) (hn : n ≠ 0) {p : P} (hp : s.label p = n) {l : List P}
    (hadj : ∀ q ∈ l, q ≠ p → adj p q) (hcells : ∀ q ∈ l, q ∈ cells) :
    Grows adj n accept seed before (l.foldl (Flood.push n accept) s) ∧
      todo cells (l.foldl (Flood.push n accept) s) ≤ todo cells s := by
  induction l generalizing s with
  | nil => exact ⟨h, Nat.le_refl _⟩
  | cons q l ih =>
    have hq := h.push hn hp (hadj q List.mem_cons_self)
    obtain ⟨hgrows, hle⟩ := ih hq ((label_push (by rw [hp]; exact hn) q).trans hp)
      (fun a ha => hadj a (List.mem_cons_of_mem q ha)) fun a ha => hcells a (List.mem_cons_of_mem q ha)
    exact ⟨hgrows, hle.trans (todo_push hn (hcells q List.mem_cons_self))⟩

/-- **The search ends**, and the region has grown. -/
theorem flood_spec (hn : n ≠ 0) (hadj : ∀ p, ∀ q ∈ nbrs p, q ≠ p → adj p q) (hcells : ∀ p, ∀ q ∈ nbrs p, q ∈ cells)
    (fuel : Nat) (h : Grows adj n accept seed before s) (hfuel : todo cells s < fuel) :
    ∃ t, flood nbrs n accept fuel s = some t ∧ Grows adj n accept seed before t := by
  induction fuel generalizing s with
  | zero => omega
  | succ fuel ih =>
    obtain ⟨label, stack⟩ := s
    cases stack with
    | nil => exact ⟨_, rfl, h⟩
    | cons p ps =>
      have hp : label p = n := h.stack p List.mem_cons_self
      have hrest : Grows adj n accept seed before ⟨label, ps⟩ :=
        ⟨h.root, h.old, h.new, h.joined, h.accepted, fun q hq => h.stack q (List.mem_cons_of_mem p hq)⟩
      obtain ⟨hround, hle⟩ := hrest.round hn hp (hadj p) (hcells p)
      have hless : todo cells ⟨label, ps⟩ < todo cells ⟨label, p :: ps⟩ := by
        simp only [todo, List.length_cons]
        omega
      exact ih hround (hle.trans_lt (by omega))

end Flood

end LeftFelt.Lib
