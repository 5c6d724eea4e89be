import LeftFelt.Lib.PathIn
import LeftFelt.Lib.Loop
import Mathlib.Data.Set.Card
import Mathlib.Logic.Function.Iterate
import Mathlib.Order.Interval.Finset.Nat

/-!
# Labelling by sweeps

A sweep visits the elements of a list in order and gives each a label: a new one if it sees no label at its
neighbours, else the smallest that it sees, at most `cap`. Every label that it sees is linked to the one it gives; a
label keeps only its smallest link. Between sweeps the links are followed to their ends (`resolve`).

`Swept` says what a sweep does by equations between the labels of neighbours, with no mention of the order in which the
sweep computed them (`swept_foldl`): an element sees the labels of this sweep at its earlier neighbours and the ones
from before at the later ones (`view`). The results are read off these equations.

* `Swept.base_resolve`: the labelling after a sweep is fit for the next one.
* `Swept.sound_resolve`: as long as the labels stay below `cap`, equal labels mean joined elements.
* `Swept.next_eq`: a sweep hands out as many labels as there are elements that see none.
-/

namespace LeftFelt.Lib

/-! ## Links -/

/-- The end of the links from `l`. -/
def root (link : Nat → Nat) (l : Nat) : Nat := link^[l] l

section Root

variable {link : Nat → Nat} (hle : ∀ l, link l ≤ l)
include hle

theorem iterate_link_le (n l : Nat) : link^[n] l ≤ l := by
  induction n with
  | zero => exact Nat.le_refl l
  | succ n ih =>
    rw [Function.iterate_succ_apply']
    exact (hle _).trans ih

theorem root_le (l : Nat) : root link l ≤ l := iterate_link_le hle l l

/-- Links are followed to their ends. -/
theorem link_root (l : Nat) : link (root link l) = root link l := by
  have key : ∀ n, link (link^[n] l) = link^[n] l ∨ link^[n] l + n ≤ l := by
    intro n
    induction n with
    | zero => exact Or.inr (Nat.le_refl l)
    | succ n ih =>
      rw [Function.iterate_succ_apply']
      rcases ih with hfix | hlow
      · left
        rw [hfix, hfix]
      · rcases Nat.lt_or_eq_of_le (hle (link^[n] l)) with hlt | heq
        · right; omega
        · left; rw [heq, heq]
  rcases key l with hfix | hlow
  · exact hfix
  · have hzero : link^[l] l = 0 := by omega
    rw [root, hzero]
    exact Nat.le_zero.1 (hle 0)

theorem root_le_link {l : Nat} : root link l ≤ link l := by
  cases l with
  | zero => exact Nat.zero_le _
  | succ l =>
    rw [root, Function.iterate_succ_apply]
    exact iterate_link_le hle l _

omit hle in
theorem root_eq_self {l : Nat} (h : link l = l) : root link l = l := Function.iterate_fixed h l

/-- A link leads to the same end. -/
theorem root_link (l : Nat) : root link (link l) = root link l := by
  have key : ∀ n k, k ≤ n → link^[n] k = root link k := by
    intro n k hk
    obtain ⟨m, rfl⟩ := Nat.exists_eq_add_of_le' hk
    rw [Function.iterate_add_apply]
    exact Function.iterate_fixed (link_root hle k) m
  rw [← key l (link l) (hle l), ← key (l + 1) l (Nat.le_succ l), Function.iterate_succ_apply]

/-- A label is its own end exactly if it is linked to itself. -/
theorem root_eq_self_iff {l : Nat} : root link l = l ↔ link l = l := by
  constructor
  · intro h
    rw [← h]
    exact link_root hle l
  · exact root_eq_self

omit hle in
/-- What a link keeps, its end has. -/
theorem root_induction {M : Nat → Prop} (hM : ∀ k, M k → M (link k)) {l : Nat} (hl : M l) : M (root link l) := by
  have key : ∀ n, M (link^[n] l) := by
    intro n
    induction n with
    | zero => exact hl
    | succ n ih =>
      rw [Function.iterate_succ_apply']
      exact hM _ ih
  exact key l

end Root

/-! ## Sweeps -/

/-- The labels (0: none), the link of every label, and the next new label. -/
structure Labelling (P : Type*) where
  label : P → Nat
  link : Nat → Nat
  next : Nat

variable {P : Type*} (nbrs : P → List P) (cap : Nat) (pos : P → Nat)

/-- The labels at the neighbours. -/
def seen (s : Labelling P) (p : P) : List Nat := ((nbrs p).map s.label).filter (· ≠ 0)

/-- The visit to one element. -/
def visit [DecidableEq P] (s : Labelling P) (p : P) : Labelling P :=
  if seen nbrs s p = [] then
    { s with label := Function.update s.label p s.next, next := s.next + 1 }
  else
    let m := (seen nbrs s p).foldr min cap
    { s with
      label := Function.update s.label p m
      link := fun l => if l ∈ seen nbrs s p then min (s.link l) m else s.link l }

/-- Every label is replaced by the end of its links. -/
def resolve (s : Labelling P) : Labelling P where
  label p := root s.link (s.label p)
  link := root s.link
  next := s.next

/-- Nothing is labelled yet. -/
def unlabelled : Labelling P := ⟨fun _ => 0, id, 1⟩

/-- The label that `p` sees at `q` in a sweep from `s` to `t`. -/
def view (s t : Labelling P) (p q : P) : Nat := if pos q < pos p then t.label q else s.label q

/-- `p` sees no label. -/
def Fresh (s t : Labelling P) (p : P) : Prop := ∀ q ∈ nbrs p, view pos s t p q = 0

/-- The equations of one element in a sweep from `s` to `t`. -/
structure Visited (s t : Labelling P) (p : P) : Prop where
  new : Fresh nbrs pos s t p → s.next ≤ t.label p ∧ t.label p < t.next
  le : ∀ q ∈ nbrs p, view pos s t p q ≠ 0 → t.label p ≤ view pos s t p q
  le_cap : ¬Fresh nbrs pos s t p → t.label p ≤ cap
  eq : ¬Fresh nbrs pos s t p → t.label p = cap ∨
    ∃ q ∈ nbrs p, view pos s t p q ≠ 0 ∧ t.label p = view pos s t p q
  link_le : ∀ q ∈ nbrs p, view pos s t p q ≠ 0 → t.link (view pos s t p q) ≤ t.label p

/-- `t` comes from `s` by a sweep over `l`. -/
structure Swept (s : Labelling P) (l : List P) (t : Labelling P) : Prop where
  same : ∀ q ∉ l, t.label q = s.label q
  next_le : s.next ≤ t.next
  visited : ∀ p ∈ l, Visited nbrs cap pos s t p
  new_lt : ∀ p ∈ l, ∀ p' ∈ l, Fresh nbrs pos s t p → Fresh nbrs pos s t p' → pos p < pos p' → t.label p < t.label p'
  handed : ∀ r, s.next ≤ r → r < t.next → ∃ p ∈ l, Fresh nbrs pos s t p ∧ t.label p = r
  link_old : ∀ k, t.link k ≤ s.link k
  link_eq : ∀ k, t.link k = s.link k ∨
    ∃ p ∈ l, ∃ q ∈ nbrs p, view pos s t p q ≠ 0 ∧ view pos s t p q = k ∧ t.link k = t.label p

variable {nbrs cap pos}

theorem mem_seen {s : Labelling P} {p : P} {k : Nat} :
    k ∈ seen nbrs s p ↔ (∃ q ∈ nbrs p, s.label q = k) ∧ k ≠ 0 := by
  simp [seen]

/-- The smallest of some numbers, at most `cap`. -/
theorem foldr_min_le {ls : List Nat} {k : Nat} (hk : k ∈ ls) : ls.foldr min cap ≤ k := by
  induction ls with
  | nil => exact absurd hk List.not_mem_nil
  | cons a ls ih =>
    rcases List.mem_cons.1 hk with rfl | hk
    · exact Nat.min_le_left _ _
    · exact (Nat.min_le_right _ _).trans (ih hk)

theorem foldr_min_le_cap (ls : List Nat) : ls.foldr min cap ≤ cap := by
  induction ls with
  | nil => exact Nat.le_refl cap
  | cons a ls ih => exact (Nat.min_le_right _ _).trans ih

theorem foldr_min_eq (ls : List Nat) : ls.foldr min cap = cap ∨ ls.foldr min cap ∈ ls := by
  induction ls with
  | nil => exact Or.inl rfl
  | cons a ls ih =>
    rw [List.foldr_cons]
    rcases Nat.le_total a (ls.foldr min cap) with h | h
    · rw [Nat.min_eq_left h]
      exact Or.inr List.mem_cons_self
    · rw [Nat.min_eq_right h]
      exact ih.imp id (List.mem_cons_of_mem a)

section Step

variable [DecidableEq P] {s t : Labelling P} {pre : List P} {a : P}

/-- The visit to `a` changes no label but its own. -/
theorem visit_label_of_ne {q : P} (h : q ≠ a) : (visit nbrs cap t a).label q = t.label q := by
  unfold visit
  split <;> exact Function.update_of_ne h _ _

/-- The visit to an element that sees no label. -/
theorem visit_of_seen_eq_nil (hnil : seen nbrs t a = []) : visit nbrs cap t a =
    { t with label := Function.update t.label a t.next, next := t.next + 1 } := if_pos hnil

/-- The visit to an element that sees a label. -/
theorem visit_of_seen_ne_nil (hne : seen nbrs t a ≠ []) : visit nbrs cap t a =
    { t with
      label := Function.update t.label a ((seen nbrs t a).foldr min cap)
      link := fun l => if l ∈ seen nbrs t a then min (t.link l) ((seen nbrs t a).foldr min cap) else t.link l } :=
  if_neg hne

theorem visit_link_le (k : Nat) : (visit nbrs cap t a).link k ≤ t.link k := by
  unfold visit
  split
  · exact Nat.le_refl _
  · show (if _ then _ else _) ≤ _
    split
    · exact Nat.min_le_left _ _
    · exact Nat.le_refl _

theorem le_visit_next : t.next ≤ (visit nbrs cap t a).next := by
  unfold visit
  split
  · exact Nat.le_succ _
  · exact Nat.le_refl _

/-- What the elements before `a` see stays. -/
theorem view_visit {p : P} (hp : pos p < pos a) (q : P) : view pos s (visit nbrs cap t a) p q = view pos s t p q := by
  unfold view
  split
  · rename_i hlt
    have hne : q ≠ a := by
      rintro rfl
      omega
    rw [visit_label_of_ne hne]
  · rfl

theorem fresh_visit {p : P} (hp : pos p < pos a) :
    Fresh nbrs pos s (visit nbrs cap t a) p ↔ Fresh nbrs pos s t p :=
  forall₂_congr fun q _ => by rw [view_visit hp q]

/-- The equations of the elements before `a` stay. -/
theorem Visited.visit {p : P} (hp : pos p < pos a) (h : Visited nbrs cap pos s t p) :
    Visited nbrs cap pos s (visit nbrs cap t a) p := by
  have hlabel : (Lib.visit nbrs cap t a).label p = t.label p := visit_label_of_ne fun e => by
    rw [e] at hp
    omega
  refine ⟨fun hf => ?_, fun q hq hne => ?_, fun hf => ?_, fun hf => ?_, fun q hq hne => ?_⟩
  · rw [fresh_visit hp] at hf
    rw [hlabel]
    exact ⟨(h.new hf).1, (h.new hf).2.trans_le le_visit_next⟩
  · rw [view_visit hp] at hne ⊢
    rw [hlabel]
    exact h.le q hq hne
  · rw [fresh_visit hp] at hf
    rw [hlabel]
    exact h.le_cap hf
  · rw [fresh_visit hp] at hf
    simp only [hlabel, view_visit hp]
    exact h.eq hf
  · rw [view_visit hp] at hne ⊢
    rw [hlabel]
    exact (visit_link_le _).trans (h.link_le q hq hne)

variable (cap) (hpre : ∀ p ∈ pre, pos p < pos a) (ha : a ∉ nbrs a) (hsame : ∀ q ∉ pre, t.label q = s.label q)
include hpre ha hsame

/-- What `a` sees are the labels at its neighbours when it is visited. -/
theorem view_self {q : P} (hq : q ∈ nbrs a) : view pos s (visit nbrs cap t a) a q = t.label q := by
  have hne : q ≠ a := by
    rintro rfl
    exact ha hq
  unfold view
  split
  · exact visit_label_of_ne hne
  · rename_i hlt
    rw [hsame q fun hq' => hlt (hpre q hq')]

theorem mem_seen_iff {k : Nat} :
    k ∈ seen nbrs t a ↔ ∃ q ∈ nbrs a, view pos s (visit nbrs cap t a) a q ≠ 0 ∧
      view pos s (visit nbrs cap t a) a q = k := by
  rw [mem_seen]
  constructor
  · rintro ⟨⟨q, hq, rfl⟩, hne⟩
    have hview := view_self cap hpre ha hsame hq
    exact ⟨q, hq, by rwa [hview], hview⟩
  · rintro ⟨q, hq, hne, rfl⟩
    have hview := view_self cap hpre ha hsame hq
    exact ⟨⟨q, hq, hview.symm⟩, hne⟩

theorem fresh_self : Fresh nbrs pos s (visit nbrs cap t a) a ↔ seen nbrs t a = [] := by
  rw [List.eq_nil_iff_forall_not_mem]
  constructor
  · intro hf k hk
    obtain ⟨q, hq, hne, -⟩ := (mem_seen_iff cap hpre ha hsame).1 hk
    exact hne (hf q hq)
  · intro hnil q hq
    by_contra hne
    exact hnil _ ((mem_seen_iff cap hpre ha hsame).2 ⟨q, hq, hne, rfl⟩)

/-- The equations of the element visited. -/
theorem visited_self (hnext : s.next ≤ t.next) : Visited nbrs cap pos s (visit nbrs cap t a) a := by
  have hfresh := fresh_self cap hpre ha hsame
  have hseen : ∀ q ∈ nbrs a, view pos s (visit nbrs cap t a) a q ≠ 0 →
      view pos s (visit nbrs cap t a) a q ∈ seen nbrs t a := fun q hq hne =>
    (mem_seen_iff cap hpre ha hsame).2 ⟨q, hq, hne, rfl⟩
  by_cases hnil : seen nbrs t a = []
  · have hnone := hfresh.2 hnil
    have hlabel : (visit nbrs cap t a).label a = t.next := by
      rw [visit_of_seen_eq_nil hnil]
      exact Function.update_self ..
    have hnext' : (visit nbrs cap t a).next = t.next + 1 := by rw [visit_of_seen_eq_nil hnil]
    refine ⟨fun _ => ?_, fun q hq hne => absurd (hnone q hq) hne, fun hf => absurd hnone hf, fun hf => absurd hnone hf,
      fun q hq hne => absurd (hnone q hq) hne⟩
    rw [hlabel, hnext']
    exact ⟨hnext, Nat.lt_succ_self _⟩
  · have hlabel : (visit nbrs cap t a).label a = (seen nbrs t a).foldr min cap := by
      rw [visit_of_seen_ne_nil hnil]
      exact Function.update_self ..
    refine ⟨fun hf => absurd (hfresh.1 hf) hnil, fun q hq hne => ?_, fun _ => ?_, fun _ => ?_, fun q hq hne => ?_⟩
    · rw [hlabel]
      exact foldr_min_le (hseen q hq hne)
    · rw [hlabel]
      exact foldr_min_le_cap _
    · rw [hlabel]
      refine (foldr_min_eq _).imp id fun hk => ?_
      obtain ⟨q, hq, hne, heq⟩ := (mem_seen_iff cap hpre ha hsame).1 hk
      exact ⟨q, hq, hne, heq.symm⟩
    · have hlink : ∀ k ∈ seen nbrs t a, (visit nbrs cap t a).link k ≤ (seen nbrs t a).foldr min cap := by
        intro k hk
        rw [visit_of_seen_ne_nil hnil]
        show (if _ then _ else _) ≤ _
        rw [if_pos hk]
        exact Nat.min_le_right _ _
      rw [hlabel]
      exact hlink _ (hseen q hq hne)

/-- A link is kept, or replaced by the label that `a` gets. -/
theorem visit_link_eq (k : Nat) : (visit nbrs cap t a).link k = t.link k ∨
    ∃ q ∈ nbrs a, view pos s (visit nbrs cap t a) a q ≠ 0 ∧ view pos s (visit nbrs cap t a) a q = k ∧
      (visit nbrs cap t a).link k = (visit nbrs cap t a).label a := by
  by_cases hnil : seen nbrs t a = []
  · left
    rw [visit_of_seen_eq_nil hnil]
  · have hlabel : (visit nbrs cap t a).label a = (seen nbrs t a).foldr min cap := by
      rw [visit_of_seen_ne_nil hnil]
      exact Function.update_self ..
    have hlink : (visit nbrs cap t a).link k =
        if k ∈ seen nbrs t a then min (t.link k) ((seen nbrs t a).foldr min cap) else t.link k := by
      rw [visit_of_seen_ne_nil hnil]
    by_cases hk : k ∈ seen nbrs t a
    · rw [if_pos hk] at hlink
      rcases Nat.le_total (t.link k) ((seen nbrs t a).foldr min cap) with hle | hle
      · exact Or.inl (hlink.trans (Nat.min_eq_left hle))
      · obtain ⟨q, hq, hne, hqk⟩ := (mem_seen_iff cap hpre ha hsame).1 hk
        exact Or.inr ⟨q, hq, hne, hqk, hlink.trans ((Nat.min_eq_right hle).trans hlabel.symm)⟩
    · rw [if_neg hk] at hlink
      exact Or.inl hlink

end Step

/-- One visit extends the equations by those of the element visited. -/
theorem Swept.visit [DecidableEq P] {s t : Labelling P} {pre : List P} {a : P} (h : Swept nbrs cap pos s pre t)
    (hpre : ∀ p ∈ pre, pos p < pos a) (ha : a ∉ nbrs a) :
    Swept nbrs cap pos s (pre ++ [a]) (visit nbrs cap t a) := by
  have hmem : ∀ p, p ∈ pre ++ [a] ↔ p ∈ pre ∨ p = a := by simp
  have hfresh : ∀ p ∈ pre, (Fresh nbrs pos s (Lib.visit nbrs cap t a) p ↔ Fresh nbrs pos s t p) := fun p hp =>
    fresh_visit (hpre p hp)
  have hfresh_self := fresh_self cap hpre ha h.same
  have hlabel : ∀ p ∈ pre, (Lib.visit nbrs cap t a).label p = t.label p := fun p hp =>
    visit_label_of_ne fun e => absurd (hpre p hp) (by rw [e]; omega)
  -- a label that is new to this sweep is `t.next` at `a`
  have hlabel_self : Fresh nbrs pos s (Lib.visit nbrs cap t a) a →
      (Lib.visit nbrs cap t a).label a = t.next ∧ (Lib.visit nbrs cap t a).next = t.next + 1 := fun hf => by
    rw [visit_of_seen_eq_nil (hfresh_self.1 hf)]
    exact ⟨Function.update_self .., rfl⟩
  refine ⟨fun q hq => ?_, h.next_le.trans le_visit_next, fun p hp => ?_, fun p hp p' hp' hf hf' hlt => ?_,
    fun r hr hlt => ?_, fun k => (visit_link_le k).trans (h.link_old k), fun k => ?_⟩
  · rw [hmem, not_or] at hq
    rw [visit_label_of_ne hq.2, h.same q hq.1]
  · rcases (hmem p).1 hp with hp | rfl
    · exact (h.visited p hp).visit (hpre p hp)
    · exact visited_self cap hpre ha h.same h.next_le
  · rcases (hmem p).1 hp with hp₁ | rfl
    · rcases (hmem p').1 hp' with hp' | rfl
      · rw [hlabel p hp₁, hlabel p' hp']
        exact h.new_lt p hp₁ p' hp' ((hfresh p hp₁).1 hf) ((hfresh p' hp').1 hf') hlt
      · rw [hlabel p hp₁, (hlabel_self hf').1]
        exact ((h.visited p hp₁).new ((hfresh p hp₁).1 hf)).2
    · rcases (hmem p').1 hp' with hp' | rfl
      · exact absurd (hpre p' hp') (by omega)
      · exact absurd hlt (by omega)
  · by_cases hr' : r < t.next
    · obtain ⟨p, hp, hf, rfl⟩ := h.handed r hr hr'
      exact ⟨p, (hmem p).2 (Or.inl hp), (hfresh p hp).2 hf, hlabel p hp⟩
    · have hnil : seen nbrs t a = [] := by
        by_contra hne
        rw [visit_of_seen_ne_nil hne] at hlt
        exact hr' hlt
      obtain ⟨hself, hnext⟩ := hlabel_self (hfresh_self.2 hnil)
      exact ⟨a, (hmem a).2 (Or.inr rfl), hfresh_self.2 hnil, by omega⟩
  · rcases visit_link_eq cap hpre ha h.same k with heq | ⟨q, hq, hne, hk, heq⟩
    · rw [heq]
      refine (h.link_eq k).imp id ?_
      rintro ⟨p, hp, q, hq, hne, hk, heq⟩
      exact ⟨p, (hmem p).2 (Or.inl hp), q, hq, by rwa [view_visit (hpre p hp)], by rwa [view_visit (hpre p hp)],
        by rwa [hlabel p hp]⟩
    · exact Or.inr ⟨a, (hmem a).2 (Or.inr rfl), q, hq, hne, hk, heq⟩

/-- Labels have been handed out, and links do not lead upwards. -/
structure Bounded (s : Labelling P) : Prop where
  label_lt : ∀ p, s.label p < s.next
  link_le : ∀ k, s.link k ≤ k

/-- A visit keeps the bounds. -/
theorem Bounded.visit [DecidableEq P] {s : Labelling P} (h : Bounded s) (a : P) : Bounded (visit nbrs cap s a) := by
  refine ⟨fun p => ?_, fun k => (visit_link_le k).trans (h.link_le k)⟩
  by_cases hp : p = a
  · subst hp
    by_cases hnil : seen nbrs s p = []
    · rw [visit_of_seen_eq_nil hnil]
      show Function.update s.label p s.next p < s.next + 1
      rw [Function.update_self]
      exact Nat.lt_succ_self _
    · obtain ⟨k, hk⟩ := List.exists_mem_of_ne_nil _ hnil
      obtain ⟨⟨q, -, rfl⟩, -⟩ := mem_seen.1 hk
      rw [visit_of_seen_ne_nil hnil]
      show Function.update s.label p _ p < s.next
      rw [Function.update_self]
      exact (foldr_min_le hk).trans_lt (h.label_lt q)
  · rw [visit_label_of_ne hp]
    exact (h.label_lt p).trans_le le_visit_next

theorem Bounded.foldl [DecidableEq P] {s : Labelling P} (h : Bounded s) (l : List P) :
    Bounded (l.foldl (Lib.visit nbrs cap) s) :=
  foldl_scan_all Bounded h fun a _ _ ht => ht.visit a

theorem le_next_foldl [DecidableEq P] (l : List P) (s : Labelling P) : s.next ≤ (l.foldl (visit nbrs cap) s).next := by
  induction l generalizing s with
  | nil => exact Nat.le_refl _
  | cons a l ih => exact le_visit_next.trans (ih _)

/-! ## What holds between sweeps -/

variable (nbrs pos) in
/-- The list is in the order of the positions, and being a neighbour is symmetric. -/
structure Scan (l : List P) : Prop where
  sorted : l.Pairwise fun p q => pos p < pos q
  irrefl : ∀ p ∈ l, p ∉ nbrs p
  symm : ∀ p ∈ l, ∀ q ∈ l, q ∈ nbrs p → p ∈ nbrs q

/-- What holds of a labelling before a sweep. -/
structure Base (l : List P) (s : Labelling P) : Prop where
  next_pos : 0 < s.next
  label_lt : ∀ p, s.label p < s.next
  outside : ∀ p ∉ l, s.label p = 0
  link_le : ∀ k, s.link k ≤ k
  link_pos : ∀ k, 0 < k → 0 < s.link k
  link_label : ∀ p, s.link (s.label p) = s.label p
  link_next : ∀ k, s.next ≤ k → s.link k = k

variable (nbrs) in
/-- Elements of the list joined by a path of neighbours in the list. -/
abbrev ScanPath (l : List P) (p q : P) : Prop := PathIn (fun p q => q ∈ nbrs p) {p | p ∈ l} p q

variable (nbrs) in
/-- Equal labels mean joined elements. -/
def Sound (l : List P) (s : Labelling P) : Prop := ∀ p q, s.label p ≠ 0 → s.label p = s.label q → ScanPath nbrs l p q

variable {l : List P} {s t : Labelling P}

theorem Scan.pos_inj (hl : Scan nbrs pos l) {p q : P} (hp : p ∈ l) (hq : q ∈ l) (h : pos p = pos q) : p = q :=
  List.Pairwise.forall_of_forall_of_flip (R := fun p q => pos p = pos q → p = q) (fun _ _ _ => rfl)
    (hl.sorted.imp fun hlt heq => absurd heq (by omega)) (hl.sorted.imp fun hlt heq => absurd heq (by omega)) hp hq h

/-- Part of a scan is a scan. -/
theorem Scan.sublist (hl : Scan nbrs pos l) {l' : List P} (h : l'.Sublist l) : Scan nbrs pos l' :=
  ⟨hl.sorted.sublist h, fun p hp => hl.irrefl p (h.subset hp),
    fun p hp q hq => hl.symm p (h.subset hp) q (h.subset hq)⟩

theorem Scan.path_symm (hl : Scan nbrs pos l) {p q : P} (h : ScanPath nbrs l p q) :
    ScanPath nbrs l q p := PathIn.symm hl.symm h

/-- **The equations of a sweep.** -/
theorem swept_foldl [DecidableEq P] (hl : Scan nbrs pos l) (s : Labelling P) :
    Swept nbrs cap pos s l (l.foldl (visit nbrs cap) s) := by
  refine foldl_scan (fun pre t => Swept nbrs cap pos s pre t) ?_ ?_
  · refine ⟨fun _ _ => rfl, Nat.le_refl _, by simp, by simp, fun r hr hlt => ?_, fun _ => Nat.le_refl _,
      fun _ => Or.inl rfl⟩
    omega
  · rintro pre a post t rfl ht
    refine ht.visit (fun p hp => ?_) (hl.irrefl a (by simp))
    exact (List.pairwise_append.1 hl.sorted).2.2 p hp a List.mem_cons_self

theorem Base.bounded (hs : Base l s) : Bounded s := ⟨hs.label_lt, hs.link_le⟩

/-- Nothing is labelled: that is a start. -/
theorem base_unlabelled (l : List P) : Base l (unlabelled : Labelling P) :=
  ⟨Nat.one_pos, fun _ => Nat.one_pos, fun _ _ => rfl, fun _ => Nat.le_refl _, fun _ h => h, fun _ => rfl,
    fun _ _ => rfl⟩

section Swept

variable (hs : Base l s) (h : Swept nbrs cap pos s l t)

include hs h in
theorem Swept.outside {q : P} (hq : q ∉ l) : t.label q = 0 := (h.same q hq).trans (hs.outside q hq)

include hs h in
/-- Only elements of the list have labels to be seen. -/
theorem Swept.view_mem {p q : P} (hne : view pos s t p q ≠ 0) : q ∈ l := by
  by_contra hq
  apply hne
  unfold view
  split
  · exact h.outside hs hq
  · exact hs.outside q hq

theorem exists_view_of_not_fresh {p : P} (hf : ¬Fresh nbrs pos s t p) : ∃ q ∈ nbrs p, view pos s t p q ≠ 0 := by
  unfold Fresh at hf
  push Not at hf
  exact hf

include hs h in
theorem Swept.label_pos (hcap : 0 < cap) {p : P} (hp : p ∈ l) : 0 < t.label p := by
  have hv := h.visited p hp
  by_cases hf : Fresh nbrs pos s t p
  · exact hs.next_pos.trans_le (hv.new hf).1
  · rcases hv.eq hf with heq | ⟨q, -, hne, heq⟩
    · omega
    · omega

include hs h in
theorem Swept.label_lt (p : P) : t.label p < t.next := by
  induction hn : pos p using Nat.strong_induction_on generalizing p with
  | _ n ih =>
    subst hn
    by_cases hp : p ∈ l
    · have hv := h.visited p hp
      by_cases hf : Fresh nbrs pos s t p
      · exact (hv.new hf).2
      · obtain ⟨q, hq, hne⟩ := exists_view_of_not_fresh hf
        refine (hv.le q hq hne).trans_lt ?_
        unfold view
        split
        · rename_i hlt
          exact ih (pos q) hlt q rfl
        · exact (hs.label_lt q).trans_le h.next_le
    · rw [h.same p hp]
      exact (hs.label_lt p).trans_le h.next_le

include hs h in
theorem Swept.view_lt (p q : P) : view pos s t p q < t.next := by
  unfold view
  split
  · exact h.label_lt hs q
  · exact (hs.label_lt q).trans_le h.next_le

include hs h in
theorem Swept.link_le_self (k : Nat) : t.link k ≤ k := (h.link_old k).trans (hs.link_le k)

include hs h in
theorem Swept.link_next {k : Nat} (hk : t.next ≤ k) : t.link k = k := by
  rcases h.link_eq k with heq | ⟨p, -, q, -, -, rfl, -⟩
  · rw [heq, hs.link_next k (h.next_le.trans hk)]
  · exact absurd (h.view_lt hs p q) (by omega)

include hs h in
/-- Resolving the links after a sweep prepares the next one. -/
theorem Swept.base_resolve (hcap : 0 < cap) : Base l (resolve t) := by
  have hle := h.link_le_self hs
  refine ⟨hs.next_pos.trans_le h.next_le, fun p => (root_le hle _).trans_lt (h.label_lt hs p), fun p hp => ?_,
    root_le hle, fun k hk => root_induction (M := fun k => 0 < k) (fun k hk => ?_) hk,
    fun p => root_eq_self (link_root hle _), fun k hk => root_eq_self (h.link_next hs hk)⟩
  · show root t.link (t.label p) = 0
    rw [h.outside hs hp]
    exact Nat.le_zero.1 (root_le hle 0)
  · rcases h.link_eq k with heq | ⟨p, hp, -, -, -, -, heq⟩
    · rw [heq]
      exact hs.link_pos k hk
    · rw [heq]
      exact h.label_pos hs hcap hp

end Swept

/-! ## Soundness -/

section Sound

variable (hs : Base l s) (h : Swept nbrs cap pos s l t) (hcap : t.next ≤ cap)
include hs h hcap

/-- Below the cap, a label that is not new is seen at a neighbour. -/
theorem Swept.eq_view {p : P} (hp : p ∈ l) (hf : ¬Fresh nbrs pos s t p) :
    ∃ q ∈ l, q ∈ nbrs p ∧ view pos s t p q ≠ 0 ∧ t.label p = view pos s t p q := by
  rcases (h.visited p hp).eq hf with heq | ⟨q, hq, hne, heq⟩
  · exact absurd (h.label_lt hs p) (by omega)
  · exact ⟨q, h.view_mem hs hne, hq, hne, heq⟩

variable (hl : Scan nbrs pos l)
include hl

/-- Where the label of `p` comes from: a joined element that got it as a new one or had it before. -/
theorem Swept.source {p : P} (hp : p ∈ l) : ∃ q ∈ l, ScanPath nbrs l q p ∧
    (Fresh nbrs pos s t q ∧ t.label q = t.label p ∨ s.label q ≠ 0 ∧ t.label p = s.label q) := by
  induction hn : pos p using Nat.strong_induction_on generalizing p with
  | _ n ih =>
    subst hn
    by_cases hf : Fresh nbrs pos s t p
    · exact ⟨p, hp, PathIn.refl hp, Or.inl ⟨hf, rfl⟩⟩
    · obtain ⟨q, hq, hpq, hne, heq⟩ := h.eq_view hs hcap hp hf
      have hqp : ScanPath nbrs l q p := PathIn.single hq (hl.symm p hp q hq hpq) hp
      unfold view at hne heq
      split at hne
      · rename_i hlt
        rw [if_pos hlt] at heq
        obtain ⟨r, hr, hrq, hsource⟩ := ih (pos q) hlt hq rfl
        rw [heq]
        exact ⟨r, hr, hrq.trans hqp, hsource⟩
      · rename_i hlt
        rw [if_neg hlt] at heq
        exact ⟨q, hq, hqp, Or.inr ⟨hne, heq⟩⟩

/-- A sweep links labels it gave, and the links from before do not touch them. -/
theorem Swept.old_link_label {p : P} (hp : p ∈ l) : s.link (t.label p) = t.label p := by
  obtain ⟨q, hq, -, hsource⟩ := h.source hs hcap hl hp
  rcases hsource with ⟨hf, heq⟩ | ⟨-, heq⟩
  · rw [← heq]
    exact hs.link_next _ ((h.visited q hq).new hf).1
  · rw [heq]
    exact hs.link_label q

variable (hsound : Sound nbrs l s)
include hsound

/-- Equal labels of the sweep mean joined elements. -/
theorem Swept.sound {p q : P} (hp : p ∈ l) (hq : q ∈ l) (heq : t.label p = t.label q) : ScanPath nbrs l p q := by
  obtain ⟨p', hp', hpath, hsource⟩ := h.source hs hcap hl hp
  obtain ⟨q', hq', hpath', hsource'⟩ := h.source hs hcap hl hq
  have hmid : ScanPath nbrs l p' q' := by
    rcases hsource with ⟨hf, hlabel⟩ | ⟨hne, hlabel⟩
    · rcases hsource' with ⟨hf', hlabel'⟩ | ⟨hne', hlabel'⟩
      · -- a new label is given once
        rcases Nat.lt_trichotomy (pos p') (pos q') with hlt | hpos | hlt
        · exact absurd (h.new_lt p' hp' q' hq' hf hf' hlt) (by omega)
        · rw [hl.pos_inj hp' hq' hpos]
          exact PathIn.refl hq'
        · exact absurd (h.new_lt q' hq' p' hp' hf' hf hlt) (by omega)
      · exact absurd ((h.visited p' hp').new hf).1 (by have := hs.label_lt q'; omega)
    · rcases hsource' with ⟨hf', hlabel'⟩ | ⟨hne', hlabel'⟩
      · exact absurd ((h.visited q' hq').new hf').1 (by have := hs.label_lt p'; omega)
      · exact hsound p' q' hne (by omega)
  exact (hl.path_symm hpath).trans (hmid.trans hpath')

/-- An element that sees the label of `p` is joined to it. -/
theorem Swept.view_sound {p a b : P} (hp : p ∈ l) (ha : a ∈ l) (hab : b ∈ nbrs a) (hne : view pos s t a b ≠ 0)
    (heq : view pos s t a b = t.label p) : ScanPath nbrs l p a := by
  have hb := h.view_mem hs hne
  have hba : ScanPath nbrs l b a := PathIn.single hb (hl.symm a ha b hb hab) ha
  unfold view at hne heq
  split at heq
  · exact (h.sound hs hcap hl hsound hp hb heq.symm).trans hba
  · rename_i hlt
    rw [if_neg hlt] at hne
    obtain ⟨q, hq, hqp, hsource⟩ := h.source hs hcap hl hp
    rcases hsource with ⟨hf, hlabel⟩ | ⟨-, hlabel⟩
    · exact absurd ((h.visited q hq).new hf).1 (by have := hs.label_lt b; omega)
    · exact (hl.path_symm hqp).trans ((hl.path_symm (hsound b q hne (by omega))).trans hba)

/-- A link leads to a label of the same connected part. -/
theorem Swept.link_sound {p : P} (hp : p ∈ l) : ∃ q ∈ l, ScanPath nbrs l p q ∧ t.link (t.label p) = t.label q := by
  rcases h.link_eq (t.label p) with heq | ⟨a, ha, b, hb, hne, hview, heq⟩
  · exact ⟨p, hp, PathIn.refl hp, heq.trans (h.old_link_label hs hcap hl hp)⟩
  · exact ⟨a, ha, h.view_sound hs hcap hl hsound hp ha hb hne hview, heq⟩

/-- The end of the links is a label of the same connected part. -/
theorem Swept.root_sound {p : P} (hp : p ∈ l) :
    ∃ q ∈ l, ScanPath nbrs l p q ∧ root t.link (t.label p) = t.label q := by
  refine root_induction (M := fun k => ∃ q ∈ l, ScanPath nbrs l p q ∧ k = t.label q) ?_ ⟨p, hp, PathIn.refl hp, rfl⟩
  rintro k ⟨q, hq, hpq, rfl⟩
  obtain ⟨r, hr, hqr, heq⟩ := h.link_sound hs hcap hl hsound hq
  exact ⟨r, hr, hpq.trans hqr, heq⟩

/-- **Soundness of a sweep**: below the cap, equal labels mean joined elements, also after the links are resolved. -/
theorem Swept.sound_resolve : Sound nbrs l (resolve t) := by
  have hmem : ∀ p, (resolve t).label p ≠ 0 → p ∈ l := fun p hne => by
    by_contra hp
    exact hne ((h.base_resolve hs (by have := h.label_lt hs p; omega)).outside p hp)
  intro p q hne heq
  have hp := hmem p hne
  have hq := hmem q (heq ▸ hne)
  obtain ⟨p', hp', hpath, hroot⟩ := h.root_sound hs hcap hl hsound hp
  obtain ⟨q', hq', hpath', hroot'⟩ := h.root_sound hs hcap hl hsound hq
  have hmid := h.sound hs hcap hl hsound hp' hq' (hroot.symm.trans (heq.trans hroot'))
  exact hpath.trans (hmid.trans (hl.path_symm hpath'))

end Sound

/-! ## The number of labels -/

/-- **The labels handed out**: one for every element that sees none. -/
theorem Swept.next_eq (hl : Scan nbrs pos l) (h : Swept nbrs cap pos s l t) :
    t.next = s.next + {p | p ∈ l ∧ Fresh nbrs pos s t p}.ncard := by
  have hinj : Set.InjOn t.label {p | p ∈ l ∧ Fresh nbrs pos s t p} := by
    rintro p ⟨hp, hf⟩ q ⟨hq, hf'⟩ heq
    rcases Nat.lt_trichotomy (pos p) (pos q) with hlt | hpos | hlt
    · exact absurd (h.new_lt p hp q hq hf hf' hlt) (by omega)
    · exact hl.pos_inj hp hq hpos
    · exact absurd (h.new_lt q hq p hp hf' hf hlt) (by omega)
  have himage : t.label '' {p | p ∈ l ∧ Fresh nbrs pos s t p} = Set.Ico s.next t.next := by
    refine Set.Subset.antisymm ?_ ?_
    · rintro _ ⟨p, ⟨hp, hf⟩, rfl⟩
      exact (h.visited p hp).new hf
    · rintro r ⟨hr, hlt⟩
      obtain ⟨p, hp, hf, heq⟩ := h.handed r hr hlt
      exact ⟨p, ⟨hp, hf⟩, heq⟩
  have hcard := hinj.ncard_image
  rw [himage, Set.ncard_eq_toFinset_card', Set.toFinset_Ico, Nat.card_Ico] at hcard
  have hle := h.next_le
  omega

end LeftFelt.Lib
