import LeftFelt.Lib.TwoSweeps
import Mathlib.Data.Nat.Count

/-!
# The numbers of the labels

After two sweeps the labels that are not linked any further are numbered through. The first sweep hands its labels out
in the order of the scan, so the number of a label counts the starts before it whose labels are still there (`Named`):
the ends of elements, and the isolated starts that no element shares its label with. `count_label` says so for every
element that is not isolated. An isolated element has a label of the second sweep, behind all others
(`count_label_isolated`).
-/

namespace LeftFelt.Lib

variable {P : Type*} {nbrs : P → List P} {cap : Nat} {pos : P → Nat} {l : List P} {s₁ s₂ : Labelling P}

section Picture

variable (nbrs cap pos l)

/-- The elements with one end. -/
def Part (r : P) : Set P := {p | p ∈ l ∧ End nbrs cap pos l p r}

/-- The label of the start `s` is not linked any further: it is the end of an element, or the first label of an
isolated one and of no other. -/
def Named (s : P) : Prop :=
  (Part nbrs cap pos l s).Nonempty ∨ Isolated nbrs l s ∧ ∀ q ∈ l, First nbrs cap pos l q s → q = s

end Picture

variable (hl : Scan nbrs pos l) (h₁ : Swept nbrs cap pos unlabelled l s₁) (h₂ : Swept nbrs cap pos (resolve s₁) l s₂)
  (hcap : 0 < cap)

include hl h₁ h₂ hcap

/-! ## Labels of isolated elements -/

/-- Elements that are not isolated keep labels of the first sweep. -/
theorem resolve_lt {p : P} (hp : p ∈ l) (hiso : ¬Isolated nbrs l p) : (resolve s₂).label p < s₁.next := by
  obtain ⟨r, -, heq⟩ := exists_end hl h₁ h₂ hcap hp hiso
  rw [← heq]
  exact h₁.label_lt (base_unlabelled l) r

/-- An isolated element has a new label, which is not linked. -/
theorem resolve_isolated {p : P} (hiso : Isolated nbrs l p) :
    (resolve s₂).label p = s₂.label p ∧ s₁.next ≤ s₂.label p := by
  have hbase₂ := h₁.base_resolve (base_unlabelled l) hcap
  have hnew : s₁.next ≤ s₂.label p := ((h₂.visited p hiso.1).new ((isolated_iff_fresh h₁ h₂ hcap).1 hiso).2).1
  refine ⟨root_eq_self ?_, hnew⟩
  rcases h₂.link_eq (s₂.label p) with heq | ⟨a, ha, b, hab, hne, hview, -⟩
  · exact heq.trans (hbase₂.link_next _ hnew)
  · -- a label that is seen is not new
    have hb := h₂.view_mem hbase₂ hne
    unfold view at hview
    split at hview
    · have hb' : ¬Isolated nbrs l b := fun hiso' => hiso'.2 a (hl.symm a ha b hb hab) ha
      obtain ⟨r, hsecond, -⟩ := exists_second hl h₁ h₂ hcap hb hb'
      have hlabel := ((second_iff hl h₁ h₂ hcap hb).1 hsecond).2
      have hlt := h₁.label_lt (base_unlabelled l) r
      omega
    · have hlt : (resolve s₁).label b < s₁.next := hbase₂.label_lt b
      omega

/-! ## Labels that are there in the end -/

/-- **The labels that are not linked any further** are those of the named starts. -/
theorem link_eq_iff_named {s : P} (hs : Start nbrs pos l s) :
    s₂.link (s₁.label s) = s₁.label s ↔ Named nbrs cap pos l s := by
  have hbase₁ := base_unlabelled l
  constructor
  · intro hfix
    by_cases hgiven : Isolated nbrs l s ∧ ∀ q ∈ l, First nbrs cap pos l q s → q = s
    · exact Or.inr hgiven
    · obtain ⟨a, ha, heq⟩ := in_use_start hl h₁ h₂ hcap hs (fun hiso => by
        by_contra hnone
        push Not at hnone
        refine hgiven ⟨hiso, fun q hq hfirst => ?_⟩
        by_contra hne
        exact hnone q hq hne hfirst) hfix
      have hiso : ¬Isolated nbrs l a := fun hiso => by
        obtain ⟨hlabel, hnew⟩ := resolve_isolated hl h₁ h₂ hcap hiso
        have hlt := h₁.label_lt hbase₁ s
        omega
      have hfix₁ := (root_eq_self_iff (h₁.link_le_self hbase₁)).1 (root_of_link h₁ h₂ hfix)
      exact Or.inl ⟨a, ha, (end_iff hl h₁ h₂ hcap ha hiso).2 ⟨⟨hs, hfix₁⟩, heq.symm⟩⟩
  · rintro (⟨a, ha, hend⟩ | ⟨hiso, hone⟩)
    · rw [((end_iff hl h₁ h₂ hcap ha (not_isolated_of_end hl h₁ h₂ hcap ha hend)).1 hend).2]
      exact link_root (h₂.link_le_self (h₁.base_resolve hbase₁ hcap)) _
    · refine (given_up hl h₁ h₂ hcap hiso fun q hq heq => hone q hq ?_).1
      exact (first_iff hl h₁ hcap hq).2 ⟨hs, heq.symm⟩

/-- The label 0 and the labels of the named starts before `r` are those below the label of `r`. -/
theorem inUse_below {r : P} (hr : Start nbrs pos l r) :
    {k | k < s₁.label r ∧ s₂.link k = k} =
      insert 0 (s₁.label '' {s | Start nbrs pos l s ∧ Named nbrs cap pos l s ∧ pos s < pos r}) := by
  have hbase₁ := base_unlabelled l
  have hrpos := h₁.label_pos hbase₁ hcap hr.1
  have hzero : s₂.link 0 = 0 := Nat.le_zero.1 (h₂.link_le_self (h₁.base_resolve hbase₁ hcap) 0)
  ext k
  rw [Set.mem_insert_iff, Set.mem_image]
  constructor
  · rintro ⟨hk, hfix⟩
    rcases Nat.eq_zero_or_pos k with rfl | hkpos
    · exact Or.inl rfl
    · obtain ⟨s, hs, rfl⟩ := exists_start_of_lt hl h₁ hcap hkpos (hk.trans (h₁.label_lt hbase₁ r))
      have hle := label_le_iff hl h₁ hcap r s hr hs
      exact Or.inr ⟨s, ⟨hs, (link_eq_iff_named hl h₁ h₂ hcap hs).1 hfix, by omega⟩, rfl⟩
  · rintro (rfl | ⟨s, ⟨hs, hnamed, hlt⟩, rfl⟩)
    · exact ⟨hrpos, hzero⟩
    · have hle := label_le_iff hl h₁ hcap r s hr hs
      exact ⟨by omega, (link_eq_iff_named hl h₁ h₂ hcap hs).2 hnamed⟩

/-- **The number of a label**: how many named starts come before its own, and one more. -/
theorem count_label [DecidablePred fun k => s₂.link k = k] {p r : P} (hp : p ∈ l) (hend : End nbrs cap pos l p r) :
    Nat.count (fun k => s₂.link k = k) ((resolve s₂).label p) =
      {s | Start nbrs pos l s ∧ Named nbrs cap pos l s ∧ pos s < pos r}.ncard + 1 := by
  obtain ⟨hkept, hlabel⟩ := (end_iff hl h₁ h₂ hcap hp (not_isolated_of_end hl h₁ h₂ hcap hp hend)).1 hend
  have hfinite : {s | Start nbrs pos l s ∧ Named nbrs cap pos l s ∧ pos s < pos r}.Finite :=
    (List.finite_toSet l).subset fun s hs => hs.1.1
  have hinj : Set.InjOn s₁.label {s | Start nbrs pos l s ∧ Named nbrs cap pos l s ∧ pos s < pos r} :=
    fun a ha b hb heq => start_eq hl h₁ hcap a b ha.1 hb.1 heq
  have hzero : 0 ∉ s₁.label '' {s | Start nbrs pos l s ∧ Named nbrs cap pos l s ∧ pos s < pos r} := by
    rintro ⟨s, hs, heq⟩
    have hpos := h₁.label_pos (base_unlabelled l) hcap hs.1.1
    omega
  have hset : {k | k < s₁.label r ∧ s₂.link k = k} =
      ((Finset.range (s₁.label r)).filter fun k => s₂.link k = k : Finset Nat) := by
    ext k
    simp
  rw [← hlabel, Nat.count_eq_card_filter_range, ← Set.ncard_coe_finset, ← hset, inUse_below hl h₁ h₂ hcap hkept.1,
    Set.ncard_insert_of_notMem hzero (hfinite.image _), hinj.ncard_image]

/-- A label other than 0 is there in the end. -/
theorem exists_inUse {p : P} (hiso : Isolated nbrs l p) : ∃ k, 0 < k ∧ k < s₁.next ∧ s₂.link k = k := by
  have hbase₁ := base_unlabelled l
  have hstart : Start nbrs pos l p := ⟨hiso.1, fun q hq hmem => absurd hmem (hiso.2 q hq)⟩
  by_cases hnamed : Named nbrs cap pos l p
  · exact ⟨s₁.label p, h₁.label_pos hbase₁ hcap hiso.1, h₁.label_lt hbase₁ p,
      (link_eq_iff_named hl h₁ h₂ hcap hstart).2 hnamed⟩
  · -- the first label of `p` has been given on, to an element that has an end
    obtain ⟨q, hq, hfirst, hne⟩ : ∃ q ∈ l, First nbrs cap pos l q p ∧ q ≠ p := by
      by_contra hnone
      push Not at hnone
      exact hnamed (Or.inr ⟨hiso, hnone⟩)
    have hlabel := ((first_iff hl h₁ hcap hq).1 hfirst).2
    have hiso' : ¬Isolated nbrs l q := fun hiso' => hne <| start_eq hl h₁ hcap q p
      ⟨hq, fun a ha hmem => absurd hmem (hiso'.2 a ha)⟩ hstart hlabel.symm
    obtain ⟨r, hend, -⟩ := exists_end hl h₁ h₂ hcap hq hiso'
    have hkept := ((end_iff hl h₁ h₂ hcap hq hiso').1 hend).1
    exact ⟨s₁.label r, h₁.label_pos hbase₁ hcap hkept.1.1, h₁.label_lt hbase₁ r,
      (link_eq_iff_named hl h₁ h₂ hcap hkept.1).2 (Or.inl ⟨q, hq, hend⟩)⟩

/-- The number of an isolated element is at least 2. -/
theorem count_label_isolated [DecidablePred fun k => s₂.link k = k] {p : P} (hiso : Isolated nbrs l p) :
    2 ≤ Nat.count (fun k => s₂.link k = k) ((resolve s₂).label p) := by
  obtain ⟨k, hpos, hlt, hfix⟩ := exists_inUse hl h₁ h₂ hcap hiso
  obtain ⟨hlabel, hnew⟩ := resolve_isolated hl h₁ h₂ hcap hiso
  have hzero : s₂.link 0 = 0 :=
    Nat.le_zero.1 (h₂.link_le_self (h₁.base_resolve (base_unlabelled l) hcap) 0)
  calc 2 = Nat.count (fun k => s₂.link k = k) 1 + 1 := by rw [Nat.count_one, if_pos hzero]
    _ ≤ Nat.count (fun k => s₂.link k = k) k + 1 := Nat.add_le_add_right (Nat.count_monotone _ hpos) 1
    _ = Nat.count (fun k => s₂.link k = k) (k + 1) := by rw [Nat.count_succ, if_pos hfix]
    _ ≤ Nat.count (fun k => s₂.link k = k) ((resolve s₂).label p) := Nat.count_monotone _ (by omega)

end LeftFelt.Lib
