import Mathlib.Algebra.BigOperators.Field
import Mathlib.Algebra.Order.BigOperators.Group.Finset
import Mathlib.Algebra.Order.Field.Basic

/-!
# Shares

Of finitely many weights each has a share in their sum, and a negative share counts as 0. The shares are a convex
weighting if the weights have one sign and are not all zero, and only then; the order of the shares is that of the sizes
of the weights (`isConvex_iff`).
-/

namespace LeftFelt.Lib.Shares

variable {ι K : Type*} [Field K] [LinearOrder K]

/-- The share of a weight in a sum, if it is a number. -/
def share (w sum : K) : Option K :=
  if sum = 0 then none else
  let result := w / sum
  some (if result < 0 then 0 else result)

theorem share_of_ne_zero {sum : K} (h : sum ≠ 0) (w : K) : share w sum = some (max (w / sum) 0) := by
  rw [share, if_neg h]
  obtain hneg | hnonneg := lt_or_ge (w / sum) 0
  · simp only [if_pos hneg, max_eq_right hneg.le]
  · simp only [if_neg hnonneg.not_gt, max_eq_left hnonneg]

variable [Fintype ι]

/-- **A convex weighting**: all shares are numbers, none is negative, their sum is 1, and what comes before has at least
as large a share. -/
def IsConvex (m : ι → Option K) (before : ι → ι → Prop) : Prop :=
  ∃ v : ι → K, (∀ i, m i = some (v i)) ∧ (∀ i, 0 ≤ v i) ∧ ∑ i, v i = 1 ∧ ∀ i j, before i j → v j ≤ v i

section Order

variable [IsStrictOrderedRing K] {w : ι → K}

/-- Nothing is cut off from shares that add up to 1 in the end. -/
theorem share_nonneg_of_sum_eq_one (hsum : ∑ i, w i ≠ 0) (h : ∑ i, max (w i / ∑ i, w i) 0 = 1) (i : ι) :
    0 ≤ w i / ∑ i, w i := by
  have hexact : ∑ i, w i / ∑ i, w i = 1 := by rw [← Finset.sum_div, div_self hsum]
  have hcut := (Finset.sum_eq_sum_iff_of_le fun i _ => le_max_left (w i / ∑ i, w i) 0).1 (hexact.trans h.symm)
  exact max_eq_left_iff.1 (hcut i (Finset.mem_univ i)).symm

/-- Weights of one sign have shares that are not negative. -/
theorem share_nonneg_iff (hsum : ∑ i, w i ≠ 0) :
    (∀ i, 0 ≤ w i / ∑ i, w i) ↔ (∀ i, 0 ≤ w i) ∨ ∀ i, w i ≤ 0 := by
  constructor
  · intro h
    obtain hneg | hpos := lt_or_gt_of_ne hsum
    · exact .inr fun i => by simpa using (le_div_iff_of_neg hneg).1 (h i)
    · exact .inl fun i => by simpa using (le_div_iff₀ hpos).1 (h i)
  · rintro (h | h) i
    · exact div_nonneg (h i) (Finset.sum_nonneg fun i _ => h i)
    · exact div_nonneg_of_nonpos (h i) (Finset.sum_nonpos fun i _ => h i)

/-- Weights of one sign have no sum only if all are zero. -/
theorem sum_ne_zero_iff (h : (∀ i, 0 ≤ w i) ∨ ∀ i, w i ≤ 0) : ∑ i, w i ≠ 0 ↔ ∃ i, w i ≠ 0 := by
  rw [← not_forall, Ne, not_iff_not]
  obtain h | h := h
  · simpa using Finset.sum_eq_zero_iff_of_nonneg (s := Finset.univ) fun i _ => h i
  · simpa using Finset.sum_eq_zero_iff_of_nonpos (s := Finset.univ) fun i _ => h i

/-- Shares that are not negative are ordered by size. -/
theorem share_le_iff (hsum : ∑ i, w i ≠ 0) (h : ∀ i, 0 ≤ w i / ∑ i, w i) (i j : ι) :
    w j / ∑ i, w i ≤ w i / ∑ i, w i ↔ |w j| ≤ |w i| := by
  rw [← abs_of_nonneg (h i), ← abs_of_nonneg (h j), abs_div, abs_div, div_le_div_iff_of_pos_right (abs_pos.2 hsum)]

/-- **When the shares are a convex weighting.** -/
theorem isConvex_iff (w : ι → K) (before : ι → ι → Prop) :
    IsConvex (fun i => share (w i) (∑ i, w i)) before ↔
      (∃ i, w i ≠ 0) ∧ ((∀ i, 0 ≤ w i) ∨ ∀ i, w i ≤ 0) ∧ ∀ i j, before i j → |w j| ≤ |w i| := by
  constructor
  · rintro ⟨v, hv, -, hone, horder⟩
    have hsum : ∑ i, w i ≠ 0 := by
      intro hzero
      -- then no share is a number, and there is nothing that adds up to 1
      have hnone : ∀ i, False := fun i => by simpa [share, hzero] using hv i
      rw [Finset.sum_eq_zero fun i _ => (hnone i).elim] at hone
      exact zero_ne_one hone
    have hmax : v = fun i => max (w i / ∑ i, w i) 0 :=
      funext fun i => Option.some_inj.1 ((hv i).symm.trans (share_of_ne_zero hsum (w i)))
    subst hmax
    have hnonneg := share_nonneg_of_sum_eq_one hsum hone
    have hsign := (share_nonneg_iff hsum).1 hnonneg
    refine ⟨(sum_ne_zero_iff hsign).1 hsum, hsign, fun i j hij => (share_le_iff hsum hnonneg i j).1 ?_⟩
    have hle : max (w j / ∑ i, w i) 0 ≤ max (w i / ∑ i, w i) 0 := horder i j hij
    rwa [max_eq_left (hnonneg i), max_eq_left (hnonneg j)] at hle
  · rintro ⟨hsome, hsign, horder⟩
    have hsum := (sum_ne_zero_iff hsign).2 hsome
    have hnonneg := (share_nonneg_iff hsum).2 hsign
    refine ⟨fun i => w i / ∑ i, w i, fun i => ?_, hnonneg, ?_, fun i j hij => ?_⟩
    · exact (share_of_ne_zero hsum (w i)).trans (congrArg some (max_eq_left (hnonneg i)))
    · rw [← Finset.sum_div, div_self hsum]
    · exact (share_le_iff hsum hnonneg i j).2 (horder i j hij)

end Order

end LeftFelt.Lib.Shares
