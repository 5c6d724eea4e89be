import LeftFelt.Lib.Nearest
import Mathlib.Algebra.Order.BigOperators.Group.List
import Mathlib.Tactic.Linarith

/-!
# Variance within and between two classes

The variance of the numbers in two classes is that within the classes plus that between them (`within_add_between`). So
if the same numbers are split in several ways, the ratio of the variance between the classes to that within them is the
larger the less the variance within them is (`ratio_le_iff`).
-/

namespace LeftFelt.Lib.Variance

variable {K : Type*} [Field K] {xs ys xs' ys' : List K}

/-- The mean. -/
def mean (xs : List K) : K := xs.sum / xs.length

/-- The squares around the mean, in sum: the variance is that by the number. -/
def variation (xs : List K) : K := (xs.map fun x => (x - mean xs) ^ 2).sum

/-- The variance within two classes. -/
def within (xs ys : List K) : K := (variation xs + variation ys) / (xs ++ ys).length

/-- The variance between two classes. -/
def between (xs ys : List K) : K :=
  (xs.length * (mean xs - mean (xs ++ ys)) ^ 2 + ys.length * (mean ys - mean (xs ++ ys)) ^ 2) / (xs ++ ys).length

theorem variation_perm (h : xs.Perm ys) : variation xs = variation ys := by
  have hmean : mean xs = mean ys := by rw [mean, mean, h.sum_eq, h.length_eq]
  rw [variation, variation, hmean]
  exact (h.map _).sum_eq

variable [LinearOrder K] [IsStrictOrderedRing K]

theorem sum_eq (xs : List K) : xs.sum = xs.length * mean xs := by
  cases xs with
  | nil => simp
  | cons x xs =>
    have hlength : ((x :: xs).length : K) ≠ 0 := Nat.cast_ne_zero.mpr (Nat.succ_ne_zero _)
    rw [mean, mul_div_cancel₀ _ hlength]

/-- The squares around any number. -/
theorem sum_squares_eq (xs : List K) (c : K) :
    (xs.map fun x => (x - c) ^ 2).sum = variation xs + xs.length * (mean xs - c) ^ 2 :=
  Nearest.sum_map_sub_sq_eq (sum_eq xs) c

theorem sum_squares_nonneg (xs : List K) (c : K) : 0 ≤ (xs.map fun x => (x - c) ^ 2).sum := by
  apply List.sum_nonneg
  simp only [List.mem_map, forall_exists_index, and_imp, forall_apply_eq_imp_iff₂]
  exact fun x _ => sq_nonneg _

theorem variation_nonneg (xs : List K) : 0 ≤ variation xs := sum_squares_nonneg xs (mean xs)

/-- The squares are least around the mean. -/
theorem variation_le (xs : List K) (c : K) : variation xs ≤ (xs.map fun x => (x - c) ^ 2).sum := by
  rw [sum_squares_eq]
  exact le_add_of_nonneg_right (mul_nonneg (Nat.cast_nonneg _) (sq_nonneg _))

theorem variation_const {c : K} (h : ∀ x ∈ xs, x = c) : variation xs = 0 := by
  refine le_antisymm ((variation_le xs c).trans_eq ?_) (variation_nonneg xs)
  have hzero : xs.map (fun x => (x - c) ^ 2) = xs.map fun _ => 0 :=
    List.map_congr_left fun x hx => by rw [h x hx, sub_self, zero_pow two_ne_zero]
  rw [hzero]
  simp

theorem within_nonneg (xs ys : List K) : 0 ≤ within xs ys :=
  div_nonneg (add_nonneg (variation_nonneg xs) (variation_nonneg ys)) (Nat.cast_nonneg _)

theorem between_nonneg (xs ys : List K) : 0 ≤ between xs ys := by
  refine div_nonneg (add_nonneg ?_ ?_) (Nat.cast_nonneg _)
  · exact mul_nonneg (Nat.cast_nonneg _) (sq_nonneg _)
  · exact mul_nonneg (Nat.cast_nonneg _) (sq_nonneg _)

/-- **The variance of two classes** is that within them and that between them. -/
theorem within_add_between (xs ys : List K) :
    within xs ys + between xs ys = variation (xs ++ ys) / (xs ++ ys).length := by
  have hsplit : variation (xs ++ ys) = (xs.map fun x => (x - mean (xs ++ ys)) ^ 2).sum +
      (ys.map fun y => (y - mean (xs ++ ys)) ^ 2).sum := by
    rw [variation, List.map_append, List.sum_append]
  rw [within, between, hsplit, sum_squares_eq, sum_squares_eq, ← add_div]
  ring

/-- **The best of several splits**: the ratios of the variances are compared without the division by zero. -/
theorem ratio_le_iff (h : (xs ++ ys).Perm (xs' ++ ys')) :
    between xs' ys' * within xs ys ≤ between xs ys * within xs' ys' ↔ within xs ys ≤ within xs' ys' := by
  have hsum := within_add_between xs ys
  have hsum' := within_add_between xs' ys'
  rw [← variation_perm h, ← h.length_eq] at hsum'
  have hall : 0 ≤ variation (xs ++ ys) / (xs ++ ys).length := div_nonneg (variation_nonneg _) (Nat.cast_nonneg _)
  rcases hall.eq_or_lt with hzero | hpos
  · -- all numbers are the same
    rw [← hzero] at hsum hsum'
    have hwithin := (add_eq_zero_iff_of_nonneg (within_nonneg xs ys) (between_nonneg xs ys)).1 hsum
    have hwithin' := (add_eq_zero_iff_of_nonneg (within_nonneg xs' ys') (between_nonneg xs' ys')).1 hsum'
    rw [hwithin.1, hwithin.2, hwithin'.1, hwithin'.2]
    simp
  · rw [eq_sub_of_add_eq' hsum, eq_sub_of_add_eq' hsum', sub_mul, sub_mul, mul_comm (within xs' ys') (within xs ys),
      sub_le_sub_iff_right]
    exact mul_le_mul_iff_right₀ hpos

end LeftFelt.Lib.Variance
