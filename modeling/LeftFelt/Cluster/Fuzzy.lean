import LeftFelt.Cluster.KMeans
import LeftFelt.Lib.Shares
import Mathlib.Algebra.BigOperators.Fin
import Mathlib.Data.Fin.VecNotation

/-!
# Fuzzy memberships

`fuzzyCMeansClassifier::getMembership` gives a pattern its share in each cluster. The power of the distance is
`-2/(fuzzy-1)`, a division of integers: it is -2 for the fuzziness 2, -1 for 3 and 0 from 4 on. And the power is
applied to the differences of the coordinates, not to the distance, so that the order of the shares is not that of the
distances, and with the power -1 the weights have any sign. `getMembership_iff` says for which patterns and centres the
memberships are what they are to be.

Numbers are exact. A difference of 0 has no negative power, and then there is no membership.
-/

namespace LeftFelt.Cluster

open Lib Shares

namespace FuzzyCMeans

section Source

variable {K : Type} [Field K] [LinearOrder K] {cluster_size dimension_num : Nat}

/-- `pow(x, power)`, for the powers that `getMembership` makes. -/
def pow (x : K) (power : Int) : Option K :=
  if x = 0 ∧ power < 0 then none else some (x ^ power)

/-- `Classifier::getDistance(p1, p2, power)`. -/
def getDistance (p1 p2 : Pattern K dimension_num) (power : Int) : Option K :=
  (List.finRange dimension_num).foldlM (fun result i => do return result + (← pow (p1 i - p2 i) power)) 0

/-- `-2/(this->fuzzy-1)`. -/
def power (fuzzy : Int) : Option Int :=
  if fuzzy - 1 = 0 then none else some (Int.tdiv (-2) (fuzzy - 1))

/-- `fuzzyCMeansClassifier::getMembership(num, pattern)`. -/
def getMembership (fuzzy : Int) (middle : Fin cluster_size → Pattern K dimension_num) (num : Fin cluster_size)
    (pattern : Pattern K dimension_num) : Option K := do
  let power ← power fuzzy
  let dis ← getDistance pattern (middle num) power
  let result ← (List.finRange cluster_size).foldlM
    (fun result i => do return result + (← getDistance pattern (middle i) power)) 0
  share dis result

end Source

/-! ## The loops -/

section Loops

variable {K : Type} [Field K]

/-- A loop that adds up numbers. -/
theorem foldlM_add {n : Nat} {f : Fin n → Option K} {g : Fin n → K} (h : ∀ i, f i = some (g i)) :
    (List.finRange n).foldlM (fun result i => do return result + (← f i)) 0 = some (∑ i, g i) := by
  have hloop : ∀ (is : List (Fin n)) (result : K),
      is.foldlM (fun result i => do return result + (← f i)) result = some (result + (is.map g).sum) := by
    intro is
    induction is with
    | nil => intro result; simp
    | cons i is ih =>
      intro result
      rw [List.foldlM_cons, h i]
      exact (ih _).trans (by rw [List.map_cons, List.sum_cons, add_assoc])
  rw [hloop, zero_add, Fin.sum_univ_def]

end Loops

/-! ## The weights -/

section Weights

variable {K : Type} [Field K] {cluster_size dimension_num : Nat}
  {middle : Fin cluster_size → Pattern K dimension_num} {pattern : Pattern K dimension_num}

/-- What a centre weighs. -/
def weight (middle : Fin cluster_size → Pattern K dimension_num) (pattern : Pattern K dimension_num) (power : Int)
    (i : Fin cluster_size) : K :=
  ∑ k, (pattern k - middle i k) ^ power

theorem weight_zero (i : Fin cluster_size) : weight middle pattern 0 i = dimension_num := by
  simp [weight]

theorem weight_neg_one (i : Fin cluster_size) : weight middle pattern (-1) i = ∑ k, (pattern k - middle i k)⁻¹ := by
  simp [weight]

theorem weight_neg_two (i : Fin cluster_size) :
    weight middle pattern (-2) i = ∑ k, ((pattern k - middle i k) ^ 2)⁻¹ :=
  Finset.sum_congr rfl fun k _ => zpow_neg_coe_of_pos (pattern k - middle i k) two_pos

/-- Without coordinates nothing weighs anything. -/
theorem dimension_pos {p : Int} {i : Fin cluster_size} (h : weight middle pattern p i ≠ 0) : 0 < dimension_num := by
  refine Nat.pos_of_ne_zero fun hzero => h ?_
  subst hzero
  rfl

variable [LinearOrder K]

/-- For powers that are not negative this is the distance of the other classifier. -/
theorem getDistance_natCast (p1 p2 : Pattern K dimension_num) (power : Nat) :
    getDistance p1 p2 power = some (Cluster.getDistance p1 p2 power) :=
  foldlM_add fun i => by simp [pow]

theorem getDistance_eq (h : ∀ i k, middle i k ≠ pattern k) (power : Int) (i : Fin cluster_size) :
    getDistance pattern (middle i) power = some (weight middle pattern power i) :=
  foldlM_add fun k => if_neg fun hzero => h i k (sub_eq_zero.1 hzero.1).symm

/-- **A membership** is the share of its centre. -/
theorem getMembership_eq {fuzzy p : Int} (hpower : power fuzzy = some p) (h : ∀ i k, middle i k ≠ pattern k) :
    (fun i => getMembership fuzzy middle i pattern) =
      fun i => share (weight middle pattern p i) (∑ i, weight middle pattern p i) := by
  funext i
  have hsum := foldlM_add (getDistance_eq h p)
  simp only [getMembership, hpower, Option.bind_eq_bind, Option.bind_some, getDistance_eq h] at hsum ⊢
  rw [hsum, Option.bind_some]

end Weights

/-! ## The powers -/

theorem power_of_four_le {fuzzy : Int} (h : 4 ≤ fuzzy) : power fuzzy = some 0 := by
  rw [power, if_neg (by omega), Int.neg_tdiv, Int.tdiv_eq_zero_of_lt (by decide) (by omega), Int.neg_zero]

variable {K : Type} [Field K] [LinearOrder K] {cluster_size dimension_num : Nat}
  {middle : Fin cluster_size → Pattern K dimension_num} {pattern : Pattern K dimension_num}

/-- A centre is strictly nearer to the pattern. -/
def Nearer (middle : Fin cluster_size → Pattern K dimension_num) (pattern : Pattern K dimension_num)
    (i j : Fin cluster_size) : Prop :=
  Cluster.getDistance pattern (middle i) 2 < Cluster.getDistance pattern (middle j) 2

variable [IsStrictOrderedRing K]

theorem weight_neg_two_pos (hdimension : 0 < dimension_num) (h : ∀ i k, middle i k ≠ pattern k)
    (i : Fin cluster_size) : 0 < weight middle pattern (-2) i := by
  have : Nonempty (Fin dimension_num) := ⟨⟨0, hdimension⟩⟩
  rw [weight_neg_two]
  refine Finset.sum_pos (fun k _ => inv_pos.2 ?_) Finset.univ_nonempty
  exact sq_pos_of_ne_zero (sub_ne_zero.2 (h i k).symm)

theorem weight_neg_two_nonneg (i : Fin cluster_size) : 0 ≤ weight middle pattern (-2) i := by
  rw [weight_neg_two]
  exact Finset.sum_nonneg fun k _ => inv_nonneg.2 (sq_nonneg _)

theorem abs_weight_neg_two (i : Fin cluster_size) : |weight middle pattern (-2) i| = weight middle pattern (-2) i :=
  abs_of_nonneg (weight_neg_two_nonneg i)

/-! ## When they are a convex weighting -/

/-- The fuzziness 2: squares have one sign. -/
theorem isConvex_two (h : ∀ i k, middle i k ≠ pattern k) :
    IsConvex (fun i => getMembership 2 middle i pattern) (Nearer middle pattern) ↔
      0 < cluster_size ∧ 0 < dimension_num ∧ ∀ i j, Nearer middle pattern i j →
        ∑ k, ((pattern k - middle j k) ^ 2)⁻¹ ≤ ∑ k, ((pattern k - middle i k) ^ 2)⁻¹ := by
  rw [getMembership_eq (p := -2) rfl h, isConvex_iff]
  simp only [abs_weight_neg_two, weight_neg_two_nonneg, implies_true, true_or, true_and]
  simp only [← weight_neg_two]
  constructor
  · rintro ⟨⟨i, hi⟩, horder⟩
    exact ⟨i.pos, dimension_pos hi, horder⟩
  · rintro ⟨hsize, hdimension, horder⟩
    exact ⟨⟨⟨0, hsize⟩, (weight_neg_two_pos hdimension h _).ne'⟩, horder⟩

/-- The fuzziness 3: the signs of the differences decide. -/
theorem isConvex_three (h : ∀ i k, middle i k ≠ pattern k) :
    IsConvex (fun i => getMembership 3 middle i pattern) (Nearer middle pattern) ↔
      (∃ i, ∑ k, (pattern k - middle i k)⁻¹ ≠ 0) ∧
      ((∀ i, 0 ≤ ∑ k, (pattern k - middle i k)⁻¹) ∨ ∀ i, ∑ k, (pattern k - middle i k)⁻¹ ≤ 0) ∧
      ∀ i j, Nearer middle pattern i j → |∑ k, (pattern k - middle j k)⁻¹| ≤ |∑ k, (pattern k - middle i k)⁻¹| := by
  rw [getMembership_eq (p := -1) rfl h, isConvex_iff]
  simp only [weight_neg_one]

/-- From the fuzziness 4 on all centres weigh the same. -/
theorem isConvex_of_four_le {fuzzy : Int} (hfuzzy : 4 ≤ fuzzy) (h : ∀ i k, middle i k ≠ pattern k) :
    IsConvex (fun i => getMembership fuzzy middle i pattern) (Nearer middle pattern) ↔
      0 < cluster_size ∧ 0 < dimension_num := by
  rw [getMembership_eq (power_of_four_le hfuzzy) h, isConvex_iff]
  simp only [weight_zero, Nat.cast_nonneg, implies_true, true_or, le_refl, and_true]
  constructor
  · rintro ⟨i, hi⟩
    exact ⟨i.pos, Nat.pos_of_ne_zero (Nat.cast_ne_zero.1 hi)⟩
  · rintro ⟨hsize, hdimension⟩
    exact ⟨⟨0, hsize⟩, Nat.cast_ne_zero.2 hdimension.ne'⟩

/-- **When the memberships are a convex weighting** in which a nearer centre has at least as large a membership. -/
theorem getMembership_iff {fuzzy : Int} (hfuzzy : 2 ≤ fuzzy) (h : ∀ i k, middle i k ≠ pattern k) :
    IsConvex (fun i => getMembership fuzzy middle i pattern) (Nearer middle pattern) ↔
      0 < cluster_size ∧ 0 < dimension_num ∧
      (fuzzy = 2 → ∀ i j, Nearer middle pattern i j →
        ∑ k, ((pattern k - middle j k) ^ 2)⁻¹ ≤ ∑ k, ((pattern k - middle i k) ^ 2)⁻¹) ∧
      (fuzzy = 3 → (∃ i, ∑ k, (pattern k - middle i k)⁻¹ ≠ 0) ∧
        ((∀ i, 0 ≤ ∑ k, (pattern k - middle i k)⁻¹) ∨ ∀ i, ∑ k, (pattern k - middle i k)⁻¹ ≤ 0) ∧
        ∀ i j, Nearer middle pattern i j →
          |∑ k, (pattern k - middle j k)⁻¹| ≤ |∑ k, (pattern k - middle i k)⁻¹|) := by
  obtain rfl | rfl | hfour : fuzzy = 2 ∨ fuzzy = 3 ∨ 4 ≤ fuzzy := by omega
  · rw [isConvex_two h]
    simp
  · rw [isConvex_three h]
    refine ⟨fun hthree => ?_, fun ⟨_, _, _, hthree⟩ => hthree rfl⟩
    obtain ⟨i, hi⟩ := hthree.1
    rw [← weight_neg_one] at hi
    exact ⟨i.pos, dimension_pos hi, fun htwo => absurd htwo (by decide), fun _ => hthree⟩
  · rw [isConvex_of_four_le hfour h]
    exact ⟨fun ⟨hsize, hdimension⟩ => ⟨hsize, hdimension, fun _ => by omega, fun _ => by omega⟩,
      fun ⟨hsize, hdimension, _⟩ => ⟨hsize, hdimension⟩⟩

/-- On a line the squares and the distances are the same. -/
theorem isConvex_line :
    IsConvex (fun i => getMembership 2 (![![0], ![4]] : Fin 2 → Pattern ℚ 1) i ![1])
      (Nearer (K := ℚ) ![![0], ![4]] ![1]) := by
  refine (getMembership_iff (by decide) (by decide +kernel)).2 ⟨by decide, by decide, fun _ => ?_, fun h => ?_⟩
  · unfold Nearer
    decide +kernel
  · exact absurd h (by decide)

/-- A centre that is far away in one coordinate, and very near in the other one. -/
theorem not_isConvex_far :
    ¬∀ (cluster_size dimension_num : Nat) (fuzzy : Int) (middle : Fin cluster_size → Pattern ℚ dimension_num)
      (pattern : Pattern ℚ dimension_num), 0 < cluster_size → 0 < dimension_num → 2 ≤ fuzzy →
      (∀ i k, middle i k ≠ pattern k) →
      IsConvex (fun i => getMembership fuzzy middle i pattern) (Nearer middle pattern) := by
  intro h
  have hdiffer : ∀ i k, (![![1, 1], ![1 / 2, 10]] : Fin 2 → Pattern ℚ 2) i k ≠ (![0, 0] : Pattern ℚ 2) k := by
    decide +kernel
  obtain ⟨-, -, horder⟩ := (isConvex_two hdiffer).1 (h 2 2 2 _ _ (by decide) (by decide) (by decide) hdiffer)
  have hnearer : Nearer (![![1, 1], ![1 / 2, 10]] : Fin 2 → Pattern ℚ 2) ![0, 0] 0 1 := by
    unfold Nearer
    decide +kernel
  exact absurd (horder 0 1 hnearer) (by decide +kernel)

end FuzzyCMeans
end LeftFelt.Cluster
