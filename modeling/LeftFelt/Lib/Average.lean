import Mathlib.Analysis.Convex.Basic

/-!
# Weighted averages

A loop adds points with their weights, and the weights. If no weight is negative, the quotient lies in every convex set
that the points lie in (`average_mem`).
-/

namespace LeftFelt.Lib.Average

variable {K E ι : Type*} [Field K] [LinearOrder K] [IsStrictOrderedRing K] [AddCommGroup E] [Module K E] {s : Set E}

/-- One point more. -/
def add (weight : ι → K) (point : ι → E) (r : E × K) (i : ι) : E × K := (r.1 + weight i • point i, r.2 + weight i)

/-- Nothing has been added, or the quotient lies in the set. -/
structure Averages (s : Set E) (r : E × K) : Prop where
  nonneg : 0 ≤ r.2
  empty : r.2 = 0 → r.1 = 0
  mem : 0 < r.2 → r.2⁻¹ • r.1 ∈ s

omit [IsStrictOrderedRing K] in
theorem averages_zero : Averages s ((0, 0) : E × K) := ⟨le_rfl, fun _ => rfl, fun h => absurd h (lt_irrefl 0)⟩

theorem averages_add (hs : Convex K s) {weight : ι → K} {point : ι → E} {r : E × K} (h : Averages s r) {i : ι}
    (hweight : 0 ≤ weight i) (hpoint : point i ∈ s) : Averages s (add weight point r i) := by
  rcases hweight.eq_or_lt with hzero | hpos
  · have hsame : add weight point r i = r := by rw [add, ← hzero, zero_smul, add_zero, add_zero]
    rwa [hsame]
  · have hsum : 0 < r.2 + weight i := add_pos_of_nonneg_of_pos h.nonneg hpos
    refine ⟨hsum.le, fun hempty => absurd hempty hsum.ne', fun _ => ?_⟩
    show (r.2 + weight i)⁻¹ • (r.1 + weight i • point i) ∈ s
    rcases h.nonneg.eq_or_lt with hr | hr
    · rw [h.empty hr.symm, ← hr, zero_add, zero_add, inv_smul_smul₀ hpos.ne']
      exact hpoint
    · have hsplit : (r.2 + weight i)⁻¹ • (r.1 + weight i • point i) =
          (r.2 / (r.2 + weight i)) • (r.2⁻¹ • r.1) + (weight i / (r.2 + weight i)) • point i := by
        rw [smul_add, smul_smul, smul_smul, div_mul_eq_mul_div, mul_inv_cancel₀ hr.ne', one_div, div_eq_inv_mul]
      rw [hsplit]
      refine hs (h.mem hr) hpoint (div_nonneg hr.le hsum.le) (div_nonneg hpos.le hsum.le) ?_
      rw [← add_div, div_self hsum.ne']

/-- **The quotient lies where the points lie.** -/
theorem average_mem (hs : Convex K s) {weight : ι → K} {point : ι → E} {l : List ι} (hweight : ∀ i ∈ l, 0 ≤ weight i)
    (hpoint : ∀ i ∈ l, point i ∈ s) (hne : (l.foldl (add weight point) (0, 0)).2 ≠ 0) :
    (l.foldl (add weight point) (0, 0)).2⁻¹ • (l.foldl (add weight point) (0, 0)).1 ∈ s := by
  have h : Averages s (l.foldl (add weight point) (0, 0)) :=
    List.foldlRecOn l _ averages_zero fun r hr i hi => averages_add hs hr (hweight i hi) (hpoint i hi)
  exact h.mem (lt_of_le_of_ne h.nonneg (Ne.symm hne))

end LeftFelt.Lib.Average
