import LeftFelt.Cluster.KMeans
import Mathlib.Algebra.BigOperators.Ring.Finset
import Mathlib.Data.Fintype.Card

/-!
# Memberships

`getMembership` compares the distance of a pattern to a centre with the least one. So a pattern is a member of every
cluster whose centre is a nearest one within the range of the search, and the memberships add up to 1 exactly if there is
one such cluster (`memberships_iff`). In a round of `classify` each cluster is asked at its turn, when the centres before
it have been moved already; a pattern is counted once if one cluster has a nearest centre at its turn.
-/

namespace LeftFelt.Cluster

open Lib Nearest

variable {K : Type} [Field K] [LinearOrder K] {cluster_size dimension_num : Nat}
  {middle : Fin cluster_size → Pattern K dimension_num} {pattern : Pattern K dimension_num} {i : Fin cluster_size}

/-- No centre is nearer, and the search finds it. -/
def IsNearest (middle : Fin cluster_size → Pattern K dimension_num) (pattern : Pattern K dimension_num)
    (i : Fin cluster_size) : Prop :=
  (∀ j, getDistance pattern (middle i) 2 ≤ getDistance pattern (middle j) 2) ∧
    getDistance pattern (middle i) 2 ≤ DBL_MAX

/-- **The memberships of a pattern form a partition.** -/
def IsPartition (middle : Fin cluster_size → Pattern K dimension_num) (pattern : Pattern K dimension_num) : Prop :=
  let membership := fun i => (KMeansClassifier K cluster_size dimension_num).getMembership middle i pattern
  (∀ i, membership i = 0 ∨ membership i = 1) ∧ ∑ i, membership i = 1

/-- The centres when it is the turn of a cluster in a round of `classify`. -/
def atTurn (pattern_list : List (Pattern K dimension_num)) (middle : Fin cluster_size → Pattern K dimension_num)
    (i : Fin cluster_size) : Fin cluster_size → Pattern K dimension_num :=
  ((List.finRange cluster_size).take i).foldl
    ((KMeansClassifier K cluster_size dimension_num).updateMiddle pattern_list) middle

/-- How often a round counts a pattern: what the pattern adds to `result`, over all clusters. -/
def counted (pattern_list : List (Pattern K dimension_num)) (middle : Fin cluster_size → Pattern K dimension_num)
    (pattern : Pattern K dimension_num) : K :=
  ∑ i, ((KMeansClassifier K cluster_size dimension_num).accumulate [pattern] (atTurn pattern_list middle i) i).2

/-! ## Members -/

/-- The distance that the search returns is that of the nearest centres. -/
theorem getDistance_eq_leastDistance :
    getDistance pattern (middle i) 2 = leastDistance middle pattern ↔ IsNearest middle pattern i := by
  obtain ⟨⟨hstart, hall⟩, hfound⟩ :=
    foldl_least (fun i => getDistance pattern (middle i) 2) (List.finRange cluster_size) DBL_MAX
  constructor
  · intro h
    rw [IsNearest, h]
    exact ⟨fun j => hall j (List.mem_finRange j), hstart⟩
  · rintro ⟨hle, hrange⟩
    refine le_antisymm ?_ (hall i (List.mem_finRange i))
    obtain heq | ⟨j, hj⟩ := hfound
    · exact hrange.trans_eq heq.symm
    · exact (hle j).trans_eq hj.symm

open Classical in
theorem getMembership_eq :
    (KMeansClassifier K cluster_size dimension_num).getMembership middle i pattern =
      if IsNearest middle pattern i then 1 else 0 :=
  if_congr getDistance_eq_leastDistance rfl rfl

/-- A pattern adds its membership. -/
theorem accumulate_singleton :
    ((KMeansClassifier K cluster_size dimension_num).accumulate [pattern] middle i).2 =
      (KMeansClassifier K cluster_size dimension_num).getMembership middle i pattern := by
  have hweight : (KMeansClassifier K cluster_size dimension_num).getWeight pattern = 1 := rfl
  simp only [Classifier.accumulate, List.foldl_cons, List.foldl_nil, zero_add, hweight, mul_one]

section Counting

variable [IsStrictOrderedRing K]

open Classical in
/-- Ones add up to 1 if there is one of them. -/
theorem sum_boole_eq_one {ι : Type} [Fintype ι] (p : ι → Prop) :
    ∑ i, (if p i then (1 : K) else 0) = 1 ↔ ∃! i, p i := by
  rw [Finset.sum_boole, Nat.cast_eq_one, Fintype.existsUnique_iff_card_one]

/-- **When the memberships form a partition**: one centre is the nearest, within the range of the search. A round of
`classify` counts a pattern once if this is so of one cluster at its turn. -/
theorem memberships_iff (pattern_list : List (Pattern K dimension_num))
    (middle : Fin cluster_size → Pattern K dimension_num) (pattern : Pattern K dimension_num) :
    (IsPartition middle pattern ↔ ∃! i, IsNearest middle pattern i) ∧
      (counted pattern_list middle pattern = 1 ↔ ∃! i, IsNearest (atTurn pattern_list middle i) pattern i) := by
  constructor
  · simp only [IsPartition, getMembership_eq, sum_boole_eq_one]
    refine and_iff_right fun i => ?_
    split_ifs
    · exact .inr rfl
    · exact .inl rfl
  · simp only [counted, accumulate_singleton, getMembership_eq, sum_boole_eq_one]

end Counting

theorem isPartition_line : IsPartition (K := ℚ) ![![0], ![4]] ![1] := by
  refine (memberships_iff [] ![![0], ![4]] ![1]).1.2 ?_
  unfold ExistsUnique IsNearest
  decide +kernel

/-- Two centres at the same place. -/
theorem not_memberships_same :
    ¬∀ (cluster_size dimension_num : Nat) (middle : Fin cluster_size → Pattern ℚ dimension_num)
      (pattern : Pattern ℚ dimension_num), 0 < cluster_size → IsPartition middle pattern := by
  intro h
  obtain ⟨-, hsum⟩ := h 2 1 ![![0], ![0]] ![0] (by decide)
  exact absurd hsum (by decide +kernel)

end LeftFelt.Cluster
