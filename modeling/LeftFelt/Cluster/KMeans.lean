import LeftFelt.Lib.Nearest
import Mathlib.Algebra.BigOperators.Pi
import Mathlib.Algebra.Module.Pi
import Mathlib.Algebra.Order.Field.Rat
import Mathlib.Data.Fin.VecNotation

/-!
# The k-means classifier

`Classifier::classify` moves the centres of the clusters one after the other, each to the mean of its members, for a
number of rounds. For `KMeansClassifier` the members are the patterns that no other centre is nearer to: of the centres
that a pattern is equally near to, it is a member of each, and a cluster without members keeps its centre. Since the
centres are moved in place, the members of a cluster are found among the centres that have been moved already.

Numbers are exact. The least distance is searched from `DBL_MAX` on, so that a pattern that is farther than this from
every centre is a member of no cluster. As long as there is no such pattern, no update makes the distances to the
nearest centres larger in sum (`kmeans_descent`).
-/

namespace LeftFelt.Cluster

open Lib Nearest

variable {K : Type} [Field K] [LinearOrder K] {cluster_size dimension_num : Nat}

/-- `Pattern`, with as many values as the setting says. -/
abbrev Pattern (K : Type) (dimension_num : Nat) := Fin dimension_num → K

/-- `DBL_MAX`. -/
def DBL_MAX : K := ((2 ^ 53 - 1) * 2 ^ 971 : Nat)

/-- `getDistance(p1, p2, power)`. -/
def getDistance (p1 p2 : Pattern K dimension_num) (power : Nat) : K := ∑ i, (p1 i - p2 i) ^ power

/-! ## The classifier -/

/-- `Classifier`: the methods that its subclasses define, for the centres as they are. -/
structure Classifier (K : Type) (cluster_size dimension_num : Nat) where
  getMembership : (Fin cluster_size → Pattern K dimension_num) → Fin cluster_size → Pattern K dimension_num → K
  getWeight : Pattern K dimension_num → K

namespace Classifier

variable (c : Classifier K cluster_size dimension_num) (pattern_list : List (Pattern K dimension_num))

/-- `result_pattern` and `result`, after the loop over the patterns. -/
def accumulate (middle : Fin cluster_size → Pattern K dimension_num) (i : Fin cluster_size) :
    Pattern K dimension_num × K :=
  pattern_list.foldl (fun r pattern =>
    (r.1 + (c.getMembership middle i pattern * c.getWeight pattern) • pattern,
      r.2 + c.getMembership middle i pattern * c.getWeight pattern)) (0, 0)

/-- The update of one centre. -/
def updateMiddle (middle : Fin cluster_size → Pattern K dimension_num) (i : Fin cluster_size) :
    Fin cluster_size → Pattern K dimension_num :=
  let r := c.accumulate pattern_list middle i
  Function.update middle i (if r.2 ≠ 0 then fun j => r.1 j / r.2 else middle i)

/-- `classify(pattern_list)`, from the centres that `initialize` has made. -/
def classify (learn_num : Nat) (middle : Fin cluster_size → Pattern K dimension_num) :
    Fin cluster_size → Pattern K dimension_num :=
  (fun middle => (List.finRange cluster_size).foldl (c.updateMiddle pattern_list) middle)^[learn_num] middle

/-- The centres that are updated, in order. -/
def schedule (cluster_size learn_num : Nat) : List (Fin cluster_size) :=
  (List.replicate learn_num (List.finRange cluster_size)).flatten

/-- The centres after the first updates. -/
def afterUpdates (learn_num : Nat) (middle : Fin cluster_size → Pattern K dimension_num) (k : Nat) :
    Fin cluster_size → Pattern K dimension_num :=
  ((schedule cluster_size learn_num).take k).foldl (c.updateMiddle pattern_list) middle

theorem length_schedule (cluster_size learn_num : Nat) :
    (schedule cluster_size learn_num).length = learn_num * cluster_size := by
  simp [schedule, List.length_flatten]

/-- The two loops are one, over the schedule. -/
theorem classify_eq_foldl (learn_num : Nat) (middle : Fin cluster_size → Pattern K dimension_num) :
    c.classify pattern_list learn_num middle =
      (schedule cluster_size learn_num).foldl (c.updateMiddle pattern_list) middle := by
  induction learn_num generalizing middle with
  | zero => rfl
  | succ learn_num ih =>
    rw [classify, Function.iterate_succ_apply, schedule, List.replicate_succ, List.flatten_cons, List.foldl_append]
    exact ih _

/-- One more update. -/
theorem afterUpdates_succ {learn_num k : Nat} (hk : k < learn_num * cluster_size)
    (middle : Fin cluster_size → Pattern K dimension_num) :
    ∃ i, c.afterUpdates pattern_list learn_num middle (k + 1) =
      c.updateMiddle pattern_list (c.afterUpdates pattern_list learn_num middle k) i := by
  rw [← length_schedule] at hk
  refine ⟨(schedule cluster_size learn_num)[k], ?_⟩
  rw [afterUpdates, List.take_succ_eq_append_getElem hk, List.foldl_concat, afterUpdates]

end Classifier

/-! ## The k-means classifier -/

/-- The loop of `getMembership`: the least distance, from `DBL_MAX` on. -/
def leastDistance (middle : Fin cluster_size → Pattern K dimension_num) (pattern : Pattern K dimension_num) : K :=
  (List.finRange cluster_size).foldl (fun min i =>
    let dis := getDistance pattern (middle i) 2
    if dis < min then dis else min) DBL_MAX

/-- `KMeansClassifier`. -/
def KMeansClassifier (K : Type) [Field K] [LinearOrder K] (cluster_size dimension_num : Nat) :
    Classifier K cluster_size dimension_num where
  getMembership middle num pattern :=
    if getDistance pattern (middle num) 2 = leastDistance middle pattern then 1 else 0
  getWeight _ := 1

/-- The squared distances of the patterns to their nearest centres, in sum. -/
def nearestSum (pattern_list : List (Pattern K dimension_num)) (middle : Fin cluster_size → Pattern K dimension_num) :
    K :=
  cost (getDistance · · 2) pattern_list middle

/-- No pattern is farther than `DBL_MAX` from every centre. -/
def WithinRange (pattern_list : List (Pattern K dimension_num))
    (middle : Fin cluster_size → Pattern K dimension_num) : Prop :=
  ∀ pattern ∈ pattern_list, ∃ i, getDistance pattern (middle i) 2 ≤ DBL_MAX

/-! ## One update -/

section Members

variable {middle : Fin cluster_size → Pattern K dimension_num} {pattern : Pattern K dimension_num}

/-- Within the range, the loop finds the distance to the nearest centre. -/
theorem leastDistance_eq {i : Fin cluster_size} (hi : getDistance pattern (middle i) 2 ≤ DBL_MAX) :
    leastDistance middle pattern = nearest (getDistance · · 2) middle pattern := by
  obtain ⟨⟨hstart, hall⟩, hfound⟩ :=
    foldl_least (fun i => getDistance pattern (middle i) 2) (List.finRange cluster_size) DBL_MAX
  obtain ⟨⟨j, hj⟩, hle⟩ := nearest_spec (getDistance · · 2) middle pattern i
  refine le_antisymm ?_ ?_
  · rw [← hj]
    exact hall j (List.mem_finRange j)
  · obtain heq | ⟨k, hk⟩ := hfound
    · exact (hle.trans hi).trans_eq heq.symm
    · exact (nearest_le _ middle pattern k).trans_eq hk.symm

end Members

section Update

variable (pattern_list : List (Pattern K dimension_num)) (middle : Fin cluster_size → Pattern K dimension_num)
  (i : Fin cluster_size)

/-- The members of a cluster. -/
def members : List (Pattern K dimension_num) :=
  pattern_list.filter fun pattern => getDistance pattern (middle i) 2 = leastDistance middle pattern

/-- The loop sums the members up and counts them. -/
theorem accumulate_eq :
    (KMeansClassifier K cluster_size dimension_num).accumulate pattern_list middle i =
      ((members pattern_list middle i).sum, ((members pattern_list middle i).length : K)) := by
  have hfold : ∀ (l : List (Pattern K dimension_num)) (r : Pattern K dimension_num × K),
      l.foldl (fun r pattern =>
        (r.1 + ((KMeansClassifier K cluster_size dimension_num).getMembership middle i pattern *
            (KMeansClassifier K cluster_size dimension_num).getWeight pattern) • pattern,
          r.2 + (KMeansClassifier K cluster_size dimension_num).getMembership middle i pattern *
            (KMeansClassifier K cluster_size dimension_num).getWeight pattern)) r =
        (r.1 + (members l middle i).sum, r.2 + ((members l middle i).length : K)) := by
    intro l
    induction l with
    | nil => simp [members]
    | cons pattern l ih =>
      intro r
      rw [List.foldl_cons, ih]
      by_cases h : getDistance pattern (middle i) 2 = leastDistance middle pattern
      · simp [members, KMeansClassifier, h, add_assoc, add_comm (1 : K)]
      · simp [members, KMeansClassifier, h]
  rw [Classifier.accumulate, hfold, zero_add, zero_add]

/-- **An update moves a centre to the mean of its members**, if there are any. -/
theorem updateMiddle_eq [IsStrictOrderedRing K] :
    (KMeansClassifier K cluster_size dimension_num).updateMiddle pattern_list middle i =
      Function.update middle i
        (if members pattern_list middle i = [] then middle i else mean (members pattern_list middle i)) := by
  rw [Classifier.updateMiddle, accumulate_eq]
  congr 1
  by_cases h : members pattern_list middle i = []
  · simp [h]
  · have hlength : ((members pattern_list middle i).length : K) ≠ 0 :=
      Nat.cast_ne_zero.mpr (List.length_pos_iff.mpr h).ne'
    rw [if_pos hlength, if_neg h]
    funext j
    exact congrArg (· / ((members pattern_list middle i).length : K)) (Pi.list_sum_apply j _)

variable {pattern_list middle i}

/-- **One update**: the distances to the nearest centres do not get larger in sum. -/
theorem nearestSum_updateMiddle_le [IsStrictOrderedRing K] (h : WithinRange pattern_list middle) :
    nearestSum pattern_list ((KMeansClassifier K cluster_size dimension_num).updateMiddle pattern_list middle i) ≤
      nearestSum pattern_list middle := by
  rw [updateMiddle_eq]
  by_cases hempty : members pattern_list middle i = []
  · rw [if_pos hempty, Function.update_eq_self]
  · rw [if_neg hempty]
    have hmember : ∀ pattern ∈ pattern_list, getDistance pattern (middle i) 2 = leastDistance middle pattern ↔
        getDistance pattern (middle i) 2 = nearest (fun pattern m => getDistance pattern m 2) middle pattern := by
      intro pattern hpattern
      obtain ⟨k, hk⟩ := h pattern hpattern
      rw [leastDistance_eq hk]
    exact cost_update_le hmember (sum_sqDist_mean_le (members pattern_list middle i) (middle i))

end Update

/-! ## Runs -/

/-- **K-means descent**: no update makes the squared distances to the nearest centres larger in sum while every pattern
is within the range of a centre; nor does a run of such updates. -/
theorem kmeans_descent [IsStrictOrderedRing K] (pattern_list : List (Pattern K dimension_num)) (learn_num : Nat)
    (middle : Fin cluster_size → Pattern K dimension_num) :
    let c := KMeansClassifier K cluster_size dimension_num
    let after := c.afterUpdates pattern_list learn_num middle
    (∀ k < learn_num * cluster_size, WithinRange pattern_list (after k) →
      nearestSum pattern_list (after (k + 1)) ≤ nearestSum pattern_list (after k)) ∧
    ((∀ k < learn_num * cluster_size, WithinRange pattern_list (after k)) →
      nearestSum pattern_list (c.classify pattern_list learn_num middle) ≤ nearestSum pattern_list middle) := by
  intro c after
  have hstep : ∀ k < learn_num * cluster_size, WithinRange pattern_list (after k) →
      nearestSum pattern_list (after (k + 1)) ≤ nearestSum pattern_list (after k) := by
    intro k hk hrange
    obtain ⟨i, hi⟩ := c.afterUpdates_succ pattern_list hk middle
    have hnext : after (k + 1) = c.updateMiddle pattern_list (after k) i := hi
    rw [hnext]
    exact nearestSum_updateMiddle_le hrange
  refine ⟨hstep, fun hrange => ?_⟩
  have hrun : ∀ k ≤ learn_num * cluster_size, nearestSum pattern_list (after k) ≤ nearestSum pattern_list middle := by
    intro k hk
    induction k with
    | zero => exact le_rfl
    | succ k ih => exact (hstep k hk (hrange k hk)).trans (ih (Nat.le_of_succ_le hk))
  have hall : after (learn_num * cluster_size) = c.classify pattern_list learn_num middle := by
    rw [c.classify_eq_foldl, ← Classifier.length_schedule]
    exact congrArg (List.foldl _ middle) List.take_length
  rw [← hall]
  exact hrun _ le_rfl

/-- Three patterns and two centres on a line. -/
def line : List (Pattern ℚ 1) := [![0], ![1], ![5]]

theorem kmeans_descent_line :
    nearestSum line ((KMeansClassifier ℚ 2 1).classify line 1 ![![0], ![4]]) ≤ nearestSum line ![![0], ![4]] := by
  refine (kmeans_descent line 1 ![![0], ![4]]).2 ?_
  unfold WithinRange
  decide +kernel

/-- Two patterns, one of them out of the range of every centre. -/
def farApart : List (Pattern ℚ 1) := [![(2 ^ 600 : Nat)], ![-1]]

/-- The pattern that is near takes the centre away from the one that is far. -/
theorem not_kmeans_descent_farApart :
    ¬∀ (cluster_size dimension_num : Nat) (pattern_list : List (Pattern ℚ dimension_num)) (learn_num : Nat)
      (middle : Fin cluster_size → Pattern ℚ dimension_num),
        nearestSum pattern_list
            ((KMeansClassifier ℚ cluster_size dimension_num).classify pattern_list learn_num middle) ≤
          nearestSum pattern_list middle := by
  intro h
  exact absurd (h 1 1 farApart 1 ![![0]]) (by decide +kernel)

end LeftFelt.Cluster
