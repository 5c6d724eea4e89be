import LeftFelt.Cluster.Objective
import LeftFelt.Lib.Descent
import Mathlib.Data.Fintype.BigOperators
import Mathlib.Data.List.Sublists

/-!
# When the centres have settled

The loop of `classify` is to be repeated until the objective has converged, but runs `learn_num` times. With exact
numbers an update that moves a centre makes the sum of the distances less (`nearestSum_updateMiddle_lt`), and a centre
is at its first place or at the mean of some of the patterns. So there are finitely many places to come to, and a
`learn_num` from which on the centres do not move any more (`kmeans_settles`).
-/

namespace LeftFelt.Cluster

open Lib Nearest Descent

variable {K : Type} [Field K] [LinearOrder K] {cluster_size dimension_num : Nat}
  {pattern_list : List (Pattern K dimension_num)} {middle : Fin cluster_size → Pattern K dimension_num}

/-! ## An update that moves a centre -/

section Moves

variable [IsStrictOrderedRing K]

/-- A centre elsewhere is farther from its points than their mean. -/
theorem sum_sqDist_mean_lt {xs : List (Pattern K dimension_num)} (hne : xs ≠ []) {c : Pattern K dimension_num}
    (hc : c ≠ mean xs) : (xs.map (sqDist · (mean xs))).sum < (xs.map (sqDist · c)).sum := by
  obtain ⟨j, hj⟩ := Function.ne_iff.1 hc
  have hlength : (0 : K) < xs.length := Nat.cast_pos.2 (List.length_pos_iff.2 hne)
  have hcoordinate : ∀ i, (xs.map fun x => (x i - c i) ^ 2).sum =
      (xs.map fun x => (x i - mean xs i) ^ 2).sum + xs.length * (mean xs i - c i) ^ 2 := by
    intro i
    have hsum : (xs.map fun x => x i).sum = (xs.map fun x => x i).length * mean xs i := by
      rw [List.length_map, mean, mul_div_cancel₀ _ hlength.ne']
    have hsquares := sum_map_sub_sq_eq hsum (c i)
    rwa [List.map_map, List.map_map, List.length_map] at hsquares
  rw [sum_map_sqDist, sum_map_sqDist]
  refine Finset.sum_lt_sum (fun i _ => ?_) ⟨j, Finset.mem_univ j, ?_⟩
  · rw [hcoordinate i]
    exact le_add_of_nonneg_right (mul_nonneg hlength.le (sq_nonneg _))
  · rw [hcoordinate j]
    exact lt_add_of_pos_right _ (mul_pos hlength (sq_pos_of_ne_zero (sub_ne_zero.2 hj.symm)))

/-- Within the range of the centres: so they are found. -/
theorem withinRange_of_nearestSum (h : nearestSum pattern_list middle ≤ DBL_MAX) (i : Fin cluster_size) :
    WithinRange pattern_list middle := by
  intro pattern hpattern
  obtain ⟨⟨j, hj⟩, -⟩ := nearest_spec (getDistance · · 2) middle pattern i
  refine ⟨j, hj.trans_le (le_trans ?_ h)⟩
  refine List.single_le_sum (fun d hd => ?_) _ (List.mem_map_of_mem hpattern)
  obtain ⟨other, -, rfl⟩ := List.mem_map.1 hd
  exact nearest_nonneg middle other

/-- **An update that moves a centre** makes the distances to the nearest centres less in sum. -/
theorem nearestSum_updateMiddle_lt (h : WithinRange pattern_list middle) {i : Fin cluster_size}
    (hmoves : (KMeansClassifier K cluster_size dimension_num).updateMiddle pattern_list middle i ≠ middle) :
    nearestSum pattern_list ((KMeansClassifier K cluster_size dimension_num).updateMiddle pattern_list middle i) <
      nearestSum pattern_list middle := by
  rw [updateMiddle_eq] at hmoves ⊢
  by_cases hempty : members pattern_list middle i = []
  · rw [if_pos hempty, Function.update_eq_self] at hmoves
    exact absurd rfl hmoves
  · rw [if_neg hempty] at hmoves ⊢
    have hmember : ∀ pattern ∈ pattern_list, getDistance pattern (middle i) 2 = leastDistance middle pattern ↔
        getDistance pattern (middle i) 2 = nearest (getDistance · · 2) middle pattern := by
      intro pattern hpattern
      obtain ⟨k, hk⟩ := h pattern hpattern
      rw [leastDistance_eq hk]
    have helse : middle i ≠ mean (members pattern_list middle i) := by
      intro heq
      rw [← heq, Function.update_eq_self] at hmoves
      exact hmoves rfl
    exact cost_update_lt hmember (sum_sqDist_mean_lt hempty helse)

/-- **The updates of a round** leave the centres as they are, or make the sum less. -/
theorem foldl_updateMiddle_cases (h : nearestSum pattern_list middle ≤ DBL_MAX) (is : List (Fin cluster_size)) :
    let c := KMeansClassifier K cluster_size dimension_num
    (is.foldl (c.updateMiddle pattern_list) middle = middle ∧
      ∀ i ∈ is, c.updateMiddle pattern_list middle i = middle) ∨
    nearestSum pattern_list (is.foldl (c.updateMiddle pattern_list) middle) < nearestSum pattern_list middle := by
  intro c
  induction is generalizing middle with
  | nil => exact .inl ⟨rfl, fun i hi => (nomatch hi)⟩
  | cons i is ih =>
    have hrange := withinRange_of_nearestSum h i
    rw [List.foldl_cons]
    by_cases hmoves : c.updateMiddle pattern_list middle i = middle
    · rw [hmoves]
      refine (ih h).imp_left fun ⟨hfold, hall⟩ => ⟨hfold, fun j hj => ?_⟩
      rcases List.mem_cons.1 hj with rfl | hj
      · exact hmoves
      · exact hall j hj
    · have hlt := nearestSum_updateMiddle_lt hrange hmoves
      refine .inr ?_
      rcases ih (hlt.le.trans h) with ⟨hfold, -⟩ | hrest
      · rwa [hfold]
      · exact hrest.trans hlt

end Moves

/-! ## Where a centre can be -/

/-- The places of a centre: the first one, and the means of some of the patterns. -/
def places (pattern_list : List (Pattern K dimension_num)) (first : Pattern K dimension_num) :
    Finset (Pattern K dimension_num) :=
  (pattern_list.sublists.map fun l => if l = [] then first else mean l).toFinset

theorem card_places_le (pattern_list : List (Pattern K dimension_num)) (first : Pattern K dimension_num) :
    (places pattern_list first).card ≤ 2 ^ pattern_list.length :=
  (List.toFinset_card_le _).trans_eq (by rw [List.length_map, List.length_sublists])

theorem first_mem_places (pattern_list : List (Pattern K dimension_num)) (first : Pattern K dimension_num) :
    first ∈ places pattern_list first :=
  List.mem_toFinset.2 (List.mem_map.2 ⟨[], List.mem_sublists.2 (List.nil_sublist _), if_pos rfl⟩)

theorem mean_mem_places {l : List (Pattern K dimension_num)} (hl : l.Sublist pattern_list) (hne : l ≠ [])
    (first : Pattern K dimension_num) : mean l ∈ places pattern_list first :=
  List.mem_toFinset.2 (List.mem_map.2 ⟨l, List.mem_sublists.2 hl, if_neg hne⟩)

/-- Every centre is at one of its places. -/
def Placed (pattern_list : List (Pattern K dimension_num)) (first middle : Fin cluster_size → Pattern K dimension_num) :
    Prop :=
  ∀ i, middle i ∈ places pattern_list (first i)

variable [IsStrictOrderedRing K]

/-- An update moves a centre to one of its places. -/
theorem placed_updateMiddle {first : Fin cluster_size → Pattern K dimension_num}
    (h : Placed pattern_list first middle) (i : Fin cluster_size) :
    Placed pattern_list first ((KMeansClassifier K cluster_size dimension_num).updateMiddle pattern_list middle i) := by
  intro j
  rw [updateMiddle_eq]
  by_cases hji : j = i
  · subst hji
    rw [Function.update_self]
    split
    · exact h j
    · next hne => exact mean_mem_places List.filter_sublist hne (first j)
  · rw [Function.update_of_ne hji]
    exact h j

/-- So does a run. -/
theorem placed_classify (pattern_list : List (Pattern K dimension_num)) (learn_num : Nat)
    (middle : Fin cluster_size → Pattern K dimension_num) :
    Placed pattern_list middle
      ((KMeansClassifier K cluster_size dimension_num).classify pattern_list learn_num middle) := by
  rw [Classifier.classify_eq_foldl]
  exact List.foldlRecOn _ _ (fun i => first_mem_places pattern_list (middle i)) fun m hm i _ => placed_updateMiddle hm i

/-! ## Runs -/

/-- One round: the body of the loop. -/
def Classifier.round (c : Classifier K cluster_size dimension_num) (pattern_list : List (Pattern K dimension_num))
    (middle : Fin cluster_size → Pattern K dimension_num) : Fin cluster_size → Pattern K dimension_num :=
  (List.finRange cluster_size).foldl (c.updateMiddle pattern_list) middle

omit [IsStrictOrderedRing K] in
theorem Classifier.iterate_round (c : Classifier K cluster_size dimension_num) (learn_num : Nat) :
    (c.round pattern_list)^[learn_num] middle = c.classify pattern_list learn_num middle := rfl

/-- A round leaves the centres as they are, and each of them where it would be moved to, or makes the sum less. -/
theorem round_cases (h : nearestSum pattern_list middle ≤ DBL_MAX) :
    let c := KMeansClassifier K cluster_size dimension_num
    (c.round pattern_list middle = middle ∧ ∀ i, c.updateMiddle pattern_list middle i = middle) ∨
    nearestSum pattern_list (c.round pattern_list middle) < nearestSum pattern_list middle :=
  (foldl_updateMiddle_cases h _).imp_left fun ⟨hround, hall⟩ => ⟨hround, fun i => hall i (List.mem_finRange i)⟩

/-- The patterns stay near enough. -/
theorem nearestSum_classify_le (h : nearestSum pattern_list middle ≤ DBL_MAX) (learn_num : Nat) :
    nearestSum pattern_list ((KMeansClassifier K cluster_size dimension_num).classify pattern_list learn_num middle) ≤
      DBL_MAX := by
  rw [← Classifier.iterate_round]
  induction learn_num with
  | zero => exact h
  | succ k ih =>
    rw [Function.iterate_succ_apply']
    rcases round_cases ih with ⟨hround, -⟩ | hlt
    · rwa [hround]
    · exact hlt.le.trans ih

/-- After as many rounds as there are places, a round changes nothing. -/
theorem round_classify (h : nearestSum pattern_list middle ≤ DBL_MAX) {learn_num : Nat}
    (hnum : 2 ^ (pattern_list.length * cluster_size) ≤ learn_num) :
    let c := KMeansClassifier K cluster_size dimension_num
    c.round pattern_list (c.classify pattern_list learn_num middle) = c.classify pattern_list learn_num middle := by
  intro c
  refine fixed_of_card (c.round pattern_list) (nearestSum pattern_list) (s := middle) (n := learn_num)
    (A := Fintype.piFinset fun i => places pattern_list (middle i)) (fun k hmoves => ?_) (fun k => ?_) ?_
  · rcases round_cases (nearestSum_classify_le h k) with ⟨hround, -⟩ | hlt
    · exact absurd hround hmoves
    · exact hlt
  · exact Fintype.mem_piFinset.2 (placed_classify pattern_list k middle)
  · have hcard : (Fintype.piFinset fun i => places pattern_list (middle i)).card ≤
        2 ^ (pattern_list.length * cluster_size) := by
      rw [Fintype.card_piFinset, pow_mul]
      refine (Finset.prod_le_pow_card _ _ _ fun i _ => card_places_le pattern_list (middle i)).trans_eq ?_
      rw [Finset.card_univ, Fintype.card_fin]
    omega

/-- **K-means settles**: if the patterns are near enough to the first centres, the centres have settled after as many
rounds as there are choices of patterns for them. From then on every centre with members is at their mean, and no round
moves one. -/
theorem kmeans_settles (pattern_list : List (Pattern K dimension_num))
    (middle : Fin cluster_size → Pattern K dimension_num) (h : nearestSum pattern_list middle ≤ DBL_MAX)
    {learn_num : Nat} (hnum : 2 ^ (pattern_list.length * cluster_size) ≤ learn_num) :
    let c := KMeansClassifier K cluster_size dimension_num
    let result := c.classify pattern_list learn_num middle
    (∀ i, members pattern_list result i ≠ [] → result i = mean (members pattern_list result i)) ∧
    ∀ more ≥ learn_num, c.classify pattern_list more middle = result := by
  intro c result
  have hfixed : c.round pattern_list result = result := round_classify h hnum
  refine ⟨fun i hmembers => ?_, fun more hmore => iterate_eq_of_fixed hfixed hmore⟩
  rcases round_cases (nearestSum_classify_le h learn_num) with ⟨-, hall⟩ | hlt
  · have hupdate := hall i
    rw [updateMiddle_eq, if_neg hmembers, Function.update_eq_self_iff] at hupdate
    exact hupdate.symm
  · exact absurd (congrArg (nearestSum pattern_list) hfixed) hlt.ne

theorem kmeans_settles_line :
    let c := KMeansClassifier ℚ 2 1
    let result := c.classify line 64 ![![0], ![4]]
    (∀ i, members line result i ≠ [] → result i = mean (members line result i)) ∧
    ∀ more ≥ 64, c.classify line more ![![0], ![4]] = result :=
  kmeans_settles line ![![0], ![4]] (by decide +kernel) (by decide)

end LeftFelt.Cluster
