import LeftFelt.Cluster.Membership
import Mathlib.Algebra.BigOperators.Fin
import Mathlib.Tactic.Linarith

/-!
# The objective of k-means

`objective` is to sum up how far the patterns are from their nearest centres. It sums up the distances to all centres,
and does not set the inner sum back to 0, so that a pattern is counted again for each pattern after it. The result is
the sum for the nearest centres, in any order, only if there is nothing to be summed up, or one term at most
(`objective_iff`).
-/

namespace LeftFelt.Cluster

open Lib Nearest

variable {K : Type} [Field K] {cluster_size dimension_num : Nat}

/-- `KMeansClassifier::objective(pattern_list)`, with the variables `jkmeans` and `result`. -/
def objective (pattern_list : List (Pattern K dimension_num))
    (middle : Fin cluster_size → Pattern K dimension_num) : K :=
  (pattern_list.foldl (fun (s : K × K) pattern =>
    let jkmeans := (List.finRange cluster_size).foldl (fun jkmeans i => jkmeans + getDistance pattern (middle i) 2) s.1
    (jkmeans, s.2 + jkmeans)) (0, 0)).2

/-! ## The loops -/

/-- The distances to all centres, in sum. -/
def total (middle : Fin cluster_size → Pattern K dimension_num) (pattern : Pattern K dimension_num) : K :=
  ∑ i, getDistance pattern (middle i) 2

/-- The inner loop. -/
theorem foldl_getDistance (middle : Fin cluster_size → Pattern K dimension_num) (pattern : Pattern K dimension_num)
    (jkmeans : K) :
    (List.finRange cluster_size).foldl (fun jkmeans i => jkmeans + getDistance pattern (middle i) 2) jkmeans =
      jkmeans + total middle pattern := by
  rw [total, Fin.sum_univ_def]
  induction List.finRange cluster_size generalizing jkmeans with
  | nil => simp
  | cons i is ih => rw [List.foldl_cons, ih, List.map_cons, List.sum_cons, add_assoc]

/-- The outer loop, with what `jkmeans` has from before. -/
theorem foldl_objective (pattern_list : List (Pattern K dimension_num))
    (middle : Fin cluster_size → Pattern K dimension_num) (jkmeans result : K) :
    (pattern_list.foldl (fun (s : K × K) pattern =>
      let jkmeans := (List.finRange cluster_size).foldl (fun jkmeans i => jkmeans + getDistance pattern (middle i) 2) s.1
      (jkmeans, s.2 + jkmeans)) (jkmeans, result)).2 =
      result + pattern_list.length * jkmeans + objective pattern_list middle := by
  induction pattern_list generalizing jkmeans result with
  | nil => simp [objective]
  | cons pattern pattern_list ih =>
    rw [objective, List.foldl_cons, List.foldl_cons]
    simp only [foldl_getDistance] at ih ⊢
    rw [ih, ih, List.length_cons, Nat.cast_succ]
    ring

/-- A pattern is counted once for itself, and once for each pattern after it. -/
theorem objective_cons (pattern : Pattern K dimension_num) (pattern_list : List (Pattern K dimension_num))
    (middle : Fin cluster_size → Pattern K dimension_num) :
    objective (pattern :: pattern_list) middle =
      (pattern_list.length + 1) * total middle pattern + objective pattern_list middle := by
  have h := foldl_objective pattern_list middle (total middle pattern) (total middle pattern)
  rw [objective, List.foldl_cons]
  simp only [foldl_getDistance, zero_add] at h ⊢
  rw [h]
  ring

/-! ## The nearest centres -/

variable [LinearOrder K] {pattern_list : List (Pattern K dimension_num)}
  {middle : Fin cluster_size → Pattern K dimension_num} {pattern : Pattern K dimension_num}

/-- **The objective is right**: it is the sum for the nearest centres, and does not depend on the order. -/
def IsObjective (pattern_list : List (Pattern K dimension_num))
    (middle : Fin cluster_size → Pattern K dimension_num) : Prop :=
  objective pattern_list middle = nearestSum pattern_list middle ∧
    ∀ order, order.Perm pattern_list → objective order middle = objective pattern_list middle

theorem nearestSum_cons (pattern : Pattern K dimension_num) (pattern_list : List (Pattern K dimension_num))
    (middle : Fin cluster_size → Pattern K dimension_num) :
    nearestSum (pattern :: pattern_list) middle =
      nearest (getDistance · · 2) middle pattern + nearestSum pattern_list middle := List.sum_cons

theorem nearestSum_perm {order : List (Pattern K dimension_num)} (h : order.Perm pattern_list) :
    nearestSum order middle = nearestSum pattern_list middle := (h.map _).sum_eq

/-- One centre is the nearest one. -/
theorem nearest_eq_total (h : cluster_size ≤ 1) (middle : Fin cluster_size → Pattern K dimension_num)
    (pattern : Pattern K dimension_num) : nearest (getDistance · · 2) middle pattern = total middle pattern := by
  match cluster_size, h with
  | 0, _ => simp [nearest, total]
  | 1, _ => simp [nearest, total, List.finRange_succ]

/-- One pattern and one centre at most. -/
theorem isObjective_of_single (hlist : pattern_list.length ≤ 1) (hcentres : cluster_size ≤ 1) :
    IsObjective pattern_list middle := by
  match pattern_list, hlist with
  | [], _ => exact ⟨rfl, fun order horder => by rw [horder.eq_nil]⟩
  | [pattern], _ =>
    refine ⟨?_, fun order horder => by rw [horder.eq_singleton]⟩
    rw [objective_cons, nearestSum_cons, nearest_eq_total hcentres, List.length_nil, Nat.cast_zero, zero_add, one_mul]
    rfl

/-! ## What is too much -/

section Order

variable [IsStrictOrderedRing K]

theorem getDistance_nonneg (p q : Pattern K dimension_num) : 0 ≤ getDistance p q 2 :=
  Finset.sum_nonneg fun i _ => sq_nonneg (p i - q i)

/-- Only a pattern has no distance to itself. -/
theorem getDistance_eq_zero {p q : Pattern K dimension_num} : getDistance p q 2 = 0 ↔ p = q := by
  rw [getDistance, Finset.sum_eq_zero_iff_of_nonneg fun i _ => sq_nonneg (p i - q i), funext_iff]
  simp [sub_eq_zero]

theorem total_nonneg (middle : Fin cluster_size → Pattern K dimension_num) (pattern : Pattern K dimension_num) :
    0 ≤ total middle pattern :=
  Finset.sum_nonneg fun i _ => getDistance_nonneg pattern (middle i)

theorem total_eq_zero : total middle pattern = 0 ↔ ∀ i, middle i = pattern := by
  rw [total, Finset.sum_eq_zero_iff_of_nonneg fun i _ => getDistance_nonneg pattern (middle i)]
  simp only [Finset.mem_univ, true_imp_iff, getDistance_eq_zero]
  exact forall_congr' fun i => eq_comm

/-- The nearest centre is one of all. -/
theorem nearest_le_total (middle : Fin cluster_size → Pattern K dimension_num) (pattern : Pattern K dimension_num) :
    nearest (getDistance · · 2) middle pattern ≤ total middle pattern := by
  cases cluster_size with
  | zero => exact (total_nonneg middle pattern).trans_eq' (by simp [nearest])
  | succ n =>
    refine (nearest_le _ middle pattern 0).trans ?_
    exact Finset.single_le_sum (fun i _ => getDistance_nonneg pattern (middle i)) (Finset.mem_univ 0)

theorem nearestSum_le_objective (pattern_list : List (Pattern K dimension_num))
    (middle : Fin cluster_size → Pattern K dimension_num) :
    nearestSum pattern_list middle ≤ objective pattern_list middle := by
  induction pattern_list with
  | nil => exact le_rfl
  | cons pattern pattern_list ih =>
    rw [nearestSum_cons, objective_cons, add_mul, one_mul]
    have hmore := mul_nonneg (Nat.cast_nonneg (α := K) pattern_list.length) (total_nonneg middle pattern)
    have hnearest := nearest_le_total middle pattern
    linarith

/-- With two centres, all distances are no more than the least one only if there are none. -/
theorem total_eq_zero_of_le (hcentres : 2 ≤ cluster_size)
    (h : total middle pattern ≤ nearest (getDistance · · 2) middle pattern) : total middle pattern = 0 := by
  let i : Fin cluster_size := ⟨0, by omega⟩
  let j : Fin cluster_size := ⟨1, by omega⟩
  have hji : j ∈ Finset.univ.erase i := by simp [i, j]
  have hsum : getDistance pattern (middle i) 2 + getDistance pattern (middle j) 2 ≤ total middle pattern := by
    rw [total, ← Finset.add_sum_erase _ _ (Finset.mem_univ i)]
    gcongr
    exact Finset.single_le_sum (fun k _ => getDistance_nonneg pattern (middle k)) hji
  have hi := nearest_le (getDistance · · 2) middle pattern i
  have hj := nearest_le (getDistance · · 2) middle pattern j
  have hnonneg := total_nonneg middle pattern
  linarith

/-- A pattern that may be the first one is counted once only if its distances add up to the least one. -/
theorem le_nearest_of_isObjective (h : IsObjective pattern_list middle) (hpattern : pattern ∈ pattern_list) :
    pattern_list.length * total middle pattern ≤ nearest (getDistance · · 2) middle pattern := by
  obtain ⟨hsum, hperm⟩ := h
  have horder : (pattern :: pattern_list.erase pattern).Perm pattern_list := (List.perm_cons_erase hpattern).symm
  have hfirst := hperm _ horder
  rw [hsum, ← nearestSum_perm horder, objective_cons, nearestSum_cons] at hfirst
  have hrest := nearestSum_le_objective (pattern_list.erase pattern) middle
  have hlength : (pattern_list.length : K) = (pattern_list.erase pattern).length + 1 := by
    exact_mod_cast horder.length_eq.symm
  rw [hlength]
  linarith

/-- Where every centre is at every pattern, there is nothing to be summed up. -/
theorem objective_eq_zero (h : ∀ pattern ∈ pattern_list, ∀ i, middle i = pattern) :
    objective pattern_list middle = 0 := by
  induction pattern_list with
  | nil => rfl
  | cons pattern pattern_list ih =>
    obtain ⟨hfirst, hrest⟩ := List.forall_mem_cons.1 h
    rw [objective_cons, total_eq_zero.2 hfirst, ih hrest, mul_zero, zero_add]

theorem nearest_nonneg (middle : Fin cluster_size → Pattern K dimension_num) (pattern : Pattern K dimension_num) :
    0 ≤ nearest (getDistance · · 2) middle pattern := by
  cases cluster_size with
  | zero => exact le_of_eq (by simp [nearest])
  | succ n =>
    obtain ⟨⟨i, hi⟩, -⟩ := nearest_spec (getDistance · · 2) middle pattern 0
    exact (getDistance_nonneg pattern (middle i)).trans_eq hi

theorem nearestSum_nonneg (pattern_list : List (Pattern K dimension_num))
    (middle : Fin cluster_size → Pattern K dimension_num) : 0 ≤ nearestSum pattern_list middle :=
  List.sum_nonneg fun _ h => by
    obtain ⟨pattern, -, rfl⟩ := List.mem_map.1 h
    exact nearest_nonneg middle pattern

/-- With more than one pattern, or more than one centre, nothing may be summed up. -/
theorem total_eq_zero_of_isObjective (h : IsObjective pattern_list middle)
    (hmany : ¬(pattern_list.length ≤ 1 ∧ cluster_size ≤ 1)) (hpattern : pattern ∈ pattern_list) :
    total middle pattern = 0 := by
  have hle := le_nearest_of_isObjective h hpattern
  by_cases hlength : pattern_list.length ≤ 1
  · have hone : pattern_list.length = 1 := by
      have := List.length_pos_of_mem hpattern
      omega
    rw [hone, Nat.cast_one, one_mul] at hle
    exact total_eq_zero_of_le (by omega) hle
  · have htwo : (2 : K) ≤ pattern_list.length := by exact_mod_cast not_le.1 hlength
    have htotal := mul_le_mul_of_nonneg_right htwo (total_nonneg middle pattern)
    have hnearest := nearest_le_total middle pattern
    have hnonneg := total_nonneg middle pattern
    linarith

/-- Both sums are 0, in every order. -/
theorem isObjective_of_same (h : ∀ pattern ∈ pattern_list, ∀ i, middle i = pattern) :
    IsObjective pattern_list middle := by
  have hzero := objective_eq_zero h
  refine ⟨le_antisymm ?_ (nearestSum_le_objective pattern_list middle), fun order horder => ?_⟩
  · exact hzero.trans_le (nearestSum_nonneg pattern_list middle)
  · rw [hzero, objective_eq_zero fun pattern hmem => h pattern (horder.mem_iff.1 hmem)]

/-- **When the objective is right**: every centre is at every pattern, or there is at most one pattern and one centre. -/
theorem objective_iff (pattern_list : List (Pattern K dimension_num))
    (middle : Fin cluster_size → Pattern K dimension_num) :
    IsObjective pattern_list middle ↔
      (∀ pattern ∈ pattern_list, ∀ i, middle i = pattern) ∨ pattern_list.length ≤ 1 ∧ cluster_size ≤ 1 := by
  constructor
  · intro h
    refine or_iff_not_imp_right.2 fun hmany pattern hpattern => ?_
    exact total_eq_zero.1 (total_eq_zero_of_isObjective h hmany hpattern)
  · rintro (hsame | ⟨hlist, hcentres⟩)
    · exact isObjective_of_same hsame
    · exact isObjective_of_single hlist hcentres

end Order

/-- Two patterns at the only centre. -/
theorem isObjective_twice : IsObjective (K := ℚ) [![1], ![1]] ![![1]] :=
  (objective_iff _ _).2 (.inl (by decide))

/-- The pattern is at one of the two centres, but its distance to the other one is summed up. -/
theorem not_isObjective_between :
    ¬∀ (cluster_size dimension_num : Nat) (pattern_list : List (Pattern ℚ dimension_num))
      (middle : Fin cluster_size → Pattern ℚ dimension_num),
      0 < cluster_size → IsObjective pattern_list middle := by
  intro h
  obtain ⟨hsum, -⟩ := h 2 1 [![0]] ![![0], ![1]] (by decide)
  exact absurd hsum (by decide +kernel)

end LeftFelt.Cluster
