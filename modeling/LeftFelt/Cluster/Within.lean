import LeftFelt.Cluster.KMeans
import LeftFelt.Lib.Average
import Mathlib.Algebra.Order.Floor.Ring
import Mathlib.Algebra.Order.Pi
import Mathlib.Data.Rat.Floor
import Mathlib.Analysis.Convex.Basic

/-!
# Where the centres can come to

An update moves a centre to an average of patterns. So a classifier whose memberships and weights are not negative, as
those of both classifiers are, keeps the centres in every convex set that the patterns and the first centres lie in
(`mem_afterUpdates`): centres that `initialize` has made stay within the setting, if the data does (`classify_within`).
-/

namespace LeftFelt.Cluster

variable {K : Type} [Field K] [LinearOrder K] [IsStrictOrderedRing K] {cluster_size dimension_num : Nat}

namespace Classifier

variable {c : Classifier K cluster_size dimension_num} {pattern_list : List (Pattern K dimension_num)}
  {middle : Fin cluster_size → Pattern K dimension_num} {s : Set (Pattern K dimension_num)}

/-- No membership and no weight is negative. -/
structure Nonneg (c : Classifier K cluster_size dimension_num) : Prop where
  getMembership : ∀ middle i pattern, 0 ≤ c.getMembership middle i pattern
  getWeight : ∀ pattern, 0 ≤ c.getWeight pattern

/-- **An update** keeps a centre in a convex set. -/
theorem mem_updateMiddle (hc : c.Nonneg) (hs : Convex K s) (hpatterns : ∀ pattern ∈ pattern_list, pattern ∈ s)
    (hmiddle : ∀ i, middle i ∈ s) (i j : Fin cluster_size) : c.updateMiddle pattern_list middle i j ∈ s := by
  unfold updateMiddle
  by_cases hji : j = i
  · subst hji
    rw [Function.update_self]
    split
    · next hne =>
      have haverage := Lib.Average.average_mem hs
        (fun pattern _ => mul_nonneg (hc.getMembership middle j pattern) (hc.getWeight pattern)) hpatterns hne
      have hquotient : (fun k => (c.accumulate pattern_list middle j).1 k / (c.accumulate pattern_list middle j).2) =
          (c.accumulate pattern_list middle j).2⁻¹ • (c.accumulate pattern_list middle j).1 := by
        funext k
        rw [Pi.smul_apply, smul_eq_mul, div_eq_inv_mul]
      rw [hquotient]
      exact haverage
    · exact hmiddle j
  · rw [Function.update_of_ne hji]
    exact hmiddle j

/-- **Every centre stays in a convex set**, at every time. -/
theorem mem_afterUpdates (hc : c.Nonneg) (hs : Convex K s) (hpatterns : ∀ pattern ∈ pattern_list, pattern ∈ s)
    (hmiddle : ∀ i, middle i ∈ s) (learn_num k : Nat) (i : Fin cluster_size) :
    c.afterUpdates pattern_list learn_num middle k i ∈ s := by
  rw [afterUpdates]
  exact List.foldlRecOn (motive := fun (m : Fin cluster_size → Pattern K dimension_num) => ∀ i, m i ∈ s) _ _ hmiddle
    (fun m hm i _ => mem_updateMiddle hc hs hpatterns hm i) i

end Classifier

/-- A pattern is a member of a cluster, or not. -/
theorem kmeans_nonneg : (KMeansClassifier K cluster_size dimension_num).Nonneg where
  getMembership middle i pattern := by
    show (0 : K) ≤ if _ then 1 else 0
    split
    · exact zero_le_one
    · exact le_rfl
  getWeight _ := zero_le_one

/-! ## The setting -/

/-- `(int)x`. -/
def truncate [FloorRing K] (x : K) : Int := if 0 ≤ x then ⌊x⌋ else ⌈x⌉

/-- One value of `initialize`, from two calls of `rand`: there is none if `%` divides by zero. -/
def initialValue [FloorRing K] (RAND_MAX : Nat) (data_min data_max : K) (rand rand' : Nat) : Option K :=
  if truncate (data_max - data_min) = 0 then none
  else some (data_min + (((rand : Int).tmod (truncate (data_max - data_min)) : Int) : K) + (rand' : K) / (RAND_MAX : K))

/-- What `initialize` can make the centres. -/
def Initialized [FloorRing K] (RAND_MAX : Nat) (data_min data_max : K)
    (middle : Fin cluster_size → Pattern K dimension_num) : Prop :=
  ∀ i j, ∃ rand ≤ RAND_MAX, ∃ rand' ≤ RAND_MAX, initialValue RAND_MAX data_min data_max rand rand' = some (middle i j)

/-- A value lies within the setting. -/
theorem initialValue_within [FloorRing K] {RAND_MAX rand rand' : Nat} {data_min data_max value : K}
    (hle : data_min ≤ data_max) (hrand : rand' ≤ RAND_MAX)
    (h : initialValue RAND_MAX data_min data_max rand rand' = some value) : data_min ≤ value ∧ value ≤ data_max := by
  have htruncate : truncate (data_max - data_min) = ⌊data_max - data_min⌋ := if_pos (sub_nonneg.2 hle)
  have hfloor : 0 ≤ ⌊data_max - data_min⌋ := Int.floor_nonneg.2 (sub_nonneg.2 hle)
  rw [initialValue, htruncate] at h
  split at h
  · cases h
  · next hne =>
    cases h
    have hpos : 0 < ⌊data_max - data_min⌋ := lt_of_le_of_ne hfloor (Ne.symm hne)
    have hmod : 0 ≤ (rand : Int).tmod ⌊data_max - data_min⌋ ∧
        (rand : Int).tmod ⌊data_max - data_min⌋ + 1 ≤ ⌊data_max - data_min⌋ := by
      rw [Int.tmod_eq_emod_of_nonneg (Int.natCast_nonneg rand)]
      exact ⟨Int.emod_nonneg _ hpos.ne', Int.emod_lt_of_pos _ hpos⟩
    have hmod0 : (0 : K) ≤ ((rand : Int).tmod ⌊data_max - data_min⌋ : Int) := Int.cast_nonneg hmod.1
    have hmod1 : (((rand : Int).tmod ⌊data_max - data_min⌋ : Int) : K) + 1 ≤ data_max - data_min := by
      refine le_trans ?_ (Int.floor_le (data_max - data_min))
      exact_mod_cast hmod.2
    have hfraction0 : (0 : K) ≤ (rand' : K) / (RAND_MAX : K) := div_nonneg (Nat.cast_nonneg _) (Nat.cast_nonneg _)
    have hfraction1 : (rand' : K) / (RAND_MAX : K) ≤ 1 := div_le_one_of_le₀ (Nat.cast_le.2 hrand) (Nat.cast_nonneg _)
    constructor
    · linarith
    · linarith

/-- **The centres stay within the setting**: at every time of a run on data within it. -/
theorem classify_within [FloorRing K] {c : Classifier K cluster_size dimension_num} (hc : c.Nonneg) {RAND_MAX : Nat}
    {data_min data_max : K} (hle : data_min ≤ data_max) {pattern_list : List (Pattern K dimension_num)}
    (hdata : ∀ pattern ∈ pattern_list, ∀ j, data_min ≤ pattern j ∧ pattern j ≤ data_max)
    {middle : Fin cluster_size → Pattern K dimension_num} (hmiddle : Initialized RAND_MAX data_min data_max middle)
    (learn_num k : Nat) (i : Fin cluster_size) (j : Fin dimension_num) :
    data_min ≤ c.afterUpdates pattern_list learn_num middle k i j ∧
      c.afterUpdates pattern_list learn_num middle k i j ≤ data_max := by
  have hconvex : Convex K (Set.Icc (fun _ : Fin dimension_num => data_min) fun _ => data_max) := convex_Icc _ _
  have hvalue : ∀ i j, data_min ≤ middle i j ∧ middle i j ≤ data_max := by
    intro i j
    obtain ⟨rand, -, rand', hrand, hvalue⟩ := hmiddle i j
    exact initialValue_within hle hrand hvalue
  have hmem := Classifier.mem_afterUpdates hc hconvex
    (fun pattern hpattern => ⟨fun j => (hdata pattern hpattern j).1, fun j => (hdata pattern hpattern j).2⟩)
    (fun i => ⟨fun j => (hvalue i j).1, fun j => (hvalue i j).2⟩) learn_num k i
  exact ⟨hmem.1 j, hmem.2 j⟩

/-- The first centres, of numbers between 0 and 5. -/
theorem initialized_line : Initialized (K := ℚ) 32767 0 5 ![![0], ![4]] := by
  intro i j
  refine ⟨if i = 0 then 0 else 4, by split <;> decide, 0, by decide, ?_⟩
  have hfive : truncate (5 - 0 : ℚ) = 5 := by
    rw [truncate, if_pos (by norm_num), sub_zero]
    exact Int.floor_ofNat 5
  rw [initialValue, hfive]
  fin_cases i <;> fin_cases j <;> norm_num
  rfl

theorem classify_within_line :
    0 ≤ (KMeansClassifier ℚ 2 1).afterUpdates line 10 ![![0], ![4]] 7 1 0 ∧
      (KMeansClassifier ℚ 2 1).afterUpdates line 10 ![![0], ![4]] 7 1 0 ≤ 5 :=
  classify_within kmeans_nonneg (by norm_num) (by decide) initialized_line 10 7 1 0

end LeftFelt.Cluster
