import Mathlib.Algebra.BigOperators.Group.List.Basic
import Mathlib.Algebra.Order.BigOperators.Group.List
import Mathlib.Algebra.BigOperators.Field
import Mathlib.Data.List.FinRange
import Mathlib.Tactic.Ring
import Mathlib.Tactic.FieldSimp
import Mathlib.Tactic.Positivity

/-!
# Points and their nearest centres

Points have a distance to each of finitely many centres. If one centre is moved so that the points nearest to it do not
get farther from it in sum, the distances of all points to their nearest centres do not get larger in sum
(`cost_update_le`). For squared distances the mean of some points is a place to which they are nearest in sum
(`sum_sqDist_mean_le`).
-/

namespace LeftFelt.Lib.Nearest

/-! ## Centres -/

/-- A loop that looks for the least value finds what it began with, or one of the values, and nothing larger. -/
theorem foldl_least {ι K : Type*} [LinearOrder K] (f : ι → K) (is : List ι) (start : K) :
    let found := is.foldl (fun min i => if f i < min then f i else min) start
    (found ≤ start ∧ ∀ i ∈ is, found ≤ f i) ∧ (found = start ∨ ∃ i, found = f i) := by
  induction is generalizing start with
  | nil => exact ⟨⟨le_rfl, fun i hi => by cases hi⟩, Or.inl rfl⟩
  | cons i is ih =>
    obtain ⟨⟨hstart, hall⟩, hfound⟩ := ih (if f i < start then f i else start)
    have hle : (if f i < start then f i else start) ≤ start ∧ (if f i < start then f i else start) ≤ f i := by
      split_ifs with h
      · exact ⟨h.le, le_rfl⟩
      · exact ⟨le_rfl, not_lt.mp h⟩
    refine ⟨⟨hstart.trans hle.1, List.forall_mem_cons.mpr ⟨hstart.trans hle.2, hall⟩⟩, ?_⟩
    rw [List.foldl_cons]
    obtain heq | hother := hfound
    · rw [heq]
      split_ifs with h
      · exact Or.inr ⟨i, rfl⟩
      · exact Or.inl rfl
    · exact Or.inr hother

section Centres

variable {X C K : Type*} [LinearOrder K] [AddCommMonoid K] {n : Nat} {dist : X → C → K} {c : Fin n → C} {x : X}

/-- The distance to the nearest centre, and 0 if there is no centre. -/
def nearest (dist : X → C → K) (c : Fin n → C) (x : X) : K :=
  ((List.finRange n).map fun i => dist x (c i)).min?.getD 0

theorem nearest_spec (dist : X → C → K) (c : Fin n → C) (x : X) (i : Fin n) :
    (∃ j, dist x (c j) = nearest dist c x) ∧ nearest dist c x ≤ dist x (c i) := by
  have hmem : dist x (c i) ∈ (List.finRange n).map fun i => dist x (c i) :=
    List.mem_map.mpr ⟨i, List.mem_finRange i, rfl⟩
  cases hmin : ((List.finRange n).map fun i => dist x (c i)).min? with
  | none =>
    rw [List.min?_eq_none_iff.mp hmin] at hmem
    cases hmem
  | some a =>
    obtain ⟨ha, hle⟩ := List.min?_eq_some_iff.mp hmin
    rw [nearest, hmin, Option.getD_some]
    obtain ⟨j, -, hj⟩ := List.mem_map.mp ha
    exact ⟨⟨j, hj⟩, hle _ hmem⟩

theorem nearest_le (dist : X → C → K) (c : Fin n → C) (x : X) (i : Fin n) : nearest dist c x ≤ dist x (c i) :=
  (nearest_spec dist c x i).2

/-- A centre that is moved is as near as its new place. -/
theorem nearest_update_le (i : Fin n) (m : C) : nearest dist (Function.update c i m) x ≤ dist x m := by
  have hle := nearest_le dist (Function.update c i m) x i
  rwa [Function.update_self] at hle

/-- A point that is nearest to another centre stays as near. -/
theorem nearest_update_le_nearest {i : Fin n} (h : dist x (c i) ≠ nearest dist c x) (m : C) :
    nearest dist (Function.update c i m) x ≤ nearest dist c x := by
  obtain ⟨⟨j, hj⟩, -⟩ := nearest_spec dist c x i
  have hji : j ≠ i := by
    rintro rfl
    exact h hj
  have hle := nearest_le dist (Function.update c i m) x j
  rwa [Function.update_of_ne hji, hj] at hle

/-- The distances to the nearest centres, in sum. -/
def cost (dist : X → C → K) (xs : List X) (c : Fin n → C) : K := (xs.map (nearest dist c)).sum

section Members

variable {xs : List X} {i : Fin n} {member : X → Prop} [DecidablePred member]

/-- The cost, apart for the points that are nearest to one centre. -/
theorem cost_eq_sum (hmember : ∀ x ∈ xs, member x ↔ dist x (c i) = nearest dist c x) :
    cost dist xs c =
      ((xs.filter member).map (dist · (c i))).sum + ((xs.filter (¬member ·)).map (nearest dist c)).sum := by
  have hbefore : cost dist xs c = (xs.map fun x => if member x then dist x (c i) else nearest dist c x).sum := by
    refine congrArg List.sum (List.map_congr_left fun x hx => ?_)
    by_cases hx' : member x
    · rw [if_pos hx', (hmember x hx).mp hx']
    · rw [if_neg hx']
  rw [hbefore, List.sum_map_ite]

/-- When the centre is moved, the others stay as near as they are. -/
theorem cost_update_le_sum [IsOrderedAddMonoid K]
    (hmember : ∀ x ∈ xs, member x ↔ dist x (c i) = nearest dist c x) (m : C) :
    cost dist xs (Function.update c i m) ≤
      ((xs.filter member).map (dist · m)).sum + ((xs.filter (¬member ·)).map (nearest dist c)).sum := by
  have hafter : cost dist xs (Function.update c i m) ≤
      (xs.map fun x => if member x then dist x m else nearest dist c x).sum := by
    refine List.sum_le_sum fun x hx => ?_
    by_cases hx' : member x
    · rw [if_pos hx']
      exact nearest_update_le i m
    · rw [if_neg hx']
      exact nearest_update_le_nearest (fun h => hx' ((hmember x hx).mpr h)) m
  rwa [List.sum_map_ite] at hafter

/-- **A centre is moved**: what it costs is decided by the points that are nearest to it. -/
theorem cost_update_le [IsOrderedAddMonoid K]
    (hmember : ∀ x ∈ xs, member x ↔ dist x (c i) = nearest dist c x) {m : C}
    (hm : ((xs.filter member).map (dist · m)).sum ≤ ((xs.filter member).map (dist · (c i))).sum) :
    cost dist xs (Function.update c i m) ≤ cost dist xs c := by
  rw [cost_eq_sum hmember]
  exact (cost_update_le_sum hmember m).trans (add_le_add_left hm _)

/-- And less, if they get nearer. -/
theorem cost_update_lt [IsOrderedCancelAddMonoid K]
    (hmember : ∀ x ∈ xs, member x ↔ dist x (c i) = nearest dist c x) {m : C}
    (hm : ((xs.filter member).map (dist · m)).sum < ((xs.filter member).map (dist · (c i))).sum) :
    cost dist xs (Function.update c i m) < cost dist xs c := by
  rw [cost_eq_sum hmember]
  exact (cost_update_le_sum hmember m).trans_lt (add_lt_add_left hm _)

end Members

end Centres

/-! ## Means -/

section Means

variable {K : Type*} [Field K]

theorem sum_map_sub_sq (ys : List K) (c : K) :
    (ys.map fun y => (y - c) ^ 2).sum = (ys.map (· ^ 2)).sum - 2 * c * ys.sum + ys.length * c ^ 2 := by
  induction ys with
  | nil => simp
  | cons y ys ih =>
    rw [List.map_cons, List.sum_cons, ih, List.map_cons, List.sum_cons, List.sum_cons, List.length_cons, Nat.cast_succ]
    ring

/-- The squares around any number are those around the mean, and the rest. -/
theorem sum_map_sub_sq_eq {ys : List K} {mean : K} (h : ys.sum = ys.length * mean) (c : K) :
    (ys.map fun y => (y - c) ^ 2).sum = (ys.map fun y => (y - mean) ^ 2).sum + ys.length * (mean - c) ^ 2 := by
  rw [sum_map_sub_sq, sum_map_sub_sq, h]
  ring

variable {ι : Type*} [Fintype ι]

/-- The squared distance. -/
def sqDist (p q : ι → K) : K := ∑ j, (p j - q j) ^ 2

/-- The mean of some points. -/
def mean (xs : List (ι → K)) : ι → K := fun j => (xs.map fun x => x j).sum / xs.length

theorem sum_map_sqDist (xs : List (ι → K)) (c : ι → K) :
    (xs.map (sqDist · c)).sum = ∑ j, (xs.map fun x => (x j - c j) ^ 2).sum := by
  induction xs with
  | nil => simp
  | cons x xs ih => rw [List.map_cons, List.sum_cons, ih, sqDist, ← Finset.sum_add_distrib]; rfl

/-- **The mean is nearest to its points**, in sum. -/
theorem sum_sqDist_mean_le [LinearOrder K] [IsStrictOrderedRing K] (xs : List (ι → K)) (c : ι → K) :
    (xs.map (sqDist · (mean xs))).sum ≤ (xs.map (sqDist · c)).sum := by
  cases xs with
  | nil => exact le_rfl
  | cons x xs =>
    rw [sum_map_sqDist, sum_map_sqDist]
    refine Finset.sum_le_sum fun j _ => ?_
    have hlength : ((x :: xs).length : K) ≠ 0 := Nat.cast_ne_zero.mpr (Nat.succ_ne_zero _)
    have hsum : ((x :: xs).map fun x => x j).sum = ((x :: xs).map fun x => x j).length * mean (x :: xs) j := by
      rw [List.length_map, mean, mul_div_cancel₀ _ hlength]
    have hsquares := sum_map_sub_sq_eq hsum (c j)
    rw [List.map_map, List.map_map] at hsquares
    have hrest : 0 ≤ (((x :: xs).map fun x => x j).length : K) * (mean (x :: xs) j - c j) ^ 2 :=
      mul_nonneg (Nat.cast_nonneg _) (sq_nonneg _)
    exact (le_add_of_nonneg_right hrest).trans_eq hsquares.symm

end Means

end LeftFelt.Lib.Nearest
