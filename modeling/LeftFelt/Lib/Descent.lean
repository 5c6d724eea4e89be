import Mathlib.Data.Finset.Card
import Mathlib.Data.Set.Finite.Basic
import Mathlib.Logic.Function.Iterate
import Mathlib.Order.Basic

/-!
# Descent among finitely many states

A step that costs something less whenever it changes the state cannot change it for ever, if there are only finitely many
states that it can come to: after as many steps as there are such states it changes nothing any more (`fixed_of_card`).
-/

namespace LeftFelt.Lib.Descent

variable {S K : Type*} [Preorder K] {f : S → S} {cost : S → K} {s : S}

/-- A state that a step leaves as it is stays for good. -/
theorem iterate_eq_of_fixed {n m : Nat} (hfixed : f (f^[n] s) = f^[n] s) (hle : n ≤ m) : f^[m] s = f^[n] s := by
  induction m, hle using Nat.le_induction with
  | base => rfl
  | succ m _ ih => rw [Function.iterate_succ_apply', ih, hfixed]

/-- While the state changes, the cost gets less. -/
theorem cost_lt_of_lt {n : Nat} (hstep : ∀ k, f (f^[k] s) ≠ f^[k] s → cost (f (f^[k] s)) < cost (f^[k] s))
    (hmoves : f (f^[n] s) ≠ f^[n] s) {i j : Nat} (hij : i < j) (hj : j ≤ n + 1) : cost (f^[j] s) < cost (f^[i] s) := by
  induction j, hij using Nat.le_induction with
  | base =>
    rw [Function.iterate_succ_apply']
    refine hstep i fun hfixed => hmoves ?_
    rw [iterate_eq_of_fixed hfixed (by omega : i ≤ n), hfixed]
  | succ j _ ih =>
    have hlast : cost (f^[j + 1] s) < cost (f^[j] s) := by
      rw [Function.iterate_succ_apply']
      refine hstep j fun hfixed => hmoves ?_
      rw [iterate_eq_of_fixed hfixed (by omega : j ≤ n), hfixed]
    exact hlast.trans (ih (by omega))

/-- **The steps come to rest**, at the latest when every state has been visited. -/
theorem fixed_of_card (f : S → S) (cost : S → K)
    (hstep : ∀ k, f (f^[k] s) ≠ f^[k] s → cost (f (f^[k] s)) < cost (f^[k] s)) {A : Finset S}
    (hA : ∀ k, f^[k] s ∈ A) {n : Nat} (hn : A.card ≤ n + 1) : f (f^[n] s) = f^[n] s := by
  by_contra hmoves
  have hinj : Set.InjOn (fun k => f^[k] s) (Finset.range (n + 2)) := by
    intro i hi j hj heq
    simp only [Finset.coe_range, Set.mem_Iio] at hi hj
    rcases lt_trichotomy i j with hlt | rfl | hlt
    · exact absurd (congrArg cost heq).symm (cost_lt_of_lt hstep hmoves hlt (by omega)).ne
    · rfl
    · exact absurd (congrArg cost heq) (cost_lt_of_lt hstep hmoves hlt (by omega)).ne
  have hcard := Finset.card_le_card_of_injOn _ (fun k _ => hA k) hinj
  rw [Finset.card_range] at hcard
  omega

end LeftFelt.Lib.Descent
