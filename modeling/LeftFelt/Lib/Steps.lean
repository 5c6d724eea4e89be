import LeftFelt.Lib.Checked
import Mathlib.Algebra.Order.Ring.Int
import Mathlib.Algebra.Order.Group.Unbundled.Int
import Mathlib.Data.List.ProdSigma
import Mathlib.Tactic.Linarith
import Mathlib.Tactic.Ring

/-!
# Loops with a step

The loop `for (i = lo; i <= hi; i += step)` goes through the numbers of `steps lo hi step`. Two nested loops go through
the pairs (`foldlM_foldlM`), and a loop that only stops at checks of its own numbers comes to its end if all of them
pass (`foldlM_ite`).
-/

namespace LeftFelt.Lib

/-- The values of `i` in `for (i = lo; i <= hi; i += step)`, for a positive step. -/
def steps (lo hi step : Int) : List Int :=
  if 0 < step ∧ lo ≤ hi then lo :: steps (lo + step) hi step else []
termination_by (hi + 1 - lo).toNat

variable {lo hi step v : Int}

theorem mem_steps (hstep : 0 < step) : v ∈ steps lo hi step ↔ ∃ k : Nat, v = lo + k * step ∧ v ≤ hi := by
  fun_induction steps lo hi step with
  | case1 lo h ih =>
    rw [List.mem_cons, ih]
    constructor
    · rintro (rfl | ⟨k, rfl, hle⟩)
      · exact ⟨0, by simp, h.2⟩
      · exact ⟨k + 1, by push_cast; ring, hle⟩
    · rintro ⟨k, rfl, hle⟩
      cases k with
      | zero => exact .inl (by simp)
      | succ k => exact .inr ⟨k, by push_cast; ring, hle⟩
  | case2 lo h =>
    simp only [List.not_mem_nil, false_iff]
    rintro ⟨k, rfl, hle⟩
    have : 0 ≤ k * step := by positivity
    exact h ⟨hstep, by omega⟩

/-- From a number of steps below 0 to as many above it. -/
theorem mem_steps_symm (hstep : 0 < step) (n : Nat) :
    v ∈ steps (-(n * step)) (n * step) step ↔ ∃ a : Int, |a| ≤ n ∧ v = a * step := by
  rw [mem_steps hstep]
  constructor
  · rintro ⟨k, rfl, hle⟩
    have hk : (k - n : Int) * step ≤ n * step := by linarith [sub_mul (k : Int) n step]
    have := le_of_mul_le_mul_right hk hstep
    exact ⟨k - n, abs_le.2 ⟨by omega, this⟩, by ring⟩
  · rintro ⟨a, ha, rfl⟩
    obtain ⟨hlow, hhigh⟩ := abs_le.1 ha
    refine ⟨(a + n).toNat, ?_, mul_le_mul_of_nonneg_right hhigh hstep.le⟩
    rw [Int.toNat_of_nonneg (by omega)]
    ring

namespace Checked

variable {α β σ : Type*}

/-- Two nested loops go through the pairs. -/
theorem foldlM_foldlM (f : σ → α → β → Option σ) (as : List α) (bs : List β) (s : σ) :
    as.foldlM (fun s a => bs.foldlM (fun s b => f s a b) s) s = (as ×ˢ bs).foldlM (fun s p => f s p.1 p.2) s := by
  induction as generalizing s with
  | nil => rfl
  | cons a as ih =>
    rw [List.foldlM_cons, List.product_cons, List.foldlM_append, List.foldlM_map]
    exact congrArg (Option.bind _) (funext ih)

/-- A loop that stops at checks which do not look at its state. -/
theorem foldlM_ite {ok : α → Prop} [DecidablePred ok] (f : σ → α → σ) (l : List α) (s : σ) :
    l.foldlM (fun s a => if ok a then some (f s a) else none) s =
      if ∀ a ∈ l, ok a then some (l.foldl f s) else none := by
  induction l generalizing s with
  | nil => simp
  | cons a l ih =>
    rw [List.foldlM_cons, List.foldl_cons]
    by_cases ha : ok a
    · simp only [List.forall_mem_cons, ha, true_and]
      exact ih (f s a)
    · simp [ha]

end Checked

end LeftFelt.Lib
