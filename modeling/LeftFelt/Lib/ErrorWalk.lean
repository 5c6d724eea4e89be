import Mathlib.Algebra.Order.Floor.Div
import Mathlib.Data.Rat.Floor
import Mathlib.Tactic.Common

/-!
# Steps along the shorter side

Someone who walks `w` steps ahead is to get `h ≤ w` steps aside. After `n` steps ahead there are `climb h w n` steps
aside, which is `n * h / w` rounded up (`climb_eq_ceil`). No division is needed for that: `n * h` and the steps aside
times `w` are summed up, and whenever the first sum is ahead of the second one there is a step aside (`climb_succ`).
-/

namespace LeftFelt.Lib.ErrorWalk

/-- The steps aside after `n` steps ahead. -/
def climb (h w n : Nat) : Nat := (n * h) ⌈/⌉ w

variable {h w n m : Nat}

theorem climb_le_iff (hw : 0 < w) : climb h w n ≤ m ↔ n * h ≤ w * m := ceilDiv_le_iff_le_mul hw

theorem lt_climb_iff (hw : 0 < w) : m < climb h w n ↔ w * m < n * h := by
  rw [← not_le, climb_le_iff hw, not_le]

theorem climb_zero (h w : Nat) : climb h w 0 = 0 := by
  rw [climb, zero_mul, zero_ceilDiv]

/-- Nobody walks to the side if nobody walks ahead. -/
theorem climb_zero_right (h n : Nat) : climb h 0 n = 0 := ceilDiv_zero _

theorem climb_mono (h w : Nat) (hnm : n ≤ m) : climb h w n ≤ climb h w m := by
  rcases w.eq_zero_or_pos with rfl | hw
  · rw [climb_zero_right, climb_zero_right]
  · rw [climb_le_iff hw]
    exact (Nat.mul_le_mul_right h hnm).trans ((climb_le_iff hw).1 le_rfl)

/-- **One step.** -/
theorem climb_succ (hle : h ≤ w) (n : Nat) :
    climb h w (n + 1) = if climb h w n * w < (n + 1) * h then climb h w n + 1 else climb h w n := by
  rcases w.eq_zero_or_pos with rfl | hw
  · rw [climb_zero_right, climb_zero_right, Nat.le_zero.1 hle, if_neg (by omega)]
  · have hlow : climb h w n ≤ climb h w (n + 1) := climb_mono h w n.le_succ
    have hstep : climb h w (n + 1) ≤ climb h w n + 1 := by
      have hn := (climb_le_iff (h := h) (n := n) hw).1 le_rfl
      rw [climb_le_iff hw, add_mul, one_mul, mul_add, mul_one]
      exact Nat.add_le_add hn hle
    have hlt : climb h w n * w < (n + 1) * h ↔ climb h w n < climb h w (n + 1) := by
      rw [lt_climb_iff hw, mul_comm]
    split_ifs with hif
    · have := hlt.1 hif
      omega
    · have := mt hlt.2 hif
      omega

/-- There is no step aside after a step ahead, or one. -/
theorem climb_succ_eq_or (hle : h ≤ w) (n : Nat) :
    climb h w (n + 1) = climb h w n ∨ climb h w (n + 1) = climb h w n + 1 := by
  rw [climb_succ hle]
  split_ifs
  · exact .inr rfl
  · exact .inl rfl

/-- All steps ahead give all steps aside. -/
theorem climb_self (hle : h ≤ w) : climb h w w = h := by
  rcases w.eq_zero_or_pos with rfl | hw
  · rw [climb_zero_right, Nat.le_zero.1 hle]
  · refine le_antisymm ((climb_le_iff hw).2 le_rfl) ?_
    have := (climb_le_iff (h := h) (n := w) hw).1 le_rfl
    exact Nat.le_of_mul_le_mul_left this hw

/-- It is never too late for a step aside. -/
theorem climb_le_height (hle : h ≤ w) (hn : n ≤ w) : climb h w n ≤ h :=
  (climb_mono h w hn).trans (climb_self hle).le

theorem climb_eq_ceil (h w n : Nat) : (climb h w n : Int) = ⌈(n * h : ℚ) / w⌉ := by
  rcases w.eq_zero_or_pos with rfl | hw
  · rw [climb_zero_right, Nat.cast_zero, Nat.cast_zero, div_zero, Int.ceil_zero]
  · have hw' : (0 : ℚ) < w := by exact_mod_cast hw
    refine eq_of_forall_ge_iff fun c => ?_
    rw [Int.ceil_le, div_le_iff₀ hw']
    rcases lt_or_ge c 0 with hc | hc
    · have hneg : (c : ℚ) * w < 0 := mul_neg_of_neg_of_pos (by exact_mod_cast hc) hw'
      have hpos : (0 : ℚ) ≤ n * h := by positivity
      exact iff_of_false (by omega) (by linarith)
    · obtain ⟨c, rfl⟩ := Int.eq_ofNat_of_zero_le hc
      rw [Nat.cast_le, climb_le_iff hw, mul_comm w]
      exact_mod_cast Iff.rfl

end LeftFelt.Lib.ErrorWalk
