import Mathlib.Data.Finset.Max
import Mathlib.Algebra.Order.Field.Basic
import Mathlib.Tactic.Linarith

/-!
# Numbers that are far from each other

Only so many numbers that are far from each other have a place in an interval (`card_mul_le`).
-/

namespace LeftFelt.Lib.Packing

variable {K : Type*} [Field K] [LinearOrder K] [IsStrictOrderedRing K] {d : K}

/-- **As many gaps as there are**: the numbers, but one, have a gap each. -/
theorem card_mul_le {s : Finset K} (hfar : ∀ x ∈ s, ∀ y ∈ s, x ≠ y → d ≤ |x - y|) {a b : K} (hab : a ≤ b)
    (hd : 0 ≤ d) (hmem : ∀ x ∈ s, a ≤ x ∧ x ≤ b) : s.card * d ≤ b - a + d := by
  induction s using Finset.induction_on_max generalizing b with
  | empty =>
    rw [Finset.card_empty, Nat.cast_zero, zero_mul]
    linarith
  | insert m s hlt ih =>
    have hm : m ∉ s := fun hm => lt_irrefl m (hlt m hm)
    have hmb := hmem m (Finset.mem_insert_self m s)
    rw [Finset.card_insert_of_notMem hm, Nat.cast_add, Nat.cast_one, add_mul, one_mul]
    rcases s.eq_empty_or_nonempty with rfl | ⟨x, hx⟩
    · rw [Finset.card_empty, Nat.cast_zero, zero_mul]
      linarith
    · -- the others end a gap before the largest one
      have hgap : ∀ y ∈ s, a ≤ y ∧ y ≤ m - d := by
        intro y hy
        have hfar' := hfar m (Finset.mem_insert_self m s) y (Finset.mem_insert_of_mem hy) (hlt y hy).ne'
        rw [abs_of_pos (sub_pos.2 (hlt y hy))] at hfar'
        exact ⟨(hmem y (Finset.mem_insert_of_mem hy)).1, by linarith⟩
      have hrest := ih (fun y hy z hz => hfar y (Finset.mem_insert_of_mem hy) z (Finset.mem_insert_of_mem hz))
        ((hgap x hx).1.trans (hgap x hx).2) hgap
      linarith

end LeftFelt.Lib.Packing
