import Mathlib.Algebra.Order.Ring.Int
import Mathlib.Data.Int.DivMod
import Mathlib.Tactic.Common
import Mathlib.Tactic.Ring

/-!
# The type `int`

An `int` has 32 bits. What an operation gives is either checked (`int`), where an overflow leaves everything after it
undefined, or wraps around (`wrap`, or `BitVec 32`), as it does in the compiled programs.

A sum of `k` numbers is divided by `k`, truncating. If all of them are moved by the same amount so that this mean becomes
`x`, it does become `x` unless the remainder of the sum has another sign than `x`, or the new sum leaves an `int`
(`sdiv_moved_iff`).
-/

namespace LeftFelt.Lib.CInt

/-- The number is an `int`. -/
def Fits (n : Int) : Prop := -2 ^ 31 ≤ n ∧ n < 2 ^ 31

instance (n : Int) : Decidable (Fits n) := inferInstanceAs (Decidable (_ ∧ _))

/-- The result of an operation; an overflow leaves it undefined. -/
def int (n : Int) : Option Int := if Fits n then some n else none

/-- The result of an operation; an overflow wraps around. -/
def wrap (n : Int) : Int := n.bmod (2 ^ 32)

/-- `abs(n)`. -/
protected def abs (n : Int) : Option Int := int n.natAbs

variable {n m k x r : Int}

theorem int_of_fits (h : Fits n) : int n = some n := if_pos h

/-- What follows an operation is reached if it does not overflow. -/
theorem int_bind_eq_some {α : Type*} {f : Int → Option α} {a : α} :
    (int n).bind f = some a ↔ Fits n ∧ f n = some a := by
  rw [int]
  split_ifs with h
  · simp [h]
  · simp [h]

theorem fits_toInt (a : BitVec 32) : Fits a.toInt := ⟨BitVec.le_toInt a, BitVec.toInt_lt⟩

/-- What lies between two numbers of the type is one as well. -/
theorem Fits.between (hn : Fits n) (hm : Fits m) (hlow : min n m ≤ k) (hhigh : k ≤ max n m) : Fits k := by
  rw [Fits] at *
  omega

/-- A factor between 0 and one that fits. -/
theorem Fits.mul_le (h : Fits (k * n)) (h0 : 0 ≤ m) (hle : m ≤ k) : Fits (m * n) := by
  have hzero : Fits 0 := by decide
  rcases le_total 0 n with hn | hn
  · exact hzero.between h (by simp [mul_nonneg h0 hn]) (le_max_of_le_right (mul_le_mul_of_nonneg_right hle hn))
  · have hm : m * n ≤ 0 := mul_nonpos_of_nonneg_of_nonpos h0 hn
    exact hzero.between h (min_le_of_right_le (mul_le_mul_of_nonpos_right hle hn)) (le_max_of_le_left hm)

theorem Fits.natAbs_le (h : Fits n) : n.natAbs ≤ 2 ^ 31 := by
  rw [Fits] at h
  omega

theorem fits_of_natAbs_lt (h : n.natAbs < 2 ^ 31) : Fits n := by
  rw [Fits]
  omega

theorem fits_natCast {n : Nat} (h : n < 2 ^ 31) : Fits n := by
  rw [Fits]
  omega

theorem fits_bmod (n : Int) : Fits (n.bmod (2 ^ 32)) := by
  have hle := Int.le_bmod (x := n) (m := 2 ^ 32) (by decide)
  have hlt := Int.bmod_lt (x := n) (m := 2 ^ 32) (by decide)
  constructor
  · exact le_trans (by decide) hle
  · exact lt_of_lt_of_le hlt (by decide)

theorem bmod_of_fits (h : Fits n) : n.bmod (2 ^ 32) = n := by
  obtain ⟨hle, hlt⟩ := h
  exact Int.bmod_eq_of_le (le_trans (by decide) hle) (lt_of_lt_of_le hlt (by decide))

theorem wrap_of_fits (h : Fits n) : wrap n = n := bmod_of_fits h

theorem wrap_of_nonneg (h0 : 0 ≤ n) (h : n < 2 ^ 31) : wrap n = n := wrap_of_fits ⟨by omega, h⟩

theorem fits_wrap (n : Int) : Fits (wrap n) := fits_bmod n

/-- A sum that is too large comes out smaller than the first number. -/
theorem wrap_add_lt (hn : Fits n) (hm : Fits m) (h0 : 0 ≤ m) (h : ¬Fits (n + m)) : wrap (n + m) < n := by
  have heq : wrap (n + m) = n + m - 2 ^ 32 := by
    rw [Fits] at *
    rw [wrap, Int.bmod_def]
    omega
  rw [Fits] at hm
  omega

/-! ## Truncated means -/

/-- With a remainder of the other sign the quotient is next to `x`. -/
theorem tdiv_iff (hr : -k < r ∧ r < k) : (k * x + r).tdiv k = x ↔ 0 ≤ r * x := by
  have hk : 0 < k := by omega
  -- the case of a positive quotient, which serves for negative ones as well
  have hpos : ∀ {x r : Int}, -k < r ∧ r < k → 0 < x → ((k * x + r).tdiv k = x ↔ 0 ≤ r * x) := by
    intro x r hr hx
    have hkx : k * 1 ≤ k * x := mul_le_mul_of_nonneg_left hx hk.le
    rw [Int.tdiv_eq_ediv_of_nonneg (by omega), Int.mul_add_ediv_left _ _ hk.ne', mul_nonneg_iff_of_pos_right hx]
    constructor
    · intro h
      have hzero : r / k = 0 := by omega
      exact (Int.ediv_nonneg_iff_of_pos hk).1 hzero.ge
    · intro h
      rw [Int.ediv_eq_zero_of_lt h hr.2, add_zero]
  rcases lt_trichotomy x 0 with hx | rfl | hx
  · have hneg := hpos (x := -x) (r := -r) (by omega) (by omega)
    have hsum : k * -x + -r = -(k * x + r) := by ring
    rw [hsum, Int.neg_tdiv, neg_inj, neg_mul_neg] at hneg
    exact hneg
  · rw [mul_zero, zero_add, mul_zero]
    refine iff_of_true ?_ le_rfl
    rcases le_or_gt 0 r with h | h
    · exact Int.tdiv_eq_zero_of_lt h hr.2
    · rw [← neg_neg r, Int.neg_tdiv, Int.tdiv_eq_zero_of_lt (by omega) (by omega), neg_zero]
  · exact hpos hr hx

theorem tmod_bounds (hk : 0 < k) (n : Int) : -k < n.tmod k ∧ n.tmod k < k := by
  refine ⟨?_, Int.tmod_lt_of_pos n hk⟩
  have hneg := Int.tmod_lt_of_pos (-n) hk
  rw [Int.neg_tmod] at hneg
  omega

/-- The same with a sum that wraps around. -/
theorem bmod_tdiv_iff (hk : k ≤ 2 ^ 31) (hr : -k < r ∧ r < k) :
    ((k * x + r).bmod (2 ^ 32)).tdiv k = x ↔ Fits (k * x + r) ∧ 0 ≤ r * x := by
  constructor
  · intro h
    have hk0 : 0 < k := by omega
    obtain ⟨hlow, hhigh⟩ := tmod_bounds hk0 ((k * x + r).bmod (2 ^ 32))
    have hdecomp := Int.mul_tdiv_add_tmod ((k * x + r).bmod (2 ^ 32)) k
    rw [h] at hdecomp
    -- the two sums differ by a multiple of 2^32, and by less than that
    obtain ⟨c, hc⟩ := Int.dvd_self_sub_bmod (x := k * x + r) (m := 2 ^ 32)
    have hc0 : c = 0 := by
      generalize (k * x + r).bmod (2 ^ 32) = b at *
      omega
    rw [hc0, mul_zero, sub_eq_zero] at hc
    rw [← hc] at h
    exact ⟨hc ▸ fits_bmod _, (tdiv_iff hr).1 h⟩
  · rintro ⟨hfits, hsign⟩
    rw [bmod_of_fits hfits]
    exact (tdiv_iff hr).2 hsign

/-- `k` numbers with the sum `s` can be moved so that their mean becomes `x`: the remainder has no other sign than `x`,
and the new sum does not overflow. -/
def Reaches (k s x : BitVec 32) : Prop :=
  Fits (k.toInt * x.toInt + s.toInt.tmod k.toInt) ∧ 0 ≤ s.toInt.tmod k.toInt * x.toInt

instance (k s x : BitVec 32) : Decidable (Reaches k s x) := inferInstanceAs (Decidable (_ ∧ _))

/-- **When a mean is moved to its target.** -/
theorem sdiv_moved_iff {k : BitVec 32} (hk : 2 ≤ k.toInt) (s x : BitVec 32) :
    (s + k * (x - s.sdiv k)).sdiv k = x ↔ Reaches k s x := by
  have hlt : k.toInt < 2 ^ 31 := by
    have h := BitVec.toInt_lt (x := k)
    exact lt_of_lt_of_le h (by decide)
  have hne : ∀ a : BitVec 32, a ≠ BitVec.intMin 32 ∨ k ≠ -1#32 := fun a => by
    refine .inr fun h => ?_
    rw [h] at hk
    exact absurd hk (by decide)
  have hsum : (s + k * (x - s.sdiv k)).toInt = (k.toInt * x.toInt + s.toInt.tmod k.toInt).bmod (2 ^ 32) := by
    have hexact : s.toInt + k.toInt * (x.toInt - s.toInt.tdiv k.toInt) =
        k.toInt * x.toInt + s.toInt.tmod k.toInt := by
      have h := Int.mul_tdiv_add_tmod s.toInt k.toInt
      rw [mul_sub]
      omega
    rw [BitVec.toInt_add, BitVec.toInt_mul, BitVec.toInt_sub, BitVec.toInt_sdiv_of_ne_or_ne _ _ (hne s),
      Int.mul_bmod_bmod, Int.add_bmod_bmod, hexact]
  rw [← BitVec.toInt_inj, BitVec.toInt_sdiv_of_ne_or_ne _ _ (hne _), hsum]
  exact bmod_tdiv_iff hlt.le (tmod_bounds (by omega) _)

end LeftFelt.Lib.CInt
