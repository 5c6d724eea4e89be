import Mathlib.Data.UInt
import Mathlib.Tactic.Ring

/-!
# Little-endian words

`leBytes k n` are the `k` low bytes of `n`, lowest first; `ofLe` puts bytes together again.
-/

namespace LeftFelt.Lib

/-- The `k` low bytes of `n`, lowest first. -/
def leBytes : Nat → Nat → List UInt8
  | 0, _ => []
  | k + 1, n => UInt8.ofNat n :: leBytes k (n / 256)

/-- The number that bytes stand for, lowest first. -/
def ofLe : List UInt8 → Nat
  | [] => 0
  | b :: bs => b.toNat + 256 * ofLe bs

@[simp] theorem length_leBytes : ∀ k n, (leBytes k n).length = k
  | 0, _ => rfl
  | k + 1, n => by rw [leBytes, List.length_cons, length_leBytes k]

/-- A number that fits is read back. -/
theorem ofLe_leBytes : ∀ {k n : Nat}, n < 256 ^ k → ofLe (leBytes k n) = n
  | 0, n, h => by
    rw [pow_zero] at h
    show 0 = n
    omega
  | k + 1, n, h => by
    have hdiv : n / 256 < 256 ^ k := by
      rw [pow_succ] at h
      exact Nat.div_lt_of_lt_mul (by rwa [Nat.mul_comm])
    rw [leBytes, ofLe, ofLe_leBytes hdiv, UInt8.toNat_ofNat']
    omega

/-- A word is read back. -/
theorem ofLe_toNat {w : Nat} (k : Nat) (hw : 8 * k = w) (n : BitVec w) :
    BitVec.ofNat w (ofLe (leBytes k n.toNat)) = n := by
  have hlt : n.toNat < 256 ^ k := by
    subst hw
    calc n.toNat < 2 ^ (8 * k) := n.isLt
      _ = 256 ^ k := by rw [Nat.pow_mul]
  rw [ofLe_leBytes hlt, BitVec.ofNat_toNat, BitVec.setWidth_eq]

end LeftFelt.Lib
