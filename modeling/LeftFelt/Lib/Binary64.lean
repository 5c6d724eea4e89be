import LeftFelt.Lib.FloatFormat

/-!
# Integers in binary64

The logical model of `double` (`Float.Model`: bit patterns, correctly rounded operations) on the integers of an `int`:
conversion is exact (`ofInt_pos`, `ofInt_neg`), an integer over itself or over its opposite is exactly `±1.0`
(`div_self`, `div_neg_self`), and multiplying by `±1.0` and truncating gives back the integer or its opposite
(`cInt_mul_one`, `cInt_mul_neg_one`). Of other rates only the sign is followed (`cInt_mul_div_nonneg`).

Every nonzero integer below `2 ^ 31` has the one normal form `canon`: its digits filled up to 53 bits. The operations
are followed on these forms; nothing is ever rounded, because only zeros are shifted out (`round_exact`).
-/

namespace LeftFelt.Lib.Binary64

open Float.Model Float.Model.UnpackedFloat FloatFormat

/-- A normal number survives being packed into 64 bits. -/
theorem unpack_pack (s : Sign) {m : Nat} {e : Int} (hm : m.log2 = 52) (h0 : 0 < m) (he : -1074 ≤ e)
    (he' : e ≤ 971) : Float.Model.unpack (Float.Model.pack (.finite s m e h0)) = .finite s m e h0 := by
  have hbits : Format.binary64.mantissaBits = 53 := rfl
  have hbias : Format.binary64.exponentBias = 1023 := rfl
  exact FloatFormat.unpack_pack s h0 (by omega) he (by omega)

/-! ## Integers -/

/-- The mantissa of the integer `n`: its digits, filled up to 53 bits. -/
def mant (n : Nat) : Nat := n * 2 ^ (52 - n.log2)

theorem mant_pos {n : Nat} (h0 : 0 < n) : 0 < mant n := by
  unfold mant
  positivity

theorem log2_mant {n : Nat} (h0 : 0 < n) (hn : n.log2 ≤ 52) : (mant n).log2 = 52 := by
  rw [mant, log2_mul_two_pow _ h0]
  omega

/-- The integer `±n` as a binary64 number. -/
def canon (s : Sign) (n : Nat) (h0 : 0 < n) : UnpackedFloat :=
  .finite s (mant n) (n.log2 - 52) (mant_pos h0)

/-- Any way of writing `±n` with enough digits rounds to the normal form. -/
theorem round_canon (s : Sign) {n : Nat} (h0 : 0 < n) (hn : n.log2 ≤ 52) (k : Nat) (e : Int)
    (he : e + k = n.log2 - 52) :
    roundWithAccuracy Format.binary64 s (mant n * 2 ^ k) e .exact = canon s n h0 := by
  have hmin : Format.binary64.minExponent = -1074 := rfl
  rw [round_exact s k e (by rw [log2_mant h0 hn]; rfl) (by omega) (mant_pos h0)]
  simp only [canon, he]

theorem round_int (s : Sign) {n : Nat} (h0 : 0 < n) (hn : n.log2 ≤ 52) :
    UnpackedFloat.round Format.binary64 s n 0 = canon s n h0 := by
  have hmin : Format.binary64.minExponent = -1074 := rfl
  have hbits : Format.binary64.mantissaBits = 53 := rfl
  rw [round_digits s (52 - n.log2) h0 (by omega) (by omega)]
  simp only [canon, mant]
  congr 1
  omega

/-- The conversion of a positive integer is exact. -/
theorem ofInt_pos {n : Nat} (h0 : 0 < n) (hn : n.log2 ≤ 52) :
    Float.Model.ofInt n = Float.Model.pack (canon .positive n h0) := by
  have hc : compare (n : Int) 0 = .gt := compare_gt_iff_gt.2 (by omega)
  simp only [Float.Model.ofInt, UnpackedFloat.ofInt, UnpackedFloat.normalize, hc, Int.toNat_natCast, round_int _ h0 hn]

/-- The conversion of a negative integer is exact. -/
theorem ofInt_neg {n : Nat} (h0 : 0 < n) (hn : n.log2 ≤ 52) :
    Float.Model.ofInt (-n) = Float.Model.pack (canon .negative n h0) := by
  have hc : compare (-(n : Int)) 0 = .lt := compare_lt_iff_lt.2 (by omega)
  simp only [Float.Model.ofInt, UnpackedFloat.ofInt, UnpackedFloat.normalize, hc, neg_neg, Int.toNat_natCast,
    round_int _ h0 hn]

/-! ## Arithmetic on normal forms -/

theorem unpack_canon (s : Sign) {n : Nat} (h0 : 0 < n) (hn : n.log2 ≤ 52) :
    (Float.Model.pack (canon s n h0)).unpack = canon s n h0 :=
  unpack_pack _ (log2_mant h0 hn) _ (by omega) (by omega)

/-- Multiplying by `±1` keeps the digits. -/
theorem mul_canon_one (s t : Sign) {n : Nat} (h0 : 0 < n) (hn : n.log2 ≤ 52) :
    UnpackedFloat.mul Format.binary64 (canon s n h0) (canon t 1 Nat.one_pos) = canon (s * t) n h0 := by
  have h1 : mant 1 = 2 ^ 52 := rfl
  have hk := round_canon (s * t) h0 hn 52 ((n.log2 : Int) - 52 + ((1 : Nat).log2 - 52)) (by
    rw [show (1 : Nat).log2 = 0 from rfl]
    push_cast
    omega)
  rw [← hk, ← h1]
  rfl

/-- A number over itself is `±1`. -/
theorem div_canon_self (s t : Sign) {n : Nat} (h0 : 0 < n) :
    UnpackedFloat.div Format.binary64 (canon s n h0) (canon t n h0) = canon (s / t) 1 Nat.one_pos := by
  have hpos := mant_pos h0
  have hcore : divCore Format.binary64 (mant n) (n.log2 - 52) (mant n) (n.log2 - 52) =
      (mant 1 * 2 ^ 1, -53, .exact) := by
    have ht : Format.binary64.targetExponent 0 = -53 := rfl
    simp only [divCore, sub_self, ht, Nat.shiftLeft_eq, Nat.mul_mod_right, accuracyOfFraction, if_true]
    rw [Nat.mul_div_cancel_left _ hpos]
    rfl
  have hk := round_canon (s / t) Nat.one_pos (by decide) 1 (-53) (by decide)
  simp only [canon, UnpackedFloat.div, hcore]
  exact hk

theorem toInt_canon (s : Sign) {n : Nat} (h0 : 0 < n) (hn : n.log2 ≤ 52) (lo hi : Int) :
    (canon s n h0).toInt lo hi = s.apply n := by
  have h1 : ((n.log2 : Int) - 52 - 0).toNat = 0 := Int.toNat_of_nonpos (by have := Int.ofNat_le.2 hn; omega)
  have h2 : (0 - ((n.log2 : Int) - 52 - ((0 : Nat) : Int))).toNat = 52 - n.log2 := by omega
  simp only [canon, UnpackedFloat.toInt, roundToInt, decreaseExponent, h1, Nat.shiftLeft_zero, shiftToExponent, h2,
    ExtendedMantissa.ofMantissaAndAccuracy, mant, shiftRight_exact]

/-! ## The conversions of C -/

/-- The cast `(int)x`: truncation towards zero. -/
def cInt (x : Float.Model) : Int := x.toInt32.toInt

theorem log2_le_of_int {n : Nat} (h0 : 0 < n) (hn : n < 2 ^ 31) : n.log2 ≤ 52 := by
  have h := (Nat.log2_lt (k := 31) h0.ne').2 hn
  omega

theorem cInt_canon (s : Sign) {n : Nat} (h0 : 0 < n) (hn : n < 2 ^ 31) :
    cInt (Float.Model.pack (canon s n h0)) = s.apply n := by
  have hl := log2_le_of_int h0 hn
  have hr : -(2 : Int) ^ 31 ≤ s.apply n ∧ s.apply n ≤ 2 ^ 31 - 1 := by
    cases s <;> simp only [Sign.apply] <;> omega
  have hmin : Int32.minValue.toInt = -2 ^ 31 := by decide
  have hmax : Int32.maxValue.toInt = 2 ^ 31 - 1 := by decide
  simp only [cInt, Float.Model.toInt32, unpack_canon s h0 hl, UnpackedFloat.toInt32, toInt_canon s h0 hl]
  rw [Int32.ofIntClamp, dif_pos (by rw [hmin]; exact hr.1), dif_pos (by rw [hmax]; exact hr.2), Int32.toInt_ofIntLE]

/-- `(double)n / n = 1.0` for a positive `int`. -/
theorem div_self {n : Nat} (h0 : 0 < n) (hn : n < 2 ^ 31) :
    Float.Model.ofInt n / Float.Model.ofInt n = Float.Model.ofInt (1 : Nat) := by
  have hl := log2_le_of_int h0 hn
  rw [ofInt_pos h0 hl, ofInt_pos Nat.one_pos (by decide)]
  show Float.Model.pack _ = _
  rw [unpack_canon _ h0 hl, div_canon_self _ _ h0]
  rfl

/-- `(double)n / -n = -1.0` for a positive `int`. -/
theorem div_neg_self {n : Nat} (h0 : 0 < n) (hn : n < 2 ^ 31) :
    Float.Model.ofInt n / Float.Model.ofInt (-n) = Float.Model.ofInt (-(1 : Nat)) := by
  have hl := log2_le_of_int h0 hn
  rw [ofInt_pos h0 hl, ofInt_neg h0 hl, ofInt_neg Nat.one_pos (by decide)]
  show Float.Model.pack _ = _
  rw [unpack_canon _ h0 hl, unpack_canon _ h0 hl, div_canon_self _ _ h0]
  rfl

/-- `(int)(n * 1.0) = n` for a nonnegative `int`. -/
theorem cInt_mul_one {n : Nat} (hn : n < 2 ^ 31) : cInt (Float.Model.ofInt n * Float.Model.ofInt (1 : Nat)) = n := by
  rcases Nat.eq_zero_or_pos n with rfl | h0
  · decide +kernel
  have hl := log2_le_of_int h0 hn
  rw [ofInt_pos h0 hl, ofInt_pos Nat.one_pos (by decide)]
  show cInt (Float.Model.pack _) = _
  rw [unpack_canon _ h0 hl, unpack_canon _ Nat.one_pos (by decide), mul_canon_one _ _ h0 hl, cInt_canon _ h0 hn]
  rfl

/-- `(int)(n * -1.0) = -n` for a nonnegative `int`. -/
theorem cInt_mul_neg_one {n : Nat} (hn : n < 2 ^ 31) :
    cInt (Float.Model.ofInt n * Float.Model.ofInt (-(1 : Nat))) = -n := by
  rcases Nat.eq_zero_or_pos n with rfl | h0
  · decide +kernel
  have hl := log2_le_of_int h0 hn
  rw [ofInt_pos h0 hl, ofInt_neg Nat.one_pos (by decide)]
  show cInt (Float.Model.pack _) = _
  rw [unpack_canon _ h0 hl, unpack_canon _ Nat.one_pos (by decide), mul_canon_one _ _ h0 hl, cInt_canon _ h0 hn]
  rfl

/-! ## Signs -/

/-- No sign of a number below zero. -/
def Positive : UnpackedFloat → Prop
  | .notANumber => True
  | .infinity s => s = .positive
  | .zero s => s = .positive
  | .finite s _ _ _ => s = .positive

theorem positive_round {m : Nat} {e : Int} {a : Accuracy} :
    Positive (roundWithAccuracy Format.binary64 .positive m e a) := by
  simp only [roundWithAccuracy]
  split
  · rfl
  · rfl

theorem positive_mul {a b : UnpackedFloat} (ha : Positive a) (hb : Positive b) :
    Positive (UnpackedFloat.mul Format.binary64 a b) := by
  cases a <;> cases b <;> simp only [Positive] at ha hb <;> subst_vars <;>
    first | exact positive_round | trivial

theorem positive_div {a b : UnpackedFloat} (ha : Positive a) (hb : Positive b) :
    Positive (UnpackedFloat.div Format.binary64 a b) := by
  cases a <;> cases b <;> simp only [Positive] at ha hb <;> subst_vars <;>
    first | exact positive_round | trivial

/-- A sign bit of zero. -/
theorem positive_unpack (e : BitVec 11) (m : BitVec 52) :
    Positive (UnpackedFloat.unpack Format.binary64 (packComponents Format.binary64 .positive e m)) := by
  simp only [UnpackedFloat.unpack, sign_roundtrip]
  split_ifs
  · rfl
  · trivial
  · rfl
  · rfl
  · rfl

theorem positive_pack {a : UnpackedFloat} (ha : Positive a) : Positive (Float.Model.pack a).unpack := by
  show Positive (UnpackedFloat.unpack Format.binary64 (UnpackedFloat.pack Format.binary64 a))
  cases a with
  | notANumber => exact positive_unpack _ _
  | infinity s =>
    obtain rfl : s = .positive := ha
    exact positive_unpack _ _
  | zero s =>
    obtain rfl : s = .positive := ha
    exact positive_unpack _ _
  | finite s m e h =>
    obtain rfl : s = .positive := ha
    simp only [UnpackedFloat.pack]
    split_ifs
    · exact positive_unpack _ _
    · exact positive_unpack _ _
    · exact positive_unpack _ _

theorem positive_ofInt (n : Nat) : Positive (Float.Model.ofInt n).unpack := by
  refine positive_pack ?_
  simp only [UnpackedFloat.ofInt, UnpackedFloat.normalize]
  split
  · rename_i h
    exact absurd (compare_lt_iff_lt.1 h) (by omega)
  · rfl
  · exact positive_round

/-- The cast of a number that is not below zero. -/
theorem cInt_nonneg {x : Float.Model} (h : Positive x.unpack) : 0 ≤ cInt x := by
  have hmax : Int32.maxValue.toInt = 2 ^ 31 - 1 := by decide
  have hint : 0 ≤ x.unpack.toInt Int32.minValue.toInt Int32.maxValue.toInt := by
    cases hx : x.unpack with
    | notANumber => simp [UnpackedFloat.toInt]
    | infinity s =>
      obtain rfl : s = .positive := by rwa [hx] at h
      simp only [UnpackedFloat.toInt]
      omega
    | zero s => simp [UnpackedFloat.toInt]
    | finite s m e hm =>
      obtain rfl : s = .positive := by rwa [hx] at h
      simp [UnpackedFloat.toInt, roundToInt, Sign.apply]
  have hmin : Int32.minValue.toInt = -2 ^ 31 := by decide
  simp only [cInt, Float.Model.toInt32, UnpackedFloat.toInt32]
  rw [Int32.ofIntClamp, dif_pos (by omega)]
  split
  · rw [Int32.toInt_ofIntLE]
    exact hint
  · omega

/-- `(int)(i * ((double)m / n))` for integers that are not below zero. -/
theorem cInt_mul_div_nonneg (i m n : Nat) :
    0 ≤ cInt (Float.Model.ofInt i * (Float.Model.ofInt m / Float.Model.ofInt n)) :=
  cInt_nonneg (positive_pack (positive_mul (positive_ofInt i)
    (positive_pack (positive_div (positive_ofInt m) (positive_ofInt n)))))

end LeftFelt.Lib.Binary64
