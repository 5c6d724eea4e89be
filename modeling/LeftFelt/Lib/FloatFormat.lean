import Mathlib

/-!
# Floating-point numbers of any format

The logical model of floating-point numbers (`UnpackedFloat`: a sign, a mantissa and an exponent) in a `Format`, read as
rational numbers: `HasValue F x v` says that `x` is zero or a normal number of `F`, of value `v`, and `Rounds F y v` that
`v` is `y` rounded, off by at most half a unit in the last place of `v`. Every operation rounds the exact result
(`hasValue_mul`, `hasValue_div`, `hasValue_add`, `hasValue_sub`, `hasValue_normalize`), and packing a normal number into
bits loses nothing (`unpack_pack`). The one hypothesis is that the exact result is zero or within the range of normal
numbers (`InRange`).

Shifting a mantissa out bit by bit keeps a round bit and a sticky bit; `Holds` is what these say about the number
shifted (`holds_shiftRightOne`), and enough to round it to nearest (`roundedMantissa_near`).
-/

namespace LeftFelt.Lib.FloatFormat

open Float.Model Float.Model.UnpackedFloat

variable {F : Format}

/-! ## The format -/

theorem minExponent_eq (F : Format) : F.minExponent = 2 - F.exponentBias - F.mantissaBits := by
  have hpos : 1 ≤ 2 ^ (F.exponentBits - 1) := Nat.one_le_two_pow
  simp only [Format.minExponent, Format.exponentBias]
  push_cast [hpos]
  ring

theorem two_pow_exponentBits (F : Format) : 2 ^ F.exponentBits = 2 * (F.exponentBias + 1) := by
  have hpos : 1 ≤ 2 ^ (F.exponentBits - 1) := Nat.one_le_two_pow
  have hbits : F.exponentBits = F.exponentBits - 1 + 1 := by have := F.he; omega
  rw [Format.exponentBias, Nat.sub_add_cancel hpos, ← pow_succ', ← hbits]

theorem targetExponent_eq {t : Int} (h : F.minExponent + F.mantissaBits ≤ t) :
    F.targetExponent t = t - F.mantissaBits := by
  rw [Format.targetExponent]
  omega

/-! ## Exact rounding -/

/-- Shifting out bits that are all zero is exact. -/
theorem shiftRight_exact (m k : Nat) :
    (ExtendedMantissa.mk (m * 2 ^ k) false false) >>> k = ExtendedMantissa.mk m false false := by
  induction k generalizing m with
  | zero => simp [HShiftRight.hShiftRight, Nat.repeat]
  | succ k ih =>
    have h : m * 2 ^ (k + 1) = m * 2 * 2 ^ k := by ring
    show ExtendedMantissa.shiftRightOne (ExtendedMantissa.mk (m * 2 ^ (k + 1)) false false >>> k) = _
    rw [h, ih]
    simp [ExtendedMantissa.shiftRightOne]

theorem log2_mul_two_pow {m : Nat} (k : Nat) (h0 : 0 < m) : (m * 2 ^ k).log2 = m.log2 + k := by
  induction k with
  | zero => simp
  | succ k ih =>
    have h : m * 2 ^ (k + 1) = 2 * (m * 2 ^ k) := by ring
    rw [h, Nat.log2_two_mul (by positivity), ih]
    omega

/-- A full mantissa followed by zeros is shifted to its place without rounding. -/
theorem shift_exact {m : Nat} (k : Nat) (e : Int) (hm : m.log2 + 1 = F.mantissaBits) (he : F.minExponent ≤ e + k)
    (h0 : 0 < m) : shiftToTargetExponent F (m * 2 ^ k) e .exact = (⟨m, false, false⟩, e + k) := by
  have ht : F.targetExponent (totalExponent (m * 2 ^ k) e) = e + k := by
    rw [totalExponent, log2_mul_two_pow k h0, targetExponent_eq (by push_cast; omega)]
    push_cast
    omega
  have hs : (e + k - e).toNat = k := by omega
  simp only [shiftToTargetExponent, shiftToExponent, ht, hs, ExtendedMantissa.ofMantissaAndAccuracy,
    shiftRight_exact]

/-- Rounding such a mantissa changes nothing. -/
theorem round_exact (s : Sign) {m : Nat} (k : Nat) (e : Int) (hm : m.log2 + 1 = F.mantissaBits)
    (he : F.minExponent ≤ e + k) (h0 : 0 < m) :
    roundWithAccuracy F s (m * 2 ^ k) e .exact = .finite s m (e + k) h0 := by
  have h1 := shift_exact k e hm he h0
  have h2 := shift_exact 0 (e + k) hm (by simpa using he) h0
  simp only [pow_zero, mul_one, Nat.cast_zero, add_zero] at h2
  simp only [roundWithAccuracy, h1, ExtendedMantissa.roundedMantissa, ExtendedMantissa.accuracy,
    Accuracy.roundToNearestEven, h2]
  rw [dif_neg h0.ne']

/-- Few digits are filled up with zeros. -/
theorem round_digits (s : Sign) {m : Nat} {e : Int} (k : Nat) (h0 : 0 < m) (hm : m.log2 + k + 1 = F.mantissaBits)
    (he : F.minExponent ≤ e - k) :
    UnpackedFloat.round F s m e = .finite s (m * 2 ^ k) (e - k) (by positivity) := by
  have ht : F.targetExponent (totalExponent m e) = e - k := by
    rw [totalExponent, targetExponent_eq (by omega)]
    omega
  have hs : (e - (e - k)).toNat = k := by omega
  have hlog : (m * 2 ^ k).log2 + 1 = F.mantissaBits := by rw [log2_mul_two_pow k h0, hm]
  have hround := round_exact s 0 (e - k) hlog (by simpa using he) (by positivity)
  simp only [pow_zero, mul_one, Nat.cast_zero, add_zero] at hround
  simp only [UnpackedFloat.round, decreaseExponent, ht, hs, Nat.shiftLeft_eq]
  exact hround

/-! ## Packing -/

theorem sign_roundtrip (s : Sign) (e : BitVec F.exponentBits) (m : BitVec F.mantissaBitsWithoutImplicit) :
    Sign.ofBitVec (unpackSign (packComponents F s e m)) = s := by
  have hsign : unpackSign (packComponents F s e m) = s.toBitVec := by
    ext i hi
    obtain rfl : i = 0 := by omega
    simp [unpackSign, packComponents, BitVec.getLsbD_append, BitVec.getElem_append]
  rw [hsign]
  cases s <;> rfl

/-- The implicit leading bit put back in front of the stored ones. -/
theorem toNat_implicit {m p : Nat} (hlo : 2 ^ p ≤ m) (hhi : m < 2 ^ (p + 1)) :
    (1#1 ++ BitVec.ofNat p m).toNat = m := by
  have hmod : m % 2 ^ p = m - 2 ^ p := by
    rw [Nat.mod_eq_sub_mod hlo, Nat.mod_eq_of_lt (by omega)]
  rw [BitVec.toNat_append, ← Nat.shiftLeft_add_eq_or_of_lt (BitVec.isLt _)]
  simp only [BitVec.toNat_ofNat, Nat.shiftLeft_eq, hmod]
  omega

/-- A normal number survives being packed into bits. -/
theorem unpack_pack (s : Sign) {m : Nat} {e : Int} (h0 : 0 < m) (hm : m.log2 + 1 = F.mantissaBits)
    (he : F.minExponent ≤ e) (he' : e + F.mantissaBits ≤ F.exponentBias + 1) :
    UnpackedFloat.unpack F (UnpackedFloat.pack F (.finite s m e h0)) = .finite s m e h0 := by
  have hbits : F.mantissaBits = 1 + F.mantissaBitsWithoutImplicit := rfl
  have hlog : m.log2 = F.mantissaBitsWithoutImplicit := by omega
  have hml := (Nat.log2_eq_iff h0.ne').1 hlog
  have hexpBits := two_pow_exponentBits F
  rw [minExponent_eq] at he
  obtain ⟨b, hb⟩ : ∃ b : Nat, (b : Int) = e + F.exponentBias + F.mantissaBitsWithoutImplicit :=
    ⟨(e + F.exponentBias + F.mantissaBitsWithoutImplicit).toNat, by omega⟩
  have hbn : (e + F.exponentBias + F.mantissaBitsWithoutImplicit).toNat = b := by omega
  have hpack : UnpackedFloat.pack F (.finite s m e h0) = packComponents F s (BitVec.ofNat _ b) (BitVec.ofNat _ m) := by
    simp only [UnpackedFloat.pack, hbn]
    rw [if_neg (by omega), if_pos hm]
  have hexp : (BitVec.ofNat F.exponentBits b).toNat = b := by
    rw [BitVec.toNat_ofNat]
    exact Nat.mod_eq_of_lt (by omega)
  have hinf : BitVec.ofNat F.exponentBits b ≠ -1#F.exponentBits := fun h => by
    have := congrArg BitVec.toNat h
    rw [hexp] at this
    simp only [BitVec.neg_one_eq_allOnes, BitVec.toNat_allOnes] at this
    omega
  have hsub : BitVec.ofNat F.exponentBits b ≠ 0#F.exponentBits := fun h => by
    have := congrArg BitVec.toNat h
    rw [hexp] at this
    simp only [BitVec.toNat_zero] at this
    omega
  rw [hpack]
  simp only [UnpackedFloat.unpack, unpackMantissa_packComponents, unpackExponent_packComponents, sign_roundtrip,
    hinf, hsub, if_false, hexp, toNat_implicit hml.1 hml.2]
  congr 1
  omega

theorem unpack_pack_zero (s : Sign) : UnpackedFloat.unpack F (UnpackedFloat.pack F (.zero s)) = .zero s := by
  have hexpBits := two_pow_exponentBits F
  have hinf : (0#F.exponentBits) ≠ -1#F.exponentBits := fun h => by
    have := congrArg BitVec.toNat h
    simp only [BitVec.neg_one_eq_allOnes, BitVec.toNat_allOnes, BitVec.toNat_zero] at this
    omega
  simp only [UnpackedFloat.pack, packedZero, UnpackedFloat.unpack, unpackMantissa_packComponents,
    unpackExponent_packComponents, sign_roundtrip, BitVec.ofNat_eq_ofNat, hinf, if_false, if_true, dif_pos]

/-! ## What the residual bits say -/

/-- The fraction that an accuracy stands for. -/
def Encodes : Accuracy → ℚ → Prop
  | .exact, f => f = 0
  | .inexact .lt, f => 0 < f ∧ f < 1 / 2
  | .inexact .eq, f => f = 1 / 2
  | .inexact .gt, f => 1 / 2 < f ∧ f < 1

/-- The number of which `em` holds the integer part and what is known of the rest. -/
def Holds (em : ExtendedMantissa) (y : ℚ) : Prop := Encodes em.accuracy (y - em.mantissa)

theorem holds_ofMantissaAndAccuracy {m : Nat} {a : Accuracy} {f : ℚ} (h : Encodes a f) :
    Holds (ExtendedMantissa.ofMantissaAndAccuracy m a) (m + f) := by
  cases a with
  | exact => simpa [Holds, ExtendedMantissa.ofMantissaAndAccuracy, ExtendedMantissa.accuracy] using h
  | inexact o =>
    cases o <;> simpa [Holds, ExtendedMantissa.ofMantissaAndAccuracy, ExtendedMantissa.accuracy] using h

/-- One bit shifted out. -/
theorem holds_shiftRightOne {em : ExtendedMantissa} {y : ℚ} (h : Holds em y) : Holds em.shiftRightOne (y / 2) := by
  obtain ⟨m, r, s⟩ := em
  have hm : (m : ℚ) = 2 * (m / 2 : Nat) + (m % 2 : Nat) := by exact_mod_cast (Nat.div_add_mod m 2).symm
  have hbit := Nat.mod_two_eq_zero_or_one m
  have hone : (1 != 0) = true := rfl
  simp only [Holds, hm] at h
  rcases hbit with hbit | hbit <;> cases r <;> cases s <;>
    simp only [Holds, ExtendedMantissa.shiftRightOne, ExtendedMantissa.accuracy, Encodes, hbit, Bool.or_true,
      Bool.or_false, Nat.cast_zero, Nat.cast_one, bne_self_eq_false, hone] at h ⊢ <;>
    first
    | linarith
    | exact ⟨by linarith, by linarith⟩

theorem holds_shiftRight {em : ExtendedMantissa} {y : ℚ} (h : Holds em y) (k : Nat) :
    Holds (em >>> k) (y / 2 ^ k) := by
  induction k with
  | zero => simpa [HShiftRight.hShiftRight, Nat.repeat] using h
  | succ k ih =>
    have hy : y / 2 ^ (k + 1) = y / 2 ^ k / 2 := by rw [pow_succ, div_mul_eq_div_div]
    rw [hy]
    exact holds_shiftRightOne ih

theorem mantissa_shiftRight (em : ExtendedMantissa) (k : Nat) : (em >>> k).mantissa = em.mantissa / 2 ^ k := by
  induction k with
  | zero => simp [HShiftRight.hShiftRight, Nat.repeat]
  | succ k ih =>
    show (em >>> k).mantissa / 2 = _
    rw [ih, Nat.div_div_eq_div_mul, pow_succ]

/-- Rounding goes to a neighbour, at most half a unit away. -/
theorem roundedMantissa_near {em : ExtendedMantissa} {y : ℚ} (h : Holds em y) :
    |(em.roundedMantissa : ℚ) - y| ≤ 1 / 2 ∧
      (em.roundedMantissa = em.mantissa ∨ em.roundedMantissa = em.mantissa + 1) := by
  obtain ⟨m, r, s⟩ := em
  have hbit := Nat.mod_two_eq_zero_or_one m
  simp only [Holds] at h
  rw [abs_le]
  cases r <;> cases s <;>
    simp only [ExtendedMantissa.roundedMantissa, ExtendedMantissa.accuracy, Accuracy.roundToNearestEven, Encodes] at h ⊢
  · exact ⟨by constructor <;> linarith, .inl trivial⟩
  · exact ⟨by constructor <;> linarith, .inl trivial⟩
  · rcases hbit with hbit | hbit <;> rw [hbit] <;> push_cast <;> exact ⟨by constructor <;> linarith, by simp⟩
  · push_cast
    exact ⟨by constructor <;> linarith, .inr trivial⟩

/-! ## The values of numbers -/

/-- The factor `±1`. -/
def sgn : Sign → ℚ
  | .negative => -1
  | .positive => 1

@[simp] theorem sgn_mul : ∀ s t : Sign, sgn (s * t) = sgn s * sgn t
  | .negative, .negative => (by norm_num : (1 : ℚ) = -1 * -1)
  | .negative, .positive => (by norm_num : (-1 : ℚ) = -1 * 1)
  | .positive, .negative => (by norm_num : (-1 : ℚ) = 1 * -1)
  | .positive, .positive => (by norm_num : (1 : ℚ) = 1 * 1)

@[simp] theorem sgn_div : ∀ s t : Sign, sgn (s / t) = sgn s * sgn t
  | .negative, .negative => (by norm_num : (1 : ℚ) = -1 * -1)
  | .negative, .positive => (by norm_num : (-1 : ℚ) = -1 * 1)
  | .positive, .negative => (by norm_num : (-1 : ℚ) = 1 * -1)
  | .positive, .positive => (by norm_num : (1 : ℚ) = 1 * 1)

@[simp] theorem sgn_neg : ∀ s : Sign, sgn (-s) = -sgn s
  | .negative => (by norm_num : (1 : ℚ) = - -1)
  | .positive => rfl

@[simp] theorem abs_sgn (s : Sign) : |sgn s| = 1 := by
  cases s <;> simp [sgn]

/-- `v` is `y` rounded: off by at most half a unit in the last place of `v`. -/
def Rounds (F : Format) (y v : ℚ) : Prop := |v - y| * 2 ^ F.mantissaBits ≤ |v|

/-- Zero, or within the range of normal numbers, a factor of two from its ends. -/
def InRange (F : Format) (y : ℚ) : Prop :=
  y = 0 ∨ (2 : ℚ) ^ (2 - F.exponentBias : Int) ≤ |y| ∧ |y| < 2 ^ F.exponentBias

/-- The value of a number that is zero or normal. -/
inductive HasValue (F : Format) : UnpackedFloat → ℚ → Prop
  | zero (s : Sign) : HasValue F (.zero s) 0
  | normal (s : Sign) {m : Nat} {e : Int} (h : 0 < m) (hm : m.log2 + 1 = F.mantissaBits) (he : F.minExponent ≤ e)
    (he' : e + F.mantissaBits ≤ F.exponentBias + 1) : HasValue F (.finite s m e h) (sgn s * (m * 2 ^ e))

@[simp] theorem rounds_self (v : ℚ) : Rounds F v v := by simp [Rounds]

/-- Zeros and normal numbers keep their values when they are packed. -/
theorem hasValue_pack {x : UnpackedFloat} {v : ℚ} (h : HasValue F x v) :
    HasValue F (UnpackedFloat.unpack F (UnpackedFloat.pack F x)) v := by
  cases h with
  | zero s =>
    rw [unpack_pack_zero]
    exact .zero s
  | normal s h hm he he' =>
    rw [unpack_pack s h hm he he']
    exact .normal s h hm he he'

/-- The binade of a full mantissa. -/
theorem bounds_of_log2 {m : Nat} (h : 0 < m) (hm : m.log2 + 1 = F.mantissaBits) :
    (2 : ℚ) ^ F.mantissaBits ≤ 2 * m ∧ (m : ℚ) < 2 ^ F.mantissaBits := by
  have hml := (Nat.log2_eq_iff h.ne').1 rfl
  rw [← hm, pow_succ']
  exact ⟨by gcongr; exact_mod_cast hml.1, by exact_mod_cast pow_succ' 2 m.log2 ▸ hml.2⟩


/-! ## Rounding -/

theorem encodes_bounds {a : Accuracy} {f : ℚ} (h : Encodes a f) : 0 ≤ f ∧ f < 1 := by
  cases a with
  | exact =>
    obtain rfl : f = 0 := h
    norm_num
  | inexact o =>
    cases o with
    | lt => exact ⟨h.1.le, by linarith [h.2]⟩
    | eq =>
      obtain rfl : f = 1 / 2 := h
      norm_num
    | gt => exact ⟨by linarith [h.1], h.2⟩

/-- The exponent of a number within range is. -/
theorem exponent_bounds {y : ℚ} {e : Int} (hlo : 2 ^ F.mantissaBits ≤ 2 * y) (hhi : y < 2 ^ F.mantissaBits)
    (h1 : (2 : ℚ) ^ (2 - F.exponentBias : Int) ≤ y * 2 ^ e) (h2 : y * 2 ^ e < 2 ^ F.exponentBias) :
    F.minExponent < e ∧ e + F.mantissaBits ≤ F.exponentBias := by
  have hpos : (0 : ℚ) < 2 ^ e := by positivity
  rw [minExponent_eq]
  constructor
  · have hlt : (2 : ℚ) ^ (2 - F.exponentBias : Int) < 2 ^ (F.mantissaBits + e : Int) := by
      rw [zpow_add₀ two_ne_zero, zpow_natCast]
      exact h1.trans_lt (by gcongr)
    have := (zpow_lt_zpow_iff_right₀ one_lt_two).1 hlt
    omega
  · have hlt : (2 : ℚ) ^ (F.mantissaBits + e : Int) < 2 ^ (1 + F.exponentBias : Int) := by
      rw [zpow_add₀ two_ne_zero, zpow_add₀ two_ne_zero, zpow_natCast, zpow_natCast, zpow_one]
      have hle : (2 : ℚ) ^ F.mantissaBits * 2 ^ e ≤ 2 * y * 2 ^ e := by gcongr
      linarith
    have := (zpow_lt_zpow_iff_right₀ one_lt_two).1 hlt
    omega

/-- A rounded mantissa, carry or not, is a full one up to a zero. -/
theorem exists_mantissa {r n : Nat} (hlo : 2 ^ n ≤ r) (hhi : r ≤ 2 ^ (n + 1)) :
    ∃ m k, r = m * 2 ^ k ∧ m.log2 = n ∧ k ≤ 1 ∧ 0 < m := by
  have hpos : 0 < 2 ^ n := by positivity
  rcases hhi.lt_or_eq with hr | hr
  · exact ⟨r, 0, by simp, (Nat.log2_eq_iff (by omega)).2 ⟨hlo, hr⟩, by omega, by omega⟩
  · exact ⟨2 ^ n, 1, by rw [hr, pow_succ, pow_one], Nat.log2_two_pow, le_rfl, hpos⟩

/-- A mantissa and its fraction shifted to `n + 1` digits. -/
theorem shifted_bounds {M n k : Nat} {f : ℚ} (hM : M ≠ 0) (hk : M.log2 = n + k) (hf0 : 0 ≤ f) (hf1 : f < 1) :
    (2 ^ n ≤ M / 2 ^ k ∧ M / 2 ^ k < 2 ^ (n + 1)) ∧
      (2 : ℚ) ^ n ≤ (M + f) / 2 ^ k ∧ (M + f) / 2 ^ k < (2 : ℚ) ^ (n + 1) := by
  have hMl := (Nat.log2_eq_iff hM).1 hk
  have hexp : n + 1 + k = n + k + 1 := by omega
  have hpow : (0 : ℚ) < 2 ^ k := by positivity
  refine ⟨⟨?_, ?_⟩, ?_, ?_⟩
  · rw [Nat.le_div_iff_mul_le (by positivity), ← pow_add]
    exact hMl.1
  · rw [Nat.div_lt_iff_lt_mul (by positivity), ← pow_add, hexp]
    exact hMl.2
  · rw [le_div_iff₀ hpow, ← pow_add]
    have : (2 : ℚ) ^ (n + k) ≤ M := by exact_mod_cast hMl.1
    linarith
  · rw [div_lt_iff₀ hpow, ← pow_add, hexp]
    have : (M : ℚ) + 1 ≤ 2 ^ (n + k + 1) := by exact_mod_cast hMl.2
    linarith

/-- Half a unit in the last place of a full mantissa. -/
theorem rounds_of_near (s : Sign) {r n : Nat} {y : ℚ} (e : Int) (hn : F.mantissaBits = n + 1)
    (hnear : |(r : ℚ) - y| ≤ 1 / 2) (hr : 2 ^ n ≤ r) : Rounds F (sgn s * (y * 2 ^ e)) (sgn s * (r * 2 ^ e)) := by
  have hpos : (0 : ℚ) < 2 ^ e := by positivity
  have hrn : (2 : ℚ) ^ n ≤ r := by exact_mod_cast hr
  rw [Rounds, hn, ← mul_sub, abs_mul, abs_mul, abs_sgn, ← sub_mul, abs_mul, abs_mul, abs_of_pos hpos, one_mul,
    one_mul, Nat.abs_cast]
  calc |(r : ℚ) - y| * 2 ^ e * 2 ^ (n + 1)
      ≤ 1 / 2 * 2 ^ e * 2 ^ (n + 1) := by gcongr
    _ = 2 ^ n * 2 ^ e := by ring
    _ ≤ r * 2 ^ e := by gcongr

/-- **Rounding**: a number given with enough digits, and what is known of the others. -/
theorem hasValue_round (s : Sign) {M : Nat} {e : Int} {a : Accuracy} {f : ℚ} (ha : Encodes a f)
    (hM : F.mantissaBits ≤ M.log2 + 1) (h1 : (2 : ℚ) ^ (2 - F.exponentBias : Int) ≤ (M + f) * 2 ^ e)
    (h2 : (M + f) * 2 ^ e < 2 ^ F.exponentBias) :
    ∃ v, HasValue F (roundWithAccuracy F s M e a) v ∧ Rounds F (sgn s * ((M + f) * 2 ^ e)) v := by
  obtain ⟨n, hn⟩ : ∃ n, F.mantissaBits = n + 1 := ⟨F.mantissaBitsWithoutImplicit, add_comm _ _⟩
  obtain ⟨k, hk⟩ : ∃ k, M.log2 = n + k := ⟨M.log2 - n, by omega⟩
  have hM0 : M ≠ 0 := by
    rintro rfl
    have := F.hm
    simp only [Nat.log2_zero, Format.mantissaBits] at hM
    omega
  obtain ⟨hf0, hf1⟩ := encodes_bounds ha
  obtain ⟨⟨hlo, hhi⟩, hyl, hyh⟩ := shifted_bounds hM0 hk hf0 hf1
  have hX : (M + f) * 2 ^ e = (M + f) / 2 ^ k * 2 ^ (e + k) := by
    rw [zpow_add₀ two_ne_zero, zpow_natCast]
    field_simp
  rw [hX] at h1 h2 ⊢
  obtain ⟨he1, he2⟩ := exponent_bounds (by rw [hn, pow_succ']; gcongr) (by rw [hn]; exact hyh) h1 h2
  -- the first shift rounds, the second takes the carry back
  have ht : F.targetExponent (totalExponent M e) = e + k := by
    rw [totalExponent, hk, targetExponent_eq (by push_cast; omega)]
    push_cast
    omega
  have hs : (e + k - e).toNat = k := by omega
  have hshift : shiftToTargetExponent F M e a = (ExtendedMantissa.ofMantissaAndAccuracy M a >>> k, e + k) := by
    simp only [shiftToTargetExponent, shiftToExponent, ht, hs]
  have hholds : Holds (ExtendedMantissa.ofMantissaAndAccuracy M a >>> k) ((M + f) / 2 ^ k) :=
    holds_shiftRight (holds_ofMantissaAndAccuracy ha) k
  have hmant : (ExtendedMantissa.ofMantissaAndAccuracy M a).mantissa = M := by
    cases a with
    | exact => rfl
    | inexact o => cases o <;> rfl
  obtain ⟨hnear, hneighbour⟩ := roundedMantissa_near hholds
  rw [mantissa_shiftRight, hmant] at hneighbour
  generalize hr : (ExtendedMantissa.ofMantissaAndAccuracy M a >>> k).roundedMantissa = r at hnear hneighbour
  obtain ⟨m, j, hmj, hm, hj, hm0⟩ := exists_mantissa (r := r) (n := n) (by omega) (by omega)
  have hround : roundWithAccuracy F s M e a = .finite s m (e + k + j) hm0 := by
    simp only [roundWithAccuracy, hshift, hr, hmj, shift_exact (F := F) j (e + k) (by omega) (by omega) hm0]
    rw [dif_neg hm0.ne']
  have hval : (m : ℚ) * 2 ^ (e + k + j) = r * 2 ^ (e + k) := by
    rw [hmj, zpow_add₀ two_ne_zero (e + k) j, zpow_natCast]
    push_cast
    ring
  rw [hround]
  refine ⟨_, .normal s hm0 (by omega) (by omega) (by omega), ?_⟩
  rw [hval]
  exact rounds_of_near s (e + k) hn hnear (by omega)

/-! ## Operations -/

theorem inRange_sgn {s : Sign} {y : ℚ} (h : InRange F (sgn s * y)) (hy : 0 < y) :
    (2 : ℚ) ^ (2 - F.exponentBias : Int) ≤ y ∧ y < 2 ^ F.exponentBias := by
  rcases h with h | h
  · rcases mul_eq_zero.1 h with hs | hy'
    · have := abs_sgn s
      simp [hs] at this
    · linarith
  · rwa [abs_mul, abs_sgn, one_mul, abs_of_pos hy] at h

theorem encodes_exact : Encodes .exact 0 := rfl

variable {x y : UnpackedFloat} {u v : ℚ}

/-- **A product is the exact one, rounded.** -/
theorem hasValue_mul (hx : HasValue F x u) (hy : HasValue F y v) (hr : InRange F (u * v)) :
    ∃ w, HasValue F (UnpackedFloat.mul F x y) w ∧ Rounds F (u * v) w := by
  cases hx with
  | zero s =>
    refine ⟨0, ?_, by simp⟩
    cases hy with
    | zero t => exact .zero _
    | normal t h hm he he' => exact .zero _
  | @normal s m e h hm he he' =>
    cases hy with
    | zero t => exact ⟨0, .zero _, by simp⟩
    | @normal t n d h' hm' hd hd' =>
      have hlog : m.log2 ≤ (m * n).log2 := by
        rw [Nat.le_log2 (by positivity)]
        exact (Nat.log2_self_le h.ne').trans (Nat.le_mul_of_pos_right _ h')
      have hval : sgn s * (m * 2 ^ e) * (sgn t * (n * 2 ^ d)) =
          sgn (s * t) * (((m * n : Nat) + 0) * 2 ^ (e + d)) := by
        rw [sgn_mul, zpow_add₀ two_ne_zero]
        push_cast
        ring
      rw [hval] at hr ⊢
      obtain ⟨h1, h2⟩ := inRange_sgn hr (by positivity)
      exact hasValue_round (s * t) encodes_exact (by omega) h1 h2

/-- The rest of a division as a fraction. -/
theorem encodes_accuracyOfFraction {num den : Nat} (h : num < den) :
    Encodes (accuracyOfFraction num den) (num / den) := by
  have hden : (0 : ℚ) < den := by exact_mod_cast Nat.zero_lt_of_lt h
  have hlt : (num : ℚ) < den := by exact_mod_cast h
  simp only [accuracyOfFraction]
  split_ifs with h0
  · simp [Encodes, h0]
  · have hnum : (0 : ℚ) < num := by exact_mod_cast Nat.pos_of_ne_zero h0
    cases hc : compare (2 * num) den with
    | lt =>
      have hc' : (2 * num : ℚ) < den := by exact_mod_cast compare_lt_iff_lt.1 hc
      exact ⟨by positivity, by rw [div_lt_div_iff₀ hden two_pos]; linarith⟩
    | eq =>
      have hc' : (2 * num : ℚ) = den := by exact_mod_cast compare_eq_iff_eq.1 hc
      show (num : ℚ) / den = 1 / 2
      rw [← hc']
      field_simp
    | gt =>
      have hc' : (den : ℚ) < 2 * num := by exact_mod_cast compare_gt_iff_gt.1 hc
      exact ⟨by rw [div_lt_div_iff₀ two_pos hden]; linarith, by rw [div_lt_one hden]; exact hlt⟩

/-- Full mantissas are divided with as many more digits as the dividend has. -/
theorem divCore_eq {m n : Nat} {e d : Int} (hm : m.log2 + 1 = F.mantissaBits) (hn : n.log2 + 1 = F.mantissaBits)
    (h : F.minExponent + F.mantissaBits ≤ e - d) :
    divCore F m e n d = (m * 2 ^ F.mantissaBits / n, e - d - F.mantissaBits,
      accuracyOfFraction (m * 2 ^ F.mantissaBits % n) n) := by
  have ht : F.targetExponent (totalExponent m e - totalExponent n d) = e - d - F.mantissaBits := by
    rw [totalExponent, totalExponent, targetExponent_eq (by omega)]
    omega
  have hmin : min (e - d) (e - d - F.mantissaBits) = e - d - F.mantissaBits := by omega
  have hshift : (e - d - (e - d - F.mantissaBits)).toNat = F.mantissaBits := by omega
  simp only [divCore, ht, hmin, hshift, Nat.shiftLeft_eq]

/-- That quotient and its fraction. -/
theorem quotient_value (m p : Nat) {n : Nat} (e : Int) (h : 0 < n) :
    ((m * 2 ^ p / n : Nat) + ((m * 2 ^ p % n : Nat) : ℚ) / n) * 2 ^ (e - p) = m / n * 2 ^ e := by
  have hmod : (m : ℚ) * 2 ^ p = n * (m * 2 ^ p / n : Nat) + (m * 2 ^ p % n : Nat) := by
    exact_mod_cast (Nat.div_add_mod (m * 2 ^ p) n).symm
  have hn : (0 : ℚ) < n := by exact_mod_cast h
  have hquot : ((m * 2 ^ p / n : Nat) + ((m * 2 ^ p % n : Nat) : ℚ) / n) = m / n * 2 ^ p := by
    field_simp
    linarith
  have hpow : (2 : ℚ) ^ e = 2 ^ p * 2 ^ (e - p) := by
    rw [← zpow_natCast, ← zpow_add₀ two_ne_zero]
    congr 1
    ring
  rw [hquot, hpow]
  ring

/-- A quotient within range has its exponent within range. -/
theorem le_sub_of_inRange {m n : Nat} {e : Int} (hm : (m : ℚ) < 2 ^ F.mantissaBits)
    (hn : (2 : ℚ) ^ F.mantissaBits ≤ 2 * n) (h : (2 : ℚ) ^ (2 - F.exponentBias : Int) ≤ m / n * 2 ^ e) :
    F.minExponent + F.mantissaBits ≤ e := by
  have hn0 : (0 : ℚ) < n := by
    have : (0 : ℚ) < 2 ^ F.mantissaBits := by positivity
    linarith
  have hq : (m : ℚ) / n < 2 := by
    rw [div_lt_iff₀ hn0]
    linarith
  have hlt : (2 : ℚ) ^ (2 - F.exponentBias : Int) < 2 ^ (1 + e) := by
    rw [zpow_add₀ two_ne_zero, zpow_one]
    exact h.trans_lt (by gcongr)
  have := (zpow_lt_zpow_iff_right₀ one_lt_two).1 hlt
  rw [minExponent_eq]
  omega

/-- **A quotient is the exact one, rounded.** -/
theorem hasValue_div (hx : HasValue F x u) (hy : HasValue F y v) (hv : v ≠ 0) (hr : InRange F (u / v)) :
    ∃ w, HasValue F (UnpackedFloat.div F x y) w ∧ Rounds F (u / v) w := by
  cases hy with
  | zero t => exact absurd rfl hv
  | @normal t n d h' hm' hd hd' =>
    cases hx with
    | zero s => exact ⟨0, .zero _, by simp⟩
    | @normal s m e h hm he he' =>
      obtain ⟨hml, hmh⟩ := bounds_of_log2 h hm
      obtain ⟨hnl, hnh⟩ := bounds_of_log2 h' hm'
      have hn : (0 : ℚ) < n := by exact_mod_cast h'
      have hsgn : sgn s * (m * 2 ^ e) / (sgn t * (n * 2 ^ d)) = sgn (s / t) * (m / n * 2 ^ (e - d)) := by
        have ht : sgn t * sgn t = 1 := by cases t <;> norm_num [sgn]
        have ht0 : sgn t ≠ 0 := fun h0 => by simp [h0] at ht
        rw [sgn_div, zpow_sub₀ two_ne_zero]
        field_simp
        rw [sq, ht, mul_one]
      rw [hsgn] at hr ⊢
      obtain ⟨h1, h2⟩ := inRange_sgn hr (by positivity)
      have hcore := divCore_eq hm hm' (le_sub_of_inRange hmh hnl h1)
      have hlog : F.mantissaBits ≤ (m * 2 ^ F.mantissaBits / n).log2 + 1 := by
        have hdiv : 2 ^ m.log2 ≤ m * 2 ^ F.mantissaBits / n := by
          rw [Nat.le_div_iff_mul_le h']
          have hnh' : n < 2 ^ F.mantissaBits := by exact_mod_cast hnh
          exact Nat.mul_le_mul (Nat.log2_self_le h.ne') hnh'.le
        have := (Nat.le_log2 (by have := Nat.two_pow_pos m.log2; omega)).2 hdiv
        omega
      rw [← quotient_value m F.mantissaBits (e - d) h'] at h1 h2 ⊢
      obtain ⟨w, hw, hround⟩ := hasValue_round (s / t) (encodes_accuracyOfFraction (Nat.mod_lt _ h')) hlog h1 h2
      refine ⟨w, ?_, hround⟩
      simpa only [UnpackedFloat.div, hcore] using hw

/-- A natural number times a power of two, rounded. -/
theorem hasValue_roundNat (s : Sign) {M : Nat} {e : Int} (hM : 0 < M)
    (h1 : (2 : ℚ) ^ (2 - F.exponentBias : Int) ≤ (M : ℚ) * 2 ^ e) (h2 : (M : ℚ) * 2 ^ e < 2 ^ F.exponentBias) :
    ∃ v, HasValue F (UnpackedFloat.round F s M e) v ∧ Rounds F (sgn s * (M * 2 ^ e)) v := by
  have hMl := (Nat.log2_eq_iff hM.ne').1 rfl
  have hge : 2 - (F.exponentBias : Int) < M.log2 + 1 + e := by
    have hlt : (2 : ℚ) ^ (2 - F.exponentBias : Int) < 2 ^ ((M.log2 + 1 : Nat) + e) := by
      rw [zpow_add₀ two_ne_zero, zpow_natCast]
      have hM : (M : ℚ) < 2 ^ (M.log2 + 1) := by exact_mod_cast hMl.2
      exact h1.trans_lt (by gcongr)
    have := (zpow_lt_zpow_iff_right₀ one_lt_two).1 hlt
    push_cast at this
    omega
  have ht : F.targetExponent (totalExponent M e) = M.log2 + 1 + e - F.mantissaBits :=
    targetExponent_eq (by rw [minExponent_eq, totalExponent]; omega)
  obtain ⟨k, hk⟩ : ∃ k, k = (e - (M.log2 + 1 + e - F.mantissaBits)).toNat := ⟨_, rfl⟩
  have hval : (M : ℚ) * 2 ^ e = ((M * 2 ^ k : Nat) + 0) * 2 ^ (e - k) := by
    rw [zpow_sub₀ two_ne_zero, zpow_natCast]
    push_cast
    field_simp
    ring
  have hlog : F.mantissaBits ≤ (M * 2 ^ k).log2 + 1 := by
    rw [log2_mul_two_pow k hM]
    omega
  rw [hval] at h1 h2 ⊢
  have hround : UnpackedFloat.round F s M e = roundWithAccuracy F s (M * 2 ^ k) (e - k) .exact := by
    simp only [UnpackedFloat.round, ht, decreaseExponent, ← hk, Nat.shiftLeft_eq]
  rw [hround]
  exact hasValue_round s encodes_exact hlog h1 h2

theorem apply_eq (s : Sign) (n : Nat) : ((s.apply n : Int) : ℚ) = sgn s * n := by
  cases s <;> simp [Sign.apply, sgn]

/-- An integer is zero, or a sign and a positive number that is rounded. -/
theorem normalize_cases {P : UnpackedFloat → ℚ → Prop} (n e : Int) (z : Sign) (hzero : P (.zero z) 0)
    (hround : ∀ (s : Sign) (k : Nat), 0 < k → n.natAbs = k → P (UnpackedFloat.round F s k e) (sgn s * (k * 2 ^ e))) :
    P (UnpackedFloat.normalize F n e z) (n * 2 ^ e) := by
  simp only [UnpackedFloat.normalize]
  cases hc : compare n 0 with
  | lt =>
    have hn : n < 0 := compare_lt_iff_lt.1 hc
    obtain ⟨k, rfl⟩ : ∃ k : Nat, n = -k := ⟨(-n).toNat, by omega⟩
    simpa [sgn] using hround .negative k (by omega) (by omega)
  | eq =>
    obtain rfl : n = 0 := compare_eq_iff_eq.1 hc
    simpa using hzero
  | gt =>
    have hn : 0 < n := compare_gt_iff_gt.1 hc
    obtain ⟨k, rfl⟩ : ∃ k : Nat, n = k := ⟨n.toNat, by omega⟩
    simpa [sgn] using hround .positive k (by omega) (by omega)

/-- **An integer times a power of two**, rounded. -/
theorem hasValue_normalize (n : Int) (e : Int) (z : Sign) (hr : InRange F (n * 2 ^ e)) :
    ∃ v, HasValue F (UnpackedFloat.normalize F n e z) v ∧ Rounds F (n * 2 ^ e) v := by
  refine normalize_cases (P := fun x y => ∃ v, HasValue F x v ∧ Rounds F y v) n e z ⟨0, .zero _, by simp⟩
    fun s k h0 hk => ?_
  have hpos : (0 : ℚ) < k * 2 ^ e := by positivity
  have habs : |(n : ℚ) * 2 ^ e| = k * 2 ^ e := by
    rw [abs_mul, abs_of_pos (by positivity : (0 : ℚ) < 2 ^ e), ← hk, Nat.cast_natAbs, Int.cast_abs]
  rw [InRange, habs] at hr
  have hne : (n : ℚ) * 2 ^ e ≠ 0 := fun h => by
    rw [h, abs_zero] at habs
    exact hpos.ne habs
  obtain ⟨h1, h2⟩ := hr.resolve_left hne
  exact hasValue_roundNat s h0 h1 h2

/-- Digits filled up to a smaller exponent. -/
theorem decreaseExponent_value (m : Nat) {e t : Int} (h : t ≤ e) :
    ((decreaseExponent m e t).1 : ℚ) * 2 ^ t = m * 2 ^ e := by
  obtain ⟨k, hk⟩ : ∃ k : Nat, e = t + k := ⟨(e - t).toNat, by omega⟩
  have hs : (e - t).toNat = k := by omega
  simp only [decreaseExponent, hs, Nat.shiftLeft_eq]
  rw [hk, zpow_add₀ two_ne_zero, zpow_natCast]
  push_cast
  ring

/-- **A sum is the exact one, rounded.** -/
theorem hasValue_add (hx : HasValue F x u) (hy : HasValue F y v) (hr : InRange F (u + v)) :
    ∃ w, HasValue F (UnpackedFloat.add F x y) w ∧ Rounds F (u + v) w := by
  cases hx with
  | zero s =>
    cases hy with
    | zero t =>
      refine ⟨0, ?_, by simp⟩
      cases s <;> cases t <;> exact .zero _
    | @normal t n d h' hm' hd hd' => exact ⟨_, .normal t h' hm' hd hd', by simp⟩
  | @normal s m e h hm he he' =>
    cases hy with
    | zero t => exact ⟨_, .normal s h hm he he', by simp⟩
    | @normal t n d h' hm' hd hd' =>
      have hval : sgn s * (m * 2 ^ e) + sgn t * (n * 2 ^ d) =
          ((s.apply (decreaseExponent m e (min e d)).1 + t.apply (decreaseExponent n d (min e d)).1 : Int) : ℚ) *
            2 ^ min e d := by
        rw [Int.cast_add, apply_eq, apply_eq, add_mul, mul_assoc, mul_assoc,
          decreaseExponent_value m (min_le_left e d), decreaseExponent_value n (min_le_right e d)]
      rw [hval] at hr ⊢
      exact hasValue_normalize _ _ .positive hr

/-- **A difference is the exact one, rounded.** -/
theorem hasValue_sub (hx : HasValue F x u) (hy : HasValue F y v) (hr : InRange F (u - v)) :
    ∃ w, HasValue F (UnpackedFloat.sub F x y) w ∧ Rounds F (u - v) w := by
  cases hx with
  | zero s =>
    cases hy with
    | zero t =>
      refine ⟨0, ?_, by simp⟩
      cases s <;> cases t <;> exact .zero _
    | @normal t n d h' hm' hd hd' =>
      have hneg : 0 - sgn t * (n * 2 ^ d) = sgn (-t) * (n * 2 ^ d) := by
        rw [sgn_neg]
        ring
      exact ⟨_, .normal (-t) h' hm' hd hd', by simp [hneg]⟩
  | @normal s m e h hm he he' =>
    cases hy with
    | zero t => exact ⟨_, .normal s h hm he he', by simp⟩
    | @normal t n d h' hm' hd hd' =>
      have hval : sgn s * (m * 2 ^ e) - sgn t * (n * 2 ^ d) =
          ((s.apply (decreaseExponent m e (min e d)).1 - t.apply (decreaseExponent n d (min e d)).1 : Int) : ℚ) *
            2 ^ min e d := by
        rw [Int.cast_sub, apply_eq, apply_eq, sub_mul, mul_assoc, mul_assoc,
          decreaseExponent_value m (min_le_left e d), decreaseExponent_value n (min_le_right e d)]
      rw [hval] at hr ⊢
      exact hasValue_normalize _ _ .positive hr

/-! ## Exact conversions -/

/-- An integer that has room in the mantissa is converted exactly. -/
theorem hasValue_ofInt (hF : F.mantissaBits ≤ F.exponentBias) {n : Int} (hn : n.natAbs < 2 ^ F.mantissaBits) :
    HasValue F (UnpackedFloat.ofInt F n) n := by
  have hvalue : (n : ℚ) = n * 2 ^ (0 : Int) := by simp
  rw [hvalue]
  refine normalize_cases n 0 .positive (.zero _) fun s k h0 hk => ?_
  have hlog := (Nat.log2_lt h0.ne').2 (hk ▸ hn)
  have hmin := minExponent_eq F
  obtain ⟨j, hj⟩ : ∃ j, k.log2 + j + 1 = F.mantissaBits := ⟨F.mantissaBits - k.log2 - 1, by omega⟩
  have hval : (k : ℚ) * 2 ^ (0 : Int) = (k * 2 ^ j : Nat) * 2 ^ (0 - j : Int) := by
    rw [zpow_sub₀ two_ne_zero, zpow_natCast, zpow_zero]
    push_cast
    field_simp
  rw [round_digits s j h0 hj (by omega), hval]
  exact .normal s (by positivity) (by rw [log2_mul_two_pow j h0, hj]) (by omega) (by omega)

/-- The conversion to another format. -/
def convert (G : Format) : UnpackedFloat → UnpackedFloat
  | .finite s m e _ => UnpackedFloat.round G s m e
  | x => x

/-- Nothing is lost in a larger format. -/
theorem hasValue_convert {G : Format} (hbits : F.mantissaBits ≤ G.mantissaBits)
    (hbias : F.exponentBias ≤ G.exponentBias) (hx : HasValue F x v) : HasValue G (convert G x) v := by
  cases hx with
  | zero s => exact .zero s
  | @normal s m e h hm he he' =>
    rw [minExponent_eq] at he
    obtain ⟨k, hk⟩ : ∃ k, m.log2 + k + 1 = G.mantissaBits := ⟨G.mantissaBits - F.mantissaBits, by omega⟩
    have hmin : G.minExponent ≤ e - k := by
      rw [minExponent_eq]
      omega
    have hval : (m : ℚ) * 2 ^ e = (m * 2 ^ k : Nat) * 2 ^ (e - k) := by
      rw [zpow_sub₀ two_ne_zero, zpow_natCast]
      push_cast
      field_simp
    rw [convert, round_digits s k h hk hmin, hval]
    exact .normal s (by positivity) (by rw [log2_mul_two_pow k h, hk]) hmin (by omega)

/-- The error of a rounding in terms of what is rounded. -/
theorem rounds_near (h : Rounds F u v) : |v - u| * (2 ^ F.mantissaBits - 1) ≤ |u| := by
  have htri := abs_sub_abs_le_abs_sub v u
  rw [Rounds] at h
  linarith

/-- What is zero or not small stays so. -/
theorem zero_or_le_of_rounds {c : ℚ} (h : Rounds F u v) (hc : u = 0 ∨ c ≤ |u|) (hc0 : 0 ≤ c) :
    v = 0 ∨ c / 2 ≤ |v| := by
  have hbits : (2 : ℚ) ^ 2 ≤ 2 ^ F.mantissaBits :=
    pow_le_pow_right₀ one_le_two (by have := F.hm; simp only [Format.mantissaBits]; omega)
  have hthree : |v - u| * 3 ≤ |u| :=
    (mul_le_mul_of_nonneg_left (by linarith) (abs_nonneg _)).trans (rounds_near h)
  rcases hc with rfl | hc
  · rw [sub_zero, abs_zero] at hthree
    have := abs_nonneg v
    exact .inl (abs_eq_zero.1 (by linarith))
  · have htri := abs_sub_abs_le_abs_sub u v
    rw [abs_sub_comm] at htri
    exact .inr (by linarith)

end LeftFelt.Lib.FloatFormat
