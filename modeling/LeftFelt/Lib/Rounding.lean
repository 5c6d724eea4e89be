import LeftFelt.Lib.Binary64

/-!
# Rounding in binary64

What an operation of `Float.Model` computes, as a rational number: `Has x v` says that `x` is zero or a normal number,
of value `v`, and `Rounds y v` that `v` is `y` rounded, off by at most `v / 2 ^ 53`. Every operation rounds the exact
result (`has_mul`, `has_div`, `has_add`, `has_sub`, `has_ofInt`), comparisons compare the values (`has_lt`), and the
cast to `int` truncates (`cInt_of_nonneg`, `cInt_of_nonpos`). The one hypothesis is that the exact result is zero or well
within the range of normal numbers (`InRange`). The operations are those of the format.
-/

namespace LeftFelt.Lib.Binary64

open Float.Model Float.Model.UnpackedFloat FloatFormat

/-! ## The values of numbers -/

/-- `v` is `y` rounded: off by at most half a unit in the last place of `v`. -/
def Rounds (y v : ℚ) : Prop := |v - y| * 2 ^ 53 ≤ |v|

/-- Zero, or well within the range of normal numbers. -/
def InRange (y : ℚ) : Prop := y = 0 ∨ 1 ≤ |y| * 2 ^ 200 ∧ |y| ≤ 2 ^ 200

/-- The value of a number that is zero or normal. -/
inductive HasValue : UnpackedFloat → ℚ → Prop
  | zero (s : Sign) : HasValue (.zero s) 0
  | normal (s : Sign) {m : Nat} {e : Int} (h : 0 < m) (hm : m.log2 = 52) (he : -1074 ≤ e) (he' : e ≤ 971) :
    HasValue (.finite s m e h) (sgn s * (m * 2 ^ e))

/-- The value of a `double` that is zero or a normal number. -/
def Has (x : Float.Model) (v : ℚ) : Prop := HasValue x.unpack v

/-- The values are those of the format. -/
theorem hasValue_iff {x : UnpackedFloat} {v : ℚ} : HasValue x v ↔ FloatFormat.HasValue Format.binary64 x v := by
  have hbits : Format.binary64.mantissaBits = 53 := rfl
  have hmin : Format.binary64.minExponent = -1074 := rfl
  have hbias : Format.binary64.exponentBias = 1023 := rfl
  constructor
  · intro h
    cases h with
    | zero s => exact .zero s
    | normal s h hm he he' => exact .normal s h (by omega) (by omega) (by omega)
  · intro h
    cases h with
    | zero s => exact .zero s
    | normal s h hm he he' => exact .normal s h (by omega) (by omega) (by omega)

/-- A normal number keeps its value when it is packed. -/
theorem has_pack {x : UnpackedFloat} {v : ℚ} (h : HasValue x v) : Has (Float.Model.pack x) v :=
  hasValue_iff.2 (hasValue_pack (hasValue_iff.1 h))

/-- The binade of a mantissa of 53 bits. -/
theorem bounds_of_log2 {m : Nat} (h : 0 < m) (hm : m.log2 = 52) : (2 : ℚ) ^ 52 ≤ m ∧ (m : ℚ) < 2 ^ 53 := by
  have hml := (Nat.log2_eq_iff h.ne').1 hm
  exact ⟨by exact_mod_cast hml.1, by exact_mod_cast hml.2⟩

/-! ## Operations -/

@[simp] theorem rounds_self (v : ℚ) : Rounds v v := by simp [Rounds]

/-- What is well within the range is within the range. -/
theorem inRange_format {y : ℚ} (h : InRange y) : FloatFormat.InRange Format.binary64 y := by
  have hbias : Format.binary64.exponentBias = 1023 := rfl
  rcases h with h | ⟨hlo, hhi⟩
  · exact .inl h
  refine .inr ⟨?_, ?_⟩
  · rw [hbias]
    calc (2 : ℚ) ^ (2 - (1023 : Nat) : Int) ≤ 2 ^ (-200 : Int) := zpow_le_zpow_right₀ one_le_two (by norm_num)
      _ = 1 / 2 ^ 200 := by norm_num
      _ ≤ |y| := by rwa [div_le_iff₀ (by positivity)]
  · rw [hbias]
    exact hhi.trans_lt (by gcongr <;> norm_num)

/-- What rounds in the format is a number. -/
theorem has_of_format {x : UnpackedFloat} {y : ℚ}
    (h : ∃ w, FloatFormat.HasValue Format.binary64 x w ∧ FloatFormat.Rounds Format.binary64 y w) :
    ∃ w, Has (Float.Model.pack x) w ∧ Rounds y w := by
  obtain ⟨w, hw, hround⟩ := h
  exact ⟨w, has_pack (hasValue_iff.2 hw), hround⟩

/-- **A product is the exact one, rounded.** -/
theorem has_mul {x y : Float.Model} {u v : ℚ} (hx : Has x u) (hy : Has y v) (hr : InRange (u * v)) :
    ∃ w, Has (x * y) w ∧ Rounds (u * v) w :=
  has_of_format (hasValue_mul (hasValue_iff.1 hx) (hasValue_iff.1 hy) (inRange_format hr))

/-- **A quotient is the exact one, rounded.** -/
theorem has_div {x y : Float.Model} {u v : ℚ} (hx : Has x u) (hy : Has y v) (hv : v ≠ 0) (hr : InRange (u / v)) :
    ∃ w, Has (x / y) w ∧ Rounds (u / v) w :=
  has_of_format (hasValue_div (hasValue_iff.1 hx) (hasValue_iff.1 hy) hv (inRange_format hr))

/-- **An integer is converted with rounding.** -/
theorem has_ofInt (n : Int) (hr : InRange n) : ∃ v, Has (Float.Model.ofInt n) v ∧ Rounds n v := by
  have hval : (n : ℚ) = n * 2 ^ (0 : Int) := by simp
  rw [hval] at hr ⊢
  exact has_of_format (hasValue_normalize n 0 .positive (inRange_format hr))

/-- **A sum is the exact one, rounded.** -/
theorem has_add {x y : Float.Model} {u v : ℚ} (hx : Has x u) (hy : Has y v) (hr : InRange (u + v)) :
    ∃ w, Has (x + y) w ∧ Rounds (u + v) w :=
  has_of_format (hasValue_add (hasValue_iff.1 hx) (hasValue_iff.1 hy) (inRange_format hr))

/-- **A difference is the exact one, rounded.** -/
theorem has_sub {x y : Float.Model} {u v : ℚ} (hx : Has x u) (hy : Has y v) (hr : InRange (u - v)) :
    ∃ w, Has (x - y) w ∧ Rounds (u - v) w :=
  has_of_format (hasValue_sub (hasValue_iff.1 hx) (hasValue_iff.1 hy) (inRange_format hr))

/-! ## Consequences of a rounding -/

/-- A rounding keeps the sign. -/
theorem rounds_pos {y v : ℚ} (h : Rounds y v) (hy : 0 < y) : 0 < v := by
  by_contra hcon
  have hv : v ≤ 0 := not_lt.1 hcon
  simp only [Rounds] at h
  rw [abs_of_nonpos hv, abs_of_nonpos (by linarith)] at h
  linarith

theorem rounds_zero {v : ℚ} (h : Rounds 0 v) : v = 0 := by
  simp only [Rounds, sub_zero] at h
  have := abs_nonneg v
  exact abs_eq_zero.1 (by linarith)

/-- The bounds of a rounding of a number that is not below zero. -/
theorem rounds_bounds {y v : ℚ} (h : Rounds y v) (hy : 0 ≤ y) :
    0 ≤ v ∧ (v - y) * 2 ^ 53 ≤ v ∧ (y - v) * 2 ^ 53 ≤ v := by
  have hv : 0 ≤ v := by
    rcases hy.eq_or_lt with rfl | hy
    · rw [rounds_zero h]
    · exact (rounds_pos h hy).le
  simp only [Rounds, abs_of_nonneg hv] at h
  refine ⟨hv, ?_, ?_⟩
  · exact le_trans (by gcongr; exact le_abs_self _) h
  · refine le_trans ?_ h
    rw [abs_sub_comm]
    gcongr
    exact le_abs_self _

theorem rounds_neg {y v : ℚ} (h : Rounds y v) : Rounds (-y) (-v) := by
  simp only [Rounds] at h ⊢
  rwa [abs_neg, neg_sub_neg, abs_sub_comm]

/-- What is zero or not small stays so. -/
theorem zero_or_le_of_rounds {y v c : ℚ} (h : Rounds y v) (hc : y = 0 ∨ c ≤ |y|) (hc0 : 0 ≤ c) : v = 0 ∨ c / 2 ≤ |v| :=
  FloatFormat.zero_or_le_of_rounds (F := Format.binary64) h hc hc0

/-- Zero, or a number of 53 bits. -/
def Digits (v : ℚ) : Prop := v = 0 ∨ ∃ (n e : Int), v = n * 2 ^ e ∧ 2 ^ 52 ≤ |(n : ℚ)| ∧ |(n : ℚ)| < 2 ^ 53

theorem digits_neg {v : ℚ} (h : Digits v) : Digits (-v) := by
  rcases h with rfl | ⟨n, e, rfl, hlo, hhi⟩
  · exact .inl neg_zero
  · exact .inr ⟨-n, e, by push_cast; ring, by simpa using hlo, by simpa using hhi⟩

theorem digits_of_has {x : Float.Model} {v : ℚ} (h : Has x v) : Digits v := by
  generalize hx : x.unpack = a
  rw [Has, hx] at h
  cases h with
  | zero s => exact .inl rfl
  | @normal s m e h hm he he' =>
    refine .inr ⟨s.apply m, e, ?_, ?_⟩
    · rw [apply_eq, mul_assoc]
    · rw [apply_eq, abs_mul, abs_sgn, one_mul, Nat.abs_cast]
      exact bounds_of_log2 h hm

/-- **Integers are exact** up to `2 ^ 52`. -/
theorem rounds_int {n : Int} {v : ℚ} (hv : Digits v) (h : Rounds n v) (hn : |n| ≤ 2 ^ 52) : v = n := by
  rcases hv with rfl | ⟨m, e, rfl, hlo, hhi⟩
  · simp only [Rounds, zero_sub, abs_neg, abs_zero] at h
    have := abs_nonneg (n : ℚ)
    exact (abs_eq_zero.1 (by linarith)).symm
  have hn' : |(n : ℚ)| ≤ 2 ^ 52 := by exact_mod_cast hn
  have hpos : (0 : ℚ) < 2 ^ e := by positivity
  rw [Rounds, abs_mul, abs_of_pos hpos] at h
  have he : e ≤ 0 := by
    by_contra hcon
    have hpow : (2 : ℚ) ^ (1 : Int) ≤ 2 ^ e := zpow_le_zpow_right₀ one_le_two (by omega)
    have hbig : (2 : ℚ) ^ 53 ≤ |(m : ℚ)| * 2 ^ e :=
      calc (2 : ℚ) ^ 53 = 2 ^ 52 * 2 ^ (1 : Int) := by norm_num
        _ ≤ |(m : ℚ)| * 2 ^ e := by gcongr
    have htri := abs_sub_abs_le_abs_sub ((m : ℚ) * 2 ^ e) n
    rw [abs_mul, abs_of_pos hpos] at htri
    linarith
  -- at a negative exponent both are multiples of the unit, less than a unit apart
  obtain ⟨k, rfl⟩ : ∃ k : Nat, e = -k := ⟨(-e).toNat, by omega⟩
  have hunit : (2 : ℚ) ^ (-(k : Int)) * 2 ^ k = 1 := by
    rw [← zpow_natCast, ← zpow_add₀ two_ne_zero]
    simp
  have hk : (0 : ℚ) < 2 ^ k := by positivity
  have hdiff : |((m - n * 2 ^ k : Int) : ℚ)| < 1 := by
    have hval : ((m - n * 2 ^ k : Int) : ℚ) = (m * 2 ^ (-(k : Int)) - n) * 2 ^ k := by
      push_cast
      rw [sub_mul, mul_assoc, hunit, mul_one]
    rw [hval, abs_mul, abs_of_pos hk]
    have hlt : |(m : ℚ) * 2 ^ (-(k : Int)) - n| * 2 ^ 53 < 2 ^ 53 * 2 ^ (-(k : Int)) := h.trans_lt (by gcongr)
    have hlt' : |(m : ℚ) * 2 ^ (-(k : Int)) - n| < 2 ^ (-(k : Int)) := by linarith
    calc |(m : ℚ) * 2 ^ (-(k : Int)) - n| * 2 ^ k < 2 ^ (-(k : Int)) * 2 ^ k := by gcongr
      _ = 1 := hunit
  have hzero : m - n * 2 ^ k = 0 := by
    rw [← Int.cast_abs] at hdiff
    exact Int.abs_lt_one_iff.1 (by exact_mod_cast hdiff)
  have hm : (m : ℚ) = n * 2 ^ k := by exact_mod_cast sub_eq_zero.1 hzero
  rw [hm, mul_assoc, mul_comm ((2 : ℚ) ^ k), hunit, mul_one]

/-- An integer is not passed by rounding: it would have been nearer. -/
theorem le_int_of_rounds {y v : ℚ} {n : Int} (hv : Digits v) (h : Rounds y v) (hn : |n| ≤ 2 ^ 52) (hy : y ≤ n) :
    v ≤ n := by
  by_contra hcon
  have hlt : (n : ℚ) < v := not_le.1 hcon
  have hnear : Rounds n v := by
    refine le_trans ?_ h
    rw [abs_of_pos (sub_pos.2 hlt), abs_of_pos (by linarith : 0 < v - y)]
    gcongr
  exact hcon (rounds_int hv hnear hn).le

theorem int_le_of_rounds {y v : ℚ} {n : Int} (hv : Digits v) (h : Rounds y v) (hn : |n| ≤ 2 ^ 52) (hy : n ≤ y) :
    n ≤ v := by
  have hneg := le_int_of_rounds (n := -n) (digits_neg hv) (rounds_neg h) (by rwa [abs_neg]) (by push_cast; linarith)
  push_cast at hneg
  linarith

/-- The quotient of an `int` and an integer is rounded, but not to the next integer. -/
theorem floor_of_rounds {a d : Int} {q : ℚ} (hq : Digits q) (h : Rounds (a / d) q) (h0 : 0 ≤ a) (ha : a < 2 ^ 31)
    (hd : 0 < d) (hd' : d ≤ 2 ^ 52) : ⌊q⌋ = a / d := by
  have hdq : (0 : ℚ) < d := by exact_mod_cast hd
  have hk0 : 0 ≤ a / d := Int.ediv_nonneg h0 hd.le
  have hka : a / d ≤ a := Int.ediv_le_self d h0
  have hlo : ((a / d : Int) : ℚ) ≤ (a : ℚ) / d := by
    rw [le_div_iff₀ hdq]
    exact_mod_cast Int.ediv_mul_le a hd.ne'
  have hnext : a + 1 ≤ (a / d + 1) * d := Int.lt_ediv_add_one_mul_self a hd
  have hnext' : (a : ℚ) + 1 ≤ ((a / d + 1 : Int) : ℚ) * d := by exact_mod_cast hnext
  have hhi : (a : ℚ) / d ≤ (a / d + 1 : Int) := by
    rw [div_le_iff₀ hdq]
    linarith
  have hfloor := int_le_of_rounds hq h (by rw [abs_of_nonneg hk0]; omega) hlo
  have hceil := le_int_of_rounds hq h (by rw [abs_of_nonneg (by omega)]; omega) hhi
  refine Int.floor_eq_iff.2 ⟨hfloor, ?_⟩
  have hne : q ≠ (a / d + 1 : Int) := by
    rintro rfl
    obtain ⟨-, hnear, -⟩ := rounds_bounds h (by positivity)
    have hgap : (1 : ℚ) ≤ (((a / d + 1 : Int) : ℚ) - a / d) * d := by
      rw [sub_mul, div_mul_cancel₀ _ hdq.ne']
      linarith
    have hsum : ((a / d + 1 : Int) : ℚ) * d ≤ 2 ^ 31 + 2 ^ 52 := by
      have hle : (a / d + 1) * d ≤ 2 ^ 31 + 2 ^ 52 := by
        have := Int.ediv_mul_le a hd.ne'
        rw [add_mul, one_mul]
        omega
      exact_mod_cast hle
    have hscaled : (((a / d + 1 : Int) : ℚ) - a / d) * 2 ^ 53 * d ≤ ((a / d + 1 : Int) : ℚ) * d := by gcongr
    linarith
  push_cast at hceil hne
  exact lt_of_le_of_ne hceil hne

/-! ## Comparisons and the cast -/

/-- Of two normal numbers of one sign, the smaller has the smaller exponent, or the same and the smaller mantissa. -/
theorem lt_iff_lex {m n : Nat} {e d : Int} (hm : (2 : ℚ) ^ 52 ≤ m ∧ (m : ℚ) < 2 ^ 53)
    (hn : (2 : ℚ) ^ 52 ≤ n ∧ (n : ℚ) < 2 ^ 53) :
    (m : ℚ) * 2 ^ e < n * 2 ^ d ↔ e < d ∨ e = d ∧ m < n := by
  have hlt : ∀ {m n : Nat} {e d : Int}, (m : ℚ) < 2 ^ 53 → (2 : ℚ) ^ 52 ≤ n → e < d →
      (m : ℚ) * 2 ^ e < n * 2 ^ d := fun {m n e d} hm hn hed => by
    have hpow : (2 : ℚ) ^ (e + 1) ≤ 2 ^ d := zpow_le_zpow_right₀ one_le_two (by omega)
    calc (m : ℚ) * 2 ^ e < 2 ^ 53 * 2 ^ e := by gcongr
      _ = 2 ^ 52 * 2 ^ (e + 1) := by
        rw [zpow_add₀ two_ne_zero, zpow_one]
        ring
      _ ≤ n * 2 ^ d := by gcongr
  rcases lt_trichotomy e d with hed | rfl | hed
  · simp [hlt hm.2 hn.1 hed, hed]
  · have hpos : (0 : ℚ) < 2 ^ e := by positivity
    simp [mul_lt_mul_iff_left₀ hpos]
  · have hgt := hlt hn.2 hm.1 hed
    simp only [not_lt.2 hgt.le, not_lt.2 hed.le, hed.ne', false_and, or_self]

theorem then_eq_lt_iff {a b : Ordering} : a.then b = .lt ↔ a = .lt ∨ a = .eq ∧ b = .lt := by
  cases a <;> simp [Ordering.then]

theorem then_eq_gt_iff {a b : Ordering} : a.then b = .gt ↔ a = .gt ∨ a = .eq ∧ b = .gt := by
  cases a <;> simp [Ordering.then]

/-- **The comparison compares the values.** -/
theorem has_lt {x y : Float.Model} {u v : ℚ} (hx : Has x u) (hy : Has y v) : x < y ↔ u < v := by
  show (x.unpack.compare y.unpack == some Ordering.lt) = true ↔ _
  generalize hx' : x.unpack = a
  generalize hy' : y.unpack = b
  rw [Has, hx'] at hx
  rw [Has, hy'] at hy
  have hcase : ∀ o : Ordering, (some o == some Ordering.lt) = true ↔ o = .lt := by
    intro o
    cases o <;> decide
  have hnormal : ∀ {m : Nat} (e : Int), 0 < m → (0 : ℚ) < m * 2 ^ e := fun e h => by positivity
  cases hx with
  | zero s =>
    cases hy with
    | zero t => cases s <;> cases t <;> simp [UnpackedFloat.compare]
    | @normal t n d h' hm' hd hd' =>
      have := hnormal d h'
      cases t <;> simp [UnpackedFloat.compare, sgn, this, this.le]
  | @normal s m e h hm he he' =>
    have hpos := hnormal e h
    cases hy with
    | zero t => cases s <;> simp [UnpackedFloat.compare, sgn, hpos, hpos.le]
    | @normal t n d h' hm' hd hd' =>
      have hpos' := hnormal d h'
      have hlex := lt_iff_lex (e := e) (d := d) (bounds_of_log2 h hm) (bounds_of_log2 h' hm')
      have hlex' := lt_iff_lex (e := d) (d := e) (bounds_of_log2 h' hm') (bounds_of_log2 h hm)
      cases s <;> cases t <;> simp only [UnpackedFloat.compare, sgn, hcase]
      · rw [Ordering.swap_eq_lt, then_eq_gt_iff, compare_gt_iff_gt, compare_eq_iff_eq, compare_gt_iff_gt]
        simp only [neg_one_mul, neg_lt_neg_iff, hlex', eq_comm (a := e)]
      · simp only [true_iff]
        linarith
      · simp only [reduceCtorEq, false_iff]
        linarith
      · rw [then_eq_lt_iff, compare_lt_iff_lt, compare_eq_iff_eq, compare_lt_iff_lt]
        simp only [one_mul, hlex]

/-- The test against zero. -/
theorem has_beq_zero {x : Float.Model} {v : ℚ} (hx : Has x v) : (x == Float.Model.ofInt 0) = true ↔ v = 0 := by
  have hzero : (Float.Model.ofInt 0).unpack = .zero .positive := unpack_pack_zero .positive
  show (x.unpack.compare (Float.Model.ofInt 0).unpack == some Ordering.eq) = true ↔ _
  rw [hzero]
  generalize hx' : x.unpack = a
  rw [Has, hx'] at hx
  cases hx with
  | zero s => simp [UnpackedFloat.compare]
  | @normal s m e h hm he he' =>
    have hpos : (0 : ℚ) < m * 2 ^ e := by positivity
    cases s with
    | negative => simp [UnpackedFloat.compare, sgn, hpos.ne']
    | positive => simp [UnpackedFloat.compare, sgn, hpos.ne']

/-- A number has one value. -/
theorem has_unique {x : Float.Model} {v w : ℚ} (hv : Has x v) (hw : Has x w) : v = w := by
  have h1 := (has_lt hv hw).symm
  have h2 := (has_lt hw hv).symm
  have h3 := has_lt hv hv
  rw [lt_self_iff_false, iff_false] at h3
  rcases lt_trichotomy v w with h | h | h
  · exact absurd (h1.1 h) h3
  · exact h
  · exact absurd (h2.1 h) h3

/-- Truncation keeps the integer part of the magnitude. -/
theorem roundToInt_eq (s : Sign) (m : Nat) (e : Int) : roundToInt s m e = s.apply ⌊(m : ℚ) * 2 ^ e⌋₊ := by
  rcases le_total 0 e with he | he
  · obtain ⟨k, rfl⟩ : ∃ k : Nat, e = k := ⟨e.toNat, by omega⟩
    have hfloor : ⌊(m : ℚ) * 2 ^ (k : Int)⌋₊ = m * 2 ^ k := by
      rw [zpow_natCast]
      exact_mod_cast Nat.floor_natCast (R := ℚ) (m * 2 ^ k)
    have hs : (0 - ((k : Int) - k)).toNat = 0 := by omega
    simp only [roundToInt, decreaseExponent, sub_zero, Int.toNat_natCast, Nat.shiftLeft_eq, shiftToExponent, hs,
      mantissa_shiftRight, ExtendedMantissa.ofMantissaAndAccuracy, pow_zero, Nat.div_one, hfloor]
  · obtain ⟨k, rfl⟩ : ∃ k : Nat, e = -k := ⟨(-e).toNat, by omega⟩
    have hfloor : ⌊(m : ℚ) * 2 ^ (-(k : Int))⌋₊ = m / 2 ^ k := by
      rw [zpow_neg, zpow_natCast, ← div_eq_mul_inv]
      exact_mod_cast Nat.floor_div_eq_div (K := ℚ) m (2 ^ k)
    have h0 : (-(k : Int) - 0).toNat = 0 := by omega
    have hs : (0 - (-(k : Int) - (0 : Nat))).toNat = k := by omega
    simp only [roundToInt, decreaseExponent, h0, Nat.shiftLeft_zero, shiftToExponent, hs, mantissa_shiftRight,
      ExtendedMantissa.ofMantissaAndAccuracy, hfloor]

/-- The cast clamps what is no `int`. -/
theorem cInt_eq {x : Float.Model} {n : Int} (hn : x.unpack.toInt Int32.minValue.toInt Int32.maxValue.toInt = n)
    (h1 : -2 ^ 31 ≤ n) (h2 : n < 2 ^ 31) : cInt x = n := by
  have hmin : Int32.minValue.toInt = -2 ^ 31 := rfl
  have hmax : Int32.maxValue.toInt = 2 ^ 31 - 1 := rfl
  simp only [cInt, Float.Model.toInt32, UnpackedFloat.toInt32, hn]
  rw [Int32.ofIntClamp, dif_pos (by rw [hmin]; exact h1), dif_pos (by rw [hmax]; omega), Int32.toInt_ofIntLE]

/-- **The cast truncates** a number that is not below zero. -/
theorem cInt_of_nonneg {x : Float.Model} {v : ℚ} (hx : Has x v) (h0 : 0 ≤ v) (h : v < 2 ^ 31) : cInt x = ⌊v⌋ := by
  have hnat : ((⌊v⌋₊ : Nat) : Int) = ⌊v⌋ := Int.natCast_floor_eq_floor h0
  have hlt : ⌊v⌋ < 2 ^ 31 := Int.floor_lt.2 (by exact_mod_cast h)
  refine cInt_eq ?_ (by have := Int.floor_nonneg.2 h0; omega) hlt
  generalize hx' : x.unpack = a
  rw [Has, hx'] at hx
  cases hx with
  | zero s => simp [UnpackedFloat.toInt]
  | @normal s m e h' hm he he' =>
    have hpos : (0 : ℚ) < m * 2 ^ e := by positivity
    cases s with
    | negative =>
      simp only [sgn, neg_one_mul] at h0
      linarith
    | positive =>
      simp only [sgn, one_mul] at hnat ⊢
      simp only [UnpackedFloat.toInt, roundToInt_eq, Sign.apply, hnat]

/-- **The cast truncates** a number that is not above zero. -/
theorem cInt_of_nonpos {x : Float.Model} {v : ℚ} (hx : Has x v) (h0 : v ≤ 0) (h : -2 ^ 31 < v) :
    cInt x = -⌊-v⌋ := by
  have hnat : ((⌊-v⌋₊ : Nat) : Int) = ⌊-v⌋ := Int.natCast_floor_eq_floor (by linarith)
  have hlt : ⌊-v⌋ < 2 ^ 31 := Int.floor_lt.2 (by push_cast; linarith)
  refine cInt_eq ?_ (by omega) (by have := Int.floor_nonneg.2 (neg_nonneg.2 h0); omega)
  generalize hx' : x.unpack = a
  rw [Has, hx'] at hx
  cases hx with
  | zero s => simp [UnpackedFloat.toInt]
  | @normal s m e h' hm he he' =>
    have hpos : (0 : ℚ) < m * 2 ^ e := by positivity
    cases s with
    | positive =>
      simp only [sgn, one_mul] at h0
      linarith
    | negative =>
      simp only [sgn, neg_one_mul, neg_neg] at hnat ⊢
      simp only [UnpackedFloat.toInt, roundToInt_eq, Sign.apply, hnat]

/-! ## Casts that may be undefined -/

/-- The cast `(int)x`, and `none` where it is undefined: what is no number or does not fit is no `int`. -/
def castInt (x : Float.Model) : Option Int :=
  if Float.Model.ofInt (-2 ^ 31 - 1) < x ∧ x < Float.Model.ofInt (2 ^ 31) then some (cInt x) else none

/-- The cast `(unsigned char)x`, and `none` where it is undefined. -/
def castByte (x : Float.Model) : Option UInt8 :=
  if Float.Model.ofInt (-1) < x ∧ x < Float.Model.ofInt 256 then some (UInt8.ofInt (cInt x)) else none

/-! ## Integers -/

theorem inRange_int {n : Int} (h : |n| ≤ 2 ^ 200) : InRange n := by
  rcases eq_or_ne n 0 with rfl | hn
  · exact .inl Int.cast_zero
  · have h1 : (1 : ℚ) ≤ |(n : ℚ)| := by exact_mod_cast Int.one_le_abs hn
    have h2 : |(n : ℚ)| ≤ 2 ^ 200 := by exact_mod_cast h
    exact .inr ⟨by linarith, h2⟩

theorem le_two_pow_200 {n : Int} (h : n ≤ 2 ^ 52) : n ≤ 2 ^ 200 := h.trans (by norm_num)

/-- The conversion of an integer of 53 bits is exact. -/
theorem has_int {n : Int} (h : |n| ≤ 2 ^ 52) : Has (Float.Model.ofInt n) n := by
  obtain ⟨v, hv, hround⟩ := has_ofInt n (inRange_int (le_two_pow_200 h))
  rwa [rounds_int (digits_of_has hv) hround h] at hv

theorem castInt_of_has {x : Float.Model} {v : ℚ} (hx : Has x v) (h0 : 0 ≤ v) (h : v < 2 ^ 31) :
    castInt x = some ⌊v⌋ := by
  have hlo := (has_lt (has_int (n := -2 ^ 31 - 1) (by norm_num)) hx).2 (by push_cast; linarith)
  have hhi := (has_lt hx (has_int (n := 2 ^ 31) (by norm_num))).2 (by push_cast; exact h)
  rw [castInt, if_pos ⟨hlo, hhi⟩, cInt_of_nonneg hx h0 h]

theorem castByte_of_has {x : Float.Model} {v : ℚ} (hx : Has x v) (h0 : 0 ≤ v) (h : v < 256) :
    castByte x = some (UInt8.ofInt ⌊v⌋) := by
  have hlo := (has_lt (has_int (n := -1) (by norm_num)) hx).2 (by push_cast; linarith)
  have hhi := (has_lt hx (has_int (n := 256) (by norm_num))).2 (by push_cast; exact h)
  rw [castByte, if_pos ⟨hlo, hhi⟩, cInt_of_nonneg hx h0 (by linarith)]

theorem has_mul_int {x y : Float.Model} {a b : Int} (hx : Has x a) (hy : Has y b) (h : |a * b| ≤ 2 ^ 52) :
    Has (x * y) (a * b : Int) := by
  have hcast : (a : ℚ) * b = (a * b : Int) := by push_cast; rfl
  obtain ⟨v, hv, hround⟩ := has_mul hx hy (hcast ▸ inRange_int (le_two_pow_200 h))
  rw [hcast] at hround
  rwa [rounds_int (digits_of_has hv) hround h] at hv

theorem has_add_int {x y : Float.Model} {a b : Int} (hx : Has x a) (hy : Has y b) (h : |a + b| ≤ 2 ^ 52) :
    Has (x + y) (a + b : Int) := by
  have hcast : (a : ℚ) + b = (a + b : Int) := by push_cast; rfl
  obtain ⟨v, hv, hround⟩ := has_add hx hy (hcast ▸ inRange_int (le_two_pow_200 h))
  rw [hcast] at hround
  rwa [rounds_int (digits_of_has hv) hround h] at hv

theorem has_sub_int {x y : Float.Model} {a b : Int} (hx : Has x a) (hy : Has y b) (h : |a - b| ≤ 2 ^ 52) :
    Has (x - y) (a - b : Int) := by
  have hcast : (a : ℚ) - b = (a - b : Int) := by push_cast; rfl
  obtain ⟨v, hv, hround⟩ := has_sub hx hy (hcast ▸ inRange_int (le_two_pow_200 h))
  rw [hcast] at hround
  rwa [rounds_int (digits_of_has hv) hround h] at hv

/-! ## Ratios of integers -/

/-- The quotient of two `int`s. -/
theorem has_ratio {a b : Int} (ha : |a| < 2 ^ 31) (hb : 0 < b) (hb' : b < 2 ^ 31) :
    ∃ q, Has (Float.Model.ofInt a / Float.Model.ofInt b) q ∧ Rounds (a / b) q := by
  have hbq : (0 : ℚ) < b := by exact_mod_cast hb
  refine has_div (has_int (by omega)) (has_int (by rw [abs_of_pos hb]; omega)) hbq.ne' ?_
  rcases eq_or_ne a 0 with rfl | ha0
  · exact .inl (by simp)
  · have h1 : (1 : ℚ) ≤ |(a : ℚ)| := by exact_mod_cast Int.one_le_abs ha0
    have h2 : |(a : ℚ)| < 2 ^ 31 := by exact_mod_cast ha
    have h3 : (b : ℚ) < 2 ^ 31 := by exact_mod_cast hb'
    have h4 : (1 : ℚ) ≤ b := by exact_mod_cast hb
    rw [InRange, abs_div, abs_of_pos hbq]
    refine .inr ⟨?_, ?_⟩
    · rw [div_mul_eq_mul_div, le_div_iff₀ hbq]
      nlinarith
    · rw [div_le_iff₀ hbq]
      nlinarith

/-- The quotient is far from the ends of the range, and so are its multiples. -/
theorem inRange_ratio_mul {a b : Int} {q c : ℚ} (ha : |a| < 2 ^ 31) (hb : 0 < b) (hb' : b < 2 ^ 31)
    (hround : Rounds (a / b) q) (hc : 1 ≤ c) (hc' : c ≤ 2 ^ 100) : InRange (q * c) := by
  rcases eq_or_ne a 0 with rfl | ha0
  · rw [Int.cast_zero, zero_div] at hround
    exact .inl (by rw [rounds_zero hround, zero_mul])
  have hbq : (0 : ℚ) < b := by exact_mod_cast hb
  have h1 : (1 : ℚ) ≤ |(a : ℚ)| := by exact_mod_cast Int.one_le_abs ha0
  have h2 : |(a : ℚ)| < 2 ^ 31 := by exact_mod_cast ha
  have h3 : (b : ℚ) < 2 ^ 31 := by exact_mod_cast hb'
  have h4 : (1 : ℚ) ≤ b := by exact_mod_cast hb
  have hlow : 1 / 2 ^ 31 ≤ |(a : ℚ) / b| := by
    rw [abs_div, abs_of_pos hbq, div_le_div_iff₀ (by norm_num) hbq]
    linarith
  have hhigh : |(a : ℚ) / b| ≤ 2 ^ 31 := by
    rw [abs_div, abs_of_pos hbq, div_le_iff₀ hbq]
    nlinarith
  have htri := abs_sub_abs_le_abs_sub ((a : ℚ) / b) q
  have htri' := abs_sub_abs_le_abs_sub q ((a : ℚ) / b)
  rw [abs_sub_comm] at htri
  rw [Rounds] at hround
  have hqlow : 1 / 2 ^ 32 ≤ |q| := by linarith
  have hqhigh : |q| ≤ 2 ^ 32 := by linarith
  rw [InRange, abs_mul, abs_of_pos (by linarith : 0 < c)]
  refine .inr ⟨?_, ?_⟩
  · have hle : 1 / 2 ^ 32 * 1 ≤ |q| * c := mul_le_mul hqlow hc zero_le_one (abs_nonneg q)
    linarith
  · have hle : |q| * c ≤ 2 ^ 32 * 2 ^ 100 := mul_le_mul hqhigh hc' (by linarith) (by norm_num)
    linarith

/-- What is not below one is not rounded below it. -/
theorem one_le_of_rounds {y v : ℚ} (hv : Digits v) (h : Rounds y v) (hy : 1 ≤ y) : 1 ≤ v := by
  exact_mod_cast int_le_of_rounds (n := 1) hv h (by norm_num) (by exact_mod_cast hy)

/-! ## Percentages -/

/-- `(int)(a / (double)b * 100)`. -/
def percent (a b : Int) : Int := cInt (Float.Model.ofInt a / Float.Model.ofInt b * Float.Model.ofInt 100)

/-- Both roundings of a percentage. -/
theorem has_percent {a b : Int} (ha : |a| < 2 ^ 31) (hb : 0 < b) (hb' : b < 2 ^ 31) :
    ∃ q r, Has (Float.Model.ofInt a / Float.Model.ofInt b) q ∧ Rounds (a / b) q ∧
      Has (Float.Model.ofInt a / Float.Model.ofInt b * Float.Model.ofInt 100) r ∧ Rounds (q * 100) r := by
  obtain ⟨q, hq, hround⟩ := has_ratio ha hb hb'
  have h100 : Has (Float.Model.ofInt 100) 100 := by exact_mod_cast has_int (n := 100) (by norm_num)
  obtain ⟨r, hr, hround'⟩ := has_mul hq h100 (inRange_ratio_mul ha hb hb' hround (by norm_num) (by norm_num))
  exact ⟨q, r, hq, hround, hr, hround'⟩

/-- All of it is 100 percent. -/
theorem percent_self {a : Int} (h0 : 0 < a) (h : a < 2 ^ 31) : percent a a = 100 := by
  obtain ⟨n, rfl⟩ : ∃ n : Nat, a = n := ⟨a.toNat, by omega⟩
  rw [percent, div_self (by omega) (by omega)]
  have h1 : Has (Float.Model.ofInt (1 : Nat)) (1 : Int) := has_int (by norm_num)
  have h100 : Has (Float.Model.ofInt 100) (100 : Int) := has_int (by norm_num)
  rw [cInt_of_nonneg (has_mul_int h1 h100 (by norm_num)) (by norm_num) (by norm_num), Int.floor_intCast]
  norm_num

/-- A part of it is less. -/
theorem percent_lt {a b : Int} (h0 : 0 ≤ a) (hab : a < b) (h : b < 2 ^ 31) : 0 ≤ percent a b ∧ percent a b < 100 := by
  obtain ⟨q, r, -, hq, hr, hr'⟩ := has_percent (by rw [abs_of_nonneg h0]; omega) (by omega) h
  have hb : (0 : ℚ) < b := by exact_mod_cast (by omega : (0 : Int) < b)
  have hb' : (b : ℚ) < 2 ^ 31 := by exact_mod_cast h
  have ha : (0 : ℚ) ≤ a := by exact_mod_cast h0
  have hlt : (a : ℚ) / b ≤ 1 - 1 / 2 ^ 31 := by
    have hab' : (a : ℚ) + 1 ≤ b := by exact_mod_cast hab
    rw [div_le_iff₀ hb]
    linarith
  obtain ⟨hq0, hqhi, -⟩ := rounds_bounds hq (by positivity)
  obtain ⟨hr0, hrhi, -⟩ := rounds_bounds hr' (by positivity)
  have hr100 : r < 100 := by linarith
  rw [percent, cInt_of_nonneg hr hr0 (by linarith)]
  exact ⟨Int.floor_nonneg.2 hr0, Int.floor_lt.2 (by exact_mod_cast hr100)⟩

/-- Both roundings of a percentage that is not above zero, without the sign. -/
theorem percent_neg {c b : Int} (h0 : 0 ≤ c) (hc : c < 2 ^ 31) (hb : 0 < b) (h : b < 2 ^ 31) (hcb : c ≤ 2 ^ 22 * b) :
    ∃ q r, Digits q ∧ Rounds (c / b) q ∧ Digits r ∧ Rounds (q * 100) r ∧ percent (-c) b = -⌊r⌋ := by
  obtain ⟨q, r, hq, hqr, hr, hrr⟩ := has_percent (a := -c) (by rw [abs_neg, abs_of_nonneg h0]; exact hc) hb h
  have hq' : Rounds (c / b) (-q) := by
    have := rounds_neg hqr
    push_cast at this
    rwa [neg_div, neg_neg] at this
  have hr' : Rounds (-q * 100) (-r) := by
    rw [neg_mul]
    exact rounds_neg hrr
  have hbq : (0 : ℚ) < b := by exact_mod_cast hb
  have hcq : (0 : ℚ) ≤ c := by exact_mod_cast h0
  have hle : (c : ℚ) / b ≤ 2 ^ 22 := by
    rw [div_le_iff₀ hbq]
    exact_mod_cast hcb
  obtain ⟨hq0, hqhi, -⟩ := rounds_bounds hq' (by positivity)
  obtain ⟨hr0, hrhi, -⟩ := rounds_bounds hr' (by positivity)
  refine ⟨-q, -r, digits_neg (digits_of_has hq), hq', digits_neg (digits_of_has hr), hr', ?_⟩
  rw [percent, cInt_of_nonpos hr (by linarith) (by linarith)]

/-- Less than one percent below zero is cut off. -/
theorem percent_neg_eq_zero {c b : Int} (h0 : 0 ≤ c) (hcb : 100 * c < b) (h : b < 2 ^ 31) : percent (-c) b = 0 := by
  obtain ⟨q, r, -, hq, -, hr, heq⟩ := percent_neg h0 (by omega) (by omega) h (by omega)
  have hb : (0 : ℚ) < b := by exact_mod_cast (by omega : (0 : Int) < b)
  have hb' : (b : ℚ) < 2 ^ 31 := by exact_mod_cast h
  have hc : (0 : ℚ) ≤ c := by exact_mod_cast h0
  have hlt : (c : ℚ) / b ≤ 1 / 100 - 1 / 2 ^ 38 := by
    have hcb' : (100 * c : ℚ) + 1 ≤ b := by exact_mod_cast hcb
    rw [div_le_iff₀ hb]
    linarith
  obtain ⟨hq0, hqhi, -⟩ := rounds_bounds hq (by positivity)
  obtain ⟨hr0, hrhi, -⟩ := rounds_bounds hr (by positivity)
  have hfloor : ⌊r⌋ = 0 := Int.floor_eq_zero_iff.2 ⟨hr0, by linarith⟩
  rw [heq, hfloor, neg_zero]

/-- The rounding of one hundredth is not below it. -/
theorem hundredth_le {q : ℚ} (hq : Digits q) (h : Rounds (1 / 100) q) : 1 / 100 ≤ q := by
  obtain ⟨hq0, hqhi, hqlo⟩ := rounds_bounds h (by norm_num)
  rcases hq with rfl | ⟨n, e, rfl, hlo, hhi⟩
  · norm_num at hqlo
  have hpos : (0 : ℚ) < 2 ^ e := by positivity
  have hn : 0 ≤ (n : ℚ) := nonneg_of_mul_nonneg_left hq0 hpos
  rw [abs_of_nonneg hn] at hlo hhi
  -- its exponent
  obtain rfl : e = -59 := by
    by_contra hne
    rcases lt_or_gt_of_ne hne with he | he
    · have hpow : (2 : ℚ) ^ e ≤ 2 ^ (-60 : Int) := zpow_le_zpow_right₀ one_le_two (by omega)
      have hle : (n : ℚ) * 2 ^ e ≤ 2 ^ 53 * 2 ^ (-60 : Int) := by gcongr
      norm_num at hle hqlo
      linarith
    · have hpow : (2 : ℚ) ^ (-58 : Int) ≤ 2 ^ e := zpow_le_zpow_right₀ one_le_two (by omega)
      have hge : (2 : ℚ) ^ 52 * 2 ^ (-58 : Int) ≤ n * 2 ^ e := by gcongr
      norm_num at hge hqhi
      linarith
  have hunit : (2 : ℚ) ^ (-59 : Int) = 1 / 2 ^ 59 := by norm_num
  rw [hunit] at hqlo ⊢
  have hmant : 5764607523034235 ≤ n := by
    by_contra hcon
    have : (n : ℚ) ≤ 5764607523034234 := by exact_mod_cast Int.le_of_lt_add_one (not_le.1 hcon)
    linarith
  have : (5764607523034235 : ℚ) ≤ n := by exact_mod_cast hmant
  linarith

/-- One percent below zero and more stays below zero. -/
theorem percent_neg_lt {c b : Int} (hc : c < 2 ^ 31) (hb : 0 < b) (h : b < 2 ^ 31) (hcb : b ≤ 100 * c)
    (hcb' : c ≤ 2 ^ 22 * b) : percent (-c) b < 0 := by
  obtain ⟨q, r, hqd, hq, hrd, hr, heq⟩ := percent_neg (by omega) hc hb h hcb'
  have hb0 : (0 : ℚ) < b := by exact_mod_cast hb
  have hb1 : (b : ℚ) < 2 ^ 31 := by exact_mod_cast h
  have hle : 1 ≤ q * 100 := by
    rcases Int.lt_or_eq_of_le hcb with hlt | heq
    · have hge : 1 / 100 + 1 / 2 ^ 38 ≤ (c : ℚ) / b := by
        have hcb' : (b : ℚ) + 1 ≤ 100 * c := by exact_mod_cast hlt
        rw [le_div_iff₀ hb0]
        linarith
      obtain ⟨-, -, hqlo⟩ := rounds_bounds hq (by linarith)
      linarith
    · have hhundredth : (c : ℚ) / b = 1 / 100 := by
        have : (b : ℚ) = 100 * c := by exact_mod_cast heq
        rw [div_eq_div_iff hb0.ne' (by norm_num)]
        linarith
      rw [hhundredth] at hq
      linarith [hundredth_le hqd hq]
  have hfloor : 1 ≤ ⌊r⌋ := Int.le_floor.2 (by exact_mod_cast one_le_of_rounds hrd hr hle)
  omega

/-- **What is left of `b`**, in percent: never more than 100, 100 if nothing is missing, and not below zero as long as
less than 101 percent are missing. -/
theorem percent_sub {b c : Int} (hb : 0 < b) (h : b < 2 ^ 31) (h0 : 0 ≤ c) (hc : c < 2 ^ 31) (hcb : c ≤ 2 ^ 22 * b) :
    percent (b - c) b ≤ 100 ∧ (percent (b - c) b = 100 ↔ c = 0) ∧ (0 ≤ percent (b - c) b ↔ 100 * c < 101 * b) := by
  rcases h0.eq_or_lt with rfl | hpos
  · rw [sub_zero, percent_self hb h]
    omega
  rcases le_or_gt c b with hle | hgt
  · obtain ⟨hlo, hhi⟩ := percent_lt (a := b - c) (by omega) (by omega) h
    omega
  · have hneg : b - c = -(c - b) := by ring
    rw [hneg]
    by_cases hfew : 100 * (c - b) < b
    · rw [percent_neg_eq_zero (by omega) hfew h]
      omega
    · have hlt := percent_neg_lt (c := c - b) (by omega) hb h (by omega) (by omega)
      omega

end LeftFelt.Lib.Binary64
