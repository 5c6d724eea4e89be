import LeftFelt.Lib.Rounding

/-!
# Relative errors

How far a computation without subtractions is off after `k` roundings: at most by a factor of `slack ^ k` (`Within`).
`Approx x k y` says that `x` has a value that is off so from `y`; sums, products and quotients add up the roundings
(`approx_add`, `approx_mul`, `approx_div`). The magnitudes (`Size`) keep everything within range.
-/

namespace LeftFelt.Lib.Binary64

/-! ## Factors -/

/-- The factor by which one rounding is off at most. -/
def slack : ℚ := 1 + 1 / 2 ^ 52

/-- `v` is off from `y` by at most `k` roundings. -/
structure Within (k : Nat) (y v : ℚ) : Prop where
  nonneg : 0 ≤ y
  nonneg' : 0 ≤ v
  le : y ≤ slack ^ k * v
  ge : v ≤ slack ^ k * y

theorem one_le_slack : 1 ≤ slack := by
  norm_num [slack]

theorem one_le_slack_pow (k : Nat) : 1 ≤ slack ^ k := one_le_pow₀ one_le_slack

/-- A hundred roundings are off by less than a tenth. -/
theorem slack_pow_le {k : Nat} (hk : k ≤ 100) : slack ^ k ≤ 11 / 10 :=
  (pow_le_pow_right₀ one_le_slack hk).trans (by norm_num [slack])

variable {j k m : Nat} {x y v w u : ℚ}

theorem Within.refl (h : 0 ≤ y) : Within 0 y y := ⟨h, h, by simp, by simp⟩

theorem Within.mono (h : Within j y v) (hjk : j ≤ k) : Within k y v := by
  have hpow := pow_le_pow_right₀ one_le_slack hjk
  exact ⟨h.nonneg, h.nonneg', h.le.trans (mul_le_mul_of_nonneg_right hpow h.nonneg'),
    h.ge.trans (mul_le_mul_of_nonneg_right hpow h.nonneg)⟩

theorem Within.trans (h : Within j x y) (h' : Within k y v) : Within (j + k) x v := by
  have hj : 0 ≤ slack ^ j := zero_le_one.trans (one_le_slack_pow j)
  have hk : 0 ≤ slack ^ k := zero_le_one.trans (one_le_slack_pow k)
  refine ⟨h.nonneg, h'.nonneg', ?_, ?_⟩
  · calc x ≤ slack ^ j * y := h.le
      _ ≤ slack ^ j * (slack ^ k * v) := by gcongr; exact h'.le
      _ = slack ^ (j + k) * v := by ring
  · calc v ≤ slack ^ k * y := h'.ge
      _ ≤ slack ^ k * (slack ^ j * x) := by gcongr; exact h.ge
      _ = slack ^ (j + k) * x := by ring

/-- One rounding. -/
theorem within_of_rounds (h : Rounds y v) (hy : 0 ≤ y) : Within 1 y v := by
  obtain ⟨hv, hhi, hlo⟩ := rounds_bounds h hy
  refine ⟨hy, hv, ?_, ?_⟩ <;> rw [pow_one, slack] <;> linarith

theorem Within.mul (h : Within j x v) (h' : Within k y w) : Within (j + k) (x * y) (v * w) := by
  have hj : 0 ≤ slack ^ j := zero_le_one.trans (one_le_slack_pow j)
  have hk : 0 ≤ slack ^ k := zero_le_one.trans (one_le_slack_pow k)
  refine ⟨mul_nonneg h.nonneg h'.nonneg, mul_nonneg h.nonneg' h'.nonneg', ?_, ?_⟩
  · calc x * y ≤ (slack ^ j * v) * (slack ^ k * w) :=
          mul_le_mul h.le h'.le h'.nonneg (mul_nonneg hj h.nonneg')
      _ = slack ^ (j + k) * (v * w) := by ring
  · calc v * w ≤ (slack ^ j * x) * (slack ^ k * y) :=
          mul_le_mul h.ge h'.ge h'.nonneg' (mul_nonneg hj h.nonneg)
      _ = slack ^ (j + k) * (x * y) := by ring

theorem Within.pos (h : Within k y v) (hy : 0 < y) : 0 < v := by
  have hk := one_le_slack_pow k
  have hle := h.le
  by_contra hcon
  have : slack ^ k * v ≤ 0 := mul_nonpos_of_nonneg_of_nonpos (by linarith) (not_lt.1 hcon)
  linarith

theorem Within.inv (h : Within k y v) (hy : 0 < y) : Within k y⁻¹ v⁻¹ := by
  have hv := h.pos hy
  refine ⟨by positivity, by positivity, ?_, ?_⟩
  · rw [inv_le_iff_one_le_mul₀ hy, mul_assoc, inv_mul_eq_div, ← mul_div_assoc, le_div_iff₀ hv, one_mul]
    exact h.ge
  · rw [inv_le_iff_one_le_mul₀ hv, mul_assoc, inv_mul_eq_div, ← mul_div_assoc, le_div_iff₀ hy, one_mul]
    exact h.le

theorem Within.div (h : Within j x v) (h' : Within k y w) (hy : 0 < y) : Within (j + k) (x / y) (v / w) := by
  rw [div_eq_mul_inv, div_eq_mul_inv]
  exact h.mul (h'.inv hy)

theorem Within.add (h : Within k x v) (h' : Within k y w) : Within k (x + y) (v + w) := by
  refine ⟨add_nonneg h.nonneg h'.nonneg, add_nonneg h.nonneg' h'.nonneg', ?_, ?_⟩
  · rw [mul_add]
    exact add_le_add h.le h'.le
  · rw [mul_add]
    exact add_le_add h.ge h'.ge

/-! ## Magnitudes -/

/-- Zero, or between `2 ^ -lo` and `2 ^ hi`. -/
def Size (lo hi : Nat) (y : ℚ) : Prop := y = 0 ∨ 1 ≤ y * 2 ^ lo ∧ y ≤ 2 ^ hi

variable {lo hi lo' hi' : Nat}

theorem Size.nonneg (h : Size lo hi y) : 0 ≤ y := by
  rcases h with rfl | ⟨h, -⟩
  · exact le_rfl
  · have hpow : (0 : ℚ) < 2 ^ lo := by positivity
    by_contra hneg
    have := mul_neg_of_neg_of_pos (not_le.1 hneg) hpow
    linarith

theorem Size.mono (h : Size lo hi y) (hlo : lo ≤ lo') (hhi : hi ≤ hi') : Size lo' hi' y := by
  have hy := h.nonneg
  rcases h with rfl | ⟨h1, h2⟩
  · exact .inl rfl
  · refine .inr ⟨h1.trans ?_, h2.trans ?_⟩
    · gcongr
      norm_num
    · gcongr
      norm_num

theorem Size.mul (h : Size lo hi x) (h' : Size lo' hi' y) : Size (lo + lo') (hi + hi') (x * y) := by
  have hx := h.nonneg
  have hy := h'.nonneg
  rcases h with rfl | ⟨h1, h2⟩
  · exact .inl (zero_mul y)
  rcases h' with rfl | ⟨h1', h2'⟩
  · exact .inl (mul_zero x)
  refine .inr ⟨?_, ?_⟩
  · calc (1 : ℚ) = 1 * 1 := by norm_num
      _ ≤ (x * 2 ^ lo) * (y * 2 ^ lo') := by gcongr
      _ = x * y * 2 ^ (lo + lo') := by ring
  · rw [pow_add]
    gcongr

theorem Size.div (h : Size lo hi x) (h' : Size lo' hi' y) (hy : 0 < y) : Size (lo + hi') (hi + lo') (x / y) := by
  have hx := h.nonneg
  rcases h with rfl | ⟨h1, h2⟩
  · exact .inl (zero_div y)
  rcases h' with rfl | ⟨h1', h2'⟩
  · exact absurd hy (lt_irrefl 0)
  refine .inr ⟨?_, ?_⟩
  · rw [div_mul_eq_mul_div, le_div_iff₀ hy, one_mul, pow_add, ← mul_assoc]
    calc y ≤ 2 ^ hi' := h2'
      _ = 1 * 2 ^ hi' := by rw [one_mul]
      _ ≤ x * 2 ^ lo * 2 ^ hi' := by gcongr
  · rw [div_le_iff₀ hy, pow_add, mul_assoc]
    calc x ≤ 2 ^ hi := h2
      _ = 2 ^ hi * 1 := by rw [mul_one]
      _ ≤ 2 ^ hi * (2 ^ lo' * y) := by gcongr; linarith

theorem Size.add (h : Size lo hi x) (h' : Size lo hi y) : Size lo (hi + 1) (x + y) := by
  have hx := h.nonneg
  have hy := h'.nonneg
  have hpow : (2 : ℚ) ^ hi ≤ 2 ^ (hi + 1) := by gcongr <;> norm_num
  have hlo : (0 : ℚ) ≤ 2 ^ lo := by positivity
  rcases h with rfl | ⟨h1, h2⟩
  · rw [zero_add]
    exact h'.mono le_rfl (Nat.le_succ hi)
  rcases h' with rfl | ⟨h1', h2'⟩
  · rw [add_zero]
    exact .inr ⟨h1, h2.trans hpow⟩
  refine .inr ⟨?_, ?_⟩
  · rw [add_mul]
    linarith
  · rw [pow_succ]
    linarith

/-- A positive integer. -/
theorem size_nat {n : Nat} (hn : n ≤ 2 ^ hi) : Size 0 hi n := by
  rcases Nat.eq_zero_or_pos n with rfl | hpos
  · exact .inl Nat.cast_zero
  · refine .inr ⟨?_, by exact_mod_cast hn⟩
    rw [pow_zero, mul_one]
    exact_mod_cast hpos

/-- What is close to a number of moderate size is within range. -/
theorem inRange_of_within (h : Within k y v) (hk : k ≤ 100) (hy : Size lo hi y) (hlo : lo ≤ 199) (hhi : hi ≤ 199) :
    InRange v := by
  rcases hy.mono hlo hhi with rfl | ⟨h1, h2⟩
  · have hge := h.ge
    rw [mul_zero] at hge
    exact .inl (le_antisymm hge h.nonneg')
  · have hpow := slack_pow_le hk
    have hle : y ≤ 11 / 10 * v := h.le.trans (mul_le_mul_of_nonneg_right hpow h.nonneg')
    have hge : v ≤ 11 / 10 * y := h.ge.trans (mul_le_mul_of_nonneg_right hpow h.nonneg)
    rw [InRange, abs_of_nonneg h.nonneg']
    exact .inr ⟨by linarith, by linarith⟩

/-! ## Computations -/

/-- `x` is a number, at most `k` roundings off from `y`. -/
def Approx (x : Float.Model) (k : Nat) (y : ℚ) : Prop := ∃ v, Has x v ∧ Within k y v

variable {a b : Float.Model}

theorem Approx.mono (h : Approx a j y) (hjk : j ≤ k) : Approx a k y := by
  obtain ⟨v, hv, hw⟩ := h
  exact ⟨v, hv, hw.mono hjk⟩

theorem approx_of_has (h : Has a y) (hy : 0 ≤ y) : Approx a 0 y := ⟨y, h, .refl hy⟩

/-- An integer that need not be exact. -/
theorem approx_ofInt {n : Int} (h0 : 0 ≤ n) (hn : n ≤ 2 ^ 199) : Approx (Float.Model.ofInt n) 1 n := by
  obtain ⟨v, hv, hround⟩ := has_ofInt n (inRange_int (by rw [abs_of_nonneg h0]; exact hn.trans (by norm_num)))
  exact ⟨v, hv, within_of_rounds hround (by exact_mod_cast h0)⟩

theorem approx_mul (ha : Approx a j x) (hb : Approx b k y) (hs : Size lo hi (x * y)) (hlo : lo ≤ 199)
    (hhi : hi ≤ 199) (hjk : j + k ≤ 100) : Approx (a * b) (j + k + 1) (x * y) := by
  obtain ⟨v, hv, hxv⟩ := ha
  obtain ⟨w, hw, hyw⟩ := hb
  have hprod := hxv.mul hyw
  obtain ⟨u, hu, hround⟩ := has_mul hv hw (inRange_of_within hprod hjk hs hlo hhi)
  exact ⟨u, hu, hprod.trans (within_of_rounds hround hprod.nonneg')⟩

theorem approx_div (ha : Approx a j x) (hb : Approx b k y) (hy : 0 < y) (hs : Size lo hi (x / y))
    (hlo : lo ≤ 199) (hhi : hi ≤ 199) (hjk : j + k ≤ 100) :
    Approx (a / b) (j + k + 1) (x / y) := by
  obtain ⟨v, hv, hxv⟩ := ha
  obtain ⟨w, hw, hyw⟩ := hb
  have hquot := hxv.div hyw hy
  obtain ⟨u, hu, hround⟩ := has_div hv hw (hyw.pos hy).ne' (inRange_of_within hquot hjk hs hlo hhi)
  exact ⟨u, hu, hquot.trans (within_of_rounds hround hquot.nonneg')⟩

theorem approx_add (ha : Approx a k x) (hb : Approx b k y) (hs : Size lo hi (x + y)) (hlo : lo ≤ 199)
    (hhi : hi ≤ 199) (hk : k ≤ 100) : Approx (a + b) (k + 1) (x + y) := by
  obtain ⟨v, hv, hxv⟩ := ha
  obtain ⟨w, hw, hyw⟩ := hb
  have hsum := hxv.add hyw
  obtain ⟨u, hu, hround⟩ := has_add hv hw (inRange_of_within hsum hk hs hlo hhi)
  exact ⟨u, hu, hsum.trans (within_of_rounds hround hsum.nonneg')⟩

/-! ## Sums that get stuck -/

theorem digits_scale (h : Digits v) (p : Nat) : Digits (v / 2 ^ p) := by
  rcases h with rfl | ⟨n, e, rfl, hlo, hhi⟩
  · exact .inl (zero_div _)
  · refine .inr ⟨n, e - p, ?_, hlo, hhi⟩
    rw [zpow_sub₀ two_ne_zero, zpow_natCast, mul_div_assoc]

/-- The smallest number above one. -/
theorem le_of_one_lt (hv : Digits v) (h : 1 < v) : 1 + 1 / 2 ^ 52 ≤ v := by
  rcases hv with rfl | ⟨n, e, rfl, hlo, hhi⟩
  · norm_num at h
  have hpos : (0 : ℚ) < 2 ^ e := by positivity
  have hn : 0 < (n : ℚ) := pos_of_mul_pos_left (by linarith) hpos.le
  rw [abs_of_pos hn] at hlo hhi
  have he : -52 ≤ e := by
    by_contra hcon
    have hpow : (2 : ℚ) ^ e ≤ 2 ^ (-53 : Int) := zpow_le_zpow_right₀ one_le_two (by omega)
    have hle : (n : ℚ) * 2 ^ e ≤ 2 ^ 53 * 2 ^ (-53 : Int) := by gcongr
    norm_num at hle
    linarith
  -- a multiple of the unit of one
  obtain ⟨k, hk⟩ : ∃ k : Nat, e = k - 52 := ⟨(e + 52).toNat, by omega⟩
  have hval : (n : ℚ) * 2 ^ e = (n * 2 ^ k : Int) / 2 ^ 52 := by
    rw [hk, zpow_sub₀ two_ne_zero, zpow_natCast]
    push_cast
    norm_num
    ring
  have hint : (2 : Int) ^ 52 + 1 ≤ n * 2 ^ k := by
    rw [hval, lt_div_iff₀ (by norm_num), one_mul] at h
    have : (2 : Int) ^ 52 < n * 2 ^ k := by exact_mod_cast h
    omega
  have hint' : (2 : ℚ) ^ 52 + 1 ≤ (n * 2 ^ k : Int) := by exact_mod_cast hint
  rw [hval, le_div_iff₀ (by norm_num)]
  linarith

/-- **A sum gets stuck** at a power of two: what is added there is lost. -/
theorem le_pow_of_rounds {p : Nat} (hv : Digits v) (h : Rounds y v) (hy : y ≤ 2 ^ p + 2 ^ p / 2 ^ 54) : v ≤ 2 ^ p := by
  have hpow : (0 : ℚ) < 2 ^ p := by positivity
  by_contra hcon
  have hlt : 1 < v / 2 ^ p := by
    rw [lt_div_iff₀ hpow, one_mul]
    exact not_le.1 hcon
  have hge := le_of_one_lt (digits_scale hv p) hlt
  rw [le_div_iff₀ hpow] at hge
  rw [Rounds, abs_of_pos (hpow.trans (not_le.1 hcon))] at h
  have habs := le_abs_self (v - y)
  linarith

end LeftFelt.Lib.Binary64
