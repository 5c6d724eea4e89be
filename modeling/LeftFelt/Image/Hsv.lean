import LeftFelt.Image.Pixel
import LeftFelt.Lib.Binary32

/-!
# Hue, saturation and value

`Pixel::H`, `Pixel::S` and `Pixel::V`: the hue is computed in `float` and kept in a `double`, saturation and value are
computed in `double`. The divisors are the spread of the channels and the largest channel. Where the spread is not zero
all three are numbers, the hue of 0 to 360, the others of 0 to 100 (`exists_hValue`, `exists_sValue`, `exists_vValue`).
-/

namespace LeftFelt.Pixel

open Lib Lib.Binary64

/-! ## The code -/

section Loops

variable {α : Type*} [LT α] [DecidableLT α]

/-- `for (i = 0; i < 3; i++) if (max < RGB[i]) max = RGB[i];` -/
def largest (max : α) (RGB : List α) : α := RGB.foldl (fun max c => if max < c then c else max) max

/-- `for (i = 0; i < 3; i++) if (min > RGB[i]) min = RGB[i];` -/
def smallest (min : α) (RGB : List α) : α := RGB.foldl (fun min c => if c < min then c else min) min

end Loops

/-- `RGB[3]`. -/
def rgbArray (p : Pixel) : List Nat := [p.red.toNat, p.green.toNat, p.blue.toNat]

/-- `max` in `H()`. -/
def max (p : Pixel) : Nat := largest 0 p.rgbArray

/-- `min` in `H()`. -/
def min (p : Pixel) : Nat := smallest 255 p.rgbArray

/-- `(60 * ((float)(difference)/(spread)+offset))`, a `float` assigned to a `double`. -/
def sector (difference spread offset : Int) : Float.Model :=
  Binary32.toDouble (Float32.Model.ofInt 60 *
    (Float32.Model.ofInt difference / Float32.Model.ofInt spread + Float32.Model.ofInt offset))

/-- `h` after the three tests for the largest channel, the last of which counts. -/
def hue (p : Pixel) : Float.Model :=
  let R : Int := p.red.toNat
  let G : Int := p.green.toNat
  let B : Int := p.blue.toNat
  let h := Float.Model.ofInt 0
  let h := if p.max = p.red.toNat then sector (G - B) (p.max - p.min) 0 else h
  let h := if p.max = p.green.toNat then sector (B - R) (p.max - p.min) 2 else h
  if p.max = p.blue.toNat then sector (R - G) (p.max - p.min) 4 else h

/-- `H()`, and `none` where the cast to `int` is undefined. -/
def hValue (p : Pixel) : Option Int :=
  let h := if p.max = 0 then Float.Model.ofInt 0 else p.hue
  let h := if h < Float.Model.ofInt 0 then h + Float.Model.ofInt 360 else h
  castInt h

/-- `RGB[i]/255.0`. -/
def shares (p : Pixel) : List Float.Model := p.rgbArray.map fun c => Float.Model.ofInt c / Float.Model.ofInt 255

/-- `max` in `S()` and `V()`. -/
def maxShare (p : Pixel) : Float.Model := largest (Float.Model.ofInt 0) p.shares

/-- `min` in `S()`. -/
def minShare (p : Pixel) : Float.Model := smallest (Float.Model.ofInt 1) p.shares

/-- `S()`, and `none` where the value of the cast to `unsigned char` is undefined and returned. -/
def sValue (p : Pixel) : Option UInt8 :=
  let s := castByte ((p.maxShare - p.minShare) / p.maxShare * Float.Model.ofInt 100)
  if p.maxShare == Float.Model.ofInt 0 then some 0 else s

/-- `V()`. -/
def vValue (p : Pixel) : Option UInt8 := castByte (p.maxShare * Float.Model.ofInt 100)

/-! ## The largest and the smallest channel -/

section Loops

variable {β : Type*} [LT β] [DecidableLT β] {f : Nat → β} {n m : Nat} {l : List Nat}

/-- A function that keeps the order keeps the largest. -/
theorem largest_map (hf : ∀ a b, a ≤ n → b ≤ n → (f a < f b ↔ a < b)) (hm : m ≤ n) (hl : ∀ c ∈ l, c ≤ n) :
    largest (f m) (l.map f) = f (largest m l) := by
  induction l generalizing m with
  | nil => rfl
  | cons c l ih =>
    have hc := hl c List.mem_cons_self
    have hl' : ∀ c ∈ l, c ≤ n := fun c hc => hl c (List.mem_cons_of_mem _ hc)
    have hstep : (if f m < f c then f c else f m) = f (if m < c then c else m) := by
      simp only [hf m c hm hc]
      split_ifs <;> rfl
    show largest (if f m < f c then f c else f m) (l.map f) = f (largest (if m < c then c else m) l)
    rw [hstep]
    exact ih (by split_ifs <;> assumption) hl'

theorem smallest_map (hf : ∀ a b, a ≤ n → b ≤ n → (f a < f b ↔ a < b)) (hm : m ≤ n) (hl : ∀ c ∈ l, c ≤ n) :
    smallest (f m) (l.map f) = f (smallest m l) := by
  induction l generalizing m with
  | nil => rfl
  | cons c l ih =>
    have hc := hl c List.mem_cons_self
    have hl' : ∀ c ∈ l, c ≤ n := fun c hc => hl c (List.mem_cons_of_mem _ hc)
    have hstep : (if f c < f m then f c else f m) = f (if c < m then c else m) := by
      simp only [hf c m hc hm]
      split_ifs <;> rfl
    show smallest (if f c < f m then f c else f m) (l.map f) = f (smallest (if c < m then c else m) l)
    rw [hstep]
    exact ih (by split_ifs <;> assumption) hl'

end Loops

variable {p : Pixel}

theorem le_of_mem_rgbArray {c : Nat} (hc : c ∈ p.rgbArray) : c ≤ 255 := by
  have hr := p.red.toNat_lt
  have hg := p.green.toNat_lt
  have hb := p.blue.toNat_lt
  simp only [rgbArray, List.mem_cons, List.not_mem_nil, or_false] at hc
  omega

theorem max_eq (p : Pixel) : p.max = Max.max p.red.toNat (Max.max p.green.toNat p.blue.toNat) := by
  simp only [max, largest, rgbArray, List.foldl_cons, List.foldl_nil]
  split_ifs <;> omega

theorem min_eq (p : Pixel) : p.min = Min.min p.red.toNat (Min.min p.green.toNat p.blue.toNat) := by
  have hr := p.red.toNat_lt
  have hg := p.green.toNat_lt
  have hb := p.blue.toNat_lt
  simp only [min, smallest, rgbArray, List.foldl_cons, List.foldl_nil]
  split_ifs <;> omega

theorem max_le (p : Pixel) : p.max ≤ 255 := by
  have hr := p.red.toNat_lt
  have hg := p.green.toNat_lt
  have hb := p.blue.toNat_lt
  rw [max_eq]
  omega

theorem min_le_max (p : Pixel) : p.min ≤ p.max := by
  rw [max_eq, min_eq]
  omega

/-! ## Saturation and value -/

/-- A share is rounded by less than the distance of two shares. -/
theorem has_share {c : Nat} (hc : c ≤ 255) : ∃ q : ℚ, Has (Float.Model.ofInt c / Float.Model.ofInt 255) q ∧
    0 ≤ q ∧ q ≤ 1 ∧ (c : ℚ) / 255 - 1 / 2 ^ 53 ≤ q ∧ q ≤ (c : ℚ) / 255 + 1 / 2 ^ 53 := by
  obtain ⟨q, hq, hround⟩ := has_ratio (a := c) (b := 255) (by rw [Nat.abs_cast]; omega) (by norm_num) (by norm_num)
  push_cast at hround
  have hc0 : (0 : ℚ) ≤ (c : ℚ) / 255 := by positivity
  have hc1 : (c : ℚ) / 255 ≤ 1 := by
    rw [div_le_one (by norm_num)]
    exact_mod_cast hc
  have hq1 : q ≤ 1 := by
    exact_mod_cast le_int_of_rounds (n := 1) (digits_of_has hq) hround (by norm_num) (by exact_mod_cast hc1)
  obtain ⟨hq0, hhi, hlo⟩ := rounds_bounds hround hc0
  exact ⟨q, hq, hq0, hq1, by linarith, by linarith⟩

theorem share_lt {a b : Nat} (ha : a ≤ 255) (hb : b ≤ 255) :
    Float.Model.ofInt a / Float.Model.ofInt 255 < Float.Model.ofInt b / Float.Model.ofInt 255 ↔ a < b := by
  obtain ⟨q, hq, -, -, hqlo, hqhi⟩ := has_share ha
  obtain ⟨r, hr, -, -, hrlo, hrhi⟩ := has_share hb
  have hlt : ∀ {a b : Nat}, a < b → (a : ℚ) / 255 + 1 / 255 ≤ b / 255 := fun {a b} h => by
    have : (a : ℚ) + 1 ≤ b := by exact_mod_cast h
    rw [← add_div]
    gcongr
  rw [has_lt hq hr]
  rcases lt_trichotomy a b with h | rfl | h
  · have := hlt h
    exact iff_of_true (by linarith) h
  · rw [has_unique hq hr]
    simp
  · have := hlt h
    exact iff_of_false (by linarith) (by omega)

/-- The share of black. -/
theorem share_zero : Float.Model.ofInt (0 : Nat) / Float.Model.ofInt 255 = Float.Model.ofInt 0 := by
  decide +kernel

theorem maxShare_eq (p : Pixel) : p.maxShare = Float.Model.ofInt p.max / Float.Model.ofInt 255 := by
  rw [maxShare, shares, ← share_zero]
  exact largest_map (f := fun c : Nat => Float.Model.ofInt c / Float.Model.ofInt 255) (n := 255)
    (fun a b ha hb => share_lt ha hb) (by norm_num) fun c hc => le_of_mem_rgbArray hc

theorem minShare_eq (p : Pixel) : p.minShare = Float.Model.ofInt p.min / Float.Model.ofInt 255 := by
  have hone : Float.Model.ofInt 1 = Float.Model.ofInt (255 : Nat) / Float.Model.ofInt 255 := by decide +kernel
  rw [minShare, shares, hone]
  exact smallest_map (f := fun c : Nat => Float.Model.ofInt c / Float.Model.ofInt 255) (n := 255)
    (fun a b ha hb => share_lt ha hb) le_rfl fun c hc => le_of_mem_rgbArray hc

/-- The test against black. -/
theorem maxShare_beq_zero (p : Pixel) : (p.maxShare == Float.Model.ofInt 0) = true ↔ p.max = 0 := by
  obtain ⟨q, hq, -, -, hlo, hhi⟩ := has_share (max_le p)
  rw [maxShare_eq, has_beq_zero hq]
  constructor
  · rintro rfl
    by_contra hne
    have h1 : (1 : ℚ) ≤ p.max := by exact_mod_cast Nat.one_le_iff_ne_zero.2 hne
    have : (1 : ℚ) / 255 ≤ (p.max : ℚ) / 255 := by gcongr
    linarith
  · intro h
    rw [h] at hq
    have hzero : Has (Float.Model.ofInt (0 : Nat) / Float.Model.ofInt 255) 0 := by
      rw [share_zero]
      exact_mod_cast has_int (n := 0) (by norm_num)
    exact has_unique hq hzero

theorem toNat_ofInt_floor {v : ℚ} (h0 : 0 ≤ v) (h : v < 101) : (UInt8.ofInt ⌊v⌋).toNat ≤ 100 := by
  have hlo := Int.floor_nonneg.2 h0
  have hhi : ⌊v⌋ < 101 := Int.floor_lt.2 (by exact_mod_cast h)
  have := toNat_ofInt hlo (by omega)
  omega

theorem has_hundred : Has (Float.Model.ofInt 100) 100 := by
  exact_mod_cast has_int (n := 100) (by norm_num)

/-- **The value** is at most 100. -/
theorem exists_vValue (p : Pixel) : ∃ v, p.vValue = some v ∧ v.toNat ≤ 100 := by
  obtain ⟨q, hq, hq0, hq1, hlo, -⟩ := has_share (max_le p)
  have hrange : InRange (q * 100) := by
    rcases Nat.eq_zero_or_pos p.max with h | h
    · have hzero := (has_beq_zero hq).1 (maxShare_eq p ▸ (maxShare_beq_zero p).2 h)
      exact .inl (by rw [hzero, zero_mul])
    · have h1 : (1 : ℚ) / 255 ≤ (p.max : ℚ) / 255 := by gcongr; exact_mod_cast h
      rw [InRange, abs_of_nonneg (by positivity)]
      exact .inr ⟨by linarith, by linarith⟩
  obtain ⟨v, hv, hround⟩ := has_mul hq has_hundred hrange
  obtain ⟨hv0, hhi, -⟩ := rounds_bounds hround (by positivity)
  rw [vValue, maxShare_eq, castByte_of_has hv hv0 (by linarith)]
  exact ⟨_, rfl, toNat_ofInt_floor hv0 (by linarith)⟩

/-- The difference of the largest and the smallest share: zero, or about one channel step and more. -/
theorem has_shareSpread (p : Pixel) : ∃ d : ℚ, Has (p.maxShare - p.minShare) d ∧ 0 ≤ d ∧ (d = 0 ∨ 1 / 512 ≤ d) ∧
    ∃ M, Has p.maxShare M ∧ d ≤ M * (1 + 1 / 2 ^ 52) := by
  have hle := min_le_max p
  have hmax := max_le p
  obtain ⟨M, hM, hM0, hM1, hMlo, -⟩ := has_share hmax
  obtain ⟨m, hm, hm0, -, hmlo, hmhi⟩ := has_share (hle.trans hmax)
  have hspread : M - m = 0 ∨ 1 / 256 ≤ M - m := by
    rcases hle.eq_or_lt with h | h
    · rw [h] at hm
      exact .inl (by rw [has_unique hM hm, sub_self])
    · have : (p.min : ℚ) / 255 + 1 / 255 ≤ p.max / 255 := by
        rw [← add_div]
        gcongr
        exact_mod_cast h
      exact .inr (by linarith)
  have hspread0 : 0 ≤ M - m := by rcases hspread with h | h <;> linarith
  obtain ⟨d, hd, hround⟩ := has_sub hM hm (by
    rw [InRange, abs_of_nonneg hspread0]
    exact hspread.imp_right fun h => ⟨by linarith, by linarith⟩)
  obtain ⟨hd0, hdhi, -⟩ := rounds_bounds hround hspread0
  have hdlo := zero_or_le_of_rounds (c := 1 / 256) hround (by rwa [abs_of_nonneg hspread0]) (by norm_num)
  rw [abs_of_nonneg hd0] at hdlo
  rw [maxShare_eq, minShare_eq]
  exact ⟨d, hd, hd0, hdlo.imp_right fun h => by linarith, M, hM, by linarith⟩

/-- **The saturation** is at most 100. -/
theorem exists_sValue (p : Pixel) : ∃ s, p.sValue = some s ∧ s.toNat ≤ 100 := by
  rw [sValue]
  by_cases hblack : p.max = 0
  · rw [if_pos ((maxShare_beq_zero p).2 hblack)]
    exact ⟨0, rfl, by decide⟩
  rw [if_neg (fun h => hblack ((maxShare_beq_zero p).1 h))]
  obtain ⟨d, hd, hd0, hdlo, M, hM, hdM⟩ := has_shareSpread p
  obtain ⟨M', hM', hM0, hM1, -, -⟩ := has_share (max_le p)
  obtain rfl : M = M' := has_unique hM (maxShare_eq p ▸ hM')
  have hMpos : 0 < M := lt_of_le_of_ne hM0 fun h => hblack ((maxShare_beq_zero p).1 ((has_beq_zero hM).2 h.symm))
  -- the quotient is at most about one
  have hq0 : 0 ≤ d / M := by positivity
  have hqhi : d / M ≤ 1 + 1 / 2 ^ 52 := by
    rw [div_le_iff₀ hMpos]
    linarith
  have hqlo : d / M = 0 ∨ 1 / 512 ≤ |d / M| := by
    refine hdlo.imp (fun h => by rw [h, zero_div]) fun h => ?_
    rw [abs_of_nonneg hq0, le_div_iff₀ hMpos]
    linarith
  obtain ⟨q, hq, hroundq⟩ := has_div hd hM hMpos.ne' (hqlo.imp_right fun h =>
    ⟨by linarith, by rw [abs_of_nonneg hq0]; linarith⟩)
  obtain ⟨hq0', hqhi', -⟩ := rounds_bounds hroundq hq0
  have hqlo' := zero_or_le_of_rounds hroundq hqlo (by norm_num)
  rw [abs_of_nonneg hq0'] at hqlo'
  obtain ⟨s, hs, hrounds⟩ := has_mul hq has_hundred (by
    rw [InRange, abs_of_nonneg (by positivity)]
    exact hqlo'.imp (fun h => by rw [h, zero_mul]) fun h => ⟨by linarith, by linarith⟩)
  obtain ⟨hs0, hshi, -⟩ := rounds_bounds hrounds (by positivity)
  rw [castByte_of_has hs hs0 (by linarith)]
  exact ⟨_, rfl, toNat_ofInt_floor hs0 (by linarith)⟩

/-! ## The hue -/

/-- One rounding of a `float` that is zero or not small. -/
theorem near_of_rounds {u v c b : ℚ} (h : FloatFormat.Rounds Float.Model.Format.binary32 u v) (hc : u = 0 ∨ c ≤ |u|)
    (hb : |u| ≤ b) (hc0 : 0 ≤ c) : (v = 0 ∨ c / 2 ≤ |v|) ∧ |v - u| * (2 ^ 24 - 1) ≤ b :=
  ⟨FloatFormat.zero_or_le_of_rounds h hc hc0, (Binary32.rounds_near h).trans hb⟩

/-- The quotient of the difference and the spread is at most one. -/
theorem quotient_bounds {a d : Int} (hd : 0 < d) (hd' : d ≤ 255) (ha : |a| ≤ d) :
    |(a : ℚ) / d| ≤ 1 ∧ ((a : ℚ) / d = 0 ∨ 1 / 255 ≤ |(a : ℚ) / d|) := by
  have hdq : (0 : ℚ) < d := by exact_mod_cast hd
  have hd255 : (d : ℚ) ≤ 255 := by exact_mod_cast hd'
  rw [abs_div, abs_of_pos hdq, div_le_one hdq]
  refine ⟨by exact_mod_cast ha, ?_⟩
  rcases eq_or_ne a 0 with rfl | hne
  · exact .inl (by simp)
  · have h1 : (1 : ℚ) ≤ |(a : ℚ)| := by exact_mod_cast Int.one_le_abs hne
    rw [div_le_div_iff₀ (by norm_num) hdq]
    exact .inr (by linarith)

/-- **A sector** is the multiple of 60 that it is in the numbers, but for a small error. -/
theorem has_sector {a d k : Int} (hd : 0 < d) (hd' : d ≤ 255) (ha : |a| ≤ d) (hk : k = 0 ∨ 2 ≤ k ∧ k ≤ 4) :
    ∃ w : ℚ, Has (sector a d k) w ∧ |w - 60 * (a / d + k)| ≤ 1 / 100 := by
  have hdq : (d : ℚ) ≠ 0 := by exact_mod_cast hd.ne'
  have hA := Binary32.has_int (n := a) (by have := abs_le.1 ha; omega)
  have hD := Binary32.has_int (n := d) (by omega)
  have hK := Binary32.has_int (n := k) (by omega)
  have h60 : Binary32.Has (Float32.Model.ofInt 60) 60 := by exact_mod_cast Binary32.has_int (n := 60) (by norm_num)
  obtain ⟨hq1, hq0⟩ := quotient_bounds hd hd' ha
  obtain ⟨v, hv, hroundv⟩ := Binary32.has_div hA hD hdq (Binary32.inRange_of_abs
    (hq0.imp_right fun h => ⟨by linarith, by linarith⟩))
  obtain ⟨hv0, hvnear⟩ := near_of_rounds hroundv hq0 hq1 (by norm_num)
  have hv1 := abs_sub_abs_le_abs_sub v ((a : ℚ) / d)
  -- the offset is added to a number of at most about one
  have hsum : v + k = 0 ∨ 1 / 510 ≤ |v + k| := by
    rcases hk with rfl | ⟨hk2, -⟩
    · rw [Int.cast_zero, add_zero]
      exact hv0.imp_right fun h => by linarith
    · have hk2' : (2 : ℚ) ≤ k := by exact_mod_cast hk2
      have := neg_abs_le v
      exact .inr (by rw [abs_of_nonneg (by linarith)]; linarith)
  have hk4 : |(k : ℚ)| ≤ 4 := by
    have : |k| ≤ 4 := abs_le.2 (by omega)
    exact_mod_cast this
  have hsum6 : |v + k| ≤ 6 := (abs_add_le v k).trans (by linarith)
  obtain ⟨u, hu, hroundu⟩ := Binary32.has_add hv hK (Binary32.inRange_of_abs
    (hsum.imp_right fun h => ⟨by linarith, by linarith⟩))
  obtain ⟨hu0, hunear⟩ := near_of_rounds hroundu hsum hsum6 (by norm_num)
  have hu7 := abs_sub_abs_le_abs_sub u (v + k)
  have h60abs : |60 * u| = 60 * |u| := by rw [abs_mul, abs_of_pos (by norm_num : (0 : ℚ) < 60)]
  have hprod : 60 * u = 0 ∨ 1 / 17 ≤ |60 * u| := by
    rw [h60abs]
    exact hu0.imp (fun h => by rw [h, mul_zero]) fun h => by linarith
  have hprod420 : |60 * u| ≤ 420 := by
    rw [h60abs]
    linarith
  obtain ⟨w, hw, hroundw⟩ := Binary32.has_mul h60 hu (Binary32.inRange_of_abs
    (hprod.imp_right fun h => ⟨by linarith, by linarith⟩))
  obtain ⟨-, hwnear⟩ := near_of_rounds hroundw hprod hprod420 (by norm_num)
  refine ⟨w, Binary32.has_toDouble hw, ?_⟩
  calc |w - 60 * (a / d + k)| = |(w - 60 * u) + 60 * (u - (v + k)) + 60 * (v - a / d)| := by congr 1; ring
    _ ≤ |w - 60 * u| + |60 * (u - (v + k))| + |60 * (v - a / d)| := abs_add_three _ _ _
    _ = |w - 60 * u| + 60 * |u - (v + k)| + 60 * |v - a / d| := by
      rw [abs_mul, abs_mul, abs_of_pos (by norm_num : (0 : ℚ) < 60)]
    _ ≤ 1 / 100 := by linarith

theorem has_hue (hne : p.max ≠ p.min) : ∃ w : ℚ, Has p.hue w ∧ -61 ≤ w ∧ w ≤ 301 := by
  have hmax := max_eq p
  have hmin := min_eq p
  have hmax255 := max_le p
  have hsector : ∀ {a k : Int}, |a| ≤ p.max - p.min → k = 0 ∨ 2 ≤ k ∧ k ≤ 4 →
      ∃ w : ℚ, Has (sector a (p.max - p.min) k) w ∧ -61 ≤ w ∧ w ≤ 301 := fun {a k} ha hk => by
    obtain ⟨w, hw, hnear⟩ := has_sector (by omega) (by omega) ha hk
    have hq := (quotient_bounds (by omega) (by omega) ha).1
    have hk0 : (0 : ℚ) ≤ k ∧ (k : ℚ) ≤ 4 := by
      constructor
      · exact_mod_cast (by omega : 0 ≤ k)
      · exact_mod_cast (by omega : k ≤ 4)
    obtain ⟨hq0, hq1⟩ := abs_le.1 hq
    obtain ⟨hw0, hw1⟩ := abs_le.1 hnear
    exact ⟨w, hw, by linarith, by linarith⟩
  -- one of the three tests holds, and the differences are at most the spread
  by_cases hb : p.max = p.blue.toNat
  · simp only [hue, if_pos hb]
    exact hsector (abs_le.2 (by omega)) (.inr (by omega))
  by_cases hg : p.max = p.green.toNat
  · simp only [hue, if_neg hb, if_pos hg]
    exact hsector (abs_le.2 (by omega)) (.inr (by omega))
  have hr : p.max = p.red.toNat := by omega
  simp only [hue, if_neg hb, if_neg hg, if_pos hr]
  exact hsector (abs_le.2 (by omega)) (.inl rfl)

/-- **The hue** of a pixel that is not gray is one of 0 to 360. -/
theorem exists_hValue (hne : p.max ≠ p.min) : ∃ h, p.hValue = some h ∧ 0 ≤ h ∧ h ≤ 360 := by
  obtain ⟨w, hw, hlo, hhi⟩ := has_hue hne
  have hmax : p.max ≠ 0 := by
    have := min_le_max p
    omega
  have hzero : Has (Float.Model.ofInt 0) 0 := by exact_mod_cast has_int (n := 0) (by norm_num)
  have h360 : Has (Float.Model.ofInt 360) 360 := by exact_mod_cast has_int (n := 360) (by norm_num)
  have hcast : ∀ {x : Float.Model} {v : ℚ}, Has x v → 0 ≤ v → v ≤ 360 →
      ∃ h, castInt x = some h ∧ 0 ≤ h ∧ h ≤ 360 := fun {x v} hx h0 h => by
    rw [castInt_of_has hx h0 (by linarith)]
    refine ⟨_, rfl, Int.floor_nonneg.2 h0, ?_⟩
    exact_mod_cast (Int.floor_le v).trans h
  simp only [hValue, if_neg hmax, has_lt hw hzero]
  by_cases hneg : w < 0
  · obtain ⟨v, hv, hround⟩ := has_add hw h360 (.inr (by
      rw [abs_of_nonneg (by linarith)]
      exact ⟨by linarith, by linarith⟩))
    obtain ⟨hv0, -, -⟩ := rounds_bounds hround (by linarith)
    have hv360 := le_int_of_rounds (n := 360) (digits_of_has hv) hround (by norm_num) (by push_cast; linarith)
    rw [if_pos hneg]
    exact hcast hv hv0 (by exact_mod_cast hv360)
  · rw [if_neg hneg]
    exact hcast hw (not_lt.1 hneg) (by linarith)

/-! ## Gray and black pixels -/

/-- The spread is zero for gray pixels, black and white ones among them. -/
theorem max_eq_min_iff : p.max = p.min ↔ p.red = p.green ∧ p.green = p.blue := by
  rw [max_eq, min_eq, ← UInt8.toNat_inj, ← UInt8.toNat_inj]
  omega

theorem max_eq_zero_iff : p.max = 0 ↔ p.red = 0 ∧ p.green = 0 ∧ p.blue = 0 := by
  rw [max_eq, ← UInt8.toNat_inj, ← UInt8.toNat_inj, ← UInt8.toNat_inj]
  simp only [UInt8.toNat_zero]
  omega

/-- The hue of black is set to zero after the divisions. -/
theorem hValue_of_black (h : p.max = 0) : p.hValue = some 0 := by
  simp only [hValue, if_pos h]
  decide +kernel

end LeftFelt.Pixel
