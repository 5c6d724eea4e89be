import LeftFelt.Image.Histogram
import LeftFelt.Lib.RelativeError

/-!
# The threshold

`getThreshold` looks for the threshold with the largest ratio of the variances between and within the classes. What its
loops add up over the histogram are sums over the pixels of a class (`sumUp_eq`, `summed_scatter`); the ratio is off by
some roundings (`approx_ratio`), and the scan finds the largest (`scan_spec`).

Nothing is divided by zero, and the threshold is in range, unless all pixels have one lightness (`threshold_iff`).
-/

namespace LeftFelt.ImageUtil

open Lib BiImage Finset

variable {image : BiImage} {lo hi : Nat}

/-! ## Sums over the histogram -/

/-- A counting loop that adds up two sums, one of them in 32 bits. -/
theorem forLoop_sums (lo hi : Nat) (g h : Nat → Int) :
    forLoop lo hi (fun i (s : Int × Int) => (CInt.wrap (s.1 + g i), s.2 + h i)) (0, 0) =
      (CInt.wrap (∑ i ∈ Ico lo hi, g i), ∑ i ∈ Ico lo hi, h i) := by
  rw [forLoop, sum_Ico_eq_sum_range, sum_Ico_eq_sum_range]
  induction hi - lo with
  | zero => rfl
  | succ k ih =>
    rw [List.range'_concat, List.foldl_append, ih, sum_range_succ, sum_range_succ, one_mul, List.foldl_cons,
      List.foldl_nil]
    simp only [CInt.wrap, Int.bmod_add_bmod]

/-- The pixels of a range of lightness. -/
def between (image : BiImage) (lo hi : Nat) : List (Nat × Nat) :=
  (grid image).filter fun p => lo ≤ lightness image p ∧ lightness image p < hi

/-- A sum over the histogram is one over the pixels. -/
theorem sum_occurrences (image : BiImage) (g : Nat → Int) (lo hi : Nat) :
    ∑ i ∈ Ico lo hi, g i * occurrences image i = ((between image lo hi).map fun p => g (lightness image p)).sum := by
  unfold occurrences between
  induction grid image with
  | nil => simp
  | cons p ps ih =>
    simp only [List.countP_cons, Nat.cast_add, mul_add, sum_add_distrib, ih, List.filter_cons]
    by_cases hp : lo ≤ lightness image p ∧ lightness image p < hi
    · have hone : ∑ i ∈ Ico lo hi, g i * ((if decide (lightness image p = i) = true then 1 else 0 : Nat) : Int) =
          g (lightness image p) := by
        simp [hp]
      simp only [hone, hp, and_self, decide_true, if_true, List.map_cons, List.sum_cons]
      ring
    · have hzero : ∑ i ∈ Ico lo hi, g i * ((if decide (lightness image p = i) = true then 1 else 0 : Nat) : Int) =
          0 := by
        simp only [decide_eq_true_eq, Nat.cast_ite, Nat.cast_one, Nat.cast_zero, mul_ite, mul_one, mul_zero,
          sum_ite_eq, mem_Ico, hp, if_false]
      simp only [hzero, hp, decide_false, Bool.false_eq_true, if_false, add_zero]

/-- The number of pixels of a class. -/
def size (image : BiImage) (lo hi : Nat) : Nat := (between image lo (hi + 1)).length

theorem size_le (image : BiImage) (lo hi : Nat) : size image lo hi ≤ image.width * image.height := by
  rw [← length_grid]
  exact List.length_filter_le _ _

theorem size_pos {p : Nat × Nat} (hp : image.Inside p) (hlo : lo ≤ lightness image p) (hhi : lightness image p ≤ hi) :
    0 < size image lo hi := by
  refine List.length_pos_of_mem (a := p) (List.mem_filter.2 ⟨mem_grid.2 hp, ?_⟩)
  rw [decide_eq_true_iff]
  omega

/-- The sum of the lightness of a class. -/
def total (image : BiImage) (lo hi : Nat) : Int :=
  ((between image lo (hi + 1)).map fun p => (lightness image p : Int)).sum

/-- **The first loop**: the sum of the lightness, as far as an `int` keeps it, and the number of pixels. -/
theorem sumUp_eq (image : BiImage) (lo hi : Nat) :
    sumUp (getHistogram image) lo hi = (CInt.wrap (total image lo hi), (size image lo hi : Int)) := by
  have htotal := sum_occurrences image (fun i => i) lo (hi + 1)
  have hsize := sum_occurrences image (fun _ => 1) lo (hi + 1)
  simp only [one_mul, List.map_const', List.sum_replicate, nsmul_eq_mul, mul_one] at hsize
  simp only [sumUp, forLoop_sums, getHistogram_getD, htotal, hsize, total, size]

/-! ## The scatter of a class -/

/-- A sum of squares: at least one if something was added, and bounded however much was. -/
def Summed (c : Prop) (s : Float.Model) : Prop :=
  ∃ v, Binary64.Has s v ∧ v ≤ 2 ^ 117 ∧ (c → 1 ≤ v) ∧ (¬c → v = 0)

theorem Summed.congr {c c' : Prop} {s : Float.Model} (h : Summed c s) (hc : c ↔ c') : Summed c' s := by
  rwa [← hc]

theorem Summed.add {c c' : Prop} {s d : Float.Model} {δ : ℚ} (hs : Summed c s) (hd : Binary64.Has d δ) (hle : δ ≤ 2 ^ 63)
    (h1 : c' → 1 ≤ δ) (h0 : ¬c' → δ = 0) : Summed (c ∨ c') (s + d) := by
  obtain ⟨v, hv, hvle, hv1, hv0⟩ := hs
  have hvnonneg : 0 ≤ v := by
    by_cases hc : c
    · linarith [hv1 hc]
    · rw [hv0 hc]
  have hδnonneg : 0 ≤ δ := by
    by_cases hc : c'
    · linarith [h1 hc]
    · rw [h0 hc]
  have hone : c ∨ c' → 1 ≤ v + δ := by
    rintro (hc | hc)
    · linarith [hv1 hc]
    · linarith [h1 hc]
  have hzero : ¬(c ∨ c') → v + δ = 0 := fun hc => by
    rw [not_or] at hc
    rw [hv0 hc.1, h0 hc.2, add_zero]
  have hrange : Binary64.InRange (v + δ) := by
    by_cases hc : c ∨ c'
    · have h := hone hc
      rw [Binary64.InRange, abs_of_nonneg (by linarith)]
      exact .inr ⟨by linarith, by linarith⟩
    · exact .inl (hzero hc)
  obtain ⟨w, hw, hround⟩ := Binary64.has_add hv hd hrange
  refine ⟨w, hw, Binary64.le_pow_of_rounds (Binary64.digits_of_has hw) hround (by linarith), fun hc => ?_, fun hc => ?_⟩
  · exact Binary64.one_le_of_rounds (Binary64.digits_of_has hw) hround (hone hc)
  · rw [hzero hc] at hround
    exact Binary64.rounds_zero hround

/-- The square that is added for a pixel. -/
def square (u0 : Int) (i : Nat) : Float.Model :=
  (Float.Model.ofInt i - Float.Model.ofInt u0) * (Float.Model.ofInt i - Float.Model.ofInt u0)

theorem has_difference {u0 : Int} {i : Nat} (hi : i < 256) (hu : |u0| ≤ 2 ^ 31) :
    Binary64.Has (Float.Model.ofInt i - Float.Model.ofInt u0) ((i : Int) - u0 : Int) := by
  have hu' := abs_le.1 hu
  refine Binary64.has_sub_int (Binary64.has_int ?_) (Binary64.has_int (by omega)) ?_
  · rw [abs_of_nonneg (by omega)]
    omega
  · rw [abs_le]
    omega

theorem exists_square {u0 : Int} {i : Nat} (hi : i < 256) (hu : |u0| ≤ 2 ^ 31) : ∃ δ, Binary64.Has (square u0 i) δ ∧
    δ ≤ 2 ^ 63 ∧ ((i : Int) ≠ u0 → 1 ≤ δ) ∧ (¬(i : Int) ≠ u0 → δ = 0) := by
  have hd := has_difference hi hu
  have hu' := abs_le.1 hu
  generalize hn : (i : Int) - u0 = n at hd
  have hbound : |(n : ℚ)| ≤ 2 ^ 31 + 255 := by
    have : |n| ≤ 2 ^ 31 + 255 := abs_le.2 (by omega)
    exact_mod_cast this
  have hsq : (n : ℚ) * n ≤ (2 ^ 31 + 255) * (2 ^ 31 + 255) := by
    rw [← abs_mul_abs_self]
    gcongr
  have hone : n ≠ 0 → (1 : ℚ) ≤ n * n := fun h => by
    have : 1 ≤ n * n := by nlinarith [mul_self_pos.2 h]
    exact_mod_cast this
  have hrange : Binary64.InRange ((n : ℚ) * n) := by
    rcases eq_or_ne n 0 with rfl | h
    · exact .inl (by simp)
    · have h1 := hone h
      rw [Binary64.InRange, abs_of_nonneg (by linarith)]
      exact .inr ⟨by linarith, by linarith⟩
  obtain ⟨δ, hδ, hround⟩ := Binary64.has_mul hd hd hrange
  obtain ⟨-, hhi, -⟩ := Binary64.rounds_bounds hround (mul_self_nonneg _)
  refine ⟨δ, hδ, by linarith, fun hne => ?_, fun heq => ?_⟩
  · exact Binary64.one_le_of_rounds (Binary64.digits_of_has hδ) hround (hone (by omega))
  · have h0 : n = 0 := by
      rw [not_not] at heq
      omega
    rw [h0, Int.cast_zero, mul_zero] at hround
    exact Binary64.rounds_zero hround

/-- Some pixel of the class differs from `u0`. -/
def Differs (image : BiImage) (u0 : Int) (lo hi : Nat) : Prop :=
  ∃ p, image.Inside p ∧ (lo ≤ lightness image p ∧ lightness image p ≤ hi) ∧ (lightness image p : Int) ≠ u0

/-- **The scatter** of a class is zero if all its pixels are `u0`, else at least one. -/
theorem summed_scatter (image : BiImage) {u0 : Int} (hu : |u0| ≤ 2 ^ 31) (lo : Nat) (hhi : hi < 256) :
    Summed (Differs image u0 lo hi) (scatter (getHistogram image) u0 lo hi) := by
  have hinner : ∀ (n : Nat) (c : Prop) (s : Float.Model) (i : Nat), i < 256 → Summed c s →
      Summed (c ∨ 0 < n ∧ (i : Int) ≠ u0) ((fun s => s + square u0 i)^[n] s) := by
    intro n c s i hi hs
    obtain ⟨δ, hδ, hle, h1, h0⟩ := exists_square hi hu
    induction n with
    | zero => simpa using hs
    | succ n ih =>
      rw [Function.iterate_succ_apply']
      refine (ih.add hδ hle h1 h0).congr ?_
      by_cases hne : (i : Int) = u0
      · simp [hne]
      · simp only [hne, ne_eq, not_false_eq_true, and_true, Nat.zero_lt_succ]
        tauto
  have hstart : Summed (∃ i ∈ ([] : List Nat), 0 < occurrences image i ∧ (i : Int) ≠ u0) (Float.Model.ofInt 0) :=
    ⟨0, by exact_mod_cast Binary64.has_int (n := 0) (by norm_num), by norm_num, by simp, fun _ => rfl⟩
  have hscan := foldl_scan (l := List.range' lo (hi + 1 - lo)) (s := Float.Model.ofInt 0)
    (f := fun s i => forLoop 0 ((getHistogram image).getD i 0).toNat (fun _ s => s + square u0 i) s)
    (fun pre s => Summed (∃ i ∈ pre, 0 < occurrences image i ∧ (i : Int) ≠ u0) s) hstart (by
      intro pre i post s hl hs
      have hi : i ∈ List.range' lo (hi + 1 - lo) := by simp [hl]
      rw [List.mem_range'_1] at hi
      rw [forLoop_const, getHistogram_getD, Int.toNat_natCast]
      refine (hinner (occurrences image i) _ s i (by omega) hs).congr ?_
      simp [or_and_right, exists_or])
  refine hscan.congr ?_
  constructor
  · rintro ⟨i, hi, hocc, hne⟩
    obtain ⟨p, hp, rfl⟩ := occurrences_pos.1 hocc
    rw [List.mem_range'_1] at hi
    exact ⟨p, hp, by omega, hne⟩
  · rintro ⟨p, hp, ⟨hlo, hhi⟩, hne⟩
    exact ⟨lightness image p, List.mem_range'_1.2 (by omega), occurrences_pos.2 ⟨p, hp, rfl⟩, hne⟩

/-! ## The variances -/

/-- `OW2`. -/
def withinClass (histogram : List Int) (u0 : Int) (a b t : Nat) : Float.Model :=
  let n1 := (sumUp histogram a t).2
  let n2 := (sumUp histogram t b).2
  (Float.Model.ofInt n1 * (scatter histogram u0 a t / Float.Model.ofInt n1) +
    Float.Model.ofInt n2 * (scatter histogram u0 t b / Float.Model.ofInt n2)) / Float.Model.ofInt (n1 + n2)

/-- `OB2`. -/
def betweenClass (histogram : List Int) (u0 : Int) (a b t : Nat) : Float.Model :=
  let (sum1, n1) := sumUp histogram a t
  let (sum2, n2) := sumUp histogram t b
  let u1 := Float.Model.ofInt (sum1.tdiv n1) - Float.Model.ofInt u0
  let u2 := Float.Model.ofInt (sum2.tdiv n2) - Float.Model.ofInt u0
  (Float.Model.ofInt n1 * (u1 * u1) + Float.Model.ofInt n2 * (u2 * u2)) / Float.Model.ofInt (n1 + n2)

theorem ratio_eq (histogram : List Int) (u0 : Int) (a b t : Nat) :
    ratio histogram u0 a b t = betweenClass histogram u0 a b t / withinClass histogram u0 a b t := rfl

section Variances

open Binary64

variable {n1 n2 k l h : Nat} {x1 x2 : Float.Model} {z1 z2 : ℚ}

/-- The number of pixels of both classes. -/
theorem size_add (hn1 : n1 ≤ 2 ^ 62) (hn2 : n2 ≤ 2 ^ 62) : Size 0 63 ((n1 : ℚ) + n2) :=
  Size.add (size_nat hn1) (size_nat hn2)

/-- The mean of both classes. -/
theorem approx_mean (hn1 : 0 < n1) (hn1' : n1 ≤ 2 ^ 62) (hn2' : n2 ≤ 2 ^ 62) (h1 : Approx x1 k z1) (h2 : Approx x2 k z2)
    (hs1 : Size l h z1) (hs2 : Size l h z2) (hl : l ≤ 100) (hh : h ≤ 190) (hk : k ≤ 90) :
    Approx ((x1 + x2) / Float.Model.ofInt ((n1 : Int) + n2)) (k + 3) ((z1 + z2) / (n1 + n2)) := by
  have hsum := approx_add h1 h2 (hs1.add hs2) (by omega) (by omega) (by omega)
  have hn : Approx (Float.Model.ofInt ((n1 : Int) + n2)) 1 ((n1 : ℚ) + n2) := by
    have h := approx_ofInt (n := (n1 : Int) + n2) (by positivity) (by norm_num; omega)
    push_cast at h
    exact h
  have hpos : (0 : ℚ) < (n1 : ℚ) + n2 := by
    have : (0 : ℚ) < n1 := by exact_mod_cast hn1
    positivity
  have hquot := approx_div hsum hn hpos ((hs1.add hs2).div (size_add hn1' hn2') hpos) (by omega) (by omega) (by omega)
  exact hquot

/-- The share of one class in the variance within the classes: division and multiplication cancel, but for rounding. -/
theorem approx_share (hn1 : 0 < n1) (hn1' : n1 ≤ 2 ^ 62) (h1 : Approx x1 0 z1) (hs1 : Size 0 117 z1) :
    Approx (Float.Model.ofInt n1 * (x1 / Float.Model.ofInt n1)) 4 z1 := by
  have hn : Approx (Float.Model.ofInt n1) 1 n1 := by
    have h := approx_ofInt (n := (n1 : Int)) (by positivity) (by norm_num; omega)
    push_cast at h
    exact h
  have hpos : (0 : ℚ) < n1 := by exact_mod_cast hn1
  have hquot := approx_div h1 hn hpos (hs1.div (size_nat hn1') hpos) (by norm_num) (by norm_num) (by norm_num)
  have hcancel : (n1 : ℚ) * (z1 / n1) = z1 := by field_simp
  have hprod := approx_mul hn hquot (hcancel ▸ hs1) (by norm_num) (by norm_num) (by norm_num)
  rwa [hcancel] at hprod

/-- The share of one class in the variance between the classes. -/
theorem approx_distance {d : Int} (hn1' : n1 ≤ 2 ^ 62) (h1 : Has x1 d) (hd : |d| ≤ 2 ^ 32) :
    Approx (Float.Model.ofInt n1 * (x1 * x1)) 3 (n1 * (d * d)) ∧ Size 0 126 ((n1 : ℚ) * (d * d)) := by
  have hn : Approx (Float.Model.ofInt n1) 1 n1 := by
    have h := approx_ofInt (n := (n1 : Int)) (by positivity) (by norm_num; omega)
    push_cast at h
    exact h
  have hsize : Size 0 64 ((d : ℚ) * d) := by
    have hsq : (d : ℚ) * d = (d.natAbs * d.natAbs : Nat) := by
      rw [Nat.cast_mul, Nat.cast_natAbs, ← Int.cast_mul, ← Int.cast_mul, abs_mul_abs_self]
    rw [hsq]
    refine size_nat ?_
    have hd' := abs_le.1 hd
    have hle : d.natAbs ≤ 2 ^ 32 := by omega
    calc d.natAbs * d.natAbs ≤ 2 ^ 32 * 2 ^ 32 := Nat.mul_le_mul hle hle
      _ = 2 ^ 64 := by norm_num
  obtain ⟨w, hw, hround⟩ := has_mul h1 h1 (inRange_of_within (.refl hsize.nonneg) (by norm_num) hsize (by norm_num)
    (by norm_num))
  have hsquare : Approx (x1 * x1) 1 ((d : ℚ) * d) := ⟨w, hw, within_of_rounds hround hsize.nonneg⟩
  have hprod : Size (0 + 0) (62 + 64) ((n1 : ℚ) * (d * d)) := Size.mul (size_nat hn1') hsize
  exact ⟨approx_mul hn hsquare hprod (by norm_num) (by norm_num) (by norm_num), hprod⟩

end Variances

/-! ## The mean -/

/-- `u0`: the mean, computed in `int`. -/
def mean (image : BiImage) : Int := (CInt.wrap (total image 0 255)).tdiv (image.width * image.height)

theorem abs_wrap_tdiv_le (x y : Int) : |(CInt.wrap x).tdiv y| ≤ 2 ^ 31 := by
  obtain ⟨hlo, hhi⟩ := CInt.fits_wrap x
  rw [Int.abs_eq_natAbs, Int.natAbs_tdiv]
  have hle : (CInt.wrap x).natAbs.div y.natAbs ≤ (CInt.wrap x).natAbs := Nat.div_le_self _ _
  omega

theorem total_nonneg (image : BiImage) (lo hi : Nat) : 0 ≤ total image lo hi := by
  apply List.sum_nonneg
  simp only [List.mem_map, forall_exists_index, and_imp, forall_apply_eq_imp_iff₂]
  exact fun p _ => Int.natCast_nonneg _

/-- An image of one lightness. -/
theorem total_uniform {v : Nat} (h : ∀ p, image.Inside p → lightness image p = v) :
    total image 0 255 = (image.width * image.height : Nat) * v := by
  have hall : between image 0 (255 + 1) = grid image := List.filter_eq_self.2 fun p _ => by
    rw [decide_eq_true_iff]
    exact ⟨Nat.zero_le _, lightness_lt image p⟩
  have hmap : (grid image).map (fun p => (lightness image p : Int)) = (grid image).map fun _ => (v : Int) :=
    List.map_congr_left fun p hp => by rw [h p (mem_grid.1 hp)]
  rw [total, hall, hmap, List.map_const', List.sum_replicate, length_grid, nsmul_eq_mul]

/-- **Where the mean is a lightness that all pixels have**: if they all have one, and their sum fits into an `int`. -/
theorem differs_iff (hpixels : 0 < image.width * image.height) :
    (∃ p, image.Inside p ∧ (lightness image p : Int) ≠ mean image) ↔
      (∃ p q, image.Inside p ∧ image.Inside q ∧ lightness image p ≠ lightness image q) ∨
        2 ^ 31 ≤ total image 0 255 := by
  obtain ⟨p₀, hp₀⟩ : ∃ p, image.Inside p :=
    ⟨(0, 0), Nat.pos_of_mul_pos_right hpixels, Nat.pos_of_mul_pos_left hpixels⟩
  by_cases hdistinct : ∃ p q, image.Inside p ∧ image.Inside q ∧ lightness image p ≠ lightness image q
  · refine iff_of_true ?_ (.inl hdistinct)
    obtain ⟨p, q, hp, hq, hne⟩ := hdistinct
    by_cases h : (lightness image p : Int) = mean image
    · exact ⟨q, hq, by omega⟩
    · exact ⟨p, hp, h⟩
  · have hall : ∀ p, image.Inside p → lightness image p = lightness image p₀ := fun p hp => by
      by_contra hne
      exact hdistinct ⟨p, p₀, hp, hp₀, hne⟩
    have hN : (0 : Int) < (image.width * image.height : Nat) := by exact_mod_cast hpixels
    have htotal := total_uniform hall
    have hpos := total_nonneg image 0 255
    simp only [hdistinct, false_or]
    rw [mean, ← Nat.cast_mul]
    generalize ((image.width * image.height : Nat) : Int) = N at hN htotal
    generalize total image 0 255 = T at htotal hpos
    constructor
    · rintro ⟨p, hp, hne⟩
      rw [hall p hp] at hne
      by_contra hlt
      rw [CInt.wrap_of_nonneg hpos (not_le.1 hlt), htotal, Int.mul_tdiv_cancel_left _ hN.ne'] at hne
      exact hne rfl
    · intro hge
      refine ⟨p₀, hp₀, fun heq => ?_⟩
      -- a sum that wraps is smaller
      have hlt := (CInt.fits_wrap T).2
      rcases le_or_gt 0 (CInt.wrap T) with h0 | h0
      · have hle := Int.mul_tdiv_self_le (k := N) h0
        rw [← heq, ← htotal] at hle
        omega
      · have hle := Int.tdiv_nonneg (show 0 ≤ -CInt.wrap T by omega) hN.le
        rw [Int.neg_tdiv] at hle
        have hzero : (lightness image p₀ : Int) = 0 := by omega
        rw [hzero, mul_zero] at htotal
        omega

/-! ## The values at one threshold -/

section Values

open Binary64

variable {a b t : Nat} {u0 : Int}

theorem size_two_pow (image : BiImage) (lo hi : Nat) : size image lo hi ≤ 2 ^ 62 := by
  have hw := image.width_lt
  have hh := image.height_lt
  have hle := size_le image lo hi
  have hprod : image.width * image.height ≤ 2 ^ 31 * 2 ^ 31 := Nat.mul_le_mul hw.le hh.le
  omega

/-- Both classes have pixels, whatever the threshold. -/
theorem Range.sizes (h : Range image a b) (hat : a ≤ t) (htb : t ≤ b) : 0 < size image a t ∧ 0 < size image t b := by
  obtain ⟨p, hp, hpa⟩ := h.low
  obtain ⟨q, hq, hqb⟩ := h.high
  exact ⟨size_pos hp (by omega) (by omega), size_pos hq (by omega) (by omega)⟩

/-- The differences of the means of the classes from `u0`. -/
def meanDiff (image : BiImage) (u0 : Int) (lo hi : Nat) : Int :=
  (CInt.wrap (total image lo hi)).tdiv (size image lo hi) - u0

theorem has_meanDiff (image : BiImage) (hu : |u0| ≤ 2 ^ 31) (lo hi : Nat) :
    Has (Float.Model.ofInt ((CInt.wrap (total image lo hi)).tdiv (size image lo hi)) - Float.Model.ofInt u0)
      (meanDiff image u0 lo hi) ∧ |meanDiff image u0 lo hi| ≤ 2 ^ 32 := by
  have hle := abs_le.1 (abs_wrap_tdiv_le (total image lo hi) (size image lo hi))
  have hu' := abs_le.1 hu
  refine ⟨has_sub_int (has_int ?_) (has_int ?_) ?_, ?_⟩
  all_goals
    simp only [meanDiff, abs_le]
    omega

/-- The numerator of the variance between the classes. -/
def distance (image : BiImage) (u0 : Int) (lo hi : Nat) : ℚ :=
  size image lo hi * ((meanDiff image u0 lo hi : ℚ) * meanDiff image u0 lo hi)

theorem distance_nonneg (image : BiImage) (u0 : Int) (lo hi : Nat) : 0 ≤ distance image u0 lo hi :=
  mul_nonneg (Nat.cast_nonneg _) (mul_self_nonneg _)

theorem approx_betweenClass (hrange : Range image a b) (hat : a ≤ t) (htb : t ≤ b) (hu : |u0| ≤ 2 ^ 31) :
    Approx (betweenClass (getHistogram image) u0 a b t) 6
      ((distance image u0 a t + distance image u0 t b) / (size image a t + size image t b)) := by
  obtain ⟨hd1, hle1⟩ := has_meanDiff image hu a t
  obtain ⟨hd2, hle2⟩ := has_meanDiff image hu t b
  obtain ⟨h1, hs1⟩ := approx_distance (size_two_pow image a t) hd1 hle1
  obtain ⟨h2, hs2⟩ := approx_distance (size_two_pow image t b) hd2 hle2
  have hmean := approx_mean (hrange.sizes hat htb).1 (size_two_pow image a t) (size_two_pow image t b) h1 h2 hs1 hs2
    (by norm_num) (by norm_num) (by norm_num)
  simp only [betweenClass, sumUp_eq]
  exact hmean

/-- What the loops over a class add up, as a number. -/
theorem exists_scatter (image : BiImage) (hu : |u0| ≤ 2 ^ 31) (lo : Nat) (hhi : hi < 256) :
    ∃ v, Has (scatter (getHistogram image) u0 lo hi) v ∧ Size 0 117 v ∧ (Differs image u0 lo hi → 0 < v) ∧
      (¬Differs image u0 lo hi → v = 0) := by
  obtain ⟨v, hv, hle, h1, h0⟩ := summed_scatter image hu lo hhi
  refine ⟨v, hv, ?_, fun h => by linarith [h1 h], h0⟩
  by_cases h : Differs image u0 lo hi
  · exact .inr ⟨by linarith [h1 h], hle⟩
  · exact .inl (h0 h)

/-- A pixel that differs from `u0` is in one of the classes. -/
theorem exists_scatters (hrange : Range image a b) (htb : t ≤ b) (hu : |u0| ≤ 2 ^ 31) {p : Nat × Nat}
    (hp : image.Inside p) (hne : (lightness image p : Int) ≠ u0) :
    ∃ s1 s2 : ℚ, Has (scatter (getHistogram image) u0 a t) s1 ∧ Has (scatter (getHistogram image) u0 t b) s2 ∧
      Size 0 117 s1 ∧ Size 0 117 s2 ∧ 0 < s1 + s2 := by
  obtain ⟨hab, hb⟩ := hrange.le_high
  obtain ⟨s1, h1, hs1, hp1, -⟩ := exists_scatter image hu a (show t < 256 by omega)
  obtain ⟨s2, h2, hs2, hp2, -⟩ := exists_scatter image hu t hb
  refine ⟨s1, s2, h1, h2, hs1, hs2, ?_⟩
  rcases le_total (lightness image p) t with hle | hle
  · have := hp1 ⟨p, hp, ⟨hrange.le p hp, hle⟩, hne⟩
    linarith [hs2.nonneg]
  · have := hp2 ⟨p, hp, ⟨hle, hrange.ge p hp⟩, hne⟩
    linarith [hs1.nonneg]

theorem approx_withinClass {s1 s2 : ℚ} (hrange : Range image a b) (hat : a ≤ t) (htb : t ≤ b)
    (h1 : Has (scatter (getHistogram image) u0 a t) s1) (h2 : Has (scatter (getHistogram image) u0 t b) s2)
    (hs1 : Size 0 117 s1) (hs2 : Size 0 117 s2) :
    Approx (withinClass (getHistogram image) u0 a b t) 7 ((s1 + s2) / (size image a t + size image t b)) := by
  obtain ⟨hn1, hn2⟩ := hrange.sizes hat htb
  have hshare1 := approx_share hn1 (size_two_pow image a t) (approx_of_has h1 hs1.nonneg) hs1
  have hshare2 := approx_share hn2 (size_two_pow image t b) (approx_of_has h2 hs2.nonneg) hs2
  have hmean := approx_mean hn1 (size_two_pow image a t) (size_two_pow image t b) hshare1 hshare2 hs1 hs2
    (by norm_num) (by norm_num) (by norm_num)
  simp only [withinClass, sumUp_eq]
  exact hmean

/-- **The ratio** at one threshold, where some pixel differs from the mean. -/
theorem approx_ratio {s1 s2 : ℚ} (hrange : Range image a b) (hat : a ≤ t) (htb : t ≤ b) (hu : |u0| ≤ 2 ^ 31)
    (h1 : Has (scatter (getHistogram image) u0 a t) s1) (h2 : Has (scatter (getHistogram image) u0 t b) s2)
    (hs1 : Size 0 117 s1) (hs2 : Size 0 117 s2) (hpos : 0 < s1 + s2) :
    Approx (ratio (getHistogram image) u0 a b t) 14
      ((distance image u0 a t + distance image u0 t b) / (s1 + s2)) := by
  obtain ⟨hd1, hle1⟩ := has_meanDiff image hu a t
  obtain ⟨hd2, hle2⟩ := has_meanDiff image hu t b
  obtain ⟨-, hsize1⟩ := approx_distance (size_two_pow image a t) hd1 hle1
  obtain ⟨-, hsize2⟩ := approx_distance (size_two_pow image t b) hd2 hle2
  have hn : (0 : ℚ) < size image a t + size image t b := by
    have : (0 : ℚ) < size image a t := by exact_mod_cast (hrange.sizes hat htb).1
    positivity
  have hcancel : (distance image u0 a t + distance image u0 t b) / (size image a t + size image t b) /
      ((s1 + s2) / (size image a t + size image t b)) =
        (distance image u0 a t + distance image u0 t b) / (s1 + s2) := div_div_div_cancel_right₀ hn.ne' _ _
  have hsize := (hsize1.add hsize2).div (hs1.add hs2) hpos
  have hquot := approx_div (approx_betweenClass hrange hat htb hu) (approx_withinClass hrange hat htb h1 h2 hs1 hs2)
    (div_pos hpos hn) (hcancel ▸ hsize) (by norm_num) (by norm_num) (by norm_num)
  rw [hcancel] at hquot
  rw [ratio_eq]
  exact hquot

end Values

/-! ## The scan over the thresholds -/

variable {a b : Nat}

/-- The body of the loop over `t`. -/
def better (image : BiImage) (u0 : Int) (a b t : Nat) (s : Float.Model × Int) : Float.Model × Int :=
  if s.1 < ratio (getHistogram image) u0 a b t then (ratio (getHistogram image) u0 a b t, t) else s

theorem getThreshold_eq (hpixels : 0 < image.width * image.height) : ∃ a b, Range image a b ∧
    getThreshold image = some (forLoop a (b + 1) (better image (mean image) a b) (Float.Model.ofInt (-1), 0)).2 := by
  obtain ⟨a, b, hrange, ha, hb⟩ := exists_range hpixels
  refine ⟨a, b, hrange, ?_⟩
  rw [getThreshold, if_neg hpixels.ne', ha, hb, sumUp_eq]
  rfl

theorem Range.unique {a b a' b' : Nat} (h : Range image a b) (h' : Range image a' b') : a = a' ∧ b = b' := by
  obtain ⟨p, hp, rfl⟩ := h.low
  obtain ⟨q, hq, rfl⟩ := h.high
  obtain ⟨p', hp', rfl⟩ := h'.low
  obtain ⟨q', hq', rfl⟩ := h'.high
  exact ⟨le_antisymm (h.le p' hp') (h'.le p hp), le_antisymm (h'.ge q hq) (h.ge q' hq')⟩

/-- **The scan** ends at a threshold whose ratio is the largest, if all ratios are numbers that are not below zero. -/
theorem scan_spec {u0 : Int} {r : Nat → ℚ} (hab : a ≤ b)
    (hr : ∀ t, a ≤ t → t ≤ b → Binary64.Has (ratio (getHistogram image) u0 a b t) (r t) ∧ 0 ≤ r t) :
    ∃ t, (a ≤ t ∧ t ≤ b) ∧ (∀ t', a ≤ t' → t' ≤ b → r t' ≤ r t) ∧
      (forLoop a (b + 1) (better image u0 a b) (Float.Model.ofInt (-1), 0)).2 = (t : Int) := by
  have hminus : Binary64.Has (Float.Model.ofInt (-1)) (-1) := by
    exact_mod_cast Binary64.has_int (n := -1) (by norm_num)
  have hscan := foldl_scan (f := fun s t => better image u0 a b t s) (l := List.range' a (b + 1 - a))
    (s := (Float.Model.ofInt (-1), 0))
    (fun pre s => (pre = [] ∧ s.1 = Float.Model.ofInt (-1)) ∨
      ∃ t ∈ pre, s = (ratio (getHistogram image) u0 a b t, (t : Int)) ∧ ∀ t' ∈ pre, r t' ≤ r t) (.inl ⟨rfl, rfl⟩) (by
      intro pre t post s hl hs
      have hmem : ∀ t' ∈ pre ++ [t], a ≤ t' ∧ t' ≤ b := fun t' ht' => by
        have h : t' ∈ List.range' a (b + 1 - a) := by
          rw [hl]
          rcases List.mem_append.1 ht' with h | h
          · simp [h]
          · simp [List.mem_singleton.1 h]
        rw [List.mem_range'_1] at h
        omega
      obtain ⟨hrt, h0⟩ := hr t (hmem t (by simp)).1 (hmem t (by simp)).2
      rcases hs with ⟨rfl, hs⟩ | ⟨t₀, ht₀, rfl, hmax⟩
      · have hlt := (Binary64.has_lt hminus hrt).2 (by linarith)
        refine .inr ⟨t, by simp, ?_, by simp⟩
        rw [better, if_pos (hs ▸ hlt)]
      · obtain ⟨hrt₀, -⟩ := hr t₀ (hmem t₀ (by simp [ht₀])).1 (hmem t₀ (by simp [ht₀])).2
        by_cases hlt : ratio (getHistogram image) u0 a b t₀ < ratio (getHistogram image) u0 a b t
        · have hlt' := (Binary64.has_lt hrt₀ hrt).1 hlt
          refine .inr ⟨t, by simp, by rw [better, if_pos hlt], fun t' ht' => ?_⟩
          rcases List.mem_append.1 ht' with h | h
          · exact (hmax t' h).trans hlt'.le
          · rw [List.mem_singleton.1 h]
        · have hle := not_lt.1 fun h => hlt ((Binary64.has_lt hrt₀ hrt).2 h)
          refine .inr ⟨t₀, by simp [ht₀], by rw [better, if_neg hlt], fun t' ht' => ?_⟩
          rcases List.mem_append.1 ht' with h | h
          · exact hmax t' h
          · rwa [List.mem_singleton.1 h])
  rcases hscan with ⟨hempty, -⟩ | ⟨t, ht, hs, hmax⟩
  · have := congrArg List.length hempty
    rw [List.length_range', List.length_nil] at this
    omega
  · rw [List.mem_range'_1] at ht
    refine ⟨t, by omega, fun t' hat' htb' => hmax t' (List.mem_range'_1.2 (by omega)), ?_⟩
    rw [forLoop, hs]

/-- **The divisors** at the threshold `t`: the numbers of pixels, and the variance within the classes. -/
structure Divisors (image : BiImage) (u0 : Int) (a b t : Nat) : Prop where
  n1 : (sumUp (getHistogram image) a t).2 ≠ 0
  n2 : (sumUp (getHistogram image) t b).2 ≠ 0
  n : (sumUp (getHistogram image) a t).2 + (sumUp (getHistogram image) t b).2 ≠ 0
  within : ¬Binary64.Has (withinClass (getHistogram image) u0 a b t) 0

/-- The threshold is defined, and in range. -/
def ThresholdDefined (image : BiImage) : Prop :=
  ∀ a b, Range image a b → (∀ t, a ≤ t → t ≤ b → Divisors image (mean image) a b t) ∧
    ∃ t : Nat, getThreshold image = some (t : Int) ∧ a ≤ t ∧ t ≤ b

/-- **When the threshold is defined**: if there are pixels of different lightness, or so much light that the sum
wraps. -/
theorem threshold_iff (hw : 1 ≤ image.width) (hh : 1 ≤ image.height) :
    ThresholdDefined image ↔
      (∃ p q, image.Inside p ∧ image.Inside q ∧ lightness image p ≠ lightness image q) ∨
        2 ^ 31 ≤ total image 0 255 := by
  have hpixels : 0 < image.width * image.height := Nat.mul_pos hw hh
  obtain ⟨a, b, hrange, hscan⟩ := getThreshold_eq hpixels
  obtain ⟨hab, hb⟩ := hrange.le_high
  have hu : |mean image| ≤ 2 ^ 31 := abs_wrap_tdiv_le _ _
  rw [← differs_iff hpixels]
  constructor
  · intro hdefined
    by_contra hall
    have hnone : ∀ lo hi, ¬Differs image (mean image) lo hi := fun lo hi h => by
      obtain ⟨p, hp, -, hne⟩ := h
      exact hall ⟨p, hp, hne⟩
    obtain ⟨s1, h1, hs1, -, hz1⟩ := exists_scatter image hu a (show a < 256 by omega)
    obtain ⟨s2, h2, hs2, -, hz2⟩ := exists_scatter image hu a hb
    obtain ⟨v, hv, hw⟩ := approx_withinClass hrange le_rfl hab h1 h2 hs1 hs2
    rw [hz1 (hnone _ _), hz2 (hnone _ _), add_zero, zero_div] at hw
    have hzero : v = 0 := le_antisymm (by simpa using hw.ge) hw.nonneg'
    exact ((hdefined a b hrange).1 a le_rfl hab).within (hzero ▸ hv)
  · rintro ⟨p, hp, hne⟩ a' b' hrange'
    obtain ⟨rfl, rfl⟩ := hrange.unique hrange'
    refine ⟨fun t hat htb => ?_, ?_⟩
    · obtain ⟨s1, s2, h1, h2, hs1, hs2, hpos⟩ := exists_scatters hrange htb hu hp hne
      obtain ⟨hn1, hn2⟩ := hrange.sizes hat htb
      refine ⟨?_, ?_, ?_, fun hzero => ?_⟩
      · simp only [sumUp_eq]
        exact_mod_cast hn1.ne'
      · simp only [sumUp_eq]
        exact_mod_cast hn2.ne'
      · simp only [sumUp_eq]
        exact_mod_cast (by omega : size image a t + size image t b ≠ 0)
      · obtain ⟨v, hv, hw⟩ := approx_withinClass hrange hat htb h1 h2 hs1 hs2
        have hn : (0 : ℚ) < size image a t + size image t b := by
          have : (0 : ℚ) < size image a t := by exact_mod_cast hn1
          positivity
        have := hw.pos (div_pos hpos hn)
        rw [Binary64.has_unique hv hzero] at this
        exact lt_irrefl 0 this
    · have hratio : ∀ t, ∃ r, a ≤ t → t ≤ b → Binary64.Has (ratio (getHistogram image) (mean image) a b t) r ∧ 0 ≤ r :=
        fun t => by
          by_cases ht : a ≤ t ∧ t ≤ b
          · obtain ⟨s1, s2, h1, h2, hs1, hs2, hpos⟩ := exists_scatters hrange ht.2 hu hp hne
            obtain ⟨r, hr, hw⟩ := approx_ratio hrange ht.1 ht.2 hu h1 h2 hs1 hs2 hpos
            exact ⟨r, fun _ _ => ⟨hr, hw.nonneg'⟩⟩
          · exact ⟨0, fun hat htb => absurd ⟨hat, htb⟩ ht⟩
      choose r hr using hratio
      obtain ⟨t, ⟨hat, htb⟩, -, ht⟩ := scan_spec hab hr
      exact ⟨t, by rw [hscan, ht], hat, htb⟩

/-- Two pixels, dark and bright. -/
def darkAndBright : BiImage := ofFn 2 1 two_fits one_fits fun x _ => if x = 0 then Pixel.gray 0 else Pixel.gray 1

theorem thresholdDefined_darkAndBright : ThresholdDefined darkAndBright :=
  (threshold_iff (show 1 ≤ darkAndBright.width by decide) (by decide)).2
    (.inl ⟨(0, 0), (1, 0), by decide, by decide, by decide +kernel⟩)

/-- One pixel. -/
def dimPixel : BiImage := ofFn 1 1 one_fits one_fits fun _ _ => Pixel.gray 7

/-- The threshold found is 0, out of range. -/
theorem not_thresholdDefined_dimPixel : ¬ThresholdDefined dimPixel := by
  intro hdefined
  have hlight : ∀ p, dimPixel.Inside p → lightness dimPixel p = 7 := fun p hp => lightness_ofFn hp rfl
  have hin : dimPixel.Inside (0, 0) := by decide
  have hrange : Range dimPixel 7 7 :=
    ⟨⟨_, hin, hlight _ hin⟩, ⟨_, hin, hlight _ hin⟩, fun p hp => (hlight p hp).ge, fun p hp => (hlight p hp).le⟩
  have hcode : getThreshold dimPixel = some 0 := by decide +kernel
  obtain ⟨-, t, ht, hge, -⟩ := hdefined 7 7 hrange
  rw [hcode] at ht
  have := Option.some.inj ht
  omega

end LeftFelt.ImageUtil
