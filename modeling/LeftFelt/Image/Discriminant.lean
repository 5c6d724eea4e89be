import LeftFelt.Image.Threshold
import LeftFelt.Lib.Variance

/-!
# The discriminant criterion

What `getThreshold` maximises, without its rounding (`getThreshold_spec`): the sums of squares are exact as long as the
sum of the lightness fits into an `int` (`has_scatter`), but the pixels at the threshold count for both classes, and the
means are integers.

A threshold is best if no other has a larger ratio of the exact variances of the classes that `Binarize` forms
(`Optimal`), that is, less variance within them (`Optimal.within_le`). With two levels of lightness the threshold found
is best (`optimalThreshold_of_two`).
-/

namespace LeftFelt.ImageUtil

open Lib BiImage Finset

variable {image : BiImage} {lo hi : Nat} {u0 : Int}

/-! ## The scatter, exactly -/

/-- The squares around `u0`, in sum. -/
def squares (image : BiImage) (u0 : Int) (lo hi : Nat) : Int :=
  ((between image lo (hi + 1)).map fun p => ((lightness image p : Int) - u0) * (lightness image p - u0)).sum

theorem squares_nonneg (image : BiImage) (u0 : Int) (lo hi : Nat) : 0 ≤ squares image u0 lo hi := by
  apply List.sum_nonneg
  simp only [List.mem_map, forall_exists_index, and_imp, forall_apply_eq_imp_iff₂]
  exact fun p _ => mul_self_nonneg _

/-- The squares that are added for `n` pixels. -/
theorem has_iterate_square {i : Nat} (hi : i < 256) (hu : |u0| ≤ 2 ^ 31) {s : Float.Model} {v : Int}
    (hs : Binary64.Has s v) (h0 : 0 ≤ v) {n : Nat} (hle : v + ((i : Int) - u0) * (i - u0) * n ≤ 2 ^ 52) :
    Binary64.Has ((fun s => s + square u0 i)^[n] s) (v + ((i : Int) - u0) * (i - u0) * n : Int) := by
  have hsq := mul_self_nonneg ((i : Int) - u0)
  have hd := has_difference hi hu
  generalize (i : Int) - u0 = d at hle hsq hd ⊢
  induction n with
  | zero => simpa using hs
  | succ n ih =>
    have hstep : v + d * d * (n + 1 : Nat) = v + d * d * n + d * d := by
      push_cast
      ring
    have hprev : 0 ≤ d * d * n := mul_nonneg hsq (Int.natCast_nonneg n)
    rw [hstep] at hle ⊢
    rw [Function.iterate_succ_apply']
    refine Binary64.has_add_int (ih (by omega)) (Binary64.has_mul_int hd hd ?_) ?_
    · rw [abs_of_nonneg hsq]
      omega
    · rw [abs_of_nonneg (by omega)]
      exact hle

/-- **The loops add up exactly**, if the sum is small enough. -/
theorem has_scatter (hu : |u0| ≤ 2 ^ 31) (hhi : hi < 256) (hle : squares image u0 lo hi ≤ 2 ^ 52) :
    Binary64.Has (scatter (getHistogram image) u0 lo hi) (squares image u0 lo hi) := by
  have hsum := sum_occurrences image (fun i => ((i : Int) - u0) * (i - u0)) lo (hi + 1)
  rw [← squares] at hsum
  rw [← hsum, sum_Ico_eq_sum_range] at hle ⊢
  simp only [scatter, forLoop_const, getHistogram_getD, Int.toNat_natCast]
  rw [forLoop]
  have hterm : ∀ j, 0 ≤ (((lo + j : Nat) : Int) - u0) * ((lo + j : Nat) - u0) * occurrences image (lo + j) := fun j =>
    mul_nonneg (mul_self_nonneg _) (Int.natCast_nonneg _)
  have hk : ∀ k, k ≤ hi + 1 - lo → k ≤ 256 - lo := by omega
  generalize hi + 1 - lo = k at hle hk
  have hk := hk k le_rfl
  induction k with
  | zero => exact_mod_cast Binary64.has_int (n := 0) (by norm_num)
  | succ k ih =>
    have hnonneg :
        0 ≤ ∑ j ∈ range k, (((lo + j : Nat) : Int) - u0) * ((lo + j : Nat) - u0) * occurrences image (lo + j) :=
      sum_nonneg fun j _ => hterm j
    have hlast := hterm k
    rw [sum_range_succ] at hle ⊢
    rw [List.range'_concat, List.foldl_append, one_mul, List.foldl_cons, List.foldl_nil]
    exact has_iterate_square (by omega) hu (ih (by omega) (by omega) (by omega)) hnonneg hle

/-- The sum of a class is bounded by its range. -/
theorem total_le_size_mul (image : BiImage) (lo hi : Nat) : total image lo hi ≤ size image lo hi * hi := by
  have hsum := List.sum_le_card_nsmul ((between image lo (hi + 1)).map fun p => (lightness image p : Int)) hi (by
    intro l hl
    obtain ⟨p, hp, rfl⟩ := List.mem_map.1 hl
    have hp' := of_decide_eq_true (List.mem_filter.1 hp).2
    exact_mod_cast Nat.le_of_lt_succ hp'.2)
  rwa [List.length_map, nsmul_eq_mul] at hsum

/-- All pixels. -/
theorem between_all (image : BiImage) : between image 0 256 = grid image := List.filter_eq_self.2 fun p _ => by
  rw [decide_eq_true_iff]
  exact ⟨Nat.zero_le _, lightness_lt image p⟩

theorem size_all (image : BiImage) : size image 0 255 = image.width * image.height := by
  rw [size, between_all, length_grid]

/-- A sum over a class is at most that over all pixels. -/
theorem total_le (image : BiImage) (lo hi : Nat) : total image lo hi ≤ total image 0 255 := by
  rw [total, total, between_all]
  refine (List.filter_sublist.map _).sum_le_sum ?_
  simp only [List.mem_map, forall_exists_index, and_imp, forall_apply_eq_imp_iff₂]
  exact fun p _ => Int.natCast_nonneg _

/-- **The mean**, where the sum fits into an `int`. -/
theorem mean_spec (hpixels : 0 < image.width * image.height) (hfit : total image 0 255 < 2 ^ 31) :
    0 ≤ mean image ∧ (image.width * image.height : Nat) * mean image ≤ total image 0 255 ∧
      total image 0 255 < (image.width * image.height : Nat) * mean image + (image.width * image.height : Nat) := by
  have hnonneg := total_nonneg image 0 255
  rw [mean, CInt.wrap_of_nonneg hnonneg hfit, Int.tdiv_eq_ediv_of_nonneg hnonneg]
  have hN : (0 : Int) < (image.width * image.height : Nat) := by exact_mod_cast hpixels
  push_cast at hN ⊢
  refine ⟨Int.ediv_nonneg hnonneg hN.le, Int.mul_ediv_self_le hN.ne', ?_⟩
  exact Int.lt_mul_ediv_self_add hN

theorem squares_le (hpixels : 0 < image.width * image.height) (hfit : total image 0 255 < 2 ^ 31) (lo hi : Nat) :
    squares image (mean image) lo hi ≤ 2 ^ 52 := by
  obtain ⟨h0, hle, hlt⟩ := mean_spec hpixels hfit
  have htotal := total_le image lo hi
  have hsize := size_le image lo hi
  have hN : (0 : Int) < (image.width * image.height : Nat) := by exact_mod_cast hpixels
  have hmean : mean image ≤ 255 := by
    have hall := total_le_size_mul image 0 255
    rw [size_all] at hall
    exact le_of_mul_le_mul_left (hle.trans hall) hN
  generalize mean image = u at h0 hle hlt hmean
  have hterm : ∀ p, ((lightness image p : Int) - u) * (lightness image p - u) ≤ 255 * (lightness image p + u) := by
    intro p
    have hp := lightness_lt image p
    rcases le_total (lightness image p : Int) u with h | h
    · nlinarith
    · nlinarith
  have hsum : squares image u lo hi ≤ 255 * (total image lo hi + size image lo hi * u) := by
    rw [squares]
    refine (List.sum_le_sum fun p _ => hterm p).trans_eq ?_
    rw [List.sum_map_mul_left, List.sum_map_add, List.map_const', List.sum_replicate, nsmul_eq_mul]
    rfl
  have hclass : (size image lo hi : Int) * u ≤ (image.width * image.height : Nat) * u := by
    gcongr
  linarith

/-! ## What the code maximises -/

variable {a b t : Nat}

/-- `OB2/OW2`, but for rounding. The threshold is in both classes, and the means are integers. -/
def criterion (image : BiImage) (a b t : Nat) : ℚ :=
  (distance image (mean image) a t + distance image (mean image) t b) /
    ((squares image (mean image) a t : ℚ) + squares image (mean image) t b)

theorem criterion_nonneg (image : BiImage) (a b t : Nat) : 0 ≤ criterion image a b t := by
  have h1 : (0 : ℚ) ≤ squares image (mean image) a t := by exact_mod_cast squares_nonneg image (mean image) a t
  have h2 : (0 : ℚ) ≤ squares image (mean image) t b := by exact_mod_cast squares_nonneg image (mean image) t b
  exact div_nonneg (add_nonneg (distance_nonneg _ _ _ _) (distance_nonneg _ _ _ _)) (add_nonneg h1 h2)

theorem exists_ratio (hpixels : 0 < image.width * image.height) (hfit : total image 0 255 < 2 ^ 31)
    (hrange : Range image a b) (hat : a ≤ t) (htb : t ≤ b) {p : Nat × Nat} (hp : image.Inside p)
    (hne : (lightness image p : Int) ≠ mean image) :
    Binary64.Approx (ratio (getHistogram image) (mean image) a b t) 14 (criterion image a b t) := by
  have hu : |mean image| ≤ 2 ^ 31 := abs_wrap_tdiv_le _ _
  obtain ⟨hab, hb⟩ := hrange.le_high
  obtain ⟨s1, s2, h1, h2, hs1, hs2, hpos⟩ := exists_scatters hrange htb hu hp hne
  obtain rfl := Binary64.has_unique h1 (has_scatter hu (by omega) (squares_le hpixels hfit a t))
  obtain rfl := Binary64.has_unique h2 (has_scatter hu hb (squares_le hpixels hfit t b))
  exact approx_ratio hrange hat htb hu h1 h2 hs1 hs2 hpos

/-- **The threshold found** has the largest criterion, but for rounding. -/
theorem getThreshold_spec (hpixels : 0 < image.width * image.height) (hfit : total image 0 255 < 2 ^ 31)
    (hrange : Range image a b) {p : Nat × Nat} (hp : image.Inside p) (hne : (lightness image p : Int) ≠ mean image) :
    ∃ t : Nat, getThreshold image = some (t : Int) ∧ (a ≤ t ∧ t ≤ b) ∧
      ∀ t', a ≤ t' → t' ≤ b → criterion image a b t' ≤ 11 / 10 * criterion image a b t := by
  obtain ⟨a', b', hrange', hscan⟩ := getThreshold_eq hpixels
  obtain ⟨rfl, rfl⟩ := hrange.unique hrange'
  obtain ⟨hab, hb⟩ := hrange.le_high
  have hratio : ∀ t, ∃ r, a ≤ t → t ≤ b → Binary64.Has (ratio (getHistogram image) (mean image) a b t) r ∧
      Binary64.Within 14 (criterion image a b t) r := fun t => by
    by_cases ht : a ≤ t ∧ t ≤ b
    · obtain ⟨r, hr, hw⟩ := exists_ratio hpixels hfit hrange ht.1 ht.2 hp hne
      exact ⟨r, fun _ _ => ⟨hr, hw⟩⟩
    · exact ⟨0, fun hat htb => absurd ⟨hat, htb⟩ ht⟩
  choose r hr using hratio
  obtain ⟨t, ⟨hat, htb⟩, hmax, ht⟩ := scan_spec hab fun t hat htb => ⟨(hr t hat htb).1, (hr t hat htb).2.nonneg'⟩
  refine ⟨t, by rw [hscan, ht], ⟨hat, htb⟩, fun t' hat' htb' => ?_⟩
  have hslack := Binary64.slack_pow_le (k := 28) (by norm_num)
  calc criterion image a b t' ≤ Binary64.slack ^ 14 * r t' := (hr t' hat' htb').2.le
    _ ≤ Binary64.slack ^ 14 * r t := by gcongr; exact hmax t' hat' htb'
    _ ≤ Binary64.slack ^ 14 * (Binary64.slack ^ 14 * criterion image a b t) := by gcongr; exact (hr t hat htb).2.ge
    _ = Binary64.slack ^ 28 * criterion image a b t := by ring
    _ ≤ 11 / 10 * criterion image a b t := by gcongr; exact criterion_nonneg image a b t

/-! ## What is best -/

/-- The lightness of the pixels of a range. -/
def lights (image : BiImage) (lo hi : Nat) : List ℚ := (between image lo hi).map fun p => (lightness image p : ℚ)

/-- The exact variance within the classes that `Binarize` forms, of the pixels below `t` and of the others. -/
def withinVariance (image : BiImage) (t : Nat) : ℚ := Variance.within (lights image 0 t) (lights image t 256)

/-- The exact variance between them. -/
def betweenVariance (image : BiImage) (t : Nat) : ℚ := Variance.between (lights image 0 t) (lights image t 256)

/-- Both classes have pixels. -/
def Parts (image : BiImage) (t : Nat) : Prop := lights image 0 t ≠ [] ∧ lights image t 256 ≠ []

/-- `t` leaves pixels in both classes, and no other such `t'` has a larger ratio of the variances. The ratio is infinite
if there is no variance within the classes; there is one between them, so the products compare the ratios. -/
structure Optimal (image : BiImage) (t : Nat) : Prop where
  parts : Parts image t
  best : ∀ t', Parts image t' →
    betweenVariance image t' * withinVariance image t ≤ betweenVariance image t * withinVariance image t'

/-- The threshold found is the best one. -/
def OptimalThreshold (image : BiImage) : Prop :=
  ∃ t : Nat, getThreshold image = some (t : Int) ∧ Optimal image t

/-- The lightness values that occur. -/
def levels (image : BiImage) : Finset Nat := ((grid image).map (lightness image)).toFinset

theorem mem_levels {l : Nat} : l ∈ levels image ↔ ∃ p, image.Inside p ∧ lightness image p = l := by
  simp [levels]

theorem parts_iff : Parts image t ↔ (∃ l ∈ levels image, l < t) ∧ ∃ l ∈ levels image, t ≤ l := by
  simp only [Parts, lights, between, ne_eq, List.map_eq_nil_iff, List.filter_eq_nil_iff, not_forall, mem_levels]
  constructor
  · rintro ⟨⟨p, hp, hlt⟩, q, hq, hle⟩
    simp only [decide_eq_true_eq, not_not] at hlt hle
    exact ⟨⟨_, ⟨p, mem_grid.1 hp, rfl⟩, hlt.2⟩, _, ⟨q, mem_grid.1 hq, rfl⟩, hle.1⟩
  · rintro ⟨⟨_, ⟨p, hp, rfl⟩, hlt⟩, _, ⟨q, hq, rfl⟩, hle⟩
    refine ⟨⟨p, mem_grid.2 hp, ?_⟩, q, mem_grid.2 hq, ?_⟩
    · simp only [decide_eq_true_eq, not_not]
      exact ⟨Nat.zero_le _, hlt⟩
    · simp only [decide_eq_true_eq, not_not]
      exact ⟨hle, lightness_lt image q⟩

/-- **No variance within the classes** is best. -/
theorem optimal_of_withinVariance (hparts : Parts image t) (h : withinVariance image t = 0) : Optimal image t := by
  refine ⟨hparts, fun t' _ => ?_⟩
  rw [h, mul_zero]
  exact mul_nonneg (Variance.between_nonneg _ _) (Variance.within_nonneg _ _)

/-- The classes have all pixels. -/
theorem perm_lights (image : BiImage) (t : Nat) :
    (lights image 0 t ++ lights image t 256).Perm ((grid image).map fun p => (lightness image p : ℚ)) := by
  rw [lights, lights, ← List.map_append]
  refine List.Perm.map _ ?_
  have hsplit := List.filter_append_perm (fun p => decide (lightness image p < t)) (grid image)
  have hlower : between image 0 t = (grid image).filter fun p => decide (lightness image p < t) :=
    List.filter_congr fun p _ => by simp
  have hupper : between image t 256 = (grid image).filter fun p => !decide (lightness image p < t) :=
    List.filter_congr fun p _ => by
      simp [lightness_lt, ← decide_not]
  rwa [hlower, hupper]

/-- **The best threshold** has the least variance within the classes. -/
theorem Optimal.within_le {t' : Nat} (h : Optimal image t) (ht' : Parts image t') :
    withinVariance image t ≤ withinVariance image t' :=
  (Variance.ratio_le_iff ((perm_lights image t).trans (perm_lights image t').symm)).1 (h.best t' ht')

/-! ## Two levels -/

/-- `a` and `b` are the only lightness values. -/
structure TwoLevels (image : BiImage) (a b : Nat) : Prop where
  range : Range image a b
  lt : a < b
  only : ∀ p, image.Inside p → lightness image p = a ∨ lightness image p = b

theorem exists_twoLevels (h : (levels image).card = 2) : ∃ a b, TwoLevels image a b := by
  obtain ⟨x, y, hne, hxy⟩ := card_eq_two.1 h
  have hmem : ∀ l, l ∈ levels image ↔ l = x ∨ l = y := fun l => by rw [hxy, mem_insert, mem_singleton]
  have key : ∀ a b, a < b → (∀ l, l ∈ levels image ↔ l = a ∨ l = b) → TwoLevels image a b := fun a b hab hl => by
    have honly : ∀ p, image.Inside p → lightness image p = a ∨ lightness image p = b := fun p hp =>
      (hl _).1 (mem_levels.2 ⟨p, hp, rfl⟩)
    refine ⟨⟨mem_levels.1 ((hl a).2 (.inl rfl)), mem_levels.1 ((hl b).2 (.inr rfl)), fun p hp => ?_, fun p hp => ?_⟩,
      hab, honly⟩
    · rcases honly p hp with h | h <;> omega
    · rcases honly p hp with h | h <;> omega
  rcases hne.lt_or_gt with hlt | hlt
  · exact ⟨x, y, key x y hlt hmem⟩
  · exact ⟨y, x, key y x hlt fun l => (hmem l).trans or_comm⟩

/-- A sum over the histogram has two terms. -/
theorem TwoLevels.sum_eq (h : TwoLevels image a b) (g : Nat → Int) (lo hi : Nat) :
    ((between image lo hi).map fun p => g (lightness image p)).sum =
      (if lo ≤ a ∧ a < hi then g a * occurrences image a else 0) +
        if lo ≤ b ∧ b < hi then g b * occurrences image b else 0 := by
  have hne := h.lt.ne
  have hocc : ∀ i, (occurrences image i : Int) =
      (if a = i then (occurrences image a : Int) else 0) + if b = i then (occurrences image b : Int) else 0 := by
    intro i
    rcases eq_or_ne a i with rfl | ha
    · simp [hne.symm]
    · rcases eq_or_ne b i with rfl | hb
      · simp [hne]
      · have hzero : occurrences image i = 0 := by
          by_contra hpos
          obtain ⟨p, hp, rfl⟩ := occurrences_pos.1 (Nat.pos_of_ne_zero hpos)
          rcases h.only p hp with h | h
          · exact ha h.symm
          · exact hb h.symm
        simp [ha, hb, hzero]
  rw [← sum_occurrences]
  calc ∑ i ∈ Ico lo hi, g i * (occurrences image i : Int)
      = ∑ i ∈ Ico lo hi, ((if a = i then g i * occurrences image a else 0) +
          if b = i then g i * occurrences image b else 0) :=
        sum_congr rfl fun i _ => by rw [hocc i, mul_add, mul_ite, mul_ite, mul_zero]
    _ = _ := by rw [sum_add_distrib, sum_ite_eq, sum_ite_eq]; simp only [mem_Ico]

theorem TwoLevels.size_eq (h : TwoLevels image a b) (lo hi : Nat) : (size image lo hi : Int) =
    (if lo ≤ a ∧ a < hi + 1 then (occurrences image a : Int) else 0) +
      if lo ≤ b ∧ b < hi + 1 then (occurrences image b : Int) else 0 := by
  have hsum := h.sum_eq (fun _ => 1) lo (hi + 1)
  simpa [size] using hsum

theorem TwoLevels.total_eq (h : TwoLevels image a b) (lo hi : Nat) : total image lo hi =
    (if lo ≤ a ∧ a < hi + 1 then (a : Int) * occurrences image a else 0) +
      if lo ≤ b ∧ b < hi + 1 then (b : Int) * occurrences image b else 0 :=
  h.sum_eq (fun i => i) lo (hi + 1)

theorem TwoLevels.squares_eq (h : TwoLevels image a b) (u0 : Int) (lo hi : Nat) : squares image u0 lo hi =
    (if lo ≤ a ∧ a < hi + 1 then ((a : Int) - u0) * (a - u0) * occurrences image a else 0) +
      if lo ≤ b ∧ b < hi + 1 then ((b : Int) - u0) * (b - u0) * occurrences image b else 0 :=
  h.sum_eq (fun i => ((i : Int) - u0) * (i - u0)) lo (hi + 1)

theorem meanDiff_eq (hfit : total image 0 255 < 2 ^ 31) (u0 : Int) (lo hi : Nat) :
    meanDiff image u0 lo hi = total image lo hi / size image lo hi - u0 := by
  have hnonneg := total_nonneg image lo hi
  rw [meanDiff, CInt.wrap_of_nonneg hnonneg ((total_le image lo hi).trans_lt hfit), Int.tdiv_eq_ediv_of_nonneg hnonneg]

/-- In a class of one level the variances are the same. -/
theorem distance_eq_squares (hfit : total image 0 255 < 2 ^ 31) {c n : Nat} (hn : 0 < n)
    (hsize : (size image lo hi : Int) = n) (htotal : total image lo hi = c * n)
    (hsquares : squares image u0 lo hi = ((c : Int) - u0) * (c - u0) * n) :
    distance image u0 lo hi = squares image u0 lo hi := by
  have hsize' : size image lo hi = n := by exact_mod_cast hsize
  have hn' : (n : Int) ≠ 0 := by exact_mod_cast hn.ne'
  rw [distance, meanDiff_eq hfit, htotal, hsize', Int.mul_ediv_cancel _ hn', hsquares]
  push_cast
  ring

theorem TwoLevels.pos (h : TwoLevels image a b) : 0 < occurrences image a ∧ 0 < occurrences image b :=
  ⟨occurrences_pos.2 h.range.low, occurrences_pos.2 h.range.high⟩

/-- Both classes have one level, if the threshold is between the levels. -/
theorem TwoLevels.low (h : TwoLevels image a b) (hfit : total image 0 255 < 2 ^ 31) (u0 : Int) (hat : a ≤ t)
    (htb : t < b) : squares image u0 a t = ((a : Int) - u0) * (a - u0) * occurrences image a ∧
      distance image u0 a t = squares image u0 a t := by
  have hb : ¬(a ≤ b ∧ b < t + 1) := by omega
  have ha : a ≤ a ∧ a < t + 1 := by omega
  have hsquares := h.squares_eq u0 a t
  have hsize := h.size_eq a t
  have htotal := h.total_eq a t
  rw [if_pos ha, if_neg hb, add_zero] at hsquares hsize htotal
  exact ⟨hsquares, distance_eq_squares hfit h.pos.1 hsize htotal hsquares⟩

theorem TwoLevels.high (h : TwoLevels image a b) (hfit : total image 0 255 < 2 ^ 31) (u0 : Int) (hat : a < t)
    (htb : t ≤ b) : squares image u0 t b = ((b : Int) - u0) * (b - u0) * occurrences image b ∧
      distance image u0 t b = squares image u0 t b := by
  have ha : ¬(t ≤ a ∧ a < b + 1) := by omega
  have hb : t ≤ b ∧ b < b + 1 := by omega
  have hsquares := h.squares_eq u0 t b
  have hsize := h.size_eq t b
  have htotal := h.total_eq t b
  rw [if_neg ha, if_pos hb, zero_add] at hsquares hsize htotal
  exact ⟨hsquares, distance_eq_squares hfit h.pos.2 hsize htotal hsquares⟩

/-- A class of all pixels has their mean. -/
theorem Range.distance_eq (h : Range image a b) : distance image (mean image) a b = 0 := by
  have hall : between image a (b + 1) = between image 0 (255 + 1) := by
    rw [between_all]
    refine List.filter_eq_self.2 fun p hp => ?_
    rw [decide_eq_true_iff]
    exact ⟨h.le p (mem_grid.1 hp), Nat.lt_succ_of_le (h.ge p (mem_grid.1 hp))⟩
  have hsize : size image a b = image.width * image.height := by rw [← size_all, size, hall, size]
  have htotal : total image a b = total image 0 255 := by rw [total, hall, total]
  have hzero : meanDiff image (mean image) a b = 0 := by
    rw [meanDiff, hsize, htotal, Nat.cast_mul, mean, sub_self]
  rw [distance, hzero, Int.cast_zero, mul_zero, mul_zero]

theorem TwoLevels.squares_whole (h : TwoLevels image a b) (u0 : Int) : squares image u0 a b =
    ((a : Int) - u0) * (a - u0) * occurrences image a + ((b : Int) - u0) * (b - u0) * occurrences image b := by
  have hab := h.lt
  have hsquares := h.squares_eq u0 a b
  rwa [if_pos (by omega), if_pos (by omega)] at hsquares

/-- The mean is not the upper level. -/
theorem TwoLevels.mean_bounds (h : TwoLevels image a b) (hfit : total image 0 255 < 2 ^ 31) :
    (a : Int) ≤ mean image ∧ mean image < b := by
  obtain ⟨ha, hb⟩ := h.pos
  have hab := h.lt
  have hpixels : 0 < image.width * image.height := by
    obtain ⟨p, hp, -⟩ := h.range.low
    exact Nat.mul_pos (Nat.zero_lt_of_lt hp.1) (Nat.zero_lt_of_lt hp.2)
  obtain ⟨-, hb'⟩ := h.range.le_high
  obtain ⟨-, hle, hlt⟩ := mean_spec hpixels hfit
  have hsize := h.size_eq 0 255
  have htotal := h.total_eq 0 255
  rw [if_pos (by omega), if_pos (by omega)] at hsize htotal
  rw [← size_all, hsize, htotal] at hle hlt
  constructor
  · by_contra hcon
    nlinarith
  · by_contra hcon
    nlinarith

/-- The lower level is no good threshold: all pixels are in its upper class. -/
theorem TwoLevels.criterion_low (h : TwoLevels image a b) (hfit : total image 0 255 < 2 ^ 31) :
    ∃ t, a < t ∧ t ≤ b ∧ 11 / 10 * criterion image a b a < criterion image a b t := by
  have hab := h.lt
  obtain ⟨hlo, hhi⟩ := h.mean_bounds hfit
  obtain ⟨hna, hnb⟩ := h.pos
  have hwhole := h.squares_whole (mean image)
  obtain ⟨hsquares, hdistance⟩ := h.low hfit (mean image) le_rfl hab
  rw [← hsquares] at hwhole
  obtain ⟨hsquares', hdistance'⟩ := h.high hfit (mean image) hab le_rfl
  rw [← hsquares'] at hwhole
  have hlow : criterion image a b a = squares image (mean image) a a /
      (2 * squares image (mean image) a a + squares image (mean image) b b) := by
    rw [criterion, hdistance, h.range.distance_eq, add_zero, hwhole]
    push_cast
    ring
  have hX : (0 : ℚ) ≤ squares image (mean image) a a := by exact_mod_cast squares_nonneg image (mean image) a a
  have hY : (0 : ℚ) < squares image (mean image) b b := by
    rw [hsquares']
    have hdiff : 0 < (b : Int) - mean image := by omega
    exact_mod_cast (by positivity : 0 < ((b : Int) - mean image) * (b - mean image) * occurrences image b)
  rcases (Nat.succ_le_of_lt hab).eq_or_lt with hb | hb
  · -- neighbours: the mean is the lower level
    have hmean : mean image = a := by omega
    have hzero : squares image (mean image) a a = 0 := by rw [hsquares, hmean, sub_self, zero_mul, zero_mul]
    refine ⟨b, hab, le_rfl, ?_⟩
    rw [hlow, hzero, criterion, hdistance', h.range.distance_eq, zero_add, Int.cast_zero, zero_div, mul_zero]
    refine div_pos hY (add_pos_of_nonneg_of_pos ?_ hY)
    exact_mod_cast squares_nonneg image (mean image) a b
  · -- between the levels the classes have one level each
    refine ⟨a + 1, by omega, by omega, ?_⟩
    obtain ⟨h1, hd1⟩ := h.low hfit (mean image) (Nat.le_add_right a 1) hb
    obtain ⟨h2, hd2⟩ := h.high hfit (mean image) (Nat.lt_add_one a) (by omega : a + 1 ≤ b)
    rw [hlow, criterion, hd1, hd2, h1, h2, ← hsquares, ← hsquares', div_self (by linarith : _ + _ ≠ (0 : ℚ)),
      ← mul_div_assoc, div_lt_one (by linarith)]
    linarith

/-- **With two levels** the threshold is between them. -/
theorem TwoLevels.getThreshold_spec (h : TwoLevels image a b) (hfit : total image 0 255 < 2 ^ 31) :
    ∃ t : Nat, getThreshold image = some (t : Int) ∧ a < t ∧ t ≤ b := by
  obtain ⟨p, hp, hpb⟩ := h.range.high
  have hpixels : 0 < image.width * image.height := Nat.mul_pos (Nat.zero_lt_of_lt hp.1) (Nat.zero_lt_of_lt hp.2)
  obtain ⟨-, hmean⟩ := h.mean_bounds hfit
  obtain ⟨t, ht, ⟨hat, htb⟩, hbest⟩ := ImageUtil.getThreshold_spec hpixels hfit h.range hp (by omega)
  refine ⟨t, ht, lt_of_le_of_ne hat ?_, htb⟩
  rintro rfl
  obtain ⟨t', hat', htb', hlt⟩ := h.criterion_low hfit
  exact absurd (hbest t' hat'.le htb') (not_le.2 hlt)

/-- **With two levels** every threshold between them is best. -/
theorem TwoLevels.optimal (h : TwoLevels image a b) (hat : a < t) (htb : t ≤ b) : Optimal image t := by
  have ha : a ∈ levels image := mem_levels.2 h.range.low
  have hb : b ∈ levels image := mem_levels.2 h.range.high
  refine optimal_of_withinVariance (parts_iff.2 ⟨⟨a, ha, hat⟩, b, hb, htb⟩) ?_
  have hclass : ∀ (lo hi c : Nat), (∀ p, image.Inside p → lo ≤ lightness image p → lightness image p < hi →
      lightness image p = c) → Variance.variation (lights image lo hi) = 0 := fun lo hi c hc => by
    refine Variance.variation_const (c := (c : ℚ)) fun x hx => ?_
    obtain ⟨p, hp, rfl⟩ := List.mem_map.1 hx
    obtain ⟨hgrid, hrange⟩ := List.mem_filter.1 hp
    have hrange' := of_decide_eq_true hrange
    rw [hc p (mem_grid.1 hgrid) hrange'.1 hrange'.2]
  have hlow := hclass 0 t a fun p hp _ hlt => (h.only p hp).resolve_right (by omega)
  have hhigh := hclass t 256 b fun p hp hle _ => (h.only p hp).resolve_left (by omega)
  rw [withinVariance, Variance.within, hlow, hhigh, add_zero, zero_div]

/-- **Two levels suffice** for the threshold to be the best one. -/
theorem optimalThreshold_of_two (h : (levels image).card = 2) (hfit : total image 0 255 < 2 ^ 31) :
    OptimalThreshold image := by
  obtain ⟨a, b, htwo⟩ := exists_twoLevels h
  obtain ⟨t, ht, hat, htb⟩ := htwo.getThreshold_spec hfit
  exact ⟨t, ht, htwo.optimal hat htb⟩

end LeftFelt.ImageUtil
