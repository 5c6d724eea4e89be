import LeftFelt.Image.Discriminant

/-!
# Images of several levels

Rows of pixels of given lightness (`row`), and among them, for every number of levels from three on, one for which the
threshold found is not the best one: with many pixels of the lightness 0, 1 and 2 and few others (`palette`), the
threshold found is 2 (`getThreshold_palette`), and the variance within the classes is less for 1 (`within_palette`).
So the threshold is best for all images of `k` levels just if `k` is 2 (`optimalThreshold_iff`).
-/

namespace LeftFelt.ImageUtil

open Lib BiImage Finset

/-! ## Images of one row -/

section Row

variable {vs : List Nat} {h : vs.length < 2 ^ 31}

/-- A row of pixels of the given lightness. -/
def row (vs : List Nat) (h : vs.length < 2 ^ 31) : BiImage :=
  ofFn vs.length 1 h one_fits fun x _ => Pixel.gray (UInt8.ofNat (vs.getD x 0))

theorem map_lightness_row (hv : ∀ v ∈ vs, v < 256) : (grid (row vs h)).map (lightness (row vs h)) = vs := by
  have hgrid : grid (row vs h) = (List.range vs.length).map fun x => (x, 0) := by
    have hframe := sameFrame_ofFn vs.length 1 h one_fits fun x _ => Pixel.gray (UInt8.ofNat (vs.getD x 0))
    rw [grid, row, hframe.width, hframe.height]
    simp [raster, create, List.range_eq_range']
  rw [hgrid, List.map_map]
  refine List.ext_getElem (by simp) fun x hx hx' => ?_
  have hin : (row vs h).Inside (x, 0) := inside_ofFn.2 ⟨hx', Nat.one_pos⟩
  rw [List.getElem_map, List.getElem_range, Function.comp_apply, row, lightness_ofFn hin rfl, Pixel.lightness_gray,
    List.getD_eq_getElem _ _ hx', UInt8.toNat_ofNat', Nat.mod_eq_of_lt]
  exact hv _ (List.getElem_mem hx')

/-- The pixels of a class are entries of the row. -/
theorem map_between_row {α : Type*} (hv : ∀ v ∈ vs, v < 256) (g : Nat → α) (lo hi : Nat) :
    (between (row vs h) lo hi).map (fun p => g (lightness (row vs h) p)) =
      (vs.filter fun v => lo ≤ v ∧ v < hi).map g := by
  conv_rhs => rw [← map_lightness_row (h := h) hv, List.filter_map, List.map_map]
  rfl

theorem levels_row (hv : ∀ v ∈ vs, v < 256) : levels (row vs h) = vs.toFinset := by
  rw [levels, map_lightness_row hv]

end Row

/-! ## Three large levels, and some more -/

/-- `2 * c` pixels of lightness 0, `c` of 1, `c` of 2, and one of each further level. -/
def palette (c k : Nat) : List Nat :=
  List.replicate (2 * c) 0 ++ (List.replicate c 1 ++ (List.replicate c 2 ++ List.range' 3 (k - 3)))

/-- The further levels of a class. -/
def further (k lo hi : Nat) : List Nat := (List.range' 3 (k - 3)).filter fun v => lo ≤ v ∧ v < hi

section Palette

variable {c k lo hi v : Nat}

theorem length_palette (c k : Nat) : (palette c k).length = 4 * c + (k - 3) := by
  simp only [palette, List.length_append, List.length_replicate, List.length_range']
  omega

theorem mem_palette (hc : 0 < c) (hk : 3 ≤ k) : v ∈ palette c k ↔ v < k := by
  simp only [palette, List.mem_append, List.mem_replicate, List.mem_range'_1]
  omega

theorem mem_further (hk : k ≤ 256) (hv : v ∈ further k lo hi) : 3 ≤ v ∧ v ≤ 255 := by
  have hrange := List.mem_range'_1.1 (List.mem_of_mem_filter hv)
  omega

theorem further_nil (hhi : hi ≤ 3) : further k lo hi = [] := List.filter_eq_nil_iff.2 fun v hv => by
  have h3 := (List.mem_range'_1.1 hv).1
  rw [decide_eq_true_iff]
  omega

theorem length_further (hk : k ≤ 256) (lo hi : Nat) : (further k lo hi).length ≤ 253 := by
  have hle : (further k lo hi).length ≤ (List.range' 3 (k - 3)).length := List.length_filter_le _ _
  rw [List.length_range'] at hle
  omega

/-- A sum over a class. -/
theorem sum_palette {R : Type*} [CommRing R] (g : Nat → R) (c k lo hi : Nat) :
    (((palette c k).filter fun v => lo ≤ v ∧ v < hi).map g).sum =
      (if lo ≤ 0 ∧ 0 < hi then (2 * c : Nat) * g 0 else 0) + ((if lo ≤ 1 ∧ 1 < hi then (c : R) * g 1 else 0) +
        ((if lo ≤ 2 ∧ 2 < hi then (c : R) * g 2 else 0) + ((further k lo hi).map g).sum)) := by
  have hpart : ∀ n l, (((List.replicate n l).filter fun v => lo ≤ v ∧ v < hi).map g).sum =
      if lo ≤ l ∧ l < hi then (n : R) * g l else 0 := fun n l => by
    rw [List.filter_replicate]
    by_cases hl : lo ≤ l ∧ l < hi
    · simp [hl]
    · simp [hl]
  rw [palette]
  simp only [List.filter_append, List.map_append, List.sum_append, hpart, further]

/-- A sum over the further levels is small. -/
theorem sum_further {R : Type*} [CommRing R] [LinearOrder R] [IsStrictOrderedRing R] (hk : k ≤ 256) {g : Nat → R}
    (low high : R) (hg : ∀ v, 3 ≤ v → v ≤ 255 → low ≤ g v ∧ g v ≤ high) (lo hi : Nat) :
    low * (further k lo hi).length ≤ ((further k lo hi).map g).sum ∧
      ((further k lo hi).map g).sum ≤ high * (further k lo hi).length := by
  have hmem : ∀ x ∈ (further k lo hi).map g, low ≤ x ∧ x ≤ high := fun x hx => by
    obtain ⟨v, hv, rfl⟩ := List.mem_map.1 hx
    obtain ⟨h3, h255⟩ := mem_further hk hv
    exact hg v h3 h255
  have hlow := List.card_nsmul_le_sum _ low fun x hx => (hmem x hx).1
  have hhigh := List.sum_le_card_nsmul _ high fun x hx => (hmem x hx).2
  rw [List.length_map, nsmul_eq_mul, mul_comm] at hlow hhigh
  exact ⟨hlow, hhigh⟩

/-! ### What the code finds there -/

variable {h : (palette c k).length < 2 ^ 31}

theorem lt_of_mem_palette (hc : 0 < c) (hk : 3 ≤ k) (hk' : k ≤ 256) : ∀ v ∈ palette c k, v < 256 := fun _ hv =>
  ((mem_palette hc hk).1 hv).trans_le hk'

theorem sum_between_palette (hc : 0 < c) (hk : 3 ≤ k) (hk' : k ≤ 256) (g : Nat → Int) (lo hi : Nat) :
    ((between (row (palette c k) h) lo (hi + 1)).map fun p => g (lightness (row (palette c k) h) p)).sum =
      (if lo = 0 then 2 * c * g 0 else 0) + ((if lo ≤ 1 ∧ 1 ≤ hi then c * g 1 else 0) +
        ((if lo ≤ 2 ∧ 2 ≤ hi then c * g 2 else 0) + ((further k lo (hi + 1)).map g).sum)) := by
  rw [map_between_row (lt_of_mem_palette hc hk hk'), sum_palette]
  simp only [Nat.le_zero, Nat.lt_succ_iff, Nat.zero_le, and_true, Nat.cast_mul, Nat.cast_ofNat]

/-- What the further levels add to the sums over a class. -/
structure Further (n s q : Int) : Prop where
  nonneg : 0 ≤ n
  le : n ≤ 253
  sum_ge : 3 * n ≤ s
  sum_le : s ≤ 255 * n
  squares_nonneg : 0 ≤ q
  squares_le : q ≤ 65025 * n

/-- **The sums over a class.** -/
theorem exists_further (hc : 0 < c) (hk : 3 ≤ k) (hk' : k ≤ 256) (lo hi : Nat) : ∃ n s q : Int, Further n s q ∧
    (hi ≤ 2 → n = 0) ∧
    (size (row (palette c k) h) lo hi : Int) = (if lo = 0 then 2 * (c : Int) else 0) +
      ((if lo ≤ 1 ∧ 1 ≤ hi then (c : Int) else 0) + ((if lo ≤ 2 ∧ 2 ≤ hi then (c : Int) else 0) + n)) ∧
    total (row (palette c k) h) lo hi = (if lo ≤ 1 ∧ 1 ≤ hi then (c : Int) else 0) +
      ((if lo ≤ 2 ∧ 2 ≤ hi then (c : Int) * 2 else 0) + s) ∧
    squares (row (palette c k) h) 0 lo hi = (if lo ≤ 1 ∧ 1 ≤ hi then (c : Int) else 0) +
      ((if lo ≤ 2 ∧ 2 ≤ hi then (c : Int) * 4 else 0) + q) := by
  have hsize := sum_between_palette (h := h) hc hk hk' (fun _ => 1) lo hi
  have htotal := sum_between_palette (h := h) hc hk hk' (fun v => v) lo hi
  have hsquares := sum_between_palette (h := h) hc hk hk' (fun v => ((v : Int) - 0) * (v - 0)) lo hi
  obtain ⟨hs, hs'⟩ := sum_further hk' (g := fun v => (v : Int)) 3 255 (fun v h3 h255 => by omega) lo (hi + 1)
  obtain ⟨hq, hq'⟩ := sum_further hk' (g := fun v => ((v : Int) - 0) * (v - 0)) 0 65025
    (fun v h3 h255 => ⟨mul_self_nonneg _, by nlinarith⟩) lo (hi + 1)
  have hn := length_further hk' lo (hi + 1)
  refine ⟨(further k lo (hi + 1)).length, _, _, ⟨Int.natCast_nonneg _, by exact_mod_cast hn, hs, hs', by linarith, hq'⟩,
    fun hi2 => ?_, ?_, ?_, ?_⟩
  · rw [further_nil (by omega), List.length_nil, Nat.cast_zero]
  · simpa [size] using hsize
  · simpa [total] using htotal
  · simpa [squares] using hsquares

theorem levels_palette (hc : 0 < c) (hk : 3 ≤ k) (hk' : k ≤ 256) : levels (row (palette c k) h) = range k := by
  rw [levels_row (lt_of_mem_palette hc hk hk')]
  ext v
  rw [List.mem_toFinset, mem_palette hc hk, mem_range]

theorem range_palette (hc : 0 < c) (hk : 3 ≤ k) (hk' : k ≤ 256) : Range (row (palette c k) h) 0 (k - 1) := by
  have hmem : ∀ v, v < k ↔ ∃ p, (row (palette c k) h).Inside p ∧ lightness (row (palette c k) h) p = v := fun v => by
    rw [← mem_levels, levels_palette hc hk hk', mem_range]
  refine ⟨(hmem 0).1 (by omega), (hmem (k - 1)).1 (by omega), fun _ _ => Nat.zero_le _, fun p hp => ?_⟩
  have := (hmem _).2 ⟨p, hp, rfl⟩
  omega

theorem total_palette (hc : 0 < c) (hk : 3 ≤ k) (hk' : k ≤ 256) :
    total (row (palette c k) h) 0 255 ≤ 3 * c + 64515 := by
  obtain ⟨n, s, q, hf, -, -, htotal, -⟩ := exists_further (h := h) hc hk hk' 0 255
  have h1 := hf.le
  have h2 := hf.sum_le
  norm_num at htotal
  omega

theorem mean_palette (hc : 2 ^ 27 ≤ c) (hc' : c ≤ 2 ^ 28) (hk : 3 ≤ k) (hk' : k ≤ 256) :
    mean (row (palette c k) h) = 0 := by
  have hc0 : 0 < c := by omega
  have htotal := total_palette (h := h) hc0 hk hk'
  obtain ⟨p, hp, -⟩ := (range_palette (h := h) hc0 hk hk').low
  have hpixels := Nat.mul_pos (Nat.zero_lt_of_lt hp.1) (Nat.zero_lt_of_lt hp.2)
  obtain ⟨h0, hle, -⟩ := mean_spec hpixels (by omega)
  obtain ⟨n, s, q, hf, -, hsize, -⟩ := exists_further (h := h) hc0 hk hk' 0 255
  have hn := hf.nonneg
  norm_num at hsize
  rw [← size_all, hsize] at hle
  by_contra hne
  have hmul : (2 * (c : Int) + (c + (c + n))) * 1 ≤ (2 * c + (c + (c + n))) * mean (row (palette c k) h) := by
    gcongr
    omega
  omega

end Palette

section Distances

variable (image : BiImage) (lo hi : Nat)

/-- The mean of a class, given as a quotient. -/
theorem distance_eq (d : Int) (hfit : total image 0 255 < 2 ^ 31) (hpos : 0 < (size image lo hi : Int))
    (hle : d * size image lo hi ≤ total image lo hi) (hlt : total image lo hi < (d + 1) * size image lo hi) :
    distance image 0 lo hi = size image lo hi * ((d : ℚ) * d) := by
  have hquot : total image lo hi / size image lo hi = d :=
    le_antisymm (Int.lt_add_one_iff.1 (Int.ediv_lt_of_lt_mul hpos hlt)) (Int.le_ediv_of_mul_le hpos hle)
  rw [distance, meanDiff_eq hfit, hquot, sub_zero]

theorem distance_le (hfit : total image 0 255 < 2 ^ 31) (hhi : hi ≤ 255) :
    distance image 0 lo hi ≤ size image lo hi * 65025 := by
  have hnonneg := total_nonneg image lo hi
  have hle := total_le_size_mul image lo hi
  rcases (Int.natCast_nonneg (size image lo hi)).eq_or_lt with hzero | hpos
  · rw [distance, ← Int.cast_natCast, ← hzero, Int.cast_zero, zero_mul, zero_mul]
  · have h0 : 0 ≤ total image lo hi / size image lo hi := Int.ediv_nonneg hnonneg hpos.le
    have h255 : total image lo hi / size image lo hi ≤ 255 := by
      refine Int.ediv_le_of_le_mul hpos (hle.trans ?_)
      rw [mul_comm]
      exact mul_le_mul_of_nonneg_right (by exact_mod_cast hhi) hpos.le
    have hsq : total image lo hi / size image lo hi * (total image lo hi / size image lo hi) ≤ 255 * 255 := by gcongr
    have hsq' : (((total image lo hi / size image lo hi : Int) : ℚ) * (total image lo hi / size image lo hi : Int)) ≤
        65025 := by exact_mod_cast hsq
    rw [distance, meanDiff_eq hfit, sub_zero]
    gcongr

end Distances

section Found

variable {c k t : Nat} {h : (palette c k).length < 2 ^ 31}

/-- The mean of every lower class is 0. -/
theorem distance_low_palette (hc : 2 ^ 27 ≤ c) (hc' : c ≤ 2 ^ 28) (hk : 3 ≤ k) (hk' : k ≤ 256) (t : Nat) :
    distance (row (palette c k) h) 0 0 t = 0 := by
  have hc0 : 0 < c := by omega
  have hfit := total_palette (h := h) hc0 hk hk'
  obtain ⟨n, s, q, hf, hn, hsize, htotal, -⟩ := exists_further (h := h) hc0 hk hk' 0 t
  have h1 := hf.sum_ge
  have h2 := hf.sum_le
  have h3 := hf.le
  have h4 := hf.nonneg
  have hd : 0 < (size (row (palette c k) h) 0 t : Int) ∧ 0 ≤ total (row (palette c k) h) 0 t ∧
      total (row (palette c k) h) 0 t < size (row (palette c k) h) 0 t := by
    rw [hsize, htotal]
    simp only [Nat.zero_le, true_and, if_true]
    split_ifs <;> omega
  rw [distance_eq (row (palette c k) h) 0 t 0 (by omega) hd.1 (by omega) (by omega)]
  norm_num

/-- The mean of the upper class is the threshold, if that is 1 or 2. -/
theorem distance_high_palette (hc : 2 ^ 27 ≤ c) (hc' : c ≤ 2 ^ 28) (hk : 3 ≤ k) (hk' : k ≤ 256) (ht : 1 ≤ t)
    (ht' : t ≤ 2) : distance (row (palette c k) h) 0 t (k - 1) = size (row (palette c k) h) t (k - 1) * (t * t) := by
  have hc0 : 0 < c := by omega
  have hfit := total_palette (h := h) hc0 hk hk'
  obtain ⟨n, s, q, hf, -, hsize, htotal, -⟩ := exists_further (h := h) hc0 hk hk' t (k - 1)
  have h1 := hf.sum_ge
  have h2 := hf.sum_le
  have h3 := hf.le
  have h4 := hf.nonneg
  have hd : 0 < (size (row (palette c k) h) t (k - 1) : Int) ∧
      t * size (row (palette c k) h) t (k - 1) ≤ total (row (palette c k) h) t (k - 1) ∧
      total (row (palette c k) h) t (k - 1) < ((t : Int) + 1) * size (row (palette c k) h) t (k - 1) := by
    have ht0 : t ≠ 0 := by omega
    have hk2 : 2 ≤ k - 1 := by omega
    have hk1 : 1 ≤ k - 1 := by omega
    rw [hsize, htotal]
    interval_cases t
    · norm_num [hk1, hk2]
      omega
    · norm_num [hk1, hk2]
      omega
  rw [distance_eq (row (palette c k) h) t (k - 1) t (by omega) hd.1 hd.2.1 hd.2.2]
  norm_cast

theorem criterion_palette_zero (hc : 2 ^ 27 ≤ c) (hc' : c ≤ 2 ^ 28) (hk : 3 ≤ k) (hk' : k ≤ 256) :
    criterion (row (palette c k) h) 0 (k - 1) 0 = 0 := by
  rw [criterion, (range_palette (by omega) hk hk').distance_eq, mean_palette hc hc' hk hk',
    distance_low_palette hc hc' hk hk', add_zero, zero_div]

theorem criterion_palette_one (hc : 2 ^ 27 ≤ c) (hc' : c ≤ 2 ^ 28) (hk : 3 ≤ k) (hk' : k ≤ 256) :
    criterion (row (palette c k) h) 0 (k - 1) 1 ≤ 17 / 50 := by
  have hc0 : 0 < c := by omega
  have hk1 : 1 ≤ k - 1 := by omega
  have hk2 : 2 ≤ k - 1 := by omega
  obtain ⟨_, _, q, hf, -, -, -, hlow⟩ := exists_further (h := h) hc0 hk hk' 0 1
  obtain ⟨n, _, q', hf', -, hsize, -, hhigh⟩ := exists_further (h := h) hc0 hk hk' 1 (k - 1)
  have hq := hf.squares_nonneg
  have hn := hf'.le
  have hq' := hf'.squares_nonneg
  norm_num [hk1, hk2] at hlow hsize hhigh
  have hden : 6 * (c : Int) ≤ squares (row (palette c k) h) 0 0 1 + squares (row (palette c k) h) 0 1 (k - 1) := by
    omega
  have hnum : (size (row (palette c k) h) 1 (k - 1) : Int) ≤ 2 * c + 253 := by omega
  have hcQ : (2 : ℚ) ^ 27 ≤ c := by exact_mod_cast hc
  have hdenQ : 6 * (c : ℚ) ≤ squares (row (palette c k) h) 0 0 1 + squares (row (palette c k) h) 0 1 (k - 1) := by
    exact_mod_cast hden
  have hnumQ : (size (row (palette c k) h) 1 (k - 1) : ℚ) ≤ 2 * c + 253 := by exact_mod_cast hnum
  rw [criterion, mean_palette hc hc' hk hk', distance_low_palette hc hc' hk hk',
    distance_high_palette hc hc' hk hk' le_rfl one_le_two, div_le_iff₀ (by linarith)]
  norm_num
  linarith

theorem criterion_palette_two (hc : 2 ^ 27 ≤ c) (hc' : c ≤ 2 ^ 28) (hk : 3 ≤ k) (hk' : k ≤ 256) :
    2 / 5 ≤ criterion (row (palette c k) h) 0 (k - 1) 2 := by
  have hc0 : 0 < c := by omega
  have hk2 : 2 ≤ k - 1 := by omega
  obtain ⟨n₀, _, q, hf, hn₀, -, -, hlow⟩ := exists_further (h := h) hc0 hk hk' 0 2
  obtain ⟨n, _, q', hf', -, hsize, -, hhigh⟩ := exists_further (h := h) hc0 hk hk' 2 (k - 1)
  have hn₀ := hn₀ le_rfl
  have hq := hf.squares_le
  have hpos := hf.squares_nonneg
  have hpos' := hf'.squares_nonneg
  have h0 := hf'.nonneg
  have hn := hf'.le
  have hq' := hf'.squares_le
  norm_num [hk2] at hlow hsize hhigh
  have hden : squares (row (palette c k) h) 0 0 2 + squares (row (palette c k) h) 0 2 (k - 1) ≤
      9 * (c : Int) + 16451325 := by
    omega
  have hden' : 0 < squares (row (palette c k) h) 0 0 2 + squares (row (palette c k) h) 0 2 (k - 1) := by
    omega
  have hnum : (c : Int) ≤ size (row (palette c k) h) 2 (k - 1) := by omega
  have hcQ : (2 : ℚ) ^ 27 ≤ c := by exact_mod_cast hc
  have hdenQ : (squares (row (palette c k) h) 0 0 2 : ℚ) + squares (row (palette c k) h) 0 2 (k - 1) ≤
      9 * c + 16451325 := by
    exact_mod_cast hden
  have hdenQ' : (0 : ℚ) < squares (row (palette c k) h) 0 0 2 + squares (row (palette c k) h) 0 2 (k - 1) := by
    exact_mod_cast hden'
  have hnumQ : (c : ℚ) ≤ size (row (palette c k) h) 2 (k - 1) := by exact_mod_cast hnum
  rw [criterion, mean_palette hc hc' hk hk', distance_low_palette hc hc' hk hk',
    distance_high_palette hc hc' hk hk' one_le_two le_rfl, le_div_iff₀ hdenQ']
  norm_num
  linarith

theorem criterion_palette_further (hc : 2 ^ 27 ≤ c) (hc' : c ≤ 2 ^ 28) (hk : 3 ≤ k) (hk' : k ≤ 256) (ht : 3 ≤ t) :
    criterion (row (palette c k) h) 0 (k - 1) t ≤ 1 / 20 := by
  have hc0 : 0 < c := by omega
  obtain ⟨_, _, q, hf, -, -, -, hlow⟩ := exists_further (h := h) hc0 hk hk' 0 t
  obtain ⟨n, _, q', hf', -, hsize, -, hhigh⟩ := exists_further (h := h) hc0 hk hk' t (k - 1)
  have hq := hf.squares_nonneg
  have hq' := squares_nonneg (row (palette c k) h) 0 t (k - 1)
  have hn := hf'.le
  have ht1 : 1 ≤ t := by omega
  have ht2 : 2 ≤ t := by omega
  have ht0 : t ≠ 0 := by omega
  have ht3 : ¬t ≤ 2 := by omega
  have ht4 : ¬t ≤ 1 := by omega
  norm_num [ht0, ht1, ht2, ht3, ht4] at hlow hsize
  have hden : 5 * (c : Int) ≤ squares (row (palette c k) h) 0 0 t + squares (row (palette c k) h) 0 t (k - 1) := by
    omega
  have hnum : (size (row (palette c k) h) t (k - 1) : Int) ≤ 253 := by omega
  have hcQ : (2 : ℚ) ^ 27 ≤ c := by exact_mod_cast hc
  have hdenQ : 5 * (c : ℚ) ≤ squares (row (palette c k) h) 0 0 t + squares (row (palette c k) h) 0 t (k - 1) := by
    exact_mod_cast hden
  have hnumQ : (size (row (palette c k) h) t (k - 1) : ℚ) ≤ 253 := by exact_mod_cast hnum
  have hfit := total_palette (h := h) hc0 hk hk'
  have hdistance := distance_le (row (palette c k) h) t (k - 1) (by omega) (by omega)
  rw [criterion, mean_palette hc hc' hk hk', distance_low_palette hc hc' hk hk', zero_add, div_le_iff₀ (by linarith)]
  linarith

/-- **The threshold found** is 2. -/
theorem getThreshold_palette (hc : 2 ^ 27 ≤ c) (hc' : c ≤ 2 ^ 28) (hk : 3 ≤ k) (hk' : k ≤ 256) :
    getThreshold (row (palette c k) h) = some 2 := by
  have hc0 : 0 < c := by omega
  have hfit := total_palette (h := h) hc0 hk hk'
  have hrange := range_palette (h := h) hc0 hk hk'
  have hmean := mean_palette (h := h) hc hc' hk hk'
  obtain ⟨p, hp, hpb⟩ := hrange.high
  have hpixels := Nat.mul_pos (Nat.zero_lt_of_lt hp.1) (Nat.zero_lt_of_lt hp.2)
  obtain ⟨t, ht, ⟨-, htb⟩, hbest⟩ := getThreshold_spec hpixels (by omega) hrange hp (by omega)
  have htwo := criterion_palette_two (h := h) hc hc' hk hk'
  have hmax := hbest 2 (by omega) (by omega)
  have hcases : t = 0 ∨ t = 1 ∨ t = 2 ∨ 3 ≤ t := by omega
  rcases hcases with rfl | rfl | rfl | ht3
  · have hzero := criterion_palette_zero (h := h) hc hc' hk hk'
    linarith
  · have hone := criterion_palette_one (h := h) hc hc' hk hk'
    linarith
  · exact ht
  · have hfurther := criterion_palette_further (h := h) hc hc' hk hk' ht3
    linarith

/-! ### What is best there -/

theorem sum_lights_palette (hc : 0 < c) (hk : 3 ≤ k) (hk' : k ≤ 256) (m : ℚ) (lo hi : Nat) :
    ((lights (row (palette c k) h) lo hi).map fun x => (x - m) ^ 2).sum =
      (if lo ≤ 0 ∧ 0 < hi then (2 * c : Nat) * ((0 : Nat) - m) ^ 2 else 0) +
        ((if lo ≤ 1 ∧ 1 < hi then (c : ℚ) * ((1 : Nat) - m) ^ 2 else 0) +
          ((if lo ≤ 2 ∧ 2 < hi then (c : ℚ) * ((2 : Nat) - m) ^ 2 else 0) +
            ((further k lo hi).map fun v : Nat => ((v : ℚ) - m) ^ 2).sum)) := by
  rw [lights, map_between_row (lt_of_mem_palette hc hk hk'), List.map_map]
  exact sum_palette (fun v : Nat => ((v : ℚ) - m) ^ 2) c k lo hi

/-- **The threshold 1 is better than 2.** -/
theorem within_palette (hc : 2 ^ 27 ≤ c) (hk : 3 ≤ k) (hk' : k ≤ 256) :
    withinVariance (row (palette c k) h) 1 < withinVariance (row (palette c k) h) 2 := by
  have hc0 : 0 < c := by omega
  have hcQ : (2 : ℚ) ^ 27 ≤ c := by exact_mod_cast hc
  -- the black pixels are alone, and the others are around 3/2
  have hlow := (Variance.variation_le (lights (row (palette c k) h) 0 1) 0).trans_eq
    (sum_lights_palette hc0 hk hk' 0 0 1)
  have hhigh := (Variance.variation_le (lights (row (palette c k) h) 1 256) (3 / 2)).trans_eq
    (sum_lights_palette hc0 hk hk' (3 / 2) 1 256)
  have hfew := (sum_further hk' (g := fun v => ((v : ℚ) - 3 / 2) ^ 2) 0 65025 (fun v h3 h255 => by
    have h3' : (3 : ℚ) ≤ v := by exact_mod_cast h3
    have h255' : (v : ℚ) ≤ 255 := by exact_mod_cast h255
    exact ⟨sq_nonneg _, by nlinarith⟩) 1 256).2
  have hlength : ((further k 1 256).length : ℚ) ≤ 253 := by exact_mod_cast length_further hk' 1 256
  rw [further_nil (by omega)] at hlow
  norm_num at hlow hhigh hfew
  -- the pixels of the lightness 0 and 1 are in one class
  have hlow' := sum_lights_palette (h := h) hc0 hk hk' (Variance.mean (lights (row (palette c k) h) 0 2)) 0 2
  rw [← Variance.variation, further_nil (by omega)] at hlow'
  have hhigh' := Variance.variation_nonneg (lights (row (palette c k) h) 2 256)
  generalize Variance.mean (lights (row (palette c k) h) 0 2) = m at hlow'
  have hsq := mul_nonneg (by linarith : (0 : ℚ) ≤ c) (sq_nonneg (m - 1 / 3))
  norm_num at hlow'
  have hN : (0 : ℚ) < (lights (row (palette c k) h) 0 2 ++ lights (row (palette c k) h) 2 256).length := by
    obtain ⟨p, hp, -⟩ := (range_palette (h := h) hc0 hk hk').low
    rw [(perm_lights _ 2).length_eq, List.length_map, length_grid]
    exact_mod_cast Nat.mul_pos (Nat.zero_lt_of_lt hp.1) (Nat.zero_lt_of_lt hp.2)
  have hsame : (lights (row (palette c k) h) 0 1 ++ lights (row (palette c k) h) 1 256).length =
      (lights (row (palette c k) h) 0 2 ++ lights (row (palette c k) h) 2 256).length :=
    ((perm_lights _ 1).trans (perm_lights _ 2).symm).length_eq
  rw [withinVariance, withinVariance, Variance.within, Variance.within, hsame]
  refine div_lt_div_of_pos_right ?_ hN
  have hsplit : 2 * (c : ℚ) * m ^ 2 + c * (1 - m) ^ 2 = 3 * (c * (m - 1 / 3) ^ 2) + 2 / 3 * c := by ring
  linarith

theorem parts_palette (hc : 0 < c) (hk : 3 ≤ k) (hk' : k ≤ 256) : Parts (row (palette c k) h) 1 := by
  rw [parts_iff, levels_palette hc hk hk']
  exact ⟨⟨0, mem_range.2 (by omega), Nat.one_pos⟩, 1, mem_range.2 (by omega), le_rfl⟩

theorem not_optimal_palette (hc : 2 ^ 27 ≤ c) (hk : 3 ≤ k) (hk' : k ≤ 256) : ¬Optimal (row (palette c k) h) 2 :=
  fun hoptimal => absurd (hoptimal.within_le (parts_palette (by omega) hk hk')) (not_le.2 (within_palette hc hk hk'))

end Found

/-! ## How many levels -/

/-- **When the threshold is best**: whatever the image with `k` levels, if `k` is 2, and not else. -/
theorem optimalThreshold_iff {k : Nat} (hk : 2 ≤ k) (hk' : k ≤ 256) :
    (∀ image, (levels image).card = k → total image 0 255 < 2 ^ 31 → OptimalThreshold image) ↔ k = 2 := by
  constructor
  · intro hall
    by_contra hne
    have hk3 : 3 ≤ k := by omega
    obtain ⟨c, hc, hc'⟩ : ∃ c : Nat, 2 ^ 27 ≤ c ∧ c ≤ 2 ^ 28 := ⟨2 ^ 28, by norm_num, le_rfl⟩
    have hc0 : 0 < c := by omega
    have hfits : (palette c k).length < 2 ^ 31 := by
      rw [length_palette]
      omega
    have hlevels := levels_palette (h := hfits) hc0 hk3 hk'
    have htotal := total_palette (h := hfits) hc0 hk3 hk'
    obtain ⟨t, ht, hoptimal⟩ := hall (row _ hfits) (by rw [hlevels, card_range]) (by omega)
    rw [getThreshold_palette hc hc' hk3 hk'] at ht
    obtain rfl : t = 2 := by
      have := Option.some.inj ht
      omega
    exact not_optimal_palette hc hk3 hk' hoptimal
  · rintro rfl image htwo hfit
    exact optimalThreshold_of_two htwo hfit

/-- With two levels the threshold is best, with three it need not be. -/
theorem optimalThreshold_two :
    ((∀ image, (levels image).card = 2 → total image 0 255 < 2 ^ 31 → OptimalThreshold image) ↔ 2 = 2) ∧
      ((∀ image, (levels image).card = 3 → total image 0 255 < 2 ^ 31 → OptimalThreshold image) ↔ 3 = 2) :=
  ⟨optimalThreshold_iff le_rfl (by norm_num), optimalThreshold_iff (by norm_num) (by norm_num)⟩

theorem four_fits : (palette 1 3).length < 2 ^ 31 := by decide

/-- Four pixels of the lightness 0, 0, 1 and 2. -/
def darkRow : BiImage := row (palette 1 3) four_fits

/-- The threshold found is 2, and 1 is better. -/
theorem not_optimalThreshold_darkRow : (levels darkRow).card = 3 ∧ ¬OptimalThreshold darkRow := by
  refine ⟨by rw [darkRow, levels_palette Nat.one_pos le_rfl (by norm_num), card_range], ?_⟩
  rintro ⟨t, ht, hoptimal⟩
  have hcode : getThreshold darkRow = some 2 := by decide +kernel
  rw [hcode] at ht
  obtain rfl : t = 2 := by
    have := Option.some.inj ht
    omega
  have hbetter : withinVariance darkRow 1 < withinVariance darkRow 2 := by decide +kernel
  exact absurd (hoptimal.within_le (parts_palette Nat.one_pos le_rfl (by norm_num))) (not_le.2 hbetter)

end LeftFelt.ImageUtil
