import LeftFelt.Image.Filters
import LeftFelt.Image.LegacyLabel
import LeftFelt.Image.TopHat

/-!
# Sobel and Laplacian

`ImageUtil::Sobel` looks at one column three times over, so that it never sees a horizontal difference; the legacy
`sobelfilter` looks at all nine pixels (`sobelAgrees_iff`). `ImageUtil::Laplacian` adds up products that are limited to
0..255 one by one: the negative weight of the centre is lost (`laplacianOf_iff`).
-/

namespace LeftFelt.Legacy

open Lib ImageUtil

/-- `num`: the neighbourhood of the pixel number `i`. -/
def sobelNum (outimage : Image) (i : Nat) : List Int :=
  offsets.flatMap fun (k : Int) => offsets.map fun (j : Int) =>
    let pos : Int := i + j + k * outimage.width
    if pos.tdiv outimage.width = 0 ∨ pos.tdiv outimage.width ≥ (outimage.height : Int) - 1 ∨
        pos.tmod outimage.width = 0 ∨ (pos - (outimage.width - 1)).tmod outimage.width = 0 then 0
    else (outimage.imageData.getD pos.toNat default).graylevel.toNat

/-- `gray` in `sobelfilter`. -/
def sobelGray (outimage : Image) (i : Nat) : Int :=
  let num k := (sobelNum outimage i).getD k 0
  let dx := num 0 + 2 * num 3 + num 6 - num 2 - 2 * num 5 - num 8
  let dy := num 0 + 2 * num 1 + num 2 - num 6 - 2 * num 7 - num 8
  let gray : Int := dx.natAbs + dy.natAbs
  if gray > 255 then 255 else gray

/-- `sobelfilter(image)`. -/
def sobelfilter (image : Image) : Image :=
  image.forPixels fun i d =>
    let gray := UInt8.ofInt (sobelGray image i)
    { d with rgbRed := gray, rgbGreen := gray, rgbBlue := gray, graylevel := gray }

end LeftFelt.Legacy

namespace LeftFelt.ImageUtil

open Lib BiImage

/-! ## Neighbourhoods -/

variable {image : BiImage} {legacy : Legacy.Image} {p : Nat × Nat}

/-- At distance at least 2 from the border. -/
def Far (w h : Nat) (p : Nat × Nat) : Prop := (2 ≤ p.1 ∧ p.1 + 2 < w) ∧ 2 ≤ p.2 ∧ p.2 + 2 < h

instance (w h : Nat) (p : Nat × Nat) : Decidable (Far w h p) := inferInstanceAs (Decidable (_ ∧ _))

/-- The border test is about the coordinates of the position. -/
theorem not_border {w h : Nat} {x y : Int} (hx : 1 ≤ x) (hxw : x + 1 < w) (hy : 1 ≤ y) (hyh : y + 1 < h) :
    ¬((x + y * w).tdiv w = 0 ∨ (x + y * w).tdiv w ≥ (h : Int) - 1 ∨ (x + y * w).tmod w = 0 ∨
      (x + y * w - (w - 1)).tmod w = 0) := by
  have hw : (0 : Int) < w := by omega
  have hprod : 0 ≤ (y - 1) * w := mul_nonneg (by omega) hw.le
  have hshift : x + y * w - (w - 1) = x + 1 + (y - 1) * w := by ring
  have hpos : 0 ≤ x + y * w := by
    have := hshift
    omega
  rw [hshift, Int.tdiv_eq_ediv_of_nonneg hpos, Int.tmod_eq_emod_of_nonneg hpos, Int.tmod_eq_emod_of_nonneg (by omega),
    Int.add_mul_ediv_right _ _ hw.ne', Int.add_mul_emod_self_right, Int.add_mul_emod_self_right,
    Int.ediv_eq_zero_of_lt (by omega) (by omega), Int.emod_eq_of_lt (by omega) (by omega),
    Int.emod_eq_of_lt (by omega) (by omega)]
  omega

/-- The lightness as a number. -/
def light (image : BiImage) (x y : Int) : Int := (image.get x y).lightness.toNat

theorem offsets_bounds {k : Int} (hk : k ∈ offsets) : -1 ≤ k ∧ k ≤ 1 := by
  simp only [offsets, List.mem_cons, List.not_mem_nil, or_false] at hk
  omega

/-- `dx`: left column minus right column. -/
def horizontal (image : BiImage) (x y : Int) : Int :=
  light image (x - 1) (y - 1) + 2 * light image (x - 1) y + light image (x - 1) (y + 1) -
    light image (x + 1) (y - 1) - 2 * light image (x + 1) y - light image (x + 1) (y + 1)

/-- `dy`: top row minus bottom row. -/
def vertical (image : BiImage) (x y : Int) : Int :=
  light image (x - 1) (y - 1) + 2 * light image x (y - 1) + light image (x + 1) (y - 1) -
    light image (x - 1) (y + 1) - 2 * light image x (y + 1) - light image (x + 1) (y + 1)

/-- What a Sobel filter is for. -/
def gradient (image : BiImage) (x y : Int) : Int := min 255 (|horizontal image x y| + |vertical image x y|)

theorem gradient_bounds (image : BiImage) (x y : Int) : 0 ≤ gradient image x y ∧ gradient image x y ≤ 255 := by
  have hx := abs_nonneg (horizontal image x y)
  have hy := abs_nonneg (vertical image x y)
  unfold gradient
  omega

/-! ## The legacy filter -/

/-- A pixel of the legacy image. -/
theorem graylevel_eq_light (hshows : Legacy.Shows legacy image) {x y : Int} (hx : 0 ≤ x) (hxw : x < image.width)
    (hy : 0 ≤ y) (hyh : y < image.height) :
    ((legacy.imageData.getD (x + y * legacy.width).toNat default).graylevel.toNat : Int) = light image x y := by
  obtain ⟨a, rfl⟩ : ∃ a : Nat, x = a := ⟨x.toNat, by omega⟩
  obtain ⟨b, rfl⟩ : ∃ b : Nat, y = b := ⟨y.toNat, by omega⟩
  have hindex : ((a : Int) + b * legacy.width).toNat = a + b * legacy.width := by
    have hcast : (a : Int) + b * legacy.width = ((a + b * legacy.width : Nat) : Int) := by push_cast; rfl
    rw [hcast, Int.toNat_natCast]
  have hgray := hshows.lightness a b ⟨by omega, by omega⟩
  rw [Legacy.Image.px] at hgray
  rw [hindex, hgray, light]

/-- `sobelfilter` reads the nine pixels around its own. -/
theorem legacy_sobelNum_far (hshows : Legacy.Shows legacy image) (hp : Far image.width image.height p) :
    Legacy.sobelNum legacy (p.1 + p.2 * legacy.width) =
      offsets.flatMap fun k => offsets.map fun j => light image (p.1 + j) (p.2 + k) := by
  obtain ⟨⟨hx, hxw⟩, hy, hyh⟩ := hp
  have hwidth := hshows.width
  have hheight := hshows.height
  refine List.flatMap_congr fun k hk => List.map_congr_left fun j hj => ?_
  have hk' := offsets_bounds hk
  have hj' := offsets_bounds hj
  have hpos : ((p.1 + p.2 * legacy.width : Nat) : Int) + j + k * legacy.width =
      (p.1 + j) + (p.2 + k) * legacy.width := by
    push_cast
    ring
  dsimp only
  rw [hpos, if_neg (not_border (by omega) (by omega) (by omega) (by omega)),
    graylevel_eq_light hshows (by omega) (by omega) (by omega) (by omega)]

/-- **`sobelfilter` computes the gradient.** -/
theorem legacy_sobelGray_far (hshows : Legacy.Shows legacy image) (hp : Far image.width image.height p) :
    Legacy.sobelGray legacy (p.1 + p.2 * legacy.width) = gradient image p.1 p.2 := by
  simp only [Legacy.sobelGray, legacy_sobelNum_far hshows hp, offsets, List.flatMap_cons, List.flatMap_nil,
    List.map_cons, List.map_nil, List.append_nil, List.cons_append, List.nil_append, List.getD_cons_zero,
    List.getD_cons_succ, Int.natCast_natAbs, Int.add_neg_one, add_zero]
  rw [gradient, horizontal, vertical, min_def]
  split_ifs <;> omega

/-- What it writes. -/
theorem px_sobelfilter (hshows : Legacy.Shows legacy image) (hp : Far image.width image.height p) :
    (((Legacy.sobelfilter legacy).px p).graylevel.toNat : Int) = gradient image p.1 p.2 := by
  have hin : p.1 < legacy.width ∧ p.2 < legacy.height := by
    rw [hshows.width, hshows.height]
    exact ⟨by have := hp.1; omega, by have := hp.2; omega⟩
  obtain ⟨hlo, hhi⟩ := gradient_bounds image p.1 p.2
  rw [Legacy.sobelfilter, Legacy.px_forPixels hshows.size _ hin, legacy_sobelGray_far hshows hp]
  exact Pixel.toNat_ofInt hlo hhi

/-! ## The filter -/

/-- The copy shows the same lightness. -/
theorem light_copy {x y : Int} (hx : 0 ≤ x) (hxw : x < image.width) (hy : 0 ≤ y) (hyh : y < image.height) :
    light (copy image) x y = light image x y := by
  obtain ⟨a, rfl⟩ : ∃ a : Nat, x = a := ⟨x.toNat, by omega⟩
  obtain ⟨b, rfl⟩ : ∃ b : Nat, y = b := ⟨y.toNat, by omega⟩
  rw [light, light, copy, get_assign _ ⟨by omega, by omega⟩]

/-- `Sobel` reads one column three times. -/
theorem sobelNum_far (hp : Far image.width image.height p) :
    sobelNum (copy image) p.1 p.2 = offsets.flatMap fun l => offsets.map fun _ => light image p.1 (p.2 + l) := by
  obtain ⟨⟨hx, hxw⟩, hy, hyh⟩ := hp
  have hframe := sameFrame_copy image
  refine List.flatMap_congr fun l hl => List.map_congr_left fun _ _ => ?_
  have hl' := offsets_bounds hl
  dsimp only
  rw [hframe.width, hframe.height, if_neg (not_border (by omega) (by omega) (by omega) (by omega)),
    ← light_copy (by omega) (by omega) (by omega) (by omega), light]

/-- What comes of it: the horizontal difference is lost, and the vertical one is that of one column, four times. -/
theorem sobelGray_far (hp : Far image.width image.height p) :
    sobelGray (copy image) p.1 p.2 = min 255 (4 * |light image p.1 (p.2 - 1) - light image p.1 (p.2 + 1)|) := by
  simp only [sobelGray, sobelNum_far hp, offsets, List.flatMap_cons, List.flatMap_nil, List.map_cons, List.map_nil,
    List.append_nil, List.cons_append, List.nil_append, List.getD_cons_zero, List.getD_cons_succ, Int.natCast_natAbs,
    Int.add_neg_one, add_zero]
  generalize light image p.1 (p.2 - 1) = n
  generalize light image p.1 p.2 = m
  generalize light image p.1 (p.2 + 1) = s
  have hdx : n + 2 * m + s - n - 2 * m - s = 0 := by ring
  have hdy : |n + 2 * n + n - s - 2 * s - s| = 4 * |n - s| := by
    have hfactor : n + 2 * n + n - s - 2 * s - s = 4 * (n - s) := by ring
    rw [hfactor, abs_mul, abs_of_pos (by decide : (0 : Int) < 4)]
  rw [hdx, hdy, abs_zero, zero_add, min_def]
  split_ifs <;> omega

/-- The pixels that `Sobel` puts. -/
theorem px_sobel (hp : image.Inside p) :
    (sobel image).px p = Pixel.gray (UInt8.ofInt (sobelGray (copy image) p.1 p.2)) :=
  (forEach_put (fun i j => Pixel.gray (UInt8.ofInt (sobelGray (copy image) i j))) image).2 p hp

/-- The two filters put the same gray, and it is the gradient. -/
def SobelAgrees (image : BiImage) (legacy : Legacy.Image) : Prop :=
  ∀ p, Far image.width image.height p → ∃ g : UInt8, (sobel image).px p = Pixel.gray g ∧
    ((Legacy.sobelfilter legacy).px p).graylevel = g ∧ (g.toNat : Int) = gradient image p.1 p.2

/-- **When the two filters agree**: where four times the difference of the pixels above and below is as good as the
gradient. -/
theorem sobelAgrees_iff (hshows : Legacy.Shows legacy image) :
    SobelAgrees image legacy ↔ ∀ p, Far image.width image.height p →
      min 255 (4 * |light image p.1 (p.2 - 1) - light image p.1 (p.2 + 1)|) = gradient image p.1 p.2 := by
  refine forall₂_congr fun p hp => ?_
  have hin : image.Inside p := ⟨by have := hp.1; omega, by have := hp.2; omega⟩
  have hlegacy := px_sobelfilter hshows hp
  have habs := abs_nonneg (light image p.1 (p.2 - 1) - light image p.1 (p.2 + 1))
  have hgray := Pixel.toNat_ofInt (n := min 255 (4 * |light image p.1 (p.2 - 1) - light image p.1 (p.2 + 1)|))
    (by omega) (by omega)
  rw [px_sobel hin, sobelGray_far hp]
  constructor
  · rintro ⟨g, hsobel, -, hg⟩
    have hred : UInt8.ofInt (min 255 (4 * |light image p.1 (p.2 - 1) - light image p.1 (p.2 + 1)|)) = g :=
      congrArg Pixel.red hsobel
    rw [← hg, ← hgray, hred]
  · intro heq
    refine ⟨_, rfl, UInt8.toNat_inj.1 ?_, by rw [hgray, heq]⟩
    exact_mod_cast (hlegacy.trans (heq.symm.trans hgray.symm))

/-- A legacy image of five rows. -/
def tiled (v : Nat → UInt8) : Legacy.Image where
  width := 5
  height := 5
  imageData := (List.range 25).map fun k => ⟨0, 0, 0, 0, v k, 0⟩

theorem valid_tiled (v : Nat → UInt8) : Legacy.Valid (tiled v) := ⟨by simp [tiled], by simp [tiled], by simp [tiled]⟩

/-- Five equal rows. -/
def stripes (v : Nat → UInt8) : Legacy.Image := tiled fun k => v (k % 5)

/-- Five rows of one gray each. -/
def layers (v : Nat → UInt8) : Legacy.Image := tiled fun k => v (k / 5)

/-- Only the middle is far from the border. -/
theorem eq_middle (hp : Far 5 5 p) : p = (2, 2) := by
  obtain ⟨x, y⟩ := p
  obtain ⟨⟨hx, hxw⟩, hy, hyh⟩ := hp
  obtain rfl : x = 2 := by omega
  obtain rfl : y = 2 := by omega
  rfl

/-- A horizontal edge, which both filters draw. -/
theorem sobelAgrees_edge :
    SobelAgrees (Legacy.shown (layers fun y => if y < 2 then 20 else 0) (valid_tiled _))
      (layers fun y => if y < 2 then 20 else 0) ∧
    (sobel (Legacy.shown (layers fun y => if y < 2 then 20 else 0) (valid_tiled _))).px (2, 2) = Pixel.gray 80 := by
  refine ⟨(sobelAgrees_iff (Legacy.shows_shown (valid_tiled _))).2 fun p hp => ?_, by decide +kernel⟩
  obtain rfl := eq_middle hp
  decide +kernel

/-- A vertical edge: `sobelfilter` draws it, `Sobel` does not. -/
theorem not_sobelAgrees_edge :
    ¬SobelAgrees (Legacy.shown (stripes fun x => if x < 2 then 255 else 0) (valid_tiled _))
      (stripes fun x => if x < 2 then 255 else 0) := by
  intro hagrees
  obtain ⟨g, hsobel, hlegacy, -⟩ := hagrees (2, 2) (by decide)
  have hblack : (sobel (Legacy.shown (stripes fun x => if x < 2 then 255 else 0) (valid_tiled _))).px (2, 2) =
      Pixel.gray 0 := by decide +kernel
  have hwhite : ((Legacy.sobelfilter (stripes fun x => if x < 2 then 255 else 0)).px (2, 2)).graylevel = 255 := by
    decide +kernel
  rw [hblack] at hsobel
  rw [hwhite] at hlegacy
  subst hlegacy
  exact absurd (congrArg Pixel.red hsobel) (by decide)

/-! ## The Laplacian -/

variable {c : Pixel → UInt8}

/-- Off the border. -/
def Interior (w h : Nat) (p : Nat × Nat) : Prop := (1 ≤ p.1 ∧ p.1 + 1 < w) ∧ 1 ≤ p.2 ∧ p.2 + 1 < h

instance (w h : Nat) (p : Nat × Nat) : Decidable (Interior w h p) := inferInstanceAs (Decidable (_ ∧ _))

/-- A channel of the pixel that `Get` reads. -/
def tone (c : Pixel → UInt8) (image : BiImage) (x y : Int) : Int := (c (image.get x y)).toNat

/-- The four neighbours. -/
def cross (c : Pixel → UInt8) (image : BiImage) (x y : Int) : Int :=
  tone c image x (y - 1) + tone c image x (y + 1) + tone c image (x + 1) y + tone c image (x - 1) y

/-- A product by one of the weights is added: only the weight 1 counts. -/
theorem limit_add_limit (v t : Nat) :
    Pixel.limit (v + Pixel.limit (t * 0) 0 255) 0 255 = (min 255 v : Nat) ∧
      Pixel.limit (v + Pixel.limit (t * 1) 0 255) 0 255 = (min 255 (v + t) : Nat) ∧
      Pixel.limit (v + Pixel.limit (t * -4) 0 255) 0 255 = (min 255 v : Nat) := by
  unfold Pixel.limit
  refine ⟨?_, ?_, ?_⟩
  · split_ifs <;> omega
  · split_ifs <;> omega
  · split_ifs <;> omega

/-- **The weight of the centre is lost**: the product is negative, and limited to 0. -/
theorem tone_laplacianPixel (hc : c ∈ Pixel.rgbChannels) (image : BiImage) (i j : Nat) :
    ((c (laplacianPixel image i j)).toNat : Int) = min 255 (cross c image i j) := by
  have hstart : ((c (Pixel.init.setRGB 0 0 0)).toNat : Int) = (0 : Nat) := by
    simp only [Pixel.rgbChannels, List.mem_cons, List.not_mem_nil, or_false] at hc
    rcases hc with rfl | rfl | rfl
    all_goals rfl
  have hrange : List.range' 0 (9 - 0) = [0, 1, 2, 3, 4, 5, 6, 7, 8] := rfl
  simp only [laplacianPixel, forLoop, hrange, List.foldl_cons, List.foldl_nil, laplacianMask, Pixel.toNat_add hc,
    Pixel.toNat_scale hc, hstart, List.getD_cons_zero, List.getD_cons_succ, (limit_add_limit _ _).1,
    (limit_add_limit _ _).2.1, (limit_add_limit _ _).2.2, cross, tone]
  norm_num
  simp only [Int.add_neg_one]
  omega

/-- The pixels of the result: the border is that of the image. -/
theorem px_laplacian (hp : image.Inside p) : (laplacian image).px p =
    if Interior image.width image.height p then laplacianPixel image p.1 p.2 else image.px p := by
  have hcopy := sameFrame_copy image
  have hl : ∀ q ∈ raster 1 (image.width - 1) 1 (image.height - 1), (copy image).Inside q := fun q hq => by
    rw [mem_raster] at hq
    exact hcopy.inside.2 ⟨by omega, by omega⟩
  obtain ⟨hfr, hpx⟩ := foldl_write (fun _ => true) (fun q _ => laplacianPixel image q.1 q.2) (raster_nodup _ _ _ _) hl
    (f := fun t q => t.put q.1 q.2 (laplacianPixel image q.1 q.2)) fun t q ht hq => by
      rw [if_pos rfl]
      exact put_inside (ht.inside.2 (hl q hq)) _
  rw [laplacian, forLoop_forLoop, px_assign _ ((hfr.trans hcopy).inside.2 hp), hpx p (hcopy.inside.2 hp), copy,
    px_assign _ hp]
  have hmem : p ∈ raster 1 (image.width - 1) 1 (image.height - 1) ↔ Interior image.width image.height p := by
    rw [mem_raster, Interior]
    omega
  simp only [hmem, and_true]

/-- The Laplacian, limited, off the border, and the old pixels on it. -/
structure LaplacianOf (image out : BiImage) : Prop where
  inner : ∀ p, Interior image.width image.height p → ∀ c ∈ Pixel.rgbChannels,
    ((c (out.px p)).toNat : Int) = Pixel.limit (cross c image p.1 p.2 - 4 * tone c image p.1 p.2) 0 255
  border : ∀ p, image.Inside p → ¬Interior image.width image.height p → out.px p = image.px p

/-- Without the centre the sum is still right if there is nothing in the centre, nothing around it, or too much. -/
theorem min_eq_limit_iff {s t : Int} (hs : 0 ≤ s) (ht : 0 ≤ t) :
    min 255 s = Pixel.limit (s - 4 * t) 0 255 ↔ t = 0 ∨ s = 0 ∨ 4 * t + 255 ≤ s := by
  unfold Pixel.limit
  split_ifs <;> omega

theorem tone_nonneg (c : Pixel → UInt8) (image : BiImage) (x y : Int) : 0 ≤ tone c image x y := Int.natCast_nonneg _

/-- **When the result is the Laplacian**: where the weight of the centre makes no difference. -/
theorem laplacianOf_iff (image : BiImage) : LaplacianOf image (laplacian image) ↔
    ∀ p, Interior image.width image.height p → ∀ c ∈ Pixel.rgbChannels,
      tone c image p.1 p.2 = 0 ∨ cross c image p.1 p.2 = 0 ∨
        4 * tone c image p.1 p.2 + 255 ≤ cross c image p.1 p.2 := by
  have hinner : ∀ p, Interior image.width image.height p → ∀ c ∈ Pixel.rgbChannels,
      (((c ((laplacian image).px p)).toNat : Int) =
        Pixel.limit (cross c image p.1 p.2 - 4 * tone c image p.1 p.2) 0 255 ↔
      tone c image p.1 p.2 = 0 ∨ cross c image p.1 p.2 = 0 ∨
        4 * tone c image p.1 p.2 + 255 ≤ cross c image p.1 p.2) := by
    intro p hp c hc
    have hin : image.Inside p := ⟨by have := hp.1; omega, by have := hp.2; omega⟩
    have hcross : 0 ≤ cross c image p.1 p.2 :=
      add_nonneg (add_nonneg (add_nonneg (tone_nonneg ..) (tone_nonneg ..)) (tone_nonneg ..)) (tone_nonneg ..)
    rw [px_laplacian hin, if_pos hp, tone_laplacianPixel hc]
    exact min_eq_limit_iff hcross (tone_nonneg ..)
  constructor
  · exact fun h p hp c hc => (hinner p hp c hc).1 (h.inner p hp c hc)
  · intro h
    refine ⟨fun p hp c hc => (hinner p hp c hc).2 (h p hp c hc), fun p hp hborder => ?_⟩
    rw [px_laplacian hp, if_neg hborder]

/-- A white pixel in the middle of a white image. -/
theorem not_laplacianOf_plain :
    ¬LaplacianOf (ofFn 3 3 three_fits three_fits fun _ _ => Pixel.gray 255)
      (laplacian (ofFn 3 3 three_fits three_fits fun _ _ => Pixel.gray 255)) := by
  intro h
  have hmiddle := h.inner (1, 1) (by decide) Pixel.red (by simp [Pixel.rgbChannels])
  revert hmiddle
  decide +kernel

end LeftFelt.ImageUtil
