import LeftFelt.Image.Morphology
import LeftFelt.Image.Thinning
import LeftFelt.Lib.CInt

/-!
# The frame of the filters

Ten filters of `ImageUtil` change an image in place. All of them leave its width and height as they are. But `Shrink` and
`Expand` fill a new image and assign it, and `operator=` copies the clear colour of the new image, which is `Pixel()`;
`Thinning` and `Laplacian` work on a copy, and `TopHat` and `BlackHat` spoil a copy only. `keepsFrame_iff` says when a
filter keeps the clear colour as well.

`Thinning` ends on any image, since every round but the last takes a white pixel away (`thinningLoop_frame`).
-/

namespace LeftFelt.ImageUtil

open Lib BiImage

/-! ## The code -/

theorem zero_fits : 0 < 2 ^ 31 := Nat.two_pow_pos 31

/-- `biImage temp; temp = image;`. -/
def copy (image : BiImage) : BiImage := (create 0 0 zero_fits zero_fits).assign image

/-- `*this -= image`. -/
def subAssign (this image : BiImage) : BiImage :=
  forEach this.width this.height (fun i j out =>
    out.write (i + j * out.width) ((out.read (i + j * out.width)).sub (image.read (i + j * image.width)))) this

/-- `operator-(image)`. -/
def sub (this image : BiImage) : BiImage := subAssign (copy this) image

/-- `TopHat(image, level)`. -/
def topHat (image : BiImage) (level : Int) : BiImage := image.assign (sub image (opening (copy image) level))

/-- `BlackHat(image, level)`. -/
def blackHat (image : BiImage) (level : Int) : BiImage := image.assign (sub image (closing (copy image) level))

/-- `num`: the neighbourhood that `Sobel` looks at. -/
def sobelNum (outimage : BiImage) (i j : Nat) : List Int :=
  offsets.flatMap fun (l : Int) => offsets.map fun _ =>
    let pos : Int := i + (j + l) * outimage.width
    if pos.tdiv outimage.width = 0 ∨ pos.tdiv outimage.width ≥ (outimage.height : Int) - 1 ∨
        pos.tmod outimage.width = 0 ∨ (pos - (outimage.width - 1)).tmod outimage.width = 0 then 0
    else (outimage.get i (j + l)).lightness.toNat

/-- The new lightness of a pixel in `Sobel`. -/
def sobelGray (outimage : BiImage) (i j : Nat) : Int :=
  let num k := (sobelNum outimage i j).getD k 0
  let dx := num 0 + 2 * num 3 + num 6 - num 2 - 2 * num 5 - num 8
  let dy := num 0 + 2 * num 1 + num 2 - num 6 - 2 * num 7 - num 8
  let gray : Int := dx.natAbs + dy.natAbs
  if gray > 255 then 255 else gray

/-- `Sobel(image)`. -/
def sobel (image : BiImage) : BiImage :=
  let outimage := copy image
  forEach image.width image.height (fun i j out => out.put i j (Pixel.gray (UInt8.ofInt (sobelGray outimage i j)))) image

/-- `mask` of `Laplacian`. -/
def laplacianMask : List Int := [0, 1, 0, 1, -4, 1, 0, 1, 0]

/-- The new pixel in `Laplacian`. -/
def laplacianPixel (image : BiImage) (i j : Nat) : Pixel :=
  forLoop 0 9 (fun k pixel => pixel.add
    ((image.get (i + ((k % 3 : Nat) - 1)) (j + ((k / 3 : Nat) - 1))).scale (laplacianMask.getD k 0)))
    (Pixel.init.setRGB 0 0 0)

/-- `Laplacian(image)`. -/
def laplacian (image : BiImage) : BiImage :=
  image.assign (forLoop 1 (image.height - 1) (fun j => forLoop 1 (image.width - 1) fun i temp =>
    temp.put i j (laplacianPixel image i j)) (copy image))

/-- `getHistogram(image, histogram)`. -/
def getHistogram (image : BiImage) : List Int :=
  forEach image.width image.height (fun i j histogram =>
    histogram.set (image.get i j).lightness.toNat (histogram.getD (image.get i j).lightness.toNat 0 + 1))
    (List.replicate 256 0)

/-- `sum` and `n1` or `n2` after the loop from `lo` to `hi`. -/
def sumUp (histogram : List Int) (lo hi : Nat) : Int × Int :=
  forLoop lo (hi + 1) (fun i s => (CInt.wrap (s.1 + i * histogram.getD i 0), s.2 + histogram.getD i 0)) (0, 0)

/-- `O12` or `O22` before the division: `pow(i - u0, 2)`, added up for every pixel. -/
def scatter (histogram : List Int) (u0 : Int) (lo hi : Nat) : Float.Model :=
  forLoop lo (hi + 1) (fun i s => forLoop 0 (histogram.getD i 0).toNat (fun _ s =>
    s + (Float.Model.ofInt i - Float.Model.ofInt u0) * (Float.Model.ofInt i - Float.Model.ofInt u0)) s)
    (Float.Model.ofInt 0)

/-- `OB2/OW2` for the threshold `t`. -/
def ratio (histogram : List Int) (u0 : Int) (a b t : Nat) : Float.Model :=
  let (sum1, n1) := sumUp histogram a t
  let (sum2, n2) := sumUp histogram t b
  let u1 := Float.Model.ofInt (sum1.tdiv n1) - Float.Model.ofInt u0
  let u2 := Float.Model.ofInt (sum2.tdiv n2) - Float.Model.ofInt u0
  let O12 := scatter histogram u0 a t / Float.Model.ofInt n1
  let O22 := scatter histogram u0 t b / Float.Model.ofInt n2
  let n := Float.Model.ofInt (n1 + n2)
  let OW2 := (Float.Model.ofInt n1 * O12 + Float.Model.ofInt n2 * O22) / n
  let OB2 := (Float.Model.ofInt n1 * (u1 * u1) + Float.Model.ofInt n2 * (u2 * u2)) / n
  OB2 / OW2

/-- `getThreshold(image)`. An image without pixels divides by zero. -/
def getThreshold (image : BiImage) : Option Int :=
  let histogram := getHistogram image
  if image.width * image.height = 0 then none
  else
    let a := ((List.range 256).find? fun i => histogram.getD i 0 ≠ 0).getD 0
    let b := ((List.range 256).reverse.find? fun i => histogram.getD i 0 ≠ 0).getD 0
    let u0 := (sumUp histogram 0 255).1.tdiv (image.width * image.height)
    let s := forLoop a (b + 1) (fun t (s : Float.Model × Int) =>
      if s.1 < ratio histogram u0 a b t then (ratio histogram u0 a b t, t) else s) (Float.Model.ofInt (-1), 0)
    some s.2

/-- The loops of `Binarize`. -/
def binarizePixels (image : BiImage) (threshold : Int) : BiImage :=
  forEach image.width image.height (fun i j out =>
    if (out.get i j).lightness.toNat ≥ threshold then out.put i j (Pixel.gray 255) else out.put i j (Pixel.gray 0)) image

/-- `Binarize(image, threshold)`: the threshold if it has been looked for, else 0; and the image. -/
def binarize (image : BiImage) (threshold : Int) : Option (Int × BiImage) :=
  if threshold = -1 then (getThreshold image).map fun ret => (ret, binarizePixels image ret)
  else some (0, binarizePixels image threshold)

/-- The filters. -/
inductive Filter where
  | shrink
  | expand
  | opening (level : Int)
  | closing (level : Int)
  | topHat (level : Int)
  | blackHat (level : Int)
  | thinning
  | sobel
  | laplacian
  | binarize (threshold : Int)

/-- What a filter makes of the image. `Thinning` may take `fuel` rounds. -/
def Filter.apply (fuel : Nat) (image : BiImage) : Filter → Option BiImage
  | .shrink => some (ImageUtil.shrink image)
  | .expand => some (ImageUtil.expand image)
  | .opening level => some (ImageUtil.opening image level)
  | .closing level => some (ImageUtil.closing image level)
  | .topHat level => some (ImageUtil.topHat image level)
  | .blackHat level => some (ImageUtil.blackHat image level)
  | .thinning => (ImageUtil.thinning fuel image).map Prod.snd
  | .sobel => some (ImageUtil.sobel image)
  | .laplacian => some (ImageUtil.laplacian image)
  | .binarize threshold => (ImageUtil.binarize image threshold).map Prod.snd

/-! ## Frames -/

variable {image : BiImage} {w h : Nat}

theorem sameFrame_copy (image : BiImage) : SameFrame (copy image) image := sameFrame_assign _ image

/-- A loop over steps that keep the frame. -/
theorem sameFrame_forLoop {f : Nat → BiImage → BiImage} (hf : ∀ i out, SameFrame (f i out) out) (lo hi : Nat)
    (s : BiImage) : SameFrame (forLoop lo hi f s) s :=
  foldl_scan_all (fun out => SameFrame out s) (SameFrame.refl s) fun i out _ hout => (hf i out).trans hout

theorem sameFrame_forEach {f : Nat → Nat → BiImage → BiImage} (hf : ∀ i j out, SameFrame (f i j out) out)
    (width height : Nat) (s : BiImage) : SameFrame (forEach width height f s) s :=
  sameFrame_forLoop (fun j out => sameFrame_forLoop (fun i out => hf i j out) 0 width out) 0 height s

theorem sameFrame_put (image : BiImage) (x y : Int) (pixel : Pixel) : SameFrame (image.put x y pixel) image :=
  sameFrame_write _ _

theorem sameFrame_sub (this image : BiImage) : SameFrame (sub this image) this :=
  (sameFrame_forEach (fun _ _ _ => sameFrame_write _ _) _ _ _).trans (sameFrame_copy this)

theorem sameFrame_sobel (image : BiImage) : SameFrame (sobel image) image :=
  sameFrame_forEach (fun _ _ _ => sameFrame_put _ _ _ _) _ _ _

theorem sameFrame_laplacian (image : BiImage) : SameFrame (laplacian image) image :=
  have hrows := sameFrame_forLoop (f := fun j => forLoop 1 (image.width - 1) fun i temp =>
    temp.put i j (laplacianPixel image i j)) (fun _ _ => sameFrame_forLoop (fun _ _ => sameFrame_put _ _ _ _) _ _ _)
    1 (image.height - 1) (copy image)
  (sameFrame_assign _ _).trans (hrows.trans (sameFrame_copy image))

theorem sameFrame_binarizePixels (image : BiImage) (threshold : Int) :
    SameFrame (binarizePixels image threshold) image := by
  refine sameFrame_forEach (fun i j out => ?_) _ _ _
  split_ifs
  · exact sameFrame_put _ _ _ _
  · exact sameFrame_put _ _ _ _

/-- Rounds of `Shrink` or `Expand`: the clear colour is lost in the first one. -/
theorem sameFrame_spreads (v : UInt8) (n : Nat) (image : BiImage) :
    SameFrame (forLoop 0 n (fun _ => spread v) image) (if n = 0 then image else image.createLike) := by
  rw [forLoop_const]
  induction n with
  | zero => exact SameFrame.refl image
  | succ n ih =>
    have hround := (spread_frame v ((spread v)^[n] image)).1
    rw [Function.iterate_succ_apply', if_neg (Nat.succ_ne_zero n)]
    by_cases hn : n = 0
    · subst hn
      exact hround
    · rw [if_neg hn] at ih
      exact hround.trans ⟨ih.width, ih.height, rfl⟩

/-- `Opening` and `Closing`: rounds of two kinds. -/
theorem sameFrame_spreads_spreads (u v : UInt8) (level : Int) (image : BiImage) :
    (1 ≤ level → SameFrame (forLoop 0 level.toNat (fun _ => spread v)
      (forLoop 0 level.toNat (fun _ => spread u) image)) image.createLike) ∧
    (¬1 ≤ level → SameFrame (forLoop 0 level.toNat (fun _ => spread v)
      (forLoop 0 level.toNat (fun _ => spread u) image)) image) := by
  have hfirst := sameFrame_spreads u level.toNat image
  have hsecond := sameFrame_spreads v level.toNat (forLoop 0 level.toNat (fun _ => spread u) image)
  constructor
  · intro hlevel
    rw [if_neg (by omega)] at hfirst hsecond
    exact hsecond.trans ⟨hfirst.width, hfirst.height, rfl⟩
  · intro hlevel
    rw [if_pos (by omega)] at hfirst hsecond
    exact hsecond.trans hfirst

/-! ## Thinning of any image -/

/-- The pixels that read as `Pixel(255)`. -/
def bright (image : BiImage) : Set (Cell w h) := {p | (image.get p.1.1 p.1.2).eq (Pixel.gray 255) = true}

/-- The centre of a mask is 1. -/
theorem eq_of_matchesMask {mask : List Int} (hmask : mask ∈ masks) {p : Nat × Nat}
    (hmatch : matchesMask image mask p.1 p.2 = true) : (image.get p.1 p.2).eq (Pixel.gray 255) = true := by
  have hcentre : ∀ mask ∈ masks, mask.getD 4 (-1) = 1 := by decide
  have hentry := List.all_eq_true.1 hmatch 4 (by decide)
  have hwhite : UInt8.ofInt 255 = 255 := by decide
  rw [hcentre mask hmask] at hentry
  simpa [hwhite] using hentry

/-- One mask on any image: the frame stays, and the pixels that are deleted were bright. -/
theorem applyMask_frame {s : Thinner} (hs : Twin w h s) {mask : List Int} (hmask : mask ∈ masks) :
    Twin w h (applyMask s mask) ∧ SameFrame (applyMask s mask).image s.image ∧
      (bright (applyMask s mask).image : Set (Cell w h)) ⊆ bright s.image ∧
      ((applyMask s mask).continueFlag = true → s.continueFlag = true ∨
        (bright (applyMask s mask).image : Set (Cell w h)) ⊂ bright s.image) := by
  obtain ⟨htwin, hfr, hpx, hflag⟩ := applyMask_twin hs mask
  -- a deleted pixel is not bright any more
  have hdeleted : ∀ p : Cell w h, p.1 ∈ raster 1 (w - 1) 1 (h - 1) ∧ thins s.image mask p.1 = true →
      p ∉ (bright (applyMask s mask).image : Set (Cell w h)) := by
    intro p hdel hbright
    have hget := get_inside (x := p.1.1) (y := p.1.2) (hfr.inside.2 (hs.inside p))
    rw [hpx p, if_pos hdel] at hget
    rw [bright, Set.mem_ofPred_eq, hget] at hbright
    split_ifs at hbright
    · exact absurd hbright (by decide)
    · exact absurd hbright (by decide)
  have hsub : (bright (applyMask s mask).image : Set (Cell w h)) ⊆ bright s.image := by
    intro p hp
    by_cases hdel : p.1 ∈ raster 1 (w - 1) 1 (h - 1) ∧ thins s.image mask p.1 = true
    · exact absurd hp (hdeleted p hdel)
    · have hpx' := hpx p
      rw [if_neg hdel] at hpx'
      have hget := get_congr (x := p.1.1) (y := p.1.2) hfr (hfr.inside.2 (hs.inside p)) hpx'
      rwa [bright, Set.mem_ofPred_eq, hget] at hp
  refine ⟨htwin, hfr, hsub, fun hup => ?_⟩
  refine (hflag.1 hup).imp id ?_
  rintro ⟨p, hdel⟩
  refine ⟨hsub, fun hsup => hdeleted p hdel (hsup ?_)⟩
  rw [thins, Bool.and_eq_true] at hdel
  exact eq_of_matchesMask hmask hdel.2.2

/-- Some masks in a row. -/
theorem applyMasks_frame {l : List (List Int)} (hl : ∀ mask ∈ l, mask ∈ masks) {s : Thinner} (hs : Twin w h s) :
    Twin w h (l.foldl applyMask s) ∧ SameFrame (l.foldl applyMask s).image s.image ∧
      (bright (l.foldl applyMask s).image : Set (Cell w h)) ⊆ bright s.image ∧
      ((l.foldl applyMask s).continueFlag = true → s.continueFlag = true ∨
        (bright (l.foldl applyMask s).image : Set (Cell w h)) ⊂ bright s.image) := by
  induction l generalizing s with
  | nil => exact ⟨hs, SameFrame.refl _, subset_rfl, Or.inl⟩
  | cons mask l ih =>
    obtain ⟨hs', hfr, hsub, hflag⟩ := applyMask_frame hs (hl mask List.mem_cons_self)
    obtain ⟨hs'', hfr', hsub', hflag'⟩ := ih (fun m hm => hl m (List.mem_cons_of_mem _ hm)) hs'
    refine ⟨hs'', hfr'.trans hfr, hsub'.trans hsub, fun hup => ?_⟩
    rcases hflag' hup with hup' | hless
    · exact (hflag hup').imp id fun hless => hsub'.trans_ssubset hless
    · exact Or.inr (hless.trans_subset hsub)

theorem thinRound_frame {s : Thinner} (hs : Twin w h s) :
    Twin w h (thinRound s) ∧ SameFrame (thinRound s).image s.image ∧
      ((thinRound s).continueFlag = true → (bright (thinRound s).image : Set (Cell w h)) ⊂ bright s.image) := by
  obtain ⟨hs', hfr, -, hflag⟩ := applyMasks_frame (l := masks) (fun _ hm => hm)
    (s := { s with continueFlag := false }) ⟨hs.width, hs.height, hs.frame, hs.same⟩
  exact ⟨hs', hfr, fun hup => (hflag hup).resolve_left Bool.false_ne_true⟩

/-- **The loop ends on any image**, within as many rounds as there are bright pixels, and one more. -/
theorem thinningLoop_frame (fuel : Nat) {s : Thinner} (hs : Twin w h s)
    (hfuel : (bright s.image : Set (Cell w h)).ncard < fuel) :
    ∃ t, thinningLoop fuel s = some t ∧ SameFrame t.image s.image := by
  induction fuel generalizing s with
  | zero => omega
  | succ fuel ih =>
    obtain ⟨hs', hfr, hless⟩ := thinRound_frame hs
    simp only [thinningLoop]
    by_cases hup : (thinRound s).continueFlag = true
    · have hcard := Set.ncard_lt_ncard (hless hup) (Set.toFinite _)
      obtain ⟨t, hloop, hfr'⟩ := ih hs' (by omega)
      rw [if_pos hup]
      exact ⟨t, hloop, hfr'.trans hfr⟩
    · rw [if_neg hup]
      exact ⟨_, rfl, hfr⟩

theorem thinning_frame (image : BiImage) {fuel : Nat} (hfuel : image.width * image.height < fuel) :
    ∃ count out, thinning fuel image = some (count, out) ∧ SameFrame out image := by
  obtain ⟨t, hloop, hfr⟩ := thinningLoop_frame (w := image.width) (h := image.height) fuel
    (s := ⟨image, (create 0 0 (by decide) (by decide)).assign image, 0, true⟩)
    ⟨rfl, rfl, sameFrame_assign _ image, fun _ hp => px_assign _ hp⟩ ((ncard_cells_le _).trans_lt hfuel)
  exact ⟨t.count, t.image, by rw [thinning, hloop]; rfl, hfr⟩

/-! ## The law -/

/-- The filters that assign a new image, where rounds are made at all. -/
def Filter.LosesClear : Filter → Prop
  | .shrink | .expand => True
  | .opening level | .closing level => 1 ≤ level
  | _ => False

/-- The filter divides by the number of pixels. -/
def Filter.Divides : Filter → Prop
  | .binarize threshold => threshold = -1
  | _ => False

/-- **The filter keeps the frame**: it returns, and leaves width, height and clear colour. -/
def KeepsFrame (fuel : Nat) (f : Filter) (image : BiImage) : Prop :=
  ∃ out, f.apply fuel image = some out ∧ SameFrame out image

/-- What a filter does to the frame. -/
theorem apply_frame (f : Filter) (image : BiImage) {fuel : Nat} (hfuel : image.width * image.height < fuel)
    (hdivides : f.Divides → 0 < image.width * image.height) :
    ∃ out, f.apply fuel image = some out ∧ (f.LosesClear → SameFrame out image.createLike) ∧
      (¬f.LosesClear → SameFrame out image) := by
  cases f with
  | shrink => exact ⟨_, rfl, fun _ => (spread_frame 0 image).1, fun h => absurd trivial h⟩
  | expand => exact ⟨_, rfl, fun _ => (spread_frame 255 image).1, fun h => absurd trivial h⟩
  | opening level => exact ⟨_, rfl, sameFrame_spreads_spreads 0 255 level image⟩
  | closing level => exact ⟨_, rfl, sameFrame_spreads_spreads 255 0 level image⟩
  | topHat level => exact ⟨_, rfl, False.elim, fun _ => (sameFrame_assign _ _).trans (sameFrame_sub _ _)⟩
  | blackHat level => exact ⟨_, rfl, False.elim, fun _ => (sameFrame_assign _ _).trans (sameFrame_sub _ _)⟩
  | thinning =>
    obtain ⟨count, out, hrun, hfr⟩ := thinning_frame image hfuel
    exact ⟨out, by rw [Filter.apply, hrun]; rfl, False.elim, fun _ => hfr⟩
  | sobel => exact ⟨_, rfl, False.elim, fun _ => sameFrame_sobel image⟩
  | laplacian => exact ⟨_, rfl, False.elim, fun _ => sameFrame_laplacian image⟩
  | binarize threshold =>
    rw [Filter.apply, binarize]
    split_ifs with hauto
    · have hpos := hdivides hauto
      rw [getThreshold]
      dsimp only
      rw [if_neg (by omega)]
      exact ⟨_, rfl, False.elim, fun _ => sameFrame_binarizePixels image _⟩
    · exact ⟨_, rfl, False.elim, fun _ => sameFrame_binarizePixels image _⟩

/-- Without pixels there is nothing to divide by. -/
theorem apply_eq_none {f : Filter} {fuel : Nat} (hdivides : f.Divides) (hempty : image.width * image.height = 0) :
    f.apply fuel image = none := by
  cases f with
  | binarize threshold =>
    obtain rfl : threshold = -1 := hdivides
    rw [Filter.apply, binarize, if_pos rfl, getThreshold]
    dsimp only
    rw [if_pos hempty]
    rfl
  | _ => exact hdivides.elim

/-- **When a filter keeps the frame**: if it assigns a new image, exactly when the clear colour has been `Pixel()`
anyway. And `Binarize` needs a pixel to look for its threshold. -/
theorem keepsFrame_iff (f : Filter) (image : BiImage) {fuel : Nat} (hfuel : image.width * image.height < fuel) :
    KeepsFrame fuel f image ↔
      (f.LosesClear → image.clearColor = Pixel.init) ∧ (f.Divides → 0 < image.width * image.height) := by
  constructor
  · rintro ⟨out, hrun, hfr⟩
    have hdivides : f.Divides → 0 < image.width * image.height := by
      intro hdiv
      by_contra hzero
      rw [apply_eq_none hdiv (Nat.eq_zero_of_not_pos hzero)] at hrun
      cases hrun
    refine ⟨fun hloses => ?_, hdivides⟩
    obtain ⟨out', hrun', hlost, -⟩ := apply_frame f image hfuel hdivides
    obtain rfl := Option.some.inj (hrun.symm.trans hrun')
    exact hfr.clear.symm.trans (hlost hloses).clear
  · rintro ⟨hclear, hdivides⟩
    obtain ⟨out, hrun, hlost, hkept⟩ := apply_frame f image hfuel hdivides
    refine ⟨out, hrun, ?_⟩
    by_cases hloses : f.LosesClear
    · exact (hlost hloses).trans ⟨rfl, rfl, (hclear hloses).symm⟩
    · exact hkept hloses

/-- One pixel, and white is transparent. -/
def transparent : BiImage := (create 1 1 one_fits one_fits).setClear (Pixel.gray 255)

/-- `TopHat` keeps the frame. -/
theorem keepsFrame_topHat : KeepsFrame 2 (.topHat 1) transparent :=
  (keepsFrame_iff (.topHat 1) transparent (show 1 * 1 < 2 by decide)).2 ⟨False.elim, False.elim⟩

/-- After `Shrink` white is not transparent any more. -/
theorem not_keepsFrame_shrink : ¬KeepsFrame 2 .shrink transparent := by
  rintro ⟨out, hrun, hfr⟩
  obtain rfl := Option.some.inj hrun
  have hclear : Pixel.gray 255 = Pixel.init := hfr.clear.symm.trans (spread_frame 0 transparent).1.clear
  exact absurd hclear (by decide)

end LeftFelt.ImageUtil
