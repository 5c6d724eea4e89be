import LeftFelt.Image.Gain
import LeftFelt.Image.Morphology
import LeftFelt.Image.Sampling
import LeftFelt.Image.Scope

/-!
# The legacy filters

`auto_niti`, `expand` and `shrink`, from which `Binarize`, `Expand` and `Shrink` were written, and `color_put`, from
which `SamplingObject` was. A legacy pixel has its gray level with it, where a `Pixel` computes its lightness; and
`expand` and `shrink` write to another image.

Both programs have the same picture after any of these filters, if they have begun with the same one, and take the same
objects out of it, as long as 255 labels are enough (`pipeline_agrees`).
-/

namespace LeftFelt.Legacy

open Lib BiImage

/-! ## The code -/

/-- The colour and the gray level of a pixel are set. -/
def ImageData.paint (v : UInt8) (d : ImageData) : ImageData :=
  { d with rgbBlue := v, rgbGreen := v, rgbRed := v, graylevel := v }

/-- `*(image->image_data + k)` is changed. -/
def Image.modify (image : Image) (k : Nat) (f : ImageData → ImageData) : Image :=
  { image with imageData := image.imageData.modify k f }

/-- `cnt` after the loops over the neighbourhood of `(i, j)`: how often the gray level `v` was met. -/
def count (v : UInt8) (input : Image) (i j : Nat) : Nat :=
  ImageUtil.offsets.foldl (fun cnt (k : Int) => ImageUtil.offsets.foldl (fun cnt (l : Int) =>
    if i + l < 0 ∨ j + k < 0 ∨ input.width ≤ i + l ∨ input.height ≤ j + k then cnt
    else if k ≠ 1 ∨ l ≠ 1 then
      if (input.px ((i + l).toNat, (j + k).toNat)).graylevel = v then cnt + 1 else cnt
    else cnt) cnt) 0

/-- What `shrink` (`v = 0`) and `expand` (`v = 255`) make of a pixel of `output`. -/
def spreadData (v : UInt8) (input : Image) (i j : Nat) (d : ImageData) : ImageData :=
  if (input.px (i, j)).graylevel = v then input.px (i, j)
  else if count v input i j ≠ 0 then d.paint v
  else input.px (i, j)

/-- The common body of `shrink` and `expand`. -/
def spread (v : UInt8) (input output : Image) : Image :=
  forLoop 0 input.height (fun j => forLoop 0 input.width fun i out =>
    out.modify (i + j * input.width) (spreadData v input i j)) output

/-- `shrink(input, output)`: the `output`. -/
def shrink (input output : Image) : Image := spread 0 input output

/-- `expand(input, output)`: the `output`. -/
def expand (input output : Image) : Image := spread 255 input output

/-- `niti(num, threshold)`. -/
def niti (num threshold : Int) : Int := if num ≥ threshold then 1 else 0

/-- `MakeHistogram(image, histogram)`. -/
def makeHistogram (image : Image) : List Int :=
  forLoop 0 (image.width * image.height) (fun i histogram =>
    let graylevel := (image.imageData.getD i default).graylevel.toNat
    histogram.set graylevel (histogram.getD graylevel 0 + 1)) (List.replicate 256 0)

/-- `GetThreshold(image)`, with the loops over the histogram that `getThreshold` has too. An image without pixels
divides by zero. -/
def getThreshold (image : Image) : Option Int :=
  let histogram := makeHistogram image
  if image.width * image.height = 0 then none
  else
    let a := ((List.range 256).find? fun i => histogram.getD i 0 ≠ 0).getD 0
    let b := ((List.range 256).reverse.find? fun i => histogram.getD i 0 ≠ 0).getD 0
    let u0 := (ImageUtil.sumUp histogram 0 255).1.tdiv (image.width * image.height)
    let s := forLoop a (b + 1) (fun t (s : Float.Model × Int) =>
      if s.1 < ImageUtil.ratio histogram u0 a b t then (ImageUtil.ratio histogram u0 a b t, t) else s)
      (Float.Model.ofInt (-1), 0)
    some s.2

/-- `auto_niti(image)`. -/
def autoNiti (image : Image) : Option Image :=
  (getThreshold image).map fun threshold => image.forPixels fun _ d =>
    d.paint (UInt8.ofInt (niti d.graylevel.toNat threshold * 255))

/-- `RECT`. -/
structure Rect where
  left : Int
  top : Int
  right : Int
  bottom : Int
  deriving DecidableEq

/-- The rectangle with the pixel at `(i, j)` in it: `top` is set once. -/
def Rect.stretch (rc : Rect) (i j : Nat) : Rect where
  left := if rc.left ≥ i then i else rc.left
  top := if rc.top = -1 then j else rc.top
  right := if rc.right ≤ i then i else rc.right
  bottom := if rc.bottom ≤ j then j else rc.bottom

/-- The image, and the variables `area` and `rc` of `color_put`. -/
structure Picking where
  image : Image
  rc : Rect
  area : Nat

/-- The body of the loops of `color_put`. -/
def pickPixel (max : Int) (i j : Nat) (s : Picking) : Picking :=
  let k := i + j * s.image.width
  if ((s.image.px (i, j)).label.toNat : Int) = max then
    { image := s.image.modify k (ImageData.paint 255), rc := s.rc.stretch i j, area := s.area + 1 }
  else { s with image := s.image.modify k (ImageData.paint 0) }

/-- `color_put(image, max, rc)`: the area, the rectangle, and the image. -/
def colorPut (image : Image) (max : Int) : Nat × Rect × Image :=
  let s := forLoop 0 image.height (fun j => forLoop 0 image.width fun i => pickPixel max i j)
    ⟨image, ⟨image.width, -1, -1, -1⟩, 0⟩
  if s.area = 0 then (0, ⟨0, 0, 0, 0⟩, s.image) else (s.area, s.rc, s.image)

/-! ## The same picture -/

/-- The pixel has the colour, and the lightness with it. -/
structure Tints (d : ImageData) (p : Pixel) : Prop where
  red : d.rgbRed = p.red
  green : d.rgbGreen = p.green
  blue : d.rgbBlue = p.blue
  graylevel : d.graylevel = p.lightness

/-- Both programs have the same picture. -/
structure Mirrors (image : Image) (b : BiImage) : Prop where
  size : image.imageData.length = image.width * image.height
  width : image.width = b.width
  height : image.height = b.height
  clear : b.clearColor = Pixel.init
  tints : ∀ p, b.Inside p → Tints (image.px p) (b.get p.1 p.2)

variable {image output out : Image} {b b' : BiImage} {p : Nat × Nat} {v : UInt8}

theorem tints_paint (v : UInt8) (d : ImageData) (pixel : Pixel) : Tints (d.paint v) (pixel.setLightness v) :=
  ⟨rfl, rfl, rfl, (Pixel.lightness_gray v).symm⟩

theorem Mirrors.inside (h : Mirrors image b) : b.Inside p ↔ p.1 < image.width ∧ p.2 < image.height := by
  rw [Inside, h.width, h.height]

theorem Mirrors.shows (h : Mirrors image b) : Shows image b :=
  ⟨h.size, h.width, h.height, fun _ _ hp => (h.tints _ hp).graylevel⟩

/-- One pixel is changed. -/
theorem px_modify (hsize : image.imageData.length = image.width * image.height) {p q : Nat × Nat}
    (hp : p.1 < image.width ∧ p.2 < image.height) (hq : q.1 < image.width) (f : ImageData → ImageData) :
    (image.modify (p.1 + p.2 * image.width) f).px q = if q = p then f (image.px p) else image.px q := by
  have hlt : p.1 + p.2 * image.width < image.imageData.length := (index_lt hp.1 hp.2).trans_eq hsize.symm
  simp only [Image.px, Image.modify, List.getD_eq_getElem?_getD, List.getElem?_modify]
  by_cases hqp : q = p
  · subst hqp
    rw [if_pos rfl, List.getElem?_eq_getElem hlt]
    simp
  · have hne : p.1 + p.2 * image.width ≠ q.1 + q.2 * image.width := fun hk => hqp (index_inj hp.1 hq hk).symm
    simp [hqp, hne]

/-- **A loop over the pixels that changes each of them**, on an image as large as the one that is read. -/
theorem foldl_modify_px {w h : Nat} (hsize : image.imageData.length = image.width * image.height)
    (hw : image.width = w) (hh : image.height = h) (f : Nat × Nat → ImageData → ImageData) :
    let out := (raster 0 w 0 h).foldl (fun out p => out.modify (p.1 + p.2 * w) (f p)) image
    (out.imageData.length = image.imageData.length ∧ out.width = image.width ∧ out.height = image.height) ∧
      ∀ p : Nat × Nat, p.1 < w ∧ p.2 < h → out.px p = f p (image.px p) := by
  subst hw hh
  intro out
  have key := foldl_scan (l := raster 0 image.width 0 image.height) (s := image)
    (f := fun out p => out.modify (p.1 + p.2 * image.width) (f p))
    (fun pre t => (t.imageData.length = image.imageData.length ∧ t.width = image.width ∧ t.height = image.height) ∧
      ∀ q : Nat × Nat, q.1 < image.width ∧ q.2 < image.height →
        t.px q = if q ∈ pre then f q (image.px q) else image.px q) ⟨⟨rfl, rfl, rfl⟩, fun q _ => by simp⟩ ?_
  · refine ⟨key.1, fun p hp => (key.2 p hp).trans (if_pos ?_)⟩
    exact mem_raster.2 ⟨⟨Nat.zero_le _, hp.1⟩, Nat.zero_le _, hp.2⟩
  · rintro pre p post t hl ⟨⟨hlength, hwidth, hheight⟩, hpx⟩
    have hp : p ∈ raster 0 image.width 0 image.height := by simp [hl]
    rw [mem_raster] at hp
    have hnew : p ∉ pre := fun hmem => by
      have hnodup := raster_nodup 0 image.width 0 image.height
      rw [hl, List.nodup_append] at hnodup
      exact hnodup.2.2 p hmem p List.mem_cons_self rfl
    refine ⟨⟨by rw [Image.modify, List.length_modify, hlength], hwidth, hheight⟩, fun q hq => ?_⟩
    have hsize' : t.imageData.length = t.width * t.height := by rw [hlength, hsize, hwidth, hheight]
    have hp' : p.1 < t.width ∧ p.2 < t.height := by rw [hwidth, hheight]; exact ⟨hp.1.2, hp.2.2⟩
    have hmodify := px_modify hsize' hp' (hwidth ▸ hq.1) (f p)
    rw [hwidth] at hmodify
    rw [hmodify, hpx q hq, hpx p ⟨hp.1.2, hp.2.2⟩, if_neg hnew]
    by_cases hqp : q = p
    · simp [hqp]
    · simp [hqp]

/-! ## Growing and shrinking -/

theorem count_sim (h : Mirrors image b) (v : UInt8) (i j : Nat) : count v image i j = ImageUtil.count v b i j := by
  rw [count, ImageUtil.count]
  refine List.foldl_ext _ _ _ fun cnt k _ => List.foldl_ext _ _ _ fun cnt l _ => ?_
  rw [h.width, h.height]
  by_cases hout : i + l < 0 ∨ j + k < 0 ∨ (b.width : Int) ≤ i + l ∨ (b.height : Int) ≤ j + k
  · rw [if_pos hout, if_pos hout]
  · have hin : b.Inside ((i + l).toNat, (j + k).toNat) := ⟨by omega, by omega⟩
    have hx : ((i + l).toNat : Int) = i + l := by omega
    have hy : ((j + k).toNat : Int) = j + k := by omega
    have hgray := (h.tints _ hin).graylevel
    simp only [hx, hy] at hgray
    rw [if_neg hout, if_neg hout, hgray]

theorem tints_spread (h : Mirrors image b) (v : UInt8) (hp : b.Inside p) (d : ImageData) :
    Tints (spreadData v image p.1 p.2 d) (ImageUtil.spreadPixel v b p.1 p.2) := by
  have hpixel := h.tints p hp
  rw [spreadData, ImageUtil.spreadPixel, count_sim h, hpixel.graylevel]
  split_ifs
  · exact hpixel
  · exact tints_paint v d (Pixel.gray v)
  · exact hpixel

/-- What `expand` and `shrink` do, to an image as large as the one that they read. -/
theorem spread_spec (v : UInt8) (hsize : output.imageData.length = output.width * output.height)
    (hw : output.width = image.width) (hh : output.height = image.height) :
    ((spread v image output).imageData.length = image.width * image.height ∧
      (spread v image output).width = image.width ∧ (spread v image output).height = image.height) ∧
    ∀ p : Nat × Nat, p.1 < image.width ∧ p.2 < image.height →
      (spread v image output).px p = spreadData v image p.1 p.2 (output.px p) := by
  obtain ⟨⟨hlength, hwidth, hheight⟩, hpx⟩ := foldl_modify_px hsize hw hh fun p => spreadData v image p.1 p.2
  rw [spread, forLoop_forLoop]
  refine ⟨⟨hlength.trans ?_, hwidth.trans hw, hheight.trans hh⟩, hpx⟩
  rw [hsize, hw, hh]

/-- **`expand` and `shrink` do what `Expand` and `Shrink` do**, whatever has been in the image that they write to. -/
theorem mirrors_spread (h : Mirrors image b) (v : UInt8) (hsize : output.imageData.length = output.width * output.height)
    (hw : output.width = image.width) (hh : output.height = image.height) :
    Mirrors (spread v image output) (ImageUtil.spread v b) := by
  obtain ⟨hfr, hget⟩ := ImageUtil.spread_frame v b
  obtain ⟨⟨hlength, hwidth, hheight⟩, hpx⟩ := spread_spec v hsize hw hh
  refine ⟨?_, ?_, ?_, hfr.clear, fun p hp => ?_⟩
  · rw [hlength, hwidth, hheight]
  · exact hwidth.trans (h.width.trans hfr.width.symm)
  · exact hheight.trans (h.height.trans hfr.height.symm)
  · have hp' : b.Inside p := hfr.inside.1 hp
    rw [hpx p (h.inside.1 hp'), hget _ _ hp']
    exact tints_spread h v hp' _

/-! ## Two levels -/

theorem makeHistogram_sim (h : Mirrors image b) : makeHistogram image = ImageUtil.getHistogram b := by
  have hindex : List.range' 0 (image.width * image.height - 0) =
      (raster 0 image.width 0 image.height).map fun p => p.1 + p.2 * image.width := by
    rw [raster_index, Nat.sub_zero, List.range_eq_range']
  rw [makeHistogram, ImageUtil.getHistogram, forEach_eq, forLoop, hindex, List.foldl_map, h.height, h.width]
  refine List.foldl_ext _ _ _ fun histogram p hp => ?_
  have hgray := (h.tints p (ImageUtil.mem_raster_iff.1 hp)).graylevel
  rw [Image.px, h.width] at hgray
  rw [hgray]

theorem getThreshold_sim (h : Mirrors image b) : getThreshold image = ImageUtil.getThreshold b := by
  rw [getThreshold, ImageUtil.getThreshold, makeHistogram_sim h, h.width, h.height]

/-- A threshold is a lightness. -/
theorem exists_threshold {t : Int} (ht : ImageUtil.getThreshold b = some t) : ∃ n : Nat, t = n := by
  rw [ImageUtil.getThreshold] at ht
  split_ifs at ht with hempty
  rw [← Option.some.inj ht]
  refine foldl_scan_all (fun s : Float.Model × Int => ∃ n : Nat, s.2 = n) ⟨0, rfl⟩ fun t s _ hs => ?_
  dsimp only
  split_ifs
  · exact ⟨t, rfl⟩
  · exact hs

theorem get_binarizePixels (hclear : b.clearColor = Pixel.init) (n : Nat) (hp : b.Inside p) :
    (ImageUtil.binarizePixels b n).get p.1 p.2 = Pixel.gray (if n ≤ ImageUtil.lightness b p then 255 else 0) := by
  have hfr := ImageUtil.sameFrame_binarizePixels b n
  have hpx := (ImageUtil.px_binarizePixels n hp).trans (apply_ite Pixel.gray _ _ _).symm
  rw [get_of_not_empty (hfr.clear.trans hclear) (hfr.inside.2 hp) (by rw [hpx]; rfl), hpx]

/-- The loop of `auto_niti`. -/
theorem mirrors_niti (h : Mirrors image b) (n : Nat) :
    Mirrors (image.forPixels fun _ d => d.paint (UInt8.ofInt (niti d.graylevel.toNat n * 255)))
      (ImageUtil.binarizePixels b n) := by
  have hfr := ImageUtil.sameFrame_binarizePixels b n
  refine ⟨?_, ?_, ?_, hfr.clear.trans h.clear, fun p hp => ?_⟩
  · rw [forPixels_eq]
    exact foldl_scan_all (fun data : List ImageData => data.length = image.width * image.height) h.size
      fun k data _ hdata => (List.length_modify ..).trans hdata
  · rw [forPixels_eq]
    exact h.width.trans hfr.width.symm
  · rw [forPixels_eq]
    exact h.height.trans hfr.height.symm
  · have hp' := hfr.inside.1 hp
    rw [get_binarizePixels h.clear n hp', px_forPixels h.size _ (h.inside.1 hp'), (h.tints p hp').graylevel, niti,
      ImageUtil.lightness]
    simp only [ge_iff_le, Nat.cast_le]
    split_ifs
    · exact tints_paint 255 _ (Pixel.gray 255)
    · exact tints_paint 0 _ (Pixel.gray 0)

/-- **`auto_niti` does what `Binarize` does.** -/
theorem mirrors_autoNiti (h : Mirrors image b) :
    Option.Rel Mirrors (autoNiti image) ((ImageUtil.binarize b (-1)).map Prod.snd) := by
  rw [autoNiti, getThreshold_sim h, ImageUtil.binarize, if_pos rfl, Option.map_map]
  cases hthreshold : ImageUtil.getThreshold b with
  | none => exact .none
  | some t =>
    obtain ⟨n, rfl⟩ := exists_threshold hthreshold
    exact .some (mirrors_niti h n)

/-! ## Filters -/

/-- The filters of both programs. `expand` and `shrink` write to another image. -/
inductive Filter where
  | autoNiti
  | expand (output : Image)
  | shrink (output : Image)

/-- What a filter makes of the image. -/
def Filter.apply (image : Image) : Filter → Option Image
  | .autoNiti => Legacy.autoNiti image
  | .expand output => some (Legacy.expand image output)
  | .shrink output => some (Legacy.shrink image output)

/-- The filter that was written from it. -/
def Filter.renewed : Filter → ImageUtil.Filter
  | .autoNiti => .binarize (-1)
  | .expand _ => .expand
  | .shrink _ => .shrink

/-- The image that is written to has the size, whatever its pixels are. -/
def Filter.Room (width height : Nat) : Filter → Prop
  | .autoNiti => True
  | .expand output | .shrink output =>
    output.width = width ∧ output.height = height ∧ output.imageData.length = output.width * output.height

/-- No pixel has a label. -/
def Unlabelled (b : BiImage) : Prop := ∀ p, b.Inside p → (b.get p.1 p.2).label = 0

/-- **One filter.** -/
theorem filter_agrees (h : Mirrors image b) {f : Filter} (hroom : f.Room image.width image.height) (fuel : Nat) :
    Option.Rel Mirrors (f.apply image) (f.renewed.apply fuel b) := by
  cases f with
  | autoNiti => exact mirrors_autoNiti h
  | expand output => exact .some (mirrors_spread h 255 hroom.2.2 hroom.1 hroom.2.1)
  | shrink output => exact .some (mirrors_spread h 0 hroom.2.2 hroom.1 hroom.2.1)

/-- The size stays. -/
theorem size_apply {image' : Image} {f : Filter} (hroom : f.Room image.width image.height)
    (h : f.apply image = some image') : image'.width = image.width ∧ image'.height = image.height := by
  cases f with
  | autoNiti =>
    obtain ⟨t, -, rfl⟩ := Option.map_eq_some_iff.1 h
    rw [forPixels_eq]
    exact ⟨rfl, rfl⟩
  | expand output =>
    cases h
    exact (spread_spec 255 hroom.2.2 hroom.1 hroom.2.1).1.2
  | shrink output =>
    cases h
    exact (spread_spec 0 hroom.2.2 hroom.1 hroom.2.1).1.2

theorem unlabelled_spread (h : Unlabelled b) (v : UInt8) : Unlabelled (ImageUtil.spread v b) := by
  obtain ⟨hfr, hget⟩ := ImageUtil.spread_frame v b
  intro p hp
  have hp' : b.Inside p := hfr.inside.1 hp
  rw [hget _ _ hp', ImageUtil.spreadPixel]
  split_ifs
  · exact h p hp'
  · rfl
  · exact h p hp'

theorem unlabelled_binarize (hclear : b.clearColor = Pixel.init) {t : Int}
    (h : ImageUtil.binarize b (-1) = some (t, b')) : Unlabelled b' := by
  rw [ImageUtil.binarize, if_pos rfl, Option.map_eq_some_iff] at h
  obtain ⟨t, hthreshold, heq⟩ := h
  cases heq
  obtain ⟨n, rfl⟩ := exists_threshold hthreshold
  intro p hp
  rw [get_binarizePixels hclear n ((ImageUtil.sameFrame_binarizePixels b n).inside.1 hp)]
  rfl

theorem unlabelled_renewed (hclear : b.clearColor = Pixel.init) (h : Unlabelled b) {f : Filter} {fuel : Nat}
    (hrun : f.renewed.apply fuel b = some b') : Unlabelled b' := by
  cases f with
  | autoNiti =>
    obtain ⟨⟨t, b''⟩, hbinarize, rfl⟩ := Option.map_eq_some_iff.1 hrun
    exact unlabelled_binarize hclear hbinarize
  | expand output =>
    cases hrun
    exact unlabelled_spread h 255
  | shrink output =>
    cases hrun
    exact unlabelled_spread h 0

/-- **The filters one after the other**: both programs stop, since there is nothing to divide by, or they have the same
picture, whose pixels have no labels. -/
theorem run_agrees {w h : Nat} (hmirrors : Mirrors image b) (hunlabelled : Unlabelled b) (hw : image.width = w)
    (hh : image.height = h) {filters : List Filter} (hroom : ∀ f ∈ filters, f.Room w h) (fuel : Nat) :
    Option.Rel (fun image' b' => Mirrors image' b' ∧ Unlabelled b' ∧ image'.width = w ∧ image'.height = h)
      (filters.foldlM Filter.apply image) ((filters.map Filter.renewed).foldlM (ImageUtil.Filter.apply fuel) b) := by
  induction filters generalizing image b with
  | nil => exact .some ⟨hmirrors, hunlabelled, hw, hh⟩
  | cons f filters ih =>
    have hfirst : f.Room image.width image.height := hw ▸ hh ▸ hroom f List.mem_cons_self
    have hstep := filter_agrees hmirrors hfirst fuel
    rw [List.map_cons, List.foldlM_cons, List.foldlM_cons]
    generalize hlegacy : f.apply image = o at hstep
    generalize hrenewed : f.renewed.apply fuel b = o' at hstep
    cases hstep with
    | none => exact .none
    | some hmirrors' =>
      obtain ⟨hw', hh'⟩ := size_apply hfirst hlegacy
      exact ih hmirrors' (unlabelled_renewed hmirrors.clear hunlabelled hrenewed) (hw'.trans hw) (hh'.trans hh)
        fun g hg => hroom g (List.mem_cons_of_mem _ hg)

/-! ## One object -/

/-- What `color_put` makes of a pixel. -/
def picked (max : Int) (d : ImageData) : ImageData := d.paint (if (d.label.toNat : Int) = max then 255 else 0)

/-- The pixels of a label. -/
def found (image : Image) (max : Int) : List (Nat × Nat) :=
  (raster 0 image.width 0 image.height).filter fun p => ((image.px p).label.toNat : Int) = max

/-- The rectangle with these bounds. -/
def Rect.ofBounds (s : ImageUtil.Bounds) : Rect := ⟨s.left, s.top, s.right, s.bottom⟩

theorem label_modify (k : Nat) (max : Int) (p : Nat × Nat) :
    ((image.modify k (picked max)).px p).label = (image.px p).label := by
  simp only [Image.px, Image.modify, List.getD_eq_getElem?_getD, List.getElem?_modify]
  cases image.imageData[p.1 + p.2 * image.width]? with
  | none => rfl
  | some d =>
    show (if k = _ then picked max d else d).label = d.label
    split_ifs
    · rfl
    · rfl

/-- The pixel is painted by its label. -/
theorem modify_paint {max : Int} (hv : (if ((image.px p).label.toNat : Int) = max then 255 else 0) = v) :
    image.modify (p.1 + p.2 * image.width) (ImageData.paint v) =
      image.modify (p.1 + p.2 * image.width) (picked max) := by
  rw [Image.modify, Image.modify, modify_congr fun d hd => ?_]
  have hpx : image.px p = d := by rw [Image.px, List.getD_eq_getElem?_getD, hd, Option.getD_some]
  rw [hpx] at hv
  rw [picked, hv]

/-- **The loops of `color_put`**: every pixel is painted, those of the label are counted, and the rectangle gets them
one after the other. -/
theorem pick_foldl (image : Image) (max : Int) (rc : Rect) :
    (raster 0 image.width 0 image.height).foldl (fun s p => pickPixel max p.1 p.2 s) ⟨image, rc, 0⟩ =
      ⟨(raster 0 image.width 0 image.height).foldl
          (fun out p => out.modify (p.1 + p.2 * image.width) (picked max)) image,
        (found image max).foldl (fun rc p => rc.stretch p.1 p.2) rc, (found image max).length⟩ := by
  have key := foldl_scan (l := raster 0 image.width 0 image.height) (s := (⟨image, rc, 0⟩ : Picking))
    (f := fun s p => pickPixel max p.1 p.2 s)
    (fun pre s =>
      let mine := pre.filter fun p => ((image.px p).label.toNat : Int) = max
      (s.image.width = image.width ∧ ∀ q, (s.image.px q).label = (image.px q).label) ∧
      s = ⟨pre.foldl (fun out p => out.modify (p.1 + p.2 * image.width) (picked max)) image,
        mine.foldl (fun rc p => rc.stretch p.1 p.2) rc, mine.length⟩) ⟨⟨rfl, fun _ => rfl⟩, rfl⟩ ?_
  · exact key.2
  · rintro pre p post s - ⟨⟨hwidth, hlabel⟩, hs⟩
    have hpick : pickPixel max p.1 p.2 s = ⟨s.image.modify (p.1 + p.2 * s.image.width) (picked max),
        if ((image.px p).label.toNat : Int) = max then s.rc.stretch p.1 p.2 else s.rc,
        if ((image.px p).label.toNat : Int) = max then s.area + 1 else s.area⟩ := by
      simp only [pickPixel, hlabel]
      split_ifs with hmax
      · rw [modify_paint (by rw [hlabel, if_pos hmax])]
      · rw [modify_paint (by rw [hlabel, if_neg hmax])]
    refine ⟨?_, ?_⟩
    · rw [hpick]
      exact ⟨hwidth, fun q => (label_modify _ max q).trans (hlabel q)⟩
    · rw [hpick, hwidth]
      by_cases hmax : ((image.px p).label.toNat : Int) = max
      · simp [hs, hmax, List.filter_append]
      · simp [hs, hmax, List.filter_append]

/-- **The rectangle bounds the pixels**, which come row by row. -/
theorem stretch_tight {w : Nat} {l : List (Nat × Nat)} (hne : l ≠ []) (hl : ∀ p ∈ l, p.1 < w)
    (hrows : l.Pairwise fun p q => p.2 ≤ q.2) :
    ∃ s, l.foldl (fun rc p => rc.stretch p.1 p.2) ⟨w, -1, -1, -1⟩ = Rect.ofBounds s ∧ ImageUtil.Tight l s := by
  have key := foldl_scan (f := fun (rc : Rect) p => rc.stretch p.1 p.2) (l := l) (s := ⟨w, -1, -1, -1⟩)
    (fun pre rc => (pre = [] ∧ rc = ⟨w, -1, -1, -1⟩) ∨ ∃ s, rc = Rect.ofBounds s ∧ ImageUtil.Tight pre s)
    (.inl ⟨rfl, rfl⟩) ?_
  · exact key.resolve_left fun h => hne h.1
  · rintro pre p post rc hsplit (⟨rfl, rfl⟩ | ⟨s, rfl, hs⟩)
    · have hp : p.1 < w := hl p (by simp [hsplit])
      refine .inr ⟨⟨p.2, p.2, p.1, p.1⟩, ?_, by simp, by simp, by simp, by simp, by simp⟩
      rw [Rect.stretch, if_pos (by simpa using hp.le), if_pos rfl, if_pos (by simp), if_pos (by simp)]
      rfl
    · obtain ⟨q, hq, htop⟩ := hs.top
      have hle : s.top ≤ p.2 := by
        rw [hsplit, List.pairwise_append] at hrows
        exact htop ▸ hrows.2.2 q hq p List.mem_cons_self
      refine .inr ⟨s.stretch p.1 p.2, ?_, hs.step p⟩
      simp only [Rect.stretch, Rect.ofBounds, ImageUtil.Bounds.stretch, Rect.mk.injEq, Nat.cast_ite]
      refine ⟨?_, ?_, ?_, ?_⟩
      · split_ifs <;> omega
      · have hset : ¬(s.top : Int) = -1 := by omega
        exact (if_neg hset).trans (if_neg (by omega)).symm
      · split_ifs <;> omega
      · split_ifs <;> omega

/-- **What `color_put` does.** -/
theorem colorPut_spec (hsize : image.imageData.length = image.width * image.height) (max : Int) :
    (colorPut image max).1 = (found image max).length ∧
    ((found image max = [] → (colorPut image max).2.1 = ⟨0, 0, 0, 0⟩) ∧
      (found image max ≠ [] →
        ∃ s, (colorPut image max).2.1 = Rect.ofBounds s ∧ ImageUtil.Tight (found image max) s)) ∧
    ((colorPut image max).2.2.imageData.length = image.imageData.length ∧
      (colorPut image max).2.2.width = image.width ∧ (colorPut image max).2.2.height = image.height) ∧
    ∀ p : Nat × Nat, p.1 < image.width ∧ p.2 < image.height →
      (colorPut image max).2.2.px p = picked max (image.px p) := by
  have hpainted := foldl_modify_px hsize rfl rfl fun _ => picked max
  have hrun : forLoop 0 image.height (fun j => forLoop 0 image.width fun i => pickPixel max i j)
      ⟨image, ⟨image.width, -1, -1, -1⟩, 0⟩ = _ := (forLoop_forLoop ..).trans (pick_foldl image max _)
  rw [colorPut, hrun]
  dsimp only
  by_cases hempty : found image max = []
  · have hzero : (found image max).length = 0 := List.length_eq_zero_iff.2 hempty
    rw [if_pos hzero]
    exact ⟨hzero.symm, ⟨fun _ => rfl, fun h => absurd hempty h⟩, hpainted⟩
  · have hpos : (found image max).length ≠ 0 := fun h => hempty (List.length_eq_zero_iff.1 h)
    rw [if_neg hpos]
    refine ⟨rfl, ⟨fun h => absurd h hempty, fun _ => stretch_tight hempty (fun p hp => ?_) ?_⟩, hpainted⟩
    · exact (mem_raster.1 (List.mem_of_mem_filter hp)).1.2
    · refine List.Pairwise.filter _ ((raster_pairwise _ _ _ _).imp fun {p q} hlt => ?_)
      rcases hlt with hlt | hlt
      · exact hlt.le
      · exact hlt.1.le

/-- **An object that both programs take out** of images with the same labels. -/
theorem object_sim (hsize : out.imageData.length = out.width * out.height) (hw : out.width = b'.width)
    (hh : out.height = b'.height) (hclear : b'.clearColor = Pixel.init)
    (hlabels : ∀ p, b'.Inside p → ((out.px p).label.toNat : Int) = (b'.get p.1 p.2).label) (max : Int) :
    (colorPut out max).1 = (ImageUtil.samplingObject b' max).1 ∧
      Mirrors (colorPut out max).2.2 (ImageUtil.samplingObject b' max).2 := by
  obtain ⟨harea, -, ⟨hlength, hwidth, hheight⟩, hpx⟩ := colorPut_spec hsize max
  obtain ⟨hfr, hget, harea'⟩ := ImageUtil.samplingObject_spec hclear max
  refine ⟨?_, ?_, ?_, ?_, hfr.clear.trans hclear, fun p hp => ?_⟩
  · rw [harea, harea', found, ← List.countP_eq_length_filter, hw, hh, ImageUtil.area, ImageUtil.object,
      ← ImageUtil.countP_raster]
    refine List.countP_congr fun p hp => ?_
    rw [hlabels p (ImageUtil.mem_raster_iff.1 hp)]
  · rw [hlength, hwidth, hheight, hsize]
  · rw [hwidth, hfr.width, hw]
  · rw [hheight, hfr.height, hh]
  · have hp' : b'.Inside p := hfr.inside.1 hp
    rw [hpx p (by rw [hw, hh]; exact hp'), hget p hp', picked, hlabels p hp', ImageUtil.sampled]
    exact tints_paint _ _ _

/-- **Both programs take the same objects out**: if no more than 255 labels are handed out, they find as many objects,
and for every label the same area and the same picture; and the rectangle bounds the object. -/
def SameObjects (fuel : Nat) (image : Image) (b : BiImage) : Prop :=
  ∃ t n out', ImageUtil.passes fuel b = some t ∧ ImageUtil.labeling fuel b = some (n, out') ∧
    (t.labelCount - 1 ≤ 255 → ∃ out, label fuel image = some (n, out) ∧ ∀ max,
      (colorPut out max).1 = (ImageUtil.samplingObject out' max).1 ∧
      Mirrors (colorPut out max).2.2 (ImageUtil.samplingObject out' max).2 ∧
      (found out max = [] → (colorPut out max).2.1 = ⟨0, 0, 0, 0⟩) ∧
      (found out max ≠ [] → ∃ s, (colorPut out max).2.1 = Rect.ofBounds s ∧ ImageUtil.Tight (found out max) s))

theorem sameObjects (h : Mirrors image b) (hunlabelled : Unlabelled b) {fuel : Nat}
    (hfuel : image.width * image.height < fuel) : SameObjects fuel image b := by
  rw [h.width, h.height] at hfuel
  obtain ⟨t, out', hpasses, ht, hlabeling, hfr, hget⟩ := ImageUtil.labeling_spec b hfuel
  have hcount : t.labelCount = (ImageUtil.secondSwept b).next := ht.count
  refine ⟨t, _, out', hpasses, hlabeling, fun hfew => ?_⟩
  obtain ⟨out, hlabel, hpicture, hout⟩ := label_spec h.shows hfuel (by omega)
  have hsize := hpicture.size h.size
  have hlabels : ∀ p, out'.Inside p → ((out.px p).label.toNat : Int) = (out'.get p.1 p.2).label := by
    intro p hp
    have hp' : b.Inside p := hfr.inside.1 hp
    have hread : (out.px p).label.toNat = _ := hout p.1 p.2 hp'
    rw [hread, hget p.1 p.2 hp']
    by_cases hwhite : ImageUtil.InnerWhite b p
    · rw [if_pos hwhite, if_pos hwhite]
      rfl
    · rw [if_neg hwhite, if_neg hwhite, hunlabelled p hp']
      rfl
  refine ⟨out, hlabel, fun max => ?_⟩
  obtain ⟨harea, hpicked⟩ := object_sim hsize (hpicture.width.trans (h.width.trans hfr.width.symm))
    (hpicture.height.trans (h.height.trans hfr.height.symm)) (hfr.clear.trans h.clear) hlabels max
  exact ⟨harea, hpicked, (colorPut_spec hsize max).2.1⟩

/-- An image whose pixels are gray, and its copy in the other program. -/
theorem mirrors_shown (h : Valid image) (hgray : ∀ d ∈ image.imageData, d.paint d.graylevel = d) :
    Mirrors image (shown image h) := by
  have hframe := sameFrame_ofFn image.width image.height h.width_lt h.height_lt
    fun x y => Pixel.gray (image.px (x, y)).graylevel
  refine ⟨h.size, hframe.width.symm, hframe.height.symm, hframe.clear, fun p hp => ?_⟩
  obtain ⟨hx, hy⟩ := (inside_shown h).1 hp
  have hmem : image.px p ∈ image.imageData := by
    rw [Image.px, List.getD_eq_getElem _ _ ((index_lt hx hy).trans_eq h.size.symm)]
    exact List.getElem_mem _
  rw [get_shown h hp, ← hgray _ hmem]
  exact tints_paint _ _ (Pixel.gray (image.px p).graylevel)

/-- A white pixel in the middle of a 3 × 3 image, and an image to write to. -/
def grayDot : Image := { dot with imageData := dot.imageData.map fun d => d.paint d.graylevel }

theorem valid_grayDot : Valid grayDot := ⟨by simp [grayDot, dot], by simp [grayDot, dot], by simp [grayDot, dot]⟩

/-- **From a picture to its objects**: both programs stop in a filter, or have the same picture after the filters, and
take the same objects out of it. -/
theorem pipeline_agrees (h : Mirrors image b) (hunlabelled : Unlabelled b) {filters : List Filter}
    (hroom : ∀ f ∈ filters, f.Room image.width image.height) {fuel : Nat}
    (hfuel : image.width * image.height < fuel) :
    Option.Rel (fun image' b' => Mirrors image' b' ∧ SameObjects fuel image' b') (filters.foldlM Filter.apply image)
      ((filters.map Filter.renewed).foldlM (ImageUtil.Filter.apply fuel) b) := by
  have hrun := run_agrees h hunlabelled rfl rfl hroom fuel
  generalize filters.foldlM Filter.apply image = o at hrun ⊢
  generalize (filters.map Filter.renewed).foldlM (ImageUtil.Filter.apply fuel) b = o' at hrun ⊢
  cases hrun with
  | none => exact .none
  | some hrel =>
    obtain ⟨hmirrors, hunlabelled', hw, hh⟩ := hrel
    exact .some ⟨hmirrors, sameObjects hmirrors hunlabelled' (by rwa [hw, hh])⟩

theorem pipeline_agrees_grayDot :
    let filters : List Filter := [.autoNiti, .expand dot, .shrink dot]
    Option.Rel (fun image' b' => Mirrors image' b' ∧ SameObjects 10 image' b') (filters.foldlM Filter.apply grayDot)
      ((filters.map Filter.renewed).foldlM (ImageUtil.Filter.apply 10) (shown grayDot valid_grayDot)) := by
  intro filters
  have hunlabelled : Unlabelled (shown grayDot valid_grayDot) := fun p hp => by
    rw [get_shown valid_grayDot hp]
    rfl
  exact pipeline_agrees (mirrors_shown valid_grayDot (by decide)) hunlabelled
    (by simp [filters, Filter.Room, grayDot, dot]) (by simp [grayDot, dot])

end LeftFelt.Legacy
