import LeftFelt.Image.Access
import LeftFelt.Image.Histogram
import LeftFelt.Image.LegacyLabel

/-!
# Gain and brightness

Two filters that leave it to the conversion to `unsigned char` what becomes of a number that is not a channel value.
`ImageUtil::Incline` multiplies and narrows, where the legacy `incline` limits first (`gainAgrees_iff`).
`ImageUtil::Brightness` adds the distance of the mean lightness from the wanted one, as a `Pixel`: a negative distance
is narrowed to a positive one (`brightened_iff`).
-/

namespace LeftFelt.ImageUtil

open Lib BiImage

/-! ## Gain: the code -/

/-- The cast `(int)x`, and `none` outside of an `int`. -/
def castInt (x : ℚ) : Option Int :=
  let n := if x < 0 then ⌈x⌉ else ⌊x⌋
  if -2 ^ 31 ≤ n ∧ n < 2 ^ 31 then some n else none

/-- The pixel that `Incline` puts. -/
def gainPixel (R G B : ℚ) (pixel : Pixel) : Option Pixel :=
  (castInt (R * pixel.red.toNat)).bind fun r => (castInt (G * pixel.green.toNat)).bind fun g =>
    (castInt (B * pixel.blue.toNat)).map fun b => Pixel.rgb (UInt8.ofInt r) (UInt8.ofInt g) (UInt8.ofInt b)

/-- `Incline(image, R, G, B)`. -/
def incline (image : BiImage) (R G B : ℚ) : Option BiImage :=
  Checked.forLoop 0 image.height (fun j => Checked.forLoop 0 image.width fun i out =>
    (gainPixel R G B (out.get i j)).map fun pixel => out.put i j pixel) image

end LeftFelt.ImageUtil

namespace LeftFelt.Legacy

open Lib

/-- `limit(num, up, down)`. -/
def limit (num up down : Int) : Int := if num > up then up else if num < down then down else num

/-- The pixel that `incline` makes of one. -/
def gainData (R G B : ℚ) (d : ImageData) : Option ImageData :=
  (ImageUtil.castInt (d.rgbRed.toNat * R)).bind fun r => (ImageUtil.castInt (d.rgbGreen.toNat * G)).bind fun g =>
    (ImageUtil.castInt (d.rgbBlue.toNat * B)).map fun b =>
      let red := UInt8.ofInt (limit r 255 0)
      let green := UInt8.ofInt (limit g 255 0)
      let blue := UInt8.ofInt (limit b 255 0)
      { d with
        rgbRed := red
        rgbGreen := green
        rgbBlue := blue
        graylevel := UInt8.ofNat ((red.toNat + green.toNat + blue.toNat) / 3) }

/-- `*(image->image_data + i) = data`. -/
def Image.store (image : Image) (i : Nat) (d : ImageData) : Image :=
  { image with imageData := image.imageData.set i d }

/-- `incline(image, outimage, R, G, B)`: the loop has as many steps as `image` has pixels. -/
def incline (image outimage : Image) (R G B : ℚ) : Option Image :=
  Checked.forLoop 0 (image.width * image.height) (fun i out =>
    (gainData R G B (out.imageData.getD i default)).map fun d => out.store i d) outimage

/-- The image has the colours of the `biImage`. -/
structure ShowsColours (image : Image) (b : BiImage) : Prop where
  size : image.imageData.length = image.width * image.height
  width : image.width = b.width
  height : image.height = b.height
  red : ∀ x y : Nat, b.Inside (x, y) → (image.px (x, y)).rgbRed = (b.get x y).red
  green : ∀ x y : Nat, b.Inside (x, y) → (image.px (x, y)).rgbGreen = (b.get x y).green
  blue : ∀ x y : Nat, b.Inside (x, y) → (image.px (x, y)).rgbBlue = (b.get x y).blue

/-- The pixels of an image are a table that is changed in place. -/
theorem table (image : Image) : InPlace.Table
    (fun t : Image => t.imageData.length = image.imageData.length ∧ t.width = image.width)
    (fun i => i < image.imageData.length) (fun t i => t.imageData.getD i default) Image.store where
  good t i d ht _ := ⟨List.length_set.trans ht.1, ht.2⟩
  read t i k d ht hi hk := by
    simp only [Image.store, List.getD_eq_getElem?_getD, List.getElem?_set]
    by_cases hki : k = i
    · subst hki
      rw [if_pos rfl, if_pos (ht.1 ▸ hi), if_pos rfl]
      rfl
    · rw [if_neg (Ne.symm hki), if_neg hki]

variable {image outimage out : Image} {R G B : ℚ}

theorem incline_eq (hsize : outimage.imageData.length = outimage.width * outimage.height)
    (hsteps : image.width * image.height = outimage.width * outimage.height) : incline image outimage R G B =
      (List.range outimage.imageData.length).foldlM
        (fun out i => (gainData R G B (out.imageData.getD i default)).map (out.store i)) outimage := by
  rw [incline, Checked.forLoop, Nat.sub_zero, ← List.range_eq_range', hsteps, ← hsize]

/-- **The legacy loop** treats every pixel on its own. -/
theorem incline_iff (hsize : outimage.imageData.length = outimage.width * outimage.height)
    (hsteps : image.width * image.height = outimage.width * outimage.height) {g : Nat → ImageData} :
    (∃ out, incline image outimage R G B = some out ∧
      ∀ i < outimage.imageData.length, out.imageData.getD i default = g i) ↔
      ∀ i < outimage.imageData.length, gainData R G B (outimage.imageData.getD i default) = some (g i) := by
  have hiff := InPlace.foldlM_pointwise (F := fun d _ => gainData R G B d) (g := g)
    (l := List.range outimage.imageData.length) (table outimage) ⟨rfl, rfl⟩ (fun i hi => List.mem_range.1 hi)
    List.nodup_range fun _ _ _ _ => rfl
  simp only [List.mem_range] at hiff
  rw [incline_eq hsize hsteps]
  exact hiff

theorem width_incline (hsize : outimage.imageData.length = outimage.width * outimage.height)
    (hsteps : image.width * image.height = outimage.width * outimage.height)
    (hrun : incline image outimage R G B = some out) : out.width = outimage.width := by
  rw [incline_eq hsize hsteps] at hrun
  exact (InPlace.foldlM_frame (table outimage) ⟨rfl, rfl⟩ (fun i hi => List.mem_range.1 hi) hrun).1.2

end LeftFelt.Legacy

namespace LeftFelt.ImageUtil

open Lib BiImage

/-! ## Gain: one pixel -/

variable {image out : BiImage} {input legacy : Legacy.Image} {p : Nat × Nat} {R G B x : ℚ} {n : Int}

theorem castInt_of_nonneg (hx : 0 ≤ x) : castInt x = if ⌊x⌋ < 2 ^ 31 then some ⌊x⌋ else none := by
  have hfloor := Int.floor_nonneg.2 hx
  have hlow : (-2 ^ 31 : Int) ≤ ⌊x⌋ := le_trans (by norm_num) hfloor
  simp only [castInt, if_neg (not_lt.2 hx), hlow, true_and]

/-- A channel of a pixel, the same field of a legacy pixel, and what they are multiplied by. -/
structure Gain where
  channel : Pixel → UInt8
  field : Legacy.ImageData → UInt8
  gain : ℚ

/-- The three gains. -/
def gains (R G B : ℚ) : List Gain :=
  [⟨Pixel.red, (·.rgbRed), R⟩, ⟨Pixel.green, (·.rgbGreen), G⟩, ⟨Pixel.blue, (·.rgbBlue), B⟩]

/-- Products that are narrowed as they should be: they fit an `int`, and a channel, or look like 255. -/
def Narrows (n : Int) : Prop := n < 2 ^ 31 ∧ (n ≤ 255 ∨ n % 256 = 255)

instance (n : Int) : Decidable (Narrows n) := inferInstanceAs (Decidable (_ ∧ _))

/-- The truncated product. -/
def product (r : ℚ) (v : UInt8) : Int := ⌊r * v.toNat⌋

theorem forall_gains {Q : Gain → Prop} : (∀ k ∈ gains R G B, Q k) ↔
    Q ⟨Pixel.red, (·.rgbRed), R⟩ ∧ Q ⟨Pixel.green, (·.rgbGreen), G⟩ ∧ Q ⟨Pixel.blue, (·.rgbBlue), B⟩ := by
  simp only [gains, List.forall_mem_cons, List.not_mem_nil, IsEmpty.forall_iff, implies_true, and_true]

theorem product_nonneg (hR : 0 ≤ R) (v : UInt8) : 0 ≤ product R v := Int.floor_nonneg.2 (by positivity)

theorem castInt_mul_eq_some (hR : 0 ≤ R) {v : UInt8} :
    castInt (R * v.toNat) = some n ↔ product R v < 2 ^ 31 ∧ product R v = n := by
  rw [castInt_of_nonneg (by positivity), Option.ite_none_right_eq_some, Option.some_inj]
  rfl

/-- The pixel of the narrowed products. -/
def inclined (R G B : ℚ) (pixel : Pixel) : Pixel :=
  Pixel.rgb (UInt8.ofInt (product R pixel.red)) (UInt8.ofInt (product G pixel.green))
    (UInt8.ofInt (product B pixel.blue))

theorem channel_inclined (pixel : Pixel) : ∀ k ∈ gains R G B,
    k.channel (inclined R G B pixel) = UInt8.ofInt (product k.gain (k.channel pixel)) := by
  rw [forall_gains]
  exact ⟨rfl, rfl, rfl⟩

theorem gainPixel_eq_some (hR : 0 ≤ R) (hG : 0 ≤ G) (hB : 0 ≤ B) {pixel a : Pixel} :
    gainPixel R G B pixel = some a ↔ (∀ k ∈ gains R G B, product k.gain (k.channel pixel) < 2 ^ 31) ∧
      inclined R G B pixel = a := by
  rw [gainPixel, forall_gains]
  simp only [Option.bind_eq_some_iff, Option.map_eq_some_iff, castInt_mul_eq_some hR, castInt_mul_eq_some hG,
    castInt_mul_eq_some hB]
  constructor
  · rintro ⟨_, ⟨hr, rfl⟩, _, ⟨hg, rfl⟩, _, ⟨hb, rfl⟩, rfl⟩
    exact ⟨⟨hr, hg, hb⟩, rfl⟩
  · rintro ⟨⟨hr, hg, hb⟩, rfl⟩
    exact ⟨_, ⟨hr, rfl⟩, _, ⟨hg, rfl⟩, _, ⟨hb, rfl⟩, rfl⟩

theorem gainData_eq_some (hR : 0 ≤ R) (hG : 0 ≤ G) (hB : 0 ≤ B) {d : Legacy.ImageData}
    (hfits : ∀ k ∈ gains R G B, product k.gain (k.field d) < 2 ^ 31) : ∃ a, Legacy.gainData R G B d = some a ∧
      ∀ k ∈ gains R G B, k.field a = UInt8.ofInt (Legacy.limit (product k.gain (k.field d)) 255 0) := by
  obtain ⟨hr, hg, hb⟩ := forall_gains.1 hfits
  rw [Legacy.gainData, mul_comm, (castInt_mul_eq_some hR).2 ⟨hr, rfl⟩, mul_comm (d.rgbGreen.toNat : ℚ),
    (castInt_mul_eq_some hG).2 ⟨hg, rfl⟩, mul_comm (d.rgbBlue.toNat : ℚ), (castInt_mul_eq_some hB).2 ⟨hb, rfl⟩]
  exact ⟨_, rfl, forall_gains.2 ⟨rfl, rfl, rfl⟩⟩

/-- Narrowing is limiting exactly for these. -/
theorem toNat_ofInt_eq_min_iff (h0 : 0 ≤ n) : ((UInt8.ofInt n).toNat : Int) = min 255 n ↔ n ≤ 255 ∨ n % 256 = 255 := by
  rw [UInt8.ofInt, UInt8.toNat_ofNat']
  omega

theorem toNat_ofInt_limit (h0 : 0 ≤ n) : ((UInt8.ofInt (Legacy.limit n 255 0)).toNat : Int) = min 255 n := by
  have hlimit : Legacy.limit n 255 0 = min 255 n := by
    unfold Legacy.limit
    split_ifs <;> omega
  rw [hlimit, Pixel.toNat_ofInt (by omega) (by omega)]

/-! ## Gain: the image -/

/-- Both programs give the same colours, and these are the products limited to 255. -/
def GainAgrees (image : BiImage) (input legacy : Legacy.Image) (R G B : ℚ) : Prop :=
  ∃ out old, incline image R G B = some out ∧ Legacy.incline input legacy R G B = some old ∧
    ∀ p, image.Inside p → ∀ k ∈ gains R G B, k.channel (out.px p) = k.field (old.px p) ∧
      ((k.channel (out.px p)).toNat : Int) = min 255 (product k.gain (k.channel (image.get p.1 p.2)))

theorem incline_iff {g : Nat × Nat → Pixel} : (∃ out, incline image R G B = some out ∧
      ∀ p, image.Inside p → out.px p = g p) ↔
    ∀ p, image.Inside p → gainPixel R G B (image.get p.1 p.2) = some (g p) := by
  have hiff := foldlM_put_pointwise (f := fun t p => gainPixel R G B (t.get p.1 p.2)) (g := g)
    (F := fun pixel _ => gainPixel R G B (viewed image pixel)) fun t p ht hp => by
      rw [get_eq_viewed (ht.inside.2 hp), viewed_congr ht]
  rw [incline, Checked.forLoop_forLoop]
  refine hiff.trans (forall₂_congr fun p hp => ?_)
  rw [get_eq_viewed hp]

theorem exists_index {w h i : Nat} (hi : i < w * h) : ∃ p : Nat × Nat, p.1 < w ∧ p.2 < h ∧ p.1 + p.2 * w = i := by
  have hw : 0 < w := Nat.pos_of_ne_zero (by rintro rfl; omega)
  have hy : i / w < h := by rwa [Nat.div_lt_iff_lt_mul hw, Nat.mul_comm]
  exact ⟨(i % w, i / w), Nat.mod_lt i hw, hy, Nat.mod_add_div' i w⟩

/-- **When the two programs agree**: where every product is narrowed to what it is limited to. -/
theorem gainAgrees_iff (hR : 0 ≤ R) (hG : 0 ≤ G) (hB : 0 ≤ B) (hshows : Legacy.ShowsColours legacy image)
    (hsteps : input.width * input.height = legacy.width * legacy.height) :
    GainAgrees image input legacy R G B ↔ ∀ p, image.Inside p → ∀ k ∈ gains R G B,
      Narrows (product k.gain (k.channel (image.get p.1 p.2))) := by
  have hgains : ∀ k ∈ gains R G B, 0 ≤ k.gain := forall_gains.2 ⟨hR, hG, hB⟩
  have hfield : ∀ p, image.Inside p → ∀ k ∈ gains R G B, k.field (legacy.px p) = k.channel (image.get p.1 p.2) :=
    fun p hp => forall_gains.2 ⟨hshows.red p.1 p.2 hp, hshows.green p.1 p.2 hp, hshows.blue p.1 p.2 hp⟩
  constructor
  · rintro ⟨out, old, hrun, -, hcolours⟩ p hp k hk
    have hput := incline_iff.1 ⟨out, hrun, fun _ _ => rfl⟩ p hp
    obtain ⟨hfits, hpx⟩ := (gainPixel_eq_some hR hG hB).1 hput
    have hmin := (hcolours p hp k hk).2
    rw [← hpx, channel_inclined _ k hk, toNat_ofInt_eq_min_iff (product_nonneg (hgains k hk) _)] at hmin
    exact ⟨hfits k hk, hmin⟩
  · intro hnarrows
    obtain ⟨out, hrun, hpx⟩ := incline_iff.2 fun p hp => (gainPixel_eq_some hR hG hB).2
      ⟨fun k hk => (hnarrows p hp k hk).1, rfl⟩
    -- the legacy loop goes through the same products
    have hdata : ∀ i < legacy.imageData.length, ∃ d,
        Legacy.gainData R G B (legacy.imageData.getD i default) = some d ∧ ∀ k ∈ gains R G B, k.field d =
          UInt8.ofInt (Legacy.limit (product k.gain (k.field (legacy.imageData.getD i default))) 255 0) := by
      intro i hi
      obtain ⟨p, hx, hy, rfl⟩ := exists_index (hi.trans_eq hshows.size)
      have hp : image.Inside p := ⟨hshows.width ▸ hx, hshows.height ▸ hy⟩
      refine gainData_eq_some hR hG hB fun k hk => ?_
      rw [← Legacy.Image.px, hfield p hp k hk]
      exact (hnarrows p hp k hk).1
    choose! d hd using hdata
    obtain ⟨old, hold, hdata⟩ := (Legacy.incline_iff hshows.size hsteps).2 fun i hi => (hd i hi).1
    have hwidth := Legacy.width_incline hshows.size hsteps hold
    refine ⟨out, old, hrun, hold, fun p hp k hk => ?_⟩
    have hi : p.1 + p.2 * legacy.width < legacy.imageData.length :=
      (index_lt (by rw [hshows.width]; exact hp.1) (by rw [hshows.height]; exact hp.2)).trans_eq hshows.size.symm
    have hnonneg := product_nonneg (hgains k hk) (k.channel (image.get p.1 p.2))
    have hnew : ((k.channel (out.px p)).toNat : Int) = min 255 (product k.gain (k.channel (image.get p.1 p.2))) := by
      rw [hpx p hp, channel_inclined _ k hk, (toNat_ofInt_eq_min_iff hnonneg).2 (hnarrows p hp k hk).2]
    have hlimited : ((k.field (old.px p)).toNat : Int) = min 255 (product k.gain (k.channel (image.get p.1 p.2))) := by
      rw [Legacy.Image.px, hwidth, hdata _ hi, (hd _ hi).2 k hk, ← Legacy.Image.px, hfield p hp k hk,
        toNat_ofInt_limit hnonneg]
    exact ⟨UInt8.toNat_inj.1 (by exact_mod_cast hnew.trans hlimited.symm), hnew⟩

/-- One gray pixel, in both programs. -/
def grayDot : BiImage := ofFn 1 1 one_fits one_fits fun _ _ => Pixel.gray 100

def legacyDot : Legacy.Image := ⟨1, 1, [⟨100, 100, 100, 0, 100, 0⟩]⟩

theorem eq_origin (hp : grayDot.Inside p) : p = (0, 0) := by
  obtain ⟨x, y⟩ := p
  obtain ⟨hx, hy⟩ := hp
  have hw : grayDot.width = 1 := by decide
  have hh : grayDot.height = 1 := by decide
  obtain rfl : x = 0 := by omega
  obtain rfl : y = 0 := by omega
  rfl

theorem showsColours_dot : Legacy.ShowsColours legacyDot grayDot := by
  have horigin : ∀ {x y : Nat}, grayDot.Inside (x, y) → x = 0 ∧ y = 0 := fun hp => Prod.mk.inj (eq_origin hp)
  refine ⟨by decide, by decide, by decide, fun x y hp => ?_, fun x y hp => ?_, fun x y hp => ?_⟩
  · obtain ⟨rfl, rfl⟩ := horigin hp
    decide
  · obtain ⟨rfl, rfl⟩ := horigin hp
    decide
  · obtain ⟨rfl, rfl⟩ := horigin hp
    decide

/-- Twice 100 is a channel value. -/
theorem gainAgrees_dot : GainAgrees grayDot legacyDot legacyDot 2 1 (1 / 2) :=
  (gainAgrees_iff (by norm_num) (by norm_num) (by norm_num) showsColours_dot rfl).2 fun p hp => by
    obtain rfl := eq_origin hp
    exact forall_gains.2 ⟨by decide +kernel, by decide +kernel, by decide +kernel⟩

/-- Three times 100 is narrowed to 44. -/
theorem not_gainAgrees_dot : ¬GainAgrees grayDot legacyDot legacyDot 3 1 1 := by
  rintro ⟨out, old, hrun, -, hcolours⟩
  have hred : (incline grayDot 3 1 1).map (fun out => (out.px (0, 0)).red) = some 44 := by decide +kernel
  rw [hrun, Option.map_some, Option.some_inj] at hred
  obtain ⟨-, hproduct⟩ := hcolours (0, 0) (by decide) ⟨Pixel.red, (·.rgbRed), 3⟩ List.mem_cons_self
  simp only [hred] at hproduct
  revert hproduct
  decide +kernel

/-! ## Brightness -/

/-- `average` and `count` after the loops. -/
def brightnessSums (image : BiImage) : Int × Int :=
  forLoop 0 image.height (fun j => forLoop 0 image.width fun i s =>
    let pixel := image.get i j
    if pixel.lightness ≠ 255 then (s.1 + pixel.lightness.toNat, s.2 + 1) else s) (0, 0)

/-- `*this += pixel`. -/
def addAssign (this : BiImage) (pixel : Pixel) : BiImage :=
  forEach this.width this.height (fun i j out =>
    out.write (i + j * out.width) ((out.read (i + j * out.width)).add pixel)) this

/-- `Brightness(image, threshold)`, and `none` where the sum has left an `int` or is divided by zero. -/
def brightness (image : BiImage) (threshold : Int) : Option BiImage :=
  let (average, count) := brightnessSums image
  if average < 2 ^ 31 ∧ count ≠ 0 then
    some (addAssign image (Pixel.gray (UInt8.ofInt (threshold - average.tdiv count))))
  else none

/-- The lightness of the pixels that are not white. -/
def toned (image : BiImage) : List Nat := ((grid image).map (lightness image)).filter (· ≠ 255)

/-- Their truncated mean. -/
def tonedMean (image : BiImage) : Nat := (toned image).sum / (toned image).length

theorem brightnessSums_eq (image : BiImage) :
    brightnessSums image = ((((toned image).sum : Nat) : Int), (((toned image).length : Nat) : Int)) := by
  have key : ∀ (l : List (Nat × Nat)) (s : Int × Int), l.foldl (fun s p =>
      if (image.get p.1 p.2).lightness ≠ 255 then (s.1 + ((image.get p.1 p.2).lightness.toNat : Int), s.2 + 1)
      else s) s =
      (s.1 + (((l.map (lightness image)).filter (· ≠ 255)).sum : Nat),
        s.2 + (((l.map (lightness image)).filter (· ≠ 255)).length : Nat)) := by
    intro l
    induction l with
    | nil => simp
    | cons p l ih =>
      intro s
      have hwhite : (image.get p.1 p.2).lightness ≠ 255 ↔ lightness image p ≠ 255 := by
        rw [lightness, Ne, Ne, ← UInt8.toNat_inj]
        rfl
      rw [List.foldl_cons, ih, List.map_cons]
      by_cases hp : lightness image p ≠ 255
      · rw [if_pos (hwhite.2 hp), List.filter_cons_of_pos (by simpa using hp), List.sum_cons, List.length_cons]
        simp only [lightness]
        push_cast
        ring_nf
      · rw [if_neg (mt hwhite.1 hp), List.filter_cons_of_neg (by simpa using hp)]
  have hall := key (grid image) (0, 0)
  rw [brightnessSums, forLoop_forLoop]
  refine hall.trans ?_
  simp [toned]

theorem px_addAssign (hp : image.Inside p) (pixel : Pixel) : (addAssign image pixel).px p = (image.px p).add pixel := by
  have hl : ∀ q ∈ grid image, image.Inside q := fun q hq => mem_grid.1 hq
  obtain ⟨-, hpx⟩ := foldl_write (fun _ => true) (fun _ a => a.add pixel) (raster_nodup _ _ _ _) hl
    (f := fun out q => out.write (q.1 + q.2 * out.width) ((out.read (q.1 + q.2 * out.width)).add pixel))
    fun t q _ _ => by
      have hread : t.read ((q.1 + q.2 * t.width : Nat) : Int) = t.px q := read_index q
      push_cast at hread ⊢
      rw [hread]
      rfl
  rw [addAssign, forEach_eq]
  refine (hpx p hp).trans ?_
  rw [if_pos ⟨mem_grid.2 hp, rfl⟩]

/-- What the filter is for: the mean lightness becomes the threshold, as far as channels go. -/
def Brightened (image : BiImage) (threshold : Int) : Prop :=
  ∃ out, brightness image threshold = some out ∧ ∀ p, image.Inside p → ∀ c ∈ Pixel.rgbChannels,
    ((c (out.px p)).toNat : Int) = Pixel.limit ((c (image.px p)).toNat + threshold - tonedMean image) 0 255

theorem tonedMean_le (image : BiImage) : tonedMean image ≤ 255 := by
  have hle : ∀ l ∈ toned image, l ≤ 255 := fun l hl => by
    obtain ⟨p, -, rfl⟩ := List.mem_map.1 (List.mem_of_mem_filter hl)
    have := lightness_lt image p
    omega
  have hsum := List.sum_le_card_nsmul (toned image) 255 hle
  rw [smul_eq_mul, mul_comm] at hsum
  exact Nat.div_le_of_le_mul (by rwa [mul_comm])

theorem brightness_eq (image : BiImage) (threshold : Int) : brightness image threshold =
    if (toned image).sum < 2 ^ 31 ∧ toned image ≠ [] then
      some (addAssign image (Pixel.gray (UInt8.ofInt (threshold - tonedMean image)))) else none := by
  have hfits : ((toned image).sum : Int) < 2 ^ 31 ↔ (toned image).sum < 2 ^ 31 := by exact_mod_cast Iff.rfl
  have hcount : ((toned image).length : Int) ≠ 0 ↔ toned image ≠ [] := by
    rw [Ne, Nat.cast_eq_zero, List.length_eq_zero_iff]
  have hdiv : ((toned image).sum : Int).tdiv (toned image).length = tonedMean image := by
    rw [Int.tdiv_eq_ediv_of_nonneg (Int.natCast_nonneg _)]
    rfl
  simp only [brightness, brightnessSums_eq, hfits, hcount, hdiv]

/-- A distance below zero is narrowed to one above zero, and always shows. -/
theorem limit_add_narrowed_iff {v : UInt8} {d : Int} (hlo : -255 ≤ d) (hhi : d ≤ 255) :
    Pixel.limit (v.toNat + (UInt8.ofInt d).toNat) 0 255 = Pixel.limit (v.toNat + d) 0 255 ↔ 0 ≤ d := by
  have hv := v.toNat_lt
  have hd : ((UInt8.ofInt d).toNat : Int) = d % 256 := by
    rw [UInt8.ofInt, UInt8.toNat_ofNat']
    omega
  rw [hd]
  unfold Pixel.limit
  split_ifs <;> omega

/-- Every channel of every pixel shows the sign of the distance. -/
theorem channel_addAssign_iff {threshold : Int} (h0 : 0 ≤ threshold) (h255 : threshold ≤ 255) (hp : image.Inside p)
    {c : Pixel → UInt8} (hc : c ∈ Pixel.rgbChannels) :
    ((c ((addAssign image (Pixel.gray (UInt8.ofInt (threshold - tonedMean image)))).px p)).toNat : Int) =
      Pixel.limit ((c (image.px p)).toNat + threshold - tonedMean image) 0 255 ↔
        (tonedMean image : Int) ≤ threshold := by
  have hmean := tonedMean_le image
  have hgray : ∀ u, c (Pixel.gray u) = u := fun u => by
    simp only [Pixel.rgbChannels, List.mem_cons, List.not_mem_nil, or_false] at hc
    rcases hc with rfl | rfl | rfl
    all_goals rfl
  rw [px_addAssign hp, Pixel.toNat_add hc, hgray, add_sub_assoc, limit_add_narrowed_iff (by omega) (by omega),
    sub_nonneg]

/-- The mean is at most the threshold. -/
theorem tonedMean_le_iff {threshold : Int} (h0 : 0 ≤ threshold) (hne : toned image ≠ []) :
    (tonedMean image : Int) ≤ threshold ↔ ((toned image).sum : Int) < (threshold + 1) * (toned image).length := by
  obtain ⟨t, rfl⟩ := Int.eq_ofNat_of_zero_le h0
  have hlen : 0 < (toned image).length := List.length_pos_of_ne_nil hne
  have hdiv : tonedMean image < t + 1 ↔ (toned image).sum < (t + 1) * (toned image).length :=
    Nat.div_lt_iff_lt_mul hlen
  rw [Nat.lt_succ_iff] at hdiv
  exact_mod_cast hdiv

/-- **When the brightness is adjusted**: some pixel is not white, the sum of the lightness of these pixels fits an
`int`, and their mean is at most the threshold. -/
theorem brightened_iff {threshold : Int} (hw : 1 ≤ image.width) (hh : 1 ≤ image.height) (h0 : 0 ≤ threshold)
    (h255 : threshold ≤ 255) : Brightened image threshold ↔
      toned image ≠ [] ∧ (toned image).sum < 2 ^ 31 ∧
        ((toned image).sum : Int) < (threshold + 1) * (toned image).length := by
  rw [Brightened, brightness_eq]
  constructor
  · rintro ⟨out, hrun, hchannels⟩
    obtain ⟨⟨hsum, hne⟩, hout⟩ := Option.ite_none_right_eq_some.1 hrun
    obtain rfl := Option.some.inj hout
    have horigin : image.Inside (0, 0) := ⟨hw, hh⟩
    have hmean := (channel_addAssign_iff h0 h255 horigin (c := Pixel.red) (by simp [Pixel.rgbChannels])).1
      (hchannels _ horigin _ (by simp [Pixel.rgbChannels]))
    exact ⟨hne, hsum, (tonedMean_le_iff h0 hne).1 hmean⟩
  · rintro ⟨hne, hsum, hmean⟩
    rw [if_pos ⟨hsum, hne⟩]
    exact ⟨_, rfl, fun p hp c hc => (channel_addAssign_iff h0 h255 hp hc).2 ((tonedMean_le_iff h0 hne).2 hmean)⟩

/-- A dark pixel becomes brighter. -/
theorem brightened_dot : Brightened grayDot 150 :=
  (brightened_iff (show 1 ≤ grayDot.width by decide) (by decide) (by decide) (by decide)).2
    ⟨by decide +kernel, by decide +kernel, by decide +kernel⟩

/-- One that is too bright becomes brighter as well. -/
theorem not_brightened_dot : ¬Brightened grayDot 50 := by
  rintro ⟨out, hrun, hchannels⟩
  have hred : (brightness grayDot 50).map (fun out => (out.px (0, 0)).red) = some 255 := by decide +kernel
  rw [hrun, Option.map_some, Option.some_inj] at hred
  have h := hchannels (0, 0) (by decide) Pixel.red (by simp [Pixel.rgbChannels])
  rw [hred] at h
  revert h
  decide +kernel

end LeftFelt.ImageUtil
