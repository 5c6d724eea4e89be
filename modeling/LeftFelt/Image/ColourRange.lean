import LeftFelt.Image.Access
import LeftFelt.Image.Histogram
import LeftFelt.Image.Hsv

/-!
# Selecting colours

`HRange`, `SRange` and `VRange` make black every pixel whose hue, saturation or value is out of range. What is black
stays black, so that the filters can be applied in any order (`exists_passes`). Readings of gray pixels that are not
black are undefined, and only these.
-/

namespace LeftFelt.ImageUtil

open Lib BiImage

/-! ## The code -/

/-- `(low <= value && value <= high) == in_range`, the bounds limited to `0..top`. -/
def within (top low high : Int) (inRange : Bool) (value : Int) : Bool :=
  decide (Pixel.limit low 0 top ≤ value ∧ value ≤ Pixel.limit high 0 top) == inRange

/-- The loops of the three filters. -/
def colourRange (reading : Pixel → Option Int) (top : Int) (image : BiImage) (low high : Int) (inRange : Bool) :
    Option BiImage :=
  Checked.forLoop 0 image.height (fun j => Checked.forLoop 0 image.width fun i out =>
    (reading (out.get i j)).map fun value =>
      if !within top low high inRange value then out.put i j (Pixel.gray 0) else out) image

/-- `HRange(image, low, high, in_range)`. -/
def hRange : BiImage → Int → Int → Bool → Option BiImage := colourRange Pixel.hValue 360

/-- `SRange(image, low, high, in_range)`. -/
def sRange : BiImage → Int → Int → Bool → Option BiImage := colourRange (fun pixel => pixel.sValue.map (·.toNat)) 100

/-- `VRange(image, low, high, in_range)`. -/
def vRange : BiImage → Int → Int → Bool → Option BiImage := colourRange (fun pixel => pixel.vValue.map (·.toNat)) 100

/-- `HSVRange(image, Hlow, Hhigh, Slow, Shigh, Vlow, Vhigh)`. -/
def hsvRange (image : BiImage) (Hlow Hhigh Slow Shigh Vlow Vhigh : Int) : Option BiImage :=
  (hRange image Hlow Hhigh true).bind fun image =>
    (sRange image Slow Shigh true).bind fun image => vRange image Vlow Vhigh true

/-! ## One filter -/

variable {image : BiImage} {p : Nat × Nat}

theorem viewed_gray_zero (image : BiImage) : (viewed image (Pixel.gray 0)).max = 0 := by
  rw [viewed]
  split_ifs <;> rfl

/-- To leave a pixel is to put it where it is. -/
theorem put_px (hp : image.Inside p) : image.put p.1 p.2 (image.px p) = image := by
  refine (sameRest_put hp _).ext fun q hq => ?_
  have hq' : image.Inside q := hq
  rw [put_inside hp, px_write hp hq']
  split_ifs with h
  · rw [h]
  · rfl

section One

variable {reading : Pixel → Option Int} {top low high : Int} {inRange : Bool}

/-- What a filter leaves for a pixel, which it sees as `Get` shows it. -/
def sifted (reading : Pixel → Option Int) (top low high : Int) (inRange : Bool) (image : BiImage) (pixel : Pixel) :
    Option Pixel :=
  (reading (viewed image pixel)).map fun value => if within top low high inRange value then pixel else Pixel.gray 0

theorem colourRange_step (hp : image.Inside p) :
    ((reading (image.get p.1 p.2)).map fun value =>
      if !within top low high inRange value then image.put p.1 p.2 (Pixel.gray 0) else image) =
    (sifted reading top low high inRange image (image.px p)).map fun pixel => image.put p.1 p.2 pixel := by
  rw [get_eq_viewed hp, sifted, Option.map_map]
  congr 1
  funext value
  cases hkeep : within top low high inRange value with
  | true => simp [hkeep, put_px hp]
  | false => simp [hkeep]

/-- **A filter** leaves the pixels that are within range and makes the others black. -/
theorem colourRange_run (top low high : Int) (inRange : Bool) {value : Nat × Nat → Int}
    (hvalue : ∀ p, image.Inside p → reading (image.get p.1 p.2) = some (value p)) :
    ∃ out, colourRange reading top image low high inRange = some out ∧ SameRest out image ∧
      ∀ p, image.Inside p → out.px p = if within top low high inRange (value p) then image.px p else Pixel.gray 0 := by
  have hrun : colourRange reading top image low high inRange = (grid image).foldlM (fun t q =>
      (sifted reading top low high inRange t (t.px q)).map fun pixel => t.put q.1 q.2 pixel) image := by
    rw [colourRange, Checked.forLoop_forLoop]
    refine Checked.foldlM_congr (fun t => SameFrame t image) (SameFrame.refl image) fun q hq t ht => ?_
    have hin := ht.inside.2 (mem_grid.1 hq)
    refine ⟨colourRange_step hin, fun s hs => ?_⟩
    obtain ⟨pixel, -, rfl⟩ := Option.map_eq_some_iff.1 hs
    exact (sameRest_put hin pixel).toSameFrame.trans ht
  have hframe : ∀ t q, SameFrame t image → image.Inside q →
      sifted reading top low high inRange t (t.px q) = sifted reading top low high inRange image (t.px q) :=
    fun t q ht _ => by rw [sifted, sifted, viewed_congr ht]
  obtain ⟨out, hout, hpx⟩ := (foldlM_put_pointwise
    (F := fun pixel _ => sifted reading top low high inRange image pixel)
    (g := fun p => if within top low high inRange (value p) then image.px p else Pixel.gray 0) hframe).2 fun q hq => by
      rw [sifted, ← get_eq_viewed hq, hvalue q hq, Option.map_some]
  exact ⟨out, by rw [hrun, hout], sameRest_foldlM_put hout, hpx⟩

end One

/-! ## Several filters -/

/-- The three filters, by what they look at. -/
inductive Component where
  | hue
  | saturation
  | value
  deriving DecidableEq

/-- What a filter reads of a pixel. -/
def Component.reading : Component → Pixel → Option Int
  | .hue => Pixel.hValue
  | .saturation => fun pixel => pixel.sValue.map (·.toNat)
  | .value => fun pixel => pixel.vValue.map (·.toNat)

/-- What its bounds are limited to. -/
def Component.top : Component → Int
  | .hue => 360
  | .saturation => 100
  | .value => 100

variable {low high : Component → Int} {inRange : Component → Bool}

/-- One filter with its bounds and its flag. -/
def rangeFilter (low high : Component → Int) (inRange : Component → Bool) (image : BiImage) : Component → Option BiImage
  | .hue => hRange image (low .hue) (high .hue) (inRange .hue)
  | .saturation => sRange image (low .saturation) (high .saturation) (inRange .saturation)
  | .value => vRange image (low .value) (high .value) (inRange .value)

theorem rangeFilter_eq (image : BiImage) (c : Component) :
    rangeFilter low high inRange image c = colourRange c.reading c.top image (low c) (high c) (inRange c) := by
  cases c <;> rfl

/-- The pixel passes the test of a filter. -/
def Passes (low high : Component → Int) (inRange : Component → Bool) (pixel : Pixel) (c : Component) : Prop :=
  ∃ value, c.reading pixel = some value ∧ within c.top (low c) (high c) (inRange c) value = true

instance (pixel : Pixel) (c : Component) : Decidable (Passes low high inRange pixel c) :=
  decidable_of_iff ((c.reading pixel).any (within c.top (low c) (high c) (inRange c)) = true) (by
    cases h : c.reading pixel <;> simp [Passes, h])

/-- All three readings are defined. -/
def Readable (pixel : Pixel) : Prop := ∀ c : Component, ∃ value, c.reading pixel = some value

/-- **Readings are defined** for pixels that are not gray, and for black. -/
theorem readable {pixel : Pixel} (h : pixel.max ≠ pixel.min ∨ pixel.max = 0) : Readable pixel := by
  intro c
  cases c with
  | hue =>
    rcases h with h | h
    · obtain ⟨value, hvalue, -⟩ := Pixel.exists_hValue h
      exact ⟨value, hvalue⟩
    · exact ⟨0, Pixel.hValue_of_black h⟩
  | saturation =>
    obtain ⟨value, hvalue, -⟩ := pixel.exists_sValue
    exact ⟨value.toNat, by simp only [Component.reading, hvalue, Option.map_some]⟩
  | value =>
    obtain ⟨value, hvalue, -⟩ := pixel.exists_vValue
    exact ⟨value.toNat, by simp only [Component.reading, hvalue, Option.map_some]⟩

/-- One filter of several. -/
theorem rangeFilter_run (low high : Component → Int) (inRange : Component → Bool)
    (h : ∀ p, image.Inside p → Readable (image.get p.1 p.2)) (c : Component) :
    ∃ out, rangeFilter low high inRange image c = some out ∧ SameRest out image ∧ ∀ p, image.Inside p →
      out.px p = if Passes low high inRange (image.get p.1 p.2) c then image.px p else Pixel.gray 0 := by
  choose! value hvalue using fun p hp => h p hp c
  obtain ⟨out, hout, hrest, hpx⟩ := colourRange_run c.top (low c) (high c) (inRange c) hvalue
  refine ⟨out, by rw [rangeFilter_eq, hout], hrest, fun p hp => ?_⟩
  simp only [hpx p hp, Passes, hvalue p hp, Option.some.injEq, exists_eq_left']

/-- Black stays readable, and stays black. -/
theorem get_of_sifted {t : BiImage} {keep : Prop} [Decidable keep] (ht : SameFrame t image) (hp : image.Inside p)
    (hpx : t.px p = if keep then image.px p else Pixel.gray 0) :
    t.get p.1 p.2 = if keep then image.get p.1 p.2 else viewed image (Pixel.gray 0) := by
  rw [get_eq_viewed (ht.inside.2 hp), get_eq_viewed hp, viewed_congr ht, hpx, apply_ite (viewed image)]

/-- **Filters one after the other** leave the pixels that pass all tests, whatever the order. -/
theorem exists_passes (low high : Component → Int) (inRange : Component → Bool) (order : List Component)
    (h : ∀ p, image.Inside p → Readable (image.get p.1 p.2)) :
    ∃ out, order.foldlM (rangeFilter low high inRange) image = some out ∧ SameRest out image ∧ ∀ p, image.Inside p →
      out.px p = if ∀ c ∈ order, Passes low high inRange (image.get p.1 p.2) c then image.px p else Pixel.gray 0 := by
  induction order generalizing image with
  | nil => exact ⟨image, rfl, SameRest.refl image, by simp⟩
  | cons c order ih =>
    obtain ⟨t, ht, hrest, hpx⟩ := rangeFilter_run low high inRange h c
    have hget := fun p hp => get_of_sifted hrest.toSameFrame hp (hpx p hp)
    obtain ⟨out, hout, hrest', hpx'⟩ := @ih t fun p hp => by
      have hp' := hrest.inside.1 hp
      rw [hget p hp']
      split_ifs
      · exact h p hp'
      · exact readable (.inr (viewed_gray_zero image))
    refine ⟨out, by rw [List.foldlM_cons, ht]; exact hout, hrest'.trans hrest, fun p hp => ?_⟩
    rw [hpx' p (hrest.inside.2 hp), hpx p hp, hget p hp]
    by_cases hc : Passes low high inRange (image.get p.1 p.2) c
    · simp [hc]
    · simp [hc]

/-- The order does not matter. -/
theorem foldlM_perm (low high : Component → Int) (inRange : Component → Bool) {order order' : List Component}
    (hperm : order.Perm order') (h : ∀ p, image.Inside p → Readable (image.get p.1 p.2)) :
    order.foldlM (rangeFilter low high inRange) image = order'.foldlM (rangeFilter low high inRange) image := by
  obtain ⟨out, hout, hrest, hpx⟩ := exists_passes low high inRange order h
  obtain ⟨out', hout', hrest', hpx'⟩ := exists_passes low high inRange order' h
  have hsame : out = out' := (hrest.trans hrest'.symm).ext fun p hp => by
    have hp' := hrest.inside.1 hp
    simp only [hpx p hp', hpx' p hp', hperm.mem_iff]
  rw [hout, hout', hsame]

/-- The filters, and `Binarize(image, 1)` of what they leave. -/
def select (low high : Component → Int) (inRange : Component → Bool) (order : List Component) (image : BiImage) :
    Option BiImage :=
  (order.foldlM (rangeFilter low high inRange) image).bind fun out => (binarize out 1).map Prod.snd

/-- **White** is what is not black and passes all tests. -/
theorem exists_select (low high : Component → Int) (inRange : Component → Bool) (order : List Component)
    (h : ∀ p, image.Inside p → Readable (image.get p.1 p.2)) :
    ∃ out, select low high inRange order image = some out ∧ SameFrame out image ∧ ∀ p, image.Inside p →
      (out.px p = Pixel.gray 255 ↔
        1 ≤ lightness image p ∧ ∀ c ∈ order, Passes low high inRange (image.get p.1 p.2) c) ∧
      (out.px p = Pixel.gray 255 ∨ out.px p = Pixel.gray 0) := by
  obtain ⟨t, ht, hrest, hpx⟩ := exists_passes low high inRange order h
  refine ⟨binarizePixels t 1, by rw [select, ht]; rfl, (sameFrame_binarizePixels t 1).trans hrest.toSameFrame,
    fun p hp => ?_⟩
  have hbinarize := px_binarizePixels 1 (hrest.inside.2 hp)
  rw [Nat.cast_one] at hbinarize
  rw [hbinarize, lightness, lightness, get_of_sifted hrest.toSameFrame hp (hpx p hp)]
  have hblack : (viewed image (Pixel.gray 0)).lightness.toNat = 0 := by
    rw [viewed]
    split_ifs <;> rfl
  have hne : Pixel.gray 0 ≠ Pixel.gray 255 := by decide
  by_cases hkeep : ∀ c ∈ order, Passes low high inRange (image.get p.1 p.2) c
  · rw [if_pos hkeep, and_iff_left hkeep]
    split_ifs with hlight
    · exact ⟨iff_of_true rfl hlight, .inl rfl⟩
    · exact ⟨iff_of_false hne hlight, .inr rfl⟩
  · rw [if_neg hkeep, hblack, if_neg (by decide)]
    exact ⟨iff_of_false hne fun hwhite => hkeep hwhite.2, .inr rfl⟩

/-! ## Any order of the filters -/

/-- A pixel that is not gray, or black. -/
def ColouredOrBlack (pixel : Pixel) : Prop :=
  pixel.max ≠ pixel.min ∨ pixel.red = 0 ∧ pixel.green = 0 ∧ pixel.blue = 0

instance (pixel : Pixel) : Decidable (ColouredOrBlack pixel) := inferInstanceAs (Decidable (_ ∨ _))

theorem ColouredOrBlack.readable {pixel : Pixel} (h : ColouredOrBlack pixel) : Readable pixel :=
  ImageUtil.readable (h.imp_right Pixel.max_eq_zero_iff.2)

theorem mem_components (c : Component) : c ∈ [Component.hue, .saturation, .value] := by
  cases c <;> decide

/-- **The filters compose**: in every order they give one image, in which exactly the pixels are white that are not
black and pass all three tests. -/
theorem select_perm (image : BiImage) (low high : Component → Int) (inRange : Component → Bool)
    (h : ∀ p, image.Inside p → ColouredOrBlack (image.get p.1 p.2)) :
    ∃ out, (∀ order : List Component, order.Perm [.hue, .saturation, .value] →
        select low high inRange order image = some out) ∧
      SameFrame out image ∧ ∀ p, image.Inside p →
        (out.px p = Pixel.gray 255 ↔
          1 ≤ lightness image p ∧ ∀ c, Passes low high inRange (image.get p.1 p.2) c) ∧
        (out.px p = Pixel.gray 255 ∨ out.px p = Pixel.gray 0) := by
  have hread : ∀ p, image.Inside p → Readable (image.get p.1 p.2) := fun p hp => (h p hp).readable
  obtain ⟨out, hout, hframe, hpx⟩ := exists_select low high inRange [.hue, .saturation, .value] hread
  refine ⟨out, fun order horder => ?_, hframe, fun p hp => ⟨(hpx p hp).1.trans ?_, (hpx p hp).2⟩⟩
  · rw [select, foldlM_perm low high inRange horder hread]
    exact hout
  · exact and_congr_right fun _ => ⟨fun hall c => hall c (mem_components c), fun hall c _ => hall c⟩

/-- An orange pixel and a black one. -/
def orangeAndBlack : BiImage :=
  ofFn 2 1 two_fits one_fits fun x _ => if x = 0 then Pixel.rgb 200 100 50 else Pixel.gray 0

/-- All hues but those of the range, and bounds that are limited. -/
theorem select_perm_orange : ∃ out,
    (∀ order : List Component, order.Perm [.hue, .saturation, .value] →
      select (fun _ => -5) (fun _ => 400) (fun c => c != .hue) order orangeAndBlack = some out) ∧
    SameFrame out orangeAndBlack ∧ ∀ p, orangeAndBlack.Inside p →
      (out.px p = Pixel.gray 255 ↔ 1 ≤ lightness orangeAndBlack p ∧
        ∀ c, Passes (fun _ => -5) (fun _ => 400) (fun c => c != .hue) (orangeAndBlack.get p.1 p.2) c) ∧
      (out.px p = Pixel.gray 255 ∨ out.px p = Pixel.gray 0) :=
  select_perm _ _ _ _ fun p hp => by
    obtain ⟨hx, hy⟩ := inside_ofFn.1 hp
    rw [orangeAndBlack, get_ofFn two_fits one_fits hx hy (by split_ifs <;> rfl)]
    split_ifs
    · decide
    · decide

/-! ## The full range -/

/-- `H`, `S` and `V` do not divide by zero, and their values are in range. -/
structure HsvComputed (pixel : Pixel) : Prop where
  spread : (pixel.max : Int) - pixel.min ≠ 0
  maxShare : (pixel.maxShare == Float.Model.ofInt 0) = false
  hue : ∃ h, pixel.hValue = some h ∧ 0 ≤ h ∧ h ≤ 360
  saturation : ∃ s, pixel.sValue = some s ∧ s.toNat ≤ 100
  value : ∃ v, pixel.vValue = some v ∧ v.toNat ≤ 100

/-- Selecting the full range computes all values and changes no colour. -/
structure FullRange (image : BiImage) : Prop where
  computed : ∀ p, image.Inside p → HsvComputed (image.get p.1 p.2)
  unchanged : ∃ out, hsvRange image 0 360 0 100 0 100 = some out ∧
    ∀ p, image.Inside p → (out.get p.1 p.2).rgbArray = (image.get p.1 p.2).rgbArray

/-- One bound for each filter. -/
def each {α : Type*} (h s v : α) : Component → α
  | .hue => h
  | .saturation => s
  | .value => v

theorem hsvRange_eq (image : BiImage) (Hlow Hhigh Slow Shigh Vlow Vhigh : Int) :
    hsvRange image Hlow Hhigh Slow Shigh Vlow Vhigh =
      [.hue, .saturation, .value].foldlM
        (rangeFilter (each Hlow Slow Vlow) (each Hhigh Shigh Vhigh) fun _ => true) image := by
  simp only [hsvRange, List.foldlM_cons, List.foldlM_nil, rangeFilter, each, Option.bind_eq_bind, Option.pure_def,
    Option.bind_fun_some]

theorem hsvComputed {pixel : Pixel} (h : pixel.max ≠ pixel.min) : HsvComputed pixel where
  spread := by omega
  maxShare := by
    have hle := pixel.min_le_max
    rw [Bool.eq_false_iff, Ne, Pixel.maxShare_beq_zero]
    omega
  hue := Pixel.exists_hValue h
  saturation := pixel.exists_sValue
  value := pixel.exists_vValue

/-- Values in range pass the tests for the full range. -/
theorem HsvComputed.passes {pixel : Pixel} (h : HsvComputed pixel) (c : Component) :
    Passes (each 0 0 0) (each 360 100 100) (fun _ => true) pixel c := by
  have hlow : Pixel.limit 0 0 360 = 0 ∧ Pixel.limit 360 0 360 = 360 := by decide
  have hlow' : Pixel.limit 0 0 100 = 0 ∧ Pixel.limit 100 0 100 = 100 := by decide
  cases c with
  | hue =>
    obtain ⟨value, hvalue, h0, h360⟩ := h.hue
    exact ⟨value, hvalue, by simp [within, each, Component.top, hlow, h0, h360]⟩
  | saturation =>
    obtain ⟨value, hvalue, h100⟩ := h.saturation
    exact ⟨value.toNat, by simp only [Component.reading, hvalue, Option.map_some],
      by simp [within, each, Component.top, hlow', h100]⟩
  | value =>
    obtain ⟨value, hvalue, h100⟩ := h.value
    exact ⟨value.toNat, by simp only [Component.reading, hvalue, Option.map_some],
      by simp [within, each, Component.top, hlow', h100]⟩

/-- **When the full range is all colours**: no pixel is gray. Of a gray one the hue is divided by zero; unless it is
black, what comes out is no number, whose cast is undefined. -/
theorem fullRange_iff (image : BiImage) : FullRange image ↔ ∀ p, image.Inside p →
    ¬((image.get p.1 p.2).red = (image.get p.1 p.2).green ∧ (image.get p.1 p.2).green = (image.get p.1 p.2).blue) := by
  simp only [← Pixel.max_eq_min_iff]
  constructor
  · intro h p hp hgray
    have := (h.computed p hp).spread
    omega
  · intro h
    have hcomputed : ∀ p, image.Inside p → HsvComputed (image.get p.1 p.2) := fun p hp => hsvComputed (h p hp)
    obtain ⟨out, hout, hrest, hpx⟩ := exists_passes (each 0 0 0) (each 360 100 100) (fun _ => true)
      [.hue, .saturation, .value] fun p hp => readable (.inl (h p hp))
    have hsame : out = image := hrest.ext fun p hp => by
      have hp' := hrest.inside.1 hp
      rw [hpx p hp', if_pos fun c _ => (hcomputed p hp').passes c]
    exact ⟨hcomputed, out, by rw [hsvRange_eq, hout], fun p hp => by rw [hsame]⟩

/-- An image of one pixel. -/
def swatch (pixel : Pixel) : BiImage := ofFn 1 1 one_fits one_fits fun _ _ => pixel

theorem get_swatch {pixel : Pixel} (hpixel : pixel.empty = false) {p : Nat × Nat} (hp : (swatch pixel).Inside p) :
    (swatch pixel).get p.1 p.2 = pixel := by
  obtain ⟨hx, hy⟩ := inside_ofFn.1 hp
  rw [swatch, get_ofFn one_fits one_fits hx hy hpixel]

/-- One gray pixel. -/
theorem not_fullRange_gray : (Pixel.gray 128).hValue = none ∧ ¬FullRange (swatch (Pixel.gray 128)) := by
  refine ⟨by decide +kernel, fun h => ?_⟩
  have hin : (swatch (Pixel.gray 128)).Inside (0, 0) := by decide
  have hspread := (h.computed (0, 0) hin).spread
  rw [get_swatch rfl hin] at hspread
  exact hspread (by decide)

end LeftFelt.ImageUtil
