import LeftFelt.Image.Histogram
import LeftFelt.Lib.Checked
import LeftFelt.Lib.Rounding

/-!
# Contrast

`ImageUtil::Contrast` stretches the lightness from the range that occurs to the whole range from 0 to 255. The level is
computed in `double` and truncated; it still maps the ends of the range to 0 and 255, and is monotone (`level_spec`).

An image of one lightness divides by zero, and no other (`contrast_iff`).
-/

namespace LeftFelt.ImageUtil

open Lib BiImage

/-! ## The code -/

/-- `(int)(255 * ((lightness - a) / (double)(b - a)))`. -/
def level (a b l : Nat) : Int :=
  Binary64.cInt (Float.Model.ofInt 255 * (Float.Model.ofInt ((l : Int) - a) / Float.Model.ofInt ((b : Int) - a)))

/-- The pixel that is put, and `none` if the quotient divides by zero: the cast of what comes out is undefined. -/
def contrastPixel (a b l : Nat) : Option Pixel :=
  if l < a then some (Pixel.gray 0)
  else if l ≤ b then if b = a then none else some (Pixel.gray (UInt8.ofInt (level a b l)))
  else some (Pixel.gray 255)

/-- `Contrast(image)`. -/
def contrast (image : BiImage) : Option BiImage :=
  let histogram := getHistogram image
  let a := ((List.range 256).find? fun i => histogram.getD i 0 ≠ 0).getD 0
  let b := ((List.range 256).reverse.find? fun i => histogram.getD i 0 ≠ 0).getD 255
  Checked.forLoop 0 image.height (fun j => Checked.forLoop 0 image.width fun i out =>
    (contrastPixel a b (out.get i j).lightness.toNat).map fun pixel => out.put i j pixel) image

/-! ## The level -/

variable {a b l l' : Nat}

/-- The two roundings of the level. -/
theorem exists_level (hab : a < b) (hb : b < 256) (hal : a ≤ l) (hlb : l ≤ b) :
    ∃ q r : ℚ, Binary64.Rounds (((l : Int) - a : Int) / ((b : Int) - a : Int)) q ∧ Binary64.Rounds (255 * q) r ∧
      (l = b → r = 255) ∧ level a b l = ⌊r⌋ := by
  have hnum : |(l : Int) - a| < 2 ^ 31 := by
    rw [abs_of_nonneg (by omega)]
    omega
  obtain ⟨q, hq, hround⟩ := Binary64.has_ratio hnum (show 0 < (b : Int) - a by omega) (by omega)
  have h255 : Binary64.Has (Float.Model.ofInt 255) 255 := by exact_mod_cast Binary64.has_int (n := 255) (by norm_num)
  have hrange : Binary64.InRange (255 * q) := by
    rw [mul_comm]
    exact Binary64.inRange_ratio_mul hnum (by omega) (by omega) hround (by norm_num) (by norm_num)
  obtain ⟨r, hr, hround'⟩ := Binary64.has_mul h255 hq hrange
  have hden : (0 : ℚ) < ((b : Int) - a : Int) := by exact_mod_cast (by omega : (0 : Int) < (b : Int) - a)
  have hnonneg : (0 : ℚ) ≤ ((l : Int) - a : Int) := by exact_mod_cast (by omega : (0 : Int) ≤ (l : Int) - a)
  have hle : (((l : Int) - a : Int) : ℚ) / ((b : Int) - a : Int) ≤ 1 := by
    rw [div_le_one hden]
    exact_mod_cast (by omega : (l : Int) - a ≤ (b : Int) - a)
  obtain ⟨hq0, hqhi, -⟩ := Binary64.rounds_bounds hround (by positivity)
  obtain ⟨hr0, hrhi, -⟩ := Binary64.rounds_bounds hround' (by positivity)
  refine ⟨q, r, hround, hround', ?_, Binary64.cInt_of_nonneg hr hr0 (by linarith)⟩
  rintro rfl
  rw [div_self hden.ne'] at hround
  have hone : q = 1 := by
    exact_mod_cast Binary64.rounds_int (n := 1) (Binary64.digits_of_has hq) (by exact_mod_cast hround) (by norm_num)
  rw [hone, mul_one] at hround'
  exact_mod_cast Binary64.rounds_int (n := 255) (Binary64.digits_of_has hr) (by exact_mod_cast hround') (by norm_num)

/-- The level is monotone: one step of lightness outweighs all rounding. -/
theorem level_mono (hab : a < b) (hb : b < 256) (hal : a ≤ l) (hll : l ≤ l') (hlb : l' ≤ b) :
    level a b l ≤ level a b l' := by
  rcases hll.eq_or_lt with rfl | hlt
  · exact le_rfl
  obtain ⟨q, r, hq, hr, -, hlevel⟩ := exists_level hab hb hal (by omega)
  obtain ⟨q', r', hq', hr', -, hlevel'⟩ := exists_level hab hb (by omega : a ≤ l') hlb
  have hden : (0 : ℚ) < ((b : Int) - a : Int) := by exact_mod_cast (by omega : (0 : Int) < (b : Int) - a)
  have hden' : (((b : Int) - a : Int) : ℚ) ≤ 255 := by exact_mod_cast (by omega : (b : Int) - a ≤ 255)
  have hnonneg : (0 : ℚ) ≤ ((l : Int) - a : Int) := by exact_mod_cast (by omega : (0 : Int) ≤ (l : Int) - a)
  have hstep : (((l : Int) - a : Int) : ℚ) + 1 ≤ ((l' : Int) - a : Int) := by
    exact_mod_cast (by omega : (l : Int) - a + 1 ≤ (l' : Int) - a)
  have hle : (((l : Int) - a : Int) : ℚ) / ((b : Int) - a : Int) ≤ 1 := by
    rw [div_le_one hden]
    exact_mod_cast (by omega : (l : Int) - a ≤ (b : Int) - a)
  have hgap : (((l : Int) - a : Int) : ℚ) / ((b : Int) - a : Int) + 1 / 255 ≤
      ((l' : Int) - a : Int) / ((b : Int) - a : Int) := by
    have hpart : (1 : ℚ) / 255 ≤ 1 / ((b : Int) - a : Int) := one_div_le_one_div_of_le hden hden'
    calc (((l : Int) - a : Int) : ℚ) / ((b : Int) - a : Int) + 1 / 255
        ≤ (((l : Int) - a : Int) : ℚ) / ((b : Int) - a : Int) + 1 / ((b : Int) - a : Int) := by gcongr
      _ = ((((l : Int) - a : Int) : ℚ) + 1) / ((b : Int) - a : Int) := by rw [add_div]
      _ ≤ ((l' : Int) - a : Int) / ((b : Int) - a : Int) := by gcongr
  obtain ⟨hq0, hqhi, -⟩ := Binary64.rounds_bounds hq (by positivity)
  obtain ⟨hr0, hrhi, -⟩ := Binary64.rounds_bounds hr (by positivity)
  obtain ⟨hq0', -, hqlo⟩ := Binary64.rounds_bounds hq' (by linarith [div_nonneg hnonneg hden.le])
  obtain ⟨hr0', -, hrlo⟩ := Binary64.rounds_bounds hr' (by positivity)
  rw [hlevel, hlevel']
  refine Int.floor_mono ?_
  linarith [div_nonneg hnonneg hden.le]

/-- **The level** takes the ends of the range to 0 and 255, and stays between them. -/
theorem level_spec (hab : a < b) (hb : b < 256) (hal : a ≤ l) (hlb : l ≤ b) :
    level a b a = 0 ∧ level a b b = 255 ∧ 0 ≤ level a b l ∧ level a b l ≤ 255 := by
  have hlow : level a b a = 0 := by
    obtain ⟨q, r, hq, hr, -, hlevel⟩ := exists_level hab hb le_rfl hab.le
    rw [sub_self, Int.cast_zero, zero_div] at hq
    rw [Binary64.rounds_zero hq, mul_zero] at hr
    rw [hlevel, Binary64.rounds_zero hr, Int.floor_zero]
  have hhigh : level a b b = 255 := by
    obtain ⟨q, r, -, -, hr, hlevel⟩ := exists_level hab hb hab.le le_rfl
    rw [hlevel, hr rfl]
    norm_num
  have h1 := level_mono hab hb le_rfl hal hlb
  have h2 := level_mono hab hb hal hlb le_rfl
  omega

/-! ## The image -/

variable {image out : BiImage}

/-- The pixels that are put, where nothing is divided by zero. -/
theorem contrastPixel_eq (hab : a < b) (hal : a ≤ l) (hlb : l ≤ b) :
    contrastPixel a b l = some (Pixel.gray (UInt8.ofInt (level a b l))) := by
  rw [contrastPixel, if_neg (not_lt.2 hal), if_pos hlb, if_neg hab.ne']

/-- The scan, where nothing is divided by zero: every pixel is read before it is written. -/
theorem foldlM_contrast (hrange : Range image a b) (hab : a < b) : ∃ out,
    (grid image).foldlM (fun out p =>
      (contrastPixel a b (out.get p.1 p.2).lightness.toNat).map fun pixel => out.put p.1 p.2 pixel) image = some out ∧
    SameFrame out image ∧
      ∀ p ∈ grid image, out.px p = Pixel.gray (UInt8.ofInt (level a b (lightness image p))) := by
  have hnodup : (grid image).Nodup := raster_nodup _ _ _ _
  obtain ⟨out, hout, hfr, -, hpx⟩ := Checked.foldlM_eq_some
    (f := fun out p =>
      (contrastPixel a b (out.get p.1 p.2).lightness.toNat).map fun pixel => out.put p.1 p.2 pixel)
    (l := grid image) (s := image)
    (fun pre t => SameFrame t image ∧ (∀ q, image.Inside q → q ∉ pre → t.px q = image.px q) ∧
      ∀ q ∈ pre, t.px q = Pixel.gray (UInt8.ofInt (level a b (lightness image q))))
    ⟨SameFrame.refl image, fun q _ _ => rfl, by simp⟩ (by
      rintro pre p post t hl ⟨hfr, hold, hnew⟩
      have hp : image.Inside p := mem_grid.1 (by simp [hl])
      have hfresh : p ∉ pre := fun h => by
        rw [hl, List.nodup_append] at hnodup
        exact hnodup.2.2 p h p List.mem_cons_self rfl
      have hget : t.get p.1 p.2 = image.get p.1 p.2 := get_congr hfr (hfr.inside.2 hp) (hold p hp hfresh)
      have hlight : (t.get p.1 p.2).lightness.toNat = lightness image p := by rw [hget, lightness]
      rw [hlight, contrastPixel_eq hab (hrange.le p hp) (hrange.ge p hp), Option.map_some]
      refine ⟨_, rfl, ?_⟩
      rw [put_inside (hfr.inside.2 hp)]
      refine ⟨(sameFrame_write _ _).trans hfr, fun q hq hqpre => ?_, fun q hq => ?_⟩
      · have hne : q ≠ p := fun h => hqpre (by simp [h])
        rw [px_write (hfr.inside.2 hp) (hfr.inside.2 hq), if_neg hne]
        exact hold q hq fun h => hqpre (by simp [h])
      · have hq' : image.Inside q := mem_grid.1 (by
          rw [hl]
          rcases List.mem_append.1 hq with hq | hq
          · simp [hq]
          · simp [List.mem_singleton.1 hq])
        rw [px_write (hfr.inside.2 hp) (hfr.inside.2 hq')]
        split_ifs with heq
        · rw [heq]
        · rcases List.mem_append.1 hq with hq | hq
          · exact hnew q hq
          · exact absurd (List.mem_singleton.1 hq) heq)
  exact ⟨out, hout, hfr, hpx⟩

/-- **`Contrast`** of an image with pixels, by the range of its lightness. -/
theorem contrast_eq (hpixels : 0 < image.width * image.height) : ∃ a b, Range image a b ∧
    (a = b → contrast image = none) ∧
    (a < b → ∃ out, contrast image = some out ∧ SameFrame out image ∧
      ∀ p, image.Inside p → out.px p = Pixel.gray (UInt8.ofInt (level a b (lightness image p)))) := by
  obtain ⟨a, b, hrange, ha, hb⟩ := exists_range hpixels
  have hscan : contrast image = (grid image).foldlM (fun out p =>
      (contrastPixel a b (out.get p.1 p.2).lightness.toNat).map fun pixel => out.put p.1 p.2 pixel) image := by
    rw [contrast, ha, hb, Checked.forLoop_forLoop]
    rfl
  refine ⟨a, b, hrange, ?_, fun hab => ?_⟩
  · rintro rfl
    -- the first pixel already divides by zero
    cases hgrid : grid image with
    | nil =>
      have hlen := length_grid image
      rw [hgrid, List.length_nil] at hlen
      omega
    | cons p ps =>
      have hp : image.Inside p := mem_grid.1 (by simp [hgrid])
      have hlight : (image.get p.1 p.2).lightness.toNat = a :=
        le_antisymm (hrange.ge p hp) (hrange.le p hp)
      rw [hscan, hgrid, List.foldlM_cons, hlight, contrastPixel, if_neg (lt_irrefl a), if_pos le_rfl, if_pos rfl]
      rfl
  · obtain ⟨out, hout, hfr, hpx⟩ := foldlM_contrast hrange hab
    exact ⟨out, hscan.trans hout, hfr, fun p hp => hpx p (mem_grid.2 hp)⟩

/-- Levels from 0 to 255 keep their order as `unsigned char`s. -/
theorem ofInt_le {m n : Int} (h0 : 0 ≤ m) (hle : m ≤ n) (h : n ≤ 255) : UInt8.ofInt m ≤ UInt8.ofInt n := by
  rw [UInt8.le_iff_toNat_le, UInt8.ofInt, UInt8.ofInt, UInt8.toNat_ofNat', UInt8.toNat_ofNat']
  omega

/-- What contrast stretching is for: every pixel becomes gray, the darkest black, the lightest white, and the order of
the lightness is kept. Before, the lightness is what the filter reads with `Get`; afterwards it is that of the pixel that
has been put, whether or not this is the clear colour. -/
structure Stretched (image out : BiImage) : Prop where
  gray : ∀ p, image.Inside p → ∃ v, out.px p = Pixel.gray v
  darkest : ∀ p, image.Inside p → (∀ q, image.Inside q → lightness image p ≤ lightness image q) →
    out.px p = Pixel.gray 0
  lightest : ∀ p, image.Inside p → (∀ q, image.Inside q → lightness image q ≤ lightness image p) →
    out.px p = Pixel.gray 255
  mono : ∀ p q, image.Inside p → image.Inside q → lightness image p ≤ lightness image q →
    (out.px p).lightness ≤ (out.px q).lightness

theorem stretched_of_level (hrange : Range image a b) (hab : a < b)
    (hpx : ∀ p, image.Inside p → out.px p = Pixel.gray (UInt8.ofInt (level a b (lightness image p)))) :
    Stretched image out := by
  have hb : b < 256 := hrange.le_high.2
  have hspec : ∀ p, image.Inside p → _ := fun p hp => level_spec hab hb (hrange.le p hp) (hrange.ge p hp)
  refine ⟨fun p hp => ⟨_, hpx p hp⟩, fun p hp hall => ?_, fun p hp hall => ?_, fun p q hp hq hle => ?_⟩
  · obtain ⟨q, hq, hqa⟩ := hrange.low
    have heq : lightness image p = a := le_antisymm (hqa ▸ hall q hq) (hrange.le p hp)
    rw [hpx p hp, heq, (hspec p hp).1]
    rfl
  · obtain ⟨q, hq, hqb⟩ := hrange.high
    have heq : lightness image p = b := le_antisymm (hrange.ge p hp) (hqb ▸ hall q hq)
    rw [hpx p hp, heq, (hspec p hp).2.1]
    rfl
  · have hmono := level_mono hab hb (hrange.le p hp) hle (hrange.ge q hq)
    obtain ⟨-, -, hp0, hp255⟩ := hspec p hp
    obtain ⟨-, -, hq0, hq255⟩ := hspec q hq
    rw [hpx p hp, hpx q hq, Pixel.lightness_gray, Pixel.lightness_gray]
    exact ofInt_le hp0 hmono hq255

/-- **When the contrast is stretched**: if the image has two pixels of different lightness. -/
theorem contrast_iff (hw : 1 ≤ image.width) (hh : 1 ≤ image.height) :
    (∃ out, contrast image = some out ∧ Stretched image out) ↔
      ∃ p q, image.Inside p ∧ image.Inside q ∧ lightness image p ≠ lightness image q := by
  obtain ⟨a, b, hrange, hequal, hless⟩ := contrast_eq (Nat.mul_pos hw hh)
  obtain ⟨p, hp, hpa⟩ := hrange.low
  obtain ⟨q, hq, hqb⟩ := hrange.high
  rcases hrange.le_high.1.eq_or_lt with hab | hab
  · constructor
    · rintro ⟨out, hout, -⟩
      rw [hequal hab] at hout
      cases hout
    · rintro ⟨p', q', hp', hq', hne⟩
      have hle := And.intro (hrange.le p' hp') (hrange.ge p' hp')
      have hle' := And.intro (hrange.le q' hq') (hrange.ge q' hq')
      omega
  · constructor
    · exact fun _ => ⟨p, q, hp, hq, by omega⟩
    · intro _
      obtain ⟨out, hout, -, hpx⟩ := hless hab
      exact ⟨out, hout, stretched_of_level hrange hab hpx⟩

/-- A dark pixel and a bright one. -/
def darkBright : BiImage := ofFn 2 1 two_fits one_fits fun x _ => if x = 0 then Pixel.gray 100 else Pixel.gray 101

theorem stretched_darkBright : ∃ out, contrast darkBright = some out ∧ Stretched darkBright out :=
  (contrast_iff (show 1 ≤ darkBright.width by decide) (by decide)).2
    ⟨(0, 0), (1, 0), by decide, by decide, by decide +kernel⟩

/-- One pixel is the darkest and the lightest. -/
theorem not_stretched_uniform :
    ¬∃ out, contrast (ofFn 1 1 one_fits one_fits fun _ _ => Pixel.gray 7) = some out ∧
      Stretched (ofFn 1 1 one_fits one_fits fun _ _ => Pixel.gray 7) out := by
  rintro ⟨out, hout, -⟩
  have hnone : contrast (ofFn 1 1 one_fits one_fits fun _ _ => Pixel.gray 7) = none := by decide +kernel
  rw [hnone] at hout
  cases hout

end LeftFelt.ImageUtil
