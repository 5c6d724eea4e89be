import LeftFelt.Image.ColourRange

/-!
# The skin mask

`SensorBarLogic::Range` selects the colours of skin. It gives `VRange` the upper bound of the hue instead of that of the
value; the bound is limited to 100, which is no bound at all, so that pixels are selected that are too bright
(`skinMask_iff`).
-/

namespace LeftFelt.SensorBarLogic

open BiImage ImageUtil

/-! ## The code -/

/-- `Range(image)`. -/
def range (image : BiImage) : Option BiImage :=
  let (H_is_in_range, S_is_in_range, V_is_in_range) := (false, true, true)
  let (Hlow, Hhigh) := (25, 210)
  let (Slow, Shigh) := (3, 55)
  -- `Vhigh = 80` is not used
  let Vlow := 30
  (hRange image Hlow Hhigh H_is_in_range).bind fun image =>
    (sRange image Slow Shigh S_is_in_range).bind fun image =>
      (vRange image Vlow Hhigh V_is_in_range).bind fun image => (binarize image 1).map Prod.snd

theorem range_eq (image : BiImage) : range image =
    select (each 25 3 30) (each 210 55 210) (each false true true) [.hue, .saturation, .value] image := by
  simp only [range, select, List.foldlM_cons, List.foldlM_nil, rangeFilter, each, Option.bind_eq_bind, Option.pure_def,
    Option.bind_assoc, Option.bind_some]

/-! ## The mask -/

variable {image : BiImage} {pixel : Pixel}

/-- A pixel that is not black, of the hue and the saturation of skin. -/
def SkinColoured (pixel : Pixel) : Prop :=
  1 ≤ pixel.lightness.toNat ∧ (∃ h, pixel.hValue = some h ∧ ¬(25 ≤ h ∧ h ≤ 210)) ∧
    ∃ s, pixel.sValue = some s ∧ 3 ≤ s.toNat ∧ s.toNat ≤ 55

/-- The value of a pixel. -/
def ValueIn (low high : Nat) (pixel : Pixel) : Prop :=
  ∃ v, pixel.vValue = some v ∧ low ≤ v.toNat ∧ v.toNat ≤ high

/-- White are the pixels with the colour and the value of skin, and all others black. -/
def SkinMask (image : BiImage) : Prop := ∃ out, range image = some out ∧ ∀ p, image.Inside p →
  (out.px p = Pixel.gray 255 ↔ SkinColoured (image.get p.1 p.2) ∧ ValueIn 30 80 (image.get p.1 p.2)) ∧
    (out.px p = Pixel.gray 255 ∨ out.px p = Pixel.gray 0)

/-- What the tests of `Range` come to: the bound for the values is limited to 100. -/
theorem passes_iff (pixel : Pixel) :
    (1 ≤ pixel.lightness.toNat ∧ ∀ c ∈ [Component.hue, .saturation, .value],
        Passes (each 25 3 30) (each 210 55 210) (each false true true) pixel c) ↔
      SkinColoured pixel ∧ ValueIn 30 100 pixel := by
  have hhue : Passes (each 25 3 30) (each 210 55 210) (each false true true) pixel .hue ↔
      ∃ h, pixel.hValue = some h ∧ ¬(25 ≤ h ∧ h ≤ 210) := by
    have hlimit : Pixel.limit 25 0 360 = 25 ∧ Pixel.limit 210 0 360 = 210 := by decide
    simp only [Passes, within, each, Component.reading, Component.top, hlimit, beq_false, Bool.not_eq_true',
      decide_eq_false_iff_not]
  have hsaturation : Passes (each 25 3 30) (each 210 55 210) (each false true true) pixel .saturation ↔
      ∃ s, pixel.sValue = some s ∧ 3 ≤ s.toNat ∧ s.toNat ≤ 55 := by
    have hlimit : Pixel.limit 3 0 100 = 3 ∧ Pixel.limit 55 0 100 = 55 := by decide
    cases h : pixel.sValue with
    | none => simp [Passes, Component.reading, h]
    | some s =>
      simp [Passes, within, each, Component.reading, Component.top, hlimit, h]
  have hvalue : Passes (each 25 3 30) (each 210 55 210) (each false true true) pixel .value ↔
      ValueIn 30 100 pixel := by
    have hlimit : Pixel.limit 30 0 100 = 30 ∧ Pixel.limit 210 0 100 = 100 := by decide
    cases h : pixel.vValue with
    | none => simp [Passes, ValueIn, Component.reading, h]
    | some v =>
      simp [Passes, ValueIn, within, each, Component.reading, Component.top, hlimit, h]
  simp only [List.forall_mem_cons, List.not_mem_nil, false_implies, implies_true, and_true, hhue, hsaturation, hvalue,
    SkinColoured, and_assoc]

/-- **What `Range` selects**: the value has no upper bound. -/
theorem exists_range (h : ∀ p, image.Inside p → ColouredOrBlack (image.get p.1 p.2)) :
    ∃ out, range image = some out ∧ ∀ p, image.Inside p →
      (out.px p = Pixel.gray 255 ↔ SkinColoured (image.get p.1 p.2) ∧ ValueIn 30 100 (image.get p.1 p.2)) ∧
        (out.px p = Pixel.gray 255 ∨ out.px p = Pixel.gray 0) := by
  obtain ⟨out, hout, -, hpx⟩ := exists_select (each 25 3 30) (each 210 55 210) (each false true true)
    [.hue, .saturation, .value] fun p hp => (h p hp).readable
  exact ⟨out, by rw [range_eq, hout], fun p hp => ⟨(hpx p hp).1.trans (passes_iff _), (hpx p hp).2⟩⟩

theorem valueIn_split (pixel : Pixel) : ValueIn 30 100 pixel ↔ ValueIn 30 80 pixel ∨ ValueIn 81 100 pixel := by
  cases hv : pixel.vValue with
  | none => simp [ValueIn, hv]
  | some v =>
    simp only [ValueIn, hv, Option.some.injEq, exists_eq_left']
    omega

/-- **When the mask is right**: no pixel of the hue and the saturation of skin is brighter than skin. -/
theorem skinMask_iff (h : ∀ p, image.Inside p → ColouredOrBlack (image.get p.1 p.2)) : SkinMask image ↔
    ∀ p, image.Inside p → SkinColoured (image.get p.1 p.2) → ¬ValueIn 81 100 (image.get p.1 p.2) := by
  obtain ⟨out, hout, hpx⟩ := exists_range h
  constructor
  · rintro ⟨out', hout', hmask⟩ p hp hcolour hbright
    obtain rfl : out' = out := Option.some.inj (hout'.symm.trans hout)
    have hsel := (hpx p hp).1.2 ⟨hcolour, (valueIn_split _).2 (.inr hbright)⟩
    obtain ⟨v, hv, -, hv80⟩ := ((hmask p hp).1.1 hsel).2
    obtain ⟨v', hv', hv81, -⟩ := hbright
    obtain rfl : v = v' := Option.some.inj (hv.symm.trans hv')
    omega
  · intro hdark
    refine ⟨out, hout, fun p hp => ⟨(hpx p hp).1.trans ?_, (hpx p hp).2⟩⟩
    exact and_congr_right fun hcolour => (valueIn_split _).trans (or_iff_left (hdark p hp hcolour))

/-- Skin of the value 70. -/
theorem skinMask_skin : SkinMask (swatch (Pixel.rgb 180 130 110)) := by
  have hvalue : (Pixel.rgb 180 130 110).vValue = some 70 := by decide +kernel
  refine (skinMask_iff fun p hp => ?_).2 fun p hp _ => ?_
  · rw [get_swatch rfl hp]
    decide
  · rw [get_swatch rfl hp]
    rintro ⟨v, hv, hlo, -⟩
    obtain rfl : v = 70 := Option.some.inj (hv.symm.trans hvalue)
    exact absurd hlo (by decide)

/-- Of the value 100 it is selected as well. -/
theorem not_skinMask_bright : ColouredOrBlack (Pixel.rgb 255 200 180) ∧
    ¬SkinMask (swatch (Pixel.rgb 255 200 180)) := by
  refine ⟨by decide, ?_⟩
  rintro ⟨out, hout, hmask⟩
  have hin : (swatch (Pixel.rgb 255 200 180)).Inside (0, 0) := by decide
  have hvalue : (Pixel.rgb 255 200 180).vValue = some 100 := by decide +kernel
  have hpx : (range (swatch (Pixel.rgb 255 200 180))).map (fun out => out.px (0, 0)) = some (Pixel.gray 255) := by
    decide +kernel
  rw [hout] at hpx
  obtain ⟨v, hv, -, h80⟩ := ((hmask (0, 0) hin).1.1 (Option.some.inj hpx)).2
  rw [get_swatch rfl hin] at hv
  obtain rfl : v = 100 := Option.some.inj (hv.symm.trans hvalue)
  exact absurd h80 (by decide)

end LeftFelt.SensorBarLogic
