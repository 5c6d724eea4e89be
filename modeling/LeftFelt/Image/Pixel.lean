import Mathlib.Data.UInt
import Mathlib.Tactic.Common

/-!
# Pixels

The class `Pixel`: three `unsigned char` channels, an `int` label, and the flag `empty`. The constructor `Pixel()`
is the only code that sets the flag; every setter clears it. So an empty pixel is `Pixel()` itself, which is the
invariant `empty_eq` of the structure.
-/

namespace LeftFelt

/-- `class Pixel`. -/
structure Pixel where
  red : UInt8
  green : UInt8
  blue : UInt8
  label : Int
  empty : Bool
  empty_eq : empty = true → red = 0 ∧ green = 0 ∧ blue = 0 ∧ label = 0
  deriving DecidableEq

namespace Pixel

/-- `Pixel()`. -/
def init : Pixel := ⟨0, 0, 0, 0, true, fun _ => ⟨rfl, rfl, rfl, rfl⟩⟩

/-- `Pixel(red, green, blue)`. -/
def rgb (red green blue : UInt8) : Pixel := ⟨red, green, blue, 0, false, nofun⟩

/-- `Pixel(lightness)`. -/
def gray (lightness : UInt8) : Pixel := rgb lightness lightness lightness

/-- `Label(label)`. -/
def setLabel (p : Pixel) (label : Int) : Pixel := ⟨p.red, p.green, p.blue, label, false, nofun⟩

/-- `setRGB(red, green, blue)`. -/
def setRGB (p : Pixel) (red green blue : UInt8) : Pixel := ⟨red, green, blue, p.label, false, nofun⟩

/-- `Lightness(lightness)`. -/
def setLightness (p : Pixel) (lightness : UInt8) : Pixel := p.setRGB lightness lightness lightness

/-- `Math::limit(num, min, max)`. -/
def limit (num min max : Int) : Int := if num > max then max else if num < min then min else num

/-- The body of the operators: each channel is computed in `int` and limited. -/
def channels (op : Int → Int → Int) (p : Pixel) (red green blue : Int) : Pixel :=
  p.setRGB (UInt8.ofInt (limit (op p.red.toNat red) 0 255)) (UInt8.ofInt (limit (op p.green.toNat green) 0 255))
    (UInt8.ofInt (limit (op p.blue.toNat blue) 0 255))

/-- `operator+(pixel)`. -/
def add (p q : Pixel) : Pixel := channels (· + ·) p q.red.toNat q.green.toNat q.blue.toNat

/-- `operator-(pixel)`. -/
def sub (p q : Pixel) : Pixel := channels (· - ·) p q.red.toNat q.green.toNat q.blue.toNat

/-- `operator*(pixel)`. -/
def mul (p q : Pixel) : Pixel := channels (· * ·) p q.red.toNat q.green.toNat q.blue.toNat

/-- `operator/(pixel)`. A division by zero has no result. -/
def div (p q : Pixel) : Option Pixel :=
  if q.red = 0 ∨ q.green = 0 ∨ q.blue = 0 then none
  else some (channels Int.tdiv p q.red.toNat q.green.toNat q.blue.toNat)

/-- `operator*(value)`. -/
def scale (p : Pixel) (value : Int) : Pixel := channels (· * ·) p value value value

/-- `Lightness()`: the mean of the channels, computed in `int` and cut to `unsigned char`. -/
def lightness (p : Pixel) : UInt8 := UInt8.ofNat ((p.red.toNat + p.green.toNat + p.blue.toNat) / 3)

/-- `operator==`: the flags and the channels, not the labels. -/
def eq (p q : Pixel) : Bool := p.empty == q.empty && (p.red == q.red && p.green == q.green && p.blue == q.blue)

/-- The summed difference of the channels. -/
def diff (p q : Pixel) : Int :=
  ((p.red.toNat : Int) - q.red.toNat).natAbs + ((p.green.toNat : Int) - q.green.toNat).natAbs +
    ((p.blue.toNat : Int) - q.blue.toNat).natAbs

/-- The channels. -/
def rgbChannels : List (Pixel → UInt8) := [red, green, blue]

@[simp] theorem eq_iff {p q : Pixel} :
    p.eq q = true ↔ p.empty = q.empty ∧ p.red = q.red ∧ p.green = q.green ∧ p.blue = q.blue := by
  simp [eq, and_assoc]

theorem diff_nonneg (p q : Pixel) : 0 ≤ diff p q := by
  unfold diff
  omega

theorem diff_le (p q : Pixel) : diff p q ≤ 255 * 3 := by
  have hp := And.intro p.red.toNat_lt (And.intro p.green.toNat_lt p.blue.toNat_lt)
  have hq := And.intro q.red.toNat_lt (And.intro q.green.toNat_lt q.blue.toNat_lt)
  unfold diff
  omega

theorem diff_eq_zero {p q : Pixel} : diff p q = 0 ↔ p.red = q.red ∧ p.green = q.green ∧ p.blue = q.blue := by
  rw [← UInt8.toNat_inj, ← UInt8.toNat_inj, ← UInt8.toNat_inj, diff]
  omega

/-- The empty pixel is `Pixel()`. -/
theorem eq_init_of_empty {p : Pixel} (h : p.empty = true) : p = init := by
  obtain ⟨r, g, b, l, e, he⟩ := p
  obtain ⟨rfl, rfl, rfl, rfl⟩ := he h
  simp only at h
  subst h
  rfl

theorem toNat_lightness (p : Pixel) : p.lightness.toNat = (p.red.toNat + p.green.toNat + p.blue.toNat) / 3 := by
  have hr := p.red.toNat_lt
  have hg := p.green.toNat_lt
  have hb := p.blue.toNat_lt
  rw [lightness, UInt8.toNat_ofNat']
  omega

@[simp] theorem lightness_gray (l : UInt8) : (gray l).lightness = l := by
  apply UInt8.toNat_inj.1
  rw [toNat_lightness]
  simp only [gray, rgb]
  omega

theorem limit_bounds (n : Int) : 0 ≤ limit n 0 255 ∧ limit n 0 255 ≤ 255 := by
  unfold limit
  split_ifs
  · omega
  · omega
  · omega

/-- Numbers of 8 bits are stored as they are. -/
theorem toNat_ofInt {n : Int} (h0 : 0 ≤ n) (h : n ≤ 255) : ((UInt8.ofInt n).toNat : Int) = n := by
  rw [UInt8.ofInt, UInt8.toNat_ofNat']
  omega

/-- Pixels without label are their channels. -/
theorem rgb_ext {r g b r' g' b' : UInt8}
    (h : ∀ c ∈ rgbChannels, (c (rgb r g b)).toNat = (c (rgb r' g' b')).toNat) : rgb r g b = rgb r' g' b' := by
  have hr : r = r' := UInt8.toNat_inj.1 (h red (by simp [rgbChannels]))
  have hg : g = g' := UInt8.toNat_inj.1 (h green (by simp [rgbChannels]))
  have hb : b = b' := UInt8.toNat_inj.1 (h blue (by simp [rgbChannels]))
  rw [hr, hg, hb]

variable {c : Pixel → UInt8}

/-- Every channel is computed on its own. -/
theorem toNat_channels (hc : c ∈ rgbChannels) (op : Int → Int → Int) (p q : Pixel) :
    ((c (channels op p q.red.toNat q.green.toNat q.blue.toNat)).toNat : Int) =
      limit (op (c p).toNat (c q).toNat) 0 255 := by
  simp only [rgbChannels, List.mem_cons, List.not_mem_nil, or_false] at hc
  rcases hc with rfl | rfl | rfl
  all_goals exact toNat_ofInt (limit_bounds _).1 (limit_bounds _).2

theorem toNat_add (hc : c ∈ rgbChannels) (p q : Pixel) :
    ((c (p.add q)).toNat : Int) = limit ((c p).toNat + (c q).toNat) 0 255 := toNat_channels hc _ p q

theorem toNat_scale (hc : c ∈ rgbChannels) (p : Pixel) (value : Int) :
    ((c (p.scale value)).toNat : Int) = limit ((c p).toNat * value) 0 255 := by
  simp only [rgbChannels, List.mem_cons, List.not_mem_nil, or_false] at hc
  rcases hc with rfl | rfl | rfl
  all_goals exact toNat_ofInt (limit_bounds _).1 (limit_bounds _).2

end Pixel

end LeftFelt
