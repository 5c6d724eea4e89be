import LeftFelt.Image.Legacy
import LeftFelt.Lib.CInt
import LeftFelt.Lib.Steps
import Mathlib.Algebra.Ring.Rat

/-!
# The convolution with a wavelet

`convolution` goes through a window around a pixel, of 31 times 31 points in the distance of the scale. It compares the
index of a point with the number of pixels, and passes over those that are larger; the index that is equal to it is
read, although it stands behind the image. `staysInside_iff` says when this does not happen.

The scales are integers, and so are then all numbers up to the wavelet `gw`, which is a parameter. Sums are exact.
-/

namespace LeftFelt.Wavelet

open Lib CInt Legacy

/-- `Comp_Num`. -/
structure CompNum (K : Type) where
  real : K
  imaginary : K

/-- `sum`, and the indices at which `image_data` has been read. -/
structure Reading (K : Type) where
  sum : CompNum K
  reads : List Int

variable {K : Type} [CommRing K] (gw : Int → Int → CompNum K) (image : Image)

/-- The sum with one more point, where `i` and `j` lead to the index. Behind the image there is a default pixel. -/
def add (index i j : Int) (s : Reading K) : Reading K :=
  let num := gw i j
  let graylevel : K := (image.imageData.getD index.toNat default).graylevel.toNat
  ⟨⟨s.sum.real + graylevel * num.real, s.sum.imaginary + graylevel * num.imaginary⟩, s.reads ++ [index]⟩

/-- The body of the loops. -/
def body (pos maxSize : Int) (s : Reading K) (j i : Int) : Option (Reading K) := do
  let myPos ← int (i + j * image.width)
  let index ← int (pos + myPos)
  if index < 0 ∨ index > maxSize then return s
  return add gw image index i j s

/-- `convolution(image, x, y, arg)`, for `arg.j` and the wavelet of the other parameters. -/
def convolution (x y scale : Int) : Option (Reading K) := do
  let row ← int (y * image.width)
  let pos ← int (x + row)
  let maxSize ← int (image.width * image.height)
  let w_size := 15 * scale
  (steps (-w_size) w_size scale).foldlM (fun s j =>
    (steps (-w_size) w_size scale).foldlM (fun s i => body gw image pos maxSize s j i) s) ⟨⟨0, 0⟩, []⟩

/-! ## The loops -/

section Loops

variable {image} {pos maxSize scale : Int}

/-- Where a point of the window is. -/
def indexOf (image : Image) (pos : Int) (p : Int × Int) : Int := pos + (p.2 + p.1 * image.width)

/-- Its index is computed without an overflow. -/
def Computed (image : Image) (pos : Int) (p : Int × Int) : Prop :=
  Fits (p.2 + p.1 * image.width) ∧ Fits (indexOf image pos p)

instance (p : Int × Int) : Decidable (Computed image pos p) := inferInstanceAs (Decidable (_ ∧ _))

/-- The body, as far as there is no overflow. -/
def visit (image : Image) (pos maxSize : Int) (s : Reading K) (p : Int × Int) : Reading K :=
  if indexOf image pos p < 0 ∨ indexOf image pos p > maxSize then s
  else add gw image (indexOf image pos p) p.2 p.1 s

theorem body_eq (s : Reading K) (p : Int × Int) :
    body gw image pos maxSize s p.1 p.2 =
      if Computed image pos p then some (visit gw image pos maxSize s p) else none := by
  unfold body Computed visit indexOf int
  by_cases hpos : Fits (p.2 + p.1 * image.width)
  · by_cases hindex : Fits (pos + (p.2 + p.1 * image.width))
    · simp only [Option.bind_eq_bind, Option.bind_some, hpos, hindex, and_self, if_true]
      split_ifs <;> rfl
    · simp [hpos, hindex]
  · simp [hpos]

/-- The points of the window. -/
def window (scale : Int) : List (Int × Int) :=
  steps (-(15 * scale)) (15 * scale) scale ×ˢ steps (-(15 * scale)) (15 * scale) scale

theorem mem_window (hscale : 0 < scale) {p : Int × Int} :
    p ∈ window scale ↔ ∃ a b : Int, |a| ≤ 15 ∧ |b| ≤ 15 ∧ p = (b * scale, a * scale) := by
  have hsteps := fun v => mem_steps_symm (v := v) hscale 15
  simp only [Nat.cast_ofNat] at hsteps
  rw [window, List.mem_product, hsteps, hsteps]
  constructor
  · rintro ⟨⟨b, hb, hj⟩, a, ha, hi⟩
    exact ⟨a, b, ha, hb, Prod.ext hj hi⟩
  · rintro ⟨a, b, ha, hb, rfl⟩
    exact ⟨⟨b, hb, rfl⟩, a, ha, rfl⟩

/-- What has been read in the end. -/
theorem mem_reads_foldl (l : List (Int × Int)) (s : Reading K) (k : Int) :
    k ∈ (l.foldl (visit gw image pos maxSize) s).reads ↔
      k ∈ s.reads ∨ ∃ p ∈ l, k = indexOf image pos p ∧ 0 ≤ k ∧ k ≤ maxSize := by
  induction l generalizing s with
  | nil => simp
  | cons p l ih =>
    have hvisit : k ∈ (visit gw image pos maxSize s p).reads ↔
        k ∈ s.reads ∨ k = indexOf image pos p ∧ 0 ≤ k ∧ k ≤ maxSize := by
      unfold visit
      split_ifs with hskip
      · refine (or_iff_left ?_).symm
        rintro ⟨rfl, hrange⟩
        omega
      · rw [add, List.mem_append, List.mem_singleton]
        refine or_congr_right (and_iff_left_of_imp ?_).symm
        rintro rfl
        omega
    rw [List.foldl_cons, ih, hvisit, List.exists_mem_cons_iff, or_assoc]

end Loops

/-! ## Around a pixel -/

section Pixel

variable {image} {x y scale : Int}

/-- The farthest point decides if there is an overflow. -/
theorem forall_computed_iff {pos : Int} (hpos : 0 ≤ pos) (hscale : 0 < scale) :
    (∀ p ∈ window scale, Computed image pos p) ↔ pos + 15 * scale * (image.width + 1) < 2 ^ 31 := by
  constructor
  · intro h
    have hcorner := (h (15 * scale, 15 * scale) ((mem_window hscale).2 ⟨15, 15, by decide, by decide, rfl⟩)).2.2
    rw [indexOf] at hcorner
    linarith
  · intro h p hp
    obtain ⟨a, b, ha, hb, rfl⟩ := (mem_window hscale).1 hp
    obtain ⟨halow, hahigh⟩ := abs_le.1 ha
    obtain ⟨hblow, hbhigh⟩ := abs_le.1 hb
    have hwidth : (0 : Int) ≤ image.width := Int.natCast_nonneg _
    have hhigh : (a + b * image.width) * scale ≤ 15 * (image.width + 1) * scale := by
      refine mul_le_mul_of_nonneg_right ?_ hscale.le
      linarith [mul_le_mul_of_nonneg_right hbhigh hwidth]
    have hlow : -15 * (image.width + 1) * scale ≤ (a + b * image.width) * scale := by
      refine mul_le_mul_of_nonneg_right ?_ hscale.le
      linarith [mul_le_mul_of_nonneg_right hblow hwidth]
    rw [Computed, indexOf, Fits, Fits]
    refine ⟨⟨?_, ?_⟩, ?_, ?_⟩ <;> linarith

/-- The pixel is in the image, which has no more pixels than an `int` counts. -/
theorem convolution_eq (hx : 0 ≤ x ∧ x < image.width) (hy : 0 ≤ y ∧ y < image.height)
    (hsize : (image.width * image.height : Int) < 2 ^ 31) (hscale : 0 < scale) :
    convolution gw image x y scale =
      if x + y * image.width + 15 * scale * (image.width + 1) < 2 ^ 31 then
        some ((window scale).foldl (visit gw image (x + y * image.width) (image.width * image.height)) ⟨⟨0, 0⟩, []⟩)
      else none := by
  have hwidth : (0 : Int) ≤ image.width := Int.natCast_nonneg _
  have hrow : 0 ≤ y * image.width := mul_nonneg hy.1 hwidth
  have hlast : (y + 1) * image.width ≤ image.height * image.width :=
    mul_le_mul_of_nonneg_right (Int.add_one_le_iff.2 hy.2) hwidth
  have hfits : Fits (y * image.width) ∧ Fits (x + y * image.width) ∧ Fits (image.width * image.height) := by
    simp only [Fits]
    refine ⟨⟨?_, ?_⟩, ⟨?_, ?_⟩, ?_, ?_⟩ <;> linarith
  obtain ⟨hfits₁, hfits₂, hfits₃⟩ := hfits
  have hloop := Checked.foldlM_foldlM
    (fun s j i => body gw image (x + y * image.width) (image.width * image.height) s j i)
    (steps (-(15 * scale)) (15 * scale) scale) (steps (-(15 * scale)) (15 * scale) scale) ⟨⟨0, 0⟩, []⟩
  simp only [body_eq] at hloop
  rw [Checked.foldlM_ite] at hloop
  simp only [convolution, int_of_fits hfits₁, int_of_fits hfits₂, int_of_fits hfits₃, Option.bind_eq_bind,
    Option.bind_some]
  rw [hloop]
  exact if_congr (forall_computed_iff (by linarith [hx.1]) hscale) rfl rfl

theorem convolution_eq_none (h : ¬(image.width * image.height : Int) < 2 ^ 31) :
    convolution gw image x y scale = none := by
  have hsize : int (image.width * image.height) = none := if_neg fun hfits => h hfits.2
  unfold convolution
  rw [hsize]
  cases int (y * image.width) with
  | none => rfl
  | some row =>
    rw [Option.bind_eq_bind, Option.bind_some]
    cases int (x + row) with
    | none => rfl
    | some pos => rfl

/-- **The window is read inside of the image**, and there is no overflow. -/
def StaysInside (gw : Int → Int → CompNum K) (image : Image) (x y scale : Int) : Prop :=
  ∃ s, convolution gw image x y scale = some s ∧ ∀ k ∈ s.reads, 0 ≤ k ∧ k < image.width * image.height

/-- **When the window stays in the image**: no point of it has the number of pixels as its index, and no `int`
overflows. -/
theorem staysInside_iff (hx : 0 ≤ x ∧ x < image.width) (hy : 0 ≤ y ∧ y < image.height) (hscale : 0 < scale) :
    StaysInside gw image x y scale ↔
      (image.width * image.height : Int) < 2 ^ 31 ∧ x + y * image.width + 15 * scale * (image.width + 1) < 2 ^ 31 ∧
      ∀ a b : Int, |a| ≤ 15 → |b| ≤ 15 →
        x + y * image.width + (a + b * image.width) * scale ≠ image.width * image.height := by
  by_cases hsize : (image.width * image.height : Int) < 2 ^ 31
  · rw [StaysInside, convolution_eq gw hx hy hsize hscale]
    refine Iff.trans ?_ (and_iff_right hsize).symm
    split_ifs with hfits
    · simp only [Option.some.injEq, exists_eq_left', mem_reads_foldl, List.not_mem_nil, false_or, hfits, true_and]
      constructor
      · intro h a b ha hb heq
        -- the point that has the number of pixels as its index is read
        have hindex : indexOf image (x + y * image.width) (b * scale, a * scale) = image.width * image.height := by
          rw [indexOf, ← heq]
          ring
        have hnonneg : (0 : Int) ≤ image.width * image.height := by positivity
        exact (h _ ⟨_, (mem_window hscale).2 ⟨a, b, ha, hb, rfl⟩, hindex.symm, hnonneg, le_rfl⟩).2.false
      · rintro h k ⟨p, hp, rfl, hnonneg, hle⟩
        obtain ⟨a, b, ha, hb, rfl⟩ := (mem_window hscale).1 hp
        refine ⟨hnonneg, hle.lt_of_ne fun heq => h a b ha hb ?_⟩
        rw [← heq, indexOf]
        ring
    · exact ⟨fun ⟨_, h, _⟩ => (nomatch h), fun h => absurd h.1 hfits⟩
  · rw [StaysInside, convolution_eq_none gw hsize]
    exact ⟨fun ⟨_, h, _⟩ => (nomatch h), fun h => absurd h.1 hsize⟩

/-- A column in which no window comes to the end. -/
theorem staysInside_column :
    StaysInside (fun _ _ => (⟨0, 0⟩ : CompNum ℚ)) ⟨1, 31, List.replicate 31 default⟩ 0 0 1 := by
  refine (staysInside_iff _ (by decide) (by decide) (by decide)).2 ⟨by decide, by decide, fun a b ha hb => ?_⟩
  rw [abs_le] at ha hb
  simp only [Nat.cast_one, Nat.cast_ofNat]
  omega

/-- An image of one pixel: the points next to it are behind the image. -/
theorem not_staysInside_pixel :
    ¬∀ (gw : Int → Int → CompNum ℚ) (image : Image) (x y scale : Int), 0 < image.width → 0 < image.height →
      (0 ≤ x ∧ x < image.width) → (0 ≤ y ∧ y < image.height) → 0 < scale → StaysInside gw image x y scale := by
  intro h
  have hpixel := h (fun _ _ => ⟨0, 0⟩) ⟨1, 1, [default]⟩ 0 0 1 (by decide) (by decide) (by decide) (by decide)
    (by decide)
  rw [StaysInside, convolution_eq _ (by decide) (by decide) (by decide) (by decide), if_pos (by decide)] at hpixel
  obtain ⟨s, hs, hreads⟩ := hpixel
  cases hs
  have hwindow : ((0, 1) : Int × Int) ∈ window 1 := (mem_window (by decide)).2 ⟨1, 0, by decide, by decide, rfl⟩
  have hread := hreads 1 ((mem_reads_foldl _ _ _ _).2 (.inr ⟨(0, 1), hwindow, by decide⟩))
  exact absurd hread.2 (by decide)

end Pixel

end LeftFelt.Wavelet
