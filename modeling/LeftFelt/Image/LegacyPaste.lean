import LeftFelt.Image.Legacy
import LeftFelt.Lib.CInt
import LeftFelt.Lib.Steps

/-!
# Pasting into a legacy image

`biPasteImage` tests the coordinates of a pixel against the right and the lower side of the image only. In front of the
left and the upper side there are the pixels of other rows, or other memory, and these are written. So the pasted image
is clipped if nothing sticks out there, or nothing is written at all (`isClipped_iff`).

The coordinates are added as `int`s; the index is that of the integers. The two images have different buffers.
-/

namespace LeftFelt.Legacy

open Lib CInt

/-- The image, and the indices at which `image_data` has been written. -/
structure Pasting where
  base : Image
  writes : List Int

/-- `*(base->image_data + index) = pixel`. There is no result if it is outside of the buffer. -/
def Pasting.write (s : Pasting) (index : Int) (pixel : ImageData) : Option Pasting :=
  if 0 ≤ index then
    (Checked.store s.base.imageData index.toNat pixel).map fun data =>
      ⟨{ s.base with imageData := data }, s.writes ++ [index]⟩
  else none

/-- The body of the loops. -/
def pastePixel (x y : Int) (image : Image) (s : Pasting) (p : Nat × Nat) : Option Pasting := do
  let column ← int (x + p.1)
  if column < s.base.width then
    let row ← int (y + p.2)
    if row < s.base.height then s.write (column + row * s.base.width) (image.px p) else return s
  else return s

/-- `biPasteImage(base, x, y, image)`. -/
def biPasteImage (base : Image) (x y : Int) (image : Image) : Option Pasting :=
  Checked.forLoop 0 image.width (fun i => Checked.forLoop 0 image.height fun j s =>
    pastePixel x y image s (i, j)) ⟨base, []⟩

/-! ## What is right -/

/-- The pixel `p` of the pasted image belongs to the pixel `q`. -/
def Meets (x y : Int) (p q : Nat × Nat) : Prop := (q.1 : Int) = x + p.1 ∧ (q.2 : Int) = y + p.2

/-- The pixel lies in the image. -/
def Image.Inside (image : Image) (p : Nat × Nat) : Prop := p.1 < image.width ∧ p.2 < image.height

/-- **The pasted image is clipped**: what is written are the pixels that belong to one of the pasted image, with the
values of these, and the others stay as they are. -/
def IsClipped (base : Image) (x y : Int) (image : Image) : Prop :=
  ∃ s, biPasteImage base x y image = some s ∧ (s.base.width = base.width ∧ s.base.height = base.height) ∧
    (∀ k, k ∈ s.writes ↔ ∃ p q, image.Inside p ∧ base.Inside q ∧ Meets x y p q ∧ k = q.1 + q.2 * base.width) ∧
    ∀ q, base.Inside q → (∀ p, image.Inside p → Meets x y p q → s.base.px q = image.px p) ∧
      ((∀ p, image.Inside p → ¬Meets x y p q) → s.base.px q = base.px q)

/-! ## The loops -/

section Loops

variable {base image : Image} {x y : Int} {p q : Nat × Nat}

/-- The test that is made. -/
def Tested (base : Image) (x y : Int) (p : Nat × Nat) : Prop := x + p.1 < base.width ∧ y + p.2 < base.height

instance : Decidable (Meets x y p q) := inferInstanceAs (Decidable (_ ∧ _))

instance : Decidable (Tested base x y p) := inferInstanceAs (Decidable (_ ∧ _))

/-- Where a pixel is written. -/
def indexOf (base : Image) (x y : Int) (p : Nat × Nat) : Int := x + p.1 + (y + p.2) * base.width

/-- The body comes to its end. -/
def Passes (base : Image) (x y : Int) (p : Nat × Nat) : Prop :=
  Fits (x + p.1) ∧ (x + p.1 < base.width → Fits (y + p.2)) ∧
    (Tested base x y p → 0 ≤ indexOf base x y p ∧ indexOf base x y p < base.imageData.length)

instance : Decidable (Passes base x y p) := inferInstanceAs (Decidable (_ ∧ _))

/-- The body, as far as it comes to its end. -/
def visit (base : Image) (x y : Int) (image : Image) (s : Pasting) (p : Nat × Nat) : Pasting :=
  if Tested base x y p then
    ⟨{ s.base with imageData := s.base.imageData.set (indexOf base x y p).toNat (image.px p) },
      s.writes ++ [indexOf base x y p]⟩
  else s

/-- Everything but the contents of the buffer. -/
structure SameSize (image base : Image) : Prop where
  width : image.width = base.width
  height : image.height = base.height
  length : image.imageData.length = base.imageData.length

theorem sameSize_visit {s : Pasting} (h : SameSize s.base base) (p : Nat × Nat) :
    SameSize (visit base x y image s p).base base := by
  unfold visit
  split_ifs
  · exact ⟨h.width, h.height, List.length_set.trans h.length⟩
  · exact h

/-- What a write does. -/
theorem write_eq (s : Pasting) (index : Int) (pixel : ImageData) :
    s.write index pixel = if 0 ≤ index ∧ index < s.base.imageData.length then
      some ⟨{ s.base with imageData := s.base.imageData.set index.toNat pixel }, s.writes ++ [index]⟩ else none := by
  unfold Pasting.write Checked.store
  by_cases h0 : 0 ≤ index
  · by_cases hlt : index < s.base.imageData.length
    · rw [if_pos h0, if_pos (by omega), if_pos ⟨h0, hlt⟩]
      rfl
    · rw [if_pos h0, if_neg (by omega), if_neg fun h => hlt h.2]
      rfl
  · rw [if_neg h0, if_neg fun h => h0 h.1]

/-- **What the body does.** -/
theorem pastePixel_eq {s : Pasting} (h : SameSize s.base base) (p : Nat × Nat) :
    pastePixel x y image s p = if Passes base x y p then some (visit base x y image s p) else none := by
  unfold pastePixel
  rw [h.width, h.height]
  by_cases hcolumn : Fits (x + p.1)
  · rw [int_of_fits hcolumn, Option.bind_eq_bind, Option.bind_some]
    by_cases hx : x + p.1 < base.width
    · rw [if_pos hx]
      by_cases hrow : Fits (y + p.2)
      · rw [int_of_fits hrow, Option.bind_some]
        by_cases hy : y + p.2 < base.height
        · -- the pixel is written
          have hpasses : Passes base x y p ↔ 0 ≤ indexOf base x y p ∧ indexOf base x y p < base.imageData.length :=
            ⟨fun hpasses => hpasses.2.2 ⟨hx, hy⟩, fun hindex => ⟨hcolumn, fun _ => hrow, fun _ => hindex⟩⟩
          rw [if_pos hy, write_eq, h.length, visit, if_pos (show Tested base x y p from ⟨hx, hy⟩)]
          exact if_congr hpasses.symm rfl rfl
        · have htested : ¬Tested base x y p := fun htested => hy htested.2
          have hpasses : Passes base x y p := ⟨hcolumn, fun _ => hrow, fun h => absurd h htested⟩
          rw [if_neg hy, if_pos hpasses, visit, if_neg htested]
          rfl
      · rw [if_neg fun hpasses : Passes base x y p => hrow (hpasses.2.1 hx), int, if_neg hrow]
        rfl
    · have htested : ¬Tested base x y p := fun htested => hx htested.1
      have hpasses : Passes base x y p := ⟨hcolumn, fun h => absurd h hx, fun h => absurd h htested⟩
      rw [if_neg hx, if_pos hpasses, visit, if_neg htested]
      rfl
  · rw [if_neg fun hpasses : Passes base x y p => hcolumn hpasses.1, int, if_neg hcolumn]
    rfl

/-- The pixels in the order of the loops. -/
def pixels (image : Image) : List (Nat × Nat) := (raster 0 image.height 0 image.width).map Prod.swap

theorem mem_pixels : p ∈ pixels image ↔ image.Inside p := by
  simp only [pixels, List.mem_map, Prod.exists, mem_raster, Prod.swap_prod_mk, Image.Inside]
  constructor
  · rintro ⟨j, i, h, rfl⟩
    exact ⟨h.2.2, h.1.2⟩
  · rintro ⟨hi, hj⟩
    exact ⟨p.2, p.1, ⟨⟨Nat.zero_le _, hj⟩, Nat.zero_le _, hi⟩, rfl⟩

/-- **What the loops do.** -/
theorem biPasteImage_eq (base : Image) (x y : Int) (image : Image) :
    biPasteImage base x y image = if ∀ p ∈ pixels image, Passes base x y p then
      some ((pixels image).foldl (visit base x y image) ⟨base, []⟩) else none := by
  have hsize : SameSize base base := ⟨rfl, rfl, rfl⟩
  have hloop : biPasteImage base x y image = (pixels image).foldlM (pastePixel x y image) ⟨base, []⟩ := by
    rw [biPasteImage, Checked.forLoop_forLoop, pixels, List.foldlM_map]
    rfl
  rw [hloop, ← Checked.foldlM_ite]
  refine Checked.foldlM_congr (fun s => SameSize s.base base) hsize fun p _ s hs => ⟨pastePixel_eq hs p, ?_⟩
  intro s' hs'
  split_ifs at hs'
  exact Option.some.inj hs' ▸ sameSize_visit hs p

/-- What has been written in the end. -/
theorem mem_writes_foldl (l : List (Nat × Nat)) (s : Pasting) (k : Int) :
    k ∈ (l.foldl (visit base x y image) s).writes ↔
      k ∈ s.writes ∨ ∃ p ∈ l, Tested base x y p ∧ k = indexOf base x y p := by
  induction l generalizing s with
  | nil => simp
  | cons p l ih =>
    have hvisit : k ∈ (visit base x y image s p).writes ↔
        k ∈ s.writes ∨ Tested base x y p ∧ k = indexOf base x y p := by
      unfold visit
      split_ifs with htested
      · simp [htested]
      · simp [htested]
    rw [List.foldl_cons, ih, hvisit, List.exists_mem_cons_iff, or_assoc]

/-- A pixel has one place. -/
theorem Meets.unique {p' : Nat × Nat} (h : Meets x y p q) (h' : Meets x y p' q) : p = p' := by
  obtain ⟨hx, hy⟩ := h
  obtain ⟨hx', hy'⟩ := h'
  exact Prod.ext (by omega) (by omega)

/-- No pixel sticks out on the sides that are not tested. -/
def Lands (x y : Int) (p : Nat × Nat) : Prop := 0 ≤ x + p.1 ∧ 0 ≤ y + p.2

/-- A pixel that is written, and sticks out nowhere, has a place. -/
theorem exists_meets (htested : Tested base x y p) (hlands : Lands x y p) :
    ∃ q, base.Inside q ∧ Meets x y p q ∧ indexOf base x y p = (q.1 + q.2 * base.width : Nat) := by
  obtain ⟨hx, hy⟩ := htested
  obtain ⟨hx0, hy0⟩ := hlands
  obtain ⟨column, hcolumn⟩ := Int.eq_ofNat_of_zero_le hx0
  obtain ⟨row, hrow⟩ := Int.eq_ofNat_of_zero_le hy0
  refine ⟨(column, row), ⟨by simp only; omega, by simp only; omega⟩, ⟨hcolumn.symm, hrow.symm⟩, ?_⟩
  rw [indexOf, hcolumn, hrow]
  push_cast
  rfl

/-- A pixel of the image after the body. -/
theorem px_visit {s : Pasting} (hs : SameSize s.base base) (hsize : base.imageData.length = base.width * base.height)
    (hlands : Tested base x y p → Lands x y p) (hq : base.Inside q) (image : Image) :
    (visit base x y image s p).base.px q = if Meets x y p q then image.px p else s.base.px q := by
  unfold visit
  by_cases htested : Tested base x y p
  · obtain ⟨r, hr, hmeets, hindex⟩ := exists_meets htested (hlands htested)
    have hlength : base.width * base.height ≤ s.base.imageData.length := (hs.length.trans hsize).ge
    rw [if_pos htested, Image.px, hindex, Int.toNat_natCast, hs.width]
    refine (getD_set hlength hr hq.1 _ _).trans (if_congr ⟨?_, fun h => ?_⟩ rfl ?_)
    · rintro rfl
      exact hmeets
    · exact Prod.ext (by have := h.1.trans hmeets.1.symm; omega) (by have := h.2.trans hmeets.2.symm; omega)
    · rw [Image.px, hs.width]
  · have hmeets : ¬Meets x y p q := by
      rintro ⟨hx, hy⟩
      obtain ⟨hq1, hq2⟩ := hq
      exact htested ⟨by omega, by omega⟩
    rw [if_neg htested, if_neg hmeets]

/-- What the pixel `q` is after the pixels of a list. -/
structure PixelAfter (base : Image) (x y : Int) (image : Image) (q : Nat × Nat) (l : List (Nat × Nat)) (s : Pasting) :
    Prop where
  sameSize : SameSize s.base base
  met : ∀ p ∈ l, Meets x y p q → s.base.px q = image.px p
  rest : (∀ p ∈ l, ¬Meets x y p q) → s.base.px q = base.px q

/-- The pixels of the image in the end. -/
theorem pixelAfter_foldl {l : List (Nat × Nat)} (hsize : base.imageData.length = base.width * base.height)
    (hlands : ∀ p ∈ l, Tested base x y p → Lands x y p) (hq : base.Inside q) :
    PixelAfter base x y image q l (l.foldl (visit base x y image) ⟨base, []⟩) := by
  refine foldl_scan (PixelAfter base x y image q) ⟨⟨rfl, rfl, rfl⟩, by simp, fun _ => rfl⟩ ?_
  rintro pre p post s hl ⟨hs, hmet, hrest⟩
  have hpx := px_visit hs hsize (hlands p (by simp [hl])) hq image
  refine ⟨sameSize_visit hs p, fun p' hp' hmeets' => ?_, fun hnone => ?_⟩
  · by_cases hmeets : Meets x y p q
    · rw [hpx, if_pos hmeets, hmeets.unique hmeets']
    · rw [hpx, if_neg hmeets]
      obtain hmem | hlast := List.mem_append.1 hp'
      · exact hmet p' hmem hmeets'
      · exact absurd (List.mem_singleton.1 hlast ▸ hmeets') hmeets
  · rw [hpx, if_neg (hnone p (by simp))]
    exact hrest fun p' hp' => hnone p' (List.mem_append_left _ hp')

end Loops

/-! ## When it is clipped -/

section Clipped

variable {base image : Image} {x y : Int}

/-- A loop that comes to its end has written every pixel that is tested. -/
theorem indexOf_mem_writes {s : Pasting} (hrun : biPasteImage base x y image = some s) :
    (∀ p, image.Inside p → Passes base x y p) ∧
      ∀ k, k ∈ s.writes ↔ ∃ p, image.Inside p ∧ Tested base x y p ∧ k = indexOf base x y p := by
  rw [biPasteImage_eq] at hrun
  split_ifs at hrun with hpasses
  obtain rfl := Option.some.inj hrun
  refine ⟨fun p hp => hpasses p (mem_pixels.2 hp), fun k => ?_⟩
  rw [mem_writes_foldl]
  simp only [List.not_mem_nil, false_or, mem_pixels]

/-- If all pixels that are written land, the image is clipped. -/
theorem isClipped_of_lands (hsize : base.imageData.length = base.width * base.height)
    (hcomputed : ∀ p, image.Inside p → Fits (x + p.1) ∧ (x + p.1 < base.width → Fits (y + p.2)))
    (hlands : ∀ p, image.Inside p → Tested base x y p → Lands x y p) : IsClipped base x y image := by
  have hpasses : ∀ p ∈ pixels image, Passes base x y p := fun p hp => by
    have hp := mem_pixels.1 hp
    refine ⟨(hcomputed p hp).1, (hcomputed p hp).2, fun htested => ?_⟩
    obtain ⟨q, hq, -, hindex⟩ := exists_meets htested (hlands p hp htested)
    have hlt := index_lt hq.1 hq.2
    rw [hindex, hsize]
    exact ⟨Int.natCast_nonneg _, by exact_mod_cast hlt⟩
  have hrun := (biPasteImage_eq base x y image).trans (if_pos hpasses)
  have hsame : SameSize ((pixels image).foldl (visit base x y image) ⟨base, []⟩).base base :=
    foldl_scan_all (fun s : Pasting => SameSize s.base base) ⟨rfl, rfl, rfl⟩ fun p s _ hs => sameSize_visit hs p
  refine ⟨_, hrun, ⟨hsame.width, hsame.height⟩, fun k => ?_, fun q hq => ?_⟩
  · rw [(indexOf_mem_writes hrun).2]
    constructor
    · rintro ⟨p, hp, htested, rfl⟩
      obtain ⟨q, hq, hmeets, hindex⟩ := exists_meets htested (hlands p hp htested)
      exact ⟨p, q, hp, hq, hmeets, by rw [hindex]; push_cast; rfl⟩
    · rintro ⟨p, q, hp, hq, ⟨hx, hy⟩, rfl⟩
      obtain ⟨hq1, hq2⟩ := hq
      exact ⟨p, hp, ⟨by omega, by omega⟩, by rw [indexOf, hx, hy]⟩
  · have hpixel : PixelAfter base x y image q (pixels image) _ :=
      pixelAfter_foldl hsize (fun p hp => hlands p (mem_pixels.1 hp)) hq
    exact ⟨fun p hp => hpixel.met p (mem_pixels.2 hp),
      fun hnone => hpixel.rest fun p hp => hnone p (mem_pixels.1 hp)⟩

/-- A pixel that belongs to the place where the first one is written is the first one. -/
theorem eq_zero_of_indexOf {p q : Nat × Nat} (hq : base.Inside q) (hmeets : Meets x y p q)
    (hindex : indexOf base x y (0, 0) = q.1 + q.2 * base.width) : p.1 = 0 ∧ p.2 = 0 := by
  have hwidth : base.width ≠ 0 := Nat.ne_zero_of_lt hq.1
  have hzero : (p.1 + p.2 * base.width : Int) = 0 := by
    rw [indexOf, hmeets.1, hmeets.2] at hindex
    push_cast at hindex
    linarith
  have hzero' : p.1 + p.2 * base.width = 0 := by exact_mod_cast hzero
  rw [Nat.add_eq_zero_iff, Nat.mul_eq_zero] at hzero'
  exact ⟨hzero'.1, hzero'.2.resolve_right hwidth⟩

/-- If the first pixel is written, and the image is clipped, it lands. -/
theorem lands_of_isClipped (h : IsClipped base x y image) (hfirst : image.Inside (0, 0))
    (htested : Tested base x y (0, 0)) : 0 ≤ x ∧ 0 ≤ y := by
  obtain ⟨s, hrun, -, hwrites, -⟩ := h
  have hwritten := ((indexOf_mem_writes hrun).2 _).2 ⟨(0, 0), hfirst, htested, rfl⟩
  obtain ⟨p, q, -, hq, hmeets, hindex⟩ := (hwrites _).1 hwritten
  obtain ⟨hp1, hp2⟩ := eq_zero_of_indexOf hq hmeets hindex
  obtain ⟨hx, hy⟩ := hmeets
  exact ⟨by omega, by omega⟩

/-- **When the pasted image is clipped**: there is nothing to be pasted, or no coordinate overflows, and everything is
behind the right or the lower side, or nothing is in front of the left and the upper one. -/
theorem isClipped_iff (hsize : base.imageData.length = base.width * base.height) (hx : Fits x) (hy : Fits y)
    (image : Image) :
    IsClipped base x y image ↔ image.width = 0 ∨ image.height = 0 ∨
      x + image.width ≤ 2 ^ 31 ∧
        (base.width ≤ x ∨ y + image.height ≤ 2 ^ 31 ∧ (base.height ≤ y ∨ 0 ≤ x ∧ 0 ≤ y)) := by
  constructor
  · intro h
    obtain ⟨s, hrun, -⟩ := id h
    have hpasses := (indexOf_mem_writes hrun).1
    refine or_iff_not_imp_left.2 fun hw => or_iff_not_imp_left.2 fun hh => ⟨?_, ?_⟩
    · have hlast := (hpasses (image.width - 1, 0) ⟨Nat.pred_lt hw, Nat.pos_of_ne_zero hh⟩).1
      rw [Fits] at hlast
      simp only at hlast
      omega
    · refine or_iff_not_imp_left.2 fun hcolumn => ⟨?_, or_iff_not_imp_left.2 fun hrow => ?_⟩
      · have hlast := (hpasses (0, image.height - 1) ⟨Nat.pos_of_ne_zero hw, Nat.pred_lt hh⟩).2.1
          (by simpa using hcolumn)
        rw [Fits] at hlast
        simp only at hlast
        omega
      · exact lands_of_isClipped h ⟨Nat.pos_of_ne_zero hw, Nat.pos_of_ne_zero hh⟩
          ⟨by simpa using hcolumn, by simpa using hrow⟩
  · intro h
    rw [Fits] at hx hy
    refine isClipped_of_lands hsize (fun p hp => ?_) fun p hp htested => ?_
    · obtain ⟨hp1, hp2⟩ := hp
      simp only [Fits]
      omega
    · obtain ⟨hp1, hp2⟩ := hp
      obtain ⟨htested1, htested2⟩ := htested
      rw [Lands]
      omega

end Clipped

/-- What sticks out on the right and on the lower side is left out. -/
theorem isClipped_corner :
    IsClipped ⟨2, 2, List.replicate 4 default⟩ 1 1 ⟨2, 2, List.replicate 4 ⟨255, 255, 255, 0, 255, 0⟩⟩ :=
  (isClipped_iff rfl (by decide) (by decide) _).2 (by decide)

/-- A pixel in front of the second row is written at the end of the first one. -/
theorem not_isClipped_left :
    ¬∀ (base : Image) (x y : Int) (image : Image), base.imageData.length = base.width * base.height →
      image.imageData.length = image.width * image.height → Fits x → Fits y → IsClipped base x y image := by
  intro h
  obtain ⟨s, hrun, -, hwrites, -⟩ :=
    h ⟨2, 2, List.replicate 4 default⟩ (-1) 1 ⟨1, 1, [default]⟩ rfl rfl (by decide) (by decide)
  have hwritten : biPasteImage ⟨2, 2, List.replicate 4 default⟩ (-1) 1 ⟨1, 1, [default]⟩ =
      some ⟨⟨2, 2, List.replicate 4 default⟩, [1]⟩ := rfl
  obtain rfl := Option.some.inj (hwritten.symm.trans hrun)
  obtain ⟨p, q, ⟨hp, -⟩, -, ⟨hx, -⟩, -⟩ := (hwrites 1).1 (by simp)
  simp only at hp
  omega

end LeftFelt.Legacy
