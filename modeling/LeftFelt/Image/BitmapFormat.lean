import LeftFelt.Image.Bitmap

/-!
# The rows of a bitmap file

Two properties of the BMP format, and exactly when the files of `Save` have them.

* The rows stand bottom row first. `Height(-Height())` was written for this, and `biReverseImage` does it; but row 0
  stays where it is (`get_flip`), so the order is right only for pictures whose rows are all the same
  (`flipsVertically_iff`).
* Every row takes a multiple of 4 bytes. With 24 bits the padding sees to it and with 32 bits nothing is needed; with
  8 bits nothing is written, so the width has to be a multiple of 4 (`rowsAligned_iff`).
-/

namespace LeftFelt.ImageUtil

open Lib BiImage

/-! ## The order of the rows -/

/-- A legacy image that shows the same colours. -/
structure SameColours (image : BiImage) (legacy : Legacy.Image) : Prop where
  width : legacy.width = image.width
  height : legacy.height = image.height
  colours : ∀ x y : Nat, image.Inside (x, y) → (legacy.px (x, y)).rgbRed = (image.get x y).red ∧
    (legacy.px (x, y)).rgbGreen = (image.get x y).green ∧ (legacy.px (x, y)).rgbBlue = (image.get x y).blue

/-- `Height(-Height())` is the vertical flip: it moves every pixel to the mirrored row, agrees with `biReverseImage`,
and lets `Save` write the bottom row first. -/
structure FlipsVertically (image : BiImage) : Prop where
  moves : ∀ x y : Nat, image.Inside (x, y) → image.flip.get x (image.height - 1 - y : Nat) = image.get x y
  agrees : ∀ (legacy : Legacy.Image) (malloc : Nat → Legacy.ImageData), SameColours image legacy →
    SameColours image.flip (Legacy.biReverseImage legacy malloc)
  bottomUp : ∀ (bitCount : Nat) (malloc : Nat → UInt8), (save image bitCount 54 malloc).1 =
    header image.width image.height bitCount (offBits bitCount) malloc ++
      (List.range' 0 image.height).flatMap fun j : Nat => rowBytes image bitCount (image.height - 1 - j)

/-- All rows of the picture are the same. -/
def RowsEqual (image : BiImage) : Prop := ∀ x y : Nat, image.Inside (x, y) → image.get x y = image.get x 0

/-- In a picture with equal rows the flip shows every row unchanged. -/
theorem RowsEqual.get_flip {image : BiImage} (h : RowsEqual image) {x y y' : Nat} (hp : image.Inside (x, y))
    (hp' : image.Inside (x, y')) : image.flip.get x y = image.get x y' := by
  have hy : y < image.height := hp.2
  have hrow : image.Inside (x, flipRow image.height y) := ⟨hp.1, flipRow_lt hy⟩
  rw [BiImage.get_flip hp, h x _ hrow, h x _ hp']

theorem RowsEqual.rowBytes_flip {image : BiImage} (h : RowsEqual image) (bitCount : Nat) {j j' : Nat}
    (hj : j < image.height) (hj' : j' < image.height) :
    rowBytes image.flip bitCount j = rowBytes image bitCount j' := by
  have hpixels : (List.range' 0 image.width).flatMap (fun i : Nat => pixelBytes bitCount (image.flip.get i j)) =
      (List.range' 0 image.width).flatMap fun i : Nat => pixelBytes bitCount (image.get i j') := by
    refine List.flatMap_congr fun i hi => ?_
    have hi' : i < image.width := by
      rw [List.mem_range'_1] at hi
      omega
    rw [h.get_flip ⟨hi', hj⟩ ⟨hi', hj'⟩]
  rw [rowBytes, rowBytes, width_flip, hpixels]

/-- **When the flip is a flip**: exactly when all rows of the picture are the same. -/
theorem flipsVertically_iff (image : BiImage) : FlipsVertically image ↔ RowsEqual image := by
  constructor
  · intro h x y
    -- row 0 stays, so the last row shows row 0; any other row shows its neighbour
    induction y with
    | zero => exact fun _ => rfl
    | succ y ih =>
      intro hp
      have hy : y + 1 < image.height := hp.2
      have hbelow : image.Inside (x, y) := ⟨hp.1, by omega⟩
      have hmirror : image.Inside (x, image.height - 1 - y) := ⟨hp.1, by show image.height - 1 - y < _; omega⟩
      have hmoved := h.moves x y hbelow
      rw [get_flip hmirror, flipRow_pos (by omega) (by omega),
        show image.height - (image.height - 1 - y) = y + 1 by omega] at hmoved
      rw [hmoved, ih hbelow]
  · intro h
    refine ⟨fun x y hp => ?_, fun legacy malloc hlegacy => ?_, fun bitCount malloc => ?_⟩
    · have hy : y < image.height := hp.2
      exact h.get_flip ⟨hp.1, by show image.height - 1 - y < _; omega⟩ hp
    · refine ⟨hlegacy.width.trans (width_flip image).symm, hlegacy.height.trans (height_flip image).symm, ?_⟩
      intro x y hp
      have hin := (sameFrame_flip image).inside.1 hp
      have hy : y < image.height := hin.2
      have hmirror : image.Inside (x, image.height - 1 - y) := ⟨hin.1, by show image.height - 1 - y < _; omega⟩
      rw [Legacy.px_biReverseImage legacy malloc (p := (x, y)) ⟨by rw [hlegacy.width]; exact hin.1,
        by rw [hlegacy.height]; exact hin.2⟩, hlegacy.height, h.get_flip hin hmirror]
      exact hlegacy.colours x _ hmirror
    · rw [save_fst]
      refine congrArg _ (List.flatMap_congr fun j hj => ?_)
      rw [List.mem_range'_1] at hj
      exact h.rowBytes_flip bitCount (by omega) (by omega)

/-- A white pixel above a black one. -/
def whiteOverBlack : BiImage :=
  ofFn 1 2 one_fits two_fits fun _ y => if y = 0 then Pixel.gray 255 else Pixel.gray 0

/-- The flip leaves a white pixel above a black one as it is. -/
theorem not_flipsVertically : ¬FlipsVertically whiteOverBlack := by
  intro h
  have hmoved := h.moves 0 0 (by decide)
  rw [get_flip (by decide)] at hmoved
  revert hmoved
  decide

/-! ## The length of the rows -/

/-- Every row that `Save` writes and every row that `Load` reads takes a multiple of 4 bytes: the bytes of the pixels,
and less than 4 bytes of padding. -/
structure RowsAligned (image : BiImage) (bitCount : Nat) : Prop where
  written : ∀ j < image.height, ∀ op : List UInt8, ∃ pixels pad : List UInt8,
    writeRow image.flip bitCount j op = op ++ (pixels ++ pad) ∧
      pixels = (List.range' 0 image.width).flatMap (fun i : Nat => pixelBytes bitCount (image.flip.get i j)) ∧
      pad.length < 4 ∧ 4 ∣ (pixels ++ pad).length
  consumed : ∀ j < image.height, ∀ s : Reader, image.width * 4 ≤ s.fp.length → ∃ pixels pad : List UInt8,
    s.fp = (pixels ++ pad) ++ (readRow bitCount image.width j s).fp ∧
      pixels.length = image.width * (bitCount / 8) ∧
      (readRow bitCount image.width j s).image =
        (forLoop 0 image.width (readPixel bitCount j) { s with fp := pixels }).image ∧
      pad.length < 4 ∧ 4 ∣ (pixels ++ pad).length

section Aligned

variable {bitCount : Nat} (hb : bitCount = 8 ∨ bitCount = 24 ∨ bitCount = 32)
include hb

theorem length_pixelBytes (p : Pixel) : (pixelBytes bitCount p).length = bitCount / 8 := by
  rcases hb with rfl | rfl | rfl <;> rfl

theorem length_pixels (v : Nat → Pixel) (l : List Nat) :
    (l.flatMap fun i => pixelBytes bitCount (v i)).length = l.length * (bitCount / 8) := by
  induction l with
  | nil => simp
  | cons i l ih => rw [List.flatMap_cons, List.length_append, ih, length_pixelBytes hb, List.length_cons]; ring

omit hb in
theorem length_padding (width : Nat) : (padding bitCount width).length < 4 := by
  unfold padding
  split
  · rw [List.length_replicate]; omega
  · simp

/-- Pixels and padding fill a multiple of 4 bytes, except that with 8 bits the width has to do it. -/
theorem dvd_rowLength (width : Nat) :
    4 ∣ width * (bitCount / 8) + (padding bitCount width).length ↔ bitCount ≠ 8 ∨ 4 ∣ width := by
  unfold padding
  rcases hb with rfl | rfl | rfl
  · simp
  · simp only [if_true, List.length_replicate]
    omega
  · simp only [List.length_nil, Nat.reduceEqDiff, if_false]
    omega

/-- `readPixel` takes the bytes of one pixel, and what it puts depends on nothing else. -/
theorem readPixel_consumes (j i : Nat) {chunk rest rest' : List UInt8} (hchunk : chunk.length = bitCount / 8)
    {s s' : Reader} (hs : s.fp = chunk ++ rest) (hs' : s'.fp = chunk ++ rest') (himage : s.image = s'.image) :
    ((readPixel bitCount j i s).fp = rest ∧ (readPixel bitCount j i s').fp = rest') ∧
      (readPixel bitCount j i s).image = (readPixel bitCount j i s').image := by
  rcases hb with rfl | rfl | rfl
  · obtain ⟨a, rfl⟩ := List.length_eq_one_iff.1 hchunk
    simp [readPixel, fread, hs, hs', himage]
  · obtain ⟨a, b, c, rfl⟩ := List.length_eq_three.1 hchunk
    simp [readPixel, fread, hs, hs', himage]
  · obtain ⟨a, tail, rfl⟩ := List.exists_cons_of_length_eq_add_one hchunk
    obtain ⟨b, c, d, rfl⟩ := List.length_eq_three.1 (Nat.succ_injective hchunk)
    simp [readPixel, fread, hs, hs', himage]

/-- The loop over a row takes the bytes of its pixels. -/
theorem readPixels_consume (j : Nat) (l : List Nat) {pixels rest : List UInt8}
    (hpixels : pixels.length = l.length * (bitCount / 8)) {s s' : Reader} (hs : s.fp = pixels ++ rest)
    (hs' : s'.fp = pixels) (himage : s.image = s'.image) :
    (l.foldl (fun s i => readPixel bitCount j i s) s).fp = rest ∧
      (l.foldl (fun s i => readPixel bitCount j i s) s).image =
        (l.foldl (fun s i => readPixel bitCount j i s) s').image := by
  induction l generalizing pixels s s' with
  | nil =>
    rw [List.length_nil, Nat.zero_mul, List.length_eq_zero_iff] at hpixels
    rw [hpixels] at hs
    exact ⟨hs, himage⟩
  | cons i l ih =>
    rw [List.length_cons, Nat.succ_mul] at hpixels
    have hsplit := List.take_append_drop (bitCount / 8) pixels
    have hchunk : (pixels.take (bitCount / 8)).length = bitCount / 8 := by
      rw [List.length_take]; omega
    rw [← hsplit, List.append_assoc] at hs
    rw [← hsplit] at hs'
    obtain ⟨⟨hfp, hfp'⟩, him⟩ := readPixel_consumes hb j i hchunk hs hs' himage
    refine ih ?_ hfp hfp' him
    rw [List.length_drop]; omega

/-- A row is read as the bytes of its pixels and the padding. -/
theorem readRow_consumes (width j : Nat) {pixels pad rest : List UInt8}
    (hpixels : pixels.length = width * (bitCount / 8)) (hpad : pad.length = (padding bitCount width).length)
    {s : Reader}
    (hs : s.fp = pixels ++ (pad ++ rest)) :
    (readRow bitCount width j s).fp = rest ∧
      (readRow bitCount width j s).image =
        (forLoop 0 width (readPixel bitCount j) { s with fp := pixels }).image := by
  obtain ⟨hfp, himage⟩ := readPixels_consume hb j (List.range' 0 width) (by simpa using hpixels) hs
    (show ({ s with fp := pixels } : Reader).fp = pixels from rfl) rfl
  obtain ⟨hskip, hkeep⟩ := skipPadding_spec bitCount width (forLoop 0 width (readPixel bitCount j) s)
  refine ⟨?_, hkeep.trans himage⟩
  rw [readRow, hskip]
  simp only [forLoop, Nat.sub_zero, hfp, ← hpad]
  exact List.drop_left

/-- **When the rows are aligned**: always with 24 and 32 bits, with 8 bits when the width is a multiple of 4. -/
theorem rowsAligned_iff (image : BiImage) :
    RowsAligned image bitCount ↔ bitCount ≠ 8 ∨ 4 ∣ image.width ∨ image.height = 0 := by
  constructor
  · intro h
    rcases Nat.eq_zero_or_pos image.height with h0 | h0
    · exact Or.inr (Or.inr h0)
    obtain ⟨pixels, pad, hrow, hpixels, -, hdvd⟩ := h.written 0 h0 []
    rw [writeRow_eq, List.nil_append, List.nil_append, rowBytes, width_flip] at hrow
    rw [← hrow, List.length_append, length_pixels hb, List.length_range'] at hdvd
    exact ((dvd_rowLength hb image.width).1 hdvd).imp id Or.inl
  · intro h
    have hdvd : 0 < image.height → 4 ∣ image.width * (bitCount / 8) + (padding bitCount image.width).length := by
      intro h0
      exact (dvd_rowLength hb image.width).2 (h.imp id fun h => h.resolve_right (by omega))
    constructor
    · intro j hj op
      refine ⟨_, padding bitCount image.width, ?_, rfl, length_padding image.width, ?_⟩
      · rw [writeRow_eq, rowBytes, width_flip]
      · rw [List.length_append, length_pixels hb, List.length_range']
        exact hdvd (by omega)
    · intro j hj s hs
      have hpad : (padding bitCount image.width).length < 4 := length_padding image.width
      have hroom : image.width * (bitCount / 8) + (padding bitCount image.width).length ≤ s.fp.length := by
        refine le_trans ?_ hs
        unfold padding
        rcases hb with rfl | rfl | rfl
        · simp only [Nat.reduceEqDiff, if_false, List.length_nil]; omega
        · simp only [if_true, List.length_replicate]; omega
        · simp only [Nat.reduceEqDiff, if_false, List.length_nil]; omega
      have hpixels : (s.fp.take (image.width * (bitCount / 8))).length = image.width * (bitCount / 8) := by
        rw [List.length_take]; omega
      have hpadding : ((s.fp.drop (image.width * (bitCount / 8))).take (padding bitCount image.width).length).length =
          (padding bitCount image.width).length := by
        rw [List.length_take, List.length_drop]; omega
      have hsplit : s.fp = s.fp.take (image.width * (bitCount / 8)) ++
          ((s.fp.drop (image.width * (bitCount / 8))).take (padding bitCount image.width).length ++
            (s.fp.drop (image.width * (bitCount / 8))).drop (padding bitCount image.width).length) := by
        rw [List.take_append_drop, List.take_append_drop]
      obtain ⟨hfp, himage⟩ := readRow_consumes hb image.width j hpixels hpadding hsplit
      refine ⟨_, _, ?_, hpixels, himage, hpadding ▸ hpad, ?_⟩
      · rw [hfp, List.append_assoc]
        exact hsplit
      · rw [List.length_append, hpixels, hpadding]
        exact hdvd (by omega)

end Aligned

/-- With 24 bits nine bytes and three zeros are a row of three pixels. -/
theorem rowsAligned_twoColours : RowsAligned twoColours 24 ∧ padding 24 twoColours.width = [0, 0, 0] :=
  ⟨(rowsAligned_iff (by decide) twoColours).2 (Or.inl (by decide)), by decide⟩

/-- With 8 bits the row of one pixel is one byte. -/
theorem not_rowsAligned : ¬RowsAligned (create 1 1 (by decide) (by decide)) 8 := by
  intro h
  obtain ⟨pixels, pad, hrow, hpixels, -, hdvd⟩ := h.written 0 (by decide) []
  rw [writeRow_eq, List.nil_append, List.nil_append] at hrow
  rw [← hrow, rowBytes, width_flip] at hdvd
  revert hdvd
  show ¬4 ∣ ([_] ++ []).length
  decide

end LeftFelt.ImageUtil
