import LeftFelt.Image.Legacy
import LeftFelt.Lib.LittleEndian

/-!
# Bitmap files

`ImageUtil::Save` and `ImageUtil::Load` on the bytes of the file. `Save` flips the image, writes the 54 bytes of the two
headers (the rest of the header buffer is whatever `malloc` left there), then the rows, and flips the image back; `Load`
reads the header fields at their offsets, the rows, and flips what it read.

A row is written by `writeRow` and read by `readRow`; `readRow_rowBytes` is the round trip of one row in front of any
further bytes, `readRows` of all rows, and `load_save` of the file.
-/

namespace LeftFelt.ImageUtil

open Lib BiImage

/-! ## Writing -/

/-- `BITMAPFILEHEADER`: the signature, `bfSize`, the reserved words and `bfOffBits`. -/
def fileHeader (bfOffBits : Nat) : List UInt8 :=
  [66, 77] ++ leBytes 4 0 ++ leBytes 2 0 ++ leBytes 2 0 ++ leBytes 4 bfOffBits

/-- `BITMAPINFOHEADER`: `biSize`, the dimensions, `biPlanes`, `biBitCount` and six fields that are 0. -/
def infoHeader (width height bitCount : Nat) : List UInt8 :=
  leBytes 4 40 ++ leBytes 4 width ++ leBytes 4 height ++ leBytes 2 1 ++ leBytes 2 bitCount ++
    (leBytes 4 0 ++ leBytes 4 0 ++ leBytes 4 0 ++ leBytes 4 0 ++ leBytes 4 0 ++ leBytes 4 0)

/-- The bytes of one pixel. -/
def pixelBytes (bitCount : Nat) (p : Pixel) : List UInt8 :=
  if bitCount = 8 then [p.lightness]
  else [p.blue, p.green, p.red] ++ if bitCount = 32 then [0] else []

/-- The bytes written after the pixels of a row. -/
def padding (bitCount width : Nat) : List UInt8 := if bitCount = 24 then List.replicate (width % 4) 0 else []

/-- The body of the loop over the rows in `Save`. -/
def writeRow (image : BiImage) (bitCount j : Nat) (op : List UInt8) : List UInt8 :=
  forLoop 0 image.width (fun i op => op ++ pixelBytes bitCount (image.get i j)) op ++ padding bitCount image.width

/-- `Save(image, filename, bitCount, dataoffset)`: the file, and the image afterwards. `malloc` holds the bytes of the
header buffer that nothing is copied to. -/
def save (image : BiImage) (bitCount dataoffset : Nat) (malloc : Nat → UInt8) : List UInt8 × BiImage :=
  let bfOffBits := if bitCount ≤ 8 then 1024 + dataoffset else dataoffset
  let head := fileHeader bfOffBits ++ infoHeader image.width image.height bitCount ++
    (List.range' 54 (bfOffBits - 54)).map malloc
  let image := image.flip
  let op := forLoop 0 image.height (writeRow image bitCount) head
  (op, image.flip)

/-! ## Reading -/

/-- The variables of `Load` while it reads rows: what is left of the file, the three byte variables, the image. -/
structure Reader where
  fp : List UInt8
  r : UInt8
  g : UInt8
  b : UInt8
  image : BiImage

/-- `fread` of one byte: at the end of the file the variable keeps its value. -/
def fread (fp : List UInt8) (old : UInt8) : UInt8 × List UInt8 := (fp.headD old, fp.tail)

/-- The body of the loop over the columns in `Load`. -/
def readPixel (bitCount j i : Nat) (s : Reader) : Reader :=
  if bitCount = 8 then
    let (g, fp) := fread s.fp s.g
    { s with fp := fp, g := g, image := s.image.put i j (Pixel.gray g) }
  else
    let (b, fp) := fread s.fp s.b
    let (g, fp) := fread fp s.g
    let (r, fp) := fread fp s.r
    let s := { fp := fp, r := r, g := g, b := b, image := s.image.put i j (Pixel.rgb r g b) : Reader }
    if bitCount = 32 then
      let (g, fp) := fread s.fp s.g
      { s with fp := fp, g := g }
    else s

/-- The reading of the padding of a row. -/
def skipPadding (bitCount width : Nat) (s : Reader) : Reader :=
  if bitCount = 24 then
    forLoop 0 (width % 4) (fun _ s =>
      let (g, fp) := fread s.fp s.g
      { s with fp := fp, g := g }) s
  else s

/-- The body of the loop over the rows in `Load`. -/
def readRow (bitCount width j : Nat) (s : Reader) : Reader :=
  skipPadding bitCount width (forLoop 0 width (readPixel bitCount j) s)

/-- The `n`-byte number at an offset of the file. -/
def word (file : List UInt8) (offset n : Nat) : Nat := ofLe ((file.drop offset).take n)

/-- `Load(image, filename)` on the bytes of the file; `r`, `g` and `b` are the values of the byte variables, which are
not initialised. `none`: the header is cut short, or a dimension is negative. -/
def load (file : List UInt8) (r g b : UInt8) : Option BiImage :=
  let dataOfset := word file 10 4
  let width := word file 18 4
  let height := word file 22 4
  let bitCount := word file 28 2
  -- seeking to a negative offset fails and leaves the position behind the bit depth
  let fp := if dataOfset < 2 ^ 31 then file.drop dataOfset else file.drop 30
  if h : 30 ≤ file.length ∧ width < 2 ^ 31 ∧ height < 2 ^ 31 then
    let image := create width height h.2.1 h.2.2
    some (forLoop 0 height (readRow bitCount width) ⟨fp, r, g, b, image⟩).image.flip
  else none

/-! ## One row -/

/-- The pixel that the bytes of `p` stand for. -/
def decoded (bitCount : Nat) (p : Pixel) : Pixel :=
  if bitCount = 8 then Pixel.gray p.lightness else Pixel.rgb p.red p.green p.blue

/-- The bytes of row `j`. -/
def rowBytes (image : BiImage) (bitCount j : Nat) : List UInt8 :=
  (List.range' 0 image.width).flatMap (fun i : Nat => pixelBytes bitCount (image.get i j)) ++
    padding bitCount image.width

/-- A loop that appends appends everything. -/
theorem foldl_append {α : Type*} (f : α → List UInt8) (l : List α) (op : List UInt8) :
    l.foldl (fun op a => op ++ f a) op = op ++ l.flatMap f := by
  induction l generalizing op with
  | nil => simp
  | cons a l ih => rw [List.foldl_cons, ih, List.flatMap_cons, List.append_assoc]

theorem writeRow_eq (image : BiImage) (bitCount j : Nat) (op : List UInt8) :
    writeRow image bitCount j op = op ++ rowBytes image bitCount j := by
  rw [writeRow, forLoop, foldl_append, rowBytes, List.append_assoc]
  rfl

theorem readPixel_pixelBytes (bitCount j i : Nat) (p : Pixel) (rest : List UInt8) {s : Reader}
    (hs : s.fp = pixelBytes bitCount p ++ rest) :
    (readPixel bitCount j i s).fp = rest ∧
      (readPixel bitCount j i s).image = s.image.put i j (decoded bitCount p) := by
  unfold readPixel decoded
  by_cases h8 : bitCount = 8
  · simp [h8, hs, pixelBytes, fread]
  · by_cases h32 : bitCount = 32
    · simp [h32, hs, pixelBytes, fread]
    · simp [h8, h32, hs, pixelBytes, fread]

/-- Reading the pixels of a row, in front of any further bytes. -/
theorem readPixels (bitCount j : Nat) (v : Nat → Pixel) (rest : List UInt8) (l : List Nat) {s : Reader}
    (hs : s.fp = l.flatMap (fun i => pixelBytes bitCount (v i)) ++ rest) :
    (l.foldl (fun s i => readPixel bitCount j i s) s).fp = rest ∧
      (l.foldl (fun s i => readPixel bitCount j i s) s).image =
        l.foldl (fun image i => image.put i j (decoded bitCount (v i))) s.image := by
  induction l generalizing s with
  | nil => exact ⟨hs, rfl⟩
  | cons i l ih =>
    rw [List.flatMap_cons, List.append_assoc] at hs
    obtain ⟨hfp, himage⟩ := readPixel_pixelBytes bitCount j i (v i) _ hs
    simp only [List.foldl_cons, ← himage]
    exact ih hfp

theorem skipPadding_spec (bitCount width : Nat) (s : Reader) :
    (skipPadding bitCount width s).fp = s.fp.drop (padding bitCount width).length ∧
      (skipPadding bitCount width s).image = s.image := by
  unfold skipPadding padding
  split
  · rw [List.length_replicate]
    have key : ∀ (l : List Nat) (s : Reader),
        (l.foldl (fun s _ => { s with fp := (fread s.fp s.g).2, g := (fread s.fp s.g).1 : Reader }) s).fp =
          s.fp.drop l.length ∧
        (l.foldl (fun s _ => { s with fp := (fread s.fp s.g).2, g := (fread s.fp s.g).1 : Reader }) s).image =
          s.image := by
      intro l
      induction l with
      | nil => exact fun s => ⟨rfl, rfl⟩
      | cons a l ih =>
        intro s
        rw [List.foldl_cons, (ih _).1, (ih _).2]
        exact ⟨by rw [fread, List.drop_tail, List.length_cons], rfl⟩
    have h := key (List.range' 0 (width % 4 - 0)) s
    rw [List.length_range', Nat.sub_zero] at h
    exact h
  · exact ⟨rfl, rfl⟩

/-- **The round trip of one row**, in front of any further bytes. -/
theorem readRow_rowBytes (image : BiImage) (bitCount j : Nat) (rest : List UInt8) {s : Reader}
    (hs : s.fp = rowBytes image bitCount j ++ rest) :
    (readRow bitCount image.width j s).fp = rest ∧
      (readRow bitCount image.width j s).image =
        forLoop 0 image.width (fun i im => im.put i j (decoded bitCount (image.get i j))) s.image := by
  rw [rowBytes, List.append_assoc] at hs
  obtain ⟨hfp, himage⟩ := readPixels bitCount j (fun i => image.get i j) _ _ hs
  obtain ⟨hskip, hkeep⟩ := skipPadding_spec bitCount image.width (forLoop 0 image.width (readPixel bitCount j) s)
  refine ⟨?_, hkeep.trans himage⟩
  rw [readRow, hskip]
  simp only [forLoop, Nat.sub_zero, hfp]
  exact List.drop_left

/-- The round trip of the rows. -/
theorem readRows (image : BiImage) (bitCount : Nat) (rest : List UInt8) (l : List Nat) {s : Reader}
    (hs : s.fp = l.flatMap (rowBytes image bitCount) ++ rest) :
    (l.foldl (fun s j => readRow bitCount image.width j s) s).image =
      l.foldl (fun im j => forLoop 0 image.width (fun i im => im.put i j (decoded bitCount (image.get i j))) im)
        s.image := by
  induction l generalizing s with
  | nil => rfl
  | cons j l ih =>
    rw [List.flatMap_cons, List.append_assoc] at hs
    obtain ⟨hfp, himage⟩ := readRow_rowBytes image bitCount j _ hs
    simp only [List.foldl_cons, ← himage]
    exact ih hfp

/-! ## The file -/

/-- The header buffer. -/
def header (width height bitCount bfOffBits : Nat) (malloc : Nat → UInt8) : List UInt8 :=
  fileHeader bfOffBits ++ infoHeader width height bitCount ++ (List.range' 54 (bfOffBits - 54)).map malloc

/-- `bfOffBits` for the default offset. -/
def offBits (bitCount : Nat) : Nat := if bitCount ≤ 8 then 1078 else 54

theorem save_fst (image : BiImage) (bitCount : Nat) (malloc : Nat → UInt8) :
    (save image bitCount 54 malloc).1 = header image.width image.height bitCount (offBits bitCount) malloc ++
      (List.range' 0 image.height).flatMap (rowBytes image.flip bitCount) := by
  simp only [save, forLoop, writeRow_eq, foldl_append, height_flip]
  rfl

/-- `Save` flips the image and flips it back. -/
theorem save_snd (image : BiImage) (bitCount dataoffset : Nat) (malloc : Nat → UInt8) :
    (save image bitCount dataoffset malloc).2 = image.flip.flip := rfl

theorem length_header (width height bitCount : Nat) (malloc : Nat → UInt8) :
    (header width height bitCount (offBits bitCount) malloc).length = offBits bitCount := by
  simp only [header, fileHeader, infoHeader, List.length_append, length_leBytes, List.length_map, List.length_range',
    List.length_cons, List.length_nil, offBits]
  split <;> rfl

/-- A number written little-endian is read back at its offset. -/
theorem word_leBytes {a b : List UInt8} {k n offset : Nat} (ha : a.length = offset) (hn : n < 256 ^ k) :
    word (a ++ (leBytes k n ++ b)) offset k = n := by
  subst ha
  rw [word, List.drop_left, List.take_left' (length_leBytes k n), ofLe_leBytes hn]

section Header

variable {width height bitCount : Nat} (malloc : Nat → UInt8) (rest : List UInt8)

theorem word_dataOfset :
    word (header width height bitCount (offBits bitCount) malloc ++ rest) 10 4 = offBits bitCount := by
  have hsplit : header width height bitCount (offBits bitCount) malloc ++ rest =
      ([66, 77] ++ leBytes 4 0 ++ leBytes 2 0 ++ leBytes 2 0) ++ (leBytes 4 (offBits bitCount) ++
        (infoHeader width height bitCount ++ ((List.range' 54 (offBits bitCount - 54)).map malloc ++ rest))) := by
    simp only [header, fileHeader, List.append_assoc]
  rw [hsplit]
  refine word_leBytes rfl ?_
  unfold offBits
  split <;> decide

theorem word_width (hw : width < 2 ^ 31) :
    word (header width height bitCount (offBits bitCount) malloc ++ rest) 18 4 = width := by
  have hsplit : header width height bitCount (offBits bitCount) malloc ++ rest =
      (fileHeader (offBits bitCount) ++ leBytes 4 40) ++ (leBytes 4 width ++
        (leBytes 4 height ++ (leBytes 2 1 ++ (leBytes 2 bitCount ++ ((leBytes 4 0 ++ leBytes 4 0 ++ leBytes 4 0 ++
          leBytes 4 0 ++ leBytes 4 0 ++ leBytes 4 0) ++
            ((List.range' 54 (offBits bitCount - 54)).map malloc ++ rest)))))) := by
    simp only [header, infoHeader, List.append_assoc]
  rw [hsplit]
  exact word_leBytes rfl (hw.trans (by decide))

theorem word_height (hh : height < 2 ^ 31) :
    word (header width height bitCount (offBits bitCount) malloc ++ rest) 22 4 = height := by
  have hsplit : header width height bitCount (offBits bitCount) malloc ++ rest =
      (fileHeader (offBits bitCount) ++ leBytes 4 40 ++ leBytes 4 width) ++ (leBytes 4 height ++
        (leBytes 2 1 ++ (leBytes 2 bitCount ++ ((leBytes 4 0 ++ leBytes 4 0 ++ leBytes 4 0 ++ leBytes 4 0 ++
          leBytes 4 0 ++ leBytes 4 0) ++ ((List.range' 54 (offBits bitCount - 54)).map malloc ++ rest))))) := by
    simp only [header, infoHeader, List.append_assoc]
  rw [hsplit]
  exact word_leBytes rfl (hh.trans (by decide))

theorem word_bitCount (hb : bitCount < 2 ^ 16) :
    word (header width height bitCount (offBits bitCount) malloc ++ rest) 28 2 = bitCount := by
  have hsplit : header width height bitCount (offBits bitCount) malloc ++ rest =
      (fileHeader (offBits bitCount) ++ leBytes 4 40 ++ leBytes 4 width ++ leBytes 4 height ++ leBytes 2 1) ++
        (leBytes 2 bitCount ++ ((leBytes 4 0 ++ leBytes 4 0 ++ leBytes 4 0 ++ leBytes 4 0 ++
          leBytes 4 0 ++ leBytes 4 0) ++ ((List.range' 54 (offBits bitCount - 54)).map malloc ++ rest))) := by
    simp only [header, infoHeader, List.append_assoc]
  rw [hsplit]
  exact word_leBytes rfl (hb.trans_le (by decide))

end Header

/-- What `Load` makes of a saved file: the decoded rows, flipped once more. -/
theorem load_save_eq (image : BiImage) {bitCount : Nat} (hb : bitCount < 2 ^ 16) (malloc : Nat → UInt8)
    (r g b : UInt8) :
    load (save image bitCount 54 malloc).1 r g b =
      some (forEach image.width image.height
        (fun i j im => im.put i j (decoded bitCount (image.flip.get i j))) image.createLike).flip := by
  have hlen := length_header image.width image.height bitCount malloc
  have hoff : 30 ≤ offBits bitCount ∧ offBits bitCount < 2 ^ 31 := by
    unfold offBits
    split <;> decide
  rw [save_fst, load]
  simp only [word_dataOfset, word_width malloc _ image.width_lt, word_height malloc _ image.height_lt,
    word_bitCount malloc _ hb, hoff.2, if_true]
  rw [dif_pos ⟨by rw [List.length_append, hlen]; omega, image.width_lt, image.height_lt⟩,
    List.drop_left' hlen]
  have hrows := readRows image.flip bitCount [] (List.range' 0 image.height)
    (s := ⟨(List.range' 0 image.height).flatMap (rowBytes image.flip bitCount), r, g, b, image.createLike⟩) (by simp)
  simp only [width_flip] at hrows
  exact congrArg (fun im => some im.flip) hrows

/-- A pixel read from a file is not empty, so the default clear colour does not hide it. -/
theorem get_decoded {image : BiImage} {x y : Nat} (hclear : image.clearColor = Pixel.init) (hp : image.Inside (x, y))
    {bitCount : Nat} {p : Pixel} (hpx : image.px (x, y) = decoded bitCount p) :
    image.get x y = decoded bitCount p := by
  have hne : (image.px (x, y)).empty = false := by
    rw [hpx, decoded]
    split <;> rfl
  rw [get_of_not_empty hclear hp hne, hpx]

/-- The image that `Load` reads from a saved file shows the decoded pixels in their places. -/
theorem get_loaded (image : BiImage) (bitCount : Nat) {x y : Nat} (hp : image.Inside (x, y)) :
    ((forEach image.width image.height
      (fun i j im => im.put i j (decoded bitCount (image.flip.get i j))) image.createLike).flip).get x y =
        decoded bitCount (image.get x y) := by
  obtain ⟨hfr, hpx⟩ := forEach_put (fun i j => decoded bitCount (image.flip.get i j)) image.createLike
  have hy : y < image.height := hp.2
  have hrow : image.Inside (x, flipRow image.height y) := ⟨hp.1, flipRow_lt hy⟩
  have hread := get_decoded hfr.clear (hfr.inside.2 hrow) (hpx _ hrow)
  have hflip := get_flip (hfr.inside.2 hp)
  rw [hfr.height] at hflip
  refine hflip.trans (hread.trans ?_)
  rw [get_flip hrow, flipRow_flipRow hy]

/-- **The bitmap round trip.** What `Load` reads from a saved file has the dimensions of the saved image and its colours
(with 8 bits: its lightness), and saving leaves the saved image as it was. -/
theorem load_save (image : BiImage) (bitCount : Nat) (hb : bitCount = 8 ∨ bitCount = 24 ∨ bitCount = 32)
    (malloc : Nat → UInt8) (r g b : UInt8) :
    (∃ loaded, load (save image bitCount 54 malloc).1 r g b = some loaded ∧
      loaded.width = image.width ∧ loaded.height = image.height ∧
      ∀ x y : Nat, image.Inside (x, y) →
        if bitCount = 8 then
          (loaded.get x y).red = (image.get x y).lightness ∧ (loaded.get x y).green = (image.get x y).lightness ∧
            (loaded.get x y).blue = (image.get x y).lightness
        else
          (loaded.get x y).red = (image.get x y).red ∧ (loaded.get x y).green = (image.get x y).green ∧
            (loaded.get x y).blue = (image.get x y).blue) ∧
      (save image bitCount 54 malloc).2.width = image.width ∧
      (save image bitCount 54 malloc).2.height = image.height ∧
      ∀ x y : Nat, image.Inside (x, y) → (save image bitCount 54 malloc).2.get x y = image.get x y := by
  obtain ⟨hfr, -⟩ := forEach_put (fun i j => decoded bitCount (image.flip.get i j)) image.createLike
  rw [save_snd]
  refine ⟨⟨_, load_save_eq image (by omega) malloc r g b, ?_, ?_, ?_⟩, ?_, ?_, fun x y hp => get_flip_flip hp⟩
  · exact (width_flip _).trans hfr.width
  · exact (height_flip _).trans hfr.height
  · intro x y hp
    rw [get_loaded image bitCount hp, decoded]
    split
    · exact ⟨rfl, rfl, rfl⟩
    · exact ⟨rfl, rfl, rfl⟩
  · exact (width_flip _).trans (width_flip image)
  · exact (height_flip _).trans (height_flip image)

/-- A picture of two colours. -/
def twoColours : BiImage :=
  ofFn 3 2 three_fits two_fits fun x y => if x = y then Pixel.rgb 10 20 30 else Pixel.rgb 200 100 0

/-- The round trip of a picture with 24 bits. -/
theorem load_save_twoColours :
    ∃ loaded, load (save twoColours 24 54 fun _ => 7).1 0 0 0 = some loaded ∧
    loaded.width = 3 ∧ loaded.height = 2 ∧
      ((loaded.get 1 1).red = 10 ∧ (loaded.get 1 1).green = 20 ∧ (loaded.get 1 1).blue = 30) ∧
      (loaded.get 2 0).red = 200 ∧ (loaded.get 2 0).green = 100 ∧ (loaded.get 2 0).blue = 0 := by
  obtain ⟨⟨loaded, hload, hw, hh, hpixels⟩, -⟩ :=
    load_save twoColours 24 (Or.inr (Or.inl rfl)) (fun _ => 7) 0 0 0
  have hdiagonal : twoColours.get 1 1 = Pixel.rgb 10 20 30 :=
    get_ofFn (by decide) (by decide) (by decide) (by decide) rfl
  have hother : twoColours.get 2 0 = Pixel.rgb 200 100 0 :=
    get_ofFn (by decide) (by decide) (by decide) (by decide) rfl
  have hone := hpixels 1 1 (by decide)
  have htwo := hpixels 2 0 (by decide)
  rw [if_neg (by decide)] at hone htwo
  simp only [Nat.cast_zero, Nat.cast_one, Nat.cast_ofNat, hdiagonal, hother] at hone htwo
  exact ⟨loaded, hload, hw, hh, hone, htwo⟩

end LeftFelt.ImageUtil
