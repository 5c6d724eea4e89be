import LeftFelt.Image.Bitmap

/-!
# Legacy bitmap files

`biWriteImage` and `biLoadImage`. The header of a file is kept as it is, and written as it was read. A pixel has three
bytes, or four with 32 bits, and the rows stand one behind the other without anything between them.

What is written is read back (`biLoadImage_biWriteImage`), and what is read is written back byte by byte, whatever the
header says, if the file has all its pixels (`biWriteImage_biLoadImage`).

`sizeof(long)` is 4.
-/

namespace LeftFelt.Legacy

open Lib ImageUtil

/-- `IMAGE` with its header. -/
structure HeadedImage extends Image where
  file_size : Nat
  data_ofset : Nat
  bitCount : Nat
  head_data : List UInt8

/-- `biReverseImage`, which leaves the header. -/
def HeadedImage.reverse (image : HeadedImage) (malloc : Nat → ImageData) : HeadedImage :=
  { image with toImage := biReverseImage image.toImage malloc }

/-- `biCreateImage`. -/
def biCreateImage (width height bitCount : Nat) : HeadedImage where
  width := width
  height := height
  imageData := List.replicate (width * height) default
  file_size := 0
  data_ofset := 54
  bitCount := bitCount % 2 ^ 16
  head_data := fileHeader 54 ++ infoHeader width height bitCount

/-- The bytes of one pixel. -/
def pixelBytes (bitCount : Nat) (p : ImageData) : List UInt8 :=
  [p.rgbBlue, p.rgbGreen, p.rgbRed] ++ if bitCount = 32 then [p.rgbReserved] else []

/-- `biWriteImage`, where the file can be opened: the file, and the image afterwards. -/
def biWriteImage (image : HeadedImage) (malloc malloc' : Nat → ImageData) : List UInt8 × HeadedImage :=
  let op := image.head_data.take image.data_ofset
  let image := image.reverse malloc
  let op := forLoop 0 (image.width * image.height)
    (fun i op => op ++ pixelBytes image.bitCount (image.imageData.getD i default)) op
  (op, image.reverse malloc')

/-- What is left of the file, and the pixels. -/
structure PixelReader where
  fp : List UInt8
  imageData : List ImageData

/-- The body of the loop over the pixels in `biLoadImage`. -/
def loadPixel (bitCount i : Nat) (s : PixelReader) : PixelReader :=
  let p := s.imageData.getD i default
  let (b, fp) := fread s.fp p.rgbBlue
  let (g, fp) := fread fp p.rgbGreen
  let (r, fp) := fread fp p.rgbRed
  let (reserved, fp) := if bitCount = 32 then fread fp p.rgbReserved else (p.rgbReserved, fp)
  let graylevel := ((b.toNat + r.toNat + g.toNat) / 3).toUInt8
  ⟨fp, s.imageData.set i
    { p with rgbBlue := b, rgbGreen := g, rgbRed := r, rgbReserved := reserved, graylevel := graylevel }⟩

/-- `biLoadImage`, where the file can be opened; `garbage` is what `malloc` leaves in the buffer of the header. `none`:
the header is cut short, a dimension is negative or there are too many pixels. -/
def biLoadImage (file : List UInt8) (garbage : UInt8) (malloc malloc' : Nat → ImageData) : Option HeadedImage :=
  let data_ofset := word file 10 4
  let width := word file 18 4
  let height := word file 22 4
  let bitCount := word file 28 2
  if 30 ≤ file.length ∧ width < 2 ^ 31 ∧ height < 2 ^ 31 ∧ width * height < 2 ^ 31 then
    let size := width * height
    let s := forLoop 0 size (loadPixel bitCount) ⟨file.drop data_ofset, (List.range size).map malloc⟩
    let image : HeadedImage :=
      { width := width, height := height, imageData := s.imageData, file_size := word file 2 4,
        data_ofset := data_ofset, bitCount := bitCount,
        head_data := file.take data_ofset ++ List.replicate (data_ofset - file.length) garbage }
    some (image.reverse malloc')
  else none

/-! ## Upside down -/

section Reverse

variable (image : Image) (malloc malloc' : Nat → ImageData)

theorem length_biReverseImage : (biReverseImage image malloc).imageData.length = image.width * image.height := by
  have hset : ∀ (l : List (Nat × Nat)) (data : List ImageData),
      (l.foldl (fun data p => data.set (p.1 + p.2 * image.width) (image.px (p.1, image.height - 1 - p.2))) data).length =
        data.length := by
    intro l
    induction l with
    | nil => exact fun _ => rfl
    | cons p l ih => exact fun data => (ih _).trans List.length_set
  simp only [biReverseImage, forLoop_forLoop]
  exact (hset _ _).trans (by simp)

variable {image}

/-- Images of one size whose pixels have something in common have it in common in their buffers. -/
theorem map_imageData_ext {α : Type} (f : ImageData → α) {image' : Image} (hwidth : image'.width = image.width)
    (hlength : image.imageData.length = image.width * image.height)
    (hlength' : image'.imageData.length = image.width * image.height)
    (h : ∀ p : Nat × Nat, p.1 < image.width ∧ p.2 < image.height → f (image'.px p) = f (image.px p)) :
    image'.imageData.map f = image.imageData.map f := by
  refine List.ext_getElem (by rw [List.length_map, List.length_map, hlength, hlength']) fun k hk' hk => ?_
  rw [List.length_map] at hk hk'
  have hlt : k < image.height * image.width := by rw [Nat.mul_comm]; omega
  have hpos : 0 < image.width := Nat.pos_of_mul_pos_left (Nat.zero_lt_of_lt hlt)
  have hp := h (k % image.width, k / image.width) ⟨Nat.mod_lt _ hpos, Nat.div_lt_of_lt_mul (by rwa [Nat.mul_comm])⟩
  have hindex : k % image.width + k / image.width * image.width = k := by
    rw [Nat.mul_comm]
    exact Nat.mod_add_div _ _
  simp only [Image.px, hwidth, hindex] at hp
  rw [List.getElem_map, List.getElem_map]
  rwa [List.getD_eq_getElem _ _ hk, List.getD_eq_getElem _ _ hk'] at hp

/-- Images of one size with the same pixels have the same buffer. -/
theorem imageData_ext {image' : Image} (hwidth : image'.width = image.width)
    (hlength : image.imageData.length = image.width * image.height)
    (hlength' : image'.imageData.length = image.width * image.height)
    (h : ∀ p : Nat × Nat, p.1 < image.width ∧ p.2 < image.height → image'.px p = image.px p) :
    image'.imageData = image.imageData := by
  simpa using map_imageData_ext id hwidth hlength hlength' h

/-- **Upside down twice** is the right way up. -/
theorem biReverseImage_biReverseImage (hlength : image.imageData.length = image.width * image.height) :
    biReverseImage (biReverseImage image malloc) malloc' = image := by
  have hdata : (biReverseImage (biReverseImage image malloc) malloc').imageData = image.imageData := by
    refine imageData_ext rfl hlength (length_biReverseImage _ malloc') fun p hp => ?_
    have hrow : image.height - 1 - p.2 < image.height := by omega
    refine (px_biReverseImage (biReverseImage image malloc) malloc' hp).trans ?_
    show (biReverseImage image malloc).px (p.1, image.height - 1 - p.2) = image.px p
    rw [px_biReverseImage image malloc (p := (p.1, image.height - 1 - p.2)) ⟨hp.1, hrow⟩]
    have hback : image.height - 1 - (image.height - 1 - p.2) = p.2 := by omega
    simp only [hback]
  calc biReverseImage (biReverseImage image malloc) malloc'
      = { image with imageData := (biReverseImage (biReverseImage image malloc) malloc').imageData } := rfl
    _ = image := by rw [hdata]

end Reverse

/-! ## Pixels -/

/-- The pixel that is read from the bytes of `p`, in a buffer that `malloc` has made. -/
def loaded (bitCount : Nat) (malloc p : ImageData) : ImageData :=
  { p with
    rgbReserved := if bitCount = 32 then p.rgbReserved else malloc.rgbReserved
    graylevel := ((p.rgbBlue.toNat + p.rgbRed.toNat + p.rgbGreen.toNat) / 3).toUInt8
    label := malloc.label }

theorem pixelBytes_loaded (bitCount : Nat) (malloc p : ImageData) :
    pixelBytes bitCount (loaded bitCount malloc p) = pixelBytes bitCount p := by
  unfold pixelBytes loaded
  split <;> simp

/-- The number of bytes of a pixel. -/
def pixelSize (bitCount : Nat) : Nat := if bitCount = 32 then 4 else 3

theorem length_pixelBytes (bitCount : Nat) (p : ImageData) : (pixelBytes bitCount p).length = pixelSize bitCount := by
  unfold pixelBytes pixelSize
  split <;> rfl

theorem length_flatMap_pixelBytes (bitCount : Nat) (ps : List ImageData) :
    (ps.flatMap (pixelBytes bitCount)).length = ps.length * pixelSize bitCount := by
  rw [List.length_flatMap]
  simp [length_pixelBytes]

/-- One pixel is read, in front of any further bytes. -/
theorem loadPixel_pixelBytes (bitCount : Nat) (malloc p : ImageData) (front behind : List ImageData)
    (rest : List UInt8) :
    loadPixel bitCount front.length ⟨pixelBytes bitCount p ++ rest, front ++ malloc :: behind⟩ =
      ⟨rest, front ++ loaded bitCount malloc p :: behind⟩ := by
  have hget : (front ++ malloc :: behind).getD front.length default = malloc := by simp
  unfold loadPixel loaded
  simp only [hget, pixelBytes]
  by_cases h32 : bitCount = 32
  · simp [h32, fread]
  · simp [h32, fread]

/-- The pixels that are read from the bytes of `ps`, each over what `malloc` has left in its place. -/
def loadedAll (bitCount : Nat) (malloc : Nat → ImageData) (ps : List ImageData) : List ImageData :=
  ps.mapIdx fun i p => loaded bitCount (malloc i) p

@[simp] theorem length_loadedAll (bitCount : Nat) (malloc : Nat → ImageData) (ps : List ImageData) :
    (loadedAll bitCount malloc ps).length = ps.length := List.length_mapIdx

theorem flatMap_loadedAll (bitCount : Nat) (malloc : Nat → ImageData) (ps : List ImageData) :
    (loadedAll bitCount malloc ps).flatMap (pixelBytes bitCount) = ps.flatMap (pixelBytes bitCount) := by
  have hmap : (loadedAll bitCount malloc ps).map (pixelBytes bitCount) = ps.map (pixelBytes bitCount) :=
    List.ext_getElem (by simp) fun i hi hi' => by simp [loadedAll, pixelBytes_loaded]
  rw [List.flatMap_def, hmap, List.flatMap_def]

/-- **The pixels are read**, one behind the other. -/
theorem loadPixels (bitCount : Nat) (malloc : Nat → ImageData) (rest : List UInt8) (ps front : List ImageData) :
    (List.range' front.length ps.length).foldl (fun s i => loadPixel bitCount i s)
        ⟨ps.flatMap (pixelBytes bitCount) ++ rest, front ++ (List.range ps.length).map malloc⟩ =
      ⟨rest, front ++ loadedAll bitCount malloc ps⟩ := by
  induction ps generalizing front malloc with
  | nil => simp [loadedAll]
  | cons p ps ih =>
    rw [List.length_cons, List.range'_succ, List.foldl_cons, List.flatMap_cons, List.append_assoc,
      List.range_succ_eq_map, List.map_cons, List.map_map, loadPixel_pixelBytes]
    have hrest := ih (malloc ∘ Nat.succ) (front ++ [loaded bitCount (malloc 0) p])
    rw [List.length_append, List.length_singleton] at hrest
    simpa [loadedAll, List.mapIdx_cons] using hrest

/-- Bytes enough for some pixels are those of pixels. -/
theorem exists_pixels (bitCount n : Nat) (bytes : List UInt8) (h : n * pixelSize bitCount ≤ bytes.length) :
    ∃ ps : List ImageData, ps.length = n ∧
      bytes = ps.flatMap (pixelBytes bitCount) ++ bytes.drop (n * pixelSize bitCount) := by
  induction n generalizing bytes with
  | zero => exact ⟨[], rfl, by simp⟩
  | succ n ih =>
    have hmul : (n + 1) * pixelSize bitCount = pixelSize bitCount + n * pixelSize bitCount := by
      rw [Nat.add_mul, Nat.one_mul, Nat.add_comm]
    obtain ⟨ps, hlength, hps⟩ := ih (bytes.drop (pixelSize bitCount)) (by rw [List.length_drop]; omega)
    have hfirst : ∃ p, bytes.take (pixelSize bitCount) = pixelBytes bitCount p := by
      unfold pixelSize pixelBytes at *
      by_cases h32 : bitCount = 32
      · rw [if_pos h32] at *
        match bytes, (by omega : 4 ≤ bytes.length) with
        | b :: g :: r :: reserved :: _, _ => exact ⟨⟨b, g, r, reserved, 0, 0⟩, by simp [h32]⟩
      · rw [if_neg h32] at *
        match bytes, (by omega : 3 ≤ bytes.length) with
        | b :: g :: r :: _, _ => exact ⟨⟨b, g, r, 0, 0, 0⟩, by simp [h32]⟩
    obtain ⟨p, hp⟩ := hfirst
    refine ⟨p :: ps, by rw [List.length_cons, hlength], ?_⟩
    rw [hmul, ← List.drop_drop, List.flatMap_cons, List.append_assoc, ← hps, ← hp, List.take_append_drop]

/-! ## Files -/

/-- A loop that appends what is at each index appends what the list has. -/
theorem flatMap_getD (f : ImageData → List UInt8) (ps : List ImageData) :
    (List.range ps.length).flatMap (fun i => f (ps.getD i default)) = ps.flatMap f := by
  have hmap : (List.range ps.length).map (fun i => ps.getD i default) = ps :=
    List.ext_getElem (by simp) fun i hi hi' => by simp [List.getElem?_eq_getElem hi']
  conv_rhs => rw [← hmap, List.flatMap_map]

/-- **What is written**: the header, and the rows from the last one to the first. The image is left as it was. -/
theorem biWriteImage_eq {image : HeadedImage} (hlength : image.imageData.length = image.width * image.height)
    (malloc malloc' : Nat → ImageData) :
    biWriteImage image malloc malloc' = (image.head_data.take image.data_ofset ++
      (biReverseImage image.toImage malloc).imageData.flatMap (pixelBytes image.bitCount), image) := by
  have hsize := length_biReverseImage image.toImage malloc
  have hpixels := flatMap_getD (pixelBytes image.bitCount) (biReverseImage image.toImage malloc).imageData
  rw [hsize, List.range_eq_range'] at hpixels
  refine Prod.ext ?_ ?_
  · simp only [biWriteImage, forLoop, Nat.sub_zero, foldl_append]
    exact congrArg _ hpixels
  · show { image with toImage := biReverseImage (biReverseImage image.toImage malloc) malloc' } = image
    rw [biReverseImage_biReverseImage malloc malloc' hlength]

/-- What the header of a file has to say. -/
structure Header (file : List UInt8) (data_ofset width height bitCount : Nat) : Prop where
  complete : 30 ≤ file.length
  data_ofset_eq : word file 10 4 = data_ofset
  width_eq : word file 18 4 = width
  height_eq : word file 22 4 = height
  bitCount_eq : word file 28 2 = bitCount
  width_lt : width < 2 ^ 31
  height_lt : height < 2 ^ 31
  size_lt : width * height < 2 ^ 31

/-- The header that is made for 24 or 32 bits. -/
theorem header_biCreateImage {width height bitCount : Nat} (hw : width < 2 ^ 31) (hh : height < 2 ^ 31)
    (hsize : width * height < 2 ^ 31) (hb : bitCount = 24 ∨ bitCount = 32) (rest : List UInt8) :
    Header ((fileHeader 54 ++ infoHeader width height bitCount) ++ rest) 54 width height bitCount := by
  have hbits : 8 < bitCount ∧ bitCount < 2 ^ 16 := by rcases hb with rfl | rfl <;> decide
  have hoff : offBits bitCount = 54 := if_neg (by omega)
  have hhead : ImageUtil.header width height bitCount (offBits bitCount) (fun _ => 0) =
      fileHeader 54 ++ infoHeader width height bitCount := by
    rw [ImageUtil.header, hoff]
    exact List.append_nil _
  have hlength := length_header width height bitCount fun _ => 0
  let head := ImageUtil.header width height bitCount (offBits bitCount) fun _ => 0
  have hofset : word (head ++ rest) 10 4 = offBits bitCount := word_dataOfset (fun _ => 0) rest
  have hwidth : word (head ++ rest) 18 4 = width := word_width (fun _ => 0) rest hw
  have hheight : word (head ++ rest) 22 4 = height := word_height (fun _ => 0) rest hh
  have hcount : word (head ++ rest) 28 2 = bitCount := word_bitCount (fun _ => 0) rest hbits.2
  simp only [head] at hofset hwidth hheight hcount
  rw [hhead] at hlength hofset hwidth hheight hcount
  rw [hoff] at hlength hofset
  exact ⟨by rw [List.length_append, hlength]; omega, hofset, hwidth, hheight, hcount, hw, hh, hsize⟩

/-- **What is read**: the header, and the pixels, if there are enough of them. -/
theorem biLoadImage_eq {file : List UInt8} {data_ofset width height bitCount : Nat}
    (h : Header file data_ofset width height bitCount) {ps : List ImageData} (hps : ps.length = width * height)
    (rest : List UInt8) (hfile : file.drop data_ofset = ps.flatMap (pixelBytes bitCount) ++ rest) (garbage : UInt8)
    (malloc malloc' : Nat → ImageData) :
    biLoadImage file garbage malloc malloc' =
      some (HeadedImage.reverse
        { width := width, height := height, imageData := loadedAll bitCount malloc ps, file_size := word file 2 4,
          data_ofset := data_ofset, bitCount := bitCount,
          head_data := file.take data_ofset ++ List.replicate (data_ofset - file.length) garbage } malloc') := by
  have hloop := loadPixels bitCount malloc rest ps []
  rw [hps, List.length_nil, List.nil_append, ← hfile] at hloop
  rw [biLoadImage, h.data_ofset_eq, h.width_eq, h.height_eq, h.bitCount_eq,
    if_pos ⟨h.complete, h.width_lt, h.height_lt, h.size_lt⟩]
  simp only [forLoop, Nat.sub_zero, hloop, List.nil_append]

namespace HeadedImage

/-- The header says what the fields say, and there are as many pixels as it says. -/
structure WellFormed (image : HeadedImage) : Prop where
  length_imageData : image.imageData.length = image.width * image.height
  length_head : image.head_data.length = image.data_ofset
  header : Header image.head_data image.data_ofset image.width image.height image.bitCount

end HeadedImage

/-- What stands at the offsets of a header stays there when something is written behind it. -/
theorem word_append {head : List UInt8} {offset n : Nat} (h : offset + n ≤ head.length) (rest : List UInt8) :
    word (head ++ rest) offset n = word head offset n := by
  rw [word, word, List.drop_append_of_le_length (by omega),
    List.take_append_of_le_length (by rw [List.length_drop]; omega)]

theorem Header.append {head : List UInt8} {data_ofset width height bitCount : Nat}
    (h : Header head data_ofset width height bitCount) (rest : List UInt8) :
    Header (head ++ rest) data_ofset width height bitCount := by
  have hcomplete := h.complete
  refine ⟨by rw [List.length_append]; omega, ?_, ?_, ?_, ?_, h.width_lt, h.height_lt, h.size_lt⟩
  · rw [word_append (by omega), h.data_ofset_eq]
  · rw [word_append (by omega), h.width_eq]
  · rw [word_append (by omega), h.height_eq]
  · rw [word_append (by omega), h.bitCount_eq]

/-- A pixel that has been read. -/
theorem px_loadedAll {image : Image} (hlength : image.imageData.length = image.width * image.height) (bitCount : Nat)
    (malloc : Nat → ImageData) {p : Nat × Nat} (hp : p.1 < image.width ∧ p.2 < image.height) :
    ({ image with imageData := loadedAll bitCount malloc image.imageData } : Image).px p =
      loaded bitCount (malloc (p.1 + p.2 * image.width)) (image.px p) := by
  have hlt := (index_lt hp.1 hp.2).trans_eq hlength.symm
  simp only [Image.px, List.getD_eq_getElem?_getD, loadedAll, List.getElem?_mapIdx, List.getElem?_eq_getElem hlt]
  rfl

/-- Where a pixel stands upside down. -/
def mirrored (width height i : Nat) : Nat := i % width + (height - 1 - i / width) * width

/-- **Reading upside down**: every pixel is read over what `malloc` has left at the place where it stands in the file. -/
theorem biReverseImage_loadedAll {image : Image} (hlength : image.imageData.length = image.width * image.height)
    (bitCount : Nat) (malloc malloc' m : Nat → ImageData) :
    biReverseImage
        { image with imageData := loadedAll bitCount malloc (biReverseImage image m).imageData } malloc' =
      { image with
        imageData := loadedAll bitCount (malloc ∘ mirrored image.width image.height) image.imageData } := by
  have hsize := length_biReverseImage image m
  let read : Image := { image with imageData := loadedAll bitCount malloc (biReverseImage image m).imageData }
  let back : Image :=
    { image with imageData := loadedAll bitCount (malloc ∘ mirrored image.width image.height) image.imageData }
  have hback : back.imageData.length = back.width * back.height := (length_loadedAll _ _ _).trans hlength
  have hwidth : (biReverseImage read malloc').width = back.width := rfl
  have hdata : (biReverseImage read malloc').imageData = back.imageData := by
    refine imageData_ext hwidth hback (length_biReverseImage read malloc') fun p hp => ?_
    have hp' : p.1 < image.width ∧ p.2 < image.height := hp
    have hrow : p.1 < image.width ∧ image.height - 1 - p.2 < image.height := ⟨hp'.1, by omega⟩
    have hindex : mirrored image.width image.height (p.1 + p.2 * image.width) =
        p.1 + (image.height - 1 - p.2) * image.width := by
      have hpos : 0 < image.width := Nat.zero_lt_of_lt hp'.1
      rw [mirrored, Nat.add_mul_mod_self_right, Nat.mod_eq_of_lt hp'.1, Nat.add_mul_div_right _ _ hpos,
        Nat.div_eq_of_lt hp'.1, Nat.zero_add]
    have hmirror : (biReverseImage image m).px (p.1, image.height - 1 - p.2) = image.px p := by
      rw [px_biReverseImage image m (p := (p.1, image.height - 1 - p.2)) hrow]
      simp only [show image.height - 1 - (image.height - 1 - p.2) = p.2 by omega]
    calc (biReverseImage read malloc').px p
        = read.px (p.1, image.height - 1 - p.2) := px_biReverseImage read malloc' hp'
      _ = loaded bitCount (malloc (p.1 + (image.height - 1 - p.2) * image.width))
            ((biReverseImage image m).px (p.1, image.height - 1 - p.2)) := px_loadedAll hsize bitCount malloc hrow
      _ = loaded bitCount (malloc (mirrored image.width image.height (p.1 + p.2 * image.width))) (image.px p) := by
          rw [hmirror, hindex]
      _ = back.px p := (px_loadedAll hlength bitCount (malloc ∘ mirrored image.width image.height) hp').symm
  exact congrArg (fun data : List ImageData => ({ image with imageData := data } : Image)) hdata

/-- **An image with 24 or 32 bits, whatever has been painted on it, can be written.** -/
theorem wellFormed_paint {width height bitCount : Nat} (hw : width < 2 ^ 31) (hh : height < 2 ^ 31)
    (hsize : width * height < 2 ^ 31) (hb : bitCount = 24 ∨ bitCount = 32) {pixels : List ImageData}
    (hlength : pixels.length = width * height) :
    ({ biCreateImage width height bitCount with imageData := pixels } : HeadedImage).WellFormed where
  length_imageData := hlength
  length_head := by
    show (fileHeader 54 ++ infoHeader width height bitCount).length = 54
    simp [fileHeader, infoHeader]
  header := by
    have hmod : bitCount % 2 ^ 16 = bitCount := by rcases hb with rfl | rfl <;> rfl
    have hheader := header_biCreateImage hw hh hsize hb []
    rw [List.append_nil] at hheader
    show Header (fileHeader 54 ++ infoHeader width height bitCount) 54 width height (bitCount % 2 ^ 16)
    rwa [hmod]

/-- **The round trip of a legacy image**: what is written is read back with its header, the colours of its pixels and,
with 32 bits, their fourth byte, and would be written in the same way again. -/
theorem biLoadImage_biWriteImage {image : HeadedImage} (h : image.WellFormed) (garbage : UInt8)
    (malloc malloc' m m' : Nat → ImageData) :
    let read : HeadedImage := { image with
      file_size := word image.head_data 2 4
      imageData := loadedAll image.bitCount (malloc ∘ mirrored image.width image.height) image.imageData }
    biLoadImage (biWriteImage image m m').1 garbage malloc malloc' = some read ∧ read.WellFormed ∧
      (biWriteImage read m m').1 = (biWriteImage image m m').1 := by
  intro read
  obtain ⟨hlength, hhead, hheader⟩ := h
  have hread : read.imageData.length = read.width * read.height := (length_loadedAll _ _ _).trans hlength
  have hwritten : (biWriteImage image m m').1 =
      image.head_data ++ (biReverseImage image.toImage m).imageData.flatMap (pixelBytes image.bitCount) := by
    rw [biWriteImage_eq hlength, ← hhead, List.take_length]
  have hload : biLoadImage (biWriteImage image m m').1 garbage malloc malloc' = some read := by
    rw [hwritten]
    rw [biLoadImage_eq (hheader.append _) (length_biReverseImage image.toImage m) []
      (by rw [← hhead, List.drop_left, List.append_nil]), Option.some.injEq]
    have hpixels := biReverseImage_loadedAll hlength image.bitCount malloc malloc' m
    have hcomplete := hheader.complete
    have htake : ∀ rest : List UInt8, (image.head_data ++ rest).take image.data_ofset ++
        List.replicate (image.data_ofset - (image.head_data ++ rest).length) garbage = image.head_data := by
      intro rest
      rw [← hhead, List.take_left, List.length_append, Nat.sub_eq_zero_of_le (Nat.le_add_right _ _),
        List.replicate_zero, List.append_nil]
    rw [word_append (by omega), htake, HeadedImage.reverse]
    exact congrArg (fun pixels : Image => ({ read with toImage := pixels } : HeadedImage)) hpixels
  refine ⟨hload, ⟨hread, hhead, hheader⟩, ?_⟩
  rw [hwritten, biWriteImage_eq hread]
  show image.head_data.take image.data_ofset ++
    (biReverseImage read.toImage m).imageData.flatMap (pixelBytes image.bitCount) = _
  have hpixels : (biReverseImage read.toImage m).imageData.map (pixelBytes image.bitCount) =
      (biReverseImage image.toImage m).imageData.map (pixelBytes image.bitCount) := by
    have hwidth : (biReverseImage read.toImage m).width = (biReverseImage image.toImage m).width := rfl
    refine map_imageData_ext _ hwidth (length_biReverseImage _ _) (length_biReverseImage _ _) fun p hp => ?_
    have hp' : p.1 < image.width ∧ p.2 < image.height := hp
    have hrow : p.1 < image.width ∧ image.height - 1 - p.2 < image.height := ⟨hp'.1, by omega⟩
    rw [px_biReverseImage image.toImage m hp']
    refine (congrArg (pixelBytes image.bitCount) (px_biReverseImage read.toImage m hp')).trans ?_
    exact (congrArg (pixelBytes image.bitCount) (px_loadedAll hlength image.bitCount _ hrow)).trans
      (pixelBytes_loaded _ _ _)
  rw [List.flatMap_def, hpixels, ← List.flatMap_def, ← hhead, List.take_length]

/-- A pixel with all its bytes. -/
def onePixel : ImageData := ⟨10, 20, 30, 40, 50, 60⟩

theorem biLoadImage_biWriteImage_square :
    let image : HeadedImage := { biCreateImage 2 2 32 with imageData := [onePixel, default, default, onePixel] }
    let read : HeadedImage := { image with
      file_size := word image.head_data 2 4
      imageData := loadedAll image.bitCount (default ∘ mirrored image.width image.height) image.imageData }
    biLoadImage (biWriteImage image default default).1 0 default default = some read ∧ read.WellFormed ∧
      (biWriteImage read default default).1 = (biWriteImage image default default).1 :=
  biLoadImage_biWriteImage (wellFormed_paint (by decide) (by decide) (by decide) (.inr rfl) rfl) 0 default default
    default default

end LeftFelt.Legacy
