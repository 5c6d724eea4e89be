import LeftFelt.Image.LegacyFile

/-!
# Files from one image library to the other

`biWriteImage` writes the rows from the last one to the first, and without padding. `Load` expects padding with 24 bits
and flips what it has read, but leaves row 0 where it is. So with 32 bits, or with rows that need no padding, it shows
the picture with its rows moved by one, the last one on top (`load_biWriteImage`); and `biLoadImage` shows a file of
`Save` with the first one at the bottom (`biLoadImage_save`).
-/

namespace LeftFelt.Legacy

open Lib ImageUtil BiImage

/-- Neither library has padding in its rows then. -/
def Unpadded (bitCount width : Nat) : Prop := bitCount = 32 ∨ bitCount = 24 ∧ width % 4 = 0

theorem Unpadded.padding {bitCount width : Nat} (h : Unpadded bitCount width) : padding bitCount width = [] := by
  rcases h with rfl | ⟨rfl, hwidth⟩
  · rfl
  · rw [ImageUtil.padding, if_pos rfl, hwidth]
    rfl

/-- The row above, around the top. -/
def rowAbove (height y : Nat) : Nat := (y + height - 1) % height

/-- The row below, around the bottom. -/
def rowBelow (height y : Nat) : Nat := (y + 1) % height

/-- Upside down without row 0, and upside down with it. -/
theorem rowAbove_eq {height y : Nat} (hy : y < height) : height - 1 - flipRow height y = rowAbove height y := by
  rcases Nat.eq_zero_or_pos y with rfl | hpos
  · rw [flipRow_zero, rowAbove, Nat.zero_add, Nat.mod_eq_of_lt (by omega), Nat.sub_zero]
  · have hsum : y + height - 1 = y - 1 + height := by omega
    rw [flipRow_pos hpos hy, rowAbove, hsum, Nat.add_mod_right, Nat.mod_eq_of_lt (by omega)]
    omega

/-- And in the other order. -/
theorem rowBelow_eq {height y : Nat} (hy : y < height) : flipRow height (height - 1 - y) = rowBelow height y := by
  by_cases hlast : y + 1 = height
  · rw [rowBelow, hlast, Nat.mod_self, show height - 1 - y = 0 by omega, flipRow_zero]
  · rw [flipRow_pos (by omega) (by omega), rowBelow, Nat.mod_eq_of_lt (by omega)]
    omega

/-! ## Rows -/

/-- The indices of a buffer, row by row. -/
theorem range_mul (width height : Nat) :
    (List.range height).flatMap (fun j => (List.range width).map fun i => i + j * width) =
      List.range (width * height) := by
  induction height with
  | zero => rfl
  | succ height ih =>
    rw [List.range_succ, List.flatMap_append, ih, Nat.mul_succ, List.range_add, List.flatMap_singleton]
    congr 1
    refine List.map_congr_left fun i _ => ?_
    rw [Nat.add_comm, Nat.mul_comm]

/-- The places of a buffer, row by row. -/
theorem map_raster (width height : Nat) :
    (raster 0 width 0 height).map (fun q => q.1 + q.2 * width) = List.range (width * height) := by
  rw [← range_mul]
  simp only [raster, Nat.sub_zero, List.map_flatMap, List.map_map, List.range_eq_range']
  rfl

theorem length_raster (width height : Nat) : (raster 0 width 0 height).length = width * height := by
  have hlength := congrArg List.length (map_raster width height)
  rwa [List.length_map, List.length_range] at hlength

/-- The pixels of a buffer, row by row. -/
theorem imageData_eq_rows {image : Image} (hlength : image.imageData.length = image.width * image.height) :
    image.imageData = (raster 0 image.width 0 image.height).map image.px := by
  have hmap : (List.range image.imageData.length).map (fun k => image.imageData.getD k default) = image.imageData :=
    List.ext_getElem (by simp) fun i hi hi' => by simp [List.getElem?_eq_getElem hi']
  rw [hlength, ← map_raster, List.map_map] at hmap
  exact hmap.symm

/-! ## A legacy file in the new library -/

/-- One pixel of a legacy file is read. -/
theorem readPixel_legacy {bitCount : Nat} (hb : bitCount = 24 ∨ bitCount = 32) (i j : Nat) (p : ImageData)
    (rest : List UInt8) {s : Reader} (hs : s.fp = pixelBytes bitCount p ++ rest) :
    (readPixel bitCount j i s).fp = rest ∧
      (readPixel bitCount j i s).image = s.image.put i j (Pixel.rgb p.rgbRed p.rgbGreen p.rgbBlue) := by
  rcases hb with rfl | rfl
  · simp [readPixel, pixelBytes, fread, hs]
  · simp [readPixel, pixelBytes, fread, hs]

/-- The pixels of a legacy file are read. -/
theorem readPixels_legacy {bitCount : Nat} (hb : bitCount = 24 ∨ bitCount = 32) (v : Nat × Nat → ImageData)
    (rest : List UInt8) (l : List (Nat × Nat)) {s : Reader}
    (hs : s.fp = (l.map v).flatMap (pixelBytes bitCount) ++ rest) :
    (l.foldl (fun s p => readPixel bitCount p.2 p.1 s) s).image =
      l.foldl (fun image p => image.put p.1 p.2 (Pixel.rgb (v p).rgbRed (v p).rgbGreen (v p).rgbBlue)) s.image := by
  induction l generalizing s with
  | nil => rfl
  | cons p l ih =>
    rw [List.map_cons, List.flatMap_cons, List.append_assoc] at hs
    obtain ⟨hfp, himage⟩ := readPixel_legacy hb p.1 p.2 (v p) _ hs
    rw [List.foldl_cons, List.foldl_cons, ← himage]
    exact ih hfp

/-- Without padding a row is its pixels. -/
theorem readRow_unpadded {bitCount width : Nat} (h : Unpadded bitCount width) (j : Nat) (s : Reader) :
    readRow bitCount width j s = forLoop 0 width (readPixel bitCount j) s := by
  unfold readRow skipPadding
  rcases h with rfl | ⟨rfl, hwidth⟩
  · rfl
  · rw [if_pos rfl, hwidth]
    rfl

/-- The pixel of the new library with the colours of a legacy one. -/
def toPixel (p : ImageData) : Pixel := Pixel.rgb p.rgbRed p.rgbGreen p.rgbBlue

/-- `Load` on a file without padding. -/
theorem load_unpadded {file : List UInt8} {data_ofset width height bitCount : Nat}
    (h : Header file data_ofset width height bitCount) (hofset : data_ofset < 2 ^ 31) (hbits : Unpadded bitCount width)
    (v : Nat × Nat → ImageData)
    (hfile : file.drop data_ofset = ((raster 0 width 0 height).map v).flatMap (pixelBytes bitCount)) (r g b : UInt8) :
    ∃ read, load file r g b = some read ∧ read.width = width ∧ read.height = height ∧
      ∀ x y : Nat, x < width → y < height → read.get x y = toPixel (v (x, flipRow height y)) := by
  have hb : bitCount = 24 ∨ bitCount = 32 := hbits.symm.imp_left And.left
  set blank := create width height h.width_lt h.height_lt with hblank
  obtain ⟨hframe, hput⟩ := forEach_put (fun x y => toPixel (v (x, y))) blank
  set painted := forEach blank.width blank.height (fun x y out => out.put x y (toPixel (v (x, y)))) blank with hpainted
  have hrows : ∀ s : Reader, s.fp = file.drop data_ofset → s.image = blank →
      (forLoop 0 height (readRow bitCount width) s).image = painted := by
    intro s hs hs'
    have hrow : readRow bitCount width = fun j => forLoop 0 width (readPixel bitCount j) :=
      funext fun j => funext (readRow_unpadded hbits j)
    have hpixels := readPixels_legacy hb v [] (raster 0 width 0 height) (s := s)
      (by rw [List.append_nil, hs, hfile])
    rw [hrow, forLoop_forLoop 0 width 0 height (fun i j => readPixel bitCount j i), hpixels, hs', hpainted, forEach,
      forLoop_forLoop]
    rfl
  have hload : load file r g b = some painted.flip := by
    rw [load]
    simp only [h.data_ofset_eq, h.width_eq, h.height_eq, h.bitCount_eq]
    rw [dif_pos ⟨h.complete, h.width_lt, h.height_lt⟩, if_pos hofset]
    exact congrArg (fun im : BiImage => some im.flip) (hrows _ rfl rfl)
  refine ⟨_, hload, (width_flip _).trans hframe.width, (height_flip _).trans hframe.height, fun x y hx hy => ?_⟩
  have hinside : painted.Inside (x, y) := ⟨hx.trans_eq hframe.width.symm, hy.trans_eq hframe.height.symm⟩
  have hrow : blank.Inside (x, flipRow height y) := ⟨hx, flipRow_lt hy⟩
  have hheight : painted.height = height := hframe.height
  have hpx := hput _ hrow
  rw [get_flip hinside, hheight]
  exact (get_of_not_empty hframe.clear (hframe.inside.2 hrow) (by rw [hpx]; rfl)).trans hpx

/-- **A legacy file in the new library**: the picture has its colours, and every row stands one below. -/
theorem load_biWriteImage {image : HeadedImage} (h : image.WellFormed) (hofset : image.data_ofset < 2 ^ 31)
    (hbits : Unpadded image.bitCount image.width) (m m' : Nat → ImageData) (r g b : UInt8) :
    ∃ read, load (biWriteImage image m m').1 r g b = some read ∧ read.width = image.width ∧
      read.height = image.height ∧ ∀ x y : Nat, x < image.width → y < image.height →
        read.get x y = toPixel (image.px (x, rowAbove image.height y)) := by
  obtain ⟨hlength, hhead, hheader⟩ := h
  have hsize := length_biReverseImage image.toImage m
  have hwritten : (biWriteImage image m m').1 =
      image.head_data ++ (biReverseImage image.toImage m).imageData.flatMap (pixelBytes image.bitCount) := by
    rw [biWriteImage_eq hlength, ← hhead, List.take_length]
  have hrows : (biReverseImage image.toImage m).imageData =
      (raster 0 image.width 0 image.height).map (biReverseImage image.toImage m).px := imageData_eq_rows hsize
  rw [hwritten, hrows]
  obtain ⟨read, hload, hwidth, hheight, hpixels⟩ := load_unpadded (hheader.append _) hofset hbits
    (biReverseImage image.toImage m).px (by rw [← hhead, List.drop_left]) r g b
  refine ⟨read, hload, hwidth, hheight, fun x y hx hy => ?_⟩
  rw [hpixels x y hx hy, px_biReverseImage image.toImage m (p := (x, flipRow image.height y)) ⟨hx, flipRow_lt hy⟩,
    rowAbove_eq hy]

theorem load_biWriteImage_four :
    let image : HeadedImage :=
      { biCreateImage 4 2 24 with imageData := List.replicate 4 onePixel ++ List.replicate 4 default }
    ∃ read, load (biWriteImage image default default).1 0 0 0 = some read ∧ read.width = image.width ∧
      read.height = image.height ∧ ∀ x y : Nat, x < image.width → y < image.height →
        read.get x y = toPixel (image.px (x, rowAbove image.height y)) :=
  load_biWriteImage (wellFormed_paint (by decide) (by decide) (by decide) (.inl rfl) rfl) (by decide)
    (.inr ⟨rfl, rfl⟩) default default 0 0 0

/-! ## A file of the new library in the legacy one -/

/-- The legacy pixel whose bytes `Save` writes. -/
def ofPixel (p : Pixel) : ImageData := ⟨p.blue, p.green, p.red, 0, 0, 0⟩

theorem pixelBytes_ofPixel {bitCount : Nat} (hb : bitCount = 24 ∨ bitCount = 32) (p : Pixel) :
    pixelBytes bitCount (ofPixel p) = ImageUtil.pixelBytes bitCount p := by
  rcases hb with rfl | rfl <;> rfl

/-- A pixel of a buffer that has been filled row by row. -/
theorem px_rows (width height : Nat) (v : Nat × Nat → ImageData) {p : Nat × Nat}
    (hp : p.1 < width ∧ p.2 < height) : ({ width, height, imageData := (raster 0 width 0 height).map v } : Image).px p =
      v p := by
  have hat : (raster 0 width 0 height)[p.1 + p.2 * width]? = some p := by
    have hmap := congrArg (·[p.1 + p.2 * width]?) (map_raster width height)
    simp only [List.getElem?_map, List.getElem?_range (index_lt hp.1 hp.2), Option.map_eq_some_iff] at hmap
    obtain ⟨q, hq, hsame⟩ := hmap
    have hmem := mem_raster.1 (List.mem_of_getElem? hq)
    rw [hq, index_inj hmem.1.2 hp.1 hsame]
  simp only [Image.px, List.getD_eq_getElem?_getD, List.getElem?_map, hat]
  rfl

/-- The pixels that are written: the picture as `Save` flips it. -/
def savedPixels (image : BiImage) : List ImageData :=
  (raster 0 image.width 0 image.height).map fun q => ofPixel (image.flip.get q.1 q.2)

/-- A file of `Save` without padding. -/
theorem save_unpadded (image : BiImage) {bitCount : Nat} (hbits : Unpadded bitCount image.width)
    (malloc : Nat → UInt8) :
    (save image bitCount 54 malloc).1 = (fileHeader 54 ++ infoHeader image.width image.height bitCount) ++
      (savedPixels image).flatMap (pixelBytes bitCount) := by
  have hb : bitCount = 24 ∨ bitCount = 32 := hbits.symm.imp_left And.left
  have hoff : offBits bitCount = 54 := by rcases hb with rfl | rfl <;> rfl
  have hhead : header image.width image.height bitCount 54 malloc =
      fileHeader 54 ++ infoHeader image.width image.height bitCount := List.append_nil _
  have hrow : ∀ j : Nat, rowBytes image.flip bitCount j =
      ((List.range' 0 image.width).map fun i : Nat => ofPixel (image.flip.get i j)).flatMap (pixelBytes bitCount) := by
    intro j
    rw [rowBytes, width_flip, hbits.padding, List.append_nil, List.flatMap_map]
    simp only [pixelBytes_ofPixel hb]
  rw [save_fst, hoff, hhead]
  simp only [savedPixels, raster, Nat.sub_zero, List.map_flatMap, List.map_map, List.flatMap_assoc]
  exact congrArg _ (List.flatMap_congr fun j _ => hrow j)

/-- **A file of the new library in the legacy one**: the picture has its colours, and every row stands one above. -/
theorem biLoadImage_save (image : BiImage) {bitCount : Nat} (hsize : image.width * image.height < 2 ^ 31)
    (hbits : Unpadded bitCount image.width) (malloc : Nat → UInt8) (garbage : UInt8) (m m' : Nat → ImageData) :
    ∃ read, biLoadImage (save image bitCount 54 malloc).1 garbage m m' = some read ∧ read.width = image.width ∧
      read.height = image.height ∧ ∀ x y : Nat, x < image.width → y < image.height →
        let p := image.get x (rowBelow image.height y)
        (read.px (x, y)).rgbRed = p.red ∧ (read.px (x, y)).rgbGreen = p.green ∧ (read.px (x, y)).rgbBlue = p.blue := by
  have hb : bitCount = 24 ∨ bitCount = 32 := hbits.symm.imp_left And.left
  set pixels : Image := ⟨image.width, image.height, savedPixels image⟩ with hpixels
  have hlength : pixels.imageData.length = pixels.width * pixels.height :=
    (List.length_map _).trans (length_raster _ _)
  have hheader := header_biCreateImage image.width_lt image.height_lt hsize hb
    ((savedPixels image).flatMap (pixelBytes bitCount))
  have hfile : ((fileHeader 54 ++ infoHeader image.width image.height bitCount) ++
      (savedPixels image).flatMap (pixelBytes bitCount)).drop 54 =
      (savedPixels image).flatMap (pixelBytes bitCount) ++ [] := by
    rw [List.append_nil]
    exact List.drop_left' (by simp [fileHeader, infoHeader])
  rw [save_unpadded image hbits]
  refine ⟨_, biLoadImage_eq hheader hlength [] hfile garbage m m', rfl, rfl, fun x y hx hy => ?_⟩
  have hrow : image.height - 1 - y < image.height := by omega
  have hread : (biReverseImage { pixels with imageData := loadedAll bitCount m pixels.imageData } m').px (x, y) =
      loaded bitCount (m (x + (image.height - 1 - y) * image.width))
        (ofPixel (image.get x (rowBelow image.height y))) := by
    rw [px_biReverseImage { pixels with imageData := loadedAll bitCount m pixels.imageData } m' (p := (x, y))
      ⟨hx, hy⟩]
    refine (px_loadedAll hlength bitCount m (p := (x, image.height - 1 - y)) ⟨hx, hrow⟩).trans ?_
    refine congrArg (loaded bitCount _) ((px_rows image.width image.height _ ⟨hx, hrow⟩).trans ?_)
    have hinside : image.Inside (x, image.height - 1 - y) := ⟨hx, hrow⟩
    rw [get_flip hinside, rowBelow_eq hy]
  show ((biReverseImage { pixels with imageData := loadedAll bitCount m pixels.imageData } m').px (x, y)).rgbRed = _ ∧
    ((biReverseImage { pixels with imageData := loadedAll bitCount m pixels.imageData } m').px (x, y)).rgbGreen = _ ∧
    ((biReverseImage { pixels with imageData := loadedAll bitCount m pixels.imageData } m').px (x, y)).rgbBlue = _
  rw [hread]
  exact ⟨rfl, rfl, rfl⟩

theorem biLoadImage_save_twoColours :
    let image := ImageUtil.twoColours
    ∃ read, biLoadImage (save image 32 54 fun _ => 7).1 0 default default = some read ∧ read.width = image.width ∧
      read.height = image.height ∧ ∀ x y : Nat, x < image.width → y < image.height →
        let p := image.get x (rowBelow image.height y)
        (read.px (x, y)).rgbRed = p.red ∧ (read.px (x, y)).rgbGreen = p.green ∧ (read.px (x, y)).rgbBlue = p.blue :=
  biLoadImage_save ImageUtil.twoColours (by decide) (.inl rfl) (fun _ => 7) 0 default default

end LeftFelt.Legacy
