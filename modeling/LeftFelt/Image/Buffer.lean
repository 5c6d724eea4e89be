import LeftFelt.Image.Bitmap
import LeftFelt.Lib.CInt
import LeftFelt.Lib.Checked

/-!
# The buffer of an image

The class `biImage` with all that `BiImage` takes for granted: `mimage` may be `NULL`, the length of a new buffer is
computed in `int`, and a read or a write outside of the buffer has no result.

An image with positive dimensions, whose buffer has a length that is an `int`, is an object of this class (`lift`), and
what the methods do with it is what they do with the `BiImage`: `Put` and `Get` (`put_lift`, `get_lift`), `operator=`
(`assign_lift`), `Size` (`size_lift`), and the rows of `ImageUtil::Load` (`readRows_lift`).
-/

namespace LeftFelt

open Lib BiImage

/-- An object of the class `biImage`. What `mimage` points to, no other object points to. -/
structure RawImage where
  mimage : Option (List Pixel)
  clearColor : Pixel
  width : Int
  height : Int

namespace RawImage

/-! ## The class -/

/-- `init()`. -/
def init : RawImage := ⟨none, Pixel.init, 0, 0⟩

/-- The product of two `int`s. -/
def mul (m n : Int) : Int := CInt.wrap (m * n)

/-- `new Pixel[n]`, which throws if `n` is negative. -/
def newPixels (n : Int) : Option (List Pixel) := if n < 0 then none else some (List.replicate n.toNat Pixel.init)

/-- `Create(width, height)`. -/
def create (width height : Int) : Option RawImage := do
  return ⟨some (← newPixels (mul width height)), Pixel.init, width, height⟩

/-- `Delete()`. -/
def delete (_ : RawImage) : RawImage := init

/-- `Clear(color)`. -/
def setClear (this : RawImage) (color : Pixel) : RawImage := { this with clearColor := color }

/-- `*(mimage + k)`. -/
def load (this : RawImage) (k : Int) : Option Pixel := do
  let buffer ← this.mimage
  if k < 0 then none else Checked.load buffer k.toNat

/-- `*(mimage + k) = pixel`. -/
def store (this : RawImage) (k : Int) (pixel : Pixel) : Option RawImage := do
  let buffer ← this.mimage
  let buffer ← if k < 0 then none else Checked.store buffer k.toNat pixel
  return { this with mimage := some buffer }

/-- The index that `Put` and `Get` compute. A remainder of a division by zero is not defined. -/
def address (this : RawImage) (x y : Int) : Option Int :=
  if this.width = 0 ∨ this.height = 0 then none
  else
    let x := (if x < 0 then this.width + x else x).tmod this.width
    let y := (if y < 0 then this.height + y else y).tmod this.height
    some (x + mul y this.width)

/-- `Put(x, y, pixel)`. -/
def put (this : RawImage) (x y : Int) (pixel : Pixel) : Option RawImage := do
  this.store (← this.address x y) pixel

/-- `Get(x, y)`. -/
def get (this : RawImage) (x y : Int) : Option Pixel := do
  let pixel ← this.load (← this.address x y)
  return if this.clearColor.eq pixel then Pixel.init else pixel

/-- `biImage::for_each`. -/
def forEach {σ : Type*} (width height : Int) (func : Nat → Nat → σ → Option σ) (s : σ) : Option σ :=
  Checked.forLoop 0 height.toNat (fun j => Checked.forLoop 0 width.toNat fun i => func i j) s

/-- The buffer that `operator=` copies into. -/
def reserve (this image : RawImage) : Option RawImage :=
  if this.width < image.width ∨ this.height < image.height ∨ this.mimage = none then create image.width image.height
  else some { this with width := image.width, height := image.height }

/-- `*this = image`. An object that is assigned to itself has the same pixel in both places. -/
def assign (this image : RawImage) : Option RawImage := do
  let that := (← this.reserve image).setClear image.clearColor
  forEach that.width that.height
    (fun i j out => do out.store (i + mul j out.width) (← image.load (i + mul j image.width))) that

/-- `Size(width, height)`. -/
def size (this : RawImage) (width height : Int) : Option RawImage := do
  let wRate := Float.Model.ofInt this.width / Float.Model.ofInt width
  let hRate := Float.Model.ofInt this.height / Float.Model.ofInt height
  let image ← create width.natAbs height.natAbs
  let image ← forEach image.width image.height (fun i j out => do
    out.put i j (← this.get (Binary64.cInt (Float.Model.ofInt i * wRate)) (Binary64.cInt (Float.Model.ofInt j * hRate))))
    image
  this.assign (image.setClear this.clearColor)

/-- `Width(width)`. -/
def setWidth (this : RawImage) (width : Int) : Option RawImage := this.size width this.height

/-- `Height(height)`. -/
def setHeight (this : RawImage) (height : Int) : Option RawImage := this.size this.width height

/-! ## `ImageUtil::Load` -/

/-- The variables of `Load` that are read from the header. -/
structure Header where
  dataOfset : Nat
  width : Int
  height : Int
  bitCount : Nat

/-- What the variables are after the header has been read. Where the file has come to its end, a variable has some value
that the source does not set. -/
def readHeader (file : List UInt8) (old : Header) : Header where
  dataOfset := if 14 ≤ file.length then ImageUtil.word file 10 4 else old.dataOfset
  width := if 22 ≤ file.length then CInt.wrap (ImageUtil.word file 18 4) else old.width
  height := if 26 ≤ file.length then CInt.wrap (ImageUtil.word file 22 4) else old.height
  bitCount := if 30 ≤ file.length then ImageUtil.word file 28 2 else old.bitCount

/-- The variables while the rows are read. -/
structure Reader where
  fp : List UInt8
  r : UInt8
  g : UInt8
  b : UInt8
  image : RawImage

/-- The body of the loop over the columns. -/
def readPixel (bitCount j i : Nat) (s : Reader) : Option Reader := do
  if bitCount = 8 then
    let (g, fp) := ImageUtil.fread s.fp s.g
    return { s with fp := fp, g := g, image := ← s.image.put i j (Pixel.gray g) }
  else
    let (b, fp) := ImageUtil.fread s.fp s.b
    let (g, fp) := ImageUtil.fread fp s.g
    let (r, fp) := ImageUtil.fread fp s.r
    let s := { fp := fp, r := r, g := g, b := b, image := ← s.image.put i j (Pixel.rgb r g b) : Reader }
    if bitCount = 32 then
      let (g, fp) := ImageUtil.fread s.fp s.g
      return { s with fp := fp, g := g }
    else return s

/-- The reading of the padding of a row. -/
def skipPadding (bitCount width : Nat) (s : Reader) : Reader :=
  if bitCount = 24 then
    forLoop 0 (width % 4) (fun _ s =>
      let (g, fp) := ImageUtil.fread s.fp s.g
      { s with fp := fp, g := g }) s
  else s

/-- The rows. -/
def readRows (bitCount : Nat) (width height : Int) (s : Reader) : Option Reader :=
  Checked.forLoop 0 height.toNat (fun j s => do
    let s ← Checked.forLoop 0 width.toNat (readPixel bitCount j) s
    return skipPadding bitCount width.toNat s) s

/-- `Load(image, filename)` on the bytes of the file; `r`, `g`, `b` and `old` are what is in the variables before. -/
def loadFile (file : List UInt8) (old : Header) (r g b : UInt8) : Option RawImage := do
  let header := readHeader file old
  let fp := if header.dataOfset < 2 ^ 31 then file.drop header.dataOfset else file.drop 30
  let image ← create header.width header.height
  let s ← readRows header.bitCount image.width image.height ⟨fp, r, g, b, image⟩
  s.image.setHeight (-s.image.height)

/-! ## Images -/

/-- An image as an object. -/
def lift (image : BiImage) : RawImage where
  mimage := if image.mimage = [] then none else some image.mimage
  clearColor := image.clearColor
  width := image.width
  height := image.height

/-- The length of the buffer is an `int`, and an image with pixels has a size. -/
structure Full (image : BiImage) : Prop where
  length_lt : image.mimage.length < 2 ^ 31
  pos : image.mimage ≠ [] → 0 < image.width ∧ 0 < image.height

/-- The object is an image. -/
def WellFormed (o : RawImage) : Prop := ∃ image, o = lift image ∧ Full image

variable {image t : BiImage} {k : Nat} {pixel : Pixel}

theorem mul_eq {m n : Nat} (hlt : m * n < 2 ^ 31) : mul m n = (m * n : Nat) := by
  rw [mul, ← Nat.cast_mul, CInt.wrap_of_fits (CInt.fits_natCast hlt)]

theorem load_lift (hk : k < image.mimage.length) : (lift image).load k = some (image.read k) := by
  have hne : image.mimage ≠ [] := List.ne_nil_of_length_pos (by omega)
  have hneg : ¬(k : Int) < 0 := by omega
  simp only [load, lift, hne, if_false, Option.bind_eq_bind, Option.bind_some, if_neg hneg, Int.toNat_natCast,
    BiImage.read]
  exact Checked.load_eq hk _

theorem store_lift (hk : k < image.mimage.length) (pixel : Pixel) :
    (lift image).store k pixel = some (lift (image.write k pixel)) := by
  have hne : image.mimage ≠ [] := List.ne_nil_of_length_pos (by omega)
  have hneg : ¬(k : Int) < 0 := by omega
  simp only [store, lift, hne, if_false, Option.bind_eq_bind, Option.bind_some, if_neg hneg, Int.toNat_natCast, write,
    Checked.store_eq hk, List.set_eq_nil_iff]
  rfl

theorem Full.setClear (h : Full image) (color : Pixel) : Full (image.setClear color) := ⟨h.length_lt, h.pos⟩

@[simp] theorem length_write (image : BiImage) (k : Int) (pixel : Pixel) :
    (image.write k pixel).mimage.length = image.mimage.length := by
  simp only [write]
  split
  · rfl
  · exact List.length_set

/-- A coordinate that is negative by no more than the dimension. -/
theorem coordinate_lt {n : Nat} {x : Int} (h0 : 0 < n) (hx : -n ≤ x) :
    ∃ i : Nat, (if x < 0 then n + x else x).tmod n = i ∧ i < n := by
  have hnonneg : 0 ≤ if x < 0 then n + x else x := by
    split <;> omega
  rw [Int.tmod_eq_emod_of_nonneg hnonneg]
  generalize (if x < 0 then n + x else x) = z
  have hlow := Int.emod_nonneg z (b := n) (by omega)
  have hhigh := Int.emod_lt_of_pos z (b := n) (by omega)
  exact ⟨(z % n).toNat, (Int.toNat_of_nonneg hlow).symm, by omega⟩

/-- `Put` and `Get` stay in the buffer. -/
theorem address_lift (hfull : Full image) (hne : image.mimage ≠ []) {x y : Int} (hx : -image.width ≤ x)
    (hy : -image.height ≤ y) :
    (lift image).address x y = some (image.address x y) ∧
      ∃ k : Nat, image.address x y = k ∧ k < image.mimage.length := by
  obtain ⟨hw, hh⟩ := hfull.pos hne
  obtain ⟨i, hi, hilt⟩ := coordinate_lt hw hx
  obtain ⟨j, hj, hjlt⟩ := coordinate_lt hh hy
  have hlt : i + j * image.width < image.mimage.length := (index_lt (p := (i, j)) hilt hjlt).trans_le image.alloc
  have hfits := hfull.length_lt
  have hmul : mul j image.width = j * image.width := by
    rw [mul_eq (by omega), Nat.cast_mul]
  have haddress : image.address x y = i + j * image.width := by
    rw [BiImage.address, hi, hj]
  have hzero : ¬((lift image).width = 0 ∨ (lift image).height = 0) := by
    simp only [lift]
    omega
  refine ⟨?_, i + j * image.width, by rw [haddress]; push_cast; rfl, hlt⟩
  rw [haddress, address, if_neg hzero, ← hmul, ← hi, ← hj]
  rfl

theorem get_lift (hfull : Full image) (hne : image.mimage ≠ []) {x y : Int} (hx : -image.width ≤ x)
    (hy : -image.height ≤ y) : (lift image).get x y = some (image.get x y) := by
  obtain ⟨haddress, k, hk, hlt⟩ := address_lift hfull hne hx hy
  rw [get, haddress, Option.bind_eq_bind, Option.bind_some, hk, load_lift hlt, BiImage.get, hk]
  rfl

theorem put_lift (hfull : Full image) (hne : image.mimage ≠ []) {x y : Int} (hx : -image.width ≤ x)
    (hy : -image.height ≤ y) (pixel : Pixel) : (lift image).put x y pixel = some (lift (image.put x y pixel)) := by
  obtain ⟨haddress, k, hk, hlt⟩ := address_lift hfull hne hx hy
  rw [put, haddress, Option.bind_eq_bind, Option.bind_some, hk, store_lift hlt, BiImage.put, hk]

/-- A buffer whose length is an `int`. -/
theorem create_lift {width height : Nat} (hw : width < 2 ^ 31) (hh : height < 2 ^ 31) (hpos : 0 < width ∧ 0 < height)
    (hfits : width * height < 2 ^ 31) :
    create width height = some (lift (BiImage.create width height hw hh)) ∧ Full (BiImage.create width height hw hh) ∧
      (BiImage.create width height hw hh).mimage ≠ [] := by
  have hlength : (BiImage.create width height hw hh).mimage.length = width * height := List.length_replicate
  have hne : (BiImage.create width height hw hh).mimage ≠ [] :=
    List.ne_nil_of_length_pos (by rw [hlength]; exact Nat.mul_pos hpos.1 hpos.2)
  refine ⟨?_, ⟨by rw [hlength]; exact hfits, fun _ => hpos⟩, hne⟩
  rw [create, newPixels, mul_eq hfits, if_neg (by omega), Int.toNat_natCast, lift, if_neg hne]
  rfl

/-! ## Loops over an image -/

/-- An image with the dimensions and the buffer of another one, as far as loops go. -/
structure SameBuffer (t image : BiImage) : Prop where
  frame : SameFrame t image
  length : t.mimage.length = image.mimage.length

theorem SameBuffer.refl (image : BiImage) : SameBuffer image image := ⟨SameFrame.refl image, rfl⟩

theorem SameBuffer.write (h : SameBuffer t image) (k : Int) (pixel : Pixel) : SameBuffer (t.write k pixel) image :=
  ⟨(sameFrame_write k pixel).trans h.frame, (length_write t k pixel).trans h.length⟩

theorem SameBuffer.ne_nil (h : SameBuffer t image) (hne : image.mimage ≠ []) : t.mimage ≠ [] := by
  have hlength := h.length
  rw [← List.length_pos_iff] at *
  omega

theorem SameBuffer.full (h : SameBuffer t image) (hfull : Full image) (hne : image.mimage ≠ []) : Full t :=
  ⟨h.length ▸ hfull.length_lt, fun _ => by rw [h.frame.width, h.frame.height]; exact hfull.pos hne⟩

/-- `for_each` with steps that have results. -/
theorem forEach_lift {width height : Nat} {func : Nat → Nat → BiImage → BiImage}
    {func' : Nat → Nat → RawImage → Option RawImage} (hstep : ∀ i < width, ∀ j < height, ∀ t, SameBuffer t image →
      func' i j (lift t) = some (lift (func i j t)) ∧ SameBuffer (func i j t) image) :
    forEach width height func' (lift image) = some (lift (BiImage.forEach width height func image)) ∧
      SameBuffer (BiImage.forEach width height func image) image := by
  rw [forEach, Checked.forLoop_forLoop, BiImage.forEach_eq, Int.toNat_natCast, Int.toNat_natCast]
  refine Checked.foldlM_lift lift (SameBuffer · image) (SameBuffer.refl image) fun p hp t ht => ?_
  simp only [mem_raster] at hp
  exact hstep p.1 hp.1.2 p.2 hp.2.2 t ht

/-- The buffer that `operator=` copies into is the one of the images. -/
theorem reserve_lift (this : BiImage) (hthis : Full this) (hfull : Full image) (hne : image.mimage ≠ []) :
    (lift this).reserve (lift image) = some (lift (this.reserve image)) ∧ Full (this.reserve image) ∧
      (this.reserve image).mimage ≠ [] := by
  have hpos := hfull.pos hne
  have hiff : ((lift this).width < (lift image).width ∨ (lift this).height < (lift image).height ∨
      (lift this).mimage = none) ↔ (this.width < image.width ∨ this.height < image.height ∨ this.mimage = []) := by
    simp [lift]
  by_cases hgrow : this.width < image.width ∨ this.height < image.height ∨ this.mimage = []
  · obtain ⟨hcreate, hcfull, hcne⟩ := create_lift image.width_lt image.height_lt hpos
      (image.alloc.trans_lt hfull.length_lt)
    rw [reserve, if_pos (hiff.2 hgrow), BiImage.reserve, dif_pos hgrow]
    exact ⟨hcreate, hcfull, hcne⟩
  · rw [reserve, if_neg (fun h => hgrow (hiff.1 h)), BiImage.reserve, dif_neg hgrow]
    push Not at hgrow
    exact ⟨rfl, ⟨hthis.length_lt, fun _ => hpos⟩, hgrow.2.2⟩

/-- The loop of `operator=`. -/
theorem copy_lift {that : BiImage} (hthat : Full that) (hframe : SameFrame that image) (hfull : Full image) :
    forEach that.width that.height (fun i j out => do
        out.store (i + mul j out.width) (← (lift image).load (i + mul j (lift image).width))) (lift that) =
      some (lift (BiImage.forEach that.width that.height
        (fun i j out => out.write (i + j * out.width) (image.read (i + j * image.width))) that)) ∧
      SameBuffer (BiImage.forEach that.width that.height
        (fun i j out => out.write (i + j * out.width) (image.read (i + j * image.width))) that) that := by
  refine forEach_lift fun i hi j hj t ht => ?_
  have hfits : that.mimage.length < 2 ^ 31 ∧ image.mimage.length < 2 ^ 31 := ⟨hthat.length_lt, hfull.length_lt⟩
  have hlength := ht.length
  have hlt : i + j * that.width < t.mimage.length :=
    ht.length ▸ (index_lt (p := (i, j)) hi hj).trans_le that.alloc
  have hlt' : i + j * image.width < image.mimage.length :=
    (index_lt (p := (i, j)) (hframe.width ▸ hi) (hframe.height ▸ hj)).trans_le image.alloc
  have hmul : mul j (lift t).width = (j * that.width : Nat) := by
    rw [show (lift t).width = that.width from congrArg Nat.cast ht.frame.width]
    exact mul_eq (by omega)
  have hmul' : mul j (lift image).width = (j * image.width : Nat) := mul_eq (by omega)
  rw [hmul, hmul', ← Nat.cast_add, ← Nat.cast_add, load_lift hlt', Option.bind_eq_bind, Option.bind_some,
    store_lift hlt, ht.frame.width]
  push_cast
  exact ⟨rfl, ht.write _ _⟩

/-- `operator=` is the one of the images. -/
theorem assign_lift {this : BiImage} (hthis : Full this) (hfull : Full image) (hne : image.mimage ≠ []) :
    (lift this).assign (lift image) = some (lift (this.assign image)) ∧ Full (this.assign image) := by
  obtain ⟨hreserve, hrfull, hrne⟩ := reserve_lift this hthis hfull hne
  have hthat := hrfull.setClear image.clearColor
  obtain ⟨hloop, hsame⟩ := copy_lift hthat (sameFrame_reserve this image) hfull
  refine ⟨?_, hsame.full hthat hrne⟩
  rw [assign, hreserve, BiImage.assign]
  exact hloop

/-! ## `Size` and `Load` -/

/-- The loop of `Size`, with coordinates that are not too far below zero. -/
theorem resample_lift {this : BiImage} (hthis : Full this) (hne : this.mimage ≠ []) (hfull : Full image)
    (hne' : image.mimage ≠ []) {rx ry : Nat → Int} (hx : ∀ i < image.width, -(this.width : Int) ≤ rx i)
    (hy : ∀ j < image.height, -(this.height : Int) ≤ ry j) :
    forEach image.width image.height (fun i j out => do out.put i j (← (lift this).get (rx i) (ry j))) (lift image) =
        some (lift
          (BiImage.forEach image.width image.height (fun i j out => out.put i j (this.get (rx i) (ry j))) image)) ∧
      SameBuffer (BiImage.forEach image.width image.height (fun i j out => out.put i j (this.get (rx i) (ry j))) image)
        image := by
  refine forEach_lift fun i hi j hj t ht => ?_
  rw [get_lift hthis hne (hx i hi) (hy j hj), Option.bind_eq_bind, Option.bind_some,
    put_lift (ht.full hfull hne') (ht.ne_nil hne') (by omega) (by omega)]
  exact ⟨rfl, ht.write _ _⟩

/-- `Size` at rates that lead to such coordinates. -/
theorem size_lift {this : BiImage} (hfull : Full this) (hne : this.mimage ≠ []) (width height : Int)
    (hw : width.natAbs < 2 ^ 31) (hh : height.natAbs < 2 ^ 31) (hpos : width ≠ 0 ∧ height ≠ 0)
    (hfits : width.natAbs * height.natAbs < 2 ^ 31)
    (hx : ∀ i < width.natAbs, -(this.width : Int) ≤ Binary64.cInt (Float.Model.ofInt (i : Nat) *
      (Float.Model.ofInt this.width / Float.Model.ofInt width)))
    (hy : ∀ j < height.natAbs, -(this.height : Int) ≤ Binary64.cInt (Float.Model.ofInt (j : Nat) *
      (Float.Model.ofInt this.height / Float.Model.ofInt height))) :
    (lift this).size width height = some (lift (this.size width height hw hh)) ∧
      Full (this.size width height hw hh) := by
  obtain ⟨hcreate, hcfull, hcne⟩ := create_lift hw hh ⟨Int.natAbs_pos.2 hpos.1, Int.natAbs_pos.2 hpos.2⟩ hfits
  obtain ⟨hloop, hsame⟩ := resample_lift hfull hne hcfull hcne hx hy
  obtain ⟨hassign, hafull⟩ := assign_lift hfull ((hsame.full hcfull hcne).setClear this.clearColor) (hsame.ne_nil hcne)
  refine ⟨?_, hafull⟩
  rw [size, hcreate]
  exact (congrArg (fun o => Option.bind o fun out : RawImage => (lift this).assign (out.setClear this.clearColor))
    hloop).trans hassign

/-- `Size` to positive dimensions. -/
theorem size_pos {this : BiImage} (hfull : Full this) (hne : this.mimage ≠ []) {width height : Nat}
    (hpos : 0 < width ∧ 0 < height) (hfits : width * height < 2 ^ 31) :
    ∃ image, (lift this).size width height = some (lift image) ∧ Full image := by
  have hw : width < 2 ^ 31 := (Nat.le_mul_of_pos_right width hpos.2).trans_lt hfits
  have hh : height < 2 ^ 31 := (Nat.le_mul_of_pos_left height hpos.1).trans_lt hfits
  refine ⟨_, size_lift hfull hne width height hw hh (by omega) hfits (fun i _ => ?_)
    fun j _ => ?_⟩
  · have := Binary64.cInt_mul_div_nonneg i this.width width
    omega
  · have := Binary64.cInt_mul_div_nonneg j this.height height
    omega

/-- `Height(-Height())`. -/
theorem flip_lift (hfull : Full image) (hne : image.mimage ≠ []) :
    (lift image).setHeight (-image.height) = some (lift image.flip) ∧ Full image.flip := by
  obtain ⟨hw, hh⟩ := hfull.pos hne
  have hneg : (-(image.height : Int)).natAbs = image.height := by omega
  refine size_lift hfull hne image.width (-image.height) image.width_lt
    (by rw [hneg]; exact image.height_lt) (by omega)
    (by rw [hneg]; exact image.alloc.trans_lt hfull.length_lt) (fun i _ => ?_) fun j hj => ?_
  · have := Binary64.cInt_mul_div_nonneg i image.width image.width
    omega
  · have hlt := image.height_lt
    rw [Binary64.div_neg_self hh hlt, Binary64.cInt_mul_neg_one (by omega)]
    omega

/-- The variables of the loops that read. -/
def liftReader (s : ImageUtil.Reader) : Reader := ⟨s.fp, s.r, s.g, s.b, lift s.image⟩

theorem readPixel_lift {s : ImageUtil.Reader} (hs : SameBuffer s.image image) (hfull : Full image)
    (hne : image.mimage ≠ []) (bitCount j i : Nat) :
    readPixel bitCount j i (liftReader s) = some (liftReader (ImageUtil.readPixel bitCount j i s)) ∧
      SameBuffer (ImageUtil.readPixel bitCount j i s).image image := by
  have hput : ∀ pixel, (lift s.image).put i j pixel = some (lift (s.image.put i j pixel)) :=
    put_lift (hs.full hfull hne) (hs.ne_nil hne) (by omega) (by omega)
  rw [readPixel, ImageUtil.readPixel]
  by_cases h8 : bitCount = 8
  · simp only [h8, if_true, liftReader, hput]
    exact ⟨rfl, hs.write _ _⟩
  · by_cases h32 : bitCount = 32
    · simp only [h32, if_true, liftReader, hput]
      exact ⟨rfl, hs.write _ _⟩
    · simp only [h8, h32, if_false, liftReader, hput]
      exact ⟨rfl, hs.write _ _⟩

theorem skipPadding_lift (bitCount width : Nat) (s : ImageUtil.Reader) :
    skipPadding bitCount width (liftReader s) = liftReader (ImageUtil.skipPadding bitCount width s) := by
  unfold skipPadding ImageUtil.skipPadding
  split
  · rw [forLoop, forLoop]
    generalize List.range' 0 (width % 4 - 0) = l
    induction l generalizing s with
    | nil => rfl
    | cons a l ih => exact ih { s with fp := (ImageUtil.fread s.fp s.g).2, g := (ImageUtil.fread s.fp s.g).1 }
  · rfl

theorem readPixels_lift {s : ImageUtil.Reader} (hs : SameBuffer s.image image) (hfull : Full image)
    (hne : image.mimage ≠ []) (bitCount j width : Nat) :
    Checked.forLoop 0 width (readPixel bitCount j) (liftReader s) =
        some (liftReader (forLoop 0 width (ImageUtil.readPixel bitCount j) s)) ∧
      SameBuffer (forLoop 0 width (ImageUtil.readPixel bitCount j) s).image image :=
  Checked.foldlM_lift liftReader (fun s => SameBuffer s.image image) hs fun i _ _ hs =>
    readPixel_lift hs hfull hne bitCount j i

/-- The rows are read as they are read into images. -/
theorem readRows_lift {s : ImageUtil.Reader} (hs : SameBuffer s.image image) (hfull : Full image)
    (hne : image.mimage ≠ []) (bitCount width height : Nat) :
    readRows bitCount width height (liftReader s) =
        some (liftReader (forLoop 0 height (ImageUtil.readRow bitCount width) s)) ∧
      SameBuffer (forLoop 0 height (ImageUtil.readRow bitCount width) s).image image := by
  refine Checked.foldlM_lift liftReader (fun s => SameBuffer s.image image) hs fun j _ s hs => ?_
  obtain ⟨hrow, hs'⟩ := readPixels_lift hs hfull hne bitCount j width
  have hskip := (ImageUtil.skipPadding_spec bitCount width (forLoop 0 width (ImageUtil.readPixel bitCount j) s)).2
  refine ⟨?_, by rw [ImageUtil.readRow, hskip]; exact hs'⟩
  refine (congrArg (fun o => Option.bind o fun s => some (skipPadding bitCount width s)) hrow).trans ?_
  rw [Option.bind_some, skipPadding_lift]
  rfl

end RawImage

end LeftFelt
