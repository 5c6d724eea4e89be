import LeftFelt.Image.BiImage

/-!
# The legacy image

The C structures `IMAGE_DATA` and `IMAGE` (the dimensions and the pixels) and the functions on them.
-/

namespace LeftFelt.Legacy

open Lib

/-- `IMAGE_DATA`. -/
structure ImageData where
  rgbBlue : UInt8
  rgbGreen : UInt8
  rgbRed : UInt8
  rgbReserved : UInt8
  graylevel : UInt8
  label : UInt8
  deriving DecidableEq, Inhabited

/-- `IMAGE`. -/
structure Image where
  width : Nat
  height : Nat
  imageData : List ImageData

/-- `*(image->image_data + x + y * image->width)`. -/
def Image.px (image : Image) (p : Nat × Nat) : ImageData := image.imageData.getD (p.1 + p.2 * image.width) default

/-- `for (i = 0; i < width*height; i++)`: the body changes the pixel number `i`. -/
def Image.forPixels (image : Image) (f : Nat → ImageData → ImageData) : Image :=
  forLoop 0 (image.width * image.height) (fun i image =>
    { image with imageData := image.imageData.modify i (f i) }) image

/-- `biReverseImage`: the rows are copied, last row first, into a buffer `data` fresh from `malloc`. -/
def biReverseImage (image : Image) (malloc : Nat → ImageData) : Image :=
  let data := (List.range (image.width * image.height)).map malloc
  { image with
    imageData := forLoop 0 image.height (fun j => forLoop 0 image.width fun i data =>
      data.set (i + j * image.width) (image.px (i, image.height - 1 - j))) data }

/-- `biReverseImage` puts row `height - 1 - y` into row `y`. -/
theorem px_biReverseImage (image : Image) (malloc : Nat → ImageData) {p : Nat × Nat}
    (hp : p.1 < image.width ∧ p.2 < image.height) :
    (biReverseImage image malloc).px p = image.px (p.1, image.height - 1 - p.2) := by
  have hl : ∀ q ∈ raster 0 image.width 0 image.height, q.1 < image.width ∧ q.2 < image.height := fun q hq => by
    simp only [mem_raster] at hq
    exact ⟨hq.1.2, hq.2.2⟩
  simp only [biReverseImage, forLoop_forLoop]
  exact foldl_set (fun q => image.px (q.1, image.height - 1 - q.2)) default hl (by simp)
    (mem_raster.2 ⟨⟨Nat.zero_le _, hp.1⟩, Nat.zero_le _, hp.2⟩)

/-- Only the buffer changes. -/
theorem forPixels_eq (image : Image) (f : Nat → ImageData → ImageData) : image.forPixels f =
    { image with
      imageData := (List.range (image.width * image.height)).foldl (fun b k => b.modify k (f k)) image.imageData } := by
  have key : ∀ (l : List Nat) (data : List ImageData),
      l.foldl (fun (image : Image) i => { image with imageData := image.imageData.modify i (f i) })
        { image with imageData := data } =
      { image with imageData := l.foldl (fun b k => b.modify k (f k)) data } := by
    intro l
    induction l with
    | nil => exact fun _ => rfl
    | cons k l ih => exact fun data => ih _
  rw [Image.forPixels, forLoop, Nat.sub_zero, ← List.range_eq_range']
  exact key _ image.imageData

/-- Every pixel is changed by its own step. -/
theorem px_forPixels {image : Image} (hsize : image.imageData.length = image.width * image.height)
    (f : Nat → ImageData → ImageData) {p : Nat × Nat} (hp : p.1 < image.width ∧ p.2 < image.height) :
    (image.forPixels f).px p = f (p.1 + p.2 * image.width) (image.px p) := by
  have hlt := index_lt hp.1 hp.2
  rw [forPixels_eq]
  simp only [Image.px, List.getD_eq_getElem?_getD]
  rw [getElem?_foldl_modify, if_pos hlt, List.getElem?_eq_getElem (hlt.trans_eq hsize.symm)]
  rfl

end LeftFelt.Legacy
