import LeftFelt.Image.Pixel
import LeftFelt.Lib.Binary64
import LeftFelt.Lib.Loop

/-!
# Images

The class `biImage`: a buffer of pixels, the clear colour, and the dimensions, which are `int`s. The buffer may be
longer than `width * height` (`operator=` keeps a buffer that is large enough); it is never shorter, which is the
invariant `alloc`. `mimage = []` also stands for the null pointer.

`get` and `put` go through `address`, the index they compute from any two `int`s. Inside the image the index of `(x, y)`
is `x + y * width`, and `px` reads the buffer there. A scan that writes each pixel at most once is described pixel by
pixel by `foldl_write`; from it come `operator=` (`px_assign`) and the vertical flip `Height(-Height())` (`get_flip`).
-/

namespace LeftFelt

open Lib

/-- `class biImage`. -/
structure BiImage where
  mimage : List Pixel
  clearColor : Pixel
  width : Nat
  height : Nat
  width_lt : width < 2 ^ 31
  height_lt : height < 2 ^ 31
  alloc : width * height ≤ mimage.length

namespace BiImage

variable {image t : BiImage} {x y : Nat} {p q : Nat × Nat}

/-! ## The class -/

/-- `Create(width, height)`: a new buffer of `Pixel()`, the default clear colour. -/
def create (width height : Nat) (hw : width < 2 ^ 31) (hh : height < 2 ^ 31) : BiImage where
  mimage := List.replicate (width * height) Pixel.init
  clearColor := Pixel.init
  width := width
  height := height
  width_lt := hw
  height_lt := hh
  alloc := by simp

/-- `biImage output(image.Width(), image.Height())`. -/
def createLike (image : BiImage) : BiImage := create image.width image.height image.width_lt image.height_lt

/-- `Clear(color)`. -/
def setClear (image : BiImage) (color : Pixel) : BiImage := { image with clearColor := color }

/-- `*(mimage + k)`. Outside the buffer the read is undefined in C++; no theorem depends on its value there. -/
def read (image : BiImage) (k : Int) : Pixel := if k < 0 then Pixel.init else image.mimage.getD k.toNat Pixel.init

/-- `*(mimage + k) = pixel`. -/
def write (image : BiImage) (k : Int) (pixel : Pixel) : BiImage :=
  { image with
    mimage := if k < 0 then image.mimage else image.mimage.set k.toNat pixel
    alloc := by
      have h := image.alloc
      split
      · exact h
      · rw [List.length_set]; exact h }

/-- The index that `Put` and `Get` compute: one dimension is added to a negative coordinate, then `%` is taken. -/
def address (image : BiImage) (x y : Int) : Int :=
  let x := (if x < 0 then image.width + x else x).tmod image.width
  let y := (if y < 0 then image.height + y else y).tmod image.height
  x + y * image.width

/-- `Put(x, y, pixel)`. -/
def put (image : BiImage) (x y : Int) (pixel : Pixel) : BiImage := image.write (image.address x y) pixel

/-- `Get(x, y)`: a pixel of the clear colour reads as `Pixel()`. -/
def get (image : BiImage) (x y : Int) : Pixel :=
  if image.clearColor.eq (image.read (image.address x y)) then Pixel.init else image.read (image.address x y)

/-- `biImage::for_each`: row by row. -/
def forEach {σ : Type*} (width height : Nat) (func : Nat → Nat → σ → σ) (s : σ) : σ :=
  forLoop 0 height (fun j => forLoop 0 width fun i => func i j) s

/-- The buffer that `operator=` copies into: a new one if a dimension grows, else the old one cut down. -/
def reserve (this image : BiImage) : BiImage :=
  if h : this.width < image.width ∨ this.height < image.height ∨ this.mimage = [] then
    create image.width image.height image.width_lt image.height_lt
  else
    { this with
      width := image.width
      height := image.height
      width_lt := image.width_lt
      height_lt := image.height_lt
      alloc := by
        push Not at h
        exact (Nat.mul_le_mul h.1 h.2.1).trans this.alloc }

/-- `*this = image`. -/
def assign (this image : BiImage) : BiImage :=
  let that := (this.reserve image).setClear image.clearColor
  forEach that.width that.height
    (fun i j out => out.write (i + j * out.width) (image.read (i + j * image.width))) that

/-- `Size(width, height)`: resampling at the rates `Width()/width` and `Height()/height`, computed in `double`. -/
def size (this : BiImage) (width height : Int) (hw : width.natAbs < 2 ^ 31) (hh : height.natAbs < 2 ^ 31) : BiImage :=
  let wRate := Float.Model.ofInt this.width / Float.Model.ofInt width
  let hRate := Float.Model.ofInt this.height / Float.Model.ofInt height
  let image := create width.natAbs height.natAbs hw hh
  let image := forEach image.width image.height
    (fun i j out => out.put i j
      (this.get (Binary64.cInt (Float.Model.ofInt i * wRate)) (Binary64.cInt (Float.Model.ofInt j * hRate)))) image
  this.assign (image.setClear this.clearColor)

/-- `Height(height)`. -/
def setHeight (this : BiImage) (height : Int) (hh : height.natAbs < 2 ^ 31) : BiImage :=
  this.size this.width height this.width_lt hh

/-- `image.Height(-image.Height())`, written for a vertical flip. -/
def flip (image : BiImage) : BiImage :=
  image.setHeight (-image.height) (by rw [Int.natAbs_neg]; exact image.height_lt)

/-! ## Pixels inside the image -/

/-- The coordinate lies in the image. -/
def Inside (image : BiImage) (p : Nat × Nat) : Prop := p.1 < image.width ∧ p.2 < image.height

instance (image : BiImage) (p : Nat × Nat) : Decidable (image.Inside p) := inferInstanceAs (Decidable (_ ∧ _))

/-- The pixel stored for `(x, y)`. -/
def px (image : BiImage) (p : Nat × Nat) : Pixel := image.mimage.getD (p.1 + p.2 * image.width) Pixel.init

/-- Two images of the same dimensions and clear colour. -/
structure SameFrame (a b : BiImage) : Prop where
  width : a.width = b.width
  height : a.height = b.height
  clear : a.clearColor = b.clearColor

theorem SameFrame.refl (a : BiImage) : SameFrame a a := ⟨rfl, rfl, rfl⟩

theorem SameFrame.trans {a b c : BiImage} (h₁ : SameFrame a b) (h₂ : SameFrame b c) : SameFrame a c :=
  ⟨h₁.width.trans h₂.width, h₁.height.trans h₂.height, h₁.clear.trans h₂.clear⟩

theorem SameFrame.inside {a b : BiImage} (h : SameFrame a b) : a.Inside p ↔ b.Inside p := by
  rw [Inside, Inside, h.width, h.height]

theorem address_inside (hp : image.Inside (x, y)) : image.address x y = ((x + y * image.width : Nat) : Int) := by
  obtain ⟨hx, hy⟩ := hp
  simp only [address]
  rw [if_neg (by omega), if_neg (by omega), Int.tmod_eq_of_lt (by omega) (by exact_mod_cast hx),
    Int.tmod_eq_of_lt (by omega) (by exact_mod_cast hy)]
  push_cast
  rfl

theorem read_index (p : Nat × Nat) : image.read ((p.1 + p.2 * image.width : Nat) : Int) = image.px p := by
  simp only [read, px, Int.toNat_natCast]
  rw [if_neg (by omega)]

/-- `Get` inside the image. -/
theorem get_inside (hp : image.Inside (x, y)) :
    image.get x y = if image.clearColor.eq (image.px (x, y)) then Pixel.init else image.px (x, y) := by
  simp only [get, address_inside hp, read_index (x, y)]

theorem put_inside (hp : image.Inside (x, y)) (pixel : Pixel) :
    image.put x y pixel = image.write ((x + y * image.width : Nat) : Int) pixel := by
  rw [put, address_inside hp]

theorem sameFrame_write (k : Int) (pixel : Pixel) : SameFrame (image.write k pixel) image := ⟨rfl, rfl, rfl⟩

/-- A write changes the pixel written to and no other. -/
theorem px_write (hp : image.Inside p) (hq : image.Inside q) (pixel : Pixel) :
    (image.write ((p.1 + p.2 * image.width : Nat) : Int) pixel).px q = if q = p then pixel else image.px q := by
  have hk : ¬((p.1 + p.2 * image.width : Nat) : Int) < 0 := by omega
  simp only [px, write, if_neg hk, Int.toNat_natCast]
  exact getD_set image.alloc hp hq.1 pixel _

/-- **A scan that writes**: each pixel of the list with `c p` is replaced by `v p` of it, the others stay. -/
theorem foldl_write (c : Nat × Nat → Bool) (v : Nat × Nat → Pixel → Pixel) {l : List (Nat × Nat)} (hnodup : l.Nodup)
    {s : BiImage} (hl : ∀ p ∈ l, s.Inside p) {f : BiImage → Nat × Nat → BiImage}
    (hf : ∀ t p, SameFrame t s → p ∈ l →
      f t p = if c p then t.write ((p.1 + p.2 * t.width : Nat) : Int) (v p (t.px p)) else t) :
    SameFrame (l.foldl f s) s ∧
      ∀ q, s.Inside q → (l.foldl f s).px q = if q ∈ l ∧ c q then v q (s.px q) else s.px q := by
  refine foldl_scan (fun pre t => SameFrame t s ∧
    ∀ q, s.Inside q → t.px q = if q ∈ pre ∧ c q then v q (s.px q) else s.px q) ⟨SameFrame.refl s, fun q _ => by simp⟩ ?_
  rintro pre p post t hpre ⟨hfr, ht⟩
  have hpl : p ∈ l := by simp [hpre]
  have hp := hl p hpl
  have hpt := hfr.inside.2 hp
  -- the pixel has not been written before
  have hnew : p ∉ pre := fun h => by
    rw [hpre, List.nodup_append] at hnodup
    exact hnodup.2.2 p h p List.mem_cons_self rfl
  have hold : t.px p = s.px p := by
    rw [ht p hp, if_neg fun h => hnew h.1]
  rw [hf t p hfr hpl]
  by_cases hc : c p
  · rw [if_pos hc]
    refine ⟨(sameFrame_write _ _).trans hfr, fun q hq => ?_⟩
    rw [px_write hpt (hfr.inside.2 hq), ht q hq, hold]
    by_cases hqp : q = p
    · subst hqp; simp [hc]
    · simp [hqp]
  · rw [if_neg hc]
    refine ⟨hfr, fun q hq => ?_⟩
    rw [ht q hq]
    by_cases hqp : q = p
    · subst hqp; simp [hc]
    · simp [hqp]

theorem forEach_eq {σ : Type*} (width height : Nat) (func : Nat → Nat → σ → σ) (s : σ) :
    forEach width height func s = (raster 0 width 0 height).foldl (fun s p => func p.1 p.2 s) s :=
  forLoop_forLoop 0 width 0 height func s

/-- The pixels of an image, row by row. -/
def grid (image : BiImage) : List (Nat × Nat) := raster 0 image.width 0 image.height

@[simp] theorem mem_grid : p ∈ grid image ↔ image.Inside p := by
  simp [grid, Inside]

theorem length_grid (image : BiImage) : (grid image).length = image.width * image.height := by
  have h := congrArg List.length (raster_index image.width image.height)
  rwa [List.length_map, List.length_range] at h

/-- Images that agree inside read alike. -/
theorem get_congr {a b : BiImage} (h : SameFrame a b) (hp : a.Inside (x, y)) (hpx : a.px (x, y) = b.px (x, y)) :
    a.get x y = b.get x y := by
  rw [get_inside hp, get_inside (h.inside.1 hp), h.clear, hpx]

/-- `for_each` with a `Put` at every coordinate. -/
theorem forEach_put (v : Nat → Nat → Pixel) (s : BiImage) :
    SameFrame (forEach s.width s.height (fun i j out => out.put i j (v i j)) s) s ∧
      ∀ p, s.Inside p → (forEach s.width s.height (fun i j out => out.put i j (v i j)) s).px p = v p.1 p.2 := by
  rw [forEach_eq]
  have hl : ∀ p ∈ raster 0 s.width 0 s.height, s.Inside p := fun p hp => by
    simp only [mem_raster] at hp
    exact ⟨hp.1.2, hp.2.2⟩
  obtain ⟨hfr, hpx⟩ := foldl_write (fun _ => true) (fun p _ => v p.1 p.2) (raster_nodup _ _ _ _) hl
    (f := fun t p => t.put p.1 p.2 (v p.1 p.2)) fun t p ht hp => by
      simp only [if_true]
      exact put_inside (ht.inside.2 (hl p hp)) _
  refine ⟨hfr, fun p hp => ?_⟩
  rw [hpx p hp, if_pos]
  exact ⟨mem_raster.2 ⟨⟨Nat.zero_le _, hp.1⟩, Nat.zero_le _, hp.2⟩, rfl⟩

/-- Under the default clear colour `Get` shows every pixel that is not empty. -/
theorem get_of_not_empty (hclear : image.clearColor = Pixel.init) (hp : image.Inside (x, y))
    (hpx : (image.px (x, y)).empty = false) : image.get x y = image.px (x, y) := by
  have hne : ¬(Pixel.init.eq (image.px (x, y)) = true) := by
    rw [Pixel.eq_iff, hpx]
    exact fun h => Bool.noConfusion h.1
  rw [get_inside hp, hclear, if_neg hne]

/-- The image whose pixel at `(x, y)` is `v x y`. -/
def ofFn (width height : Nat) (hw : width < 2 ^ 31) (hh : height < 2 ^ 31) (v : Nat → Nat → Pixel) : BiImage :=
  forEach width height (fun i j image => image.put i j (v i j)) (create width height hw hh)

/-- Widths and heights of small images. -/
theorem one_fits : 1 < 2 ^ 31 := by decide

theorem two_fits : 2 < 2 ^ 31 := by decide

theorem three_fits : 3 < 2 ^ 31 := by decide

theorem sameFrame_ofFn (width height : Nat) (hw : width < 2 ^ 31) (hh : height < 2 ^ 31) (v : Nat → Nat → Pixel) :
    SameFrame (ofFn width height hw hh v) (create width height hw hh) :=
  (forEach_put v (create width height hw hh)).1

theorem get_ofFn {width height : Nat} (hw : width < 2 ^ 31) (hh : height < 2 ^ 31) {v : Nat → Nat → Pixel}
    (hx : x < width) (hy : y < height) (hv : (v x y).empty = false) : (ofFn width height hw hh v).get x y = v x y := by
  have hin : (create width height hw hh).Inside (x, y) := ⟨hx, hy⟩
  have hpx : (ofFn width height hw hh v).px (x, y) = v x y := (forEach_put v (create width height hw hh)).2 (x, y) hin
  rw [get_of_not_empty (sameFrame_ofFn width height hw hh v).clear
    ((sameFrame_ofFn width height hw hh v).inside.2 hin) (by rw [hpx]; exact hv), hpx]

/-! ## `operator=`, `Size` and the flip -/

theorem sameFrame_reserve (this image : BiImage) :
    SameFrame ((this.reserve image).setClear image.clearColor) image := by
  unfold reserve
  split <;> exact ⟨rfl, rfl, rfl⟩

theorem assign_spec (this image : BiImage) :
    SameFrame (this.assign image) image ∧ ∀ p, image.Inside p → (this.assign image).px p = image.px p := by
  have hfr := sameFrame_reserve this image
  generalize hthat : (this.reserve image).setClear image.clearColor = that at hfr
  have hl : ∀ p ∈ raster 0 that.width 0 that.height, that.Inside p := fun p hp => by
    simp only [mem_raster] at hp
    exact ⟨hp.1.2, hp.2.2⟩
  obtain ⟨hfr', hpx⟩ := foldl_write (fun _ => true) (fun p _ => image.px p) (raster_nodup _ _ _ _) hl
    (f := fun out p => out.write (p.1 + p.2 * out.width) (image.read (p.1 + p.2 * image.width))) fun t p _ _ => by
      rw [← read_index]
      push_cast
      rfl
  have hass : this.assign image = (raster 0 that.width 0 that.height).foldl
      (fun out p => out.write (p.1 + p.2 * out.width) (image.read (p.1 + p.2 * image.width))) that := by
    simp only [assign, hthat, forEach_eq]
  rw [hass]
  refine ⟨hfr'.trans hfr, fun p hp => ?_⟩
  have hp' := hfr.inside.2 hp
  rw [hpx p hp', if_pos]
  exact ⟨mem_raster.2 ⟨⟨Nat.zero_le _, hp'.1⟩, Nat.zero_le _, hp'.2⟩, rfl⟩

/-- `a = b` leaves `a` with the frame of `b`. -/
theorem sameFrame_assign (this image : BiImage) : SameFrame (this.assign image) image := (assign_spec this image).1

theorem px_assign (this : BiImage) (hp : image.Inside p) : (this.assign image).px p = image.px p :=
  (assign_spec this image).2 p hp

theorem get_assign (this : BiImage) (hp : image.Inside (x, y)) : (this.assign image).get x y = image.get x y :=
  get_congr (sameFrame_assign this image) ((sameFrame_assign this image).inside.2 hp) (px_assign this hp)

/-- Reading twice through the same clear colour is reading once. -/
theorem get_get (image : BiImage) (a b : Int) :
    (if image.clearColor.eq (image.get a b) then Pixel.init else image.get a b) = image.get a b := by
  unfold get
  split <;> simp_all

section Size

variable (this : BiImage) (width height : Int) (hw : width.natAbs < 2 ^ 31) (hh : height.natAbs < 2 ^ 31)

theorem sameFrame_size :
    SameFrame (this.size width height hw hh) ((create width.natAbs height.natAbs hw hh).setClear this.clearColor) := by
  obtain ⟨hfr, -⟩ := forEach_put (fun i j => this.get
    (Binary64.cInt (Float.Model.ofInt i * (Float.Model.ofInt this.width / Float.Model.ofInt width)))
    (Binary64.cInt (Float.Model.ofInt j * (Float.Model.ofInt this.height / Float.Model.ofInt height))))
    (create width.natAbs height.natAbs hw hh)
  exact (sameFrame_assign _ _).trans ⟨hfr.width, hfr.height, rfl⟩

/-- `Size` reads the pixel at the scaled coordinates. -/
theorem get_size (hx : x < width.natAbs) (hy : y < height.natAbs) :
    (this.size width height hw hh).get x y = this.get
      (Binary64.cInt (Float.Model.ofInt x * (Float.Model.ofInt this.width / Float.Model.ofInt width)))
      (Binary64.cInt (Float.Model.ofInt y * (Float.Model.ofInt this.height / Float.Model.ofInt height))) := by
  obtain ⟨hfr, hpx⟩ := forEach_put (fun i j => this.get
    (Binary64.cInt (Float.Model.ofInt i * (Float.Model.ofInt this.width / Float.Model.ofInt width)))
    (Binary64.cInt (Float.Model.ofInt j * (Float.Model.ofInt this.height / Float.Model.ofInt height))))
    (create width.natAbs height.natAbs hw hh)
  simp only [size]
  generalize forEach _ _ _ _ = sampled at hfr hpx ⊢
  have hin : (create width.natAbs height.natAbs hw hh).Inside (x, y) := ⟨hx, hy⟩
  have hin' : (sampled.setClear this.clearColor).Inside (x, y) := hfr.inside.2 hin
  refine (get_assign this hin').trans ((get_inside hin').trans ?_)
  rw [show px (setClear sampled this.clearColor) (x, y) = sampled.px (x, y) from rfl, hpx (x, y) hin]
  exact get_get this _ _

end Size

/-- The row that the flip puts into row `y`. -/
def flipRow (height y : Nat) : Nat := (height - y) % height

theorem flipRow_lt {h y : Nat} (hy : y < h) : flipRow h y < h := Nat.mod_lt _ (by omega)

theorem flipRow_zero (h : Nat) : flipRow h 0 = 0 := by simp [flipRow]

theorem flipRow_pos {h y : Nat} (h0 : 0 < y) (hy : y < h) : flipRow h y = h - y := Nat.mod_eq_of_lt (by omega)

theorem flipRow_flipRow {h y : Nat} (hy : y < h) : flipRow h (flipRow h y) = y := by
  rcases Nat.eq_zero_or_pos y with rfl | h0
  · rw [flipRow_zero, flipRow_zero]
  · rw [flipRow_pos h0 hy, flipRow_pos (by omega) (by omega)]
    omega

/-- A negative row of less than one height wraps around once. -/
theorem get_neg (hp : image.Inside (x, y)) : image.get x (-y) = image.get x (flipRow image.height y) := by
  have hx : x < image.width := hp.1
  have hy : y < image.height := hp.2
  have haddr : image.address x (-y) = image.address x (flipRow image.height y) := by
    rw [address_inside (y := flipRow image.height y) ⟨hx, flipRow_lt hy⟩]
    rcases Nat.eq_zero_or_pos y with rfl | h0
    · rw [flipRow_zero]
      exact address_inside (y := 0) (show image.Inside (x, 0) from ⟨hx, hy⟩)
    · rw [flipRow_pos h0 hy]
      simp only [address]
      rw [if_neg (by omega), if_pos (by omega), Int.tmod_eq_of_lt (by omega) (by omega),
        Int.tmod_eq_of_lt (by omega) (by omega)]
      push_cast [Nat.cast_sub hy.le]
      ring
  simp only [get, haddr]

@[simp] theorem width_flip (image : BiImage) : image.flip.width = image.width :=
  (sameFrame_size image _ _ _ _).width

@[simp] theorem height_flip (image : BiImage) : image.flip.height = image.height := by
  refine (sameFrame_size image _ _ _ _).height.trans ?_
  show (-(image.height : Int)).natAbs = image.height
  omega

@[simp] theorem clearColor_flip (image : BiImage) : image.flip.clearColor = image.clearColor :=
  (sameFrame_size image _ _ _ _).clear

theorem sameFrame_flip (image : BiImage) : SameFrame image.flip image :=
  ⟨width_flip image, height_flip image, clearColor_flip image⟩

/-- **What `Height(-Height())` does**: row 0 stays and the others are reversed. -/
theorem get_flip (hp : image.Inside (x, y)) : image.flip.get x y = image.get x (flipRow image.height y) := by
  have hx : x < image.width := hp.1
  have hy : y < image.height := hp.2
  rw [flip, setHeight, get_size image _ _ _ _ hx (by omega), Binary64.div_self (by omega) image.width_lt,
    Binary64.div_neg_self (by omega) image.height_lt, Binary64.cInt_mul_one (hx.trans image.width_lt),
    Binary64.cInt_mul_neg_one (hy.trans image.height_lt), get_neg hp]

/-- Flipping twice shows the same picture. -/
theorem get_flip_flip (hp : image.Inside (x, y)) : image.flip.flip.get x y = image.get x y := by
  have hy : y < image.height := hp.2
  have hp' := (sameFrame_flip image).inside.2 hp
  rw [get_flip hp', height_flip, get_flip (y := flipRow image.height y) ⟨hp.1, flipRow_lt hy⟩, flipRow_flipRow hy]

end BiImage

end LeftFelt
