import LeftFelt.Image.Buffer

/-!
# The images of a program

Several objects of the class `biImage` take steps: `Create`, `operator=`, `Size`, `Width`, `Height`, `Delete`, `Clear`,
`Put` and `Load`. As long as the number of pixels that a step asks for is an `int`, every object is an image
(`wellFormed_result`), and so no buffer is too short for it. An image of more pixels gets a buffer that is too short, or
none at all (`fits_of_result`). Both are in `reached_law`.
-/

namespace LeftFelt

open Lib BiImage

namespace RawImage

/-! ## The objects of a program -/

/-- A step. `Load` throws if there is no file, and leaves the object as it is. -/
inductive Op (ι : Type*) where
  | create (a : ι) (width height : Int)
  | assign (a b : ι)
  | size (a : ι) (width height : Int)
  | setWidth (a : ι) (width : Int)
  | setHeight (a : ι) (height : Int)
  | delete (a : ι)
  | setClear (a : ι) (color : Pixel)
  | put (a : ι) (x y : Int) (pixel : Pixel)
  | load (a : ι) (file : Option (List UInt8)) (old : Header) (r g b : UInt8)

namespace Op

variable {ι : Type*}

/-- The object that the method is called on. -/
def target : Op ι → ι
  | create a _ _ => a
  | assign a _ => a
  | size a _ _ => a
  | setWidth a _ => a
  | setHeight a _ => a
  | delete a => a
  | setClear a _ => a
  | put a _ _ _ => a
  | load a _ _ _ _ _ => a

/-- The object afterwards. -/
def result (objects : ι → RawImage) : Op ι → Option RawImage
  | create _ width height => RawImage.create width height
  | assign a b => (objects a).assign (objects b)
  | size a width height => (objects a).size width height
  | setWidth a width => (objects a).setWidth width
  | setHeight a height => (objects a).setHeight height
  | delete a => some (objects a).delete
  | setClear a color => some ((objects a).setClear color)
  | put a x y pixel => (objects a).put x y pixel
  | load a none _ _ _ _ => some (objects a)
  | load _ (some file) old r g b => loadFile file old r g b

/-- The dimensions that are asked for. -/
def request (objects : ι → RawImage) : Op ι → Option (Int × Int)
  | create _ width height => some (width, height)
  | size _ width height => some (width, height)
  | setWidth a width => some (width, (objects a).height)
  | setHeight a height => some ((objects a).width, height)
  | load _ (some file) old _ _ _ => some ((readHeader file old).width, (readHeader file old).height)
  | _ => none

/-- The object that pixels are taken from. -/
def source : Op ι → Option ι
  | assign _ b => some b
  | size a _ _ => some a
  | setWidth a _ => some a
  | setHeight a _ => some a
  | _ => none

end Op

variable {ι : Type*} [DecidableEq ι]

def step (objects : ι → RawImage) (op : Op ι) : Option (ι → RawImage) :=
  (op.result objects).map (Function.update objects op.target)

/-! ## The law -/

/-- The length of the buffer. -/
def length (o : RawImage) : Nat := (o.mimage.getD []).length

/-- **The invariant**: the buffer has a pixel for every place. -/
def Sound (o : RawImage) : Prop := o.width * o.height ≤ o.length

/-- The coordinate lies in the image. -/
def Inside (o : RawImage) (x y : Int) : Prop := (0 ≤ x ∧ x < o.width) ∧ 0 ≤ y ∧ y < o.height

/-- Equal dimensions, clear colour and pixels. -/
structure Same (a b : RawImage) : Prop where
  width : a.width = b.width
  height : a.height = b.height
  clear : a.clearColor = b.clearColor
  pixels : ∀ x y, b.Inside x y → ∃ pixel, a.load (x + y * a.width) = some pixel ∧ b.load (x + y * b.width) = some pixel

/-- What the program promises: positive dimensions, pixels where they are taken from, and no `Put` outside. -/
structure Allowed (objects : ι → RawImage) (op : Op ι) : Prop where
  positive : ∀ d ∈ op.request objects, 0 < d.1 ∧ 0 < d.2
  holds : ∀ a ∈ op.source, (objects a).mimage ≠ none
  inside : ∀ a x y pixel, op = .put a x y pixel → (objects a).Inside x y

/-- The number of pixels that is asked for is an `int`. -/
def Fits (objects : ι → RawImage) (op : Op ι) : Prop := ∀ d ∈ op.request objects, d.1 * d.2 < 2 ^ 31

/-- What can be reached from objects without pixels, by steps that ask for no more pixels than an `int` can count. -/
inductive Reached : (ι → RawImage) → Prop
  | start : Reached fun _ => init
  | step {objects objects' : ι → RawImage} (op : Op ι) : Reached objects → Allowed objects op → Fits objects op →
    step objects op = some objects' → Reached objects'

/-- No buffer is too short, `Get` and `Put` inside an image stay in it, and `a = b` makes `a` the same as `b`. -/
structure Law (objects : ι → RawImage) : Prop where
  sound : ∀ a, (objects a).Sound
  get : ∀ a x y, (objects a).Inside x y → ((objects a).get x y).isSome
  put : ∀ a x y pixel, (objects a).Inside x y → ((objects a).put x y pixel).isSome
  assign : ∀ a b, (objects b).mimage ≠ none →
    ∃ objects', step objects (.assign a b) = some objects' ∧ Same (objects' a) (objects b)

variable {image : BiImage} {pixel : Pixel}

/-! ## Steps that fit -/

section Fits

variable {o : RawImage} {width height : Int} {objects objects' : ι → RawImage} {op : Op ι} {a b : ι}

theorem wellFormed_init : WellFormed init :=
  ⟨BiImage.create 0 0 (Nat.two_pow_pos 31) (Nat.two_pow_pos 31), rfl, Nat.two_pow_pos 31, fun h => absurd rfl h⟩

theorem WellFormed.setClear (h : WellFormed o) (color : Pixel) : WellFormed (o.setClear color) := by
  obtain ⟨image, rfl, hfull⟩ := h
  exact ⟨image.setClear color, rfl, hfull.setClear color⟩

/-- The dimensions that are asked for, as natural numbers. -/
theorem dimensions (hpos : 0 < width ∧ 0 < height) (hfits : width * height < 2 ^ 31) :
    ∃ m n : Nat, width = m ∧ height = n ∧ (0 < m ∧ 0 < n) ∧ m * n < 2 ^ 31 := by
  obtain ⟨m, rfl⟩ := Int.eq_ofNat_of_zero_le hpos.1.le
  obtain ⟨n, rfl⟩ := Int.eq_ofNat_of_zero_le hpos.2.le
  exact ⟨m, n, rfl, rfl, by omega, by exact_mod_cast hfits⟩

theorem create_image (hpos : 0 < width ∧ 0 < height) (hfits : width * height < 2 ^ 31) :
    ∃ image, create width height = some (lift image) ∧ Full image ∧ image.mimage ≠ [] := by
  obtain ⟨m, n, rfl, rfl, hmn, hlt⟩ := dimensions hpos hfits
  exact ⟨_, create_lift ((Nat.le_mul_of_pos_right m hmn.2).trans_lt hlt) ((Nat.le_mul_of_pos_left n hmn.1).trans_lt hlt)
    hmn hlt⟩

theorem ne_nil_of_lift (h : (lift image).mimage ≠ none) : image.mimage ≠ [] := fun hnil => h (by simp [lift, hnil])

/-- An image in which there is a coordinate has pixels. -/
theorem ne_nil_of_inside {x y : Int} (hin : (lift image).Inside x y) : image.mimage ≠ [] := by
  obtain ⟨⟨hx, hxw⟩, hy, hyh⟩ := hin
  simp only [lift] at hxw hyh
  have hpos : 0 < image.width * image.height := Nat.mul_pos (by omega) (by omega)
  exact List.ne_nil_of_length_pos (hpos.trans_le image.alloc)

theorem put_inside {x y : Int} (hfull : Full image) (hin : (lift image).Inside x y) (pixel : Pixel) :
    (lift image).put x y pixel = some (lift (image.put x y pixel)) ∧ SameBuffer (image.put x y pixel) image := by
  have hput := put_lift hfull (ne_nil_of_inside hin) (x := x) (y := y) (by have := hin.1.1; omega)
    (by have := hin.2.1; omega) pixel
  exact ⟨hput, (SameBuffer.refl image).write _ _⟩

theorem WellFormed.size (h : WellFormed o) (hne : o.mimage ≠ none) (hpos : 0 < width ∧ 0 < height)
    (hfits : width * height < 2 ^ 31) : ∃ o', o.size width height = some o' ∧ WellFormed o' := by
  obtain ⟨image, rfl, hfull⟩ := h
  obtain ⟨m, n, rfl, rfl, hmn, hlt⟩ := dimensions hpos hfits
  obtain ⟨image', hsize, hfull'⟩ := size_pos hfull (ne_nil_of_lift hne) hmn hlt
  exact ⟨_, hsize, image', rfl, hfull'⟩

/-- The rows, and the flip. -/
theorem readRows_wellFormed (hfull : Full image) (hne : image.mimage ≠ []) (bitCount : Nat) (fp : List UInt8)
    (r g b : UInt8) :
    ∃ s, readRows bitCount (lift image).width (lift image).height ⟨fp, r, g, b, lift image⟩ = some s ∧
      ∃ o, s.image.setHeight (-s.image.height) = some o ∧ WellFormed o := by
  obtain ⟨hrows, hsame⟩ := readRows_lift (s := ⟨fp, r, g, b, image⟩) (SameBuffer.refl image) hfull hne bitCount
    image.width image.height
  obtain ⟨hflip, hfull'⟩ := flip_lift (hsame.full hfull hne) (hsame.ne_nil hne)
  exact ⟨_, hrows, _, hflip, _, rfl, hfull'⟩

theorem loadFile_wellFormed {file : List UInt8} {old : Header} (r g b : UInt8)
    (hpos : 0 < (readHeader file old).width ∧ 0 < (readHeader file old).height)
    (hfits : (readHeader file old).width * (readHeader file old).height < 2 ^ 31) :
    ∃ o, loadFile file old r g b = some o ∧ WellFormed o := by
  obtain ⟨image, hcreate, hfull, hne⟩ := create_image hpos hfits
  simp only [loadFile, hcreate, Option.bind_eq_bind, Option.bind_some]
  generalize (if (readHeader file old).dataOfset < 2 ^ 31 then _ else _) = fp
  obtain ⟨s, hrows, hflip⟩ := readRows_wellFormed hfull hne (readHeader file old).bitCount fp r g b
  rw [hrows, Option.bind_some]
  exact hflip

omit [DecidableEq ι] in
/-- **A step that fits has a result**, and it is an image. -/
theorem wellFormed_result (hall : ∀ a, WellFormed (objects a)) (hallowed : Allowed objects op)
    (hfits : Fits objects op) : ∃ o, op.result objects = some o ∧ WellFormed o := by
  cases op with
  | create a width height =>
    obtain ⟨image, hcreate, hfull, -⟩ := create_image (hallowed.positive _ rfl) (hfits _ rfl)
    exact ⟨_, hcreate, image, rfl, hfull⟩
  | assign a b =>
    have hne := hallowed.holds b rfl
    obtain ⟨this, hthis, htfull⟩ := hall a
    obtain ⟨image, himage, hfull⟩ := hall b
    rw [himage] at hne
    obtain ⟨hassign, hafull⟩ := assign_lift htfull hfull (ne_nil_of_lift hne)
    exact ⟨_, by rw [Op.result, hthis, himage]; exact hassign, _, rfl, hafull⟩
  | size a width height =>
    exact (hall a).size (hallowed.holds a rfl) (hallowed.positive _ rfl) (hfits _ rfl)
  | setWidth a width =>
    exact (hall a).size (hallowed.holds a rfl) (hallowed.positive _ rfl) (hfits _ rfl)
  | setHeight a height =>
    exact (hall a).size (hallowed.holds a rfl) (hallowed.positive _ rfl) (hfits _ rfl)
  | delete a => exact ⟨_, rfl, wellFormed_init⟩
  | setClear a color => exact ⟨_, rfl, (hall a).setClear color⟩
  | put a x y pixel =>
    have hin := hallowed.inside a x y pixel rfl
    obtain ⟨image, himage, hfull⟩ := hall a
    rw [himage] at hin
    obtain ⟨hput, hsame⟩ := put_inside hfull hin pixel
    exact ⟨_, by rw [Op.result, himage]; exact hput, _, rfl, hsame.full hfull (ne_nil_of_inside hin)⟩
  | load a file old r g b =>
    cases file with
    | none => exact ⟨_, rfl, hall a⟩
    | some file => exact loadFile_wellFormed r g b (hallowed.positive _ rfl) (hfits _ rfl)

/-! ## The law of the images -/

/-- `Get` and `Put` at a coordinate of the image. -/
theorem get_isSome (h : WellFormed o) {x y : Int} (hin : o.Inside x y) : (o.get x y).isSome := by
  obtain ⟨image, rfl, hfull⟩ := h
  have hget := get_lift hfull (ne_nil_of_inside hin) (x := x) (y := y) (by have := hin.1.1; omega)
    (by have := hin.2.1; omega)
  rw [hget]
  rfl

theorem put_isSome (h : WellFormed o) {x y : Int} (hin : o.Inside x y) (pixel : Pixel) : (o.put x y pixel).isSome := by
  obtain ⟨image, rfl, hfull⟩ := h
  rw [(put_inside hfull hin pixel).1]
  rfl

theorem sound_lift (image : BiImage) : (lift image).Sound := by
  have hlength : (lift image).length = image.mimage.length := by
    by_cases hnil : image.mimage = []
    · simp [length, lift, hnil]
    · simp [length, lift, hnil]
  have halloc := image.alloc
  rw [Sound, hlength]
  simp only [lift]
  exact_mod_cast halloc

/-- The pixel at a coordinate of an image. -/
theorem load_px {x y : Nat} (hin : image.Inside (x, y)) :
    (lift image).load (x + y * (lift image).width) = some (image.px (x, y)) := by
  have hlt := (index_lt (p := (x, y)) hin.1 hin.2).trans_le image.alloc
  have hload := load_lift hlt
  rw [read_index (x, y)] at hload
  rw [← hload]
  push_cast
  rfl

/-- `a = b` makes them the same. -/
theorem same_assign (this image : BiImage) : Same (lift (this.assign image)) (lift image) := by
  obtain ⟨hframe, hpx⟩ := assign_spec this image
  refine ⟨congrArg Nat.cast hframe.width, congrArg Nat.cast hframe.height, hframe.clear, fun x y hin => ?_⟩
  obtain ⟨⟨hx, hxw⟩, hy, hyh⟩ := hin
  obtain ⟨x, rfl⟩ := Int.eq_ofNat_of_zero_le hx
  obtain ⟨y, rfl⟩ := Int.eq_ofNat_of_zero_le hy
  have hin : image.Inside (x, y) := ⟨Int.ofNat_lt.1 hxw, Int.ofNat_lt.1 hyh⟩
  exact ⟨image.px (x, y), by rw [load_px (hframe.inside.2 hin), hpx _ hin], load_px hin⟩

theorem law_of_wellFormed (hall : ∀ a, WellFormed (objects a)) : Law objects where
  sound a := by
    obtain ⟨image, himage, -⟩ := hall a
    rw [himage]
    exact sound_lift image
  get a x y hin := get_isSome (hall a) hin
  put a x y pixel hin := put_isSome (hall a) hin pixel
  assign a b hne := by
    obtain ⟨this, hthis, htfull⟩ := hall a
    obtain ⟨image, himage, hfull⟩ := hall b
    rw [himage] at hne ⊢
    have hassign := (assign_lift htfull hfull (ne_nil_of_lift hne)).1
    refine ⟨Function.update objects a (lift (this.assign image)), ?_, ?_⟩
    · rw [step, Op.result, hthis, himage, hassign]
      rfl
    · rw [Function.update_self]
      exact same_assign this image

/-- **The run**: all objects stay images. -/
theorem Reached.wellFormed (h : Reached objects) : ∀ a, WellFormed (objects a) := by
  induction h with
  | start => exact fun _ => wellFormed_init
  | step op _ hallowed hfits hstep ih =>
    obtain ⟨o, hresult, ho⟩ := wellFormed_result ih hallowed hfits
    rw [RawImage.step, hresult] at hstep
    obtain rfl := Option.some.inj hstep
    intro a
    by_cases ha : a = op.target
    · rw [ha, Function.update_self]
      exact ho
    · rw [Function.update_of_ne ha]
      exact ih a

/-! ## Steps that do not fit -/

/-- The dimensions, and the length of the buffer. -/
structure Shape (n : Nat) (width height : Int) (o : RawImage) : Prop where
  length : o.mimage.map List.length = some n
  width : o.width = width
  height : o.height = height

variable {n : Nat} {o' : RawImage}

theorem Shape.store (h : Shape n width height o) {k : Int} (hstore : o.store k pixel = some o') :
    Shape n width height o' ∧ 0 ≤ k ∧ k < n := by
  obtain ⟨buffer, hbuffer, rfl⟩ := Option.map_eq_some_iff.1 h.length
  simp only [RawImage.store, hbuffer, Checked.store, Option.bind_eq_bind, Option.bind_some] at hstore
  split_ifs at hstore with hneg hlt
  · cases hstore
  · obtain rfl := Option.some.inj hstore
    exact ⟨⟨by simp, h.width, h.height⟩, by omega, by omega⟩
  · cases hstore

theorem Shape.put (h : Shape n width height o) {x y : Int} (hput : o.put x y pixel = some o') :
    Shape n width height o' := by
  rw [RawImage.put, Option.bind_eq_bind, Option.bind_eq_some_iff] at hput
  obtain ⟨k, -, hstore⟩ := hput
  exact (h.store hstore).1

/-- A new buffer, which is never longer than an `int` can say. -/
theorem shape_create (hcreate : create width height = some o) : ∃ n < 2 ^ 31, Shape n width height o := by
  rw [create, newPixels] at hcreate
  split_ifs at hcreate with hneg
  · cases hcreate
  · obtain rfl := Option.some.inj hcreate
    have hlt := (CInt.fits_wrap (width * height)).2
    refine ⟨(mul width height).toNat, ?_, by simp, rfl, rfl⟩
    rw [mul] at hneg ⊢
    omega

/-- A `Put` that has a result has stayed in the buffer. -/
theorem Shape.put_lt {w h x y : Nat} (hshape : Shape n w h o) (hx : x < w) (hy : y < h) (hfits : y * w < 2 ^ 31)
    (hput : o.put x y pixel = some o') : x + y * w < n := by
  have hzero : ¬(o.width = 0 ∨ o.height = 0) := by
    rw [hshape.width, hshape.height]
    omega
  have hwrap : ∀ {z m : Nat}, z < m → (if (z : Int) < 0 then (m : Int) + z else z).tmod m = z := fun hz => by
    rw [if_neg (by omega), Int.tmod_eq_of_lt (by omega) (by omega)]
  have haddress : o.address x y = some ((x + y * w : Nat) : Int) := by
    rw [address, if_neg hzero]
    simp only [hshape.width, hshape.height, hwrap hx, hwrap hy, mul_eq hfits]
    push_cast
    rfl
  rw [RawImage.put, haddress, Option.bind_eq_bind, Option.bind_some] at hput
  exact_mod_cast (hshape.store hput).2.2

/-- **A loop that puts a pixel to every place of an image** comes to an end only if the buffer has all places. -/
theorem fits_of_puts {w h : Nat} (hn : n < 2 ^ 31)
    (hputs : ∀ x < w, ∀ y < h, ∃ o pixel o', Shape n w h o ∧ o.put x y pixel = some o') : w * h < 2 ^ 31 := by
  by_contra hlarge
  have hshort : n < w * h := by omega
  have hw : 0 < w := Nat.pos_of_mul_pos_right (Nat.zero_lt_of_lt hshort)
  have hx := Nat.mod_lt n hw
  have hy : n / w < h := Nat.div_lt_of_lt_mul hshort
  have hplace : n % w + n / w * w = n := by
    rw [Nat.mul_comm, Nat.mod_add_div]
  -- the first place that the buffer does not have
  obtain ⟨o, pixel, o', hshape, hput⟩ := hputs _ hx _ hy
  have hlt := hshape.put_lt hx hy (by omega) hput
  omega

theorem fits_of_size {this : RawImage} (hpos : 0 < width ∧ 0 < height) (hsize : this.size width height = some o) :
    width * height < 2 ^ 31 := by
  obtain ⟨w, rfl⟩ := Int.eq_ofNat_of_zero_le hpos.1.le
  obtain ⟨h, rfl⟩ := Int.eq_ofNat_of_zero_le hpos.2.le
  simp only [size, Int.natAbs_natCast, Option.bind_eq_bind, Option.bind_eq_some_iff] at hsize
  obtain ⟨image, hcreate, image', hloop, -⟩ := hsize
  obtain ⟨n, hn, hshape⟩ := shape_create hcreate
  rw [forEach, Checked.forLoop_forLoop, hshape.width, hshape.height, Int.toNat_natCast, Int.toNat_natCast] at hloop
  obtain ⟨-, hall⟩ := Checked.step_of_foldlM (Shape n w h) hshape (fun p s t hs hst => by
    simp only [Option.bind_eq_some_iff] at hst
    obtain ⟨pixel, -, hput⟩ := hst
    exact hs.put hput) hloop
  have hlt : w * h < 2 ^ 31 := fits_of_puts hn fun x hx y hy => by
    obtain ⟨s, t, hs, hst⟩ := hall (x, y) (by simp [hx, hy])
    simp only [Option.bind_eq_some_iff] at hst
    obtain ⟨pixel, -, hput⟩ := hst
    exact ⟨s, pixel, t, hs, hput⟩
  exact_mod_cast hlt

/-- Reading a pixel puts it. -/
theorem readPixel_put {bitCount j i : Nat} {s s' : Reader} (hread : readPixel bitCount j i s = some s') :
    ∃ pixel, s.image.put i j pixel = some s'.image := by
  rw [readPixel] at hread
  split_ifs at hread with h8 h32
  -- with 8, 32 and 24 bits
  all_goals
    simp only [Option.bind_eq_bind, Option.bind_eq_some_iff] at hread
    obtain ⟨image, hput, heq⟩ := hread
    obtain rfl := Option.some.inj heq
    exact ⟨_, hput⟩

theorem image_skipPadding (bitCount width : Nat) (s : Reader) : (skipPadding bitCount width s).image = s.image := by
  unfold skipPadding
  split
  · rw [forLoop]
    exact foldl_scan_all (fun t : Reader => t.image = s.image) rfl fun a t _ ht => ht
  · rfl

theorem fits_of_readRows {w h bitCount : Nat} {s s' : Reader} (hn : n < 2 ^ 31) (hshape : Shape n w h s.image)
    (hrows : readRows bitCount w h s = some s') : w * h < 2 ^ 31 := by
  have hrow : ∀ (j : Nat) (s t : Reader), Shape n w h s.image →
      (do
        let s ← Checked.forLoop 0 w (readPixel bitCount j) s
        return skipPadding bitCount w s) = some t →
      Shape n w h t.image ∧ ∀ i < w, ∃ o pixel o', Shape n w h o ∧ o.put i j pixel = some o' := by
    intro j s t hs hst
    simp only [Option.bind_eq_bind, Option.bind_eq_some_iff] at hst
    obtain ⟨u, hloop, hu⟩ := hst
    obtain rfl := Option.some.inj hu
    obtain ⟨hshape', hall⟩ := Checked.step_of_foldlM (fun s : Reader => Shape n w h s.image) hs (fun i s t hs hst => by
      obtain ⟨pixel, hput⟩ := readPixel_put hst
      exact hs.put hput) hloop
    refine ⟨by rwa [image_skipPadding], fun i hi => ?_⟩
    obtain ⟨s, t, hs, hst⟩ := hall i (by simp [hi])
    obtain ⟨pixel, hput⟩ := readPixel_put hst
    exact ⟨s.image, pixel, t.image, hs, hput⟩
  rw [readRows, Int.toNat_natCast, Int.toNat_natCast] at hrows
  obtain ⟨-, hall⟩ := Checked.step_of_foldlM (fun s : Reader => Shape n w h s.image) hshape
    (fun j s t hs hst => (hrow j s t hs hst).1) hrows
  refine fits_of_puts hn fun x hx y hy => ?_
  obtain ⟨s, t, hs, hst⟩ := hall y (by simp [hy])
  exact (hrow y s t hs hst).2 x hx

theorem fits_of_loadFile {file : List UInt8} {old : Header} {r g b : UInt8}
    (hpos : 0 < (readHeader file old).width ∧ 0 < (readHeader file old).height)
    (hload : loadFile file old r g b = some o) :
    (readHeader file old).width * (readHeader file old).height < 2 ^ 31 := by
  simp only [loadFile, Option.bind_eq_bind, Option.bind_eq_some_iff] at hload
  obtain ⟨image, hcreate, s, hrows, -⟩ := hload
  generalize readHeader file old = header at *
  obtain ⟨w, hw⟩ := Int.eq_ofNat_of_zero_le hpos.1.le
  obtain ⟨h, hh⟩ := Int.eq_ofNat_of_zero_le hpos.2.le
  obtain ⟨n, hn, hshape⟩ := shape_create hcreate
  rw [hshape.width, hshape.height, hw, hh] at hrows
  rw [hw, hh] at hshape ⊢
  exact_mod_cast fits_of_readRows hn hshape hrows

omit [DecidableEq ι] in
/-- **A step that leaves a sound object fits.** -/
theorem fits_of_result (hallowed : Allowed objects op) (hresult : op.result objects = some o) (hsound : o.Sound) :
    Fits objects op := by
  intro d hd
  have hpos := hallowed.positive d hd
  cases op with
  | create a width height =>
    obtain rfl := Option.some.inj hd
    obtain ⟨n, hn, hshape⟩ := shape_create hresult
    obtain ⟨buffer, hbuffer, hlength⟩ := Option.map_eq_some_iff.1 hshape.length
    rw [Sound, length, hbuffer, Option.getD_some, hshape.width, hshape.height] at hsound
    simp only
    omega
  | size a width height =>
    obtain rfl := Option.some.inj hd
    exact fits_of_size hpos hresult
  | setWidth a width =>
    obtain rfl := Option.some.inj hd
    exact fits_of_size hpos hresult
  | setHeight a height =>
    obtain rfl := Option.some.inj hd
    exact fits_of_size hpos hresult
  | load a file old r g b =>
    cases file with
    | none => cases hd
    | some file =>
      obtain rfl := Option.some.inj hd
      exact fits_of_loadFile hpos hresult
  | assign a b => cases hd
  | delete a => cases hd
  | setClear a color => cases hd
  | put a x y pixel => cases hd

/-- **The exact condition.** In every state that can be reached the law holds, and a step that is allowed keeps all
buffers long enough if and only if it asks for no more pixels than an `int` can count. -/
theorem reached_law (h : Reached objects) : Law objects ∧ ∀ op, Allowed objects op →
    ((∃ objects', RawImage.step objects op = some objects' ∧ ∀ a, (objects' a).Sound) ↔ Fits objects op) := by
  refine ⟨law_of_wellFormed h.wellFormed, fun op hallowed => ⟨?_, fun hfits => ?_⟩⟩
  · rintro ⟨objects', hstep, hsound⟩
    rw [RawImage.step, Option.map_eq_some_iff] at hstep
    obtain ⟨o, hresult, rfl⟩ := hstep
    have htarget := hsound op.target
    rw [Function.update_self] at htarget
    exact fits_of_result hallowed hresult htarget
  · obtain ⟨o, hresult, -⟩ := wellFormed_result h.wellFormed hallowed hfits
    have hstep : RawImage.step objects op = some (Function.update objects op.target o) := by
      rw [RawImage.step, hresult]
      rfl
    exact ⟨_, hstep, (law_of_wellFormed (h.step op hallowed hfits hstep).wellFormed).sound⟩

end Fits

/-! ## A small and a large image -/

/-- An image of two pixels, and an object without pixels. -/
def twoPixels : Bool → RawImage :=
  Function.update (fun _ => init) true ⟨some [Pixel.init, Pixel.init], Pixel.init, 2, 1⟩

omit [DecidableEq ι] in
theorem allowed_request {objects : ι → RawImage} {op : Op ι} {width height : Int}
    (hrequest : op.request objects = some (width, height)) (hpos : 0 < width ∧ 0 < height)
    (hholds : ∀ a ∈ op.source, (objects a).mimage ≠ none) : Allowed objects op where
  positive d hd := by
    rw [hrequest] at hd
    rwa [← Option.some.inj hd]
  holds := hholds
  inside := by
    rintro a x y pixel rfl
    cases hrequest

theorem reached_twoPixels : Reached twoPixels := by
  refine Reached.start.step (.create true 2 1) (allowed_request rfl (by simp) (by simp [Op.source])) ?_ rfl
  intro d hd
  obtain rfl := Option.some.inj hd
  simp

/-- It can be made larger. -/
theorem law_twoPixels : Law twoPixels ∧
    ∃ objects', RawImage.step twoPixels (.size true 300 200) = some objects' ∧ ∀ a, (objects' a).Sound := by
  have h := reached_law reached_twoPixels
  refine ⟨h.1, (h.2 _ (allowed_request rfl (by simp) ?_)).2 ?_⟩
  · simp [Op.source, twoPixels]
  · intro d hd
    obtain rfl := Option.some.inj hd
    simp

/-- `Create(65536, 65536)`: the number of pixels is 0 as an `int`, and the buffer is empty. -/
theorem not_sound_create : Allowed (fun _ : Bool => init) (.create true 65536 65536) ∧
    ∃ objects', RawImage.step (fun _ : Bool => init) (.create true 65536 65536) = some objects' ∧
      ¬ (objects' true).Sound := by
  refine ⟨allowed_request rfl (by simp) (by simp [Op.source]), _, rfl, ?_⟩
  have hzero : mul 65536 65536 = 0 := by decide
  simp [Sound, length, Op.target, hzero]

end RawImage

end LeftFelt
