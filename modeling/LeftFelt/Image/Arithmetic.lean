import LeftFelt.Image.Access

/-!
# Arithmetic on images

The operators `+=`, `-=`, `*=` and `/=` combine two images pixel by pixel. They compute the smaller width and the smaller
height, and use neither: the loops go over the whole of the first image, and at a coordinate beyond the second one the
index is that of a pixel in another row, or of none. So an image that is larger than the other one is changed as it
should be only if nothing of that can be seen (`combines_iff`).
-/

namespace LeftFelt.BiImage

open Lib

/-! ## The code -/

/-- The two images, and the indices at which they have been read. -/
structure Operands where
  this : BiImage
  image : BiImage
  reads : List (Nat × Nat)

/-- `*(mimage + k)`, in the buffer. -/
def load (image : BiImage) (k : Nat) : Option Pixel := Checked.load image.mimage k

/-- The loops of the operators, with the operator for the pixels. -/
def combine (op : Pixel → Pixel → Option Pixel) (this image : BiImage) : Option Operands :=
  Checked.forLoop 0 this.height (fun j => Checked.forLoop 0 this.width fun i s => do
    let k := i + j * s.this.width
    let k' := i + j * s.image.width
    let pixel ← op (← s.this.load k) (← s.image.load k')
    return { s with this := s.this.write k pixel, reads := s.reads ++ [(k, k')] }) ⟨this, image, []⟩

/-- `operator+=(image)`. -/
def addAssign (this image : BiImage) : Option Operands := combine (fun p q => some (p.add q)) this image

/-- `operator-=(image)`. -/
def subAssign (this image : BiImage) : Option Operands := combine (fun p q => some (p.sub q)) this image

/-- `operator*=(image)`. -/
def mulAssign (this image : BiImage) : Option Operands := combine (fun p q => some (p.mul q)) this image

/-- `operator/=(image)`. -/
def divAssign (this image : BiImage) : Option Operands := combine Pixel.div this image

/-- The operators. -/
inductive Op where
  | add
  | sub
  | mul
  | div
  deriving DecidableEq

namespace Op

/-- The operator for pixels. -/
def pixel : Op → Pixel → Pixel → Option Pixel
  | add, p, q => some (p.add q)
  | sub, p, q => some (p.sub q)
  | mul, p, q => some (p.mul q)
  | div, p, q => p.div q

/-- The operator for images. -/
def assign : Op → BiImage → BiImage → Option Operands
  | add => addAssign
  | sub => subAssign
  | mul => mulAssign
  | div => divAssign

/-- The operator for channels. -/
def exact : Op → Int → Int → Int
  | add => (· + ·)
  | sub => (· - ·)
  | mul => (· * ·)
  | div => Int.tdiv

theorem assign_eq (op : Op) : op.assign = combine op.pixel := by
  cases op <;> rfl

/-- Every channel has the saturated result. -/
theorem toNat_pixel {op : Op} {p q r : Pixel} (h : op.pixel p q = some r) {c : Pixel → UInt8}
    (hc : c ∈ Pixel.rgbChannels) : ((c r).toNat : Int) = max 0 (min (op.exact (c p).toNat (c q).toNat) 255) := by
  have hlimit : ∀ n : Int, Pixel.limit n 0 255 = max 0 (min n 255) := fun n => by
    unfold Pixel.limit
    split_ifs <;> omega
  rw [← hlimit]
  cases op with
  | add => exact Option.some.inj h ▸ Pixel.toNat_channels hc _ p q
  | sub => exact Option.some.inj h ▸ Pixel.toNat_channels hc _ p q
  | mul => exact Option.some.inj h ▸ Pixel.toNat_channels hc _ p q
  | div =>
    rw [pixel, Pixel.div] at h
    split_ifs at h
    exact Option.some.inj h ▸ Pixel.toNat_channels hc _ p q

/-- Without a zero there is a result. -/
theorem pixel_isSome {op : Op} {q : Pixel} (h : op = div → ∀ c ∈ Pixel.rgbChannels, c q ≠ 0) (p : Pixel) :
    ∃ r, op.pixel p q = some r := by
  cases op with
  | add => exact ⟨_, rfl⟩
  | sub => exact ⟨_, rfl⟩
  | mul => exact ⟨_, rfl⟩
  | div =>
    have hzero : ¬(q.red = 0 ∨ q.green = 0 ∨ q.blue = 0) := by
      simpa [Pixel.rgbChannels] using h rfl
    exact ⟨_, if_neg hzero⟩

end Op

/-! ## The law -/

variable {op : Op} {this image : BiImage} {p : Nat × Nat}

/-- **The images are combined where they overlap**: the pixels that are read are those of the two images, the second
image is as it was, and so are the pixels of the first one that lie outside of the second; inside, every channel has the
saturated result. -/
def Combines (op : Op) (this image : BiImage) : Prop :=
  ∃ s, op.assign this image = some s ∧
    (∀ r ∈ s.reads, r.1 < this.width * this.height ∧ r.2 < image.width * image.height) ∧ s.image = image ∧
    SameRest s.this this ∧ ∀ p, this.Inside p →
      if image.Inside p then
        ∀ c ∈ Pixel.rgbChannels, ((c (s.this.px p)).toNat : Int) =
          max 0 (min (op.exact (c (this.px p)).toNat (c (image.px p)).toNat) 255)
      else s.this.px p = this.px p

/-- Where the first image is beyond the second one, the index is that of another pixel, which changes nothing. -/
def Unaffected (op : Op) (this image : BiImage) (p : Nat × Nat) : Prop :=
  p.1 + p.2 * image.width < image.width * image.height ∧
    op.pixel (this.px p) (image.read (p.1 + p.2 * image.width : Nat)) = some (this.px p)

/-! ## The loop -/

/-- What becomes of the pixel at `p`. -/
def entry (op : Op) (image : BiImage) (pixel : Pixel) (p : Nat × Nat) : Option Pixel :=
  (image.load (p.1 + p.2 * image.width)).bind (op.pixel pixel)

/-- The new pixel is written, and the reads are noted. -/
def Operands.put (s : Operands) (p : Nat × Nat) (pixel : Pixel) : Operands :=
  { s with
    this := s.this.write ((p.1 + p.2 * s.this.width : Nat) : Int) pixel
    reads := s.reads ++ [(p.1 + p.2 * s.this.width, p.1 + p.2 * s.image.width)] }

/-- The images are as they were, but for pixels of the first one. -/
structure Good (this image : BiImage) (s : Operands) : Prop where
  rest : SameRest s.this this
  image : s.image = image

theorem load_px (hp : image.Inside p) : image.load (p.1 + p.2 * image.width) = some (image.px p) :=
  Checked.load_eq ((index_lt hp.1 hp.2).trans_le image.alloc) Pixel.init

theorem load_read {k : Nat} (hk : k < image.width * image.height) : image.load k = some (image.read k) := by
  rw [load, Checked.load_eq (hk.trans_le image.alloc) Pixel.init, read, if_neg (by omega), Int.toNat_natCast]

theorem operands (this image : BiImage) :
    InPlace.Table (Good this image) this.Inside (fun s p => s.this.px p) Operands.put where
  good s p pixel hs hp := by
    have hp' := hs.rest.inside.2 hp
    refine ⟨?_, hs.image⟩
    rw [Operands.put, ← put_inside hp']
    exact (sameRest_put hp' pixel).trans hs.rest
  read s p q pixel hs hp hq := px_write (hs.rest.inside.2 hp) (hs.rest.inside.2 hq) pixel

theorem assign_eq_foldlM (op : Op) (this image : BiImage) :
    op.assign this image = (grid this).foldlM (fun s p =>
      ((s.this.load (p.1 + p.2 * s.this.width)).bind fun pixel => entry op s.image pixel p).map (s.put p))
      ⟨this, image, []⟩ := by
  rw [Op.assign_eq, combine, Checked.forLoop_forLoop, grid]
  congr 1
  funext s p
  simp only [entry, Option.bind_eq_bind, Option.pure_def, Option.map_eq_bind, Option.bind_assoc]
  rfl

/-- What the loop computes for a pixel, whatever it has done to others. -/
theorem entry_eq {s : Operands} (hs : Good this image s) (hp : this.Inside p) :
    ((s.this.load (p.1 + p.2 * s.this.width)).bind fun pixel => entry op s.image pixel p) =
      entry op image (s.this.px p) p := by
  rw [load_px (hs.rest.inside.2 hp), Option.bind_some, hs.image]

/-- The indices of all pixels are read. -/
theorem reads_of_run {l : List (Nat × Nat)} {s t : Operands} {f : Operands → Nat × Nat → Option Pixel}
    (hs : Good this image s) (hl : ∀ p ∈ l, this.Inside p)
    (hrun : l.foldlM (fun s p => (f s p).map (s.put p)) s = some t) :
    t.reads = s.reads ++ l.map fun p => (p.1 + p.2 * this.width, p.1 + p.2 * image.width) := by
  induction l generalizing s with
  | nil =>
    obtain rfl := Option.some.inj hrun
    simp
  | cons p l ih =>
    rw [List.foldlM_cons, Option.bind_eq_bind, Option.bind_eq_some_iff] at hrun
    obtain ⟨u, hu, hrest⟩ := hrun
    obtain ⟨pixel, -, rfl⟩ := Option.map_eq_some_iff.1 hu
    have hp := hl p List.mem_cons_self
    rw [ih ((operands this image).good s p pixel hs hp) (fun q hq => hl q (List.mem_cons_of_mem _ hq)) hrest]
    simp only [Operands.put, hs.rest.width, hs.image, List.map_cons, List.append_assoc, List.singleton_append]

/-- The loop gives these pixels if each of them is computed from the old one. -/
theorem assign_iff {g : Nat × Nat → Pixel} :
    (∃ s, op.assign this image = some s ∧ ∀ p, this.Inside p → s.this.px p = g p) ↔
      ∀ p, this.Inside p → entry op image (this.px p) p = some (g p) := by
  have hiff := InPlace.foldlM_pointwise (F := entry op image) (g := g) (operands this image)
    (s := ⟨this, image, []⟩) ⟨SameRest.refl this, rfl⟩ (fun p hp => mem_grid.1 hp) (raster_nodup _ _ _ _)
    fun s p hs hp => entry_eq hs hp
  have hmem : ∀ p, p ∈ grid this ↔ this.Inside p := fun _ => mem_grid
  rw [assign_eq_foldlM]
  simpa only [hmem] using hiff

/-- What else there is to a run. -/
theorem good_of_assign {s : Operands} (hrun : op.assign this image = some s) : Good this image s ∧
    s.reads = (grid this).map fun p => (p.1 + p.2 * this.width, p.1 + p.2 * image.width) := by
  rw [assign_eq_foldlM] at hrun
  have hstart : Good this image ⟨this, image, []⟩ := ⟨SameRest.refl this, rfl⟩
  refine ⟨(InPlace.foldlM_frame (operands this image) hstart (fun p hp => mem_grid.1 hp) hrun).1, ?_⟩
  have hreads := reads_of_run hstart (fun p hp => mem_grid.1 hp) hrun
  rwa [List.nil_append] at hreads

/-! ## The result -/

/-- **When two images are combined where they overlap**: the pixels of the first one that lie outside of the second are
not affected by what is read for them. -/
theorem combines_iff (hzero : op = .div → ∀ p, image.Inside p → ∀ c ∈ Pixel.rgbChannels, c (image.px p) ≠ 0) :
    Combines op this image ↔ ∀ p, this.Inside p → ¬image.Inside p → Unaffected op this image p := by
  constructor
  · rintro ⟨s, hrun, hreads, -, -, hpx⟩ p hp hout
    obtain ⟨-, hall⟩ := good_of_assign hrun
    have hk : p.1 + p.2 * image.width < image.width * image.height :=
      (hreads _ (hall ▸ List.mem_map_of_mem (mem_grid.2 hp))).2
    have hentry := assign_iff.1 ⟨s, hrun, fun _ _ => rfl⟩ p hp
    have hsame := hpx p hp
    rw [if_neg hout] at hsame
    rw [entry, load_read hk, Option.bind_some, hsame] at hentry
    exact ⟨hk, hentry⟩
  · intro hall
    obtain ⟨s, hrun, hpx⟩ := assign_iff.2 (fun p hp => show
        entry op image (this.px p) p = some (if image.Inside p then (op.pixel (this.px p) (image.px p)).getD Pixel.init
          else this.px p) by
      by_cases hin : image.Inside p
      · obtain ⟨r, hr⟩ := Op.pixel_isSome (fun hop => hzero hop p hin) (this.px p)
        rw [entry, load_px hin, Option.bind_some, if_pos hin, hr, Option.getD_some]
      · obtain ⟨hk, hsame⟩ := hall p hp hin
        rw [entry, load_read hk, Option.bind_some, if_neg hin, hsame])
    obtain ⟨hgood, hreads⟩ := good_of_assign hrun
    refine ⟨s, hrun, fun r hr => ?_, hgood.image, hgood.rest, fun p hp => ?_⟩
    · rw [hreads, List.mem_map] at hr
      obtain ⟨p, hp, rfl⟩ := hr
      have hp := mem_grid.1 hp
      refine ⟨index_lt hp.1 hp.2, ?_⟩
      by_cases hin : image.Inside p
      · exact index_lt hin.1 hin.2
      · exact (hall p hp hin).1
    · by_cases hin : image.Inside p
      · obtain ⟨r, hr⟩ := Op.pixel_isSome (fun hop => hzero hop p hin) (this.px p)
        rw [if_pos hin, hpx p hp, if_pos hin, hr, Option.getD_some]
        exact fun c hc => Op.toNat_pixel hr hc
      · rw [if_neg hin, hpx p hp, if_neg hin]

/-- A row of two pixels, and a column of two. -/
def twoWide : BiImage := ofFn 2 1 two_fits one_fits fun _ _ => Pixel.gray 10

def twoHigh : BiImage := ofFn 1 2 one_fits two_fits fun _ _ => Pixel.gray 5

theorem combines_twoWide : Combines .div twoWide twoWide := by
  refine (combines_iff fun _ p hp => ?_).2 fun p hp hout => absurd hp hout
  obtain ⟨x, y⟩ := p
  have hall : ∀ x < 2, ∀ y < 1, (twoWide.px (x, y)).red ≠ 0 ∧ (twoWide.px (x, y)).green ≠ 0 ∧
      (twoWide.px (x, y)).blue ≠ 0 := by
    decide +kernel
  simpa [Pixel.rgbChannels] using hall x hp.1 y hp.2

/-- The second pixel of the row has something added to it, though the column is only one pixel wide. -/
theorem not_combines_twoHigh : ¬Combines .add twoWide twoHigh := by
  rintro ⟨s, hrun, -, -, -, hpx⟩
  have hsum : (twoWide.addAssign twoHigh).map (fun s => s.this.px (1, 0)) = some (Pixel.gray 15) := by
    decide +kernel
  have hrun' : twoWide.addAssign twoHigh = some s := hrun
  have hsame := hpx (1, 0) (by decide)
  rw [if_neg (by decide)] at hsame
  rw [hrun', Option.map_some, Option.some.injEq, hsame] at hsum
  exact absurd hsum (by decide +kernel)

end LeftFelt.BiImage
