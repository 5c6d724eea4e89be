import LeftFelt.Image.BiImage
import LeftFelt.Lib.InPlace

/-!
# Access to pixels

`Put` and `Get` accept any two `int`s. A negative coordinate is increased by the width or height once, and then `%` is
taken, whose sign is that of the dividend. So the pixel addressed is the one at the mathematical remainders, as long as
no coordinate lies farther than one width or height outside (`accesses_iff`).
-/

namespace LeftFelt.BiImage

open Lib

variable {image : BiImage} {n : Nat} {x y : Int}

/-- What `Put` and `Get` make of one coordinate. -/
def wrapped (n : Nat) (x : Int) : Int := (if x < 0 then n + x else x).tmod n

theorem address_eq (image : BiImage) (x y : Int) :
    image.address x y = wrapped image.width x + wrapped image.height y * image.width := rfl

/-- From farther outside the remainder is negative. -/
theorem wrapped_eq (hn : 0 < n) (x : Int) :
    wrapped n x = if -(n : Int) ≤ x ∨ (n : Int) ∣ x then x % n else x % n - n := by
  unfold wrapped
  by_cases hx : x < 0
  · have hsame : ((n : Int) + x) % n = x % n := by rw [Int.add_emod_left]
    have hdvd : (n : Int) ∣ n + x ↔ (n : Int) ∣ x := Int.dvd_add_right (dvd_refl _)
    rw [if_pos hx, Int.tmod_eq_emod, hsame]
    by_cases hnear : -(n : Int) ≤ x ∨ (n : Int) ∣ x
    · have hnear' : 0 ≤ (n : Int) + x ∨ (n : Int) ∣ n + x := hnear.imp (fun h => by omega) hdvd.2
      rw [if_pos hnear, if_pos hnear', Nat.cast_zero, sub_zero]
    · have hfar : ¬(0 ≤ (n : Int) + x ∨ (n : Int) ∣ n + x) := fun h => hnear (h.imp (fun h => by omega) hdvd.1)
      rw [if_neg hnear, if_neg hfar, Int.natAbs_natCast]
  · rw [if_neg hx, Int.tmod_eq_emod_of_nonneg (by omega), if_pos (.inl (by omega))]

theorem emod_bounds (hn : 0 < n) (x : Int) : 0 ≤ x % n ∧ x % n < n :=
  ⟨Int.emod_nonneg x (by omega), Int.emod_lt_of_pos x (by omega)⟩

/-- `Put` and `Get` address the pixel at the mathematical remainders, and stay in the buffer. -/
structure Accesses (image : BiImage) (x y : Int) : Prop where
  address : image.address x y = x % image.width + y % image.height * image.width
  nonneg : 0 ≤ image.address x y
  lt : image.address x y < image.width * image.height

theorem accesses_of_near (hw : 0 < image.width) (hh : 0 < image.height)
    (hx : -(image.width : Int) ≤ x ∨ (image.width : Int) ∣ x)
    (hy : -(image.height : Int) ≤ y ∨ (image.height : Int) ∣ y) :
    Accesses image x y := by
  obtain ⟨hx0, hxlt⟩ := emod_bounds hw x
  obtain ⟨hy0, hylt⟩ := emod_bounds hh y
  have haddress : image.address x y = x % image.width + y % image.height * image.width := by
    rw [address_eq, wrapped_eq hw, wrapped_eq hh, if_pos hx, if_pos hy]
  have hrow : (y % image.height + 1) * image.width ≤ image.height * image.width := by
    gcongr
    omega
  have hprod : 0 ≤ y % image.height * image.width := by positivity
  refine ⟨haddress, ?_, ?_⟩
  · rw [haddress]
    omega
  · rw [haddress, mul_comm (image.width : Int)]
    rw [add_mul, one_mul] at hrow
    omega

/-- **When an access is right**: no coordinate is farther than one width or height outside, but for a multiple of it. -/
theorem accesses_iff (hw : 1 ≤ image.width) (hh : 1 ≤ image.height) (x y : Int) :
    Accesses image x y ↔ (-(image.width : Int) ≤ x ∨ (image.width : Int) ∣ x) ∧
      (-(image.height : Int) ≤ y ∨ (image.height : Int) ∣ y) := by
  refine ⟨fun h => ?_, fun h => accesses_of_near hw hh h.1 h.2⟩
  have haddress := h.address
  have hw' : (1 : Int) ≤ image.width := by exact_mod_cast hw
  have hh' : (1 : Int) ≤ image.height := by exact_mod_cast hh
  rw [address_eq, wrapped_eq hw, wrapped_eq hh] at haddress
  have hcoord : ∀ {c : Prop} [Decidable c] {a b : Int}, 1 ≤ b → (if c then a else a - b) ≤ a := fun {c} _ a b hb => by
    split_ifs <;> omega
  -- what is missing in one coordinate is not made good by the other
  by_cases hy : -(image.height : Int) ≤ y ∨ (image.height : Int) ∣ y
  · refine ⟨?_, hy⟩
    by_contra hx
    rw [if_neg hx, if_pos hy] at haddress
    omega
  · rw [if_neg hy, sub_mul] at haddress
    have hx := hcoord (c := -(image.width : Int) ≤ x ∨ (image.width : Int) ∣ x) (a := x % image.width) hw'
    have hprod : 1 * 1 ≤ (image.height : Int) * image.width := by gcongr
    omega

/-- A coordinate far outside of one row of two pixels. -/
theorem accesses_row : Accesses (create 2 1 two_fits one_fits) 5 (-3) :=
  (accesses_iff (show 1 ≤ (create 2 1 two_fits one_fits).width by decide) (by decide) 5 (-3)).2 ⟨by decide, by decide⟩

/-- Three pixels to the left of it `Get` reads in front of the buffer. -/
theorem not_accesses_row : (create 2 1 two_fits one_fits).address (-3) 0 = -1 ∧
    ¬Accesses (create 2 1 two_fits one_fits) (-3) 0 := by
  have hfront : (create 2 1 two_fits one_fits).address (-3) 0 = -1 := by decide
  refine ⟨hfront, fun h => ?_⟩
  have hnonneg := h.nonneg
  rw [hfront] at hnonneg
  omega

/-! ## The pixel addressed -/

/-- The coordinate at the mathematical remainders. -/
def cell (image : BiImage) (x y : Int) : Nat × Nat := ((x % image.width).toNat, (y % image.height).toNat)

theorem inside_cell (hw : 0 < image.width) (hh : 0 < image.height) (x y : Int) : image.Inside (cell image x y) := by
  have hx := emod_bounds hw x
  have hy := emod_bounds hh y
  constructor
  · simp only [cell]
    omega
  · simp only [cell]
    omega

theorem Accesses.address_cell (h : Accesses image x y) (hw : 0 < image.width) (hh : 0 < image.height) :
    image.address x y = image.address (cell image x y).1 (cell image x y).2 := by
  have hx := emod_bounds hw x
  have hy := emod_bounds hh y
  have hcell := address_inside (x := (cell image x y).1) (y := (cell image x y).2) (inside_cell hw hh x y)
  rw [h.address, hcell, cell]
  push_cast
  rw [Int.toNat_of_nonneg hx.1, Int.toNat_of_nonneg hy.1]

/-- `Get` reads there. -/
theorem Accesses.get_eq (h : Accesses image x y) (hw : 0 < image.width) (hh : 0 < image.height) :
    image.get x y = image.get (cell image x y).1 (cell image x y).2 := by
  simp only [get, h.address_cell hw hh]

/-! ## Loops over the pixels -/

/-- What `Get` shows of a pixel. -/
def viewed (image : BiImage) (pixel : Pixel) : Pixel := if image.clearColor.eq pixel then Pixel.init else pixel

theorem get_eq_viewed {p : Nat × Nat} (hp : image.Inside p) : image.get p.1 p.2 = viewed image (image.px p) :=
  get_inside hp

theorem viewed_congr {t : BiImage} (h : SameFrame t image) : viewed t = viewed image := by
  funext pixel
  rw [viewed, viewed, h.clear]

/-- Two images that differ in no more than their pixels: what is left of the buffers behind them is the same. -/
structure SameRest (a b : BiImage) : Prop extends SameFrame a b where
  rest : a.mimage.drop (a.width * a.height) = b.mimage.drop (b.width * b.height)

theorem SameRest.refl (a : BiImage) : SameRest a a := ⟨SameFrame.refl a, rfl⟩

theorem SameRest.trans {a b c : BiImage} (h₁ : SameRest a b) (h₂ : SameRest b c) : SameRest a c :=
  ⟨h₁.toSameFrame.trans h₂.toSameFrame, h₁.rest.trans h₂.rest⟩

theorem SameRest.symm {a b : BiImage} (h : SameRest a b) : SameRest b a :=
  ⟨⟨h.width.symm, h.height.symm, h.clear.symm⟩, h.rest.symm⟩

/-- Their pixels are all that there is to them. -/
theorem SameRest.ext {a b : BiImage} (h : SameRest a b) (hpx : ∀ p, a.Inside p → a.px p = b.px p) : a = b := by
  obtain ⟨abuffer, aclear, w, height, hw, hh, ha⟩ := a
  obtain ⟨bbuffer, bclear, w', height', hw', hh', hb⟩ := b
  obtain ⟨⟨hwidth, hheight, hclear⟩, hrest⟩ := h
  simp only at hwidth hheight hclear hrest
  subst hwidth hheight hclear
  have htake : abuffer.take (w * height) = bbuffer.take (w * height) := by
    refine List.ext_getElem (by simp only [List.length_take]; omega) fun k hk hk' => ?_
    rw [List.length_take] at hk hk'
    have hpos : 0 < w := Nat.pos_of_ne_zero fun h0 => by simp [h0] at hk
    have hrow : k / w < height := Nat.div_lt_of_lt_mul (by omega)
    have hindex := hpx (k % w, k / w) ⟨Nat.mod_lt k hpos, hrow⟩
    have hk'' : k % w + k / w * w = k := by rw [mul_comm]; exact Nat.mod_add_div k w
    simp only [px, hk'', List.getD_eq_getElem?_getD] at hindex
    rw [List.getElem?_eq_getElem (by omega), List.getElem?_eq_getElem (by omega)] at hindex
    simpa using hindex
  have hbuffer : abuffer = bbuffer := by
    rw [← List.take_append_drop (w * height) abuffer, ← List.take_append_drop (w * height) bbuffer, htake, hrest]
  subst hbuffer
  rfl

theorem sameRest_put {p : Nat × Nat} (hp : image.Inside p) (pixel : Pixel) :
    SameRest (image.put p.1 p.2 pixel) image := by
  have hlt : p.1 + p.2 * image.width < image.width * image.height := index_lt hp.1 hp.2
  rw [put_inside hp]
  refine ⟨sameFrame_write _ _, ?_⟩
  simp only [write]
  rw [if_neg (by omega), Int.toNat_natCast, List.drop_set_of_lt hlt]

/-- The pixels of an image are a table that `Put` changes in place. -/
theorem table (image : BiImage) : InPlace.Table (fun t => SameRest t image) image.Inside px
    (fun t p pixel => t.put p.1 p.2 pixel) where
  good t p pixel ht hp := (sameRest_put (ht.inside.2 hp) pixel).trans ht
  read t p q pixel ht hp hq := by
    rw [put_inside (ht.inside.2 hp)]
    exact px_write (ht.inside.2 hp) (ht.inside.2 hq) pixel

variable {f : BiImage → Nat × Nat → Option Pixel} {g : Nat × Nat → Pixel}

/-- **A scan that puts a pixel at every coordinate** gives new pixels exactly where each of them comes out of a table in
which the pixels before it are new and the others old. -/
theorem foldlM_put_iff {F : (Nat × Nat → Pixel) → Nat × Nat → Option Pixel}
    (hf : ∀ t p, SameFrame t image → image.Inside p → f t p = F t.px p)
    (hF : ∀ a b p, image.Inside p → (∀ q, image.Inside q → a q = b q) → F a p = F b p) :
    (∃ out, (grid image).foldlM (fun t p => (f t p).map fun pixel => t.put p.1 p.2 pixel) image = some out ∧
      ∀ p, image.Inside p → out.px p = g p) ↔
      ∀ p, image.Inside p → F (fun q => if RasterLt q p then g q else image.px q) p = some (g p) := by
  have hiff := InPlace.foldlM_iff (F := F) (g := g) (table image) (SameRest.refl image)
    (fun p hp => mem_grid.1 hp) (raster_nodup _ _ _ _) (fun t p ht => hf t p ht.toSameFrame) hF
  have hmem : ∀ p, p ∈ grid image ↔ image.Inside p := fun _ => mem_grid
  simp only [← hmem]
  refine hiff.trans ?_
  -- what stands before a pixel in the list comes before it in the raster
  constructor
  · intro hall p hp
    obtain ⟨pre, post, hl⟩ := List.mem_iff_append.1 hp
    rw [← hall pre p post hl]
    exact hF _ _ p (mem_grid.1 hp) fun q hq => by simp only [InPlace.mem_pre_iff hl (mem_grid.2 hq)]
  · intro hall pre p post hl
    have hp : p ∈ grid image := by simp [hl]
    rw [← hall p hp]
    exact hF _ _ p (mem_grid.1 hp) fun q hq => by simp only [InPlace.mem_pre_iff hl (mem_grid.2 hq)]

/-- **A scan that looks at the pixel it replaces** and no other. -/
theorem foldlM_put_pointwise {F : Pixel → Nat × Nat → Option Pixel}
    (hf : ∀ t p, SameFrame t image → image.Inside p → f t p = F (t.px p) p) :
    (∃ out, (grid image).foldlM (fun t p => (f t p).map fun pixel => t.put p.1 p.2 pixel) image = some out ∧
      ∀ p, image.Inside p → out.px p = g p) ↔ ∀ p, image.Inside p → F (image.px p) p = some (g p) := by
  have hiff := InPlace.foldlM_pointwise (F := F) (g := g) (table image) (SameRest.refl image)
    (fun p hp => mem_grid.1 hp) (raster_nodup _ _ _ _) fun t p ht => hf t p ht.toSameFrame
  have hmem : ∀ p, p ∈ grid image ↔ image.Inside p := fun _ => mem_grid
  simpa only [hmem] using hiff

/-- Nothing but pixels changes. -/
theorem sameRest_foldlM_put {out : BiImage}
    (hrun : (grid image).foldlM (fun t p => (f t p).map fun pixel => t.put p.1 p.2 pixel) image = some out) :
    SameRest out image :=
  (InPlace.foldlM_frame (table image) (SameRest.refl image) (fun _ hp => mem_grid.1 hp) hrun).1

/-- What it puts is something that the loop computes. -/
theorem px_of_foldlM_put {out : BiImage} {Q : Nat × Nat → Pixel → Prop}
    (hrun : (grid image).foldlM (fun t p => (f t p).map fun pixel => t.put p.1 p.2 pixel) image = some out)
    (hQ : ∀ t p pixel, image.Inside p → f t p = some pixel → Q p pixel) : ∀ p, image.Inside p → Q p (out.px p) := by
  have hall := InPlace.foldlM_written (table image) (SameRest.refl image) (fun p hp => mem_grid.1 hp) hrun hQ
  exact fun p hp => hall p (mem_grid.2 hp)

end LeftFelt.BiImage
