import LeftFelt.Image.Access
import LeftFelt.Lib.CInt
import LeftFelt.Lib.LastWrite

/-!
# Pasting

`Paste` puts the pixels of one image into another one. It does not look whether a pixel lies inside, as the older
`biPasteImage` does; `Put` wraps the coordinates around, so that what sticks out on one side comes in on the other one.
So the image is clipped only if nothing visible sticks out, or nothing is to be seen of it in the end (`clips_iff`).

The image may be the canvas itself, or a copy of it: the copy constructor copies the pointer and not the pixels. Then a
pixel may have been overwritten when it is read. As long as this does not show (`Undisturbed`), the image is pasted as
another one is (`paste_copy`).
-/

namespace LeftFelt.BiImage

open Lib LastWrite CInt

/-! ## The code -/

/-- `Put(x, y, pixel)`. There is no result if it divides by zero, or writes in front of the buffer; it never writes
behind the last row. -/
def store (image : BiImage) (x y : Int) (pixel : Pixel) : Option BiImage :=
  if (0 < image.width ∧ 0 < image.height) ∧ 0 ≤ image.address x y then some (image.put x y pixel) else none

/-- `(int)(1.0/(mix_rate/100.0))`. -/
def columns (mix_rate : Int) : Int :=
  Binary64.cInt (Float.Model.ofInt 1 / (Float.Model.ofInt mix_rate / Float.Model.ofInt 100))

/-- The image that is pasted: another one, or one in the buffer of the canvas, which is the canvas itself or a copy of
it with a clear colour of its own. -/
inductive Source where
  | other (image : BiImage)
  | copy (clearColor : Pixel)

/-- The image, when the canvas is `out`. -/
def Source.image (out : BiImage) : Source → BiImage
  | .other image => image
  | .copy clearColor => out.setClear clearColor

/-- `Paste(x, y, image, mix_rate)`. -/
def paste (this : BiImage) (x y : Int) (source : Source) (mix_rate : Int) : Option BiImage :=
  Checked.forLoop 0 (source.image this).height (fun j => Checked.forLoop 0 (source.image this).width fun i out =>
    let image := source.image out
    if (image.get i j).eq Pixel.init then some out
    else if columns mix_rate = 0 then none
    else if (i : Int).tmod (columns mix_rate) ≠ 0 then some out
    else out.store (wrap (x + i)) (wrap (y + j)) (image.get i j)) this

/-! ## The law -/

variable {this image out : BiImage} {x y : Int} {p q : Nat × Nat}

/-- `Get` does not read `Pixel()`. -/
def Visible (image : BiImage) (p : Nat × Nat) : Prop := ¬(image.get p.1 p.2).eq Pixel.init = true

instance (image : BiImage) (p : Nat × Nat) : Decidable (Visible image p) := inferInstanceAs (Decidable (¬_))

/-- The pixel that belongs to `q`: that of the image if there is a visible one, else the one that has been there. -/
def clipped (this : BiImage) (x y : Int) (image : BiImage) (q : Nat × Nat) : Pixel :=
  let i := q.1 - x
  let j := q.2 - y
  if ((0 ≤ i ∧ i < image.width) ∧ 0 ≤ j ∧ j < image.height) ∧ ¬(image.get i j).eq Pixel.init = true then image.get i j
  else this.px q

/-- **The image is clipped**: every pixel of the canvas is the one that belongs there. -/
def Clips (this : BiImage) (x y : Int) (source : Source) : Prop :=
  ∃ out, this.paste x y source 100 = some out ∧ SameRest out this ∧
    ∀ q, this.Inside q → out.px q = clipped this x y (source.image this) q

/-- The target of a pixel lies in the canvas. -/
def Within (this : BiImage) (x y : Int) (p : Nat × Nat) : Prop :=
  (0 ≤ x + p.1 ∧ x + p.1 < this.width) ∧ 0 ≤ y + p.2 ∧ y + p.2 < this.height

/-- The address of the target, whose coordinates are `int`s. -/
def target (this : BiImage) (x y : Int) (p : Nat × Nat) : Int := this.address (wrap (x + p.1)) (wrap (y + p.2))

/-- The target of a pixel is addressed in the buffer. -/
def Lands (this : BiImage) (x y : Int) (p : Nat × Nat) : Prop :=
  (0 < this.width ∧ 0 < this.height) ∧ 0 ≤ target this x y p

instance (this : BiImage) (x y : Int) (p : Nat × Nat) : Decidable (Within this x y p) :=
  inferInstanceAs (Decidable (_ ∧ _))

instance (this : BiImage) (x y : Int) (p : Nat × Nat) : Decidable (Lands this x y p) :=
  inferInstanceAs (Decidable (_ ∧ _))

/-- It is addressed as the pixel `q`. -/
def Hits (this : BiImage) (x y : Int) (p q : Nat × Nat) : Prop :=
  target this x y p = ((q.1 + q.2 * this.width : Nat) : Int)

instance (this : BiImage) (x y : Int) (p q : Nat × Nat) : Decidable (Hits this x y p q) :=
  inferInstanceAs (Decidable (_ = _))

/-! ## One pixel -/

theorem columns_all : columns 100 = 1 := by
  decide +kernel

theorem wrapped_lt {n : Nat} (hn : 0 < n) (x : Int) : wrapped n x < n := Int.tmod_lt_of_pos _ (by omega)

/-- An address in the buffer is that of a pixel. -/
theorem Lands.exists_hits (h : Lands this x y p) : ∃ q, this.Inside q ∧ Hits this x y p q := by
  obtain ⟨⟨hw, hh⟩, h0⟩ := h
  have hlt : target this x y p < this.width * this.height := by
    have hx := wrapped_lt hw (wrap (x + p.1))
    have hy := wrapped_lt hh (wrap (y + p.2))
    have hrows : (wrapped this.height (wrap (y + p.2)) + 1) * this.width ≤ this.height * this.width := by
      gcongr
      omega
    rw [target, address_eq, mul_comm (this.width : Int)]
    rw [add_mul, one_mul] at hrows
    omega
  obtain ⟨k, hk⟩ := Int.eq_ofNat_of_zero_le h0
  rw [hk] at hlt
  have hlt' : k < this.width * this.height := by exact_mod_cast hlt
  refine ⟨(k % this.width, k / this.width), ⟨Nat.mod_lt k hw, Nat.div_lt_of_lt_mul hlt'⟩, ?_⟩
  have hindex : k % this.width + k / this.width * this.width = k := by
    rw [mul_comm]
    exact Nat.mod_add_div k this.width
  rw [Hits, hk, hindex]

/-- A target inside is that pixel. -/
theorem hits_of_target (hq : this.Inside q) (hx : (q.1 : Int) = x + p.1) (hy : (q.2 : Int) = y + p.2) :
    Hits this x y p q := by
  have hq1 : wrap (q.1 : Int) = q.1 := wrap_of_fits (fits_natCast (hq.1.trans this.width_lt))
  have hq2 : wrap (q.2 : Int) = q.2 := wrap_of_fits (fits_natCast (hq.2.trans this.height_lt))
  rw [Hits, target, ← hx, ← hy, hq1, hq2]
  exact address_inside hq

theorem Within.target (h : Within this x y p) :
    ∃ q, this.Inside q ∧ (q.1 : Int) = x + p.1 ∧ (q.2 : Int) = y + p.2 := by
  obtain ⟨⟨hx0, hx⟩, hy0, hy⟩ := h
  exact ⟨((x + p.1).toNat, (y + p.2).toNat), ⟨by simp only; omega, by simp only; omega⟩, Int.toNat_of_nonneg hx0,
    Int.toNat_of_nonneg hy0⟩

/-- No address is that of two pixels. -/
theorem Hits.unique {r : Nat × Nat} (hq : Hits this x y p q) (hr : Hits this x y p r) (hqin : this.Inside q)
    (hrin : this.Inside r) : q = r :=
  index_inj hqin.1 hrin.1 (by exact_mod_cast hq.symm.trans hr)

/-- What a `Put` that lands does to the canvas. -/
theorem store_eq {t : BiImage} (ht : SameRest t this) (hp : Lands this x y p) (pixel : Pixel) :
    ∃ t', t.store (wrap (x + p.1)) (wrap (y + p.2)) pixel = some t' ∧ SameRest t' this ∧
      ∀ q, this.Inside q → t'.px q = if Hits this x y p q then pixel else t.px q := by
  have haddress : t.address (wrap (x + p.1)) (wrap (y + p.2)) = target this x y p := by
    rw [target, address_eq, address_eq, ht.width, ht.height]
  obtain ⟨r, hrin, hr⟩ := hp.exists_hits
  have hrin' : t.Inside r := ht.inside.2 hrin
  have hput : t.put (wrap (x + p.1)) (wrap (y + p.2)) pixel = t.put r.1 r.2 pixel := by
    rw [put, put, haddress, hr, address_inside hrin', ht.width]
  refine ⟨_, if_pos ?_, ?_, fun q hq => ?_⟩
  · rw [haddress, ht.width, ht.height]
    exact hp
  · rw [hput]
    exact (sameRest_put hrin' pixel).trans ht
  · rw [hput, put_inside hrin', px_write hrin' (ht.inside.2 hq)]
    refine if_congr ⟨?_, fun hqhits => hqhits.unique hr hq hrin⟩ rfl rfl
    rintro rfl
    exact hr

/-! ## The loop -/

/-- The body of the loops. -/
def pastePixel (x y : Int) (image out : BiImage) (p : Nat × Nat) : Option BiImage :=
  if Visible image p then out.store (wrap (x + p.1)) (wrap (y + p.2)) (image.get p.1 p.2) else some out

theorem paste_source (this : BiImage) (x y : Int) (source : Source) :
    this.paste x y source 100 =
      (grid (source.image this)).foldlM (fun out => pastePixel x y (source.image out) out) this := by
  rw [paste, Checked.forLoop_forLoop, grid]
  congr 1
  funext out p
  simp only [columns_all]
  rw [Int.tmod_one, if_neg (by decide : ¬(1 : Int) = 0), if_neg (by decide : ¬(0 : Int) ≠ 0), pastePixel]
  by_cases hp : Visible (source.image out) p
  · rw [if_pos hp, if_neg hp]
  · rw [if_neg hp, if_pos (not_not.1 hp)]

theorem paste_eq (this : BiImage) (x y : Int) (image : BiImage) :
    this.paste x y (.other image) 100 = (grid image).foldlM (pastePixel x y image) this :=
  paste_source this x y (.other image)

/-- The pixel at `q` after the pixels of the list. -/
def pasted (this : BiImage) (x y : Int) (image : BiImage) (l : List (Nat × Nat)) (q : Nat × Nat) : Pixel :=
  l.foldl (overwrite (fun p => Visible image p ∧ Hits this x y p q) fun p => image.get p.1 p.2) (this.px q)

/-- If all pixels land, each pixel of the canvas is overwritten by those that hit it. -/
theorem foldlM_pastePixel {l : List (Nat × Nat)} (hlands : ∀ p ∈ l, Visible image p → Lands this x y p) :
    ∃ out, l.foldlM (pastePixel x y image) this = some out ∧ SameRest out this ∧
      ∀ q, this.Inside q → out.px q = pasted this x y image l q := by
  refine Checked.foldlM_eq_some (fun pre out => SameRest out this ∧
    ∀ q, this.Inside q → out.px q = pasted this x y image pre q) ⟨SameRest.refl this, fun q _ => rfl⟩ ?_
  rintro pre p post t hl ⟨hrest, hpx⟩
  by_cases hvisible : Visible image p
  · obtain ⟨t', hstore, hrest', hpx'⟩ := store_eq hrest (hlands p (by simp [hl]) hvisible) (image.get p.1 p.2)
    refine ⟨t', by rw [pastePixel, if_pos hvisible, hstore], hrest', fun q hq => ?_⟩
    rw [hpx' q hq, hpx q hq, pasted, pasted, List.foldl_concat, overwrite]
    simp only [hvisible, true_and]
  · refine ⟨t, by rw [pastePixel, if_neg hvisible], hrest, fun q hq => ?_⟩
    rw [hpx q hq, pasted, pasted, List.foldl_concat, overwrite, if_neg fun h => hvisible h.1]

/-- A loop that comes to an end has put pixels that land. -/
theorem lands_of_paste (hrun : this.paste x y (.other image) 100 = some out) (hp : image.Inside p)
    (hvisible : Visible image p) : Lands this x y p := by
  rw [paste_eq] at hrun
  obtain ⟨-, hall⟩ := Checked.step_of_foldlM (fun t => SameFrame t this) (SameFrame.refl this) (fun q s t hs hstep => by
    rw [pastePixel] at hstep
    split_ifs at hstep
    · rw [store] at hstep
      split_ifs at hstep
      obtain rfl := Option.some.inj hstep
      exact (sameFrame_write _ _).trans hs
    · exact Option.some.inj hstep ▸ hs) hrun
  obtain ⟨s, t, hs, hstep⟩ := hall p (mem_grid.2 hp)
  rw [pastePixel, if_pos hvisible, store] at hstep
  split_ifs at hstep with hlands
  rwa [address_eq, hs.width, hs.height, ← address_eq] at hlands

/-! ## A copy of the canvas -/

/-- No visible pixel is put on a pixel of the image that is read later and looks different. -/
def Undisturbed (this : BiImage) (x y : Int) (image : BiImage) : Prop :=
  ∀ p q, image.Inside p → Visible image p → RasterLt p q → image.Inside q → Hits this x y p q →
    image.get q.1 q.2 = image.get p.1 p.2

/-- A visible pixel is visible where it is put. -/
theorem viewed_get {t : BiImage} (hclear : t.clearColor = image.clearColor) (hp : image.Inside p)
    (hvisible : Visible image p) : viewed t (image.get p.1 p.2) = image.get p.1 p.2 := by
  rw [Visible, get_eq_viewed hp] at hvisible
  rw [get_eq_viewed hp]
  by_cases hclearPixel : image.clearColor.eq (image.px p) = true
  · rw [viewed, if_pos hclearPixel] at hvisible
    exact absurd rfl hvisible
  · have hsame : viewed image (image.px p) = image.px p := if_neg hclearPixel
    rw [hsame, viewed, hclear, if_neg hclearPixel]

/-- **One round** leaves the pixels that are still to be read as they look. -/
theorem looks_step {t t' : BiImage} {clearColor : Pixel} (hund : Undisturbed this x y (this.setClear clearColor))
    (ht : SameRest t this) (hp : this.Inside p)
    (hstep : pastePixel x y (this.setClear clearColor) t p = some t') :
    SameRest t' this ∧ ∀ q, this.Inside q → RasterLt p q →
      (t.setClear clearColor).get q.1 q.2 = (this.setClear clearColor).get q.1 q.2 →
        (t'.setClear clearColor).get q.1 q.2 = (this.setClear clearColor).get q.1 q.2 := by
  rw [pastePixel] at hstep
  split_ifs at hstep with hvisible
  · -- a pixel that looks different is not hit
    have hlands : Lands this x y p := by
      rw [store] at hstep
      split_ifs at hstep with hlands
      rwa [address_eq, ht.width, ht.height, ← address_eq] at hlands
    obtain ⟨t'', hstore, hrest, hpx⟩ := store_eq ht hlands ((this.setClear clearColor).get p.1 p.2)
    obtain rfl := Option.some.inj (hstep.symm.trans hstore)
    refine ⟨hrest, fun q hq hlt hlooks => ?_⟩
    have hqt : (t.setClear clearColor).Inside q := ht.inside.2 hq
    have hqt' : (t'.setClear clearColor).Inside q := hrest.inside.2 hq
    rw [get_eq_viewed hqt] at hlooks
    rw [get_eq_viewed hqt']
    have hpxq : (t'.setClear clearColor).px q =
        if Hits this x y p q then (this.setClear clearColor).get p.1 p.2 else (t.setClear clearColor).px q := hpx q hq
    rw [hpxq]
    split_ifs with hhits
    · rw [hund p q hp hvisible hlt hq hhits]
      exact viewed_get rfl hp hvisible
    · exact hlooks
  · obtain rfl := Option.some.inj hstep
    exact ⟨ht, fun q _ _ hlooks => hlooks⟩

/-- **A copy of the canvas is pasted as another image is**, as long as no pixel is read that has been overwritten with
another colour. -/
theorem paste_copy (clearColor : Pixel) (hund : Undisturbed this x y (this.setClear clearColor)) :
    this.paste x y (.copy clearColor) 100 = this.paste x y (.other (this.setClear clearColor)) 100 := by
  rw [paste_source, paste_eq]
  have key : ∀ (l : List (Nat × Nat)) (t : BiImage), l.Pairwise RasterLt → (∀ p ∈ l, this.Inside p) → SameRest t this →
      (∀ p ∈ l, (t.setClear clearColor).get p.1 p.2 = (this.setClear clearColor).get p.1 p.2) →
      l.foldlM (fun out => pastePixel x y (Source.image out (.copy clearColor)) out) t =
        l.foldlM (pastePixel x y (this.setClear clearColor)) t := by
    intro l
    induction l with
    | nil => exact fun t _ _ _ _ => rfl
    | cons p l ih =>
      intro t hsorted hl ht hlooks
      obtain ⟨hfirst, hsorted⟩ := List.pairwise_cons.1 hsorted
      obtain ⟨hp, hl⟩ := List.forall_mem_cons.1 hl
      obtain ⟨hlook, hlooks⟩ := List.forall_mem_cons.1 hlooks
      have hsame : pastePixel x y (Source.image t (.copy clearColor)) t p =
          pastePixel x y (this.setClear clearColor) t p := by
        have hvisible : Visible (t.setClear clearColor) p ↔ Visible (this.setClear clearColor) p := by
          rw [Visible, Visible, hlook]
        exact if_congr hvisible (congrArg _ hlook) rfl
      rw [List.foldlM_cons, List.foldlM_cons, hsame]
      cases hstep : pastePixel x y (this.setClear clearColor) t p with
      | none => rfl
      | some t' =>
        obtain ⟨hrest, hkeep⟩ := looks_step hund ht hp hstep
        exact ih t' hsorted hl hrest fun q hq => hkeep q (hl q hq) (hfirst q hq) (hlooks q hq)
  exact key (grid this) this (raster_pairwise ..) (fun p hp => mem_grid.1 hp) (SameRest.refl this) fun _ _ => rfl

/-! ## The result -/

theorem clipped_of_target (hp : image.Inside p) (hvisible : Visible image p) (hx : (q.1 : Int) = x + p.1)
    (hy : (q.2 : Int) = y + p.2) : clipped this x y image q = image.get p.1 p.2 := by
  have hi : (q.1 : Int) - x = p.1 := by omega
  have hj : (q.2 : Int) - y = p.2 := by omega
  obtain ⟨hpx, hpy⟩ := hp
  simp only [clipped, hi, hj]
  exact if_pos ⟨⟨⟨by omega, by exact_mod_cast hpx⟩, by omega, by exact_mod_cast hpy⟩, hvisible⟩

/-- Either a visible pixel belongs to `q`, or the old one. -/
theorem clipped_cases (this : BiImage) (x y : Int) (image : BiImage) (q : Nat × Nat) :
    (∃ p, image.Inside p ∧ Visible image p ∧ (q.1 : Int) = x + p.1 ∧ (q.2 : Int) = y + p.2) ∨
      clipped this x y image q = this.px q := by
  by_cases h : ((0 ≤ (q.1 : Int) - x ∧ (q.1 : Int) - x < image.width) ∧ 0 ≤ (q.2 : Int) - y ∧
      (q.2 : Int) - y < image.height) ∧ ¬(image.get (q.1 - x) (q.2 - y)).eq Pixel.init = true
  · obtain ⟨⟨⟨hx0, hx⟩, hy0, hy⟩, hvisible⟩ := h
    obtain ⟨i, hi⟩ := Int.eq_ofNat_of_zero_le hx0
    obtain ⟨j, hj⟩ := Int.eq_ofNat_of_zero_le hy0
    rw [hi, hj] at hvisible
    exact .inl ⟨(i, j), ⟨by simp only; omega, by simp only; omega⟩, hvisible, by simp only; omega, by simp only; omega⟩
  · exact .inr (if_neg h)

/-- A visible pixel whose target lies outside does no harm to `q`: a later one overwrites it, or it is what belongs
there. -/
def Harmless (this : BiImage) (x y : Int) (image : BiImage) (p q : Nat × Nat) : Prop :=
  (∃ p', image.Inside p' ∧ Visible image p' ∧ RasterLt p p' ∧ Hits this x y p' q) ∨
    image.get p.1 p.2 = clipped this x y image q

/-- The last pixel that hits `q` decides. -/
theorem pasted_eq_clipped_iff (hq : this.Inside q) :
    pasted this x y image (grid image) q = clipped this x y image q ↔
      ∀ p, image.Inside p → Visible image p → ¬Within this x y p → Hits this x y p q → Harmless this x y image p q := by
  rcases last_or_none (fun p => Visible image p ∧ Hits this x y p q) (grid image) with hnone | ⟨p, hlast⟩
  · -- nothing hits `q`, so nothing belongs there, either
    have hnot : ∀ p, image.Inside p → Visible image p → ¬Hits this x y p q := fun p hp hvisible hhits =>
      hnone p (mem_grid.2 hp) ⟨hvisible, hhits⟩
    have hclipped : clipped this x y image q = this.px q :=
      (clipped_cases this x y image q).resolve_left fun ⟨p, hp, hvisible, hx, hy⟩ =>
        hnot p hp hvisible (hits_of_target hq hx hy)
    rw [pasted, foldl_of_none hnone, hclipped]
    exact iff_of_true rfl fun p hp hvisible _ hhits => absurd hhits (hnot p hp hvisible)
  · rw [pasted, foldl_of_last hlast]
    obtain ⟨⟨hmem, hvisible, hhits⟩, hafter⟩ := last_raster.1 hlast
    have hp : image.Inside p := mem_grid.1 hmem
    constructor
    · intro heq p' hp' hvisible' _ hhits'
      -- an earlier pixel is overwritten by the last one
      rcases rasterLt_trichotomy p' p with hlt | rfl | hgt
      · exact .inl ⟨p, hp, hvisible, hlt, hhits⟩
      · exact .inr heq
      · exact absurd ⟨hvisible', hhits'⟩ (hafter p' (mem_grid.2 hp') hgt)
    · intro hall
      by_cases hwithin : Within this x y p
      · obtain ⟨r, hr, hx, hy⟩ := hwithin.target
        obtain rfl := (hits_of_target hr hx hy).unique hhits hr hq
        exact (clipped_of_target hp hvisible hx hy).symm
      · refine (hall p hp hvisible hwithin hhits).resolve_left ?_
        rintro ⟨p', hp', hvisible', hlt, hhits'⟩
        exact hafter p' (mem_grid.2 hp') hlt ⟨hvisible', hhits'⟩

/-- All visible pixels are addressed in the buffer, and those with targets outside of the canvas do no harm there. -/
def Fitting (this : BiImage) (x y : Int) (image : BiImage) : Prop :=
  ∀ p, image.Inside p → Visible image p → Lands this x y p ∧
    (¬Within this x y p → ∀ q, this.Inside q → Hits this x y p q → Harmless this x y image p q)

/-- When another image is clipped. -/
theorem clips_other_iff (this : BiImage) (x y : Int) (image : BiImage) :
    Clips this x y (.other image) ↔ Fitting this x y image := by
  constructor
  · rintro ⟨out, hrun, hrest, hpx⟩ p hp hvisible
    have hlands : ∀ p ∈ grid image, Visible image p → Lands this x y p := fun p hp hvisible =>
      lands_of_paste hrun (mem_grid.1 hp) hvisible
    refine ⟨hlands p (mem_grid.2 hp) hvisible, fun hwithin q hq hhits => ?_⟩
    obtain ⟨out', hrun', -, hpx'⟩ := foldlM_pastePixel hlands
    rw [← paste_eq, hrun] at hrun'
    obtain rfl := Option.some.inj hrun'
    exact (pasted_eq_clipped_iff hq).1 ((hpx' q hq).symm.trans (hpx q hq)) p hp hvisible hwithin hhits
  · intro hall
    obtain ⟨out, hrun, hrest, hpx⟩ := foldlM_pastePixel fun p hp hvisible => (hall p (mem_grid.1 hp) hvisible).1
    refine ⟨out, (paste_eq this x y image).trans hrun, hrest, fun q hq => ?_⟩
    rw [hpx q hq]
    exact (pasted_eq_clipped_iff hq).2 fun p hp hvisible hwithin hhits => (hall p hp hvisible).2 hwithin q hq hhits

/-- **When the image is clipped**: another image exactly if it fits; and so is the canvas itself, or a copy of it, if no
pixel is read that has been overwritten with another colour. -/
theorem clips_iff (this : BiImage) (x y : Int) :
    (∀ image, Clips this x y (.other image) ↔ Fitting this x y image) ∧
    ∀ clearColor, Undisturbed this x y (this.setClear clearColor) →
      (Clips this x y (.copy clearColor) ↔ Fitting this x y (this.setClear clearColor)) := by
  refine ⟨clips_other_iff this x y, fun clearColor hund => ?_⟩
  rw [← clips_other_iff, Clips, Clips, paste_copy clearColor hund]
  rfl

/-- A clear pixel, a white one and a black one. -/
def clearWhiteBlack : BiImage := ofFn 3 1 three_fits one_fits fun x _ =>
  if x = 0 then Pixel.init else Pixel.gray (if x = 1 then 255 else 0)

/-- The canvas itself is pasted one pixel to the left: nothing visible sticks out or is read again. -/
theorem clips_clearWhiteBlack : Clips clearWhiteBlack (-1) 0 (.copy Pixel.init) := by
  have hund : ∀ p ∈ grid clearWhiteBlack, ∀ q ∈ grid clearWhiteBlack, Visible clearWhiteBlack p → RasterLt p q →
      ¬Hits clearWhiteBlack (-1) 0 p q := by
    decide +kernel
  have hfit : ∀ p ∈ grid clearWhiteBlack, Visible clearWhiteBlack p →
      Lands clearWhiteBlack (-1) 0 p ∧ Within clearWhiteBlack (-1) 0 p := by
    decide +kernel
  refine ((clips_iff clearWhiteBlack (-1) 0).2 Pixel.init ?_).2 fun p hp hvisible => ?_
  · exact fun p q hp hvisible hlt hq hhits =>
      absurd hhits (hund p (mem_grid.2 hp) q (mem_grid.2 hq) hvisible hlt)
  · obtain ⟨hlands, hwithin⟩ := hfit p (mem_grid.2 hp) hvisible
    exact ⟨hlands, fun hout => absurd hwithin hout⟩

/-- Two white pixels. -/
def twoWhite : BiImage := ofFn 2 1 two_fits one_fits fun _ _ => Pixel.gray 255

/-- A canvas of two black pixels. -/
def twoBlack : BiImage := ofFn 2 1 two_fits one_fits fun _ _ => Pixel.gray 0

/-- The second white pixel is put on the first black one. -/
theorem not_clips_twoWhite : ¬Clips twoBlack 1 0 (.other twoWhite) := by
  rintro ⟨out, hrun, -, hpx⟩
  have hout : (twoBlack.paste 1 0 (.other twoWhite) 100).map (fun out => out.px (0, 0)) = some (Pixel.gray 255) := by
    decide +kernel
  rw [hrun, Option.map_some, Option.some.injEq, hpx (0, 0) (by decide)] at hout
  exact absurd hout (by decide +kernel)

end LeftFelt.BiImage
