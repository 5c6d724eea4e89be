import LeftFelt.Image.Binary
import LeftFelt.Lib.Window

/-!
# Shrink, expand, opening and closing

`ImageUtil::Shrink` and `ImageUtil::Expand` are one scan with the lightness 0 or 255 (`spread`): a pixel takes the
lightness if a pixel of its neighbourhood has it. The neighbourhood is not symmetric: the test `k != 1 || l != 1` leaves
out the lower right neighbour where a test for the centre was meant, and the border cuts it off.

On binary images the scan dilates the set of the pixels of its lightness by `window 1` (`spread_spec`), so `Shrink`
erodes the white pixels and `Expand` dilates them; `level` rounds do it by the hexagon `window level`
(`iterated_window`). `opening_spec` and `closing_spec` carry the laws of the opening and the closing over to the
images.
-/

namespace LeftFelt.ImageUtil

open Lib BiImage

open scoped SetRel

/-! ## The code -/

/-- The values of the loop variables `k` and `l`. -/
def offsets : List Int := [-1, 0, 1]

/-- `cnt` after the loops over the neighbourhood of `(i, j)`: how often the lightness `v` was met. -/
def count (v : UInt8) (image : BiImage) (i j : Nat) : Nat :=
  offsets.foldl (fun cnt (k : Int) => offsets.foldl (fun cnt (l : Int) =>
    if i + l < 0 ∨ j + k < 0 ∨ image.width ≤ i + l ∨ image.height ≤ j + k then cnt
    else if k ≠ 1 ∨ l ≠ 1 then
      if (image.get (i + l) (j + k)).lightness = v then cnt + 1 else cnt
    else cnt) cnt) 0

/-- The pixel that `Shrink` (`v = 0`) and `Expand` (`v = 255`) put at `(i, j)`. -/
def spreadPixel (v : UInt8) (image : BiImage) (i j : Nat) : Pixel :=
  if (image.get i j).lightness = v then image.get i j
  else if count v image i j ≠ 0 then Pixel.gray v
  else image.get i j

/-- The common body of `Shrink` and `Expand`: `output` is filled and assigned to `image`. -/
def spread (v : UInt8) (image : BiImage) : BiImage :=
  image.assign (forEach image.width image.height
    (fun i j output => output.put i j (spreadPixel v image i j)) image.createLike)

/-- `Shrink(image)`. -/
def shrink (image : BiImage) : BiImage := spread 0 image

/-- `Expand(image)`. -/
def expand (image : BiImage) : BiImage := spread 255 image

/-- `Opening(image, level)`. -/
def opening (image : BiImage) (level : Int) : BiImage :=
  forLoop 0 level.toNat (fun _ => expand) (forLoop 0 level.toNat (fun _ => shrink) image)

/-- `Closing(image, level)`. -/
def closing (image : BiImage) (level : Int) : BiImage :=
  forLoop 0 level.toNat (fun _ => shrink) (forLoop 0 level.toNat (fun _ => expand) image)

/-- `AntiNoise(image, level)`: the `unsigned int` becomes the `int` of `Opening`. -/
def antiNoise (image : BiImage) (level : UInt32) : BiImage := opening image level.toInt32.toInt

/-! ## Windows of an image -/

/-- The hexagon that `n` rounds look at: the square of radius `n` without its lower right corner, cut off at the
border. -/
def window {w h : Nat} (n : Nat) : SetRel (Cell w h) (Cell w h) :=
  {pq | (pq.2.1.1 ≤ pq.1.1.1 + n ∧ pq.1.1.1 ≤ pq.2.1.1 + n) ∧ (pq.2.1.2 ≤ pq.1.1.2 + n ∧ pq.1.1.2 ≤ pq.2.1.2 + n) ∧
    pq.2.1.1 + pq.2.1.2 ≤ pq.1.1.1 + pq.1.1.2 + n}

variable {w h : Nat} {image : BiImage}

@[simp] theorem mem_window {n : Nat} {p q : Cell w h} :
    p ~[window n] q ↔ Within n p.1 q.1 ∧ q.1.1 + q.1.2 ≤ p.1.1 + p.1.2 + n := by
  simp [window, Within, and_assoc]

instance (n : Nat) (p q : Cell w h) : Decidable (p ~[window n] q) := decidable_of_iff _ mem_window.symm

instance (v : UInt8) (image : BiImage) (p : Cell w h) : Decidable (p ∈ (ofLightness v image : Set (Cell w h))) :=
  inferInstanceAs (Decidable (_ = _))

instance : Fintype (Cell w h) := .ofEquiv _ (cellEquiv w h).symm

/-- The hexagon and its mirror image fill the square. -/
theorem within_iff {n : Nat} {p q : Cell w h} : Within n p.1 q.1 ↔ p ~[window n] q ∨ q ~[window n] p := by
  simp only [mem_window, Within]
  omega

theorem window_zero : window 0 = (SetRel.id : SetRel (Cell w h) (Cell w h)) := by
  ext ⟨⟨⟨px, py⟩, hp⟩, ⟨⟨qx, qy⟩, hq⟩⟩
  simp only [mem_window, Within, SetRel.mem_id, Subtype.mk.injEq, Prod.mk.injEq]
  omega

/-- One step of the window, then `n`. -/
theorem window_succ (n : Nat) : window 1 ○ window n = (window (n + 1) : SetRel (Cell w h) (Cell w h)) := by
  ext ⟨⟨⟨px, py⟩, hp⟩, ⟨⟨qx, qy⟩, hq⟩⟩
  simp only [SetRel.mem_comp, mem_window, Within] at *
  constructor
  · rintro ⟨⟨⟨mx, my⟩, hm⟩, h₁, h₂⟩
    simp only at h₁ h₂
    omega
  · intro h
    -- the first step goes towards `q`, but never down and right at once
    let mx := if px < qx then px + 1 else if qx < px then px - 1 else px
    let my := if px < qx ∧ py < qy then py else if py < qy then py + 1 else if qy < py then py - 1 else py
    have hmx : mx = if px < qx then px + 1 else if qx < px then px - 1 else px := rfl
    have hmy : my = if px < qx ∧ py < qy then py else if py < qy then py + 1 else if qy < py then py - 1 else py := rfl
    refine ⟨⟨(mx, my), ?_⟩, ?_, ?_⟩
    · split_ifs at hmx hmy <;> simp only [hmx, hmy] <;> omega
    · split_ifs at hmx hmy <;> simp only [hmx, hmy] <;> omega
    · split_ifs at hmx hmy <;> simp only [hmx, hmy] <;> omega

/-- **The window of `n` rounds.** -/
theorem iterated_window (n : Nat) : iterated (window 1) n = (window n : SetRel (Cell w h) (Cell w h)) := by
  induction n with
  | zero => exact window_zero.symm
  | succ n ih => rw [iterated, ih, window_succ]

/-! ## One scan -/

/-- The neighbours that the loops of the scan look at are those of `window 1`. -/
theorem count_ne_zero (hb : Binary w h image) (v : UInt8) (p : Cell w h) :
    count v image p.1.1 p.1.2 ≠ 0 ↔ ∃ q, p ~[window 1] q ∧ image.get q.1.1 q.1.2 = Pixel.gray v := by
  obtain ⟨⟨i, j⟩, hi, hj⟩ := p
  have hloops : count v image i j ≠ 0 ↔ ∃ k ∈ offsets, ∃ l ∈ offsets,
      ¬(i + l < 0 ∨ j + k < 0 ∨ image.width ≤ i + l ∨ image.height ≤ j + k) ∧ (k ≠ 1 ∨ l ≠ 1) ∧
        (image.get (i + l) (j + k)).lightness = v := by
    unfold count
    rw [foldl_ne_zero (c := fun k : Int => ∃ l ∈ offsets,
      ¬(i + l < 0 ∨ j + k < 0 ∨ image.width ≤ i + l ∨ image.height ≤ j + k) ∧ (k ≠ 1 ∨ l ≠ 1) ∧
        (image.get (i + l) (j + k)).lightness = v)]
    · simp
    · intro n k
      refine foldl_ne_zero (fun n l => ?_) offsets n
      split_ifs <;> simp_all
  rw [hloops, hb.width, hb.height]
  constructor
  · rintro ⟨k, hk, l, hl, hin, hkl, hv⟩
    have hk' : k = -1 ∨ k = 0 ∨ k = 1 := by simpa [offsets] using hk
    have hl' : l = -1 ∨ l = 0 ∨ l = 1 := by simpa [offsets] using hl
    have hq : (i + l).toNat < w ∧ (j + k).toNat < h := by omega
    have hx : ((i + l).toNat : Int) = i + l := by omega
    have hy : ((j + k).toNat : Int) = j + k := by omega
    refine ⟨⟨((i + l).toNat, (j + k).toNat), hq⟩, ?_, (hb.lightness_eq _).1 ?_⟩
    · simp only [mem_window, Within]
      omega
    · simp only [hx, hy]
      exact hv
  · rintro ⟨⟨⟨x, y⟩, hx, hy⟩, hwin, hv⟩
    simp only [mem_window, Within] at hwin hx hy
    refine ⟨y - j, ?_, x - i, ?_, ?_, ?_, ?_⟩
    · have h3 : (y : Int) - j = -1 ∨ (y : Int) - j = 0 ∨ (y : Int) - j = 1 := by omega
      simpa [offsets] using h3
    · have h3 : (x : Int) - i = -1 ∨ (x : Int) - i = 0 ∨ (x : Int) - i = 1 := by omega
      simpa [offsets] using h3
    · omega
    · omega
    · rw [add_sub_cancel, add_sub_cancel]
      exact (hb.lightness_eq ⟨(x, y), hx, hy⟩).2 hv

/-- A scan leaves the frame and puts the pixel that it computed. -/
theorem spread_frame (v : UInt8) (image : BiImage) :
    SameFrame (spread v image) image.createLike ∧
      ∀ x y : Nat, image.Inside (x, y) → (spread v image).get x y = spreadPixel v image x y := by
  obtain ⟨hfr, hpx⟩ := forEach_put (fun i j => spreadPixel v image i j) image.createLike
  have hassign := sameFrame_assign image (forEach image.width image.height
    (fun i j output => output.put i j (spreadPixel v image i j)) image.createLike)
  refine ⟨hassign.trans hfr, fun x y hp => ?_⟩
  have hp' := hfr.inside.2 hp
  refine (get_assign image hp').trans ((get_inside hp').trans ?_)
  rw [hfr.clear, hpx (x, y) hp]
  -- the clear colour of `output` is `Pixel()`, and hides nothing but `Pixel()`
  split
  · rename_i heq
    exact (Pixel.eq_init_of_empty (Pixel.eq_iff.1 heq).1.symm).symm
  · rfl

/-- **One scan** dilates the set of the pixels of its lightness. -/
theorem spread_spec (hb : Binary w h image) {v : UInt8} (hv : v = 0 ∨ v = 255) :
    Binary w h (spread v image) ∧
      (ofLightness v (spread v image) : Set (Cell w h)) = (window 1).preimage (ofLightness v image) := by
  obtain ⟨hfr, hget⟩ := spread_frame v image
  have hpixel : ∀ p : Cell w h, (spread v image).get p.1.1 p.1.2 = spreadPixel v image p.1.1 p.1.2 :=
    fun p => hget _ _ (hb.inside p)
  refine ⟨⟨hfr.width.trans hb.width, hfr.height.trans hb.height, hfr.clear, fun p => ?_⟩, ?_⟩
  · rw [hpixel p, spreadPixel]
    split
    · exact hb.pixels p
    split
    · rcases hv with rfl | rfl
      · exact Or.inl rfl
      · exact Or.inr rfl
    · exact hb.pixels p
  · ext p
    have hself : p ~[window 1] p := by
      simp only [mem_window, Within]
      omega
    simp only [ofLightness, Set.mem_ofPred_eq, SetRel.mem_preimage]
    rw [hpixel p, spreadPixel]
    have hcount := count_ne_zero hb v p
    split
    · rename_i hlight
      rw [hb.lightness_eq p] at hlight
      exact ⟨fun _ => ⟨p, hlight, hself⟩, fun _ => hlight⟩
    split
    · rename_i hne
      obtain ⟨q, hpq, hq⟩ := hcount.1 hne
      exact ⟨fun _ => ⟨q, hq, hpq⟩, fun _ => rfl⟩
    · rename_i hlight hne
      rw [hb.lightness_eq p] at hlight
      refine ⟨fun hp => absurd hp hlight, ?_⟩
      rintro ⟨q, hq, hpq⟩
      exact absurd (hcount.2 ⟨q, hpq, hq⟩) hne

/-- `Expand` dilates the white pixels. -/
theorem expand_spec (hb : Binary w h image) :
    Binary w h (expand image) ∧ (white (expand image) : Set (Cell w h)) = (window 1).preimage (white image) :=
  spread_spec hb (Or.inr rfl)

/-- `Shrink` erodes the white pixels. -/
theorem shrink_spec (hb : Binary w h image) :
    Binary w h (shrink image) ∧ (white (shrink image) : Set (Cell w h)) = (window 1).core (white image) := by
  obtain ⟨hb', hblack⟩ := spread_spec hb (Or.inl rfl)
  refine ⟨hb', compl_injective ?_⟩
  rw [compl_core, hb.compl_white, ← hblack]
  exact hb'.compl_white

/-! ## Rounds -/

/-- Rounds of `Expand`. -/
theorem expand_rounds (hb : Binary w h image) (n : Nat) :
    Binary w h (expand^[n] image) ∧
      (white (expand^[n] image) : Set (Cell w h)) = (window n).preimage (white image) := by
  rw [← iterated_window, ← preimage_iterate]
  induction n with
  | zero => exact ⟨hb, rfl⟩
  | succ n ih =>
    simp only [Function.iterate_succ_apply']
    rw [← ih.2]
    exact expand_spec ih.1

/-- Rounds of `Shrink`. -/
theorem shrink_rounds (hb : Binary w h image) (n : Nat) :
    Binary w h (shrink^[n] image) ∧ (white (shrink^[n] image) : Set (Cell w h)) = (window n).core (white image) := by
  rw [← iterated_window, ← core_iterate]
  induction n with
  | zero => exact ⟨hb, rfl⟩
  | succ n ih =>
    simp only [Function.iterate_succ_apply']
    rw [← ih.2]
    exact shrink_spec ih.1

/-- **`Opening`** opens the white pixels by the hexagon. -/
theorem opening_spec (hb : Binary w h image) (level : Int) :
    Binary w h (opening image level) ∧
      (white (opening image level) : Set (Cell w h)) = opened (window level.toNat) (white image) := by
  obtain ⟨hs, hwhite⟩ := shrink_rounds hb level.toNat
  rw [opening, forLoop_const, forLoop_const, opened, ← hwhite]
  exact expand_rounds hs level.toNat

/-- **`Closing`** closes the white pixels by the hexagon. -/
theorem closing_spec (hb : Binary w h image) (level : Int) :
    Binary w h (closing image level) ∧
      (white (closing image level) : Set (Cell w h)) = closed (window level.toNat) (white image) := by
  obtain ⟨he, hwhite⟩ := expand_rounds hb level.toNat
  rw [closing, forLoop_const, forLoop_const, closed, ← hwhite]
  exact shrink_rounds he level.toNat

/-! ## The laws -/

/-- Two binary images of which one is white where the other is black. -/
structure Complements (w h : Nat) (a b : BiImage) : Prop where
  left : Binary w h a
  right : Binary w h b
  opposite : ∀ p : Cell w h, a.get p.1.1 p.1.2 = Pixel.gray 255 ↔ b.get p.1.1 p.1.2 = Pixel.gray 0

/-- Two binary images of which one is white where the other is. -/
structure Below (w h : Nat) (a b : BiImage) : Prop where
  left : Binary w h a
  right : Binary w h b
  subset : ∀ p : Cell w h, a.get p.1.1 p.1.2 = Pixel.gray 255 → b.get p.1.1 p.1.2 = Pixel.gray 255

/-- One image is the complement of the other if its white pixels are the complement. -/
theorem complements_iff {a b : BiImage} (ha : Binary w h a) (hb : Binary w h b) :
    Complements w h a b ↔ (white b : Set (Cell w h)) = (white a)ᶜ := by
  rw [eq_compl_comm, hb.compl_white]
  exact ⟨fun h => Set.ext h.opposite, fun h => ⟨ha, hb, Set.ext_iff.1 h⟩⟩

/-- **Duality and monotonicity**: the closing of the complement is the complement of the opening, and both keep the
order of images. -/
theorem duality_monotone {a b : BiImage} (level : Int) :
    (Complements w h a b → Complements w h (opening a level) (closing b level)) ∧
      (Below w h a b →
        Below w h (opening a level) (opening b level) ∧ Below w h (closing a level) (closing b level)) := by
  constructor
  · intro hab
    obtain ⟨ho, hwhite⟩ := opening_spec hab.left level
    obtain ⟨hc, hwhite'⟩ := closing_spec hab.right level
    rw [complements_iff ho hc, hwhite, hwhite', compl_opened, ← (complements_iff hab.left hab.right).1 hab]
  · intro hab
    have hsub : (white a : Set (Cell w h)) ⊆ white b := hab.subset
    obtain ⟨hoa, hwa⟩ := opening_spec hab.left level
    obtain ⟨hob, hwb⟩ := opening_spec hab.right level
    obtain ⟨hca, hva⟩ := closing_spec hab.left level
    obtain ⟨hcb, hvb⟩ := closing_spec hab.right level
    have hopening : (white (opening a level) : Set (Cell w h)) ⊆ white (opening b level) := by
      rw [hwa, hwb]
      exact opened_mono _ hsub
    have hclosing : (white (closing a level) : Set (Cell w h)) ⊆ white (closing b level) := by
      rw [hva, hvb]
      exact closed_mono _ hsub
    exact ⟨⟨hoa, hob, hopening⟩, ⟨hca, hcb, hclosing⟩⟩

/-- A 2 × 2 image of one lightness. -/
def plain (v : UInt8) : BiImage := ofFn 2 2 two_fits two_fits fun _ _ => Pixel.gray v

/-- Duality and monotonicity for a white and a black image. -/
theorem duality_monotone_plain :
    Complements 2 2 (opening (plain 255) 1) (closing (plain 0) 1) ∧
      Below 2 2 (opening (plain 0) 1) (opening (plain 255) 1) ∧
        Below 2 2 (closing (plain 0) 1) (closing (plain 255) 1) := by
  have hblack : Binary 2 2 (plain 0) := binary_ofFn (by decide) (by decide) fun _ _ => Or.inl rfl
  have hwhite : Binary 2 2 (plain 255) := binary_ofFn (by decide) (by decide) fun _ _ => Or.inr rfl
  have hget : ∀ (v : UInt8) (p : Cell 2 2), (plain v).get p.1.1 p.1.2 = Pixel.gray v :=
    fun v p => get_ofFn (by decide) (by decide) p.2.1 p.2.2 rfl
  refine ⟨(duality_monotone 1).1 ⟨hwhite, hblack, fun p => ?_⟩, (duality_monotone 1).2 ⟨hblack, hwhite, fun p _ => ?_⟩⟩
  · rw [hget, hget]
    exact ⟨fun _ => rfl, fun _ => rfl⟩
  · exact hget 255 p

/-- The laws of morphology: the opening turns only white pixels black, so does the noise filter, the closing turns only
black pixels white, and doing either twice is doing it once. -/
structure MorphologyLaws (w h : Nat) (image : BiImage) (level : Int) : Prop where
  opening_darkens : ∀ p : Cell w h, (opening image level).get p.1.1 p.1.2 = image.get p.1.1 p.1.2 ∨
    image.get p.1.1 p.1.2 = Pixel.gray 255 ∧ (opening image level).get p.1.1 p.1.2 = Pixel.gray 0
  antiNoise_darkens : ∀ unsignedLevel : UInt32, unsignedLevel.toInt32.toInt = level →
    ∀ p : Cell w h, (antiNoise image unsignedLevel).get p.1.1 p.1.2 = image.get p.1.1 p.1.2 ∨
      image.get p.1.1 p.1.2 = Pixel.gray 255 ∧ (antiNoise image unsignedLevel).get p.1.1 p.1.2 = Pixel.gray 0
  closing_lightens : ∀ p : Cell w h, (closing image level).get p.1.1 p.1.2 = image.get p.1.1 p.1.2 ∨
    image.get p.1.1 p.1.2 = Pixel.gray 0 ∧ (closing image level).get p.1.1 p.1.2 = Pixel.gray 255
  opening_twice : ∀ p : Cell w h,
    (opening (opening image level) level).get p.1.1 p.1.2 = (opening image level).get p.1.1 p.1.2
  closing_twice : ∀ p : Cell w h,
    (closing (closing image level) level).get p.1.1 p.1.2 = (closing image level).get p.1.1 p.1.2

/-- The set `A` of one colour suits the lopsided hexagon of radius `n`: where the hexagon lies in `A`, so does the whole
square, and the mirror images of these hexagons are covered by those of hexagons that lie in their union. -/
structure Settled (n : Nat) (A : Set (Cell w h)) : Prop where
  square : ∀ q, (∀ r, q ~[window n] r → r ∈ A) → ∀ r : Cell w h, Within n q.1 r.1 → r ∈ A
  cover : ∀ q, (∀ r, q ~[window n] r → r ∈ A) → ∀ p, p ~[window n] q →
    ∃ s, p ~[window n] s ∧ ∀ t, s ~[window n] t → ∃ u, t ~[window n] u ∧ ∀ r, u ~[window n] r → r ∈ A

/-- The opening by the hexagon is a subset and idempotent on the settled sets. -/
theorem settled_iff {n : Nat} {A : Set (Cell w h)} :
    Settled n A ↔ opened (window n) A ⊆ A ∧ opened (window n) (opened (window n) A) = opened (window n) A := by
  have hsquare : (∀ q, (∀ r, q ~[window n] r → r ∈ A) → ∀ r : Cell w h, Within n q.1 r.1 → r ∈ A) ↔
      opened (window n) A ⊆ A := by
    rw [opened_subset_iff]
    constructor
    · intro hA q hq p hpq
      exact hA q (fun r hr => hq hr) p (within_iff.2 (Or.inr hpq))
    · intro hA q hq r hqr
      rcases within_iff.1 hqr with hr | hr
      · exact hq r hr
      · exact hA q (fun r hr => hq r hr) r hr
  have hcover (hsub : opened (window n) A ⊆ A) := opened_opened_iff (window n) hsub
  simp only [SetRel.mem_core, and_comm (b := _ ~[window n] _)] at hcover
  constructor
  · intro hA
    have hsub := hsquare.1 hA.square
    refine ⟨hsub, (hcover hsub).2 fun q hq p hpq => ?_⟩
    obtain ⟨s, hps, hs⟩ := hA.cover q (fun r hr => hq hr) p hpq
    exact ⟨s, hps, fun t hst => hs t hst⟩
  · rintro ⟨hsub, hidem⟩
    exact ⟨hsquare.2 hsub, fun q hq p hpq => (hcover hsub).1 hidem q (fun r hr => hq r hr) p hpq⟩

/-- **When the laws hold**: exactly when the white pixels and the black pixels are settled. -/
theorem morphologyLaws_iff (hb : Binary w h image) (level : Int) :
    MorphologyLaws w h image level ↔
      Settled level.toNat (white image : Set (Cell w h)) ∧
        Settled level.toNat (ofLightness 0 image : Set (Cell w h)) := by
  obtain ⟨ho, hwo⟩ := opening_spec hb level
  obtain ⟨hc, hwc⟩ := closing_spec hb level
  obtain ⟨hoo, hwoo⟩ := opening_spec ho level
  obtain ⟨hcc, hwcc⟩ := closing_spec hc level
  have hopening := white_subset_iff ho hb
  have hclosing := white_subset_iff hb hc
  have hopening₂ := white_eq_iff hoo ho
  have hclosing₂ := white_eq_iff hcc hc
  rw [hwo] at hopening
  rw [hwc] at hclosing
  rw [hwoo, hwo] at hopening₂
  rw [hwcc, hwc] at hclosing₂
  -- the closing is the opening of the black pixels
  rw [settled_iff, settled_iff, ← hb.compl_white, ← compl_closed, Set.compl_subset_compl, ← compl_closed,
    compl_inj_iff, hopening, hclosing, hopening₂, hclosing₂]
  constructor
  · intro hlaws
    refine ⟨⟨hlaws.opening_darkens, hlaws.opening_twice⟩, fun p => ?_, hlaws.closing_twice⟩
    exact (hlaws.closing_lightens p).imp Eq.symm And.symm
  · rintro ⟨⟨hdark, htwice⟩, hlight, htwice'⟩
    refine ⟨hdark, fun l hl p => ?_, fun p => (hlight p).imp Eq.symm And.symm, htwice, htwice'⟩
    rw [antiNoise, hl]
    exact hdark p

/-- A black image with a white pixel in the upper left corner. -/
def dotted (w h : Nat) (hw : w < 2 ^ 31) (hh : h < 2 ^ 31) : BiImage :=
  ofFn w h hw hh fun x y => if (x, y) = (0, 0) then Pixel.gray 255 else Pixel.gray 0

theorem binary_dotted (w h : Nat) (hw : w < 2 ^ 31) (hh : h < 2 ^ 31) : Binary w h (dotted w h hw hh) :=
  binary_ofFn hw hh fun x y => by
    split
    · exact Or.inr rfl
    · exact Or.inl rfl

/-- The laws hold where the opening removes the dot and the closing makes a second one. -/
theorem morphologyLaws_dotted : MorphologyLaws 3 2 (dotted 3 2 three_fits two_fits) 1 ∧
    (opening (dotted 3 2 three_fits two_fits) 1).get 0 0 = Pixel.gray 0 ∧
      (closing (dotted 3 2 three_fits two_fits) 1).get 0 1 = Pixel.gray 255 := by
  refine ⟨(morphologyLaws_iff (binary_dotted 3 2 _ _) 1).2 ⟨⟨?_, ?_⟩, ?_, ?_⟩, by decide +kernel, by decide +kernel⟩
  · decide +kernel
  · decide +kernel
  · decide +kernel
  · decide +kernel

/-- A white 2 × 2 image whose lower right pixel is black. -/
def notched : BiImage :=
  ofFn 2 2 two_fits two_fits fun x y => if x = 1 ∧ y = 1 then Pixel.gray 0 else Pixel.gray 255

/-- Opening the notched square fills the notch. -/
theorem not_morphologyLaws : ¬MorphologyLaws 2 2 notched 1 := by
  intro hlaws
  have hcorner := hlaws.opening_darkens ⟨(1, 1), by decide, by decide⟩
  revert hcorner
  decide

end LeftFelt.ImageUtil
