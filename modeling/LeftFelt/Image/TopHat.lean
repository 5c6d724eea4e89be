import LeftFelt.Image.Filters

/-!
# Top-hat and black-hat

`TopHat` takes the opening away from the image, and what is left are the pixels that the opening turns black
(`white_topHat`). `BlackHat` takes the closing away from the image, though the closing is the lighter of the two; what
is left are the pixels that the closing turns black (`white_blackHat`), and not those that it turns white
(`hats_iff`).
-/

namespace LeftFelt.ImageUtil

open Lib BiImage

open scoped SetRel

variable {w h : Nat} {image : BiImage}

/-! ## Differences -/

/-- Black and white pixels subtracted. -/
theorem sub_gray {p q : Pixel} (hp : p = Pixel.gray 0 ∨ p = Pixel.gray 255)
    (hq : q = Pixel.gray 0 ∨ q = Pixel.gray 255) :
    (p.sub q = Pixel.gray 0 ∨ p.sub q = Pixel.gray 255) ∧
      (p.sub q = Pixel.gray 255 ↔ p = Pixel.gray 255 ∧ q = Pixel.gray 0) := by
  rcases hp with rfl | rfl <;> rcases hq with rfl | rfl <;> decide

/-- `operator-`, pixel by pixel. -/
theorem px_sub {a b : BiImage} {p : Nat × Nat} (hp : a.Inside p) :
    (sub a b).px p = (a.px p).sub (b.px p) := by
  have hfr := sameFrame_copy a
  have hl : ∀ q ∈ raster 0 (copy a).width 0 (copy a).height, (copy a).Inside q := fun q hq => by
    simpa [Inside] using hq
  obtain ⟨-, hpx⟩ := foldl_write (fun _ => true) (fun q pixel => pixel.sub (b.px q)) (raster_nodup _ _ _ _) hl
    (f := fun out q => out.write (q.1 + q.2 * out.width)
      ((out.read (q.1 + q.2 * out.width)).sub (b.read (q.1 + q.2 * b.width)))) fun t q _ _ => by
        have hread : t.read ((q.1 + q.2 * t.width : Nat) : Int) = t.px q := read_index q
        have hread' : b.read ((q.1 + q.2 * b.width : Nat) : Int) = b.px q := read_index q
        push_cast at hread hread' ⊢
        rw [hread, hread']
        rfl
  have hp' := hfr.inside.2 hp
  rw [sub, subAssign, forEach_eq, hpx p hp', if_pos ⟨by simpa [Inside] using hp', rfl⟩, copy, px_assign _ hp]

/-- **The difference of binary images** is white where the first is white and the second is black. -/
theorem sub_spec {a b : BiImage} (ha : Binary w h a) (hb : Binary w h b) :
    Binary w h (image.assign (sub a b)) ∧ ∀ p : Cell w h,
      (image.assign (sub a b)).get p.1.1 p.1.2 = Pixel.gray 255 ↔
        a.get p.1.1 p.1.2 = Pixel.gray 255 ∧ b.get p.1.1 p.1.2 = Pixel.gray 0 := by
  have hassign := sameFrame_assign image (sub a b)
  have hfr := hassign.trans (sameFrame_sub a b)
  have hpx : ∀ p : Cell w h, (image.assign (sub a b)).px p.1 = (a.get p.1.1 p.1.2).sub (b.get p.1.1 p.1.2) := by
    intro p
    have hp := ha.inside p
    rw [px_assign image ((sameFrame_sub a b).inside.2 hp), px_sub hp, ha.px_eq, hb.px_eq]
  have hpixel := fun p : Cell w h => sub_gray (ha.pixels p) (hb.pixels p)
  have hget : ∀ p : Cell w h,
      (image.assign (sub a b)).get p.1.1 p.1.2 = (a.get p.1.1 p.1.2).sub (b.get p.1.1 p.1.2) := by
    intro p
    rw [← hpx p]
    refine get_of_not_empty (hfr.clear.trans ha.clear) (hfr.inside.2 (ha.inside p)) ?_
    rw [hpx p]
    rcases (hpixel p).1 with hgray | hgray <;> rw [hgray] <;> rfl
  refine ⟨⟨hfr.width.trans ha.width, hfr.height.trans ha.height, hfr.clear.trans ha.clear, fun p => ?_⟩, fun p => ?_⟩
  · rw [hget p]
    exact (hpixel p).1
  · rw [hget p]
    exact (hpixel p).2

/-- A copy shows the same picture. -/
theorem binary_copy (hb : Binary w h image) :
    Binary w h (copy image) ∧ (white (copy image) : Set (Cell w h)) = white image := by
  have hfr := sameFrame_copy image
  have hget : ∀ p : Cell w h, (copy image).get p.1.1 p.1.2 = image.get p.1.1 p.1.2 :=
    fun p => get_assign _ (hb.inside p)
  have hb' : Binary w h (copy image) :=
    ⟨hfr.width.trans hb.width, hfr.height.trans hb.height, hfr.clear.trans hb.clear, fun p => hget p ▸ hb.pixels p⟩
  exact ⟨hb', (white_eq_iff hb' hb).2 hget⟩

/-- The opening of the copy is the opening of the image, and so is the closing. -/
theorem get_opening_copy (hb : Binary w h image) (level : Int) (p : Cell w h) :
    (opening (copy image) level).get p.1.1 p.1.2 = (opening image level).get p.1.1 p.1.2 := by
  obtain ⟨hb', hwhite⟩ := binary_copy hb
  obtain ⟨ho, hopened⟩ := opening_spec hb' level
  obtain ⟨ho', hopened'⟩ := opening_spec hb level
  exact (white_eq_iff ho ho').1 (by rw [hopened, hopened', hwhite]) p

theorem get_closing_copy (hb : Binary w h image) (level : Int) (p : Cell w h) :
    (closing (copy image) level).get p.1.1 p.1.2 = (closing image level).get p.1.1 p.1.2 := by
  obtain ⟨hb', hwhite⟩ := binary_copy hb
  obtain ⟨hc, hclosed⟩ := closing_spec hb' level
  obtain ⟨hc', hclosed'⟩ := closing_spec hb level
  exact (white_eq_iff hc hc').1 (by rw [hclosed, hclosed', hwhite]) p

/-! ## The hats -/

/-- **What `TopHat` leaves**: the white pixels that the opening turns black. -/
theorem white_topHat (hb : Binary w h image) (level : Int) (p : Cell w h) :
    (topHat image level).get p.1.1 p.1.2 = Pixel.gray 255 ↔
      image.get p.1.1 p.1.2 = Pixel.gray 255 ∧ (opening image level).get p.1.1 p.1.2 = Pixel.gray 0 := by
  have ho := (opening_spec (binary_copy hb).1 level).1
  rw [topHat, (sub_spec hb ho).2 p, get_opening_copy hb level p]

/-- **What `BlackHat` leaves**: the white pixels that the closing turns black. -/
theorem white_blackHat (hb : Binary w h image) (level : Int) (p : Cell w h) :
    (blackHat image level).get p.1.1 p.1.2 = Pixel.gray 255 ↔
      image.get p.1.1 p.1.2 = Pixel.gray 255 ∧ (closing image level).get p.1.1 p.1.2 = Pixel.gray 0 := by
  have hc := (closing_spec (binary_copy hb).1 level).1
  rw [blackHat, (sub_spec hb hc).2 p, get_closing_copy hb level p]

/-- What the hats are for: `TopHat` finds the pixels that the opening turns black, and `BlackHat` those that the closing
turns white. -/
structure Hats (w h : Nat) (image : BiImage) (level : Int) : Prop where
  topHat : ∀ p : Cell w h, (topHat image level).get p.1.1 p.1.2 = Pixel.gray 255 ↔
    image.get p.1.1 p.1.2 = Pixel.gray 255 ∧ (opening image level).get p.1.1 p.1.2 = Pixel.gray 0
  blackHat : ∀ p : Cell w h, (blackHat image level).get p.1.1 p.1.2 = Pixel.gray 255 ↔
    image.get p.1.1 p.1.2 = Pixel.gray 0 ∧ (closing image level).get p.1.1 p.1.2 = Pixel.gray 255

/-- The closing changes nothing: the black pixels are filled by hexagons in which all pixels are black. -/
theorem closing_eq_iff (hb : Binary w h image) (level : Int) :
    (∀ p : Cell w h, (closing image level).get p.1.1 p.1.2 = image.get p.1.1 p.1.2) ↔
      ∀ p : Cell w h, image.get p.1.1 p.1.2 = Pixel.gray 0 ↔
        ∃ q : Cell w h, p ~[window level.toNat] q ∧
          ∀ r : Cell w h, q ~[window level.toNat] r → image.get r.1.1 r.1.2 = Pixel.gray 0 := by
  obtain ⟨hc, hclosed⟩ := closing_spec hb level
  rw [← white_eq_iff hc hb, hclosed, ← compl_inj_iff, compl_closed, hb.compl_white, eq_comm, Set.ext_iff]
  refine forall_congr' fun p => iff_congr Iff.rfl ?_
  simp only [opened, SetRel.mem_preimage, SetRel.mem_core, and_comm, ofLightness, Set.mem_ofPred_eq]

/-- **When the hats do what they are for**: `TopHat` always, and `BlackHat` exactly if the closing changes nothing. -/
theorem hats_iff (hb : Binary w h image) (level : Int) :
    Hats w h image level ↔
      ∀ p : Cell w h, image.get p.1.1 p.1.2 = Pixel.gray 0 ↔
        ∃ q : Cell w h, p ~[window level.toNat] q ∧
          ∀ r : Cell w h, q ~[window level.toNat] r → image.get r.1.1 r.1.2 = Pixel.gray 0 := by
  rw [← closing_eq_iff hb level]
  have hc := (closing_spec hb level).1
  have hne : Pixel.gray 255 ≠ Pixel.gray 0 := by decide
  constructor
  · intro hhats p
    have hblack := (hhats.blackHat p).symm.trans (white_blackHat hb level p)
    rcases hb.pixels p with hp | hp
    · rcases hc.pixels p with hq | hq
      · exact hq.trans hp.symm
      · exact absurd ((hblack.1 ⟨hp, hq⟩).2.symm.trans hq).symm hne
    · rcases hc.pixels p with hq | hq
      · exact absurd ((hblack.2 ⟨hp, hq⟩).1.symm.trans hp).symm hne
      · exact hq.trans hp.symm
  · intro heq
    refine ⟨white_topHat hb level, fun p => (white_blackHat hb level p).trans ?_⟩
    rw [heq p]
    exact and_comm

/-- `TopHat` finds the dot, and there is nothing to close. -/
theorem hats_dotted : Hats 3 3 (dotted 3 3 three_fits three_fits) 1 ∧
    (topHat (dotted 3 3 three_fits three_fits) 1).get 0 0 = Pixel.gray 255 := by
  refine ⟨(hats_iff (binary_dotted 3 3 _ _) 1).2 ?_, by decide +kernel⟩
  decide +kernel

/-- A black hole in the middle of a white image. -/
def hole : BiImage := ofFn 3 3 three_fits three_fits fun x y =>
  if x = 1 ∧ y = 1 then Pixel.gray 0 else Pixel.gray 255

/-- The closing fills the hole, and `BlackHat` does not find it. -/
theorem not_hats_hole : ¬Hats 3 3 hole 1 := by
  intro hhats
  have hcentre := hhats.blackHat ⟨(1, 1), by decide, by decide⟩
  revert hcentre
  decide +kernel

end LeftFelt.ImageUtil
