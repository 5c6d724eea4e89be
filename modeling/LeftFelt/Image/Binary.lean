import LeftFelt.Image.BiImage
import Mathlib.Data.Set.Card
import Mathlib.SetTheory.Cardinal.Finite

/-!
# Binary images

A binary image has the default clear colour and pixels `Pixel(0)` and `Pixel(255)` only. It is given by its size and the
set of its white pixels, a set of coordinates `Cell w h`. Two coordinates are adjacent if they are different and at most
one column and one row apart.
-/

namespace LeftFelt

open BiImage

/-- The coordinates are at most `n` columns and `n` rows apart. -/
def Within (n : Nat) (p q : Nat × Nat) : Prop := (q.1 ≤ p.1 + n ∧ p.1 ≤ q.1 + n) ∧ q.2 ≤ p.2 + n ∧ p.2 ≤ q.2 + n

/-- The 8-neighbourhood. -/
def Adjacent (p q : Nat × Nat) : Prop := p ≠ q ∧ Within 1 p q

instance (n : Nat) (p q : Nat × Nat) : Decidable (Within n p q) := inferInstanceAs (Decidable ((_ ∧ _) ∧ _ ∧ _))

instance (p q : Nat × Nat) : Decidable (Adjacent p q) := inferInstanceAs (Decidable (_ ∧ _))

theorem Within.symm {n : Nat} {p q : Nat × Nat} (hpq : Within n p q) : Within n q p := ⟨hpq.1.symm, hpq.2.symm⟩

theorem Adjacent.symm {p q : Nat × Nat} (hpq : Adjacent p q) : Adjacent q p := ⟨hpq.1.symm, hpq.2.symm⟩

/-- The coordinates of a `w × h` image. -/
abbrev Cell (w h : Nat) := {p : Nat × Nat // p.1 < w ∧ p.2 < h}

/-- The 8-neighbourhood of a cell. -/
abbrev CellAdjacent {w h : Nat} (p q : Cell w h) : Prop := Adjacent p.1 q.1

variable {w h : Nat} {image : BiImage}

/-- A cell is a column and a row. -/
def cellEquiv (w h : Nat) : Cell w h ≃ Fin w × Fin h where
  toFun p := (⟨p.1.1, p.2.1⟩, ⟨p.1.2, p.2.2⟩)
  invFun q := ⟨(q.1.1, q.2.1), q.1.2, q.2.2⟩
  left_inv _ := rfl
  right_inv _ := rfl

instance : Finite (Cell w h) := Finite.of_equiv _ (cellEquiv w h).symm

theorem ncard_cells_le (A : Set (Cell w h)) : A.ncard ≤ w * h :=
  calc A.ncard ≤ (Set.univ : Set (Cell w h)).ncard := Set.ncard_le_ncard (Set.subset_univ A)
    _ = Nat.card (Cell w h) := Set.ncard_univ _
    _ = w * h := by rw [Nat.card_congr (cellEquiv w h), Nat.card_prod, Nat.card_fin, Nat.card_fin]

/-- A binary image of the given size: the default clear colour, and all pixels `Pixel(0)` or `Pixel(255)`. -/
structure Binary (w h : Nat) (image : BiImage) : Prop where
  width : image.width = w
  height : image.height = h
  clear : image.clearColor = Pixel.init
  pixels : ∀ p : Cell w h, image.get p.1.1 p.1.2 = Pixel.gray 0 ∨ image.get p.1.1 p.1.2 = Pixel.gray 255

/-- The pixels of one lightness. -/
def ofLightness (v : UInt8) (image : BiImage) : Set (Cell w h) := {p | image.get p.1.1 p.1.2 = Pixel.gray v}

/-- The white pixels. -/
abbrev white (image : BiImage) : Set (Cell w h) := ofLightness 255 image

theorem gray_inj {u v : UInt8} : Pixel.gray u = Pixel.gray v ↔ u = v := by
  constructor
  · intro h
    exact congrArg Pixel.red h
  · rintro rfl
    rfl

theorem Binary.inside (hb : Binary w h image) (p : Cell w h) : image.Inside p.1 := by
  rw [Inside, hb.width, hb.height]
  exact p.2

/-- In a binary image a pixel of the lightness 0 or 255 is the pixel of that lightness. -/
theorem Binary.lightness_eq (hb : Binary w h image) {v : UInt8} (p : Cell w h) :
    (image.get p.1.1 p.1.2).lightness = v ↔ image.get p.1.1 p.1.2 = Pixel.gray v := by
  rcases hb.pixels p with hp | hp
  · rw [hp, Pixel.lightness_gray, gray_inj]
  · rw [hp, Pixel.lightness_gray, gray_inj]

/-- A pixel of a binary image is black if it is not white. -/
theorem Binary.compl_white (hb : Binary w h image) : (white image : Set (Cell w h))ᶜ = ofLightness 0 image := by
  ext p
  simp only [Set.mem_compl_iff, ofLightness, Set.mem_ofPred_eq]
  rcases hb.pixels p with hp | hp
  · simp [hp, gray_inj]
  · simp [hp, gray_inj]

/-- An image drawn in black and white is binary. -/
theorem binary_ofFn {w h : Nat} (hw : w < 2 ^ 31) (hh : h < 2 ^ 31) {v : Nat → Nat → Pixel}
    (hv : ∀ x y, v x y = Pixel.gray 0 ∨ v x y = Pixel.gray 255) : Binary w h (ofFn w h hw hh v) := by
  have hfr := sameFrame_ofFn w h hw hh v
  refine ⟨hfr.width, hfr.height, hfr.clear, fun p => ?_⟩
  have hne : (v p.1.1 p.1.2).empty = false := by
    rcases hv p.1.1 p.1.2 with hp | hp <;> rw [hp] <;> rfl
  rw [get_ofFn hw hh p.2.1 p.2.2 hne]
  exact hv _ _

/-- Fewer white pixels: some white pixels are black. -/
theorem white_subset_iff {a b : BiImage} (ha : Binary w h a) (hb : Binary w h b) :
    (white a : Set (Cell w h)) ⊆ white b ↔
      ∀ p : Cell w h, a.get p.1.1 p.1.2 = b.get p.1.1 p.1.2 ∨
        b.get p.1.1 p.1.2 = Pixel.gray 255 ∧ a.get p.1.1 p.1.2 = Pixel.gray 0 := by
  have hne : Pixel.gray 0 ≠ Pixel.gray 255 := by decide
  constructor
  · intro hsub p
    rcases ha.pixels p with hpa | hpa
    · rcases hb.pixels p with hpb | hpb
      · exact Or.inl (hpa.trans hpb.symm)
      · exact Or.inr ⟨hpb, hpa⟩
    · exact Or.inl (hpa.trans (hsub hpa).symm)
  · intro hpix p hp
    rcases hpix p with heq | ⟨hpb, -⟩
    · exact heq.symm.trans hp
    · exact hpb

theorem Binary.get_eq_of_white_iff {a b : BiImage} (ha : Binary w h a) (hb : Binary w h b) {p : Cell w h}
    (hp : p ∈ (white a : Set (Cell w h)) ↔ p ∈ (white b : Set (Cell w h))) :
    a.get p.1.1 p.1.2 = b.get p.1.1 p.1.2 := by
  have hne : Pixel.gray 0 ≠ Pixel.gray 255 := by decide
  simp only [ofLightness, Set.mem_ofPred_eq] at hp
  rcases ha.pixels p with hpa | hpa
  · rcases hb.pixels p with hpb | hpb
    · exact hpa.trans hpb.symm
    · exact absurd (hpa.symm.trans (hp.2 hpb)) hne
  · exact hpa.trans (hp.1 hpa).symm

/-- The white pixels determine a binary image. -/
theorem white_eq_iff {a b : BiImage} (ha : Binary w h a) (hb : Binary w h b) :
    (white a : Set (Cell w h)) = white b ↔ ∀ p : Cell w h, a.get p.1.1 p.1.2 = b.get p.1.1 p.1.2 := by
  constructor
  · intro heq p
    exact ha.get_eq_of_white_iff hb (by rw [heq])
  · intro hpix
    ext p
    show a.get _ _ = _ ↔ b.get _ _ = _
    rw [hpix p]

/-- A binary image shows what is stored. -/
theorem Binary.px_eq (hb : Binary w h image) (p : Cell w h) : image.px p.1 = image.get p.1.1 p.1.2 := by
  have hne : image.get p.1.1 p.1.2 ≠ Pixel.init := by
    rcases hb.pixels p with hp | hp <;> rw [hp] <;> decide
  have hget := get_inside (x := p.1.1) (y := p.1.2) (hb.inside p)
  split_ifs at hget
  · exact absurd hget hne
  · exact hget.symm

theorem Binary.sameFrame {a b : BiImage} (ha : Binary w h a) (hb : Binary w h b) : SameFrame a b :=
  ⟨ha.width.trans hb.width.symm, ha.height.trans hb.height.symm, ha.clear.trans hb.clear.symm⟩

end LeftFelt
