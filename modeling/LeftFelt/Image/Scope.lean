import LeftFelt.Base.Area
import LeftFelt.Image.BiImage

/-!
# The scope of an image

`ImageUtil::Scope` looks for the least and the greatest coordinates of the pixels `Pixel(255)`. It begins with values
beyond the image, so that the first such pixel sets all four of them; with that the area is the smallest one that has
these pixels in it (`scope_tight`).
-/

namespace LeftFelt.ImageUtil

open Lib BiImage

/-- The variables of `Scope`. -/
structure Bounds where
  top : Nat
  bottom : Nat
  left : Nat
  right : Nat

/-- The bounds with the pixel at `(i, j)` in them. -/
def Bounds.stretch (s : Bounds) (i j : Nat) : Bounds where
  top := if s.top > j then j else s.top
  bottom := if s.bottom < j then j else s.bottom
  left := if s.left > i then i else s.left
  right := if s.right < i then i else s.right

/-- `Scope(image)`. -/
def scope (image : BiImage) : Area :=
  let s := forEach image.width image.height (fun i j (s : Bounds) =>
    if (image.get i j).eq (Pixel.gray 255) then s.stretch i j else s) ⟨image.height, 0, image.width, 0⟩
  ⟨s.left, s.top, (s.right : Int) - s.left, (s.bottom : Int) - s.top⟩

/-- The pixel is `Pixel(255)`. -/
def White (image : BiImage) (p : Nat × Nat) : Prop := (image.px p).eq (Pixel.gray 255) = true

instance (image : BiImage) (p : Nat × Nat) : Decidable (White image p) := inferInstanceAs (Decidable (_ = _))

/-! ## The bounds -/

variable {image : BiImage} {pre : List (Nat × Nat)} {s : Bounds} {p : Nat × Nat}

/-- The bounds have all pixels of the list in them, and none of them can be moved inwards. -/
structure Tight (l : List (Nat × Nat)) (s : Bounds) : Prop where
  covers : ∀ p ∈ l, (s.left ≤ p.1 ∧ p.1 ≤ s.right) ∧ s.top ≤ p.2 ∧ p.2 ≤ s.bottom
  left : ∃ p ∈ l, p.1 = s.left
  right : ∃ p ∈ l, p.1 = s.right
  top : ∃ p ∈ l, p.2 = s.top
  bottom : ∃ p ∈ l, p.2 = s.bottom

/-- The first pixel sets all bounds. -/
theorem tight_first (hp : image.Inside p) : Tight [p] (Bounds.stretch ⟨image.height, 0, image.width, 0⟩ p.1 p.2) := by
  obtain ⟨hx, hy⟩ := hp
  have hstretch : Bounds.stretch ⟨image.height, 0, image.width, 0⟩ p.1 p.2 = ⟨p.2, p.2, p.1, p.1⟩ := by
    simp only [Bounds.stretch, Bounds.mk.injEq]
    refine ⟨if_pos hy, ?_, if_pos hx, ?_⟩
    · split_ifs <;> omega
    · split_ifs <;> omega
  rw [hstretch]
  exact ⟨by simp, by simp, by simp, by simp, by simp⟩

/-- The other ones move them outwards. -/
theorem Tight.step (h : Tight pre s) (p : Nat × Nat) : Tight (pre ++ [p]) (s.stretch p.1 p.2) := by
  have hkeep : ∀ {c : Nat × Nat → Nat} {n : Nat}, (∃ q ∈ pre, c q = n) → ∀ {b : Prop} [Decidable b],
      ∃ q ∈ pre ++ [p], c q = if b then c p else n := by
    rintro c n ⟨q, hq, heq⟩ b _
    split_ifs
    · exact ⟨p, by simp, rfl⟩
    · exact ⟨q, List.mem_append_left _ hq, heq⟩
  refine ⟨fun q hq => ?_, hkeep h.left, hkeep h.right, hkeep h.top, hkeep h.bottom⟩
  simp only [Bounds.stretch]
  rcases List.mem_append.1 hq with hq | hq
  · have hcovers := h.covers q hq
    split_ifs <;> omega
  · rw [List.mem_singleton.1 hq]
    split_ifs <;> omega

/-- **The loop over the pixels of a list** ends with the tight bounds. -/
theorem tight_foldl {l : List (Nat × Nat)} (hl : ∀ p ∈ l, image.Inside p) (hne : l ≠ []) :
    Tight l (l.foldl (fun s p => s.stretch p.1 p.2) ⟨image.height, 0, image.width, 0⟩) := by
  have hscan := foldl_scan (f := fun (s : Bounds) p => s.stretch p.1 p.2) (l := l)
    (s := ⟨image.height, 0, image.width, 0⟩)
    (fun pre s => (pre = [] ∧ s = ⟨image.height, 0, image.width, 0⟩) ∨ Tight pre s) (.inl ⟨rfl, rfl⟩) ?_
  · exact hscan.resolve_left fun h => hne h.1
  · rintro pre p post s hsplit hs
    rcases hs with ⟨rfl, rfl⟩ | hs
    · exact .inr (tight_first (hl p (by simp [hsplit])))
    · exact .inr (hs.step p)

/-! ## The area -/

/-- Under the default clear colour `Get` shows the white pixels. -/
theorem get_white_iff (hclear : image.clearColor = Pixel.init) (hp : image.Inside p) :
    (image.get p.1 p.2).eq (Pixel.gray 255) = true ↔ White image p := by
  cases hempty : (image.px p).empty with
  | false => rw [get_of_not_empty hclear hp hempty, White]
  | true =>
    have hget : image.get p.1 p.2 = Pixel.init := by
      rw [get_inside hp, Pixel.eq_init_of_empty hempty, ite_self]
    rw [hget, White, Pixel.eq_init_of_empty hempty]

/-- The pixels that `Scope` is about. -/
def whites (image : BiImage) : List (Nat × Nat) := (grid image).filter fun p => White image p

theorem mem_whites : p ∈ whites image ↔ image.Inside p ∧ White image p := by
  simp [whites]

/-- The loops go over the white pixels. -/
theorem bounds_eq (hclear : image.clearColor = Pixel.init) (s : Bounds) :
    forEach image.width image.height (fun i j (s : Bounds) =>
      if (image.get i j).eq (Pixel.gray 255) then s.stretch i j else s) s =
      (whites image).foldl (fun s p => s.stretch p.1 p.2) s := by
  rw [forEach_eq, whites, List.foldl_filter]
  refine List.foldl_ext _ _ _ fun s p hp => ?_
  simp only [get_white_iff hclear (mem_grid.1 hp), decide_eq_true_eq]

/-- **The scope is the tight bounding box** of the white pixels. -/
theorem scope_tight (hclear : image.clearColor = Pixel.init) (hwhite : ∃ p, image.Inside p ∧ White image p) :
    let area := scope image
    (∀ p, image.Inside p → White image p → area.hitCheck p.1 p.2 = true) ∧
      (∃ p, image.Inside p ∧ White image p ∧ (p.1 : Int) = area.x) ∧
      (∃ p, image.Inside p ∧ White image p ∧ (p.1 : Int) = area.x + area.width) ∧
      (∃ p, image.Inside p ∧ White image p ∧ (p.2 : Int) = area.y) ∧
      ∃ p, image.Inside p ∧ White image p ∧ (p.2 : Int) = area.y + area.height := by
  have hne : whites image ≠ [] := by
    obtain ⟨p, hp⟩ := hwhite
    exact List.ne_nil_of_mem (mem_whites.2 hp)
  have hinside : ∀ p ∈ whites image, image.Inside p := fun p hp => (mem_whites.1 hp).1
  have htight := tight_foldl hinside hne
  rw [scope, bounds_eq hclear]
  generalize (whites image).foldl _ _ = s at htight
  obtain ⟨hcovers, ⟨a, ha, hleft⟩, ⟨b, hb, hright⟩, ⟨c, hc, htop⟩, d, hd, hbottom⟩ := htight
  rw [mem_whites] at ha hb hc hd
  intro area
  simp only [area]
  refine ⟨fun p hp hpw => ?_, ⟨a, ha.1, ha.2, by omega⟩, ⟨b, hb.1, hb.2, by omega⟩, ⟨c, hc.1, hc.2, by omega⟩,
    d, hd.1, hd.2, by omega⟩
  have hin := hcovers p (mem_whites.2 ⟨hp, hpw⟩)
  have hright : CInt.Fits (s.left + ((s.right : Int) - s.left)) := by
    have hlt := hb.1.1
    have hbound := image.width_lt
    rw [CInt.Fits]
    omega
  have hlower : CInt.Fits (s.top + ((s.bottom : Int) - s.top)) := by
    have hlt := hd.1.2
    have hbound := image.height_lt
    rw [CInt.Fits]
    omega
  simp only [Area.hitCheck, decide_eq_true_eq, CInt.wrap_of_fits hright, CInt.wrap_of_fits hlower]
  omega

/-- A picture with one white pixel in it. -/
def whiteDot : BiImage := ofFn 2 1 two_fits one_fits fun x _ => Pixel.gray (if x = 1 then 255 else 0)

theorem scope_whiteDot : (scope whiteDot).hitCheck 1 0 = true := by
  have hclear : whiteDot.clearColor = Pixel.init := rfl
  exact (scope_tight hclear ⟨(1, 0), by decide, by decide⟩).1 (1, 0) (by decide) (by decide)

end LeftFelt.ImageUtil
