import LeftFelt.Lib.CInt
import Mathlib.Data.Set.Prod

/-!
# Points and areas

The classes `Point` and `Area`. `HitCheck(area)` tests whether a corner of the area lies in the other one. Three of the
four corners are computed with `my` in place of `mx`, and two areas may have points in common though neither has a corner
in the other one. An area with a side beyond the greatest `int` has no points for `HitCheck`, since the sum wraps around.
So the result is right under a condition on the four intervals only (`hitCheckArea_iff`).
-/

namespace LeftFelt

open Lib CInt

/-- `class Point`. -/
structure Point where
  x : Int
  y : Int
  deriving DecidableEq

/-- `class Area`. -/
structure Area where
  x : Int
  y : Int
  width : Int
  height : Int

namespace Area

/-! ## The code -/

/-- `HitCheck(x, y)`. -/
def hitCheck (a : Area) (x y : Int) : Bool :=
  a.x ≤ x ∧ x ≤ wrap (a.x + a.width) ∧ a.y ≤ y ∧ y ≤ wrap (a.y + a.height)

/-- `HitCheck(area)`. -/
def hitCheckArea (a area : Area) : Bool :=
  area.hitCheck a.x a.y ||
  area.hitCheck (wrap (a.y + a.width)) a.y ||
  area.hitCheck a.y (wrap (a.y + a.height)) ||
  area.hitCheck (wrap (a.y + a.width)) (wrap (a.y + a.height))

/-! ## Rectangles -/

variable {a b : Area} {x y : Int}

/-- The x coordinates of an area. -/
def xs (a : Area) : Set Int := {x | a.x ≤ x ∧ x ≤ a.x + a.width}

/-- The y coordinates of an area. -/
def ys (a : Area) : Set Int := {y | a.y ≤ y ∧ y ≤ a.y + a.height}

/-- The closed rectangle. -/
def rect (a : Area) : Set (Int × Int) := a.xs ×ˢ a.ys

/-- The four numbers are `int`s, and the sizes are not negative. -/
structure Proper (a : Area) : Prop where
  x : Fits a.x
  y : Fits a.y
  width : Fits a.width
  height : Fits a.height
  width_nonneg : 0 ≤ a.width
  height_nonneg : 0 ≤ a.height

instance (a : Area) : Decidable a.Proper :=
  decidable_of_iff ((Fits a.x ∧ Fits a.y) ∧ (Fits a.width ∧ Fits a.height) ∧ 0 ≤ a.width ∧ 0 ≤ a.height)
    ⟨fun ⟨⟨hx, hy⟩, ⟨hwidth, hheight⟩, hw0, hh0⟩ => ⟨hx, hy, hwidth, hheight, hw0, hh0⟩,
      fun ⟨hx, hy, hwidth, hheight, hw0, hh0⟩ => ⟨⟨hx, hy⟩, ⟨hwidth, hheight⟩, hw0, hh0⟩⟩

/-- The right and the lower side are `int`s. -/
def Seen (a : Area) : Prop := Fits (a.x + a.width) ∧ Fits (a.y + a.height)

instance (a : Area) : Decidable a.Seen := inferInstanceAs (Decidable (_ ∧ _))

/-- Otherwise no point is in the area. -/
theorem hitCheck_iff (ha : a.Proper) : a.hitCheck x y = true ↔ a.Seen ∧ (x, y) ∈ a.rect := by
  simp only [hitCheck, decide_eq_true_eq, Seen, rect, xs, ys, Set.mem_prod, Set.mem_ofPred_eq]
  by_cases hright : Fits (a.x + a.width)
  · by_cases hlower : Fits (a.y + a.height)
    · rw [wrap_of_fits hright, wrap_of_fits hlower]
      tauto
    · have hlt := wrap_add_lt ha.y ha.height ha.height_nonneg hlower
      exact iff_of_false (fun h => by omega) fun h => hlower h.1.2
  · have hlt := wrap_add_lt ha.x ha.width ha.width_nonneg hright
    exact iff_of_false (fun h => by omega) fun h => hright h.1.1

/-- Rectangles have a point in common if they have an x and a y in common. -/
theorem rect_inter_nonempty : (a.rect ∩ b.rect).Nonempty ↔ (a.xs ∩ b.xs).Nonempty ∧ (a.ys ∩ b.ys).Nonempty := by
  rw [rect, rect, Set.prod_inter_prod, Set.prod_nonempty_iff]

/-- The upper or the lower side of `a` is at the height of `b`. -/
def Side (a b : Area) : Prop := a.y ∈ b.ys ∨ wrap (a.y + a.height) ∈ b.ys

/-- What the corners that are tested say of the x coordinates then. -/
def Corner (a b : Area) : Prop :=
  (a.y ∈ b.ys ∧ a.x ∈ b.xs) ∨ (wrap (a.y + a.height) ∈ b.ys ∧ a.y ∈ b.xs) ∨ wrap (a.y + a.width) ∈ b.xs

/-- Areas at the same height have an x in common exactly if the corners say so; and none, if both sides of `a` are beyond
`b`. -/
def Told (a b : Area) : Prop :=
  (a.ys ∩ b.ys).Nonempty →
    (Side a b → ((a.xs ∩ b.xs).Nonempty ↔ Corner a b)) ∧ (¬Side a b → ¬(a.xs ∩ b.xs).Nonempty)

/-- No corner is told to be in the other area. -/
def Missed (a b : Area) : Prop := b.Seen → ¬(Side a b ∧ Corner a b)

/-- The four tests, with what they have in common taken out. -/
theorem hitCheckArea_eq (hb : b.Proper) : a.hitCheckArea b = true ↔ b.Seen ∧ Side a b ∧ Corner a b := by
  simp only [hitCheckArea, Bool.or_eq_true, hitCheck_iff hb, rect, Set.mem_prod, Side, Corner]
  tauto

/-- A side at the height of the other area. -/
theorem ys_nonempty (ha : a.Proper) (hseen : a.Seen) (h : Side a b) : (a.ys ∩ b.ys).Nonempty := by
  have hheight := ha.height_nonneg
  rw [Side, wrap_of_fits hseen.2] at h
  rcases h with h | h
  · exact ⟨a.y, ⟨le_rfl, by omega⟩, h⟩
  · exact ⟨a.y + a.height, ⟨by omega, le_rfl⟩, h⟩

/-- When the areas hit each other as their rectangles do. -/
theorem hits_iff (ha : a.Proper) (hb : b.Proper) (hsa : a.Seen) (hsb : b.Seen) :
    (a.hitCheckArea b = true ↔ (a.rect ∩ b.rect).Nonempty) ↔ Told a b := by
  rw [hitCheckArea_eq hb, and_iff_right hsb, rect_inter_nonempty, Told]
  by_cases hside : Side a b
  · simp only [hside, ys_nonempty ha hsa hside, true_and, and_true, true_imp_iff, not_true_eq_false, false_imp_iff]
    exact iff_comm
  · simp only [hside, false_and, false_iff, not_and, false_imp_iff, true_and, not_false_eq_true, true_imp_iff]
    exact ⟨fun h hys hxs => h hxs hys, fun h hxs hys => h hys hxs⟩

/-- **When the hit test of areas is right**, and the same from both sides. -/
theorem hitCheckArea_iff (ha : a.Proper) (hb : b.Proper) :
    ((a.hitCheckArea b = true ↔ (a.rect ∩ b.rect).Nonempty) ∧ a.hitCheckArea b = b.hitCheckArea a) ↔
      (a.Seen ∧ b.Seen → Told a b ∧ Told b a) ∧
      (¬(a.Seen ∧ b.Seen) → ¬(a.rect ∩ b.rect).Nonempty ∧ Missed a b ∧ Missed b a) := by
  have hboth : ((a.hitCheckArea b = true ↔ (a.rect ∩ b.rect).Nonempty) ∧ a.hitCheckArea b = b.hitCheckArea a) ↔
      (a.hitCheckArea b = true ↔ (a.rect ∩ b.rect).Nonempty) ∧
        (b.hitCheckArea a = true ↔ (b.rect ∩ a.rect).Nonempty) := by
    rw [Set.inter_comm b.rect]
    refine and_congr_right fun h => ?_
    rw [← h, Bool.eq_iff_iff]
    exact iff_comm
  rw [hboth]
  by_cases hseen : a.Seen ∧ b.Seen
  · rw [hits_iff ha hb hseen.1 hseen.2, hits_iff hb ha hseen.2 hseen.1]
    simp [hseen]
  · -- one of the two tests finds nothing
    have hnone : a.hitCheckArea b = true → b.hitCheckArea a = true → False := fun h h' =>
      hseen ⟨((hitCheckArea_eq ha).1 h').1, ((hitCheckArea_eq hb).1 h).1⟩
    have hmissed (a b : Area) (hb : b.Proper) : Missed a b ↔ ¬a.hitCheckArea b = true := by
      rw [hitCheckArea_eq hb, not_and, Missed]
    rw [Set.inter_comm b.rect, hmissed a b hb, hmissed b a ha]
    constructor
    · rintro ⟨hab, hba⟩
      have hapart : ¬(a.rect ∩ b.rect).Nonempty := fun h => hnone (hab.2 h) (hba.2 h)
      exact ⟨fun h => absurd h hseen, fun _ => ⟨hapart, fun h => hapart (hab.1 h), fun h => hapart (hba.1 h)⟩⟩
    · rintro ⟨-, h⟩
      obtain ⟨hapart, hab, hba⟩ := h hseen
      exact ⟨iff_of_false hab hapart, iff_of_false hba hapart⟩

/-- Two squares, the second one on the lower side of the first one. -/
theorem hitCheckArea_below :
    ((hitCheckArea ⟨0, 0, 100, 100⟩ ⟨0, 99, 100, 100⟩ = true ↔
        (rect ⟨0, 0, 100, 100⟩ ∩ rect ⟨0, 99, 100, 100⟩).Nonempty) ∧
      hitCheckArea ⟨0, 0, 100, 100⟩ ⟨0, 99, 100, 100⟩ = hitCheckArea ⟨0, 99, 100, 100⟩ ⟨0, 0, 100, 100⟩) := by
  have hwrap : wrap 100 = 100 := by decide
  refine (hitCheckArea_iff (by decide) (by decide)).2
    ⟨fun _ => ⟨fun _ => ⟨fun _ => ?_, fun h => ?_⟩, fun _ => ⟨fun _ => ?_, fun h => ?_⟩⟩, fun h => ?_⟩
  · exact iff_of_true ⟨0, by simp [xs], by simp [xs]⟩ (.inr (.inr (by simp [xs, hwrap])))
  · exact absurd (.inr (by simp [ys, hwrap])) h
  · exact iff_of_true ⟨0, by simp [xs], by simp [xs]⟩ (.inl (by simp [xs, ys]))
  · exact absurd (.inl (by simp [ys])) h
  · exact absurd (by decide) h

/-- The second area has a corner of the first one inside, which is looked for in another place. -/
theorem not_hitCheckArea_corner :
    ¬∀ a b : Area, a.Proper → b.Proper →
      ((a.hitCheckArea b = true ↔ (a.rect ∩ b.rect).Nonempty) ∧ a.hitCheckArea b = b.hitCheckArea a) := by
  intro h
  obtain ⟨hhits, -⟩ := h ⟨10, 0, 5, 5⟩ ⟨12, 2, 10, 10⟩ (by decide) (by decide)
  have hmiss : ¬hitCheckArea ⟨10, 0, 5, 5⟩ ⟨12, 2, 10, 10⟩ = true := by decide
  exact hmiss (hhits.2 ⟨(15, 5), by simp [rect, xs, ys], by simp [rect, xs, ys]⟩)

end Area

end LeftFelt
