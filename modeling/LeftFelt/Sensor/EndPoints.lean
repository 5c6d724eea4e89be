import LeftFelt.Image.Access
import LeftFelt.Sensor.Hand

/-!
# End points

`ImageUtil::getConnectedNum` counts the white pixels around a pixel, and `getNodeList` lists the pixels where this
number is the one asked for. The neighbours are read through `Get`, which wraps around at the border, so that a white
pixel on one side counts on the opposite side as well (`nodesListed_iff`).
-/

namespace LeftFelt.ImageUtil

open Lib BiImage

/-! ## Neighbours -/

variable {image : BiImage} {p : Nat × Nat}

/-- The values of `(i, j)`, in the order of the loops. -/
def directions : List (Int × Int) := offsets.flatMap fun j => offsets.map fun i => (i, j)

/-- The pixel is `Pixel(0)`. -/
def Black (image : BiImage) (p : Nat × Nat) : Prop := (image.px p).eq (Pixel.gray 0) = true

instance (image : BiImage) (p : Nat × Nat) : Decidable (Black image p) := inferInstanceAs (Decidable (_ = _))

/-- A white pixel of the image at integer coordinates. -/
def WhiteAt (image : BiImage) (x y : Int) : Prop :=
  (0 ≤ x ∧ x < image.width) ∧ (0 ≤ y ∧ y < image.height) ∧ White image (x.toNat, y.toNat)

instance (image : BiImage) (x y : Int) : Decidable (WhiteAt image x y) := inferInstanceAs (Decidable (_ ∧ _))

/-- The number of white pixels among the neighbours that lie in the image. -/
def whiteNeighbours (image : BiImage) (p : Nat × Nat) : Nat :=
  directions.countP fun d => d ≠ (0, 0) ∧ WhiteAt image (p.1 + d.1) (p.2 + d.2)

/-- `Get` reads something else than `Pixel(0)`. -/
def Seen (image : BiImage) (x y : Int) : Prop := ¬(image.get x y).eq (Pixel.gray 0) = true

instance (image : BiImage) (x y : Int) : Decidable (Seen image x y) := inferInstanceAs (Decidable (¬_))

theorem mem_directions {d : Int × Int} : d ∈ directions ↔ (-1 ≤ d.1 ∧ d.1 ≤ 1) ∧ -1 ≤ d.2 ∧ d.2 ≤ 1 := by
  obtain ⟨i, j⟩ := d
  simp only [directions, offsets, List.mem_flatMap, List.mem_map, List.mem_cons, List.not_mem_nil, or_false,
    Prod.mk.injEq]
  constructor
  · rintro ⟨b, hb, a, ha, rfl, rfl⟩
    omega
  · rintro ⟨hi, hj⟩
    exact ⟨j, by omega, i, by omega, rfl, rfl⟩

/-- The loops count what `Get` does not read as `Pixel(0)`. -/
theorem getConnectedNum_eq (image : BiImage) (x y : Int) : getConnectedNum image x y =
    directions.countP fun d => d ≠ (0, 0) ∧ Seen image (x + d.1) (y + d.2) := by
  have key : ∀ (l : List (Int × Int)) (s : Nat), l.foldl (fun count d =>
      if d.1 = 0 ∧ d.2 = 0 then count
      else if (image.get (x + d.1) (y + d.2)).eq (Pixel.gray 0) then count
      else count + 1) s = s + l.countP fun d => d ≠ (0, 0) ∧ Seen image (x + d.1) (y + d.2) := by
    intro l
    induction l with
    | nil => simp
    | cons d l ih =>
      intro s
      rw [List.foldl_cons, ih, List.countP_cons]
      have hzero : d = (0, 0) ↔ d.1 = 0 ∧ d.2 = 0 := Prod.ext_iff
      by_cases hd : d.1 = 0 ∧ d.2 = 0
      · simp [hd, hzero]
      · by_cases hseen : (image.get (x + d.1) (y + d.2)).eq (Pixel.gray 0) = true
        · simp [hd, hzero, hseen, Seen]
        · simp [hd, hzero, hseen, Seen]
          ring
  have hall := key directions 0
  rw [zero_add] at hall
  rw [← hall, directions, List.foldl_flatMap]
  simp only [List.foldl_map]
  rfl

/-- Of two counts the smaller one reaches the larger one only if nothing is missing. -/
theorem countP_eq_iff {α : Type*} {P Q : α → Bool} {l : List α} (h : ∀ a ∈ l, Q a = true → P a = true) :
    l.countP P = l.countP Q ↔ ∀ a ∈ l, P a = true → Q a = true := by
  induction l with
  | nil => simp
  | cons a l ih =>
    have hmono := List.countP_mono_left fun b hb => h b (List.mem_cons_of_mem a hb)
    have hih := ih fun b hb => h b (List.mem_cons_of_mem a hb)
    have ha := h a List.mem_cons_self
    rw [List.countP_cons, List.countP_cons, List.forall_mem_cons, ← hih]
    cases hP : P a <;> cases hQ : Q a <;> simp_all
    omega

/-! ## The border -/

/-- In the first or last row or column. -/
def Border (image : BiImage) (p : Nat × Nat) : Prop :=
  (p.1 = 0 ∨ p.1 + 1 = image.width) ∨ p.2 = 0 ∨ p.2 + 1 = image.height

instance (image : BiImage) (p : Nat × Nat) : Decidable (Border image p) := inferInstanceAs (Decidable (_ ∨ _))

variable {d : Int × Int} {x y : Int}

/-- The coordinates lie in the image. -/
def InRange (image : BiImage) (x y : Int) : Prop := (0 ≤ x ∧ x < image.width) ∧ 0 ≤ y ∧ y < image.height

theorem cell_of_inRange (hin : InRange image x y) : cell image x y = (x.toNat, y.toNat) := by
  obtain ⟨⟨hx, hxw⟩, hy, hyh⟩ := hin
  rw [cell, Int.emod_eq_of_lt hx hxw, Int.emod_eq_of_lt hy hyh]

/-- A coordinate one step outside wraps around to the other end. -/
theorem emod_step {n : Nat} {a : Int} (hlo : -1 ≤ a) (hhi : a ≤ n) (hn : 1 ≤ n) :
    a % n = if a = -1 then (n : Int) - 1 else if a = n then 0 else a := by
  split_ifs with hneg htop
  · subst hneg
    rw [← Int.add_emod_right, Int.emod_eq_of_lt (by omega) (by omega)]
    ring
  · subst htop
    exact Int.emod_self
  · exact Int.emod_eq_of_lt (by omega) (by omega)

/-- A neighbour outside is read on the border. -/
theorem border_of_outside (hp : image.Inside p) (hd : d ∈ directions) (hout : ¬InRange image (p.1 + d.1) (p.2 + d.2)) :
    Border image (cell image (p.1 + d.1) (p.2 + d.2)) := by
  obtain ⟨hx, hy⟩ := hp
  rw [mem_directions] at hd
  rw [InRange] at hout
  simp only [Border, cell]
  rw [emod_step (by omega) (by omega) (by omega), emod_step (by omega) (by omega) (by omega)]
  split_ifs <;> omega

/-- Every pixel of the border is read as a neighbour from the opposite side. -/
theorem exists_opposite (hp : image.Inside p) (hborder : Border image p) : ∃ q d, image.Inside q ∧ d ∈ directions ∧
    d ≠ (0, 0) ∧ ¬InRange image (q.1 + d.1) (q.2 + d.2) ∧ cell image (q.1 + d.1) (q.2 + d.2) = p := by
  obtain ⟨x, y⟩ := p
  obtain ⟨hx, hy⟩ := hp
  simp only [Border] at hx hy hborder
  have hsame : ∀ {a n : Nat}, a < n → (((a : Int) + 0) % n).toNat = a := fun {a n} h => by
    rw [Int.emod_eq_of_lt (by omega) (by omega)]
    omega
  have hfirst : ∀ {a n : Nat}, a < n → a = 0 → ((((n - 1 : Nat) : Int) + 1) % n).toNat = a := fun {a n} h h0 => by
    rw [emod_step (by omega) (by omega) (by omega), if_neg (by omega), if_pos (by omega), h0, Int.toNat_zero]
  have hlast : ∀ {a n : Nat}, a < n → a + 1 = n → ((((0 : Nat) : Int) + -1) % n).toNat = a := fun {a n} h h1 => by
    rw [emod_step (by omega) (by omega) (by omega), if_pos (by omega)]
    omega
  rcases hborder with (hleft | hright) | htop | hbottom
  · refine ⟨(image.width - 1, y), (1, 0), ⟨by omega, hy⟩, mem_directions.2 (by decide), by decide, ?_,
      Prod.ext (hfirst hx hleft) (hsame hy)⟩
    simp only [InRange]
    omega
  · refine ⟨(0, y), (-1, 0), ⟨by omega, hy⟩, mem_directions.2 (by decide), by decide, ?_,
      Prod.ext (hlast hx hright) (hsame hy)⟩
    simp only [InRange]
    omega
  · refine ⟨(x, image.height - 1), (0, 1), ⟨hx, by omega⟩, mem_directions.2 (by decide), by decide, ?_,
      Prod.ext (hsame hx) (hfirst hy htop)⟩
    simp only [InRange]
    omega
  · refine ⟨(x, 0), (0, -1), ⟨hx, by omega⟩, mem_directions.2 (by decide), by decide, ?_,
      Prod.ext (hsame hx) (hlast hy hbottom)⟩
    simp only [InRange]
    omega

/-- Next to a pixel `Get` reads the wrapped coordinate. -/
theorem seen_cell (hp : image.Inside p) (hd : d ∈ directions) : Seen image (p.1 + d.1) (p.2 + d.2) ↔
    Seen image (cell image (p.1 + d.1) (p.2 + d.2)).1 (cell image (p.1 + d.1) (p.2 + d.2)).2 := by
  have hw : 0 < image.width := Nat.zero_lt_of_lt hp.1
  have hh : 0 < image.height := Nat.zero_lt_of_lt hp.2
  rw [mem_directions] at hd
  have haccess : Accesses image (p.1 + d.1) (p.2 + d.2) :=
    accesses_of_near hw hh (.inl (by omega)) (.inl (by omega))
  rw [Seen, Seen, haccess.get_eq hw hh]

/-! ## What `Get` shows -/

theorem not_black_and_white (hblack : Black image p) (hwhite : White image p) : False := by
  rw [Black, Pixel.eq_iff] at hblack
  rw [White, Pixel.eq_iff] at hwhite
  exact absurd (hblack.2.1.symm.trans hwhite.2.1) (by decide)

theorem seen_of_white (hp : image.Inside p) (hwhite : White image p) : Seen image p.1 p.2 := by
  rw [Seen, get_eq_viewed hp, viewed]
  split_ifs with hclear
  · decide
  · exact fun hblack => not_black_and_white hblack hwhite

/-- Unless black is transparent, what is not white is not seen. -/
theorem white_of_seen (hclear : image.clearColor.eq (Pixel.gray 0) = false) (hp : image.Inside p)
    (hbinary : Black image p ∨ White image p) (hseen : Seen image p.1 p.2) : White image p := by
  refine hbinary.resolve_left fun hblack => ?_
  rw [Seen, get_eq_viewed hp, viewed] at hseen
  split_ifs at hseen with hsame
  · rw [Black, Pixel.eq_iff] at hblack
    rw [Pixel.eq_iff] at hsame
    rw [← Bool.not_eq_true, Pixel.eq_iff] at hclear
    exact hclear ⟨hsame.1.trans hblack.1, hsame.2.1.trans hblack.2.1, hsame.2.2.1.trans hblack.2.2.1,
      hsame.2.2.2.trans hblack.2.2.2⟩
  · exact hseen hblack

/-- If black is transparent, everything is seen. -/
theorem seen_of_clear (hclear : image.clearColor.eq (Pixel.gray 0) = true) (x y : Int) : Seen image x y := by
  unfold Seen BiImage.get
  split_ifs with hsame
  · decide
  · intro hblack
    rw [Pixel.eq_iff] at hclear hblack hsame
    exact hsame ⟨hclear.1.trans hblack.1.symm, hclear.2.1.trans hblack.2.1.symm, hclear.2.2.1.trans hblack.2.2.1.symm,
      hclear.2.2.2.trans hblack.2.2.2.symm⟩

/-! ## The counts -/

theorem whiteAt_iff : WhiteAt image x y ↔ InRange image x y ∧ White image (x.toNat, y.toNat) := and_assoc.symm

theorem seen_of_whiteAt (h : WhiteAt image x y) : Seen image x y := by
  obtain ⟨⟨⟨hx, hxw⟩, hy, hyh⟩, hwhite⟩ := whiteAt_iff.1 h
  have hseen := seen_of_white (p := (x.toNat, y.toNat)) ⟨by omega, by omega⟩ hwhite
  rwa [Int.toNat_of_nonneg hx, Int.toNat_of_nonneg hy] at hseen

/-- A pixel's neighbours are counted right if those that are seen lie in the image and are white. -/
theorem connectedNum_iff (image : BiImage) (p : Nat × Nat) :
    getConnectedNum image p.1 p.2 = whiteNeighbours image p ↔ ∀ d ∈ directions, d ≠ (0, 0) →
      Seen image (p.1 + d.1) (p.2 + d.2) → WhiteAt image (p.1 + d.1) (p.2 + d.2) := by
  have hle : ∀ d ∈ directions, decide (d ≠ (0, 0) ∧ WhiteAt image (p.1 + d.1) (p.2 + d.2)) = true →
      decide (d ≠ (0, 0) ∧ Seen image (p.1 + d.1) (p.2 + d.2)) = true := fun d _ h => by
    rw [decide_eq_true_eq] at h ⊢
    exact ⟨h.1, seen_of_whiteAt h.2⟩
  rw [getConnectedNum_eq, whiteNeighbours, countP_eq_iff hle]
  refine forall₂_congr fun d _ => ?_
  rw [decide_eq_true_eq, decide_eq_true_eq]
  exact ⟨fun h hne hseen => (h ⟨hne, hseen⟩).2, fun h hseen => ⟨hseen.1, h hseen.1 hseen.2⟩⟩

/-- **When every pixel's neighbours are counted right.** -/
theorem counted_iff (hbinary : ∀ p, image.Inside p → Black image p ∨ White image p) :
    (∀ p, image.Inside p → getConnectedNum image p.1 p.2 = whiteNeighbours image p) ↔
      ∀ p, image.Inside p → image.clearColor.eq (Pixel.gray 0) = false ∧ (Border image p → Black image p) := by
  simp only [connectedNum_iff]
  constructor
  · intro hcount p hp
    refine ⟨?_, fun hborder => (hbinary p hp).resolve_right fun hwhite => ?_⟩
    · -- if black were transparent, the pixel to the left of the first one would count
      by_contra hclear
      have horigin : image.Inside (0, 0) := ⟨Nat.zero_lt_of_lt hp.1, Nat.zero_lt_of_lt hp.2⟩
      have hleft := hcount (0, 0) horigin (-1, 0) (mem_directions.2 (by decide)) (by decide)
        (seen_of_clear (Bool.not_eq_false _ ▸ hclear) _ _)
      exact absurd hleft.1.1 (by decide)
    · -- a white pixel of the border counts on the opposite side
      obtain ⟨q, d, hq, hd, hne, hout, hcell⟩ := exists_opposite hp hborder
      have hseen : Seen image (q.1 + d.1) (q.2 + d.2) := by
        rw [seen_cell hq hd, hcell]
        exact seen_of_white hp hwhite
      exact hout (whiteAt_iff.1 (hcount q hq d hd hne hseen)).1
  · intro hborder p hp d hd _ hseen
    have hin : image.Inside (cell image (p.1 + d.1) (p.2 + d.2)) :=
      inside_cell (Nat.zero_lt_of_lt hp.1) (Nat.zero_lt_of_lt hp.2) _ _
    have hwhite := white_of_seen (hborder p hp).1 hin (hbinary _ hin) ((seen_cell hp hd).1 hseen)
    by_cases hrange : InRange image (p.1 + d.1) (p.2 + d.2)
    · rw [cell_of_inRange hrange] at hwhite
      exact whiteAt_iff.2 ⟨hrange, hwhite⟩
    · exact (not_black_and_white ((hborder _ hin).2 (border_of_outside hp hd hrange)) hwhite).elim

/-! ## The list -/

/-- Neighbours outside of the image do not count, and the end points are listed. -/
structure NodesListed (image : BiImage) : Prop where
  counted : ∀ p, image.Inside p → getConnectedNum image p.1 p.2 = whiteNeighbours image p
  listed : getNodeList image 1 =
    ((grid image).filter fun p => White image p ∧ whiteNeighbours image p = 1).map fun p => ⟨p.1, p.2⟩

/-- The list is filled in the order of the loops. -/
theorem getNodeList_eq (image : BiImage) (n : Nat) : getNodeList image n =
    ((grid image).filter fun p => Seen image p.1 p.2 ∧ getConnectedNum image p.1 p.2 = n).map fun p => ⟨p.1, p.2⟩ := by
  have key : ∀ (l : List (Nat × Nat)) (t : List Point), l.foldl (fun pointList p =>
      if (image.get p.1 p.2).eq (Pixel.gray 0) then pointList
      else if getConnectedNum image p.1 p.2 = n then pointList ++ [⟨p.1, p.2⟩] else pointList) t =
      t ++ (l.filter fun p => Seen image p.1 p.2 ∧ getConnectedNum image p.1 p.2 = n).map fun p => ⟨p.1, p.2⟩ := by
    intro l
    induction l with
    | nil => simp
    | cons p l ih =>
      intro t
      rw [List.foldl_cons, ih]
      by_cases hblack : (image.get p.1 p.2).eq (Pixel.gray 0) = true
      · rw [if_pos hblack, List.filter_cons_of_neg (by rw [decide_eq_true_eq]; exact fun h => h.1 hblack)]
      · rw [if_neg hblack]
        by_cases hcount : getConnectedNum image p.1 p.2 = n
        · rw [if_pos hcount, List.filter_cons_of_pos (by rw [decide_eq_true_eq]; exact ⟨hblack, hcount⟩),
            List.append_assoc, List.singleton_append, List.map_cons]
        · rw [if_neg hcount, List.filter_cons_of_neg (by rw [decide_eq_true_eq]; exact fun h => hcount h.2)]
  rw [getNodeList, forEach_eq]
  exact key (grid image) []

/-- **When the neighbours are counted and the end points listed**: in an image of black and white pixels, if its border
is black and black is not transparent. -/
theorem nodesListed_iff (hbinary : ∀ p, image.Inside p → Black image p ∨ White image p) : NodesListed image ↔
    ∀ p, image.Inside p → image.clearColor.eq (Pixel.gray 0) = false ∧ (Border image p → Black image p) := by
  refine ⟨fun h => (counted_iff hbinary).1 h.counted, fun h => ?_⟩
  have hcount := (counted_iff hbinary).2 h
  refine ⟨hcount, ?_⟩
  rw [getNodeList_eq]
  refine congrArg _ (List.filter_congr fun p hp => ?_)
  have hin := mem_grid.1 hp
  have hseen : Seen image p.1 p.2 ↔ White image p :=
    ⟨white_of_seen (h p hin).1 hin (hbinary p hin), seen_of_white hin⟩
  rw [hcount p hin, decide_eq_decide, hseen]

/-- A line of two pixels inside a black border. -/
def shortLine : BiImage := ofFn 4 3 SensorBarLogic.four_fits three_fits fun x y =>
  if y = 1 ∧ (x = 1 ∨ x = 2) then Pixel.gray 255 else Pixel.gray 0

/-- Both of them are end points. -/
theorem nodesListed_shortLine : NodesListed shortLine := by
  have hall : ∀ x < 4, ∀ y < 3, (Black shortLine (x, y) ∨ White shortLine (x, y)) ∧
      (Border shortLine (x, y) → Black shortLine (x, y)) := by decide +kernel
  have hsize : shortLine.width = 4 ∧ shortLine.height = 3 := by decide
  exact (nodesListed_iff fun p hp => (hall p.1 (hsize.1 ▸ hp.1) p.2 (hsize.2 ▸ hp.2)).1).2 fun p hp =>
    ⟨by decide, (hall p.1 (hsize.1 ▸ hp.1) p.2 (hsize.2 ▸ hp.2)).2⟩

/-- A single white pixel is its own neighbour, on all sides. -/
theorem not_nodesListed_onePixel : ¬NodesListed (ofFn 1 1 one_fits one_fits fun _ _ => Pixel.gray 255) := by
  intro h
  have hcount := h.counted (0, 0) (by decide)
  revert hcount
  decide +kernel

end LeftFelt.ImageUtil
