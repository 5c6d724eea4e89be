import LeftFelt.Image.BiImage
import LeftFelt.Lib.Least
import LeftFelt.Lib.Rounding

/-!
# Template matching

`ImageUtil::TemplateMatching` tries a template at every position where it overlaps the image, and more, and
`ImageUtil::Matching` scores it at one position. Both walk the template and charge each of its pixels for its
difference from the image below it; they skip the transparent pixels, those of the clear colour.

A pixel of the clear colour reads as `Pixel()`, and is then compared with the clear colour again. So it is recognised as
transparent if the clear colour is `Pixel()` itself (`recognised_iff`), the default; under any other clear colour it is
taken for a black pixel. `templateMatching_iff` and `matching_unseen_iff` say what follows.
-/

namespace LeftFelt.ImageUtil

open Lib BiImage

/-! ## The code -/

/-- `255*3*temp.Width()*temp.Height()` is computed without overflow. -/
def Fits (temp : BiImage) : Prop := 255 * 3 * temp.width < 2 ^ 31 ∧ 255 * 3 * temp.width * temp.height < 2 ^ 31

instance (temp : BiImage) : Decidable (Fits temp) := inferInstanceAs (Decidable (_ ∧ _))

/-- `temp.Get(k,l) == temp.Clear()`. -/
def recognised (temp : BiImage) (q : Nat × Nat) : Bool := (temp.get q.1 q.2).eq temp.clearColor

/-- `(i+k) >= image.Width() || (j+l) >= image.Height() || (i+k) < 0 || (j+l) < 0`. A sum that is no `int` lies outside,
and what is left of it in 32 bits does too. -/
def outside (image : BiImage) (p : Int × Int) (q : Nat × Nat) : Bool :=
  p.1 + q.1 ≥ image.width ∨ p.2 + q.2 ≥ image.height ∨ p.1 + q.1 < 0 ∨ p.2 + q.2 < 0

/-- The body of the loops over the template, at the position `p`: `count` and `valid_num`. A transparent pixel is
charged by `TemplateMatching`, not by `Matching`. -/
def matchPixel (image temp : BiImage) (charge : Int) (p : Int × Int) (q : Nat × Nat) (s : Int × Int) : Int × Int :=
  if recognised temp q then (s.1 + charge, s.2)
  else if outside image p q then (s.1 + 255 * 3, s.2)
  else (s.1 + (image.get (p.1 + q.1) (p.2 + q.2)).diff (temp.get q.1 q.2), s.2 + 1)

/-- The loops over the template. -/
def matchPixels (image temp : BiImage) (charge : Int) (p : Int × Int) : Int × Int :=
  forEach temp.width temp.height (fun k l => matchPixel image temp charge p (k, l)) (0, 0)

/-- The body of the loops over the positions: `min` and `pt`. -/
def matchAt (image temp : BiImage) (threshold : Int) (s : Int × (Int × Int)) (p : Int × Int) : Int × (Int × Int) :=
  let (count, validNum) := matchPixels image temp (255 * 3) p
  let max := 255 * 3 * validNum
  if s.1 > count ∧ (Float.Model.ofInt threshold ≤
      Float.Model.ofInt (max - count) / Float.Model.ofInt max * Float.Model.ofInt 100 ∨ threshold = -1) then (count, p)
  else s

/-- `TemplateMatching(image, temp, threshold)`, and `none` if `max` overflows. -/
def templateMatching (image temp : BiImage) (threshold : Int) : Option (Int × Int) :=
  if ¬Fits temp then none
  else if image.width < temp.width ∨ image.height < temp.height then some (0, 0)
  else
    some (forEach (temp.width + image.width) (temp.height + image.height)
      (fun i j s => matchAt image temp threshold s (i - temp.width, j - temp.height))
      (255 * 3 * temp.width * temp.height, (0, 0))).2

/-- `Matching(image, x, y, temp)`, and `none` if `max` overflows, or the last line divides by zero: the cast of what
comes out is undefined. -/
def matching (image : BiImage) (x y : Int) (temp : BiImage) : Option Int :=
  if ¬Fits temp then none
  else if image.width < temp.width ∨ image.height < temp.height then some 0
  else
    let (count, validNum) := matchPixels image temp 0 (x, y)
    let max := 255 * 3 * validNum
    if max = 0 then none else some (Binary64.percent (max - count) max)

/-! ## Transparent pixels -/

/-- A pixel of the template that has the clear colour. -/
def Transparent (temp : BiImage) (q : Nat × Nat) : Prop := temp.clearColor.eq (temp.px q) = true

instance (temp : BiImage) : DecidablePred (Transparent temp) := fun q =>
  inferInstanceAs (Decidable (temp.clearColor.eq (temp.px q) = true))

variable {image temp : BiImage} {q : Nat × Nat} {p : Int × Int}

theorem get_transparent (hq : temp.Inside q) (h : Transparent temp q) : temp.get q.1 q.2 = Pixel.init :=
  (get_inside hq).trans (if_pos h)

theorem get_solid (hq : temp.Inside q) (h : ¬Transparent temp q) : temp.get q.1 q.2 = temp.px q :=
  (get_inside hq).trans (if_neg h)

/-- **A pixel of the clear colour is recognised under the default clear colour only.** -/
theorem recognised_iff (hq : temp.Inside q) :
    recognised temp q = true ↔ temp.clearColor = Pixel.init ∧ Transparent temp q := by
  by_cases h : Transparent temp q
  · rw [recognised, get_transparent hq h]
    simp only [h, and_true]
    constructor
    · intro heq
      exact Pixel.eq_init_of_empty (Pixel.eq_iff.1 heq).1.symm
    · intro heq
      rw [heq]
      rfl
  · rw [recognised, get_solid hq h]
    simp only [h, and_false, iff_false]
    intro heq
    obtain ⟨he, hr, hg, hb⟩ := Pixel.eq_iff.1 heq
    exact h (Pixel.eq_iff.2 ⟨he.symm, hr.symm, hg.symm, hb.symm⟩)

/-! ## What the loops add up -/

/-- The cost of one pixel of the template, those of `clear` at the price `charge`. -/
def pixelCost (clear : Nat × Nat → Bool) (charge : Int) (image temp : BiImage) (p : Int × Int) (q : Nat × Nat) : Int :=
  if clear q then charge
  else if outside image p q then 255 * 3
  else (image.get (p.1 + q.1) (p.2 + q.2)).diff (temp.get q.1 q.2)

/-- The cost of a position. -/
def cost (clear : Nat × Nat → Bool) (charge : Int) (image temp : BiImage) (p : Int × Int) : Int :=
  ((grid temp).map (pixelCost clear charge image temp p)).sum

/-- The pixels of the template that are compared with one of the image. -/
def compared (image temp : BiImage) (p : Int × Int) : List (Nat × Nat) :=
  (grid temp).filter fun q => !recognised temp q && !outside image p q

theorem foldl_matchPixel (charge : Int) (l : List (Nat × Nat)) (s : Int × Int) :
    l.foldl (fun s q => matchPixel image temp charge p q s) s =
      (s.1 + (l.map (pixelCost (recognised temp) charge image temp p)).sum,
        s.2 + (l.filter fun q => !recognised temp q && !outside image p q).length) := by
  induction l generalizing s with
  | nil => simp
  | cons q l ih =>
    rw [List.foldl_cons, ih, List.map_cons, List.sum_cons]
    by_cases hr : recognised temp q
    · simp [matchPixel, pixelCost, hr, add_assoc]
    · by_cases ho : outside image p q
      · simp [matchPixel, pixelCost, hr, ho, add_assoc]
      · simp [matchPixel, pixelCost, hr, ho]
        omega

/-- **The loops compute the cost**, with the pixels recognised as transparent, and count the pixels compared. -/
theorem matchPixels_eq (image temp : BiImage) (charge : Int) (p : Int × Int) :
    matchPixels image temp charge p =
      (cost (recognised temp) charge image temp p, ((compared image temp p).length : Int)) := by
  rw [matchPixels, forEach_eq, ← grid, foldl_matchPixel]
  simp [cost, compared]

variable {clear : Nat × Nat → Bool} {charge : Int}

theorem pixelCost_nonneg (hcharge : 0 ≤ charge) (q : Nat × Nat) : 0 ≤ pixelCost clear charge image temp p q := by
  unfold pixelCost
  split_ifs
  · exact hcharge
  · norm_num
  · exact Pixel.diff_nonneg _ _

theorem sum_pixelCost_nonneg (hcharge : 0 ≤ charge) (l : List (Nat × Nat)) :
    0 ≤ (l.map (pixelCost clear charge image temp p)).sum := by
  apply List.sum_nonneg
  simp only [List.mem_map, forall_exists_index, and_imp, forall_apply_eq_imp_iff₂]
  exact fun q _ => pixelCost_nonneg hcharge q

theorem cost_eq_zero (hcharge : 0 ≤ charge) :
    cost clear charge image temp p = 0 ↔ ∀ q, temp.Inside q → pixelCost clear charge image temp p q = 0 := by
  have key : ∀ l : List (Nat × Nat), (l.map (pixelCost clear charge image temp p)).sum = 0 ↔
      ∀ q ∈ l, pixelCost clear charge image temp p q = 0 := by
    intro l
    induction l with
    | nil => simp
    | cons q l ih =>
      have hq : 0 ≤ pixelCost clear charge image temp p q := pixelCost_nonneg hcharge q
      have hl : 0 ≤ (l.map (pixelCost clear charge image temp p)).sum := sum_pixelCost_nonneg hcharge l
      rw [List.map_cons, List.sum_cons, List.forall_mem_cons, ← ih]
      omega
  rw [cost, key]
  simp only [mem_grid]

/-- The cost depends on the price of the pixels alone. -/
theorem cost_congr {clear' : Nat × Nat → Bool} {charge' : Int} {image' : BiImage}
    (h : ∀ q, temp.Inside q → pixelCost clear charge image temp p q = pixelCost clear' charge' image' temp p q) :
    cost clear charge image temp p = cost clear' charge' image' temp p := by
  unfold cost
  congr 1
  exact List.map_congr_left fun q hq => h q (mem_grid.1 hq)

/-! ## The best position -/

/-- The order in which positions are tried. -/
def Before (p q : Int × Int) : Prop := p.2 < q.2 ∨ p.2 = q.2 ∧ p.1 < q.1

instance (p q : Int × Int) : Decidable (Before p q) := inferInstanceAs (Decidable (_ ∨ _))

/-- The positions that are tried. -/
def positions (image temp : BiImage) : List (Int × Int) :=
  (raster 0 (temp.width + image.width) 0 (temp.height + image.height)).map fun q =>
    ((q.1 : Int) - temp.width, (q.2 : Int) - temp.height)

theorem mem_positions : p ∈ positions image temp ↔
    (-temp.width ≤ p.1 ∧ p.1 < image.width) ∧ -temp.height ≤ p.2 ∧ p.2 < image.height := by
  obtain ⟨x, y⟩ := p
  simp only [positions, List.mem_map, mem_raster, Prod.mk.injEq, Prod.exists]
  constructor
  · rintro ⟨a, b, hab, rfl, rfl⟩
    omega
  · rintro ⟨hx, hy⟩
    exact ⟨(x + temp.width).toNat, (y + temp.height).toNat, by omega, by omega, by omega⟩

theorem positions_pairwise (image temp : BiImage) : (positions image temp).Pairwise Before := by
  rw [positions, List.pairwise_map]
  refine (raster_pairwise _ _ _ _).imp fun {a b} h => ?_
  simp only [RasterLt, Before] at h ⊢
  omega

/-- The price of the whole template. -/
def maxCost (temp : BiImage) : Int := 255 * 3 * temp.width * temp.height

/-- **The scan over the positions** without a threshold. -/
theorem templateMatching_spec (hfits : Fits temp) (hw : temp.width ≤ image.width) (hh : temp.height ≤ image.height) :
    ∃ pt, templateMatching image temp (-1) = some pt ∧
      ((pt = (0, 0) ∧ ∀ p ∈ positions image temp, maxCost temp ≤ cost (recognised temp) (255 * 3) image temp p) ∨
        cost (recognised temp) (255 * 3) image temp pt < maxCost temp ∧
          FirstLeast (cost (recognised temp) (255 * 3) image temp) Before (positions image temp) pt) := by
  have hat : matchAt image temp (-1) = keepLess (cost (recognised temp) (255 * 3) image temp) := by
    funext s p
    simp only [matchAt, matchPixels_eq, keepLess, or_true, and_true]
  have hscan : templateMatching image temp (-1) = some ((positions image temp).foldl
      (keepLess (cost (recognised temp) (255 * 3) image temp)) (maxCost temp, (0, 0))).2 := by
    rw [templateMatching, if_neg (not_not.2 hfits), if_neg (by omega), forEach_eq, hat, positions, List.foldl_map]
    rfl
  rw [hscan]
  refine ⟨_, rfl, ?_⟩
  rcases foldl_keepLess (cost (recognised temp) (255 * 3) image temp) (positions_pairwise image temp) (maxCost temp)
    (0, 0) with ⟨heq, hall⟩ | ⟨p, heq, hlt, hp⟩
  · rw [heq]
    exact .inl ⟨rfl, hall⟩
  · rw [heq]
    exact .inr ⟨hlt, hp⟩

/-- The cost that the caller expects: every pixel of the clear colour is charged, wherever it lies. -/
def templateCost (image temp : BiImage) : Int × Int → Int :=
  cost (fun q => decide (Transparent temp q)) (255 * 3) image temp

/-- The template occurs at `p`: inside the image, and equal in every channel (`Pixel.diff_eq_zero`). -/
def Occurs (image temp : BiImage) (p : Int × Int) : Prop :=
  ∀ q, temp.Inside q → outside image p q = false ∧
    (image.get (p.1 + q.1) (p.2 + q.2)).diff (temp.get q.1 q.2) = 0

/-- The position that the caller expects: the first one of least cost, or the origin if all cost as much as the whole
template; where an opaque template occurs, a place where it does. -/
structure Best (image temp : BiImage) (pt : Int × Int) : Prop where
  least : (∃ p ∈ positions image temp, templateCost image temp p < maxCost temp) →
    FirstLeast (templateCost image temp) Before (positions image temp) pt
  none : (∀ p ∈ positions image temp, maxCost temp ≤ templateCost image temp p) → pt = (0, 0)
  exact : (∀ q, temp.Inside q → ¬Transparent temp q) → (∃ p, Occurs image temp p) → Occurs image temp pt

/-- Every pixel of the clear colour is recognised. -/
def ClearSeen (temp : BiImage) : Prop := temp.clearColor = Pixel.init ∨ ∀ q, temp.Inside q → ¬Transparent temp q

theorem recognised_of_clearSeen (h : ClearSeen temp) (hq : temp.Inside q) :
    recognised temp q = decide (Transparent temp q) := by
  rw [Bool.eq_iff_iff, recognised_iff hq, decide_eq_true_iff]
  rcases h with h | h
  · simp only [h, true_and]
  · simp only [h q hq, and_false]

theorem occurs_of_cost_eq_zero (hsolid : ∀ q, temp.Inside q → ¬Transparent temp q)
    (h : templateCost image temp p = 0) : Occurs image temp p := by
  intro q hq
  have hcost := (cost_eq_zero (by norm_num)).1 h q hq
  simp only [pixelCost, hsolid q hq, decide_false, Bool.false_eq_true, if_false] at hcost
  split_ifs at hcost with ho
  · norm_num at hcost
  · exact ⟨by simpa using ho, hcost⟩

theorem cost_eq_zero_of_occurs (hsolid : ∀ q, temp.Inside q → ¬Transparent temp q) (h : Occurs image temp p) :
    templateCost image temp p = 0 := by
  refine (cost_eq_zero (by norm_num)).2 fun q hq => ?_
  simp only [pixelCost, hsolid q hq, decide_false, Bool.false_eq_true, if_false, h q hq]

/-- Where the template has pixels, it occurs at positions that are tried. -/
theorem mem_positions_of_occurs (hpos : temp.Inside (0, 0)) (h : Occurs image temp p) : p ∈ positions image temp := by
  have hin := (h (0, 0) hpos).1
  simp only [outside, decide_eq_false_iff_not, not_or, not_lt, not_le, Nat.cast_zero, add_zero, ge_iff_le] at hin
  rw [mem_positions]
  omega

theorem best_of_clearSeen (hfits : Fits temp) (hclear : ClearSeen temp) (hw : temp.width ≤ image.width)
    (hh : temp.height ≤ image.height) : ∃ pt, templateMatching image temp (-1) = some pt ∧ Best image temp pt := by
  obtain ⟨pt, hpt, hspec⟩ := templateMatching_spec hfits hw hh
  have hcost : cost (recognised temp) (255 * 3) image temp = templateCost image temp := by
    funext p
    refine cost_congr fun q hq => ?_
    simp only [pixelCost, recognised_of_clearSeen hclear hq]
  rw [hcost] at hspec
  refine ⟨pt, hpt, ?_, ?_, ?_⟩
  · rintro ⟨p, hp, hlt⟩
    rcases hspec with ⟨-, hall⟩ | ⟨-, hfirst⟩
    · exact absurd hlt (not_lt.2 (hall p hp))
    · exact hfirst
  · intro hall
    rcases hspec with ⟨h0, -⟩ | ⟨hlt, hfirst⟩
    · exact h0
    · exact absurd hlt (not_lt.2 (hall pt hfirst.mem))
  · rintro hsolid ⟨p, hp⟩
    by_cases hpos : temp.Inside (0, 0)
    · -- the cost of an occurrence is nothing, so the least cost is nothing
      have hp0 := cost_eq_zero_of_occurs hsolid hp
      have hmem := mem_positions_of_occurs hpos hp
      have hmax : 0 < maxCost temp := by
        have hW : (0 : Int) < temp.width := by exact_mod_cast hpos.1
        have hH : (0 : Int) < temp.height := by exact_mod_cast hpos.2
        unfold maxCost
        positivity
      rcases hspec with ⟨-, hall⟩ | ⟨-, hfirst⟩
      · have := hall p hmem
        omega
      · have hle := hfirst.least p hmem
        have hge : 0 ≤ templateCost image temp pt := sum_pixelCost_nonneg (by norm_num) _
        exact occurs_of_cost_eq_zero hsolid (by omega)
    · intro q hq
      exact absurd ⟨Nat.zero_lt_of_lt hq.1, Nat.zero_lt_of_lt hq.2⟩ hpos

/-- The colour of a pixel of the template, and `color` for a transparent one. -/
def shown (color : Pixel) (temp : BiImage) (q : Nat × Nat) : Pixel :=
  if Transparent temp q then color
  else Pixel.rgb (temp.get q.1 q.2).red (temp.get q.1 q.2).green (temp.get q.1 q.2).blue

/-- The template twice, side by side: left on white, right on black. -/
def twice (temp : BiImage) (hfits : Fits temp) : BiImage :=
  ofFn (2 * temp.width) temp.height (by have := hfits.1; omega) temp.height_lt fun x y =>
    if x < temp.width then shown (Pixel.gray 255) temp (x, y) else shown (Pixel.gray 0) temp (x - temp.width, y)

theorem frame_twice (hfits : Fits temp) :
    (twice temp hfits).width = 2 * temp.width ∧ (twice temp hfits).height = temp.height :=
  ⟨(sameFrame_ofFn _ _ _ _ _).width, (sameFrame_ofFn _ _ _ _ _).height⟩

theorem get_twice (hfits : Fits temp) (hq : temp.Inside q) :
    (twice temp hfits).get ((0 : Int) + q.1) ((0 : Int) + q.2) = shown (Pixel.gray 255) temp q ∧
      (twice temp hfits).get ((temp.width : Int) + q.1) ((0 : Int) + q.2) = shown (Pixel.gray 0) temp q := by
  obtain ⟨hx, hy⟩ := hq
  have hshown : ∀ color q, color.empty = false → (shown color temp q).empty = false := fun color q h => by
    unfold shown
    split_ifs
    · exact h
    · rfl
  have hempty : ∀ x y, (if x < temp.width then shown (Pixel.gray 255) temp (x, y)
      else shown (Pixel.gray 0) temp (x - temp.width, y)).empty = false := fun x y => by
    split_ifs
    · exact hshown _ _ rfl
    · exact hshown _ _ rfl
  rw [zero_add, zero_add, ← Nat.cast_add, twice, get_ofFn _ _ (by omega) hy (hempty _ _),
    get_ofFn _ _ (by omega) hy (hempty _ _), if_pos hx, if_neg (by omega), Nat.add_sub_cancel_left]
  exact ⟨rfl, rfl⟩

theorem diff_shown (hq : temp.Inside q) : (shown (Pixel.gray 0) temp q).diff (temp.get q.1 q.2) = 0 := by
  unfold shown
  split_ifs with h
  · rw [get_transparent hq h]
    rfl
  · rw [Pixel.diff_eq_zero]
    exact ⟨rfl, rfl, rfl⟩

theorem outside_twice (hfits : Fits temp) (hq : temp.Inside q) :
    outside (twice temp hfits) (0, 0) q = false ∧ outside (twice temp hfits) (temp.width, 0) q = false := by
  obtain ⟨hx, hy⟩ := hq
  simp only [outside, frame_twice hfits, decide_eq_false_iff_not]
  push_cast
  omega

/-- **A decoy**: where a transparent pixel is not recognised, the template on black is preferred. -/
theorem not_best_twice (hfits : Fits temp) (hclear : temp.clearColor ≠ Pixel.init) {q₀ : Nat × Nat}
    (hq₀ : temp.Inside q₀) (ht₀ : Transparent temp q₀) {pt : Int × Int}
    (hpt : templateMatching (twice temp hfits) temp (-1) = some pt) : ¬Best (twice temp hfits) temp pt := by
  obtain ⟨hwidth, hheight⟩ := frame_twice hfits
  have hrec : ∀ q, temp.Inside q → recognised temp q = false := fun q hq => by
    rw [← Bool.not_eq_true, recognised_iff hq]
    exact fun h => hclear h.1
  have hpos : temp.Inside (0, 0) := ⟨Nat.zero_lt_of_lt hq₀.1, Nat.zero_lt_of_lt hq₀.2⟩
  have hmax : 0 < maxCost temp := by
    have hW : (0 : Int) < temp.width := by exact_mod_cast hpos.1
    have hH : (0 : Int) < temp.height := by exact_mod_cast hpos.2
    unfold maxCost
    positivity
  -- the code finds a position that costs nothing
  have hright : cost (recognised temp) (255 * 3) (twice temp hfits) temp (temp.width, 0) = 0 := by
    refine (cost_eq_zero (by norm_num)).2 fun q hq => ?_
    simp only [pixelCost, hrec q hq, (outside_twice hfits hq).2, (get_twice hfits hq).2, diff_shown hq,
      Bool.false_eq_true, if_false]
  have hmem : ((temp.width : Int), (0 : Int)) ∈ positions (twice temp hfits) temp := by
    obtain ⟨hx, hy⟩ := hpos
    rw [mem_positions, hwidth, hheight]
    push_cast
    omega
  have hw : temp.width ≤ (twice temp hfits).width := by omega
  have hh : temp.height ≤ (twice temp hfits).height := by omega
  obtain ⟨pt', hpt', hspec⟩ := templateMatching_spec hfits hw hh
  obtain rfl : pt' = pt := Option.some.inj (hpt'.symm.trans hpt)
  have hzero : cost (recognised temp) (255 * 3) (twice temp hfits) temp pt' = 0 := by
    have hge : 0 ≤ cost (recognised temp) (255 * 3) (twice temp hfits) temp pt' :=
      sum_pixelCost_nonneg (by norm_num) _
    rcases hspec with ⟨-, hall⟩ | ⟨-, hfirst⟩
    · have := hall _ hmem
      omega
    · have := hfirst.least _ hmem
      omega
  have hpixel := fun q hq => (cost_eq_zero (by norm_num)).1 hzero q hq
  -- it comes after the origin, in the same row
  have hfree : ∀ q, temp.Inside q → outside (twice temp hfits) pt' q = false := fun q hq => by
    by_contra hout
    have h := hpixel q hq
    simp only [pixelCost, hrec q hq, Bool.not_eq_false _ ▸ hout, Bool.false_eq_true, if_false, if_true] at h
    norm_num at h
  have hrow : 0 ≤ pt'.1 ∧ pt'.2 = 0 := by
    have h1 := hfree (0, 0) hpos
    have h2 := hfree (0, temp.height - 1) ⟨hpos.1, by have := hpos.2; omega⟩
    have hy := hpos.2
    simp only [outside, hwidth, hheight, decide_eq_false_iff_not] at h1 h2
    push_cast at h1 h2
    omega
  have hne : pt' ≠ (0, 0) := by
    rintro rfl
    have h := hpixel q₀ hq₀
    simp only [pixelCost, hrec q₀ hq₀, (outside_twice hfits hq₀).1, (get_twice hfits hq₀).1,
      get_transparent hq₀ ht₀, shown, if_pos ht₀, Bool.false_eq_true, if_false] at h
    exact absurd h (by decide)
  -- the origin costs as little as any position
  have horigin : templateCost (twice temp hfits) temp (0, 0) ≤ templateCost (twice temp hfits) temp pt' := by
    refine List.sum_le_sum fun q hq => ?_
    have hq' := mem_grid.1 hq
    by_cases ht : Transparent temp q
    · simp only [pixelCost, ht, decide_true, if_true, le_refl]
    · have hcheap : pixelCost (fun q => decide (Transparent temp q)) (255 * 3) (twice temp hfits) temp (0, 0) q = 0 := by
        simp only [pixelCost, ht, decide_false, Bool.false_eq_true, if_false, (outside_twice hfits hq').1,
          (get_twice hfits hq').1, shown]
        rw [Pixel.diff_eq_zero]
        exact ⟨rfl, rfl, rfl⟩
      rw [hcheap]
      exact pixelCost_nonneg (by norm_num) q
  have hmem0 : ((0 : Int), (0 : Int)) ∈ positions (twice temp hfits) temp := by
    obtain ⟨hx, hy⟩ := hpos
    rw [mem_positions, hwidth, hheight]
    push_cast
    omega
  intro hbest
  by_cases hex : ∃ p ∈ positions (twice temp hfits) temp, templateCost (twice temp hfits) temp p < maxCost temp
  · have hfirst := hbest.least hex
    rcases hfirst.first _ hmem0 (le_antisymm horigin (hfirst.least _ hmem0)) with heq | hbefore
    · exact hne heq.symm
    · simp only [Before] at hbefore
      omega
  · push Not at hex
    exact hne (hbest.none hex)

/-- **Where template matching finds the best place.** For the templates that fit and whose transparent pixels are
recognised, and for no others, it does so in every image. -/
theorem templateMatching_iff (temp : BiImage) :
    (∀ image : BiImage, temp.width ≤ image.width → temp.height ≤ image.height →
      ∃ pt, templateMatching image temp (-1) = some pt ∧ Best image temp pt) ↔ Fits temp ∧ ClearSeen temp := by
  constructor
  · intro hall
    have hfits : Fits temp := by
      by_contra hnot
      obtain ⟨pt, hpt, -⟩ := hall temp le_rfl le_rfl
      rw [templateMatching, if_pos hnot] at hpt
      cases hpt
    refine ⟨hfits, ?_⟩
    by_contra hseen
    simp only [ClearSeen, not_or, not_forall, not_not] at hseen
    obtain ⟨hclear, q, hq, ht⟩ := hseen
    obtain ⟨hwidth, hheight⟩ := frame_twice hfits
    obtain ⟨pt, hpt, hbest⟩ := hall (twice temp hfits) (by omega) (by omega)
    exact not_best_twice hfits hclear hq ht hpt hbest
  · rintro ⟨hfits, hclear⟩ image hw hh
    exact best_of_clearSeen hfits hclear hw hh

/-- One white pixel, white being the clear colour. -/
def clearWhite : BiImage := (ofFn 1 1 one_fits one_fits fun _ _ => Pixel.gray 255).setClear (Pixel.gray 255)

/-- A white pixel and a black one. -/
def whiteBlack : BiImage := ofFn 2 1 two_fits one_fits fun x _ => if x = 0 then Pixel.gray 255 else Pixel.gray 0

/-- The template that is all transparent is found on the black pixel. -/
theorem not_best_whiteBlack :
    ¬∃ pt, templateMatching whiteBlack clearWhite (-1) = some pt ∧ Best whiteBlack clearWhite pt := by
  rintro ⟨pt, hpt, hbest⟩
  have hcode : templateMatching whiteBlack clearWhite (-1) = some (1, 0) := by decide +kernel
  obtain rfl : (1, 0) = pt := Option.some.inj (hcode.symm.trans hpt)
  have hall : ∀ p ∈ positions whiteBlack clearWhite, maxCost clearWhite ≤ templateCost whiteBlack clearWhite p := by
    decide +kernel
  exact absurd (hbest.none hall) (by decide)

/-! ## The score does not see what is under transparent pixels -/

/-- The position of a pixel of the template in the image. -/
def under (p : Int × Int) (q : Nat × Nat) : Int × Int := (p.1 + q.1, p.2 + q.2)

/-- Two images of one size that differ at most under transparent pixels of the template. -/
structure AgreeOff (temp : BiImage) (p : Int × Int) (image image' : BiImage) : Prop where
  width : image.width = image'.width
  height : image.height = image'.height
  agree : ∀ r : Nat × Nat, image.Inside r →
    (∀ q, temp.Inside q → Transparent temp q → under p q ≠ ((r.1 : Int), (r.2 : Int))) →
    image.get r.1 r.2 = image'.get r.1 r.2

theorem inside_of_not_outside (h : outside image p q = false) :
    ∃ r : Nat × Nat, image.Inside r ∧ under p q = ((r.1 : Int), (r.2 : Int)) := by
  simp only [outside, decide_eq_false_iff_not] at h
  refine ⟨((p.1 + q.1).toNat, (p.2 + q.2).toNat), ?_, ?_⟩
  · constructor
    · show (p.1 + q.1).toNat < image.width
      omega
    · show (p.2 + q.2).toNat < image.height
      omega
  · refine Prod.ext ?_ ?_
    · show p.1 + q.1 = ((p.1 + q.1).toNat : Int)
      omega
    · show p.2 + q.2 = ((p.2 + q.2).toNat : Int)
      omega

variable {image' : BiImage}

theorem outside_congr (h : AgreeOff temp p image image') (q : Nat × Nat) :
    outside image p q = outside image' p q := by
  simp only [outside, h.width, h.height]

/-- Such images give every recognised template the same sums. -/
theorem matchPixels_congr (hclear : ClearSeen temp) (h : AgreeOff temp p image image') :
    matchPixels image temp 0 p = matchPixels image' temp 0 p := by
  have hcost : cost (recognised temp) 0 image temp p = cost (recognised temp) 0 image' temp p := by
    refine cost_congr fun q hq => ?_
    rw [pixelCost, pixelCost, ← outside_congr h, recognised_of_clearSeen hclear hq]
    by_cases ht : Transparent temp q
    · simp [ht]
    by_cases hout : outside image p q = true
    · simp [ht, hout]
    -- an opaque pixel inside: no other pixel of the template lies there
    obtain ⟨r, hr, hunder⟩ := inside_of_not_outside (Bool.not_eq_true _ ▸ hout)
    have hagree := h.agree r hr fun q' _ ht' heq => by
      rw [← hunder] at heq
      simp only [under, Prod.mk.injEq] at heq
      obtain rfl : q' = q := Prod.ext (by omega) (by omega)
      exact ht ht'
    simp only [under, Prod.mk.injEq] at hunder
    simp only [ht, hout, decide_false, Bool.false_eq_true, if_false, hunder.1, hunder.2, hagree]
  have hcompared : compared image temp p = compared image' temp p := by
    simp only [compared, outside_congr h]
  rw [matchPixels_eq, matchPixels_eq, hcost, hcompared]

/-- The template on `color`. -/
def onColor (color : Pixel) (temp : BiImage) : BiImage :=
  ofFn temp.width temp.height temp.width_lt temp.height_lt fun x y => shown color temp (x, y)

theorem frame_onColor (color : Pixel) (temp : BiImage) :
    (onColor color temp).width = temp.width ∧ (onColor color temp).height = temp.height :=
  ⟨(sameFrame_ofFn _ _ _ _ _).width, (sameFrame_ofFn _ _ _ _ _).height⟩

theorem get_onColor {color : Pixel} (hcolor : color.empty = false) (hq : temp.Inside q) :
    (onColor color temp).get q.1 q.2 = shown color temp q := by
  refine get_ofFn _ _ hq.1 hq.2 ?_
  unfold shown
  split_ifs
  · exact hcolor
  · rfl

theorem agreeOff_onColor {color color' : Pixel} (h : color.empty = false) (h' : color'.empty = false) :
    AgreeOff temp (0, 0) (onColor color temp) (onColor color' temp) := by
  obtain ⟨hwidth, hheight⟩ := frame_onColor color temp
  obtain ⟨hwidth', hheight'⟩ := frame_onColor color' temp
  refine ⟨by omega, by omega, fun r hr hoff => ?_⟩
  have hr' : temp.Inside r := ⟨by rw [← hwidth]; exact hr.1, by rw [← hheight]; exact hr.2⟩
  have ht : ¬Transparent temp r := fun ht => hoff r hr' ht (by simp [under])
  rw [get_onColor h hr', get_onColor h' hr', shown, shown, if_neg ht, if_neg ht]

/-- The price of a pixel that is not recognised, in these images. -/
theorem pixelCost_onColor {color : Pixel} (hcolor : color.empty = false) (hclear : temp.clearColor ≠ Pixel.init)
    (hq : temp.Inside q) : pixelCost (recognised temp) 0 (onColor color temp) temp (0, 0) q =
      if Transparent temp q then color.diff Pixel.init else 0 := by
  have hrec : recognised temp q = false := by
    rw [← Bool.not_eq_true, recognised_iff hq]
    exact fun h => hclear h.1
  have hout : outside (onColor color temp) (0, 0) q = false := by
    obtain ⟨hx, hy⟩ := hq
    simp only [outside, frame_onColor, decide_eq_false_iff_not]
    omega
  simp only [pixelCost, hrec, hout, Bool.false_eq_true, if_false, zero_add, get_onColor hcolor hq, shown]
  split_ifs with ht
  · rw [get_transparent hq ht]
  · rw [Pixel.diff_eq_zero]
    exact ⟨rfl, rfl, rfl⟩

theorem compared_onColor {color : Pixel} (hclear : temp.clearColor ≠ Pixel.init) :
    compared (onColor color temp) temp (0, 0) = grid temp := by
  refine List.filter_eq_self.2 fun q hq => ?_
  have hq' := mem_grid.1 hq
  have hrec : recognised temp q = false := by
    rw [← Bool.not_eq_true, recognised_iff hq']
    exact fun h => hclear h.1
  have hout : outside (onColor color temp) (0, 0) q = false := by
    obtain ⟨hx, hy⟩ := hq'
    simp only [outside, frame_onColor, decide_eq_false_iff_not]
    omega
  simp only [hrec, hout, Bool.not_false, Bool.and_self]

theorem pixelCost_le (hcharge : charge ≤ 255 * 3) (q : Nat × Nat) :
    pixelCost clear charge image temp p q ≤ 255 * 3 := by
  unfold pixelCost
  split_ifs
  · exact hcharge
  · exact le_rfl
  · exact Pixel.diff_le _ _

theorem cost_le (hcharge : charge ≤ 255 * 3) :
    cost clear charge image temp p ≤ 255 * 3 * (temp.width * temp.height : Nat) := by
  have hle := List.sum_le_card_nsmul ((grid temp).map (pixelCost clear charge image temp p)) (255 * 3) (by
    simp only [List.mem_map, forall_exists_index, and_imp, forall_apply_eq_imp_iff₂]
    exact fun q _ => pixelCost_le hcharge q)
  rw [List.length_map, length_grid, nsmul_eq_mul, mul_comm] at hle
  exact hle

theorem length_compared_le (image temp : BiImage) (p : Int × Int) :
    (compared image temp p).length ≤ temp.width * temp.height := by
  rw [← length_grid]
  exact List.length_filter_le _ _

/-- The score of a template that fits. -/
theorem matching_eq (hfits : Fits temp) (hw : temp.width ≤ image.width) (hh : temp.height ≤ image.height) (x y : Int) :
    matching image x y temp =
      if compared image temp (x, y) = [] then none
      else some (Binary64.percent
        (255 * 3 * (compared image temp (x, y)).length - cost (recognised temp) 0 image temp (x, y))
        (255 * 3 * (compared image temp (x, y)).length)) := by
  simp only [matching, matchPixels_eq]
  rw [if_neg (not_not.2 hfits), if_neg (by omega)]
  refine if_congr ?_ rfl rfl
  rw [← List.length_eq_zero_iff]
  omega

/-- **Where the score sees a transparent pixel**: the template on black is like the template, on white it is not. -/
theorem matching_onColor (hfits : Fits temp) (hclear : temp.clearColor ≠ Pixel.init) {q₀ : Nat × Nat}
    (hq₀ : temp.Inside q₀) (ht₀ : Transparent temp q₀) :
    matching (onColor (Pixel.gray 0) temp) 0 0 temp ≠ matching (onColor (Pixel.gray 255) temp) 0 0 temp := by
  have hframe := fun color => frame_onColor color temp
  have hne : grid temp ≠ [] := List.ne_nil_of_mem (mem_grid.2 hq₀)
  have hblack : cost (recognised temp) 0 (onColor (Pixel.gray 0) temp) temp (0, 0) = 0 := by
    refine (cost_eq_zero le_rfl).2 fun q hq => ?_
    rw [pixelCost_onColor rfl hclear hq]
    split_ifs
    · rfl
    · rfl
  have hwhite : cost (recognised temp) 0 (onColor (Pixel.gray 255) temp) temp (0, 0) ≠ 0 := by
    intro hzero
    have h := (cost_eq_zero le_rfl).1 hzero q₀ hq₀
    rw [pixelCost_onColor rfl hclear hq₀, if_pos ht₀] at h
    exact absurd h (by decide)
  have hge : 0 ≤ cost (recognised temp) 0 (onColor (Pixel.gray 255) temp) temp (0, 0) := sum_pixelCost_nonneg le_rfl _
  have hle : cost (recognised temp) 0 (onColor (Pixel.gray 255) temp) temp (0, 0) ≤ _ := cost_le (by norm_num)
  have hpos : 0 < temp.width * temp.height := Nat.mul_pos (Nat.zero_lt_of_lt hq₀.1) (Nat.zero_lt_of_lt hq₀.2)
  have hmax : 255 * 3 * (temp.width * temp.height) < 2 ^ 31 := by
    rw [← mul_assoc]
    exact hfits.2
  have hlt := Binary64.percent_lt
    (a := 255 * 3 * (temp.width * temp.height : Nat) -
      cost (recognised temp) 0 (onColor (Pixel.gray 255) temp) temp (0, 0))
    (b := 255 * 3 * (temp.width * temp.height : Nat)) (by omega) (by omega) (by omega)
  rw [matching_eq hfits (by rw [(hframe _).1]) (by rw [(hframe _).2]),
    matching_eq hfits (by rw [(hframe _).1]) (by rw [(hframe _).2]), compared_onColor hclear, compared_onColor hclear,
    if_neg hne, if_neg hne, hblack, sub_zero, length_grid, Binary64.percent_self (by omega) (by omega)]
  intro heq
  have := Option.some.inj heq
  omega

/-- **When transparent pixels do not matter**: for the templates whose transparent pixels are recognised, and no others
that fit. -/
theorem matching_unseen_iff (temp : BiImage) :
    (∀ (x y : Int) (image image' : BiImage), AgreeOff temp (x, y) image image' →
      matching image x y temp = matching image' x y temp) ↔ (Fits temp → ClearSeen temp) := by
  constructor
  · intro hall hfits
    by_contra hseen
    simp only [ClearSeen, not_or, not_forall, not_not] at hseen
    obtain ⟨hclear, q, hq, ht⟩ := hseen
    exact matching_onColor hfits hclear hq ht (hall 0 0 _ _ (agreeOff_onColor rfl rfl))
  · intro hseen x y image image' hagree
    by_cases hfits : Fits temp
    · simp only [matching, hagree.width, hagree.height, matchPixels_congr (hseen hfits) hagree]
    · rw [matching, matching, if_pos hfits, if_pos hfits]

/-- A white pixel against the white pixel that is transparent: taken for black. -/
theorem not_unseen_clearWhite :
    ¬∀ (x y : Int) (image image' : BiImage), AgreeOff clearWhite (x, y) image image' →
      matching image x y clearWhite = matching image' x y clearWhite := by
  intro hall
  have hagree : AgreeOff clearWhite (0, 0) (onColor (Pixel.gray 0) clearWhite) (onColor (Pixel.gray 255) clearWhite) :=
    agreeOff_onColor rfl rfl
  have hblack : matching (onColor (Pixel.gray 0) clearWhite) 0 0 clearWhite = some 100 := by decide +kernel
  have hwhite : matching (onColor (Pixel.gray 255) clearWhite) 0 0 clearWhite = some 0 := by decide +kernel
  have heq := hall 0 0 _ _ hagree
  rw [hblack, hwhite] at heq
  exact absurd heq (by decide)

/-! ## The score as a percentage -/

/-- The pixels of the template that count as opaque and lie outside the image. -/
def missed (image temp : BiImage) (p : Int × Int) : List (Nat × Nat) :=
  (grid temp).filter fun q => !recognised temp q && outside image p q

/-- The summed differences of the opaque pixels that lie inside. -/
def difference (image temp : BiImage) (p : Int × Int) : Int :=
  ((compared image temp p).map fun q => (image.get (p.1 + q.1) (p.2 + q.2)).diff (temp.get q.1 q.2)).sum

/-- Some opaque pixel lies inside, and not many outside: the differences, with 765 for each of those, stay below 101
percent of 765 for each of the pixels inside. -/
structure Scorable (image temp : BiImage) (p : Int × Int) : Prop where
  inside : compared image temp p ≠ []
  few : 100 * (difference image temp p + 255 * 3 * (missed image temp p).length) <
    101 * (255 * 3 * (compared image temp p).length)

/-- The score is a percentage, and 100 only if every opaque pixel lies inside and is matched. -/
def Percentage (image : BiImage) (x y : Int) (temp : BiImage) : Prop :=
  ∃ s, matching image x y temp = some s ∧ (0 ≤ s ∧ s ≤ 100) ∧
    (s = 100 → ∀ q, temp.Inside q → ¬Transparent temp q → outside image (x, y) q = false ∧
      (image.get (x + q.1) (y + q.2)).diff (temp.get q.1 q.2) = 0)

/-- The cost, by the pixels inside and those outside. -/
theorem cost_eq (image temp : BiImage) (p : Int × Int) :
    cost (recognised temp) 0 image temp p = difference image temp p + 255 * 3 * (missed image temp p).length := by
  rw [cost, difference, compared, missed]
  induction grid temp with
  | nil => simp
  | cons q l ih =>
    rw [List.map_cons, List.sum_cons, ih]
    by_cases hr : recognised temp q
    · simp [pixelCost, hr]
    · by_cases ho : outside image p q
      · simp [pixelCost, hr, ho]
        ring
      · simp [pixelCost, hr, ho, add_assoc]

/-- **When the score is a percentage.** -/
theorem matching_percentage_iff (image temp : BiImage) (x y : Int) (hw : temp.width ≤ image.width)
    (hh : temp.height ≤ image.height) :
    Percentage image x y temp ↔ Fits temp ∧ Scorable image temp (x, y) := by
  by_cases hfits : Fits temp
  swap
  · simp only [hfits, false_and, iff_false]
    rintro ⟨s, hs, -⟩
    rw [matching, if_pos hfits] at hs
    cases hs
  by_cases hempty : compared image temp (x, y) = []
  · constructor
    · rintro ⟨s, hs, -⟩
      rw [matching_eq hfits hw hh, if_pos hempty] at hs
      cases hs
    · exact fun h => absurd hempty h.2.inside
  have hscore := matching_eq hfits hw hh x y
  rw [if_neg hempty] at hscore
  have hn : 0 < (compared image temp (x, y)).length := List.length_pos_iff.2 hempty
  have hge : 0 ≤ cost (recognised temp) 0 image temp (x, y) := sum_pixelCost_nonneg le_rfl _
  have hle : cost (recognised temp) 0 image temp (x, y) ≤ _ := cost_le (by norm_num)
  have hcompared := length_compared_le image temp (x, y)
  have hmax : 255 * 3 * (temp.width * temp.height) < 2 ^ 31 := by
    rw [← mul_assoc]
    exact hfits.2
  obtain ⟨h100, hall, hnonneg⟩ := Binary64.percent_sub
    (b := 255 * 3 * (compared image temp (x, y)).length) (c := cost (recognised temp) 0 image temp (x, y))
    (by omega) (by omega) hge (by omega) (by omega)
  constructor
  · rintro ⟨s, hs, ⟨h0, -⟩, -⟩
    rw [hscore] at hs
    rw [← Option.some.inj hs, hnonneg, cost_eq] at h0
    exact ⟨hfits, hempty, h0⟩
  · rintro ⟨-, -, hfew⟩
    rw [← cost_eq] at hfew
    refine ⟨_, hscore, ⟨hnonneg.2 hfew, h100⟩, fun heq q hq ht => ?_⟩
    -- a score of 100 leaves no cost at any pixel
    have hpixel := (cost_eq_zero le_rfl).1 (hall.1 heq) q hq
    have hrec : recognised temp q = false := by
      rw [← Bool.not_eq_true, recognised_iff hq]
      exact fun h => ht h.2
    simp only [pixelCost, hrec, Bool.false_eq_true, if_false] at hpixel
    split_ifs at hpixel with hout
    · norm_num at hpixel
    · exact ⟨by simpa using hout, hpixel⟩

/-- A checkerboard. -/
def checkered : BiImage :=
  ofFn 3 2 three_fits two_fits fun x y => if (x + y) % 2 = 0 then Pixel.gray 255 else Pixel.gray 0

/-- Half of a black square matches it. -/
theorem percentage_half : matching checkered 1 0 (ofFn 2 2 two_fits two_fits fun _ _ => Pixel.gray 0) = some 50 ∧
    Percentage checkered 1 0 (ofFn 2 2 two_fits two_fits fun _ _ => Pixel.gray 0) :=
  ⟨by decide +kernel, (matching_percentage_iff checkered _ 1 0 (by decide) (by decide)).2
    ⟨by decide, by decide +kernel, by decide +kernel⟩⟩

/-- Two white pixels. -/
def whitePair : BiImage := ofFn 2 1 two_fits one_fits fun _ _ => Pixel.gray 255

/-- Two black pixels. -/
def blackPair : BiImage := ofFn 2 1 two_fits one_fits fun _ _ => Pixel.gray 0

/-- At the right edge one pixel does not match, and one lies outside. -/
theorem not_percentage_edge : ¬Percentage whitePair 1 0 blackPair := by
  rintro ⟨s, hs, ⟨h0, -⟩, -⟩
  have hcode : matching whitePair 1 0 blackPair = some (-100) := by decide +kernel
  obtain rfl : -100 = s := Option.some.inj (hcode.symm.trans hs)
  norm_num at h0

end LeftFelt.ImageUtil
