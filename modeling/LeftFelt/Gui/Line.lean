import LeftFelt.Graph.Graph
import LeftFelt.Image.Paste
import LeftFelt.Lib.CInt
import LeftFelt.Lib.ErrorWalk

/-!
# Lines

A `Line` has two end points. `Draw` walks along the longer side of the line, one pixel after the other. It sums up both
sides, and takes a step along the shorter one whenever that sum is ahead of the other. The sums grow to the product of
the sides. If they leave an `int`, there is no result; else all pixels are where they belong (`draws_iff`).

`Move` moves both ends so that the middle becomes the target, up to the rounding of the middle (`centred_iff_reaches`).
Its sums wrap around.
-/

namespace LeftFelt.Gui

open Lib CInt ErrorWalk
open LeftFelt.Graph (Int32Bits)

/-- `class Line`. -/
structure Line where
  pt0 : Graph.Point
  pt1 : Graph.Point
  mcolor : Pixel

namespace Line

/-! ## The class -/

/-- `Line()`. -/
def init : Line := ⟨⟨0, 0⟩, ⟨0, 0⟩, Pixel.gray 0⟩

/-- `Start(x, y)`. -/
def setStart (l : Line) (x y : Int32Bits) : Line := { l with pt0 := ⟨x, y⟩ }

/-- `End(x, y)`. -/
def setEnd (l : Line) (x y : Int32Bits) : Line := { l with pt1 := ⟨x, y⟩ }

/-- `getStart()`. -/
def getStart (l : Line) : Graph.Point := l.pt0

/-- `getEnd()`. -/
def getEnd (l : Line) : Graph.Point := l.pt1

/-- `getMiddle()`. -/
def getMiddle (l : Line) : Graph.Point := ⟨(l.pt0.x + l.pt1.x).sdiv 2, (l.pt0.y + l.pt1.y).sdiv 2⟩

/-- `Move(x, y)`. -/
def move (l : Line) (x y : Int32Bits) : Line :=
  let cx := x - l.getMiddle.x
  let cy := y - l.getMiddle.y
  { l with
    pt0 := ⟨l.pt0.x + cx, l.pt0.y + cy⟩
    pt1 := ⟨l.pt1.x + cx, l.pt1.y + cy⟩ }

/-- What `Draw` sums up: `Wy` and `Hx`, and the steps along the shorter side. -/
structure Sums where
  along : Int
  across : Int
  aside : Int

/-- A loop of `Draw`, after a pixel. -/
def sumUp (long short : Int) (s : Sums) : Option Sums := do
  let across ← int (s.across + short)
  if (← CInt.abs s.along) < (← CInt.abs across) then
    return ⟨← int (s.along + long), across, ← int (s.aside + 1)⟩
  else
    return ⟨s.along, across, s.aside⟩

variable {σ : Type}

/-- A round of a loop of `Draw`. -/
def drawRound (long short : Int) (put : Int → Int → σ → Option σ) (n : Nat) (s : Sums × σ) : Option (Sums × σ) := do
  let image ← put n s.1.aside s.2
  let sums ← sumUp long short s.1
  let _ ← int (n + 1)
  return (sums, image)

/-- A loop of `Draw`. The two of them differ in which side is the longer one. -/
def drawLoop (long short : Int) (put : Int → Int → σ → Option σ) (image : σ) : Option σ := do
  let length ← CInt.abs long
  let s ← Checked.forLoop 0 (length.toNat + 1) (drawRound long short put) (⟨0, 0, 0⟩, image)
  return s.2

/-- A coordinate, `d` steps from `c` towards the end of the side. -/
def towards (side c d : Int) : Int := if side ≥ 0 then c + d else c - d

/-- Where a pixel is put. -/
def position (l : Line) (W H dx dy : Int) : Option (Int × Int) := do
  return (← int (towards W l.pt0.x.toInt dx), ← int (towards H l.pt0.y.toInt dy))

/-- `Draw(image)`, for any `Put`. -/
def drawBy (l : Line) (put : σ → Int × Int → Option σ) (image : σ) : Option σ := do
  let W ← int (l.pt1.x.toInt - l.pt0.x.toInt)
  let H ← int (l.pt1.y.toInt - l.pt0.y.toInt)
  if (← CInt.abs W) ≥ (← CInt.abs H) then
    drawLoop W H (fun dx dy image => do put image (← l.position W H dx dy)) image
  else
    drawLoop H W (fun dy dx image => do put image (← l.position W H dx dy)) image

/-- `Draw(image)`. -/
def draw (l : Line) (image : BiImage) : Option BiImage :=
  l.drawBy (fun image p => image.store p.1 p.2 l.mcolor) image

/-- The pixels that `Draw` puts, in this order. -/
def pixels (l : Line) : Option (List (Int × Int)) := l.drawBy (fun ps p => some (ps ++ [p])) []

/-! ## What is put -/

/-- Rounds that put their pixels, after those that have been put before. -/
theorem foldlM_drawRound (long short : Int) (pos : Int → Int → Option (Int × Int)) (put : σ → Int × Int → Option σ)
    (image : σ) (ns : List Nat) (sums : Sums) (ps : List (Int × Int)) :
    ((ps.foldlM put image).bind fun image => ns.foldlM (fun s n =>
      drawRound long short (fun dx dy image => (pos dx dy).bind (put image)) n s) (sums, image)) =
    (ns.foldlM (fun s n => drawRound long short (fun dx dy ps => (pos dx dy).bind fun p => some (ps ++ [p])) n s)
      (sums, ps)).bind fun s => (s.2.foldlM put image).bind fun image => some (s.1, image) := by
  induction ns generalizing sums ps with
  | nil => rfl
  | cons n ns ih =>
    simp only [List.foldlM_cons, drawRound, Option.bind_eq_bind, Option.bind_assoc, Option.bind_some, Option.pure_def]
    -- a round that overflows has no result in either loop
    cases hpos : pos n sums.aside with
    | none => simp
    | some p =>
      cases hsums : sumUp long short sums with
      | none => simp
      | some sums' =>
        cases hcount : int (n + 1) with
        | none => simp
        | some m => simpa [drawRound, List.foldlM_append, Option.bind_assoc] using ih sums' (ps ++ [p])

theorem drawLoop_eq (long short : Int) (pos : Int → Int → Option (Int × Int)) (put : σ → Int × Int → Option σ)
    (image : σ) :
    drawLoop long short (fun dx dy image => (pos dx dy).bind (put image)) image =
      (drawLoop long short (fun dx dy ps => (pos dx dy).bind fun p => some (ps ++ [p])) []).bind
        (List.foldlM put image) := by
  simp only [drawLoop, Checked.forLoop, Option.bind_eq_bind, Option.pure_def, Option.bind_assoc]
  refine Option.bind_congr fun length _ => ?_
  have h := foldlM_drawRound long short pos put image (List.range' 0 (length.toNat + 1 - 0)) ⟨0, 0, 0⟩ []
  simp only [List.foldlM_nil, Option.pure_def, Option.bind_some] at h
  rw [h, Option.bind_assoc]
  simp [Option.bind_assoc]

/-- **`Draw` puts these pixels.** -/
theorem draw_eq (l : Line) (image : BiImage) :
    l.draw image = l.pixels.bind (List.foldlM (fun image p => image.store p.1 p.2 l.mcolor) image) := by
  simp only [draw, pixels, drawBy, Option.bind_eq_bind, Option.bind_assoc]
  refine Option.bind_congr fun W _ => Option.bind_congr fun H _ => Option.bind_congr fun absW _ =>
    Option.bind_congr fun absH _ => ?_
  split_ifs
  · exact drawLoop_eq W H (fun dx dy => l.position W H dx dy) _ image
  · exact drawLoop_eq H W (fun dy dx => l.position W H dx dy) _ image

/-! ## A loop -/

section Loop

variable {long short : Int} {n : Nat}

/-- The sums in front of the `n`-th pixel. -/
def sums (long short : Int) (n : Nat) : Sums where
  along := climb short.natAbs long.natAbs n * long
  across := n * short
  aside := climb short.natAbs long.natAbs n

/-- What does not overflow after the `n`-th pixel. -/
structure Fitting (long short : Int) (n : Nat) : Prop where
  across : Fits ((n + 1) * short)
  abs_along : Fits (climb short.natAbs long.natAbs n * long).natAbs
  abs_across : Fits ((n + 1) * short).natAbs
  step : climb short.natAbs long.natAbs n * long.natAbs < (n + 1) * short.natAbs →
    Fits ((climb short.natAbs long.natAbs n + 1) * long) ∧ Fits (climb short.natAbs long.natAbs n + 1)

/-- The comparison of the sums. -/
theorem ahead_iff :
    ((climb short.natAbs long.natAbs n * long).natAbs : Int) < ((n + 1 : Int) * short).natAbs ↔
      climb short.natAbs long.natAbs n * long.natAbs < (n + 1) * short.natAbs := by
  rw [Nat.cast_lt, Int.natAbs_mul, Int.natAbs_mul, Int.natAbs_natCast]
  rfl

/-- **One pixel**, if nothing overflows. -/
theorem sumUp_eq_some_iff (hle : short.natAbs ≤ long.natAbs) (s : Sums) :
    sumUp long short (sums long short n) = some s ↔ Fitting long short n ∧ s = sums long short (n + 1) := by
  have hacross : (n * short + short : Int) = (n + 1) * short := by ring
  have halong (c : Nat) : (c * long + long : Int) = (c + 1) * long := by ring
  have hsucc := climb_succ hle n
  simp only [sumUp, sums, CInt.abs, hacross, halong, Option.bind_eq_bind, int_bind_eq_some, Nat.cast_succ]
  by_cases hif : climb short.natAbs long.natAbs n * long.natAbs < (n + 1) * short.natAbs
  · rw [if_pos hif] at hsucc
    simp only [if_pos (ahead_iff.2 hif), hsucc, int_bind_eq_some, Option.pure_def, Option.some.injEq, Nat.cast_succ]
    constructor
    · rintro ⟨hfits, habs, habs', halong, haside, rfl⟩
      exact ⟨⟨hfits, habs, habs', fun _ => ⟨halong, haside⟩⟩, rfl⟩
    · rintro ⟨⟨hfits, habs, habs', hstep⟩, rfl⟩
      exact ⟨hfits, habs, habs', (hstep hif).1, (hstep hif).2, rfl⟩
  · rw [if_neg hif] at hsucc
    simp only [if_neg (mt ahead_iff.1 hif), hsucc, Option.pure_def, Option.some.injEq]
    constructor
    · rintro ⟨hfits, habs, habs', rfl⟩
      exact ⟨⟨hfits, habs, habs', fun h => absurd h hif⟩, rfl⟩
    · rintro ⟨⟨hfits, habs, habs', -⟩, rfl⟩
      exact ⟨hfits, habs, habs', rfl⟩

/-- **No round overflows.** -/
def Drawable (long short : Int) : Prop :=
  long.natAbs < 2 ^ 31 - 1 ∧ (short = 0 ∨ Fits ((short.natAbs + 1) * long))

instance (long short : Int) : Decidable (Drawable long short) := inferInstanceAs (Decidable (_ ∧ _))

/-- The limit of the type is not the product of two numbers in a row. -/
theorem mul_succ_ne (t : Nat) : t * (t + 1) ≠ 2 ^ 31 := by
  rcases le_or_gt t 46340 with ht | ht
  · have := Nat.mul_le_mul ht (Nat.add_le_add_right ht 1)
    omega
  · have := Nat.mul_le_mul ht (Nat.add_le_add_right ht 1)
    omega

/-- So the sum of the shorter side does not overflow if that of the longer one does not, even if its limit is smaller. -/
theorem Drawable.across_lt (h : Drawable long short) (hle : short.natAbs ≤ long.natAbs) :
    (long.natAbs + 1) * short.natAbs < 2 ^ 31 := by
  obtain ⟨-, rfl | hfits⟩ := h
  · rw [Int.natAbs_zero, mul_zero]
    decide
  · have hlong : (short.natAbs + 1) * long.natAbs ≤ 2 ^ 31 := by
      have := hfits.natAbs_le
      rwa [Int.natAbs_mul] at this
    have hne := mul_succ_ne short.natAbs
    rw [mul_add, mul_one] at hne
    rw [add_mul, one_mul] at hlong ⊢
    rcases hle.lt_or_eq with hlt | heq
    · rw [mul_comm]
      omega
    · rw [← heq] at hlong ⊢
      omega

/-- The largest sums are those after the last pixel, and the sum of the longer side is the larger one. -/
theorem drawable_of_last (hle : short.natAbs ≤ long.natAbs) (hlast : Fitting long short long.natAbs)
    (hcount : Fits (long.natAbs + 1)) : Drawable long short := by
  refine ⟨by rw [Fits] at hcount; omega, or_iff_not_imp_left.2 fun hshort => ?_⟩
  have hstep := hlast.step
  rw [climb_self hle] at hstep
  refine (hstep ?_).1
  have hpos := Int.natAbs_pos.2 hshort
  rw [add_mul, one_mul, mul_comm]
  omega

theorem Drawable.fitting (h : Drawable long short) (hle : short.natAbs ≤ long.natAbs) (hn : n ≤ long.natAbs) :
    Fitting long short n ∧ Fits (n + 1) := by
  have hbound := h.across_lt hle
  obtain ⟨hlong, hshort⟩ := h
  have hclimb := climb_le_height hle hn
  have hacross : ((n + 1 : Int) * short).natAbs < 2 ^ 31 := by
    rw [Int.natAbs_mul]
    exact (Nat.mul_le_mul_right _ (Nat.succ_le_succ hn)).trans_lt hbound
  have halong : (climb short.natAbs long.natAbs n * long).natAbs < 2 ^ 31 := by
    rw [Int.natAbs_mul, Int.natAbs_natCast]
    refine lt_of_le_of_lt ?_ hbound
    rw [mul_comm]
    exact Nat.mul_le_mul (Nat.le_succ _) hclimb
  refine ⟨⟨fits_of_natAbs_lt hacross, fits_natCast halong, fits_natCast hacross, fun hstep => ?_⟩, ?_⟩
  · rcases hshort with rfl | hfits
    · exact absurd hstep (Nat.not_lt_zero _)
    · exact ⟨hfits.mul_le (by omega) (by omega), by rw [Fits]; omega⟩
  · rw [Fits]
    omega

theorem fitting_iff (hle : short.natAbs ≤ long.natAbs) :
    (∀ n < long.natAbs + 1, Fitting long short n ∧ Fits (n + 1)) ↔ Drawable long short := by
  constructor
  · intro h
    obtain ⟨hlast, hcount⟩ := h long.natAbs (Nat.lt_succ_self _)
    exact drawable_of_last hle hlast hcount
  · exact fun h n hn => h.fitting hle (Nat.lt_succ_iff.1 hn)

/-- A round that puts its pixel. -/
theorem drawRound_eq_some_iff (hle : short.natAbs ≤ long.natAbs) {put : Int → Int → σ → Option σ} {image image' : σ}
    (hput : put n (climb short.natAbs long.natAbs n) image = some image') (s : Sums × σ) :
    drawRound long short put n (sums long short n, image) = some s ↔
      (Fitting long short n ∧ Fits (n + 1)) ∧ s = (sums long short (n + 1), image') := by
  have hput' : put n (sums long short n).aside image = some image' := hput
  simp only [drawRound, hput', Option.bind_eq_bind, Option.bind_some]
  rw [Option.bind_eq_some_iff]
  simp only [sumUp_eq_some_iff hle, int_bind_eq_some, Option.pure_def, Option.some.injEq]
  constructor
  · rintro ⟨_, ⟨hfitting, rfl⟩, hcount, rfl⟩
    exact ⟨⟨hfitting, hcount⟩, rfl⟩
  · rintro ⟨⟨hfitting, hcount⟩, rfl⟩
    exact ⟨_, ⟨hfitting, rfl⟩, hcount, rfl⟩

/-- **The loop**: it puts one pixel for each step along the longer side. -/
theorem drawLoop_eq_some_iff (hle : short.natAbs ≤ long.natAbs)
    {put : Int → Int → List (Int × Int) → Option (List (Int × Int))} {p : Nat → Int × Int}
    (hput : ∀ n ≤ long.natAbs, ∀ ps, put n (climb short.natAbs long.natAbs n) ps = some (ps ++ [p n]))
    (ps : List (Int × Int)) :
    drawLoop long short put [] = some ps ↔
      Drawable long short ∧ ps = (List.range (long.natAbs + 1)).map p := by
  have hround : ∀ n < long.natAbs + 1, ∀ s,
      drawRound long short put n (sums long short n, (List.range n).map p) = some s ↔
        (Fitting long short n ∧ Fits (n + 1)) ∧ s = (sums long short (n + 1), (List.range (n + 1)).map p) := by
    intro n hn s
    rw [List.range_succ, List.map_append]
    exact drawRound_eq_some_iff hle (hput n (Nat.lt_succ_iff.1 hn) _) s
  have hrun := Checked.forLoop_eq_some_iff (fun n => (sums long short n, (List.range n).map p)) hround
  have hstart : (sums long short 0, (List.range 0).map p) = (⟨0, 0, 0⟩, []) := by
    simp [sums, climb_zero]
  rw [hstart, fitting_iff hle] at hrun
  simp only [drawLoop, CInt.abs, Option.bind_eq_bind, int_bind_eq_some, Int.toNat_natCast]
  rw [Option.bind_eq_some_iff]
  simp only [hrun, Option.pure_def, Option.some.injEq]
  constructor
  · rintro ⟨-, _, ⟨hdrawable, rfl⟩, rfl⟩
    exact ⟨hdrawable, rfl⟩
  · rintro ⟨hdrawable, rfl⟩
    exact ⟨fits_natCast (hdrawable.1.trans (by decide)), _, ⟨hdrawable, rfl⟩, rfl⟩

end Loop

/-! ## The pixels -/

variable {l : Line} {n : Nat}

/-- `W`, without overflow. -/
def width (l : Line) : Int := l.pt1.x.toInt - l.pt0.x.toInt

/-- `H`, without overflow. -/
def height (l : Line) : Int := l.pt1.y.toInt - l.pt0.y.toInt

/-- The length of the longer side. -/
def length (l : Line) : Nat := max l.width.natAbs l.height.natAbs

/-- **No overflow**: the longer side has less than 2^31 - 1 steps, and its sum stays an `int`. -/
def Bounded (l : Line) : Prop :=
  if l.height.natAbs ≤ l.width.natAbs then Drawable l.width l.height else Drawable l.height l.width

instance (l : Line) : Decidable l.Bounded :=
  inferInstanceAs (Decidable (if l.height.natAbs ≤ l.width.natAbs then _ else Drawable l.height l.width))

/-- The `n`-th pixel. -/
def pixel (l : Line) (n : Nat) : Int × Int :=
  if l.height.natAbs ≤ l.width.natAbs then
    (towards l.width l.pt0.x.toInt n, towards l.height l.pt0.y.toInt (climb l.height.natAbs l.width.natAbs n))
  else
    (towards l.width l.pt0.x.toInt (climb l.width.natAbs l.height.natAbs n), towards l.height l.pt0.y.toInt n)

/-- The coordinates on the way are no larger than those of the ends. -/
theorem fits_towards (a b : Int32Bits) {d : Nat} (hd : d ≤ (b.toInt - a.toInt).natAbs) :
    Fits (towards (b.toInt - a.toInt) a.toInt d) := by
  refine (fits_toInt a).between (fits_toInt b) ?_ ?_
  · rw [towards]
    split_ifs <;> omega
  · rw [towards]
    split_ifs <;> omega

/-- A pixel is put. -/
theorem put_eq {dx dy : Nat} (hx : dx ≤ l.width.natAbs) (hy : dy ≤ l.height.natAbs) (ps : List (Int × Int)) :
    ((l.position l.width l.height dx dy).bind fun p => some (ps ++ [p])) =
      some (ps ++ [(towards l.width l.pt0.x.toInt dx, towards l.height l.pt0.y.toInt dy)]) := by
  have hfits : Fits (towards l.width l.pt0.x.toInt dx) := fits_towards _ _ hx
  have hfits' : Fits (towards l.height l.pt0.y.toInt dy) := fits_towards _ _ hy
  rw [position, int_of_fits hfits, int_of_fits hfits']
  rfl

/-- The differences fit into an `int` if they are bounded. -/
theorem fits_sides (h : l.length < 2 ^ 31) :
    Fits l.width ∧ Fits l.height ∧ Fits l.width.natAbs ∧ Fits l.height.natAbs := by
  obtain ⟨hwidth, hheight⟩ := max_lt_iff.1 h
  exact ⟨fits_of_natAbs_lt hwidth, fits_of_natAbs_lt hheight, fits_natCast hwidth, fits_natCast hheight⟩

/-- **The pixels of `Draw`**, and when it has a result. -/
theorem pixels_eq_some_iff (ps : List (Int × Int)) :
    l.pixels = some ps ↔ l.Bounded ∧ ps = (List.range (l.length + 1)).map l.pixel := by
  have hwidth : l.pt1.x.toInt - l.pt0.x.toInt = l.width := rfl
  have hheight : l.pt1.y.toInt - l.pt0.y.toInt = l.height := rfl
  simp only [pixels, drawBy, hwidth, hheight, CInt.abs, Option.bind_eq_bind, int_bind_eq_some, ge_iff_le, Nat.cast_le]
  by_cases hflat : l.height.natAbs ≤ l.width.natAbs
  · have hlength : l.length = l.width.natAbs := max_eq_left hflat
    have hpixel : l.pixel = fun n : Nat => (towards l.width l.pt0.x.toInt n,
      towards l.height l.pt0.y.toInt (climb l.height.natAbs l.width.natAbs n)) := funext fun n => if_pos hflat
    rw [if_pos hflat, Bounded, if_pos hflat, hpixel,
      drawLoop_eq_some_iff hflat fun n hn ps => put_eq hn (climb_le_height hflat hn) ps]
    refine ⟨fun h => hlength ▸ h.2.2.2.2, fun h => ?_⟩
    obtain ⟨hW, hH, hW', hH'⟩ := fits_sides (hlength ▸ h.1.1.trans (by decide))
    exact ⟨hW, hH, hW', hH', hlength ▸ h⟩
  · have hsteep : l.width.natAbs ≤ l.height.natAbs := le_of_not_ge hflat
    have hlength : l.length = l.height.natAbs := max_eq_right hsteep
    have hpixel : l.pixel = fun n : Nat => (towards l.width l.pt0.x.toInt (climb l.width.natAbs l.height.natAbs n),
      towards l.height l.pt0.y.toInt n) := funext fun n => if_neg hflat
    rw [if_neg hflat, Bounded, if_neg hflat, hpixel,
      drawLoop_eq_some_iff hsteep fun n hn ps => put_eq (climb_le_height hsteep hn) hn ps]
    refine ⟨fun h => hlength ▸ h.2.2.2.2, fun h => ?_⟩
    obtain ⟨hW, hH, hW', hH'⟩ := fits_sides (hlength ▸ h.1.1.trans (by decide))
    exact ⟨hW, hH, hW', hH', hlength ▸ h⟩

/-! ## The law -/

/-- Two different pixels, one of the eight neighbours of the other. -/
def Touching (p q : Int × Int) : Prop := p ≠ q ∧ (p.1 - q.1).natAbs ≤ 1 ∧ (p.2 - q.2).natAbs ≤ 1

/-- **The pixels of the line**, from its start to its end. -/
structure IsLine (l : Line) (ps : List (Int × Int)) : Prop where
  length : ps.length = l.length + 1
  first : ps.head? = some (l.pt0.x.toInt, l.pt0.y.toInt)
  last : ps.getLast? = some (l.pt1.x.toInt, l.pt1.y.toInt)
  touching : ps.IsChain Touching
  nth : ∀ n < ps.length, ps[n]? = some (
    if l.height.natAbs ≤ l.width.natAbs then
      (l.pt0.x.toInt + l.width.sign * n,
        l.pt0.y.toInt + l.height.sign * ⌈(n * l.height.natAbs : ℚ) / l.width.natAbs⌉)
    else
      (l.pt0.x.toInt + l.width.sign * ⌈(n * l.width.natAbs : ℚ) / l.height.natAbs⌉,
        l.pt0.y.toInt + l.height.sign * n))

theorem towards_zero (side c : Int) : towards side c (0 : Nat) = c := by
  rw [towards]
  split_ifs <;> simp

/-- All steps lead to the end. -/
theorem towards_natAbs (a b : Int) : towards (b - a) a (b - a).natAbs = b := by
  rw [towards]
  split_ifs <;> omega

theorem towards_eq_sign {side : Int} {d : Nat} (hd : d ≤ side.natAbs) (c : Int) :
    towards side c d = c + side.sign * d := by
  rw [towards]
  rcases lt_trichotomy side 0 with hside | rfl | hside
  · rw [if_neg hside.not_ge, Int.sign_eq_neg_one_of_neg hside]
    ring
  · rw [Int.natAbs_zero, Nat.le_zero] at hd
    rw [hd, if_pos le_rfl]
    rfl
  · rw [if_pos hside.le, Int.sign_eq_one_of_pos hside]
    ring

theorem towards_succ_ne (side c : Int) (d : Nat) : towards side c d ≠ towards side c (d + 1 : Nat) := by
  rw [towards, towards]
  split_ifs <;> omega

theorem towards_step {d d' : Nat} (h : d' = d ∨ d' = d + 1) (side c : Int) :
    (towards side c d - towards side c d').natAbs ≤ 1 := by
  rw [towards, towards]
  split_ifs <;> omega

theorem pixel_zero (l : Line) : l.pixel 0 = (l.pt0.x.toInt, l.pt0.y.toInt) := by
  rw [pixel, climb_zero, climb_zero, towards_zero, towards_zero]
  exact ite_self _

theorem pixel_length (l : Line) : l.pixel l.length = (l.pt1.x.toInt, l.pt1.y.toInt) := by
  have hx : towards l.width l.pt0.x.toInt l.width.natAbs = l.pt1.x.toInt := towards_natAbs _ _
  have hy : towards l.height l.pt0.y.toInt l.height.natAbs = l.pt1.y.toInt := towards_natAbs _ _
  rw [pixel, length]
  split_ifs with hflat
  · rw [max_eq_left hflat, climb_self hflat, hx, hy]
  · have hsteep : l.width.natAbs ≤ l.height.natAbs := le_of_not_ge hflat
    rw [max_eq_right hsteep, climb_self hsteep, hx, hy]

theorem pixel_touching (l : Line) (n : Nat) : Touching (l.pixel n) (l.pixel (n + 1)) := by
  rw [pixel, pixel]
  split_ifs with hflat
  · exact ⟨fun h => towards_succ_ne _ _ n (congrArg Prod.fst h), towards_step (.inr rfl) _ _,
      towards_step (climb_succ_eq_or hflat n) _ _⟩
  · exact ⟨fun h => towards_succ_ne _ _ n (congrArg Prod.snd h),
      towards_step (climb_succ_eq_or (le_of_not_ge hflat) n) _ _, towards_step (.inr rfl) _ _⟩

/-- The pixels are a line. -/
theorem isLine (l : Line) : IsLine l ((List.range (l.length + 1)).map l.pixel) where
  length := by
    rw [List.length_map, List.length_range]
  first := by
    rw [List.head?_map, List.head?_range, if_neg (Nat.succ_ne_zero _), Option.map_some, pixel_zero]
  last := by
    rw [List.getLast?_map, List.getLast?_range, if_neg (Nat.succ_ne_zero _), Option.map_some, Nat.add_sub_cancel,
      pixel_length]
  touching := by
    rw [List.isChain_map, List.isChain_range_succ]
    exact fun n _ => pixel_touching l n
  nth n hn := by
    rw [List.length_map, List.length_range, Nat.lt_succ_iff] at hn
    rw [List.getElem?_map, List.getElem?_range (Nat.lt_succ_of_le hn), Option.map_some, pixel]
    rw [length] at hn
    split_ifs with hflat
    · rw [max_eq_left hflat] at hn
      rw [towards_eq_sign hn, towards_eq_sign (climb_le_height hflat hn), climb_eq_ceil]
    · have hsteep : l.width.natAbs ≤ l.height.natAbs := le_of_not_ge hflat
      rw [max_eq_right hsteep] at hn
      rw [towards_eq_sign hn, towards_eq_sign (climb_le_height hsteep hn), climb_eq_ceil]

/-- **Lines are drawn** exactly if the sums stay in range. -/
theorem draws_iff (l : Line) : (∃ ps, l.pixels = some ps ∧ IsLine l ps) ↔ l.Bounded := by
  constructor
  · rintro ⟨ps, hps, -⟩
    exact ((pixels_eq_some_iff ps).1 hps).1
  · intro h
    exact ⟨_, (pixels_eq_some_iff _).2 ⟨h, rfl⟩, isLine l⟩

/-- A diagonal that is not drawn: its sums grow to more than 50000 times 50000. -/
theorem not_draws_diagonal :
    ¬∃ ps, (init.setEnd 50000 50000).pixels = some ps ∧ IsLine (init.setEnd 50000 50000) ps := by
  rintro ⟨ps, hps, -⟩
  exact absurd ((pixels_eq_some_iff ps).1 hps).1 (by decide)

/-! ## Moving -/

/-- **The middle is where it is asked for**, and stays there. -/
def Centred (l : Line) (x y : Int32Bits) : Prop := (l.move x y).getMiddle = ⟨x, y⟩ ∧ (l.move x y).move x y = l.move x y

theorem getMiddle_move (l : Line) (x y : Int32Bits) : (l.move x y).getMiddle =
    ⟨(l.pt0.x + l.pt1.x + 2 * (x - (l.pt0.x + l.pt1.x).sdiv 2)).sdiv 2,
      (l.pt0.y + l.pt1.y + 2 * (y - (l.pt0.y + l.pt1.y).sdiv 2)).sdiv 2⟩ := by
  simp only [getMiddle, move]
  congr 2 <;> ring

/-- A line that is there is not moved. -/
theorem move_getMiddle (l : Line) : l.move l.getMiddle.x l.getMiddle.y = l := by
  simp [move]

theorem centred_iff_reaches (l : Line) (x y : Int32Bits) :
    l.Centred x y ↔ Reaches 2 (l.pt0.x + l.pt1.x) x ∧ Reaches 2 (l.pt0.y + l.pt1.y) y := by
  have hmiddle : l.Centred x y ↔ (l.move x y).getMiddle = ⟨x, y⟩ := by
    refine and_iff_left_of_imp fun h => ?_
    have hmove := move_getMiddle (l.move x y)
    rwa [h] at hmove
  rw [hmiddle, getMiddle_move, Graph.Point.mk.injEq, sdiv_moved_iff (by decide), sdiv_moved_iff (by decide)]

end Line

end LeftFelt.Gui
