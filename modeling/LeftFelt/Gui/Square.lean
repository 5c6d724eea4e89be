import LeftFelt.Gui.Line
import Mathlib.Algebra.BigOperators.Fin
import Mathlib.Data.List.FinRange

/-!
# Squares

A `Square` has four edges, each of which is a `Line` with ends of its own. So every vertex is stored twice. `Move` moves
one edge after the other, each to its own middle plus the same distance; what is lost when the middles are rounded
cancels out. So the edges fit together after any calls (`closed_run`).

The distance is the difference of the target and the middle of the square, which is rounded as well. Here nothing cancels
out: the middle need not be the target afterwards (`centred_iff`).
-/

namespace LeftFelt.Gui

open Lib CInt
open LeftFelt.Graph (Int32Bits)

/-- `class Square`. -/
structure Square where
  line : Fin 4 → Line

namespace Square

/-! ## The class -/

/-- `Square()`. -/
def init : Square := ⟨fun _ => Line.init⟩

/-- Calls on `line[i]`. -/
def edit (sq : Square) (i : Fin 4) (f : Line → Line) : Square := ⟨Function.update sq.line i (f (sq.line i))⟩

/-- The calls for one edge. -/
def edge (sq : Square) (i : Fin 4) (p q : Graph.Point) : Square :=
  sq.edit i fun l => (l.setStart p.x p.y).setEnd q.x q.y

/-- `Apex(pt0, pt1, pt2, pt3)`. -/
def apexes (sq : Square) (pt0 pt1 pt2 pt3 : Graph.Point) : Square :=
  (((sq.edge 0 pt0 pt1).edge 1 pt1 pt2).edge 2 pt2 pt3).edge 3 pt3 pt0

/-- `Apex(x, y, width, height)`. -/
def apexRect (sq : Square) (x y width height : Int32Bits) : Square :=
  sq.apexes ⟨x, y⟩ ⟨x + width, y⟩ ⟨x + width, y + height⟩ ⟨x, y + height⟩

/-- `Apex(num, x, y)`. -/
def apex (sq : Square) (num : Fin 4) (x y : Int32Bits) : Square :=
  let last := if num = 0 then 3 else num - 1
  (sq.edit num fun l => l.setStart x y).edit last fun l => l.setEnd x y

/-- `getApex(num)`. -/
def getApex (sq : Square) (num : Fin 4) : Graph.Point := (sq.line num).getStart

/-- The loop of `getMiddle`. -/
def sum (sq : Square) : Graph.Point :=
  (List.finRange 4).foldl (fun pt i =>
    ⟨pt.x + ((sq.line i).getStart.x + (sq.line i).getEnd.x),
      pt.y + ((sq.line i).getStart.y + (sq.line i).getEnd.y)⟩) ⟨0, 0⟩

/-- `getMiddle()`. -/
def getMiddle (sq : Square) : Graph.Point := ⟨sq.sum.x.sdiv 8, sq.sum.y.sdiv 8⟩

/-- `Move(x, y)`. -/
def move (sq : Square) (x y : Int32Bits) : Square :=
  let cx := x - sq.getMiddle.x
  let cy := y - sq.getMiddle.y
  (List.finRange 4).foldl (fun sq i =>
    sq.edit i fun l => l.move (l.getMiddle.x + cx) (l.getMiddle.y + cy)) sq

/-- The calls that change a square. -/
inductive Call where
  | apexes (pt0 pt1 pt2 pt3 : Graph.Point)
  | apexRect (x y width height : Int32Bits)
  | apex (num : Fin 4) (x y : Int32Bits)
  | move (x y : Int32Bits)

def call (sq : Square) : Call → Square
  | .apexes pt0 pt1 pt2 pt3 => sq.apexes pt0 pt1 pt2 pt3
  | .apexRect x y width height => sq.apexRect x y width height
  | .apex num x y => sq.apex num x y
  | .move x y => sq.move x y

/-- A new square after these calls. -/
def run (calls : List Call) : Square := calls.foldl call init

/-! ## Closed squares -/

/-- **The end of an edge is the start of the next one.** -/
def Closed (sq : Square) : Prop := ∀ i, (sq.line i).getEnd = (sq.line (i + 1)).getStart

variable {sq : Square}

theorem closed_init : init.Closed := fun _ => rfl

theorem line_edit (sq : Square) (i j : Fin 4) (f : Line → Line) :
    (sq.edit i f).line j = if j = i then f (sq.line j) else sq.line j := by
  refine (Function.update_apply _ _ _ _).trans ?_
  split_ifs with h
  · rw [h]
  · rfl

/-- The edges that are set fit together, whatever was there before. -/
theorem closed_apexes (sq : Square) (pt0 pt1 pt2 pt3 : Graph.Point) : (sq.apexes pt0 pt1 pt2 pt3).Closed := by
  intro i
  fin_cases i <;> rfl

theorem getStart_apex (sq : Square) (num i : Fin 4) (x y : Int32Bits) :
    ((sq.apex num x y).line i).getStart = if i = num then ⟨x, y⟩ else (sq.line i).getStart := by
  simp only [apex, line_edit]
  split_ifs <;> rfl

/-- The last edge of a vertex is the one in front of its own. -/
theorem getEnd_apex (sq : Square) (num i : Fin 4) (x y : Int32Bits) :
    ((sq.apex num x y).line i).getEnd = if i + 1 = num then ⟨x, y⟩ else (sq.line i).getEnd := by
  have hlast : ∀ num i : Fin 4, (i = if num = 0 then 3 else num - 1) ↔ i + 1 = num := by decide
  simp only [apex, line_edit, hlast]
  split_ifs <;> rfl

/-- A vertex is set in both of its edges. -/
theorem closed_apex (h : sq.Closed) (num : Fin 4) (x y : Int32Bits) : (sq.apex num x y).Closed := by
  intro i
  rw [getEnd_apex, getStart_apex, h i]

/-! ## Moving -/

/-- The loop moves each edge once. -/
theorem foldl_edit {l : List (Fin 4)} (hl : l.Nodup) (f : Line → Line) (sq : Square) (j : Fin 4) :
    (l.foldl (fun sq i => sq.edit i f) sq).line j = if j ∈ l then f (sq.line j) else sq.line j := by
  induction l generalizing sq with
  | nil => simp
  | cons i l ih =>
    rw [List.nodup_cons] at hl
    rw [List.foldl_cons, ih hl.2, line_edit]
    by_cases hi : j = i
    · subst hi
      simp [hl.1]
    · simp [hi]

/-- The point, so much further. -/
def shift (p : Graph.Point) (cx cy : Int32Bits) : Graph.Point := ⟨p.x + cx, p.y + cy⟩

/-- An edge is moved by the distance that the square is moved by: its own middle cancels out. -/
theorem line_move (sq : Square) (x y : Int32Bits) (i : Fin 4) : (sq.move x y).line i =
    { sq.line i with
      pt0 := shift (sq.line i).pt0 (x - sq.getMiddle.x) (y - sq.getMiddle.y)
      pt1 := shift (sq.line i).pt1 (x - sq.getMiddle.x) (y - sq.getMiddle.y) } := by
  rw [move, foldl_edit (List.nodup_finRange 4), if_pos (List.mem_finRange i)]
  simp only [Line.move, shift, add_sub_cancel_left]

theorem closed_move (h : sq.Closed) (x y : Int32Bits) : (sq.move x y).Closed := by
  intro i
  have hi : (sq.line i).pt1 = (sq.line (i + 1)).pt0 := h i
  rw [Line.getEnd, Line.getStart, line_move, line_move, hi]

theorem closed_call (h : sq.Closed) (c : Call) : (sq.call c).Closed := by
  cases c with
  | apexes pt0 pt1 pt2 pt3 => exact closed_apexes sq pt0 pt1 pt2 pt3
  | apexRect x y width height => exact closed_apexes sq _ _ _ _
  | apex num x y => exact closed_apex h num x y
  | move x y => exact closed_move h x y

/-- **A square stays closed**, and is moved as a whole. -/
theorem closed_run (calls : List Call) : (run calls).Closed ∧
    ∀ x y, ∃ cx cy, ∀ num, ((run calls).move x y).getApex num = shift ((run calls).getApex num) cx cy := by
  constructor
  · exact List.foldlRecOn calls call closed_init fun sq h c _ => closed_call h c
  · intro x y
    refine ⟨x - (run calls).getMiddle.x, y - (run calls).getMiddle.y, fun num => ?_⟩
    rw [getApex, Line.getStart, line_move]
    rfl

/-! ## The middle -/

theorem sum_move (sq : Square) (x y : Int32Bits) :
    (sq.move x y).sum = shift sq.sum (8 * (x - sq.getMiddle.x)) (8 * (y - sq.getMiddle.y)) := by
  have hrange : List.finRange 4 = [0, 1, 2, 3] := by decide
  simp only [sum, line_move, Line.getStart, Line.getEnd]
  generalize x - sq.getMiddle.x = cx
  generalize y - sq.getMiddle.y = cy
  simp only [hrange, List.foldl_cons, List.foldl_nil, shift, Graph.Point.mk.injEq]
  constructor <;> ring

theorem sum_eq (sq : Square) : sq.sum =
    ⟨∑ i, ((sq.line i).pt0.x + (sq.line i).pt1.x), ∑ i, ((sq.line i).pt0.y + (sq.line i).pt1.y)⟩ := by
  have hrange : List.finRange 4 = [0, 1, 2, 3] := by decide
  simp only [sum, hrange, List.foldl_cons, List.foldl_nil, Line.getStart, Line.getEnd, Fin.sum_univ_four, zero_add]

/-- **The middle is where it is asked for**, and stays there. -/
def Centred (sq : Square) (x y : Int32Bits) : Prop :=
  (sq.move x y).getMiddle = ⟨x, y⟩ ∧ (sq.move x y).move x y = sq.move x y

/-- A square that is there is not moved. -/
theorem move_getMiddle (sq : Square) : sq.move sq.getMiddle.x sq.getMiddle.y = sq := by
  have hline : (sq.move sq.getMiddle.x sq.getMiddle.y).line = sq.line := by
    funext i
    rw [line_move]
    simp [shift]
  exact congrArg Square.mk hline

theorem centred_iff_reaches (sq : Square) (x y : Int32Bits) :
    sq.Centred x y ↔ Reaches 8 (∑ i, ((sq.line i).pt0.x + (sq.line i).pt1.x)) x ∧
      Reaches 8 (∑ i, ((sq.line i).pt0.y + (sq.line i).pt1.y)) y := by
  have hmiddle : sq.Centred x y ↔ (sq.move x y).getMiddle = ⟨x, y⟩ := by
    refine and_iff_left_of_imp fun h => ?_
    have hmove := move_getMiddle (sq.move x y)
    rwa [h] at hmove
  rw [hmiddle, getMiddle, sum_move, Graph.Point.mk.injEq, getMiddle, sum_eq]
  exact and_congr (sdiv_moved_iff (by decide) _ _) (sdiv_moved_iff (by decide) _ _)

/-- **Where lines and squares can be moved to.** -/
theorem centred_iff (l : Line) (sq : Square) (x y : Int32Bits) :
    (l.Centred x y ↔ Reaches 2 (l.pt0.x + l.pt1.x) x ∧ Reaches 2 (l.pt0.y + l.pt1.y) y) ∧
      (sq.Centred x y ↔ Reaches 8 (∑ i, ((sq.line i).pt0.x + (sq.line i).pt1.x)) x ∧
        Reaches 8 (∑ i, ((sq.line i).pt0.y + (sq.line i).pt1.y)) y) :=
  ⟨l.centred_iff_reaches x y, sq.centred_iff_reaches x y⟩

/-- A line from 0 to 1 and a square of that width do not get to -1. -/
theorem not_centred_left :
    ¬(Line.init.setEnd 1 0).Centred (-1) 0 ∧
      (init.apexRect 0 0 1 1).Closed ∧ ¬(init.apexRect 0 0 1 1).Centred (-1) 0 := by
  refine ⟨?_, closed_apexes _ _ _ _ _, ?_⟩
  · rw [Line.centred_iff_reaches]
    decide
  · rw [centred_iff_reaches]
    decide

end Square

end LeftFelt.Gui
