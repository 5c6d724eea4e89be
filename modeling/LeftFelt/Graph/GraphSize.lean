import LeftFelt.Graph.CopyGraph
import LeftFelt.Lib.Sentinel

/-!
# The size of a graph

`GetGraphSize` looks for the least and the greatest coordinates of the points. Its four variables are -1 at first, and
a variable that is -1 is taken for one that has not been set. So a coordinate of -1 is forgotten at the next point, which
matters only if it is the least or the greatest one (`getGraphSize_iff`).
-/

namespace LeftFelt.Graph

open Lib Sentinel

variable {F : Type}

/-- The point `graph->pt_list + i`. -/
def loadPoint (heap : Heap (Item F)) (graph : FullGraph) (i : Nat) : Option Point := do
  match ← heap.load graph.pt_list i with
  | some (.point pt) => some pt
  | _ => none

/-- The loop of `GetGraphSize`, at one point. -/
def Rect.stretch (rc : Rect) (pt : Point) : Rect where
  right := if pt.x.toInt > rc.right.toInt ∨ rc.right = -1 then pt.x else rc.right
  left := if pt.x.toInt < rc.left.toInt ∨ rc.left = -1 then pt.x else rc.left
  bottom := if pt.y.toInt > rc.bottom.toInt ∨ rc.bottom = -1 then pt.y else rc.bottom
  top := if pt.y.toInt < rc.top.toInt ∨ rc.top = -1 then pt.y else rc.top

/-- `GetGraphSize(graph)`. -/
def getGraphSize (heap : Heap (Item F)) (graph : FullGraph) : Option FullGraph := do
  let rc ← Checked.forLoop 0 graph.count (fun i rc => do return rc.stretch (← loadPoint heap graph i))
    ⟨-1, -1, -1, -1⟩
  return { graph with rc }

/-- The coordinates of the points. -/
def xs (points : List Point) : List Int := points.map fun pt => pt.x.toInt

def ys (points : List Point) : List Int := points.map fun pt => pt.y.toInt

/-- **The rectangle bounds the points**: it has their least and greatest coordinates. -/
structure Bounding (points : List Point) (rc : Rect) : Prop where
  left : IsLeast {x | x ∈ xs points} rc.left.toInt
  right : IsGreatest {x | x ∈ xs points} rc.right.toInt
  top : IsLeast {y | y ∈ ys points} rc.top.toInt
  bottom : IsGreatest {y | y ∈ ys points} rc.bottom.toInt

/-! ## The loop -/

variable {heap : Heap (Item F)} {graph : FullGraph} {points : List Point}

theorem loadPoint_eq (hlist : Holds heap graph.pt_list (points.map .point)) {i : Nat} (hi : i < points.length) :
    loadPoint heap graph i = some points[i] := by
  obtain ⟨cs, hcs, hstart⟩ := hlist
  have hlength : i < ((points.map Item.point).map some : List (Option (Item F))).length := by simpa using hi
  have hcell := hstart.getElem hlength
  have hload : heap.load graph.pt_list i = some (some (.point points[i])) := by
    cases hp : graph.pt_list with
    | none =>
      rw [hp, Heap.cells, Option.some.injEq] at hcs
      rw [← hcs, List.prefix_nil] at hstart
      rw [hstart] at hlength
      cases hlength
    | some a =>
      rw [hp, Heap.cells] at hcs
      rw [Heap.load, Option.bind_some, hcs, Option.bind_some,
        List.getElem?_eq_getElem (hlength.trans_le hstart.length_le), ← hcell]
      simp
  rw [loadPoint, hload]
  rfl

/-- The loop stretches a rectangle to the points. -/
theorem getGraphSize_eq (hcount : graph.count = points.length)
    (hlist : Holds heap graph.pt_list (points.map .point)) :
    getGraphSize heap graph = some { graph with rc := points.foldl Rect.stretch ⟨-1, -1, -1, -1⟩ } := by
  obtain ⟨rc, hrun, hrc⟩ := Checked.foldlM_eq_some (l := List.range points.length) (s := ⟨-1, -1, -1, -1⟩)
    (f := fun rc i => (loadPoint heap graph i).map rc.stretch)
    (fun pre rc => rc = (points.take pre.length).foldl Rect.stretch ⟨-1, -1, -1, -1⟩) rfl
    fun pre i post rc hsplit hrc => by
      obtain ⟨rfl, hi⟩ := range_split hsplit
      refine ⟨rc.stretch points[pre.length], by rw [loadPoint_eq hlist hi]; rfl, ?_⟩
      rw [List.length_append, List.length_singleton, List.take_succ_eq_append_getElem hi, List.foldl_concat, hrc]
  rw [List.length_range, List.take_length] at hrc
  have hloop : Checked.forLoop 0 graph.count (fun i rc => do return rc.stretch (← loadPoint heap graph i))
      ⟨-1, -1, -1, -1⟩ = some rc := by
    rw [Checked.forLoop, Nat.sub_zero, hcount, ← List.range_eq_range', ← hrun]
    congr 1
    funext rc i
    cases loadPoint heap graph i <;> rfl
  rw [getGraphSize, hloop, hrc]
  rfl

section Sides

/-- A comparison with -1 on the numbers. -/
theorem eq_neg_one_iff {n : Int32Bits} : n = -1 ↔ n.toInt = -1 := by
  rw [← BitVec.toInt_inj]
  rfl

theorem toInt_ite {c : Prop} [Decidable c] (a b : Int32Bits) :
    (if c then a else b).toInt = if c then a.toInt else b.toInt := apply_ite _ c a b

variable (rc : Rect) (pt : Point)

theorem right_stretch : (rc.stretch pt).right.toInt = raise (-1) rc.right.toInt pt.x.toInt := by
  simp only [Rect.stretch, toInt_ite, eq_neg_one_iff, raise]

theorem left_stretch : (rc.stretch pt).left.toInt = lower (-1) rc.left.toInt pt.x.toInt := by
  simp only [Rect.stretch, toInt_ite, eq_neg_one_iff, lower]

theorem bottom_stretch : (rc.stretch pt).bottom.toInt = raise (-1) rc.bottom.toInt pt.y.toInt := by
  simp only [Rect.stretch, toInt_ite, eq_neg_one_iff, raise]

theorem top_stretch : (rc.stretch pt).top.toInt = lower (-1) rc.top.toInt pt.y.toInt := by
  simp only [Rect.stretch, toInt_ite, eq_neg_one_iff, lower]

/-- A side after the loop, if it is known what a point does to it. -/
theorem foldl_stretch {side : Rect → Int32Bits} {c : Point → Int32Bits} {keep : Int → Int → Int}
    (hstep : ∀ rc pt, (side (rc.stretch pt)).toInt = keep (side rc).toInt (c pt).toInt) (points : List Point) :
    (side (points.foldl Rect.stretch rc)).toInt = (points.map fun pt => (c pt).toInt).foldl keep (side rc).toInt := by
  rw [List.foldl_map]
  exact (List.foldl_hom (fun rc => (side rc).toInt) fun rc pt => (hstep rc pt).symm).symm

end Sides

/-! ## The result -/

/-- The extremes of a list of coordinates, as the loop finds them. -/
theorem extremes_iff {l : List Int} (hl : l ≠ []) :
    IsLeast {a | a ∈ l} (l.foldl (lower (-1)) (-1)) ∧ IsGreatest {a | a ∈ l} (l.foldl (raise (-1)) (-1)) ↔
      (IsLeast {a | a ∈ l} (-1) ∨ IsGreatest {a | a ∈ l} (-1) → l.getLast? = some (-1)) := by
  rw [foldl_lower_iff hl, foldl_raise_iff hl, or_imp]

/-- **When the size is right**: if -1 is the least or the greatest of the x or of the y coordinates, the last point has
it, too. -/
theorem getGraphSize_iff (hpoints : points ≠ []) (hcount : graph.count = points.length)
    (hlist : Holds heap graph.pt_list (points.map .point)) :
    (∃ graph', getGraphSize heap graph = some graph' ∧ Bounding points graph'.rc) ↔
      ∀ l ∈ [xs points, ys points],
        IsLeast {a | a ∈ l} (-1) ∨ IsGreatest {a | a ∈ l} (-1) → l.getLast? = some (-1) := by
  have hx : xs points ≠ [] := by simpa [xs] using hpoints
  have hy : ys points ≠ [] := by simpa [ys] using hpoints
  have hsides : Bounding points (points.foldl Rect.stretch ⟨-1, -1, -1, -1⟩) ↔
      (IsLeast {a | a ∈ xs points} ((xs points).foldl (lower (-1)) (-1)) ∧
        IsGreatest {a | a ∈ xs points} ((xs points).foldl (raise (-1)) (-1))) ∧
      (IsLeast {a | a ∈ ys points} ((ys points).foldl (lower (-1)) (-1)) ∧
        IsGreatest {a | a ∈ ys points} ((ys points).foldl (raise (-1)) (-1))) := by
    have hleft := foldl_stretch ⟨-1, -1, -1, -1⟩ left_stretch points
    have hright := foldl_stretch ⟨-1, -1, -1, -1⟩ right_stretch points
    have htop := foldl_stretch ⟨-1, -1, -1, -1⟩ top_stretch points
    have hbottom := foldl_stretch ⟨-1, -1, -1, -1⟩ bottom_stretch points
    constructor
    · intro h
      exact ⟨⟨hleft ▸ h.left, hright ▸ h.right⟩, htop ▸ h.top, hbottom ▸ h.bottom⟩
    · rintro ⟨⟨hl, hr⟩, ht, hb⟩
      exact ⟨hleft.symm ▸ hl, hright.symm ▸ hr, htop.symm ▸ ht, hbottom.symm ▸ hb⟩
  rw [getGraphSize_eq hcount hlist]
  simp only [Option.some.injEq, exists_eq_left', hsides, extremes_iff hx, extremes_iff hy, List.forall_mem_cons,
    List.not_mem_nil, false_imp_iff, implies_true, and_true]

/-- One of the points is at -1, between the others. -/
theorem getGraphSize_triangle : ∃ graph', getGraphSize (arraysOf corners sides [5, 6, 7]) (graphOf corners sides) =
    some graph' ∧ Bounding corners graph'.rc := by
  have hsource : Source 1 (arraysOf corners sides [5, 6, 7]) (graphOf corners sides) corners sides [5, 6, 7] :=
    source_graphOf rfl (by decide)
  refine (getGraphSize_iff (by decide) rfl hsource.holding.pt_list).2 fun l hl h => ?_
  simp only [List.mem_cons, List.not_mem_nil, or_false] at hl
  exfalso
  rcases hl with rfl | rfl
  · rcases h with h | h
    · exact absurd (h.2 (show -5 ∈ xs corners by decide)) (by decide)
    · exact absurd (h.2 (show 3 ∈ xs corners by decide)) (by decide)
  · rcases h with h | h <;> exact absurd h.1 (by decide)

/-- Two points, the first of which is at -1 and the second to the left of it. -/
def leftward : List Point := [⟨-1, 0⟩, ⟨-2, 0⟩]

def leftwardHeap : Heap (Item F) :=
  ⟨fun a => if a = 0 then some ((leftward.map .point).map some) else none, 1⟩

def leftwardGraph : FullGraph := { onePointGraph with count := 2, pt_list := some 0 }

/-- The right side of the rectangle is the left one. -/
theorem not_getGraphSize_leftward :
    (leftwardGraph.count = leftward.length ∧
      Holds (F := Nat) leftwardHeap leftwardGraph.pt_list (leftward.map .point)) ∧
    ¬∃ graph', getGraphSize (F := Nat) leftwardHeap leftwardGraph = some graph' ∧ Bounding leftward graph'.rc := by
  refine ⟨⟨rfl, _, rfl, List.prefix_rfl⟩, ?_⟩
  rintro ⟨graph', hrun, hbounding⟩
  obtain rfl := Option.some.inj hrun
  have hright := hbounding.right.2 (show -1 ∈ xs leftward by decide)
  exact absurd hright (by decide)

end LeftFelt.Graph
