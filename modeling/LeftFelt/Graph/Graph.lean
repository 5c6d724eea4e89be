import LeftFelt.Lib.Heap
import Mathlib.Data.List.Basic

/-!
# Building a graph

A `GRAPH` has its points and its edges in two arrays from `malloc`. For a new element `AddPixelGraph` and `AddLineGraph`
allocate a larger array, but they copy only the first element into it. `AddLineGraph` copies from the old array of edges
even if that is `NULL`, as it is in a new graph. So a graph has what has been added to it exactly if that are at most two
points and no edges (`addAll_built_iff`).
-/

namespace LeftFelt.Graph

open Lib

/-- `int` and `LONG`. -/
abbrev Int32Bits := BitVec 32

/-- `POINT`. -/
structure Point where
  x : Int32Bits
  y : Int32Bits
  deriving DecidableEq

/-- `Edge`. -/
structure Edge where
  start : Int32Bits
  end_ : Int32Bits
  deriving DecidableEq

/-- What an array has in a cell. -/
inductive Cell where
  | point (pt : Point)
  | edge (edge : Edge)
  deriving DecidableEq

/-- `GRAPH`, as far as `InitGraph` sets it. -/
structure GRAPH where
  line_count : Nat
  count : Nat
  name_len : Nat
  pt_list : Pointer
  edge_list : Pointer
  feature : Pointer

/-- A graph, and the memory. -/
structure State where
  heap : Heap Cell
  graph : GRAPH

/-- `InitGraph`. -/
def initGraph : GRAPH := ⟨0, 0, 0, none, none, none⟩

/-- The first cell of one array is copied to another one: `*to = *from`. -/
def copyFirst (heap : Heap Cell) (old : Pointer) (new : Nat) : Option (Heap Cell) := do
  heap.store new 0 (← heap.load old 0)

/-- `AddPixelGraph`. -/
def addPixelGraph (pt : Point) (s : State) : Option State := do
  let count := s.graph.count + 1
  let (heap, pt_list) := s.heap.malloc count
  let heap ← (if s.graph.pt_list ≠ none then copyFirst heap s.graph.pt_list pt_list else some heap)
  let heap ← heap.store pt_list (count - 1) (some (.point pt))
  let heap ← heap.free s.graph.pt_list
  return ⟨heap, { s.graph with count, pt_list := some pt_list }⟩

/-- `AddLineGraph`, which frees the points. -/
def addLineGraph (edge : Edge) (s : State) : Option State := do
  let line_count := s.graph.line_count + 1
  let (heap, edge_list) := s.heap.malloc line_count
  let heap ← copyFirst heap s.graph.edge_list edge_list
  let heap ← heap.store edge_list (line_count - 1) (some (.edge edge))
  let heap ← heap.free s.graph.pt_list
  return ⟨heap, { s.graph with line_count, edge_list := some edge_list }⟩

/-- A call for each cell: of `AddPixelGraph` for a point, of `AddLineGraph` for an edge. -/
def add (s : State) : Cell → Option State
  | .point pt => addPixelGraph pt s
  | .edge edge => addLineGraph edge s

/-- The calls one after the other, on a new graph. -/
def addAll (calls : List Cell) : Option State := calls.foldlM add ⟨.empty, initGraph⟩

def Cell.isPoint : Cell → Bool
  | point _ => true
  | edge _ => false

/-- **A graph has what has been added to it**: the numbers of the calls, and in each array, which has not been freed,
the points or edges in the order of the calls. -/
def Built (calls : List Cell) : Prop :=
  ∃ s, addAll calls = some s ∧
    s.graph.count = calls.countP Cell.isPoint ∧ s.graph.line_count = calls.countP (!·.isPoint) ∧
    s.heap.cells s.graph.pt_list = some ((calls.filter Cell.isPoint).map some) ∧
    s.heap.cells s.graph.edge_list = some ((calls.filter (!·.isPoint)).map some)

/-! ## One call -/

variable {s s' : State}

/-- There is no edge to copy if there is none yet. -/
theorem addLineGraph_of_null (h : s.graph.edge_list = none) (edge : Edge) : addLineGraph edge s = none := by
  simp [addLineGraph, copyFirst, h, Heap.load]

/-- With an array of edges, the points are freed, and the graph still refers to them. -/
theorem addLineGraph_dangling {edge : Edge} {a : Nat} (ha : s.graph.pt_list = some a)
    (h : addLineGraph edge s = some s') : s'.graph.pt_list = some a ∧ s'.heap.block a = none := by
  simp only [addLineGraph, Option.bind_eq_bind, Option.bind_eq_some_iff, Option.pure_def, Option.some.injEq] at h
  obtain ⟨copied, -, stored, -, freed, hfreed, rfl⟩ := h
  rw [ha] at hfreed
  exact ⟨ha, Heap.block_free_self hfreed⟩

/-- The new array has one old cell at most, in front, and the new point at the end. -/
theorem addPixelGraph_spec {pt : Point} (h : addPixelGraph pt s = some s') :
    s'.graph = { s.graph with count := s.graph.count + 1, pt_list := some s.heap.next } ∧
      ∀ cs, s'.heap.block s.heap.next = some cs →
        ∃ first, cs = ((List.replicate (s.graph.count + 1) none).set 0 first).set s.graph.count (some (.point pt)) := by
  have hnew := Heap.block_malloc (s.graph.count + 1) s.heap
  simp only [addPixelGraph, Option.bind_eq_bind, Option.bind_eq_some_iff, Option.pure_def, Option.some.injEq,
    Nat.add_sub_cancel] at h
  obtain ⟨copied, hcopied, stored, hstored, freed, hfreed, rfl⟩ := h
  refine ⟨rfl, fun cs hcs => ?_⟩
  have hlast := Heap.block_free hfreed hcs
  obtain ⟨first, hfirst⟩ : ∃ first,
      copied.block s.heap.next = some ((List.replicate (s.graph.count + 1) none).set 0 first) := by
    split_ifs at hcopied with hnull
    · rw [copyFirst, Option.bind_eq_bind, Option.bind_eq_some_iff] at hcopied
      obtain ⟨first, -, hcopied⟩ := hcopied
      exact ⟨first, Heap.block_store hnew hcopied⟩
    · obtain rfl := Option.some.inj hcopied
      exact ⟨none, by simp⟩
  rw [Heap.block_store hfirst hstored] at hlast
  exact ⟨first, (Option.some.inj hlast).symm⟩

/-- From the third point on, the second cell of the new array is indeterminate. -/
theorem second_cell_of_addPixelGraph {pt : Point} {cs : List (Option Cell)} (h : addPixelGraph pt s = some s')
    (hcount : 2 ≤ s.graph.count) (hcells : s'.heap.cells s'.graph.pt_list = some cs) : cs[1]? = some none := by
  obtain ⟨hgraph, hblock⟩ := addPixelGraph_spec h
  rw [hgraph] at hcells
  obtain ⟨first, rfl⟩ := hblock _ hcells
  rw [List.getElem?_set_ne (by omega), List.getElem?_set_ne (by omega), List.getElem?_replicate, if_pos (by omega)]

/-! ## All calls -/

theorem edge_list_of_addAll {calls : List Cell} (hnull : s.graph.edge_list = none) (h : calls.foldlM add s = some s') :
    ∀ c ∈ calls, c.isPoint := by
  induction calls generalizing s with
  | nil => exact fun c hc => by cases hc
  | cons c calls ih =>
    rw [List.foldlM_cons, Option.bind_eq_bind, Option.bind_eq_some_iff] at h
    obtain ⟨s₁, hfirst, hrest⟩ := h
    cases c with
    | point pt =>
      refine List.forall_mem_cons.mpr ⟨rfl, ih ?_ hrest⟩
      rw [(addPixelGraph_spec hfirst).1]
      exact hnull
    | edge edge =>
      rw [add, addLineGraph_of_null hnull] at hfirst
      cases hfirst

/-- **When a graph has what has been added to it**: at most two points and no edges have been added. -/
theorem addAll_built_iff (calls : List Cell) : Built calls ↔ (∀ c ∈ calls, c.isPoint) ∧ calls.length ≤ 2 := by
  constructor
  · rintro ⟨s, hrun, hcount, -, hpoints, -⟩
    have hall := edge_list_of_addAll (s := ⟨.empty, initGraph⟩) rfl hrun
    refine ⟨hall, ?_⟩
    by_contra hlong
    rw [List.countP_eq_length.mpr hall] at hcount
    rw [List.filter_eq_self.mpr hall] at hpoints
    rcases List.eq_nil_or_concat' calls with rfl | ⟨calls, c, rfl⟩
    · simp at hlong
    rw [addAll, List.foldlM_append, Option.bind_eq_bind, Option.bind_eq_some_iff] at hrun
    obtain ⟨s₀, -, hlast⟩ := hrun
    rw [List.foldlM_cons, Option.bind_eq_bind, Option.bind_eq_some_iff] at hlast
    obtain ⟨s₁, hlast, hs₁⟩ := hlast
    obtain rfl := Option.some.inj hs₁
    cases c with
    | edge edge => cases hall (.edge edge) List.mem_concat_self
    | point pt =>
      rw [(addPixelGraph_spec hlast).1] at hcount
      simp only [List.length_append, List.length_singleton] at hcount hlong
      have hcell := second_cell_of_addPixelGraph hlast (by omega) hpoints
      rw [List.getElem?_map, Option.map_eq_some_iff] at hcell
      obtain ⟨c, -, hc⟩ := hcell
      cases hc
  · rintro ⟨hall, hlength⟩
    match calls, hall, hlength with
    | [], _, _ => exact ⟨_, rfl, rfl, rfl, rfl, rfl⟩
    | [.point pt], _, _ => exact ⟨_, rfl, rfl, rfl, rfl, rfl⟩
    | [.point pt, .point pt'], _, _ => exact ⟨_, rfl, rfl, rfl, rfl, rfl⟩
    | .edge edge :: _, hall, _ => cases hall (.edge edge) List.mem_cons_self
    | _ :: .edge edge :: _, hall, _ => cases hall (.edge edge) (List.mem_cons_of_mem _ List.mem_cons_self)

/-- Of three points the second one is lost. -/
theorem not_built_triangle : ¬∀ calls, Built calls := by
  intro h
  obtain ⟨s, hrun, -, -, hpoints, -⟩ := h [.point ⟨0, 0⟩, .point ⟨1, 0⟩, .point ⟨0, 1⟩]
  obtain rfl := Option.some.inj hrun
  exact absurd hpoints (by decide)

end LeftFelt.Graph
