import LeftFelt.Base.Str
import LeftFelt.Graph.Graph

/-!
# The copy of a graph

`CopyGraph` frees the arrays of the graph that is overwritten, copies the structure, and copies the three arrays into new
ones. A point may have more than one feature, but the loop copies one feature for each point. The new array of edges has
room for `count * count` of them, whatever their number is. So a copy is complete only if a point has one feature, and
there are not too many edges (`copied_iff`); the graph that is copied is never changed.

A pointer has 32 bits, and so has a size. `malloc` is taken to succeed.
-/

namespace LeftFelt.Graph

open Lib

/-- `RECT`. -/
structure Rect where
  left : Int32Bits
  top : Int32Bits
  right : Int32Bits
  bottom : Int32Bits
  deriving DecidableEq

/-- What the arrays of a graph have in a cell. The features are `long double`. -/
inductive Item (F : Type) where
  | point (pt : Point)
  | edge (edge : Edge)
  | feature (value : F)
  deriving DecidableEq

/-- `GRAPH`, with the fields that `InitGraph` does not set. -/
structure FullGraph extends GRAPH where
  name : Str
  rc : Rect

/-- `sizeof(POINT)`, `sizeof(Edge)` and `sizeof(long double)`. -/
def cellSize : Nat := 8

/-- How many cells there are in what `malloc` gives for `n` of them. -/
def room (n : Nat) : Nat := cellSize * n % 2 ^ 32 / cellSize

/-- `strcpy(dst, src)`. -/
def strcpy (dst src : Str) : Option Str := do
  let s ← Str.cString src
  if s.length < dst.length then return s ++ [Str.nul] ++ dst.drop (s.length + 1) else none

/-- The arrays of a graph. -/
def FullGraph.arrays (g : FullGraph) : List Pointer := [g.pt_list, g.edge_list, g.feature]

variable {F : Type}

/-- `DeleteGraph(graph)`. -/
def deleteGraph (heap : Heap (Item F)) (graph : FullGraph) : Option (Heap (Item F) × FullGraph) := do
  let heap ← heap.free graph.pt_list
  let heap ← heap.free graph.edge_list
  let heap ← heap.free graph.feature
  return (heap, { graph with toGRAPH := initGraph })

/-- `CopyGraph(dstGraph, srcGraph, feature_w)`: the memory, and the graph that has been written to. -/
def copyGraph (feature_w : Nat) (heap : Heap (Item F)) (dstGraph srcGraph : FullGraph) :
    Option (Heap (Item F) × FullGraph) := do
  let (heap, dstGraph) ← deleteGraph heap dstGraph
  let dstGraph : FullGraph := { dstGraph with toGRAPH := initGraph }
  let dstGraph : FullGraph := { dstGraph with toGRAPH := srcGraph.toGRAPH, name := srcGraph.name, rc := srcGraph.rc }
  let name ← strcpy dstGraph.name srcGraph.name
  let (heap, pt_list) := heap.malloc (room srcGraph.count)
  let (heap, edge_list) := heap.malloc (room (srcGraph.count * srcGraph.count))
  let (heap, feature) := heap.malloc (room (srcGraph.count * feature_w))
  let heap ← Checked.forLoop 0 srcGraph.count (fun i heap => do
    let heap ← heap.copyCell srcGraph.pt_list pt_list i
    heap.copyCell srcGraph.feature feature i) heap
  let heap ← heap.copyCells srcGraph.edge_list edge_list srcGraph.line_count
  return (heap, { dstGraph with
    name := name, pt_list := some pt_list, edge_list := some edge_list, feature := some feature })

/-! ## The law -/

/-- The array begins with these cells. -/
def Holds (heap : Heap (Item F)) (p : Pointer) (items : List (Item F)) : Prop :=
  ∃ cs, heap.cells p = some cs ∧ items.map some <+: cs

/-- A graph with these points, edges and features. Its name is a C string, and its arrays have been allocated. -/
structure Holding (heap : Heap (Item F)) (g : FullGraph) (points : List Point) (edges : List Edge) (features : List F) :
    Prop where
  count : g.count = points.length
  line_count : g.line_count = edges.length
  pt_list : Holds heap g.pt_list (points.map .point)
  edge_list : Holds heap g.edge_list (edges.map .edge)
  feature : Holds heap g.feature (features.map .feature)

/-- A graph that can be copied: with `feature_w` features for every point, a C string in `name`, and arrays that fit
into the memory. -/
structure Source (feature_w : Nat) (heap : Heap (Item F)) (g : FullGraph) (points : List Point) (edges : List Edge)
    (features : List F) : Prop where
  holding : Holding heap g points edges features
  per_point : features.length = points.length * feature_w
  name : Str.nul ∈ g.name
  fits : cellSize * features.length < 2 ^ 32

/-- A graph that can be overwritten: its arrays can be freed, and are not those of the graph that is copied. -/
structure Target (heap : Heap (Item F)) (g src : FullGraph) : Prop where
  allocated : ∀ a, some a ∈ g.arrays → (heap.block a).isSome
  distinct : g.arrays.Pairwise fun p q => ∀ a, p = some a → q ≠ some a
  apart : ∀ a, some a ∈ g.arrays → some a ∉ src.arrays

/-- **The copy is complete**: `dst` has the same fields, the same points, edges and features, in arrays of its own; and
all blocks but the new ones, and those that `dst` has had, are as they were, and so is the graph that has been copied. -/
def Copied (feature_w : Nat) (heap : Heap (Item F)) (dst src : FullGraph) (points : List Point) (edges : List Edge)
    (features : List F) : Prop :=
  ∃ heap' dst', copyGraph feature_w heap dst src = some (heap', dst') ∧
    (dst'.name_len = src.name_len ∧ dst'.name = src.name ∧ dst'.rc = src.rc) ∧
    Holding heap' dst' points edges features ∧
    (∀ a, some a ∈ dst'.arrays → heap.next ≤ a) ∧
    (∀ a < heap.next, some a ∉ dst.arrays → heap'.block a = heap.block a) ∧
    Source feature_w heap' src points edges features

/-! ## The parts -/

variable {feature_w : Nat} {heap heap' : Heap (Item F)} {dst src g : FullGraph} {points : List Point}
  {edges : List Edge} {features : List F}

theorem room_eq {n : Nat} (h : cellSize * n < 2 ^ 32) : room n = n := by
  rw [room, Nat.mod_eq_of_lt h, Nat.mul_div_cancel_left n (by decide)]

theorem strcpy_self {s : Str} (h : Str.nul ∈ s) : strcpy s s = some s := by
  obtain ⟨u, v, rfl, hu⟩ := List.eq_append_cons_of_mem h
  have htake : u.takeWhile (· ≠ Str.nul) = u := Str.takeWhile_ne_nul.2 hu
  rw [strcpy, Str.cString_append_nul, htake, Option.bind_eq_bind, Option.bind_some, if_pos (by simp)]
  simp

theorem deleteGraph_eq (heap : Heap (Item F)) (g : FullGraph) :
    deleteGraph heap g = (g.arrays.foldlM Heap.free heap).map fun heap => (heap, { g with toGRAPH := initGraph }) := by
  simp [deleteGraph, FullGraph.arrays, Option.map_eq_bind, Option.bind_assoc]

/-- What a graph has, it has as long as its blocks stay. -/
theorem Holds.congr {p : Pointer} {items : List (Item F)} (h : Holds heap p items)
    (hsame : ∀ a, p = some a → heap'.block a = heap.block a) : Holds heap' p items := by
  obtain ⟨cs, hcs, hstart⟩ := h
  exact ⟨cs, (Heap.cells_eq hsame).trans hcs, hstart⟩

/-- The cell behind those that have been copied holds no item. -/
theorem Holds.length_le {c n m : Nat} {items : List (Item F)} (h : Holds heap (some c) items)
    (hblock : heap.block c = some ((items.take n).map some ++ List.replicate m none)) : items.length ≤ n := by
  by_contra hlt
  obtain ⟨cs, hcs, hstart⟩ := h
  obtain rfl := Option.some.inj (hblock.symm.trans hcs)
  have hcell := hstart.getElem (i := n) (by simpa using hlt)
  have hbehind : (items.take n).length ≤ n := List.length_take_le n items
  rw [List.getElem_append_right (by rwa [List.length_map])] at hcell
  simp at hcell

theorem Source.congr (h : Source feature_w heap g points edges features)
    (hsame : ∀ a, some a ∈ g.arrays → heap'.block a = heap.block a) : Source feature_w heap' g points edges features :=
  ⟨⟨h.holding.count, h.holding.line_count, h.holding.pt_list.congr fun a ha => hsame a (by simp [FullGraph.arrays, ha]),
    h.holding.edge_list.congr fun a ha => hsame a (by simp [FullGraph.arrays, ha]),
    h.holding.feature.congr fun a ha => hsame a (by simp [FullGraph.arrays, ha])⟩, h.per_point, h.name, h.fits⟩

/-- The arrays of a graph have been allocated before. -/
theorem Source.lt_next (h : Source feature_w heap g points edges features) (hfresh : heap.Fresh) :
    ∀ a, some a ∈ g.arrays → a < heap.next := by
  have hblock : ∀ (p : Pointer) (items : List (Item F)), Holds heap p items → ∀ a, p = some a → a < heap.next := by
    rintro _ items ⟨cs, hcs, -⟩ a rfl
    exact hfresh a (by rw [show heap.block a = some cs from hcs]; rfl)
  intro a ha
  simp only [FullGraph.arrays, List.mem_cons, List.not_mem_nil, or_false] at ha
  rcases ha with ha | ha | ha
  · exact hblock _ _ h.holding.pt_list a ha.symm
  · exact hblock _ _ h.holding.edge_list a ha.symm
  · exact hblock _ _ h.holding.feature a ha.symm

/-- The arrays of `src` are none of the new ones, and stay as they are if only those of `dst` are freed. -/
theorem Source.cells_eq (hsrc : Source feature_w heap src points edges features) (hdst : Target heap dst src)
    (hfresh : heap.Fresh) (hkept : ∀ b < heap.next, some b ∉ dst.arrays → heap'.block b = heap.block b) {p : Pointer}
    (hp : p ∈ src.arrays) : heap'.cells p = heap.cells p ∧ ∀ k, p ≠ some (heap.next + k) := by
  have hlt : ∀ a, p = some a → a < heap.next := fun a ha => hsrc.lt_next hfresh a (ha ▸ hp)
  refine ⟨Heap.cells_eq fun a ha => hkept a (hlt a ha) fun hmem => hdst.apart a hmem (ha ▸ hp), fun k hk => ?_⟩
  have := hlt _ hk
  omega

/-- The first loop: it copies two arrays side by side. -/
theorem copyPoints_eq_some {p q : Pointer} {a c n : Nat} {cs ds es fs : List (Option (Item F))}
    (hp : heap.cells p = some cs) (hq : heap.cells q = some es) (hpa : p ≠ some a) (hpc : p ≠ some c)
    (hqa : q ≠ some a) (hqc : q ≠ some c) (hac : a ≠ c) (ha : heap.block a = some ds) (hc : heap.block c = some fs)
    (hcs : n ≤ cs.length) (hds : n ≤ ds.length) (hes : n ≤ es.length) (hfs : n ≤ fs.length) :
    ∃ heap', Checked.forLoop 0 n (fun i heap => do
        let heap ← heap.copyCell p a i
        heap.copyCell q c i) heap = some heap' ∧ heap'.next = heap.next ∧
      heap'.block a = some (Heap.overlay n cs ds) ∧ heap'.block c = some (Heap.overlay n es fs) ∧
      ∀ b, b ≠ a → b ≠ c → heap'.block b = heap.block b := by
  obtain ⟨heap', hrun, hI⟩ := Checked.foldlM_eq_some (l := List.range n) (s := heap)
    (f := fun heap i => do
      let heap ← heap.copyCell p a i
      heap.copyCell q c i)
    (fun pre heap' => heap'.next = heap.next ∧ heap'.block a = some (Heap.overlay pre.length cs ds) ∧
      heap'.block c = some (Heap.overlay pre.length es fs) ∧ ∀ b, b ≠ a → b ≠ c → heap'.block b = heap.block b)
    ⟨rfl, ha, hc, fun _ _ _ => rfl⟩ (by
    rintro pre i post heap₁ hpre ⟨hnext, hblocka, hblockc, hother⟩
    obtain ⟨rfl, hi⟩ := range_split hpre
    have hcells : ∀ r : Pointer, r ≠ some a → r ≠ some c → heap₁.cells r = heap.cells r := fun r hra hrc =>
      Heap.cells_eq fun b hb => hother b (fun heq => hra (by rw [hb, heq])) fun heq => hrc (by rw [hb, heq])
    have hfirst := Heap.copyCell_eq ((hcells p hpa hpc).trans hp) (by omega) hblocka (by omega)
    -- the second array has not been written to by the first copy
    have hsame : ∀ b, b ≠ a →
        Function.update heap₁.block a (some (Heap.overlay (pre.length + 1) cs ds)) b = heap₁.block b :=
      fun b hb => Function.update_of_ne hb ..
    have hq' : Heap.cells ⟨_, heap₁.next⟩ q = some es :=
      (Heap.cells_congr hsame hqa).trans ((hcells q hqa hqc).trans hq)
    have hsecond := Heap.copyCell_eq hq' (by omega) ((hsame c hac.symm).trans hblockc) (by omega)
    refine ⟨⟨Function.update (Function.update heap₁.block a (some (Heap.overlay (pre.length + 1) cs ds))) c
      (some (Heap.overlay (pre.length + 1) es fs)), heap₁.next⟩, by rw [hfirst]; exact hsecond, hnext, ?_, ?_,
      fun b hba hbc => ?_⟩
    · rw [List.length_append, List.length_singleton]
      exact (Function.update_of_ne hac ..).trans (Function.update_self ..)
    · rw [List.length_append, List.length_singleton]
      exact Function.update_self ..
    · exact (Function.update_of_ne hbc ..).trans ((Function.update_of_ne hba ..).trans (hother b hba hbc)))
  rw [List.length_range] at hI
  exact ⟨heap', by rw [Checked.forLoop, Nat.sub_zero, ← List.range_eq_range']; exact hrun, hI⟩

/-! ## The call -/

/-- The structure of the copy. -/
def copyOf (src : FullGraph) (next : Nat) : FullGraph :=
  { src with pt_list := some next, edge_list := some (next + 1), feature := some (next + 2) }

/-- A copy as long as the items replaces all of the new array, or else its beginning. -/
theorem overlay_items {items : List (Item F)} {cs : List (Option (Item F))} (hstart : items.map some <+: cs) {n m : Nat}
    (hn : n ≤ items.length) :
    Heap.overlay n cs (List.replicate m none) = (items.take n).map some ++ List.replicate (m - n) none := by
  obtain ⟨rest, rfl⟩ := hstart
  rw [Heap.overlay, List.take_append_of_le_length (by rwa [List.length_map]), List.map_take, List.drop_replicate]

/-- The memory before the loops: the arrays of `dst` have been freed, and three new ones allocated. -/
theorem copyGraph_start (hsrc : Source feature_w heap src points edges features) (hdst : Target heap dst src) :
    ∃ heap₂ : Heap (Item F), copyGraph feature_w heap dst src = (do
        let heap' ← Checked.forLoop 0 src.count (fun i heap' => do
          let heap' ← heap'.copyCell src.pt_list heap.next i
          heap'.copyCell src.feature (heap.next + 2) i) heap₂
        let heap' ← heap'.copyCells src.edge_list (heap.next + 1) src.line_count
        return (heap', copyOf src heap.next)) ∧
      heap₂.block heap.next = some (List.replicate (room src.count) none) ∧
      heap₂.block (heap.next + 1) = some (List.replicate (room (src.count * src.count)) none) ∧
      heap₂.block (heap.next + 2) = some (List.replicate (room (src.count * feature_w)) none) ∧
      ∀ b < heap.next, some b ∉ dst.arrays → heap₂.block b = heap.block b := by
  obtain ⟨heap₁, hfree, hnext, hfreed⟩ := Heap.free_all hdst.allocated hdst.distinct
  obtain ⟨hnew₁, hnew₂, hnew₃, hold⟩ :=
    heap₁.malloc_three (room src.count) (room (src.count * src.count)) (room (src.count * feature_w))
  have hrun : copyGraph feature_w heap dst src = (do
      let heap ← Checked.forLoop 0 src.count (fun i heap => do
        let heap ← heap.copyCell src.pt_list heap₁.next i
        heap.copyCell src.feature (heap₁.next + 2) i)
        (((heap₁.malloc (room src.count)).1.malloc (room (src.count * src.count))).1.malloc
          (room (src.count * feature_w))).1
      let heap ← heap.copyCells src.edge_list (heap₁.next + 1) src.line_count
      return (heap, copyOf src heap₁.next)) := by
    rw [copyGraph, deleteGraph_eq, hfree]
    simp only [Option.map_some, Option.bind_eq_bind, Option.bind_some, strcpy_self hsrc.name]
    rfl
  rw [hnext] at *
  exact ⟨_, hrun, hnew₁, hnew₂, hnew₃, fun b hb hb' => (hold b hb).trans (by rw [hfreed, if_neg hb'])⟩

/-- **All but the edges**: the memory before the last loop. -/
theorem copyGraph_eq (hsrc : Source feature_w heap src points edges features) (hdst : Target heap dst src)
    (hfresh : heap.Fresh) (hw : 1 ≤ feature_w) :
    ∃ heap₅ : Heap (Item F), copyGraph feature_w heap dst src =
        (heap₅.copyCells src.edge_list (heap.next + 1) src.line_count).map (fun heap' => (heap', copyOf src heap.next)) ∧
      heap₅.block heap.next = some ((points.map .point).map some) ∧
      heap₅.block (heap.next + 1) = some (List.replicate (room (points.length * points.length)) none) ∧
      heap₅.block (heap.next + 2) = some (((features.map .feature).take points.length).map some ++
        List.replicate (features.length - points.length) none) ∧
      ∀ b < heap.next, some b ∉ dst.arrays → heap₅.block b = heap.block b := by
  obtain ⟨heap₂, hrun, hnew₁, hnew₂, hnew₃, hkept⟩ := copyGraph_start hsrc hdst
  obtain ⟨cs, hcs, hpoints⟩ := hsrc.holding.pt_list
  obtain ⟨es, hes, hfeatures⟩ := hsrc.holding.feature
  have hcount := hsrc.holding.count
  have hle : points.length ≤ features.length := by
    rw [hsrc.per_point]
    exact Nat.le_mul_of_pos_right _ hw
  -- the new arrays of points and features are as long as those of `src`
  have hfits := hsrc.fits
  rw [hcount, room_eq (by unfold cellSize at *; omega)] at hnew₁
  rw [hcount, ← hsrc.per_point, room_eq hfits] at hnew₃
  obtain ⟨hpt, hpt'⟩ := hsrc.cells_eq hdst hfresh hkept (p := src.pt_list) (by simp [FullGraph.arrays])
  obtain ⟨hft, hft'⟩ := hsrc.cells_eq hdst hfresh hkept (p := src.feature) (by simp [FullGraph.arrays])
  have hcslen := hpoints.length_le
  have heslen := hfeatures.length_le
  rw [List.length_map, List.length_map] at hcslen heslen
  obtain ⟨heap₅, hloop, -, hblock₁, hblock₃, hother⟩ := copyPoints_eq_some (n := src.count)
    (a := heap.next) (c := heap.next + 2) (hpt.trans hcs)
    (hft.trans hes) (hpt' 0) (hpt' 2) (hft' 0) (hft' 2) (by omega) hnew₁ hnew₃ (by omega)
    (by rw [List.length_replicate, hcount]) (by omega) (by rw [List.length_replicate]; omega)
  refine ⟨heap₅, ?_, ?_, ?_, ?_, fun b hb hb' => ?_⟩
  · rw [hrun, hloop, Option.bind_eq_bind, Option.bind_some]
    cases heap₅.copyCells src.edge_list (heap.next + 1) src.line_count <;> rfl
  · rw [hblock₁, hcount, overlay_items hpoints (by rw [List.length_map]), Nat.sub_self, List.take_of_length_le (by simp)]
    simp
  · rw [hother _ (by omega) (by omega), hnew₂, hcount]
  · rw [hblock₃, hcount, overlay_items hfeatures (by rwa [List.length_map])]
  · rw [hother b (by omega) (by omega), hkept b hb hb']

/-- The last loop: if the new array has room, it gets the edges, and nothing else changes. -/
theorem copyEdges {heap₅ : Heap (Item F)} (hsrc : Source feature_w heap src points edges features)
    (hfresh : heap.Fresh) (hcells : heap₅.cells src.edge_list = heap.cells src.edge_list) {m : Nat}
    (hnew : heap₅.block (heap.next + 1) = some (List.replicate m none)) (hroom : edges.length ≤ m) :
    ∃ heap₆, heap₅.copyCells src.edge_list (heap.next + 1) src.line_count = some heap₆ ∧
      heap₆.block (heap.next + 1) = some ((edges.map .edge).map some ++ List.replicate (m - edges.length) none) ∧
      ∀ b, b ≠ heap.next + 1 → heap₆.block b = heap₅.block b := by
  obtain ⟨cs, hcs, hedges⟩ := hsrc.holding.edge_list
  have hcslen := hedges.length_le
  rw [List.length_map, List.length_map] at hcslen
  have hlines := hsrc.holding.line_count
  have hne : src.edge_list ≠ some (heap.next + 1) := fun heq => by
    have := hsrc.lt_next hfresh (heap.next + 1) (by simp [FullGraph.arrays, heq])
    omega
  obtain ⟨heap₆, hrun, -, hblock, hother⟩ := Heap.copyCells_eq_some (n := src.line_count) (hcells.trans hcs) hne hnew
    (by omega) (by rw [List.length_replicate]; omega)
  refine ⟨heap₆, hrun, ?_, hother⟩
  rw [hblock, hlines, overlay_items hedges (by rw [List.length_map]), List.take_of_length_le (by simp)]

/-! ## Graphs in the memory -/

/-- Points, edges and features, in a memory of three blocks. -/
def arraysOf (points : List Point) (edges : List Edge) (features : List F) : Heap (Item F) where
  block a := [(points.map .point).map some, (edges.map .edge).map some, (features.map .feature).map some][a]?
  next := 3

/-- The graph with these arrays. -/
def graphOf (points : List Point) (edges : List Edge) : FullGraph :=
  ⟨⟨edges.length, points.length, 0, some 0, some 1, some 2⟩, [Str.nul], ⟨0, 0, 0, 0⟩⟩

/-- A point, an edge from it to itself, and features. -/
def onePoint (features : List Nat) : Heap (Item Nat) := arraysOf [⟨3, 4⟩] [⟨0, 0⟩] features

/-- The graph with these arrays. -/
def onePointGraph : FullGraph := graphOf [⟨3, 4⟩] [⟨0, 0⟩]

/-- A graph as `InitGraph` leaves it. -/
def freshGraph : FullGraph := ⟨initGraph, [Str.nul], ⟨0, 0, 0, 0⟩⟩

theorem source_graphOf (hper : features.length = points.length * feature_w)
    (hfits : cellSize * features.length < 2 ^ 32) :
    Source feature_w (arraysOf points edges features) (graphOf points edges) points edges features :=
  ⟨⟨rfl, rfl, ⟨_, rfl, List.prefix_rfl⟩, ⟨_, rfl, List.prefix_rfl⟩, ⟨_, rfl, List.prefix_rfl⟩⟩, hper,
    List.mem_singleton_self _, hfits⟩

theorem target_freshGraph (heap : Heap (Item F)) (src : FullGraph) : Target heap freshGraph src := by
  have hnull : ∀ a, some a ∉ freshGraph.arrays := by simp [freshGraph, FullGraph.arrays, initGraph]
  exact ⟨fun a ha => absurd ha (hnull a), by simp [freshGraph, FullGraph.arrays, initGraph],
    fun a ha => absurd ha (hnull a)⟩

theorem fresh_arraysOf (points : List Point) (edges : List Edge) (features : List F) :
    (arraysOf points edges features).Fresh := by
  intro a ha
  by_contra hge
  have hout : 3 ≤ a := Nat.le_of_not_lt hge
  have hblock : (arraysOf points edges features).block a = none := List.getElem?_eq_none hout
  simp [hblock] at ha

/-! ## The exact condition -/

/-- **When a copy is complete**: there is one feature for each point, or no point at all, and the edges find room. -/
theorem copied_iff (hsrc : Source feature_w heap src points edges features) (hdst : Target heap dst src)
    (hfresh : heap.Fresh) (hw : 1 ≤ feature_w) :
    Copied feature_w heap dst src points edges features ↔
      (points = [] ∨ feature_w = 1) ∧ edges.length ≤ room (points.length * points.length) := by
  obtain ⟨heap₅, hrun, hpoints, hedges, hfeatures, hkept⟩ := copyGraph_eq hsrc hdst hfresh hw
  have hold : ∀ a, some a ∈ src.arrays → a < heap.next ∧ heap₅.block a = heap.block a := fun a ha =>
    ⟨hsrc.lt_next hfresh a ha, hkept a (hsrc.lt_next hfresh a ha) fun hmem => hdst.apart a hmem ha⟩
  have hcells : heap₅.cells src.edge_list = heap.cells src.edge_list := Heap.cells_eq fun a ha =>
    (hold a (by simp [FullGraph.arrays, ha])).2
  constructor
  · rintro ⟨heap', dst', hcopy, -, hholding, -⟩
    rw [hrun, Option.map_eq_some_iff] at hcopy
    obtain ⟨heap₆, hlast, heq⟩ := hcopy
    obtain ⟨rfl, rfl⟩ := Prod.mk.inj heq
    have hroom := Heap.length_of_copyCells hedges hlast
    rw [List.length_replicate, hsrc.holding.line_count] at hroom
    obtain ⟨heap₆', hlast', -, hother⟩ := copyEdges hsrc hfresh hcells hedges hroom
    obtain rfl := Option.some.inj (hlast.symm.trans hlast')
    refine ⟨?_, hroom⟩
    by_contra hmany
    rw [not_or] at hmany
    have hlt : points.length < features.length := by
      have hpos := List.length_pos_of_ne_nil hmany.1
      have hmul := Nat.mul_le_mul_left points.length (show 2 ≤ feature_w by omega)
      rw [hsrc.per_point]
      omega
    have hle := hholding.feature.length_le ((hother _ (by omega)).trans hfeatures)
    rw [List.length_map] at hle
    omega
  · rintro ⟨hone, hroom⟩
    obtain ⟨heap₆, hlast, hblock, hother⟩ := copyEdges hsrc hfresh hcells hedges hroom
    have hall : features.length = points.length := by
      rw [hsrc.per_point]
      rcases hone with rfl | rfl
      · simp
      · simp
    refine ⟨heap₆, copyOf src heap.next, by rw [hrun, hlast]; rfl, ⟨rfl, rfl, rfl⟩,
      ⟨hsrc.holding.count, hsrc.holding.line_count, ⟨_, ?_, List.prefix_rfl⟩, ⟨_, hblock, List.prefix_append _ _⟩,
        ⟨_, ?_, List.prefix_rfl⟩⟩, ?_, ?_, hsrc.congr fun a ha => ?_⟩
    · exact (hother _ (by omega)).trans hpoints
    · refine (hother _ (by omega)).trans ?_
      rw [hfeatures, hall, Nat.sub_self, List.take_of_length_le (by rw [List.length_map, hall])]
      simp
    · intro a ha
      simp only [copyOf, FullGraph.arrays, List.mem_cons, Option.some.injEq, List.not_mem_nil, or_false] at ha
      omega
    · exact fun a ha hmem => (hother a (by omega)).trans (hkept a ha hmem)
    · exact (hother a (by have := (hold a ha).1; omega)).trans (hold a ha).2

/-- Three points. -/
def corners : List Point := [⟨3, 4⟩, ⟨-1, 9⟩, ⟨-5, 2⟩]

/-- The edges between them. -/
def sides : List Edge := [⟨0, 1⟩, ⟨1, 2⟩, ⟨2, 0⟩]

/-- A triangle with one feature for each point is copied. -/
theorem copied_triangle : Copied 1 (arraysOf corners sides [5, 6, 7]) freshGraph (graphOf corners sides) corners sides
    [5, 6, 7] :=
  (copied_iff (source_graphOf rfl (by decide)) (target_freshGraph _ _) (fresh_arraysOf _ _ _) le_rfl).2
    ⟨.inr rfl, by decide⟩

/-- A point with two features is not: the second one is missing. -/
theorem not_copied_onePoint : (Source 2 (onePoint [5, 6]) onePointGraph [⟨3, 4⟩] [⟨0, 0⟩] [5, 6] ∧
    Target (onePoint [5, 6]) freshGraph onePointGraph ∧ (onePoint [5, 6]).Fresh) ∧
    ¬ Copied 2 (onePoint [5, 6]) freshGraph onePointGraph [⟨3, 4⟩] [⟨0, 0⟩] [5, 6] := by
  refine ⟨⟨source_graphOf rfl (by decide), target_freshGraph _ _, fresh_arraysOf _ _ _⟩, ?_⟩
  rintro ⟨heap', dst', hcopy, -, hholding, -⟩
  have hrun : (copyGraph 2 (onePoint [5, 6]) freshGraph onePointGraph).bind (fun r => r.1.cells r.2.feature) =
      some [some (.feature 5), none] := rfl
  rw [hcopy, Option.bind_some] at hrun
  obtain ⟨cs, hcs, hstart⟩ := hholding.feature
  obtain rfl := Option.some.inj (hcs.symm.trans hrun)
  exact absurd hstart (by simp)

end LeftFelt.Graph
