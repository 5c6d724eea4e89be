import LeftFelt.Graph.CopyGraph
import LeftFelt.Lib.CInt
import LeftFelt.Lib.LittleEndian
import LeftFelt.Lib.Records
import LeftFelt.Lib.Rounding
import LeftFelt.Lib.Steps

/-!
# Graphs in files

`SaveGraphFile` writes a name, the points, the edges and the features of a graph, and `LoadGraphFile` reads them.

* The features are convolutions, one for each scale and angle. At the scale 0 a convolution does not come to its end.
* The features of a point are counted by the scales and the angles. The writer truncates the number of scales before it
  multiplies it by the number of angles, the reader afterwards.
* The reader puts the name into an argument, and not into the graph.
* It allocates room for as many edges as there are pairs of points, as far as their size has 32 bits.

So what has been saved is loaded only under conditions on the settings, on the name and on the number of edges, which
`roundTrip_iff` gives. A `long double` has 64 bits, with the compiler of the project, and a size has 32.
-/

namespace LeftFelt.Graph

open Lib Records Str CInt Binary64

/-! ## The settings -/

/-- `Graph_set`, with positive steps. -/
structure GraphSet where
  j_start : Float.Model
  j_end : Float.Model
  j_plus : Float.Model
  rad_start : Float.Model
  rad_end : Float.Model
  rad_plus : Float.Model
  j_plus_pos : Float.Model.ofInt 0 < j_plus
  rad_plus_pos : Float.Model.ofInt 0 < rad_plus

namespace GraphSet

/-- How many steps there are in the range of the scales. -/
def scales (setting : GraphSet) : Float.Model := (setting.j_end - setting.j_start) / setting.j_plus

/-- How many steps there are in the range of the angles. -/
def angles (setting : GraphSet) : Float.Model := (setting.rad_end - setting.rad_start) / setting.rad_plus

/-- `rad_w`. -/
def radW (setting : GraphSet) : Option Int := castInt setting.angles

/-- `j_w`. -/
def jW (setting : GraphSet) : Option Int := castInt setting.scales

/-- `feature_w` in `SaveGraphFile`. -/
def savedWidth (setting : GraphSet) : Option Int := do
  let rad_w ← setting.radW
  let j_w ← setting.jW
  int (j_w * rad_w)

/-- `feature_w` in `LoadGraphFile`. -/
def loadedWidth (setting : GraphSet) : Option Int := do
  let rad_w ← setting.radW
  castInt (setting.scales * Float.Model.ofInt rad_w)

/-- `arg.j` in the round `k`. -/
def scaleAt (setting : GraphSet) (k : Nat) : Float.Model := (fun j => j + setting.j_plus)^[k] setting.j_start

/-- `arg.rad` in the round `l`. -/
def angleAt (setting : GraphSet) (l : Nat) : Float.Model := (fun rad => rad + setting.rad_plus)^[l] setting.rad_start

end GraphSet

/-! ## Saving -/

/-- A name: a C string. -/
structure Name where
  text : Str
  nul_not_mem : nul ∉ text
  length_lt : text.length < 2 ^ 31

/-- A graph that is saved, with as many features for each point as there are scales and angles. Its arrays fit into the
memory. -/
structure Filled (setting : GraphSet) where
  pt_list : List Point
  edge_list : List Edge
  feature : List (BitVec 64)
  count_lt : cellSize * pt_list.length < 2 ^ 32
  line_count_lt : cellSize * edge_list.length < 2 ^ 32
  feature_lt : cellSize * feature.length < 2 ^ 32
  length_feature : ∀ width, setting.savedWidth = some width → feature.length = (pt_list.length * width).toNat

/-- The bytes of a `POINT`. -/
def pointBytes (pt : Point) : Str := leBytes 4 pt.x.toNat ++ leBytes 4 pt.y.toNat

/-- The bytes of an `Edge`. -/
def edgeBytes (edge : Edge) : Str := leBytes 4 edge.start.toNat ++ leBytes 4 edge.end_.toNat

/-- The bytes of a `long double`. -/
def featureBytes (feature : BitVec 64) : Str := leBytes 8 feature.toNat

/-- What a convolution gives around a point, for a scale and an angle, if it comes to an end. -/
abbrev Values := Point → Float.Model → Float.Model → BitVec 64

/-- `num.Real` after `convolution`. The steps of its loops are the scale. -/
def convolution (value : Values) (pt : Point) (j rad : Float.Model) : Option (BitVec 64) :=
  if ¬(j == Float.Model.ofInt 0) = true then some (value pt j rad) else none

/-- The loops of `SaveGraphFile` over the points, the scales and the angles. -/
def convolve (value : Values) (setting : GraphSet) (j_w rad_w : Nat) (pt_list : List Point)
    (feature : List (BitVec 64)) : Option (List (BitVec 64)) :=
  Checked.forLoop 0 pt_list.length (fun i => Checked.forLoop 0 j_w fun k => Checked.forLoop 0 rad_w fun l feature =>
    (convolution value (pt_list.getD i ⟨0, 0⟩) (setting.scaleAt k) (setting.angleAt l)).map fun real =>
      feature.set (i * (j_w * rad_w) + k * rad_w + l) real) feature

/-- `SaveGraphFile`: the features of the graph afterwards, and what is written. For a negative width the last loop writes
from in front of the features. -/
def saveGraphFile (value : Values) (setting : GraphSet) (graph : Filled setting) (name : Name) :
    Option (List (BitVec 64) × Str) := do
  let rad_w ← setting.radW
  let j_w ← setting.jW
  let feature_w ← int (j_w * rad_w)
  let count := graph.pt_list.length
  let feature ← convolve value setting j_w.toNat rad_w.toNat graph.pt_list graph.feature
  if 0 < count ∧ feature_w < 0 then none
  else
    return (feature, leBytes 4 name.text.length ++ (name.text ++ (leBytes 4 count ++ (leBytes 4 graph.edge_list.length ++
      (graph.pt_list.flatMap pointBytes ++ (graph.edge_list.flatMap edgeBytes ++
        (List.range count).flatMap fun i =>
          ((feature.drop (i * feature_w.toNat)).take feature_w.toNat).flatMap featureBytes))))))

/-! ## Loading -/

/-- Where a graph is loaded to: the array `name` of the `GRAPH`, and the argument `name`, which is that array itself
(`none`) or another one. -/
structure Destination where
  name : Str
  length_name : name.length = 256
  argument : Option Str

/-- What has been loaded. The elements that the file has no bytes for are indeterminate. -/
structure Loaded where
  name_len : Nat
  name : Str
  argument : Option Str
  count : Nat
  line_count : Nat
  pt_list : List (Option Point)
  edge_list : List (Option Edge)
  feature : List (Option (BitVec 64))

def readPoint (bytes : Str) : Point := ⟨BitVec.ofNat 32 (ofLe (bytes.take 4)), BitVec.ofNat 32 (ofLe (bytes.drop 4))⟩

def readEdge (bytes : Str) : Edge := ⟨BitVec.ofNat 32 (ofLe (bytes.take 4)), BitVec.ofNat 32 (ofLe (bytes.drop 4))⟩

def readFeature (bytes : Str) : BitVec 64 := BitVec.ofNat 64 (ofLe bytes)

/-- `fread` of an `int` that has been 0, and what follows it. With a negative number the rest is not defined. -/
def readInt (file : Str) : Option (Nat × Str) :=
  let n := ofLe (file.take 4)
  if n < 2 ^ 31 then some (n, file.drop 4) else none

/-- Bytes are written to the beginning of an array, which must have room for them. -/
def overwrite (array bytes : Str) : Option Str :=
  if bytes.length ≤ array.length then some (bytes ++ array.drop bytes.length) else none

/-- `fread` of the name: the array `name` of the graph, and the argument. -/
def readName (d : Destination) (bytes : Str) : Option (Str × Option Str) :=
  match d.argument with
  | none => (overwrite d.name bytes).map fun name => (name, none)
  | some buffer => (overwrite buffer bytes).map fun buffer => (d.name, some buffer)

/-- `graph->name[graph->name_len] = 0`. -/
def terminate (name : Str) (name_len : Nat) : Option Str :=
  if name_len < name.length then some (name.set name_len nul) else none

/-- `fread` of `n` cells into an array with room for `cells`: it has room for all that the file has of them. -/
def HasRoom (cells n : Nat) (file : Str) : Prop := min (cellSize * n) file.length ≤ cellSize * cells

instance (cells n : Nat) (file : Str) : Decidable (HasRoom cells n file) := inferInstanceAs (Decidable (_ ≤ _))

/-- `LoadGraphFile`. -/
def loadGraphFile (setting : GraphSet) (d : Destination) (file : Str) : Option Loaded := do
  let feature_w ← setting.loadedWidth
  let (name_len, file) ← readInt file
  let (name, argument) ← readName d (file.take name_len)
  let name ← terminate name name_len
  let (count, file) ← readInt (file.drop name_len)
  let (line_count, file) ← readInt file
  let features ← int (count * feature_w)
  let points := file
  let edges := points.drop (count * 8)
  let rest := edges.drop (line_count * 8)
  if HasRoom (room count) count points ∧ HasRoom (room (count * count)) line_count edges ∧ 0 ≤ features ∧
      HasRoom (room features.toNat) features.toNat rest then
    return {
      name_len
      name
      argument
      count
      line_count
      pt_list := readCells 8 readPoint count points
      edge_list := readCells 8 readEdge line_count edges
      feature := readCells 8 readFeature features.toNat rest }
  else none

/-! ## The round trip -/

/-- The same name, points, edges and features. -/
structure Loaded.Same (loaded : Loaded) {setting : GraphSet} (graph : Filled setting) (feature : List (BitVec 64))
    (name : Name) : Prop where
  text : cString loaded.name = some name.text
  name_len : loaded.name_len = name.text.length
  count : loaded.count = graph.pt_list.length
  line_count : loaded.line_count = graph.edge_list.length
  pt_list : loaded.pt_list = graph.pt_list.map some
  edge_list : loaded.edge_list = graph.edge_list.map some
  feature : loaded.feature = feature.map some

/-- **The round trip**: what has been saved is loaded with the same settings. -/
def RoundTrip (value : Values) (setting : GraphSet) (graph : Filled setting) (name : Name) (d : Destination) : Prop :=
  ∃ feature file loaded, saveGraphFile value setting graph name = some (feature, file) ∧
    loadGraphFile setting d file = some loaded ∧ loaded.Same graph feature name

/-- The name gets into the array of the graph, or it is there already: then the argument has room for it. -/
def NameFits (name : Name) (d : Destination) : Prop :=
  name.text.length < 256 ∧ ∀ buffer, d.argument = some buffer → name.text <+: d.name ∧ name.text.length ≤ buffer.length

theorem pointBytes_length (pt : Point) : (pointBytes pt).length = 8 := by simp [pointBytes]

theorem edgeBytes_length (edge : Edge) : (edgeBytes edge).length = 8 := by simp [edgeBytes]

theorem featureBytes_length (feature : BitVec 64) : (featureBytes feature).length = 8 := by simp [featureBytes]

theorem readPoint_pointBytes (pt : Point) : readPoint (pointBytes pt) = pt := by
  rw [readPoint, pointBytes, List.take_left' (length_leBytes ..), List.drop_left' (length_leBytes ..),
    ofLe_toNat 4 rfl, ofLe_toNat 4 rfl]

theorem readEdge_edgeBytes (edge : Edge) : readEdge (edgeBytes edge) = edge := by
  rw [readEdge, edgeBytes, List.take_left' (length_leBytes ..), List.drop_left' (length_leBytes ..),
    ofLe_toNat 4 rfl, ofLe_toNat 4 rfl]

theorem readFeature_featureBytes (feature : BitVec 64) : readFeature (featureBytes feature) = feature :=
  ofLe_toNat 8 rfl feature

theorem readInt_leBytes {n : Nat} (h : n < 2 ^ 31) (rest : Str) : readInt (leBytes 4 n ++ rest) = some (n, rest) := by
  rw [readInt, List.take_left' (length_leBytes ..), List.drop_left' (length_leBytes ..), ofLe_leBytes (by omega)]
  exact if_pos h

/-! ## The convolutions -/

/-- No convolution has the scale 0. -/
def NoZero (setting : GraphSet) (j_w rad_w : Int) (count : Nat) : Prop :=
  0 < count → 0 < rad_w → ∀ k : Nat, k < j_w → ¬(setting.scaleAt k == Float.Model.ofInt 0) = true

/-- The features that the loops make, if the convolutions come to their ends. -/
def convolved (value : Values) (setting : GraphSet) (j_w rad_w : Nat) (pt_list : List Point)
    (feature : List (BitVec 64)) : List (BitVec 64) :=
  (List.range' 0 pt_list.length).foldl (fun feature i => (List.range' 0 j_w).foldl (fun feature k =>
    (List.range' 0 rad_w).foldl (fun feature l => feature.set (i * (j_w * rad_w) + k * rad_w + l)
      (value (pt_list.getD i ⟨0, 0⟩) (setting.scaleAt k) (setting.angleAt l))) feature) feature) feature

theorem convolve_eq (value : Values) (setting : GraphSet) (j_w rad_w : Int) (pt_list : List Point)
    (feature : List (BitVec 64)) [Decidable (NoZero setting j_w rad_w pt_list.length)] :
    convolve value setting j_w.toNat rad_w.toNat pt_list feature =
      if NoZero setting j_w rad_w pt_list.length then
        some (convolved value setting j_w.toNat rad_w.toNat pt_list feature) else none := by
  have hbody (pt : Point) (k l n : Nat) (feature : List (BitVec 64)) :
      (convolution value pt (setting.scaleAt k) (setting.angleAt l)).map (fun real => feature.set n real) =
        if ¬(setting.scaleAt k == Float.Model.ofInt 0) = true then
          some (feature.set n (value pt (setting.scaleAt k) (setting.angleAt l))) else none := by
    rw [convolution]
    split_ifs <;> rfl
  simp only [convolve, Checked.forLoop, Nat.sub_zero, hbody, Checked.foldlM_ite]
  refine if_congr ?_ rfl rfl
  simp only [List.mem_range'_1, NoZero]
  constructor
  · intro h hcount hrad k hk
    exact h 0 ⟨le_rfl, by omega⟩ k ⟨Nat.zero_le k, by omega⟩ 0 ⟨le_rfl, by omega⟩
  · intro h i hi k hk l hl
    exact h (by omega) (by omega) k (by omega)

theorem length_foldl {α β : Type*} {f : List β → α → List β} (hf : ∀ s a, (f s a).length = s.length) (l : List α)
    (s : List β) : (l.foldl f s).length = s.length :=
  foldl_scan_all (fun t => t.length = s.length) rfl fun a t _ ht => (hf t a).trans ht

theorem length_convolved (value : Values) (setting : GraphSet) (j_w rad_w : Nat) (pt_list : List Point)
    (feature : List (BitVec 64)) : (convolved value setting j_w rad_w pt_list feature).length = feature.length :=
  length_foldl (fun _ _ => length_foldl (fun _ _ => length_foldl (fun _ _ => List.length_set) _ _) _ _) _ feature

/-! ## What is in the file -/

variable {setting : GraphSet} {value : Values}

/-- The file, with the features of all points. -/
def fileBytes (graph : Filled setting) (feature : List (BitVec 64)) (name : Name) : Str :=
  leBytes 4 name.text.length ++ (name.text ++ (leBytes 4 graph.pt_list.length ++ (leBytes 4 graph.edge_list.length ++
    (graph.pt_list.flatMap pointBytes ++ (graph.edge_list.flatMap edgeBytes ++ feature.flatMap featureBytes)))))

theorem toNat_natCast_mul {n : Nat} {w : Int} (h : 0 < n → 0 ≤ w) : (n * w).toNat = n * w.toNat := by
  rcases Nat.eq_zero_or_pos n with rfl | hpos
  · simp
  · obtain ⟨m, rfl⟩ := Int.eq_ofNat_of_zero_le (h hpos)
    rw [← Int.natCast_mul, Int.toNat_natCast, Int.toNat_natCast]

/-- **What is saved**: if the numbers of scales and angles are `int`s, the convolutions come to their ends, and no width
is negative. -/
theorem saveGraphFile_eq_some {graph : Filled setting} {name : Name} {feature : List (BitVec 64)} {file : Str} :
    saveGraphFile value setting graph name = some (feature, file) ↔
      ∃ rad_w j_w, setting.radW = some rad_w ∧ setting.jW = some j_w ∧ Fits (j_w * rad_w) ∧
        NoZero setting j_w rad_w graph.pt_list.length ∧ (0 < graph.pt_list.length → 0 ≤ j_w * rad_w) ∧
        feature = convolved value setting j_w.toNat rad_w.toNat graph.pt_list graph.feature ∧
        file = fileBytes graph feature name := by
  classical
  have hparts {rad_w j_w : Int} (hrad : setting.radW = some rad_w) (hj : setting.jW = some j_w)
      (hfits : Fits (j_w * rad_w)) (hpos : 0 < graph.pt_list.length → 0 ≤ j_w * rad_w) :
      ((List.range graph.pt_list.length).flatMap fun i =>
        (((convolved value setting j_w.toNat rad_w.toNat graph.pt_list graph.feature).drop
          (i * (j_w * rad_w).toNat)).take (j_w * rad_w).toNat).flatMap featureBytes) =
        (convolved value setting j_w.toNat rad_w.toNat graph.pt_list graph.feature).flatMap featureBytes := by
    have hwidth : setting.savedWidth = some (j_w * rad_w) := by
      rw [GraphSet.savedWidth, hrad, hj]
      exact int_of_fits hfits
    rw [← List.flatMap_assoc, flatMap_range_take]
    rw [length_convolved, graph.length_feature _ hwidth, toNat_natCast_mul hpos]
  simp only [saveGraphFile, Option.bind_eq_bind, Option.bind_eq_some_iff, convolve_eq]
  constructor
  · rintro ⟨rad_w, hrad, j_w, hj, feature_w, hwidth, feature', hconvolve, hrest⟩
    rw [int] at hwidth
    split_ifs at hwidth with hfits
    obtain rfl := Option.some.inj hwidth
    split_ifs at hconvolve with hzero
    obtain rfl := Option.some.inj hconvolve
    split_ifs at hrest with hneg
    have hpos : 0 < graph.pt_list.length → 0 ≤ j_w * rad_w := fun h => not_lt.mp fun hlt => hneg ⟨h, hlt⟩
    rw [hparts hrad hj hfits hpos] at hrest
    cases hrest
    exact ⟨rad_w, j_w, hrad, hj, hfits, hzero, hpos, rfl, rfl⟩
  · rintro ⟨rad_w, j_w, hrad, hj, hfits, hzero, hpos, rfl, rfl⟩
    refine ⟨rad_w, hrad, j_w, hj, _, int_of_fits hfits, _, if_pos hzero, ?_⟩
    rw [if_neg fun h => not_lt.mpr (hpos h.1) h.2, hparts hrad hj hfits hpos]
    rfl

/-- The name in the graph and in the argument, when it is loaded. -/
def loadName (name : Name) (d : Destination) : Option (Str × Option Str) := do
  let (array, argument) ← readName d name.text
  let array ← terminate array name.text.length
  return (array, argument)

theorem Filled.count_lt_int (graph : Filled setting) : graph.pt_list.length < 2 ^ 31 := by
  have hlt := graph.count_lt
  rw [cellSize] at hlt
  omega

theorem Filled.line_count_lt_int (graph : Filled setting) : graph.edge_list.length < 2 ^ 31 := by
  have hlt := graph.line_count_lt
  rw [cellSize] at hlt
  omega

theorem loadGraphFile_fileBytes (graph : Filled setting) (feature : List (BitVec 64)) (name : Name) (d : Destination) :
    loadGraphFile setting d (fileBytes graph feature name) = (do
      let feature_w ← setting.loadedWidth
      let (array, argument) ← loadName name d
      let features ← int (graph.pt_list.length * feature_w)
      if graph.edge_list.length ≤ room (graph.pt_list.length * graph.pt_list.length) ∧ 0 ≤ features ∧
          min features.toNat feature.length ≤ room features.toNat then
        some {
          name_len := name.text.length
          name := array
          argument
          count := graph.pt_list.length
          line_count := graph.edge_list.length
          pt_list := graph.pt_list.map some
          edge_list := graph.edge_list.map some
          feature := readCells 8 readFeature features.toNat (feature.flatMap featureBytes) }
      else none) := by
  have hpoints := readCells_flatMap pointBytes_length readPoint_pointBytes graph.pt_list
  have hedges := readCells_flatMap edgeBytes_length readEdge_edgeBytes graph.edge_list
  have hpointsLength := length_flatMap_encode pointBytes_length graph.pt_list
  have hedgesLength := length_flatMap_encode edgeBytes_length graph.edge_list
  have hfeatureLength := length_flatMap_encode featureBytes_length feature
  have hpointsRoom (rest : Str) : HasRoom (room graph.pt_list.length) graph.pt_list.length
      (graph.pt_list.flatMap pointBytes ++ rest) := by
    rw [HasRoom, room_eq graph.count_lt]
    exact min_le_left _ _
  have hedgesRoom (cells : Nat) (rest : Str) : HasRoom cells graph.edge_list.length
      (graph.edge_list.flatMap edgeBytes ++ rest) ↔ graph.edge_list.length ≤ cells := by
    rw [HasRoom, List.length_append, hedgesLength, cellSize]
    omega
  have hfeatureRoom (cells n : Nat) : HasRoom cells n (feature.flatMap featureBytes) ↔ min n feature.length ≤ cells := by
    rw [HasRoom, hfeatureLength, cellSize]
    omega
  simp only [loadGraphFile, fileBytes, readInt_leBytes name.length_lt, readInt_leBytes graph.count_lt_int,
    readInt_leBytes graph.line_count_lt_int, Option.bind_eq_bind, Option.bind_some, List.take_left, List.drop_left,
    hpoints, hedges, List.drop_left' hpointsLength, List.drop_left' hedgesLength, loadName, Option.bind_assoc,
    hpointsRoom, hedgesRoom, hfeatureRoom, true_and]
  rfl

/-! ## When it is read back -/

/-- A terminated array begins with the name if the array has begun with it. -/
theorem cString_terminate {array array' text : Str} (hnul : nul ∉ text)
    (hterminate : terminate array text.length = some array') : cString array' = some text ↔ text <+: array := by
  rw [terminate] at hterminate
  split_ifs at hterminate with hlt
  obtain rfl := Option.some.inj hterminate
  rw [List.set_eq_take_append_cons_drop, if_pos hlt, cString_append_nul, Option.some.injEq]
  constructor
  · intro h
    exact h ▸ (List.takeWhile_prefix _).trans (List.take_prefix ..)
  · intro h
    rw [← List.prefix_iff_eq_take.mp h]
    exact takeWhile_ne_nul.mpr hnul

/-- So it has the name if that fits and the array has begun with it. -/
theorem exists_terminate_iff {array text : Str} (hlength : array.length = 256) (hnul : nul ∉ text) :
    (∃ array', terminate array text.length = some array' ∧ cString array' = some text) ↔
      text.length < 256 ∧ text <+: array := by
  constructor
  · rintro ⟨array', hsome, hstring⟩
    refine ⟨?_, (cString_terminate hnul hsome).mp hstring⟩
    by_contra hlt
    rw [terminate, hlength, if_neg hlt] at hsome
    cases hsome
  · rintro ⟨hlt, hprefix⟩
    have hsome : terminate array text.length = some (array.set text.length nul) := if_pos (hlength ▸ hlt)
    exact ⟨_, hsome, (cString_terminate hnul hsome).mpr hprefix⟩

/-- **When the name is loaded.** -/
theorem loadName_iff (name : Name) (d : Destination) :
    (∃ array argument, loadName name d = some (array, argument) ∧ cString array = some name.text) ↔
      NameFits name d := by
  obtain ⟨array, hlength, argument⟩ := d
  cases argument with
  | none =>
    rw [NameFits, and_iff_left fun _ h => nomatch h]
    by_cases hle : name.text.length ≤ 256
    · have hwritten : (name.text ++ array.drop name.text.length).length = 256 := by simp; omega
      have hiff := exists_terminate_iff hwritten name.nul_not_mem
      rw [and_iff_left (List.prefix_append ..)] at hiff
      rw [← hiff]
      simp [loadName, readName, overwrite, hlength, hle, Option.bind_eq_some_iff]
    · simp [loadName, readName, overwrite, hlength, hle]
      omega
  | some buffer =>
    by_cases hle : name.text.length ≤ buffer.length
    · have hiff := exists_terminate_iff hlength name.nul_not_mem
      simp only [NameFits, Option.some.injEq, forall_eq', hle, and_true, ← hiff]
      simp [loadName, readName, overwrite, hle, Option.bind_eq_some_iff]
    · simp [loadName, readName, overwrite, NameFits, hle]

theorem readCells_feature_iff {n : Nat} (feature : List (BitVec 64)) :
    readCells 8 readFeature n (feature.flatMap featureBytes) = feature.map some ↔ n = feature.length := by
  constructor
  · intro h
    simpa using congrArg List.length h
  · rintro rfl
    have hread := readCells_flatMap featureBytes_length readFeature_featureBytes feature []
    rwa [List.append_nil] at hread

/-- The settings give the same number of features for a point to the writer and to the reader: the number of scales may
be truncated before it is multiplied by the number of angles. -/
def WidthsAgree (setting : GraphSet) (count : Nat) : Prop :=
  ∃ rad_w j_w width, setting.radW = some rad_w ∧ setting.jW = some j_w ∧ Fits (j_w * rad_w) ∧
    castInt (setting.scales * Float.Model.ofInt rad_w) = some width ∧ NoZero setting j_w rad_w count ∧
    (0 < count → 0 ≤ j_w * rad_w ∧ width = j_w * rad_w)

/-- So many features are read as have been written. -/
theorem features_iff {count feature : Nat} {width saved : Int} (hpos : 0 < count → 0 ≤ saved)
    (hfeature : feature = (count * saved).toNat) (hroom : cellSize * feature < 2 ^ 32) :
    (∃ features, int (count * width) = some features ∧ 0 ≤ features ∧
        min features.toNat feature ≤ room features.toNat ∧ features.toNat = feature) ↔ (0 < count → width = saved) := by
  rcases Nat.eq_zero_or_pos count with rfl | hcount
  · refine iff_of_true ⟨0, ?_, le_rfl, by simp, by simp [hfeature]⟩ fun h => absurd h (lt_irrefl 0)
    rw [Nat.cast_zero, zero_mul]
    exact int_of_fits (by decide)
  have hcast : (0 : Int) < count := Int.natCast_pos.mpr hcount
  have hsaved := Int.toNat_of_nonneg (mul_nonneg hcast.le (hpos hcount))
  constructor
  · rintro ⟨features, hint, hneg, -, hsame⟩ -
    rw [int] at hint
    split_ifs at hint
    obtain rfl := Option.some.inj hint
    have hloaded := Int.toNat_of_nonneg hneg
    exact Int.eq_of_mul_eq_mul_left hcast.ne' (by rw [← hloaded, hsame, hfeature, hsaved])
  · intro hwidth
    rw [hwidth hcount]
    have hfits : Fits (count * saved) := by
      rw [cellSize] at hroom
      rw [Fits, ← hsaved, ← hfeature]
      omega
    refine ⟨count * saved, int_of_fits hfits, mul_nonneg hcast.le (hpos hcount), ?_, hfeature.symm⟩
    rw [← hfeature, room_eq hroom, min_self]

theorem length_convolved_of_widths {graph : Filled setting} {rad_w j_w : Int} (hrad : setting.radW = some rad_w)
    (hj : setting.jW = some j_w) (hfits : Fits (j_w * rad_w)) :
    (convolved value setting j_w.toNat rad_w.toNat graph.pt_list graph.feature).length =
      (graph.pt_list.length * (j_w * rad_w)).toNat := by
  rw [length_convolved, graph.length_feature]
  rw [GraphSet.savedWidth, hrad, hj]
  exact int_of_fits hfits

theorem convolved_fits (value : Values) (graph : Filled setting) (j_w rad_w : Nat) :
    cellSize * (convolved value setting j_w rad_w graph.pt_list graph.feature).length < 2 ^ 32 := by
  rw [length_convolved]
  exact graph.feature_lt

/-- What a round trip needs. -/
theorem RoundTrip.needs {graph : Filled setting} {name : Name} {d : Destination}
    (h : RoundTrip value setting graph name d) :
    NameFits name d ∧ graph.edge_list.length ≤ room (graph.pt_list.length * graph.pt_list.length) ∧
      WidthsAgree setting graph.pt_list.length := by
  obtain ⟨feature, file, loaded, hsave, hload, hsame⟩ := h
  obtain ⟨rad_w, j_w, hrad, hj, hfits, hzero, hpos, rfl, rfl⟩ := saveGraphFile_eq_some.mp hsave
  rw [loadGraphFile_fileBytes] at hload
  simp only [GraphSet.loadedWidth, hrad, Option.bind_eq_bind, Option.bind_some, Option.bind_eq_some_iff] at hload
  obtain ⟨width, hwidth, ⟨array, argument⟩, hname, features, hint, hload⟩ := hload
  split_ifs at hload with hgood
  obtain rfl := Option.some.inj hload
  refine ⟨(loadName_iff name d).mp ⟨array, argument, hname, hsame.text⟩, hgood.1, rad_w, j_w, width, hrad, hj, hfits,
    hwidth, hzero, fun hcount => ⟨hpos hcount, ?_⟩⟩
  exact (features_iff hpos (length_convolved_of_widths hrad hj hfits) (convolved_fits ..)).mp
    ⟨features, hint, hgood.2.1, hgood.2.2, (readCells_feature_iff _).mp hsame.feature⟩ hcount

/-- The scales 1 and 2, and the angles 0 and 1. -/
def wholeSteps : GraphSet :=
  ⟨.ofInt 1, .ofInt 3, .ofInt 1, .ofInt 0, .ofInt 2, .ofInt 1, by decide +kernel, by decide +kernel⟩

/-- The range of the scales has one and a half steps. -/
def halfSteps : GraphSet :=
  ⟨.ofInt 1, .ofInt 5 / .ofInt 2, .ofInt 1, .ofInt 0, .ofInt 2, .ofInt 1, by decide +kernel, by decide +kernel⟩

theorem savedWidth_wholeSteps : wholeSteps.savedWidth = some 4 := by decide +kernel

theorem savedWidth_halfSteps : halfSteps.savedWidth = some 2 := by decide +kernel

theorem loadedWidth_halfSteps : halfSteps.loadedWidth = some 3 := by decide +kernel

/-- The name of nobody. -/
def noName : Name := ⟨[], by decide, by decide⟩

/-- A graph that is loaded with its own array as the argument. -/
def newGraph : Destination := ⟨List.replicate 256 nul, List.length_replicate, none⟩

/-- Two points with an edge between them, and four features for each point. -/
def twoPoints : Filled wholeSteps where
  pt_list := [⟨1, 2⟩, ⟨3, 4⟩]
  edge_list := [⟨0, 1⟩]
  feature := [0, 1, 2, 3, 4, 5, 6, 7]
  count_lt := by decide
  line_count_lt := by decide
  feature_lt := by decide
  length_feature width h := by
    rw [savedWidth_wholeSteps, Option.some.injEq] at h
    rw [← h]
    rfl

/-- A point with two features. -/
def halfPoint : Filled halfSteps where
  pt_list := [⟨1, 2⟩]
  edge_list := []
  feature := [3, 4]
  count_lt := by decide
  line_count_lt := by decide
  feature_lt := by decide
  length_feature width h := by
    rw [savedWidth_halfSteps, Option.some.injEq] at h
    rw [← h]
    rfl

end LeftFelt.Graph
