import LeftFelt.Image.BiImage

/-!
# Labelling

`ImageUtil::Labeling`: two sweeps give provisional labels to the white pixels that are not at the border and link labels
that meet in `Lookup_table`; after each sweep the links are followed to their ends and the pixels relabelled. At last
the labels in use are numbered through.

The tables are lists of `width * height` numbers. A read outside a table is undefined in C++; the value that the
model gives it does not matter, since it does not happen.
-/

namespace LeftFelt.ImageUtil

open Lib BiImage

/-- The tables of `Labeling`. -/
structure Labeler where
  labelList : List Nat
  lookup : List Nat
  labelCount : Nat
  deriving DecidableEq

/-- `label_list` is 0 everywhere, `Lookup_table[i]` is `i`, and the first label is 1. -/
def startLabels (size : Nat) : Labeler := ⟨List.replicate size 0, List.range size, 1⟩

/-- `min_data`: the labels of the eight neighbours. -/
def minData (width : Nat) (labelList : List Nat) (w h : Nat) : List Nat :=
  ((List.range 9).filter fun i => ¬(i % 3 = 1 ∧ i / 3 = 1)).map fun i =>
    labelList.getD ((w + i % 3 - 1) + (h + i / 3 - 1) * width) 0

/-- `min_calc(p)`. -/
def minCalc (p : List Nat) : Nat :=
  p.foldl (fun min v => if v ≠ 0 then if min > v then v else min else min) 0xFFFF

/-- The body of the loop over `j`. -/
def linkLabel (min : Nat) (lookup : List Nat) (l : Nat) : List Nat :=
  if l ≠ min ∧ l ≠ 0 then if lookup.getD l 0 ≥ min then lookup.set l min else lookup else lookup

/-- The loop over `j`: labels that meet the smaller label `min` are linked to it. -/
def linkLabels (min : Nat) (data lookup : List Nat) : List Nat :=
  data.foldl (linkLabel min) lookup

/-- The body of the loops over the inner pixels. -/
def labelPixel (image : BiImage) (w h : Nat) (s : Labeler) : Labeler :=
  if (image.get w h).lightness = 255 then
    let data := minData image.width s.labelList w h
    let flagCount := (data.filter (· = 0)).length
    if flagCount = 8 then
      { s with labelList := s.labelList.set (w + h * image.width) s.labelCount, labelCount := s.labelCount + 1 }
    else
      let min := minCalc data
      { s with lookup := linkLabels min data s.lookup, labelList := s.labelList.set (w + h * image.width) min }
  else s

/-- The loops over the inner pixels. -/
def sweep (image : BiImage) (s : Labeler) : Labeler :=
  forLoop 1 (image.height - 1) (fun h => forLoop 1 (image.width - 1) fun w => labelPixel image w h) s

/-- `Lookup_update(i, label)`, at most `fuel` calls deep. -/
def lookupUpdate : Nat → Nat → List Nat → Option Nat
  | 0, _, _ => none
  | fuel + 1, i, label => if i = label.getD i 0 then some (label.getD i 0) else lookupUpdate fuel (label.getD i 0) label

/-- The body of the loop over the table. -/
def updateEntry (fuel : Nat) (lookup : List Nat) (h : Nat) : Option (List Nat) :=
  if h ≠ lookup.getD h 0 then (lookupUpdate fuel h lookup).map fun a => lookup.set h a else some lookup

/-- The loop that replaces every link by its end. -/
def updateAll (fuel : Nat) (s : Labeler) : Option (List Nat) :=
  (List.range s.labelCount).foldlM (updateEntry fuel) s.lookup

/-- The links are replaced, and every label by its link. -/
def relabel (lookup : List Nat) (s : Labeler) : Labeler :=
  { s with lookup := lookup, labelList := s.labelList.map fun l => if l ≠ 0 then lookup.getD l 0 else l }

/-- One value of `k`: a sweep, the links, and the relabelling of all labelled pixels. -/
def pass (fuel : Nat) (image : BiImage) (s : Labeler) : Option Labeler :=
  let s := sweep image s
  (updateAll fuel s).map fun lookup => relabel lookup s

/-- The loop over `k`. -/
def passes (fuel : Nat) (image : BiImage) : Option Labeler :=
  (pass fuel image (startLabels (image.width * image.height))).bind (pass fuel image)

/-- The loop that fills `sub_table`, and `i`: the labels in use are numbered in the order of their first use. -/
def subTable (size : Nat) (s : Labeler) : List Int × Int :=
  forLoop 0 s.labelCount (fun h t =>
    if t.1.getD (s.lookup.getD h 0) (-1) = -1 then (t.1.set (s.lookup.getD h 0) t.2, t.2 + 1) else t)
    (List.replicate size (-1), 0)

/-- The last loops: `image` gets the numbers. -/
def writeLabels (sub : List Int) (s : Labeler) (image : BiImage) : BiImage :=
  let lookup := (List.range s.labelCount).map fun h => sub.getD (s.lookup.getD h 0) (-1)
  forEach image.width image.height (fun w h out =>
    if s.labelList.getD (w + h * image.width) 0 ≠ 0 then
      out.put w h ((out.get w h).setLabel (lookup.getD (s.labelList.getD (w + h * image.width) 0) 0))
    else out) image

/-- `Labeling(image)`: the number of labels, the background's 0 included, and the image. -/
def labeling (fuel : Nat) (image : BiImage) : Option (Int × BiImage) :=
  (passes fuel image).map fun s =>
    ((subTable (image.width * image.height) s).2, writeLabels (subTable (image.width * image.height) s).1 s image)

end LeftFelt.ImageUtil
