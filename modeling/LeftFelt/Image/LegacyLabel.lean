import LeftFelt.Image.LabelingBounds
import LeftFelt.Image.Legacy

/-!
# The legacy labelling

`label`, from which `Labeling` was written. It keeps the labels in the pixels, where a label has 8 bits, and `min_calc`
begins with 1000.

As long as at most 255 labels are handed out, its tables are those of `Labeling` at every step (`labelPixel_sim`), and
so it gives the same labels (`label_eq_labeling`).
-/

namespace LeftFelt.Legacy

open Lib

/-! ## The code -/

/-- `(image->image_data + k)->label = label`. -/
def Image.setLabel (image : Image) (k : Nat) (label : Int) : Image :=
  { image with imageData := image.imageData.modify k fun d => { d with label := UInt8.ofInt label } }

/-- `(image->image_data + w + h * image->width)->label`, as an `int`. -/
def Image.label (image : Image) (w h : Nat) : Nat := (image.px (w, h)).label.toNat

/-- The tables of `label`, and the image. -/
structure Labeler where
  image : Image
  lookup : List Nat
  labelCount : Nat

/-- All labels are 0, `Lookup_table[i]` is `i`, and the first label is 1. -/
def startLabels (image : Image) : Labeler where
  image := forLoop 0 (image.width * image.height) (fun i image => image.setLabel i 0) image
  lookup := List.range (image.width * image.height)
  labelCount := 1

/-- `min_data`. -/
def minData (image : Image) (w h : Nat) : List Nat :=
  [image.label (w - 1) (h - 1), image.label w (h - 1), image.label (w + 1) (h - 1), image.label (w - 1) h,
    image.label (w + 1) h, image.label (w - 1) (h + 1), image.label w (h + 1), image.label (w + 1) (h + 1)]

/-- `min_calc(p)`. -/
def minCalc (p : List Nat) : Nat :=
  p.foldl (fun min v => if v ≠ 0 then if min > v then v else min else min) 1000

/-- The body of the loops over the inner pixels. The loop over `j` is that of `Labeling`. -/
def labelPixel (w h : Nat) (s : Labeler) : Labeler :=
  if (s.image.px (w, h)).graylevel = 255 then
    let data := minData s.image w h
    let flagCount := (data.filter (· = 0)).length
    if flagCount = 8 then
      { s with image := s.image.setLabel (w + h * s.image.width) s.labelCount, labelCount := s.labelCount + 1 }
    else
      let min := minCalc data
      { s with
        lookup := ImageUtil.linkLabels min data s.lookup
        image := s.image.setLabel (w + h * s.image.width) min }
  else s

/-- The loops over the inner pixels. -/
def sweep (s : Labeler) : Labeler :=
  forLoop 1 (s.image.height - 1) (fun h => forLoop 1 (s.image.width - 1) fun w => labelPixel w h) s

/-- The loops over all pixels: every label is replaced. -/
def replaceLabels (f : Nat → Int) (image : Image) : Image :=
  forLoop 0 image.height (fun h => forLoop 0 image.width fun w image =>
    if image.label w h ≠ 0 then image.setLabel (w + h * image.width) (f (image.label w h)) else image) image

/-- The links are replaced, and every label by its link. -/
def relabel (lookup : List Nat) (s : Labeler) : Labeler :=
  { s with lookup := lookup, image := replaceLabels (fun l => lookup.getD l 0) s.image }

/-- One value of `k`. `Lookup_update` is that of `Labeling`. -/
def pass (fuel : Nat) (s : Labeler) : Option Labeler :=
  let s := sweep s
  ((List.range s.labelCount).foldlM (ImageUtil.updateEntry fuel) s.lookup).map fun lookup => relabel lookup s

/-- The loop over `k`. -/
def passes (fuel : Nat) (image : Image) : Option Labeler := (pass fuel (startLabels image)).bind (pass fuel)

/-- The loop that fills `sub_table`, and `i`. -/
def subTable (size : Nat) (s : Labeler) : List Int × Int :=
  forLoop 0 s.labelCount (fun h t =>
    if t.1.getD (s.lookup.getD h 0) (-1) = -1 then (t.1.set (s.lookup.getD h 0) t.2, t.2 + 1) else t)
    (List.replicate size (-1), 0)

/-- `label(image)`: the number of labels, the background's 0 included, and the image. -/
def label (fuel : Nat) (image : Image) : Option (Int × Image) :=
  (passes fuel image).map fun s =>
    let sub := subTable (image.width * image.height) s
    let lookup := (List.range s.labelCount).map fun h => sub.1.getD (s.lookup.getD h 0) (-1)
    (sub.2, replaceLabels (fun l => lookup.getD l 0) s.image)

/-! ## The labels of an image -/

/-- The labels, in the order of the pixels. -/
def Image.labels (image : Image) : List Nat := image.imageData.map fun d => d.label.toNat

/-- Two images that differ in labels only. -/
structure SamePicture (a b : Image) : Prop where
  width : a.width = b.width
  height : a.height = b.height
  graylevels : a.imageData.map (·.graylevel) = b.imageData.map (·.graylevel)

variable {image a b c : Image}

theorem SamePicture.refl (a : Image) : SamePicture a a := ⟨rfl, rfl, rfl⟩

theorem SamePicture.trans (h₁ : SamePicture a b) (h₂ : SamePicture b c) : SamePicture a c :=
  ⟨h₁.width.trans h₂.width, h₁.height.trans h₂.height, h₁.graylevels.trans h₂.graylevels⟩

theorem SamePicture.length (h : SamePicture a b) : a.imageData.length = b.imageData.length := by
  simpa using congrArg List.length h.graylevels

theorem SamePicture.size (h : SamePicture a b) (hb : b.imageData.length = b.width * b.height) :
    a.imageData.length = a.width * a.height := by
  rw [h.length, h.width, h.height, hb]

theorem SamePicture.graylevel (h : SamePicture a b) (p : Nat × Nat) : (a.px p).graylevel = (b.px p).graylevel := by
  have hget := congrArg (fun l => l.getD (p.1 + p.2 * b.width) 0) h.graylevels
  have hmap : ∀ l : List ImageData, ∀ k, (l.map (·.graylevel)).getD k 0 = (l.getD k default).graylevel := fun l k => by
    rw [List.getD_eq_getElem?_getD, List.getElem?_map, List.getD_eq_getElem?_getD]
    cases l[k]? <;> rfl
  rw [hmap, hmap, ← h.width] at hget
  rwa [Image.px, Image.px, ← h.width]

theorem label_eq (image : Image) (w h : Nat) : image.label w h = image.labels.getD (w + h * image.width) 0 := by
  rw [Image.label, Image.px, Image.labels, List.getD_eq_getElem?_getD, List.getD_eq_getElem?_getD, List.getElem?_map]
  cases image.imageData[w + h * image.width]? <;> rfl

theorem samePicture_setLabel (image : Image) (k : Nat) (l : Int) : SamePicture (image.setLabel k l) image := by
  refine ⟨rfl, rfl, List.ext_getElem? fun i => ?_⟩
  simp only [Image.setLabel, List.getElem?_map, List.getElem?_modify]
  cases image.imageData[i]? with
  | none => rfl
  | some d => by_cases hik : k = i <;> simp [hik]

theorem labels_setLabel (image : Image) (k : Nat) (l : Int) :
    (image.setLabel k l).labels = image.labels.set k (UInt8.ofInt l).toNat := by
  refine List.ext_getElem? fun i => ?_
  simp only [Image.labels, Image.setLabel, List.getElem?_map, List.getElem?_modify, List.getElem?_set, List.length_map]
  by_cases hik : k = i
  · subst hik
    by_cases hlt : k < image.imageData.length
    · simp [hlt]
    · simp [hlt]
  · simp [hik]

/-- A number of 8 bits is stored as it is. -/
theorem toNat_ofInt {n : Nat} (hn : n < 256) : (UInt8.ofInt n).toNat = n := by
  rw [UInt8.ofInt, UInt8.toNat_ofNat']
  omega

/-- What the loops do to a pixel. -/
def replace (f : Nat → Int) (d : ImageData) : ImageData :=
  if d.label.toNat ≠ 0 then { d with label := UInt8.ofInt (f d.label.toNat) } else d

theorem modify_congr {α : Type*} {b : List α} {k : Nat} {g g' : α → α} (h : ∀ d, b[k]? = some d → g d = g' d) :
    b.modify k g = b.modify k g' := by
  refine List.ext_getElem? fun i => ?_
  rw [List.getElem?_modify, List.getElem?_modify]
  by_cases hik : k = i
  · subst hik
    cases hd : b[k]? with
    | none => rfl
    | some d => simp [h d hd]
  · simp [hik]

/-- The body of the loops. -/
theorem replace_body (f : Nat → Int) (image : Image) (w h : Nat) :
    (if image.label w h ≠ 0 then image.setLabel (w + h * image.width) (f (image.label w h)) else image) =
      { image with imageData := image.imageData.modify (w + h * image.width) (replace f) } := by
  have hlabel : ∀ d, image.imageData[w + h * image.width]? = some d → image.label w h = d.label.toNat := fun d hd => by
    rw [Image.label, Image.px, List.getD_eq_getElem?_getD, hd]
    rfl
  split
  · rename_i hne
    refine congrArg (fun data => { image with imageData := data }) (modify_congr fun d hd => ?_)
    rw [replace, ← hlabel d hd, if_pos hne]
  · rename_i hzero
    have hsame : image.imageData.modify (w + h * image.width) (replace f) =
        image.imageData.modify (w + h * image.width) id := modify_congr fun d hd => by
      rw [replace, ← hlabel d hd, if_neg hzero]
      rfl
    rw [hsame, List.modify_id]

/-- **The loops that replace the labels** go through all pixels. -/
theorem replaceLabels_eq (f : Nat → Int) (image : Image) (hsize : image.imageData.length = image.width * image.height) :
    replaceLabels f image = { image with imageData := image.imageData.map (replace f) } := by
  have key : ∀ (l : List (Nat × Nat)) (data : List ImageData),
      l.foldl (fun (image : Image) p => if image.label p.1 p.2 ≠ 0 then
        image.setLabel (p.1 + p.2 * image.width) (f (image.label p.1 p.2)) else image)
        { image with imageData := data } =
      { image with
        imageData := (l.map fun p => p.1 + p.2 * image.width).foldl (fun b k => b.modify k (replace f)) data } := by
    intro l
    induction l with
    | nil => exact fun _ => rfl
    | cons p l ih =>
      intro data
      rw [List.foldl_cons, replace_body]
      exact ih _
  rw [replaceLabels, forLoop_forLoop]
  refine (key _ image.imageData).trans ?_
  rw [raster_index, ← hsize, foldl_modify]

theorem samePicture_replaceLabels (f : Nat → Int) (hsize : image.imageData.length = image.width * image.height) :
    SamePicture (replaceLabels f image) image := by
  rw [replaceLabels_eq f image hsize]
  refine ⟨rfl, rfl, ?_⟩
  rw [List.map_map]
  refine List.map_congr_left fun d _ => ?_
  rw [Function.comp_apply, replace]
  split <;> rfl

theorem labels_replaceLabels (f : Nat → Int) (hsize : image.imageData.length = image.width * image.height) :
    (replaceLabels f image).labels = image.labels.map fun l => if l ≠ 0 then (UInt8.ofInt (f l)).toNat else l := by
  rw [replaceLabels_eq f image hsize, Image.labels, Image.labels, List.map_map, List.map_map]
  refine List.map_congr_left fun d _ => ?_
  simp only [Function.comp_apply, replace]
  split <;> rfl

/-- A label after one write. -/
theorem label_setLabel (hsize : image.imageData.length = image.width * image.height) {p q : Nat × Nat}
    (hp : p.1 < image.width ∧ p.2 < image.height) (hq : q.1 < image.width) (l : Int) :
    (image.setLabel (p.1 + p.2 * image.width) l).label q.1 q.2 =
      if q = p then (UInt8.ofInt l).toNat else image.label q.1 q.2 := by
  have hlength : image.labels.length = image.width * image.height := by
    rw [Image.labels, List.length_map, hsize]
  rw [label_eq, label_eq, labels_setLabel]
  exact getD_set hlength.ge hp hq _ 0

/-- A label after the loops over all pixels. -/
theorem label_replaceLabels (f : Nat → Int) (hsize : image.imageData.length = image.width * image.height)
    {p : Nat × Nat} (hp : p.1 < image.width ∧ p.2 < image.height) : (replaceLabels f image).label p.1 p.2 =
      if image.label p.1 p.2 ≠ 0 then (UInt8.ofInt (f (image.label p.1 p.2))).toNat else image.label p.1 p.2 := by
  have hin : p.1 + p.2 * image.width < image.labels.length := by
    rw [Image.labels, List.length_map, hsize]
    exact index_lt hp.1 hp.2
  rw [label_eq, label_eq, labels_replaceLabels f hsize, (samePicture_replaceLabels f hsize).width,
    List.getD_eq_getElem?_getD, List.getElem?_map, List.getD_eq_getElem?_getD, List.getElem?_eq_getElem hin]
  rfl

/-- Before the sweeps all labels are 0. -/
theorem startLabels_image (image : Image) (hsize : image.imageData.length = image.width * image.height) :
    (startLabels image).image =
      { image with imageData := image.imageData.map fun d => { d with label := UInt8.ofInt 0 } } := by
  refine (forPixels_eq image fun _ d => { d with label := UInt8.ofInt 0 }).trans ?_
  rw [← hsize, foldl_modify]

theorem samePicture_startLabels (hsize : image.imageData.length = image.width * image.height) :
    SamePicture (startLabels image).image image := by
  rw [startLabels_image image hsize]
  exact ⟨rfl, rfl, by rw [List.map_map]; rfl⟩

theorem labels_startLabels (hsize : image.imageData.length = image.width * image.height) :
    (startLabels image).image.labels = List.replicate (image.width * image.height) 0 := by
  rw [startLabels_image image hsize, Image.labels, List.map_map, ← hsize]
  exact List.map_const' ..

/-! ## The simulation -/

/-- The image shows the lightness of the `biImage`. -/
structure Shows (image : Image) (b : BiImage) : Prop where
  size : image.imageData.length = image.width * image.height
  width : image.width = b.width
  height : image.height = b.height
  lightness : ∀ x y : Nat, b.Inside (x, y) → (image.px (x, y)).graylevel = (b.get x y).lightness

/-- The tables of the two programs agree. -/
structure Sim (image : Image) (s : Labeler) (t : ImageUtil.Labeler) : Prop where
  picture : SamePicture s.image image
  labels : s.image.labels = t.labelList
  lookup : s.lookup = t.lookup
  count : s.labelCount = t.labelCount

section Sim

variable {b : BiImage} {s : Labeler} {t : ImageUtil.Labeler} {w h : Nat}

theorem minData_sim (hb : Shows image b) (hs : Sim image s t) (hw : 1 ≤ w) (hh : 1 ≤ h) :
    minData s.image w h = ImageUtil.minData b.width t.labelList w h := by
  have hwidth : s.image.width = b.width := hs.picture.width.trans hb.width
  have hplaces : (List.range 9).filter (fun i => ¬(i % 3 = 1 ∧ i / 3 = 1)) = [0, 1, 2, 3, 5, 6, 7, 8] := by decide
  obtain ⟨w, rfl⟩ := Nat.exists_eq_add_of_le' hw
  obtain ⟨h, rfl⟩ := Nat.exists_eq_add_of_le' hh
  rw [ImageUtil.minData, hplaces]
  simp [minData, label_eq, hwidth, hs.labels]

theorem lt_of_mem_labels {l : Nat} (hl : l ∈ image.labels) : l < 256 := by
  rw [Image.labels, List.mem_map] at hl
  obtain ⟨d, -, rfl⟩ := hl
  exact d.label.toNat_lt

theorem label_lt (image : Image) (w h : Nat) : image.label w h < 256 := (image.px (w, h)).label.toNat_lt

theorem lt_of_mem_minData {l : Nat} (hl : l ∈ minData image w h) : l < 256 := by
  simp only [minData, List.mem_cons, List.not_mem_nil, or_false] at hl
  rcases hl with rfl | rfl | rfl | rfl | rfl | rfl | rfl | rfl <;> exact label_lt ..

theorem le_foldr_min {data : List Nat} {k m : Nat} : k ≤ data.foldr min m ↔ k ≤ m ∧ ∀ l ∈ data, k ≤ l := by
  induction data with
  | nil => simp
  | cons l data ih => simp [ih, and_left_comm]

/-- The number to begin with does not matter if there is a smaller one. -/
theorem foldr_min_congr {data : List Nat} {l m n : Nat} (hl : l ∈ data) (hm : l ≤ m) (hn : l ≤ n) :
    data.foldr min m = data.foldr min n ∧ data.foldr min m ≤ l := by
  refine ⟨eq_of_forall_le_iff fun k => ?_, (le_foldr_min.1 le_rfl).2 l hl⟩
  rw [le_foldr_min, le_foldr_min]
  constructor
  · exact fun h => ⟨(h.2 l hl).trans hn, h.2⟩
  · exact fun h => ⟨(h.2 l hl).trans hm, h.2⟩

/-- `min_calc` with 1000 and with 0xFFFF. -/
theorem minCalc_sim {data : List Nat} (hlt : ∀ l ∈ data, l < 256) (hne : (data.filter (· ≠ 0)) ≠ []) :
    minCalc data = ImageUtil.minCalc data ∧ minCalc data < 256 := by
  obtain ⟨l, hl⟩ := List.exists_mem_of_ne_nil _ hne
  have hl256 := hlt l (List.mem_of_mem_filter hl)
  obtain ⟨heq, hle⟩ := foldr_min_congr (m := 1000) (n := 0xFFFF) hl (by omega) (by omega)
  rw [minCalc, ImageUtil.foldl_smallest, ImageUtil.minCalc_eq]
  exact ⟨heq, by omega⟩

/-- One pixel, as long as its label has 8 bits. -/
theorem labelPixel_sim (hb : Shows image b) (hs : Sim image s t) (hw : 1 ≤ w ∧ w < b.width) (hh : 1 ≤ h ∧ h < b.height)
    (hcount : (ImageUtil.labelPixel b w h t).labelCount ≤ 256) :
    Sim image (labelPixel w h s) (ImageUtil.labelPixel b w h t) := by
  have hwidth : s.image.width = b.width := hs.picture.width.trans hb.width
  have hwhite : (s.image.px (w, h)).graylevel = (b.get w h).lightness := by
    rw [hs.picture.graylevel]
    exact hb.lightness w h ⟨hw.2, hh.2⟩
  have hdata := minData_sim hb hs hw.1 hh.1
  unfold labelPixel
  unfold ImageUtil.labelPixel at hcount ⊢
  rw [hwhite, hdata]
  by_cases hlight : (b.get w h).lightness = 255
  · simp only [hlight, if_true] at hcount ⊢
    by_cases hflag : ((ImageUtil.minData b.width t.labelList w h).filter (· = 0)).length = 8
    · simp only [hflag, if_true] at hcount ⊢
      refine ⟨(samePicture_setLabel ..).trans hs.picture, ?_, hs.lookup, by rw [hs.count]⟩
      rw [labels_setLabel, hs.labels, hwidth, hs.count, toNat_ofInt (by omega)]
    · simp only [hflag, if_false]
      have hlt : ∀ l ∈ ImageUtil.minData b.width t.labelList w h, l < 256 := fun l hl =>
        lt_of_mem_minData (hdata ▸ hl)
      have hne : (ImageUtil.minData b.width t.labelList w h).filter (· ≠ 0) ≠ [] := by
        intro hnil
        have hlength : (ImageUtil.minData b.width t.labelList w h).length = 8 := hdata ▸ rfl
        refine hflag (hlength ▸ List.length_filter_eq_length_iff.2 fun l hl => ?_)
        simpa using List.filter_eq_nil_iff.1 hnil l hl
      obtain ⟨heq, hmin⟩ := minCalc_sim hlt hne
      refine ⟨(samePicture_setLabel ..).trans hs.picture, ?_, by rw [hs.lookup, heq], hs.count⟩
      rw [labels_setLabel, hs.labels, hwidth, toNat_ofInt hmin, heq]
  · simp only [hlight, if_false]
    exact hs

/-! ## The passes -/

theorem count_labelPixel (b : BiImage) (w h : Nat) (t : ImageUtil.Labeler) :
    t.labelCount ≤ (ImageUtil.labelPixel b w h t).labelCount := by
  unfold ImageUtil.labelPixel
  split_ifs
  · simp only
    split_ifs
    · exact Nat.le_succ _
    · exact le_rfl
  · exact le_rfl

theorem count_foldl (b : BiImage) (l : List (Nat × Nat)) (t : ImageUtil.Labeler) :
    t.labelCount ≤ (l.foldl (fun t p => ImageUtil.labelPixel b p.1 p.2 t) t).labelCount :=
  foldl_scan_all (fun t' => t.labelCount ≤ t'.labelCount) le_rfl fun p t' _ ht =>
    ht.trans (count_labelPixel b p.1 p.2 t')

/-- **A sweep** that hands out no label of more than 8 bits. -/
theorem sweep_sim (hb : Shows image b) (hs : Sim image s t) (hcount : (ImageUtil.sweep b t).labelCount ≤ 256) :
    Sim image (sweep s) (ImageUtil.sweep b t) := by
  have key : ∀ (l : List (Nat × Nat)) (s : Labeler) (t : ImageUtil.Labeler),
      (∀ p ∈ l, (1 ≤ p.1 ∧ p.1 < b.width) ∧ 1 ≤ p.2 ∧ p.2 < b.height) → Sim image s t →
      (l.foldl (fun t p => ImageUtil.labelPixel b p.1 p.2 t) t).labelCount ≤ 256 →
      Sim image (l.foldl (fun s p => labelPixel p.1 p.2 s) s)
        (l.foldl (fun t p => ImageUtil.labelPixel b p.1 p.2 t) t) := by
    intro l
    induction l with
    | nil => exact fun _ _ _ hs _ => hs
    | cons p l ih =>
      intro s t hl hs hcount
      have hp := hl p List.mem_cons_self
      exact ih _ _ (fun q hq => hl q (List.mem_cons_of_mem _ hq))
        (labelPixel_sim hb hs hp.1 hp.2 ((count_foldl b l _).trans hcount)) hcount
  rw [ImageUtil.sweep, forLoop_forLoop] at hcount ⊢
  rw [sweep, forLoop_forLoop, hs.picture.width, hs.picture.height, hb.width, hb.height]
  refine key _ s t (fun p hp => ?_) hs hcount
  rw [mem_raster] at hp
  omega

/-- **A pass.** The links lead to smaller labels, so that no label gets longer. -/
theorem pass_sim (hb : Shows image b) (hs : Sim image s t) {fuel : Nat} {t' : ImageUtil.Labeler}
    (hrun : ImageUtil.pass fuel b t = some t') (hcount : t'.labelCount ≤ 256) (hlow : ∀ k, t'.lookup.getD k 0 ≤ k) :
    ∃ s', pass fuel s = some s' ∧ Sim image s' t' := by
  rw [ImageUtil.pass, Option.map_eq_some_iff] at hrun
  obtain ⟨lookup, hall, rfl⟩ := hrun
  have hswept := sweep_sim hb hs hcount
  have hsize := hswept.picture.size hb.size
  have hpicture := samePicture_replaceLabels (fun l => (lookup.getD l 0 : Int)) hsize
  refine ⟨relabel lookup (sweep s), ?_, hpicture.trans hswept.picture, ?_, rfl, hswept.count⟩
  · rw [pass, hswept.lookup, hswept.count]
    exact congrArg (Option.map _) hall
  · rw [relabel, labels_replaceLabels _ hsize, ImageUtil.relabel, hswept.labels]
    refine List.map_congr_left fun l hl => ?_
    have hlt : lookup.getD l 0 < 256 := (hlow l).trans_lt (lt_of_mem_labels (hswept.labels ▸ hl))
    rw [toNat_ofInt hlt]

theorem startLabels_sim (hb : Shows image b) :
    Sim image (startLabels image) (ImageUtil.startLabels (b.width * b.height)) := by
  refine ⟨samePicture_startLabels hb.size, ?_, ?_, rfl⟩
  · rw [labels_startLabels hb.size, hb.width, hb.height]
    rfl
  · rw [← hb.width, ← hb.height]
    rfl

/-- **Both passes.** -/
theorem passes_sim (hb : Shows image b) {fuel : Nat} (hfuel : b.width * b.height < fuel)
    (hrun : ImageUtil.passes fuel b = some t) (hcount : t.labelCount ≤ 256) :
    ∃ s, passes fuel image = some s ∧ Sim image s t := by
  have hroom := ImageUtil.room b
  have hnext := (ImageUtil.swept_second b).next_le
  obtain ⟨t₁, hrun₁, ht₁⟩ := ImageUtil.pass_holds (ImageUtil.startLabels_holds b) (base_unlabelled _) hfuel
    (hnext.trans hroom)
  obtain ⟨t₂, hrun₂, ht₂⟩ := ImageUtil.pass_holds ht₁ (ImageUtil.base_first b) hfuel hroom
  rw [ImageUtil.passes, hrun₁, Option.bind_some, hrun₂] at hrun
  obtain rfl := Option.some.inj hrun
  have hcount₁ : t₁.labelCount ≤ 256 := by
    rw [ht₁.count]
    rw [ht₂.count] at hcount
    exact hnext.trans hcount
  obtain ⟨s₁, hs₁, hsim₁⟩ := pass_sim hb (startLabels_sim hb) hrun₁ hcount₁
    (ht₁.lookup_le (ImageUtil.base_first b).link_le)
  obtain ⟨s₂, hs₂, hsim₂⟩ := pass_sim hb hsim₁ hrun₂ hcount (ht₂.lookup_le (ImageUtil.base_second b).link_le)
  exact ⟨s₂, by rw [passes, hs₁, Option.bind_some, hs₂], hsim₂⟩

/-! ## The labels -/

theorem subTable_sim (hs : Sim image s t) (size : Nat) : subTable size s = ImageUtil.subTable size t := by
  rw [subTable, ImageUtil.subTable, hs.lookup, hs.count]

/-- The final numbers have 8 bits. -/
theorem number_lt (hcount : (ImageUtil.secondSwept b).next ≤ 256) (p : Nat × Nat) : ImageUtil.number b p < 256 :=
  calc ImageUtil.number b p ≤ (resolve (ImageUtil.secondSwept b)).label p := Nat.count_le ..
    _ < (ImageUtil.secondSwept b).next := (ImageUtil.base_second b).label_lt p
    _ ≤ 256 := hcount

/-- **What `label` does**, as long as at most 255 labels are handed out: it gives every inner white pixel its number, and
0 to all others. -/
theorem label_spec (hb : Shows image b) {fuel : Nat} (hfuel : b.width * b.height < fuel)
    (hcount : (ImageUtil.secondSwept b).next ≤ 256) :
    ∃ out, label fuel image =
        some ((Nat.count (ImageUtil.InUse b) (ImageUtil.secondSwept b).next : Int), out) ∧ SamePicture out image ∧
      ∀ x y : Nat, b.Inside (x, y) →
        out.label x y = if ImageUtil.InnerWhite b (x, y) then ImageUtil.number b (x, y) else 0 := by
  obtain ⟨t, hrun, ht⟩ := ImageUtil.passes_holds b hfuel
  have htcount : t.labelCount = (ImageUtil.secondSwept b).next := ht.count
  obtain ⟨s, hs, hsim⟩ := passes_sim hb hfuel hrun (htcount ▸ hcount)
  have hsize := hsim.picture.size hb.size
  have hpicture := samePicture_replaceLabels (fun l => ((List.range t.labelCount).map fun h =>
    (ImageUtil.subTable (b.width * b.height) t).1.getD (t.lookup.getD h 0) (-1)).getD l 0) hsize
  refine ⟨_, ?_, hpicture.trans hsim.picture, fun x y hp => ?_⟩
  · rw [label, hs, Option.map_some, hsim.lookup, hsim.count, hb.width, hb.height, subTable_sim hsim,
      ← (ImageUtil.subTable_eq ht).1]
  · have hlabel : t.labelList.getD (x + y * b.width) 0 = (resolve (ImageUtil.secondSwept b)).label (x, y) :=
      ht.label (x, y) hp
    have hread : s.image.label x y = (resolve (ImageUtil.secondSwept b)).label (x, y) := by
      rw [label_eq, hsim.labels, hsim.picture.width, hb.width, hlabel]
    have hin : x < s.image.width ∧ y < s.image.height := by
      rw [hsim.picture.width, hsim.picture.height, hb.width, hb.height]
      exact hp
    rw [label_replaceLabels _ hsize (p := (x, y)) hin, hread, ImageUtil.number_eq ht hp]
    have hwhite : (resolve (ImageUtil.secondSwept b)).label (x, y) ≠ 0 ↔ ImageUtil.InnerWhite b (x, y) :=
      ImageUtil.label_ne_zero_iff.trans ImageUtil.mem_innerWhite
    by_cases hp' : ImageUtil.InnerWhite b (x, y)
    · rw [if_pos hp', if_pos (hwhite.2 hp'), toNat_ofInt (number_lt hcount _)]
    · rw [if_neg hp', if_neg (fun h => hp' (hwhite.1 h))]
      exact Nat.eq_zero_of_not_pos fun hpos => hp' (hwhite.1 (Nat.pos_iff_ne_zero.1 hpos))

/-- **Both programs give the same labels**, as long as at most 255 are handed out. -/
theorem label_eq_labeling (hb : Shows image b)
    (hunlabelled : ∀ x y : Nat, b.Inside (x, y) → (b.get x y).label = 0) {fuel : Nat}
    (hfuel : image.width * image.height < fuel) :
    ∃ t n out', ImageUtil.passes fuel b = some t ∧ ImageUtil.labeling fuel b = some (n, out') ∧
      (t.labelCount - 1 ≤ 255 → ∃ out, label fuel image = some (n, out) ∧
        ∀ x y : Nat, b.Inside (x, y) → (out.label x y : Int) = (out'.get x y).label) := by
  rw [hb.width, hb.height] at hfuel
  obtain ⟨t, out', hrun, ht, hlabeling, -, hget⟩ := ImageUtil.labeling_spec b hfuel
  refine ⟨t, _, out', hrun, hlabeling, fun hfew => ?_⟩
  have htcount : t.labelCount = (ImageUtil.secondSwept b).next := ht.count
  obtain ⟨out, hlabel, -, hout⟩ := label_spec hb hfuel (by omega)
  refine ⟨out, hlabel, fun x y hp => ?_⟩
  rw [hout x y hp, hget x y hp]
  by_cases hwhite : ImageUtil.InnerWhite b (x, y)
  · rw [if_pos hwhite, if_pos hwhite]
    rfl
  · rw [if_neg hwhite, if_neg hwhite, hunlabelled x y hp]
    rfl

end Sim

/-! ## A dot -/

/-- An image with all its pixels, whose dimensions are `long`s. -/
structure Valid (image : Image) : Prop where
  size : image.imageData.length = image.width * image.height
  width_lt : image.width < 2 ^ 31
  height_lt : image.height < 2 ^ 31

/-- The image as a `biImage`. -/
def shown (image : Image) (h : Valid image) : BiImage :=
  BiImage.ofFn image.width image.height h.width_lt h.height_lt fun x y => Pixel.gray (image.px (x, y)).graylevel

theorem inside_shown (h : Valid image) {p : Nat × Nat} :
    (shown image h).Inside p ↔ p.1 < image.width ∧ p.2 < image.height := by
  have hframe := BiImage.sameFrame_ofFn image.width image.height h.width_lt h.height_lt
    fun x y => Pixel.gray (image.px (x, y)).graylevel
  exact hframe.inside

theorem get_shown (h : Valid image) {x y : Nat} (hin : (shown image h).Inside (x, y)) :
    (shown image h).get x y = Pixel.gray (image.px (x, y)).graylevel := by
  obtain ⟨hx, hy⟩ := (inside_shown h).1 hin
  exact BiImage.get_ofFn h.width_lt h.height_lt hx hy rfl

theorem shows_shown (h : Valid image) : Shows image (shown image h) := by
  have hframe := BiImage.sameFrame_ofFn image.width image.height h.width_lt h.height_lt
    fun x y => Pixel.gray (image.px (x, y)).graylevel
  refine ⟨h.size, hframe.width.symm, hframe.height.symm, fun x y hin => ?_⟩
  rw [get_shown h hin, Pixel.lightness_gray]

/-- One white pixel in the middle of a 3 × 3 image. -/
def dot : Image where
  width := 3
  height := 3
  imageData := (List.range 9).map fun k => ⟨0, 0, 0, 0, if k = 4 then 255 else 0, 0⟩

theorem valid_dot : Valid dot := ⟨by simp [dot], by simp [dot], by simp [dot]⟩

/-- Both programs give it the same label. -/
theorem label_eq_labeling_dot : ∃ n out out', label 10 dot = some (n, out) ∧
    ImageUtil.labeling 10 (shown dot valid_dot) = some (n, out') ∧ (out.label 1 1 : Int) = (out'.get 1 1).label := by
  have hunlabelled : ∀ x y : Nat, (shown dot valid_dot).Inside (x, y) → ((shown dot valid_dot).get x y).label = 0 := by
    intro x y hin
    rw [get_shown valid_dot hin]
    rfl
  obtain ⟨t, n, out', hpasses, hlabeling, hlabels⟩ :=
    label_eq_labeling (shows_shown valid_dot) hunlabelled (show 3 * 3 < 10 by simp)
  have hcount : (ImageUtil.passes 10 (shown dot valid_dot)).map ImageUtil.Labeler.labelCount = some 3 := by
    decide +kernel
  rw [hpasses, Option.map_some, Option.some.injEq] at hcount
  obtain ⟨out, hlabel, hsame⟩ := hlabels (by omega)
  exact ⟨n, out, out', hlabel, hlabeling, hsame 1 1 ((inside_shown valid_dot).2 (by simp [dot]))⟩

end LeftFelt.Legacy
