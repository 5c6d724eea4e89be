import LeftFelt.Image.LabelingLaws

/-!
# `Labeling` stays inside its tables

The same functions with a check at every index into `label_list`, `Lookup_table` and `sub_table`, and at every entry that
is written to `Lookup_table`, which must not exceed its index. `labeling_checked` says that no check ever fails, and
that fewer labels are handed out than the tables have entries.
-/

namespace LeftFelt.ImageUtil

open Lib BiImage

/-! ## The functions with checks -/

/-- A write to `Lookup_table`: no label is linked to a greater one. -/
def storeLink (lookup : List Nat) (l a : Nat) : Option (List Nat) := if a ≤ l then Checked.store lookup l a else none

/-- `minData`. -/
def minDataChecked (width : Nat) (labelList : List Nat) (w h : Nat) : Option (List Nat) :=
  ((List.range 9).filter fun i => ¬(i % 3 = 1 ∧ i / 3 = 1)).mapM fun i =>
    Checked.load labelList ((w + i % 3 - 1) + (h + i / 3 - 1) * width)

/-- `linkLabel`. -/
def linkLabelChecked (min : Nat) (lookup : List Nat) (l : Nat) : Option (List Nat) :=
  if l ≠ min ∧ l ≠ 0 then do
    let a ← Checked.load lookup l
    if a ≥ min then storeLink lookup l min else some lookup
  else some lookup

/-- `labelPixel`. -/
def labelPixelChecked (image : BiImage) (w h : Nat) (s : Labeler) : Option Labeler :=
  if (image.get w h).lightness = 255 then do
    let data ← minDataChecked image.width s.labelList w h
    let flagCount := (data.filter (· = 0)).length
    if flagCount = 8 then
      let labelList ← Checked.store s.labelList (w + h * image.width) s.labelCount
      return { s with labelList := labelList, labelCount := s.labelCount + 1 }
    else
      let min := minCalc data
      let lookup ← data.foldlM (linkLabelChecked min) s.lookup
      let labelList ← Checked.store s.labelList (w + h * image.width) min
      return { s with lookup := lookup, labelList := labelList }
  else return s

/-- `sweep`. -/
def sweepChecked (image : BiImage) (s : Labeler) : Option Labeler :=
  Checked.forLoop 1 (image.height - 1)
    (fun h => Checked.forLoop 1 (image.width - 1) fun w => labelPixelChecked image w h) s

/-- `lookupUpdate`. -/
def lookupUpdateChecked : Nat → Nat → List Nat → Option Nat
  | 0, _, _ => none
  | fuel + 1, i, label => do
    let a ← Checked.load label i
    if i = a then return a else lookupUpdateChecked fuel a label

/-- `updateEntry`. -/
def updateEntryChecked (fuel : Nat) (lookup : List Nat) (h : Nat) : Option (List Nat) := do
  let l ← Checked.load lookup h
  if h ≠ l then
    let a ← lookupUpdateChecked fuel h lookup
    storeLink lookup h a
  else return lookup

/-- The body of the loops over the pixels that replace the labels. -/
def relabelPixelChecked (width : Nat) (lookup : List Nat) (w h : Nat) (labelList : List Nat) : Option (List Nat) := do
  let l ← Checked.load labelList (w + h * width)
  if l ≠ 0 then
    let a ← Checked.load lookup l
    Checked.store labelList (w + h * width) a
  else return labelList

/-- `relabel`, where the loops over the pixels are written out. -/
def relabelChecked (image : BiImage) (lookup : List Nat) (s : Labeler) : Option Labeler := do
  let labelList ← Checked.forLoop 0 image.height
    (fun h => Checked.forLoop 0 image.width fun w => relabelPixelChecked image.width lookup w h) s.labelList
  return { s with lookup := lookup, labelList := labelList }

/-- `pass`. -/
def passChecked (fuel : Nat) (image : BiImage) (s : Labeler) : Option Labeler := do
  let s ← sweepChecked image s
  let lookup ← (List.range s.labelCount).foldlM (updateEntryChecked fuel) s.lookup
  relabelChecked image lookup s

/-- `passes`. -/
def passesChecked (fuel : Nat) (image : BiImage) : Option Labeler := do
  let s ← passChecked fuel image (startLabels (image.width * image.height))
  passChecked fuel image s

/-- `subTable`. -/
def subTableChecked (size : Nat) (s : Labeler) : Option (List Int × Int) :=
  Checked.forLoop 0 s.labelCount (fun h t => do
    let l ← Checked.load s.lookup h
    let number ← Checked.load t.1 l
    if number = -1 then
      let sub ← Checked.store t.1 l t.2
      return (sub, t.2 + 1)
    else return t) (List.replicate size (-1), 0)

/-- The numbers in `Lookup_table`. They, too, are not greater than the labels. -/
def numbersChecked (sub : List Int) (s : Labeler) : Option (List Int) :=
  (List.range s.labelCount).mapM fun h => do
    let l ← Checked.load s.lookup h
    let number ← Checked.load sub l
    if 0 ≤ number ∧ number ≤ h then return number else none

/-- `writeLabels`. -/
def writeLabelsChecked (sub : List Int) (s : Labeler) (image : BiImage) : Option BiImage := do
  let numbers ← numbersChecked sub s
  Checked.forLoop 0 image.height (fun h => Checked.forLoop 0 image.width fun w out => do
    let l ← Checked.load s.labelList (w + h * image.width)
    if l ≠ 0 then
      let number ← Checked.load numbers l
      return out.put w h ((out.get w h).setLabel number)
    else return out) image

/-- `labeling`. -/
def labelingChecked (fuel : Nat) (image : BiImage) : Option (Int × BiImage) := do
  let s ← passesChecked fuel image
  let t ← subTableChecked (image.width * image.height) s
  let out ← writeLabelsChecked t.1 s image
  return (t.2, out)

/-! ## One sweep -/

theorem storeLink_eq {lookup : List Nat} {l a : Nat} (hl : l < lookup.length) (ha : a ≤ l) :
    storeLink lookup l a = some (lookup.set l a) := by
  rw [storeLink, if_pos ha, Checked.store_eq hl]

variable {image : BiImage}

theorem minDataChecked_eq {labelList : List Nat} (hlength : labelList.length = image.width * image.height)
    {p : Nat × Nat} (hp : InnerWhite image p) :
    minDataChecked image.width labelList p.1 p.2 = some (minData image.width labelList p.1 p.2) := by
  have hinner := hp.1
  refine Checked.mapM_eq_map fun i hi => Checked.load_eq ?_ 0
  have hi9 := List.mem_range.1 (List.mem_of_mem_filter hi)
  have hx : p.1 + i % 3 - 1 < image.width := by omega
  have hy : p.2 + i / 3 - 1 < image.height := by omega
  rw [hlength]
  exact index_lt (p := (p.1 + i % 3 - 1, p.2 + i / 3 - 1)) hx hy

theorem length_linkLabel (m : Nat) (lookup : List Nat) (l : Nat) : (linkLabel m lookup l).length = lookup.length := by
  unfold linkLabel
  split_ifs <;> simp

theorem linkLabelChecked_eq {m l : Nat} {lookup : List Nat} (hl : l < lookup.length) (hm : l ≠ 0 → m ≤ l) :
    linkLabelChecked m lookup l = some (linkLabel m lookup l) := by
  unfold linkLabelChecked linkLabel
  by_cases hne : l ≠ m ∧ l ≠ 0
  · rw [if_pos hne, if_pos hne, Checked.load_eq hl 0, Option.bind_eq_bind, Option.bind_some,
      storeLink_eq hl (hm hne.2), apply_ite some]
  · rw [if_neg hne, if_neg hne]

/-- The loop over `j`: the labels that are linked are in the table, and not smaller than `min`. -/
theorem linkLabelsChecked_eq {m : Nat} {data lookup : List Nat} (hdata : ∀ l ∈ data, l < lookup.length)
    (hm : ∀ l ∈ data, l ≠ 0 → m ≤ l) :
    data.foldlM (linkLabelChecked m) lookup = some (linkLabels m data lookup) := by
  refine Checked.foldlM_eq_foldl (fun _ lookup' => lookup'.length = lookup.length) rfl ?_
  intro pre l post lookup' hpre hlength
  have hl : l ∈ data := by simp [hpre]
  exact ⟨linkLabelChecked_eq (by rw [hlength]; exact hdata l hl) (hm l hl), (length_linkLabel _ _ _).trans hlength⟩

theorem minCalc_le {data : List Nat} {l : Nat} (hl : l ∈ data) (hne : l ≠ 0) : minCalc data ≤ l := by
  rw [minCalc_eq]
  exact foldr_min_le (List.mem_filter.2 ⟨hl, by simpa using hne⟩)

theorem labelPixelChecked_eq {s : Labeler} {t : Labelling (Nat × Nat)} (hs : Holds image s t) (ht : Bounded t)
    (hroom : t.next ≤ image.width * image.height) {p : Nat × Nat}
    (hp : (1 ≤ p.1 ∧ p.1 < image.width - 1) ∧ 1 ≤ p.2 ∧ p.2 < image.height - 1) :
    labelPixelChecked image p.1 p.2 s = some (labelPixel image p.1 p.2 s) := by
  unfold labelPixelChecked labelPixel
  by_cases hwhite : (image.get p.1 p.2).lightness = 255
  · have hinner : InnerWhite image p := ⟨hp, hwhite⟩
    have hindex : p.1 + p.2 * image.width < s.labelList.length := by
      rw [hs.labels_length]
      exact index_lt hinner.inside.1 hinner.inside.2
    have hdata : ∀ l ∈ minData image.width s.labelList p.1 p.2, l < s.lookup.length := by
      rw [minData_eq hs hinner, hs.lookup_length]
      intro l hl
      obtain ⟨q, -, rfl⟩ := List.mem_map.1 hl
      exact (ht.label_lt q).trans_le hroom
    rw [if_pos hwhite, if_pos hwhite, minDataChecked_eq hs.labels_length hinner]
    simp only [Option.bind_eq_bind, Option.bind_some, Checked.store_eq hindex,
      linkLabelsChecked_eq hdata fun l hl hne => minCalc_le hl hne]
    split_ifs <;> rfl
  · rw [if_neg hwhite, if_neg hwhite]
    rfl

theorem sweepChecked_eq {s : Labeler} {t : Labelling (Nat × Nat)} (hs : Holds image s t) (ht : Bounded t)
    (hnext : 0 < t.next) (hroom : (swept image t).next ≤ image.width * image.height) :
    sweepChecked image s = some (sweep image s) := by
  rw [sweepChecked, sweep, Checked.forLoop_forLoop, forLoop_forLoop]
  refine Checked.foldlM_eq_foldl (fun pre s' => Holds image s' (visitWhite image t pre)) hs ?_
  intro pre p post s' hpre hs'
  have hp : p ∈ raster 1 (image.width - 1) 1 (image.height - 1) := by simp [hpre]
  have hle : (visitWhite image t pre).next ≤ (swept image t).next := by
    rw [swept_eq, hpre, visitWhite_append]
    exact le_next_foldl _ _
  exact ⟨labelPixelChecked_eq hs' (ht.foldl _) (hle.trans hroom) (mem_raster.1 hp),
    sweep_step ht hnext (hroom.trans (Nat.le_max_left _ _)) hpre hs'⟩

/-! ## One pass -/

/-- `Lookup_table[l] <= l`. -/
def Descending (lookup : List Nat) : Prop := ∀ k < lookup.length, lookup.getD k 0 ≤ k

/-- `Lookup_update` goes down. -/
theorem lookupUpdateChecked_eq {label : List Nat} (hdesc : Descending label) (fuel : Nat) {i : Nat}
    (hi : i < label.length) : lookupUpdateChecked fuel i label = lookupUpdate fuel i label ∧
      ∀ a, lookupUpdate fuel i label = some a → a ≤ i := by
  induction fuel generalizing i with
  | zero => exact ⟨rfl, fun a ha => by cases ha⟩
  | succ fuel ih =>
    have hle := hdesc i hi
    obtain ⟨heq, hlow⟩ := ih (hle.trans_lt hi)
    rw [lookupUpdateChecked, lookupUpdate, Checked.load_eq hi 0, Option.bind_eq_bind, Option.bind_some]
    by_cases hfix : i = label.getD i 0
    · rw [if_pos hfix, if_pos hfix]
      exact ⟨rfl, fun a ha => (Option.some.inj ha).symm.le.trans hle⟩
    · rw [if_neg hfix, if_neg hfix]
      exact ⟨heq, fun a ha => (hlow a ha).trans hle⟩

theorem Descending.set {lookup : List Nat} (hdesc : Descending lookup) {l a : Nat} (ha : a ≤ l) :
    Descending (lookup.set l a) := by
  intro k hk
  rw [List.length_set] at hk
  have hold := hdesc k hk
  rw [List.getD_eq_getElem?_getD] at hold ⊢
  rw [List.getElem?_set]
  split_ifs with hlk
  · exact hlk ▸ ha
  · exact Nat.zero_le k
  · exact hold

theorem updateEntryChecked_eq {fuel h : Nat} {lookup : List Nat} (hdesc : Descending lookup) (hh : h < lookup.length) :
    updateEntryChecked fuel lookup h = updateEntry fuel lookup h ∧
      ∀ lookup', updateEntry fuel lookup h = some lookup' → lookup'.length = lookup.length ∧ Descending lookup' := by
  obtain ⟨heq, hlow⟩ := lookupUpdateChecked_eq hdesc fuel hh
  rw [updateEntryChecked, updateEntry, Checked.load_eq hh 0, Option.bind_eq_bind, Option.bind_some, heq]
  by_cases hfix : h ≠ lookup.getD h 0
  · rw [if_pos hfix, if_pos hfix]
    cases hrun : lookupUpdate fuel h lookup with
    | none => exact ⟨rfl, fun lookup' h' => by cases h'⟩
    | some a =>
      have ha := hlow a hrun
      refine ⟨storeLink_eq hh ha, fun lookup' h' => ?_⟩
      obtain rfl := Option.some.inj h'
      exact ⟨List.length_set, hdesc.set ha⟩
  · rw [if_neg hfix, if_neg hfix]
    refine ⟨rfl, fun lookup' h' => ?_⟩
    obtain rfl := Option.some.inj h'
    exact ⟨rfl, hdesc⟩

theorem updateAllChecked_eq {fuel : Nat} {s : Labeler} (hdesc : Descending s.lookup)
    (hcount : s.labelCount ≤ s.lookup.length) :
    (List.range s.labelCount).foldlM (updateEntryChecked fuel) s.lookup = updateAll fuel s := by
  refine Checked.foldlM_congr (fun lookup => lookup.length = s.lookup.length ∧ Descending lookup) ⟨rfl, hdesc⟩ ?_
  rintro h hh lookup ⟨hlength, hlookup⟩
  obtain ⟨heq, hnext⟩ : updateEntryChecked fuel lookup h = updateEntry fuel lookup h ∧ _ :=
    updateEntryChecked_eq hlookup (by rw [hlength]; exact (List.mem_range.1 hh).trans_le hcount)
  exact ⟨heq, fun lookup' hrun => ⟨(hnext lookup' hrun).1.trans hlength, (hnext lookup' hrun).2⟩⟩

/-- What replaces a label. -/
def linked (lookup : List Nat) (l : Nat) : Nat := if l ≠ 0 then lookup.getD l 0 else l

theorem relabelPixelChecked_eq {width w h : Nat} {lookup labelList : List Nat}
    (hin : w + h * width < labelList.length) (hlow : labelList.getD (w + h * width) 0 < lookup.length) :
    relabelPixelChecked width lookup w h labelList =
      some (labelList.set (w + h * width) (linked lookup (labelList.getD (w + h * width) 0))) := by
  rw [relabelPixelChecked, Checked.load_eq hin 0, Option.bind_eq_bind, Option.bind_some, linked]
  split_ifs with hzero
  · rw [Checked.load_eq hlow 0, Option.bind_some, Checked.store_eq hin]
  · rw [List.getD_eq_getElem?_getD, List.getElem?_eq_getElem hin, Option.getD_some, List.set_getElem_self]
    rfl

/-- The loops over the pixels replace every label. -/
theorem relabelChecked_eq {lookup : List Nat} {s : Labeler} (hlength : s.labelList.length = image.width * image.height)
    (hlow : ∀ p, image.Inside p → s.labelList.getD (index image p) 0 < lookup.length) :
    relabelChecked image lookup s = some (relabel lookup s) := by
  obtain ⟨labelList, hrun, hlen, hget⟩ := Checked.foldlM_eq_some (l := raster 0 image.width 0 image.height)
    (s := s.labelList) (f := fun labelList p => relabelPixelChecked image.width lookup p.1 p.2 labelList)
    (fun pre labelList => labelList.length = image.width * image.height ∧ ∀ q, image.Inside q →
      labelList.getD (index image q) 0 = if q ∈ pre then linked lookup (s.labelList.getD (index image q) 0) else
        s.labelList.getD (index image q) 0)
    ⟨hlength, fun q _ => (if_neg List.not_mem_nil).symm⟩ (by
      rintro pre p post labelList hpre ⟨hlen, hget⟩
      have hnodup := raster_nodup 0 image.width 0 image.height
      rw [hpre, List.nodup_middle, List.nodup_cons] at hnodup
      have hp : image.Inside p := by
        have hmem : p ∈ raster 0 image.width 0 image.height := by simp [hpre]
        exact ⟨(mem_raster.1 hmem).1.2, (mem_raster.1 hmem).2.2⟩
      -- the label of `p` has not been replaced yet
      have hold := hget p hp
      rw [if_neg fun hmem => hnodup.1 (List.mem_append_left _ hmem)] at hold
      refine ⟨_, relabelPixelChecked_eq (hlen ▸ index_lt hp.1 hp.2) (hold ▸ hlow p hp), by rw [List.length_set, hlen],
        fun q hq => ?_⟩
      rw [index, getD_set hlen.ge hp hq.1]
      by_cases hqp : q = p
      · rw [if_pos hqp, hqp, if_pos (List.mem_append_right _ List.mem_cons_self)]
        exact congrArg (linked lookup) hold
      · rw [if_neg hqp, ← index, hget q hq]
        simp [hqp])
  have hmap : labelList = s.labelList.map (linked lookup) := by
    refine eq_of_getD (w := image.width) (h := image.height) 0 hlen (by rw [List.length_map, hlength]) fun p hx hy => ?_
    have hin := index_lt hx hy
    rw [← hlength] at hin
    rw [← index, hget p ⟨hx, hy⟩, if_pos (mem_raster.2 ⟨⟨Nat.zero_le _, hx⟩, Nat.zero_le _, hy⟩), index]
    simp [List.getElem?_eq_getElem hin]
  rw [relabelChecked, Checked.forLoop_forLoop, hrun, hmap]
  rfl

theorem passChecked_eq {fuel : Nat} (hfuel : image.width * image.height < fuel) {s : Labeler}
    {t : Labelling (Nat × Nat)} (hs : Holds image s t) (ht : Base (innerWhite image) t)
    (hroom : (swept image t).next ≤ image.width * image.height) :
    passChecked fuel image s = pass fuel image s := by
  have hswept : Swept neighbours 0xFFFF (index image) t (innerWhite image) (swept image t) :=
    swept_foldl (scan_innerWhite image) t
  have hroom' := hroom.trans (Nat.le_max_left _ 1)
  have hsweep := sweep_holds hs ht.bounded ht.next_pos hroom'
  have hdesc : Descending (sweep image s).lookup := fun k _ => hsweep.lookup_le (hswept.link_le_self ht) k
  have hcount : (sweep image s).labelCount ≤ (sweep image s).lookup.length := by
    rw [hsweep.count, hsweep.lookup_length]
    exact hroom
  obtain ⟨lookup, hrun, hlen, -⟩ := updateAll_eq hsweep (hswept.link_le_self ht) (fun k hk => hswept.link_next ht hk)
    hroom' (hroom.trans hfuel.le)
  rw [passChecked, sweepChecked_eq hs ht.bounded ht.next_pos hroom, Option.bind_eq_bind, Option.bind_some,
    updateAllChecked_eq hdesc hcount, pass, hrun]
  refine relabelChecked_eq hsweep.labels_length fun p hp => ?_
  rw [hsweep.label p hp, hlen]
  exact (hswept.label_lt ht p).trans_le hroom

theorem passesChecked_eq {fuel : Nat} (hfuel : image.width * image.height < fuel)
    (hroom : (secondSwept image).next ≤ image.width * image.height) :
    passesChecked fuel image = passes fuel image := by
  have hfirst := (swept_second image).next_le.trans hroom
  obtain ⟨s, hrun, hs⟩ := pass_holds (startLabels_holds image) (base_unlabelled _) hfuel
    (hfirst.trans (Nat.le_max_left _ 1))
  rw [passesChecked, passes, passChecked_eq hfuel (startLabels_holds image) (base_unlabelled _) hfirst, hrun]
  exact passChecked_eq hfuel hs (base_first image) hroom

/-! ## The numbers -/

theorem length_subTable (size : Nat) (s : Labeler) : (subTable size s).1.length = size := by
  refine foldl_scan_all (fun t : List Int × Int => t.1.length = size) List.length_replicate fun h t _ ht => ?_
  dsimp only
  split_ifs
  · exact List.length_set.trans ht
  · exact ht

section Numbers

variable {s : Labeler} (hs : Holds image s (resolve (secondSwept image)))
  (hroom : (secondSwept image).next ≤ image.width * image.height)
include hs hroom

/-- Where a label leads. -/
theorem lookup_lt {h : Nat} (hh : h < s.labelCount) : h < s.lookup.length ∧
    s.lookup.getD h 0 = root (secondSwept image).link h ∧ s.lookup.getD h 0 ≤ h := by
  have hcount : s.labelCount = (secondSwept image).next := hs.count
  have hlink : s.lookup.getD h 0 = root (secondSwept image).link h := hs.link h (Or.inl (hcount ▸ hh))
  refine ⟨by rw [hs.lookup_length]; omega, hlink, ?_⟩
  rw [hlink]
  exact root_le ((swept_second image).link_le_self (base_first image)) h

theorem subTableChecked_eq : subTableChecked (image.width * image.height) s =
    some (subTable (image.width * image.height) s) := by
  refine Checked.foldlM_eq_foldl (fun _ t => t.1.length = image.width * image.height) List.length_replicate ?_
  intro pre h post t hpre hlength
  have hh : h < s.labelCount := by
    have hmem : h ∈ List.range' 0 (s.labelCount - 0) := by
      rw [hpre]
      exact List.mem_append_right _ List.mem_cons_self
    simpa using hmem
  obtain ⟨hin, -, hle⟩ := lookup_lt hs hroom hh
  have hsub : s.lookup.getD h 0 < t.1.length := by
    have hsize := hs.lookup_length
    omega
  simp only [Checked.load_eq hin 0, Checked.load_eq hsub (-1), Checked.store_eq hsub, Option.bind_eq_bind,
    Option.bind_some]
  split_ifs
  · exact ⟨rfl, List.length_set.trans hlength⟩
  · exact ⟨rfl, hlength⟩

theorem numbersChecked_eq : numbersChecked (subTable (image.width * image.height) s).1 s =
    some ((List.range s.labelCount).map fun h =>
      (subTable (image.width * image.height) s).1.getD (s.lookup.getD h 0) (-1)) := by
  refine Checked.mapM_eq_map fun h hh => ?_
  have hcount : s.labelCount = (secondSwept image).next := hs.count
  obtain ⟨hin, hlink, hle⟩ := lookup_lt hs hroom (List.mem_range.1 hh)
  have hlt : s.lookup.getD h 0 < (secondSwept image).next := by
    have hh' := List.mem_range.1 hh
    omega
  have hsub : s.lookup.getD h 0 < (subTable (image.width * image.height) s).1.length := by
    rw [length_subTable]
    omega
  have huse : InUse image (s.lookup.getD h 0) := by
    rw [hlink]
    exact link_root ((swept_second image).link_le_self (base_first image)) h
  have hnumber := (subTable_eq hs).2 _ (hlt.trans_le hroom) hlt huse
  have hsmall : Nat.count (InUse image) (s.lookup.getD h 0) ≤ h := (Nat.count_le _).trans hle
  simp only [Checked.load_eq hin 0, Checked.load_eq hsub (-1), Option.bind_eq_bind, Option.bind_some, hnumber]
  rw [if_pos ⟨Int.natCast_nonneg _, Int.ofNat_le.2 hsmall⟩]
  rfl

theorem writeLabelsChecked_eq : writeLabelsChecked (subTable (image.width * image.height) s).1 s image =
    some (writeLabels (subTable (image.width * image.height) s).1 s image) := by
  rw [writeLabelsChecked, numbersChecked_eq hs hroom, Option.bind_eq_bind, Option.bind_some, Checked.forLoop_forLoop,
    writeLabels, forEach_eq]
  refine Checked.foldlM_eq_foldl (fun _ _ => True) trivial ?_
  intro pre p post out hpre _
  have hp : image.Inside p := by
    have hmem : p ∈ raster 0 image.width 0 image.height := by simp [hpre]
    exact ⟨(mem_raster.1 hmem).1.2, (mem_raster.1 hmem).2.2⟩
  have hin : p.1 + p.2 * image.width < s.labelList.length := by
    rw [hs.labels_length]
    exact index_lt hp.1 hp.2
  have hlow : s.labelList.getD (p.1 + p.2 * image.width) 0 < s.labelCount := by
    have hlabel : s.labelList.getD (p.1 + p.2 * image.width) 0 = (resolve (secondSwept image)).label p := hs.label p hp
    rw [hlabel, hs.count]
    exact (base_second image).label_lt p
  refine ⟨?_, trivial⟩
  rw [Checked.load_eq hin 0, Option.bind_eq_bind, Option.bind_some]
  split_ifs
  · rw [Checked.load_eq (by rwa [List.length_map, List.length_range]) 0]
    rfl
  · rfl

end Numbers

/-- **`Labeling` stays inside its tables**: with a check at every index, and at every link, it does what it does without
them; and fewer labels are handed out than the tables have entries. -/
theorem labeling_checked (image : BiImage) (hwidth : 1 ≤ image.width) (hheight : 1 ≤ image.height) {fuel : Nat}
    (hfuel : image.width * image.height < fuel) :
    ∃ s n out, passesChecked fuel image = some s ∧ labelingChecked fuel image = some (n, out) ∧
      labeling fuel image = some (n, out) ∧ s.labelCount - 1 < image.width * image.height ∧
      s.labelCount ≤ image.width * image.height ∧
      (1 < image.width * image.height → s.labelCount < image.width * image.height) := by
  obtain ⟨hroom, hspare⟩ := room_of_pos hwidth hheight
  obtain ⟨s, hrun, hs⟩ := passes_holds image hfuel
  have hchecked : passesChecked fuel image = some s := (passesChecked_eq hfuel hroom).trans hrun
  have hcount : s.labelCount = (secondSwept image).next := hs.count
  have hpos : 0 < (secondSwept image).next := (base_second image).next_pos
  refine ⟨s, (subTable (image.width * image.height) s).2,
    writeLabels (subTable (image.width * image.height) s).1 s image, hchecked, ?_, by rw [labeling, hrun]; rfl, by omega,
    hcount ▸ hroom, hcount ▸ hspare⟩
  simp only [labelingChecked, hchecked, subTableChecked_eq hs hroom, writeLabelsChecked_eq hs hroom,
    Option.bind_eq_bind, Option.bind_some]
  rfl

/-- The tables of the dot have nine entries, and two labels are handed out. -/
theorem labeling_checked_dot : ∃ s n out, passesChecked 10 dot = some s ∧ labelingChecked 10 dot = some (n, out) ∧
    s.labelCount - 1 < 9 := by
  obtain ⟨s, n, out, hpasses, hrun, -, hlt, -⟩ := labeling_checked dot (show 1 ≤ 3 by decide) (show 1 ≤ 3 by decide)
    (show 3 * 3 < 10 by decide)
  exact ⟨s, n, out, hpasses, hrun, hlt⟩

end LeftFelt.ImageUtil
