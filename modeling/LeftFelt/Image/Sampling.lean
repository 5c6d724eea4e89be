import LeftFelt.Image.BiImage
import LeftFelt.Lib.Tally
import Mathlib.Data.Set.Card

/-!
# Taking one object out of a labelled image

`ImageUtil::SamplingObject` paints the pixels of one label white and all others black; `SamplingLargeObject` does so for
the label that most pixels have. The numbers of pixels are `int`s in the source, and no buffer has more pixels than an
`int` can count.
-/

namespace LeftFelt.ImageUtil

open Lib BiImage

/-! ## The code -/

/-- `SamplingObject(image, label)`: the number of pixels with that label, and the image. -/
def samplingObject (image : BiImage) (label : Int) : Nat × BiImage :=
  forEach image.width image.height (fun i j (s : Nat × BiImage) =>
    let pixel := s.2.get i j
    if pixel.label = label then (s.1 + 1, s.2.put i j (pixel.setLightness 255))
    else (s.1, s.2.put i j (pixel.setLightness 0))) (0, image)

/-- `area_map`. -/
def areaMap (image : BiImage) : OrderedMap Int Nat :=
  forEach image.width image.height (fun i j area =>
    if (image.get i j).label ≠ 0 then Tally.bump area (image.get i j).label else area) OrderedMap.empty

/-- `SamplingLargeObject(image)`: the label, and the image. Without any label other than 0 the variable `area_id` has
no value. -/
def samplingLargeObject (image : BiImage) : Option (Int × BiImage) :=
  (Tally.most (areaMap image)).2.map fun areaId => (areaId, (samplingObject image areaId).2)

/-! ## Objects -/

variable {image : BiImage}

/-- The pixels of one label. -/
def object (image : BiImage) (label : Int) : Set (Nat × Nat) :=
  {p | image.Inside p ∧ (image.get p.1 p.2).label = label}

/-- The number of pixels of one label. -/
noncomputable def area (image : BiImage) (label : Int) : Nat := (object image label).ncard

/-- **The largest object**: no object has more pixels, and those with as many have a larger label. -/
structure Largest (image : BiImage) (label : Int) : Prop where
  ne_zero : label ≠ 0
  nonempty : (object image label).Nonempty
  most : ∀ other, other ≠ 0 → area image other ≤ area image label
  first : ∀ other, other ≠ 0 → area image other = area image label → label ≤ other

theorem Largest.unique {a b : Int} (ha : Largest image a) (hb : Largest image b) : a = b := by
  have harea : area image b = area image a :=
    Nat.le_antisymm (ha.most b hb.ne_zero) (hb.most a ha.ne_zero)
  exact Int.le_antisymm (ha.first b hb.ne_zero harea) (hb.first a ha.ne_zero harea.symm)

theorem mem_raster_iff {p : Nat × Nat} : p ∈ raster 0 image.width 0 image.height ↔ image.Inside p := by
  simp [Inside]

/-- Pixels counted by a scan. -/
theorem countP_raster (c : Nat × Nat → Prop) [DecidablePred c] :
    (raster 0 image.width 0 image.height).countP c = {p | image.Inside p ∧ c p}.ncard := by
  have hset : {p | image.Inside p ∧ c p} = ((raster 0 image.width 0 image.height).filter c).toFinset := by
    ext p
    simp [Inside]
  rw [hset, Set.ncard_coe_finset, List.toFinset_card_of_nodup ((raster_nodup _ _ _ _).filter _),
    List.countP_eq_length_filter]

/-- Under the default clear colour `Get` shows what is stored. -/
theorem get_eq_px (hclear : image.clearColor = Pixel.init) {p : Nat × Nat} (hp : image.Inside p) :
    image.get p.1 p.2 = image.px p := by
  rw [get_inside hp, hclear]
  split_ifs with heq
  · exact (Pixel.eq_init_of_empty (Pixel.eq_iff.1 heq).1.symm).symm
  · rfl

/-! ## One object -/

/-- The pixel that `SamplingObject` stores. -/
def sampled (label : Int) (pixel : Pixel) : Pixel := pixel.setLightness (if pixel.label = label then 255 else 0)

@[simp] theorem label_sampled (label : Int) (pixel : Pixel) : (sampled label pixel).label = pixel.label := rfl

theorem lightness_sampled (label : Int) (pixel : Pixel) :
    (sampled label pixel).lightness = 255 ↔ pixel.label = label := by
  have hlightness : ∀ v : UInt8, (pixel.setLightness v).lightness = (Pixel.gray v).lightness := fun _ => rfl
  rw [sampled, hlightness, Pixel.lightness_gray]
  split_ifs with hlabel
  · exact iff_of_true rfl hlabel
  · exact iff_of_false (by decide) hlabel

/-- **What `SamplingObject` does**: it counts the pixels of the label, paints them white and all others black, and keeps
their labels. -/
theorem samplingObject_spec (hclear : image.clearColor = Pixel.init) (label : Int) :
    SameFrame (samplingObject image label).2 image ∧
      (∀ p, image.Inside p → (samplingObject image label).2.get p.1 p.2 = sampled label (image.get p.1 p.2)) ∧
      (samplingObject image label).1 = area image label := by
  have key := foldl_scan (l := raster 0 image.width 0 image.height) (s := ((0, image) : Nat × BiImage))
    (f := fun s p =>
      if (s.2.get p.1 p.2).label = label then (s.1 + 1, s.2.put p.1 p.2 ((s.2.get p.1 p.2).setLightness 255))
      else (s.1, s.2.put p.1 p.2 ((s.2.get p.1 p.2).setLightness 0)))
    (fun pre s => SameFrame s.2 image ∧
      (∀ q, image.Inside q → s.2.px q = if q ∈ pre then sampled label (image.get q.1 q.2) else image.px q) ∧
      s.1 = pre.countP fun p => (image.get p.1 p.2).label = label) ⟨SameFrame.refl _, by simp, rfl⟩ ?_
  · obtain ⟨hfr, hpx, hcount⟩ := key
    rw [countP_raster] at hcount
    rw [samplingObject, forEach_eq]
    refine ⟨hfr, fun p hp => ?_, hcount⟩
    rw [get_eq_px (hfr.clear.trans hclear) (hfr.inside.2 hp), hpx p hp, if_pos (mem_raster_iff.2 hp)]
  rintro pre p post ⟨n, out⟩ hl ⟨hfr, hpx, hcount⟩
  have hp : image.Inside p := mem_raster_iff.1 (by rw [hl]; simp)
  have hnew : p ∉ pre := by
    have hnodup := raster_nodup 0 image.width 0 image.height
    rw [hl, List.nodup_append] at hnodup
    exact fun hmem => hnodup.2.2 p hmem p List.mem_cons_self rfl
  have hget : out.get p.1 p.2 = image.get p.1 p.2 := by
    rw [get_eq_px (hfr.clear.trans hclear) (hfr.inside.2 hp), hpx p hp, if_neg hnew, get_eq_px hclear hp]
  have hstore : ∀ q, image.Inside q → (out.put p.1 p.2 (sampled label (image.get p.1 p.2))).px q =
      if q ∈ pre ++ [p] then sampled label (image.get q.1 q.2) else image.px q := by
    intro q hq
    rw [put_inside (hfr.inside.2 hp), px_write (hfr.inside.2 hp) (hfr.inside.2 hq), hpx q hq]
    by_cases hqp : q = p
    · simp [hqp]
    · simp [hqp]
  dsimp only at hcount ⊢
  rw [hget]
  split_ifs with hlabel
  · have hsampled : (image.get p.1 p.2).setLightness 255 = sampled label (image.get p.1 p.2) := by
      rw [sampled, if_pos hlabel]
    rw [hsampled]
    exact ⟨(sameFrame_write _ _).trans hfr, hstore, by simp [hcount, hlabel]⟩
  · have hsampled : (image.get p.1 p.2).setLightness 0 = sampled label (image.get p.1 p.2) := by
      rw [sampled, if_neg hlabel]
    rw [hsampled]
    exact ⟨(sameFrame_write _ _).trans hfr, hstore, by simp [hcount, hlabel]⟩

/-- The labels are those of before. -/
theorem area_samplingObject (hclear : image.clearColor = Pixel.init) (label other : Int) :
    area (samplingObject image label).2 other = area image other := by
  obtain ⟨hfr, hget, -⟩ := samplingObject_spec hclear label
  refine congrArg Set.ncard (Set.ext fun p => ?_)
  show _ ∧ _ ↔ _ ∧ _
  rw [hfr.inside]
  refine and_congr_right fun hp => ?_
  rw [hget p hp, label_sampled]

/-! ## The largest object -/

/-- The labels other than 0, in the order of the scan. -/
def labels (image : BiImage) : List Int :=
  ((raster 0 image.width 0 image.height).map fun p => (image.get p.1 p.2).label).filter (· ≠ 0)

theorem areaMap_eq (image : BiImage) : areaMap image = Tally.tally (labels image) := by
  rw [areaMap, forEach_eq, Tally.tally, labels, List.foldl_filter, List.foldl_map]
  simp

theorem count_labels {label : Int} (hne : label ≠ 0) : (labels image).count label = area image label := by
  have hcount : (labels image).count label =
      (raster 0 image.width 0 image.height).countP fun p => (image.get p.1 p.2).label = label := by
    rw [labels, List.count_filter (by simpa using hne), List.count, List.countP_map]
    rfl
  rw [hcount, countP_raster, area, object]

theorem mem_labels {label : Int} : label ∈ labels image ↔ label ≠ 0 ∧ (object image label).Nonempty := by
  simp only [labels, List.mem_filter, List.mem_map, decide_eq_true_eq]
  rw [and_comm]
  refine and_congr_right fun _ => exists_congr fun p => ?_
  rw [mem_raster_iff]
  rfl

/-- An object without pixels has the area 0. -/
theorem area_eq_zero {label : Int} (h : ¬(object image label).Nonempty) : area image label = 0 := by
  rw [area, Set.not_nonempty_iff_eq_empty.1 h, Set.ncard_empty]

/-- The label that is kept belongs to the largest object. -/
theorem largest_of_most {label : Int} (hmost : (Tally.most (areaMap image)).2 = some label) : Largest image label := by
  rw [areaMap_eq] at hmost
  rcases Tally.most_spec (labels image) with ⟨hnone, -⟩ | ⟨k, hk, heq, hall⟩
  · rw [hnone] at hmost
    cases hmost
  rw [heq] at hmost
  obtain rfl := Option.some.inj hmost
  obtain ⟨hne, hnonempty⟩ := mem_labels.1 hk
  have hpos : 0 < (labels image).count k := List.count_pos_iff.2 hk
  refine ⟨hne, hnonempty, fun other hother => ?_, fun other hother heq => ?_⟩
  · by_cases hmem : other ∈ labels image
    · rw [← count_labels hother, ← count_labels hne]
      exact (hall other hmem).1
    · rw [area_eq_zero fun h => hmem (mem_labels.2 ⟨hother, h⟩)]
      exact Nat.zero_le _
  · rw [← count_labels hother, ← count_labels hne] at heq
    exact (hall other (List.count_pos_iff.1 (heq ▸ hpos))).2 heq

/-- A label is kept if there is one. -/
theorem exists_most (hobject : ∃ p, image.Inside p ∧ (image.get p.1 p.2).label ≠ 0) :
    ∃ label, (Tally.most (areaMap image)).2 = some label := by
  rw [areaMap_eq]
  rcases Tally.most_spec (labels image) with ⟨-, hnil⟩ | ⟨k, -, hmost, -⟩
  · obtain ⟨p, hp, hne⟩ := hobject
    have hmem := mem_labels.2 ⟨hne, p, hp, rfl⟩
    rw [hnil] at hmem
    cases hmem
  · exact ⟨k, by rw [hmost]⟩

/-- **The largest object is taken out**: its pixels are white and all others black, the labels are those of before, and
to take its label out again counts its pixels. -/
theorem samplingLargeObject_spec (image : BiImage) (hclear : image.clearColor = Pixel.init)
    (hobject : ∃ p, image.Inside p ∧ (image.get p.1 p.2).label ≠ 0) :
    ∃ label out, samplingLargeObject image = some (label, out) ∧ Largest image label ∧ SameFrame out image ∧
      (∀ p, image.Inside p → (out.get p.1 p.2).label = (image.get p.1 p.2).label ∧
        ((image.get p.1 p.2).label = label →
          (out.get p.1 p.2).red = 255 ∧ (out.get p.1 p.2).green = 255 ∧ (out.get p.1 p.2).blue = 255) ∧
        ((image.get p.1 p.2).label ≠ label →
          (out.get p.1 p.2).red = 0 ∧ (out.get p.1 p.2).green = 0 ∧ (out.get p.1 p.2).blue = 0)) ∧
      (samplingObject out label).1 = area image label := by
  obtain ⟨label, hmost⟩ := exists_most hobject
  have hlargest := largest_of_most hmost
  obtain ⟨hfr, hget, -⟩ := samplingObject_spec hclear label
  refine ⟨label, (samplingObject image label).2, by rw [samplingLargeObject, hmost]; rfl, hlargest, hfr, ?_, ?_⟩
  · intro p hp
    rw [hget p hp]
    refine ⟨rfl, fun heq => ?_, fun hne => ?_⟩
    · rw [sampled, if_pos heq]
      exact ⟨rfl, rfl, rfl⟩
    · rw [sampled, if_neg hne]
      exact ⟨rfl, rfl, rfl⟩
  · rw [(samplingObject_spec (hfr.clear.trans hclear) label).2.2, area_samplingObject hclear]

/-- Two pixels of the label 7. -/
def sevens : BiImage := ofFn 2 1 two_fits one_fits fun _ _ => (Pixel.gray 255).setLabel 7

theorem samplingLargeObject_sevens :
    ∃ label out, samplingLargeObject sevens = some (label, out) ∧ Largest sevens label := by
  have hfr := sameFrame_ofFn 2 1 two_fits one_fits fun _ _ => (Pixel.gray 255).setLabel 7
  have hin : sevens.Inside (0, 0) := hfr.inside.2 ⟨Nat.two_pos, Nat.one_pos⟩
  have hget : sevens.get (0 : Nat) (0 : Nat) = (Pixel.gray 255).setLabel 7 :=
    get_ofFn two_fits one_fits Nat.two_pos Nat.one_pos rfl
  obtain ⟨label, out, hrun, hlargest, -⟩ := samplingLargeObject_spec sevens hfr.clear
    ⟨(0, 0), hin, by rw [hget]; exact (by decide : (7 : Int) ≠ 0)⟩
  exact ⟨label, out, hrun, hlargest⟩

end LeftFelt.ImageUtil
