import LeftFelt.Image.LabelingLaws
import LeftFelt.Image.Sampling
import LeftFelt.Image.Scope
import LeftFelt.Image.TopHat

/-!
# The hand of the sensor bar

`SamplingHand` removes noise from a binary picture, labels it, and takes the largest object out as the hand. It stores
what `SamplingLargeObject` returns as the area of the hand; but that is a label.

As long as every object gets one label, the labels are the places of the objects in the order of their first pixels. Then
the area is the number of pixels exactly if the largest object has the place that is equal to the number of its pixels
(`area_iff`).
-/

namespace LeftFelt

open Lib BiImage

namespace ImageUtil

/-- `getConnectedNum(image, x, y)`. -/
def getConnectedNum (image : BiImage) (x y : Int) : Nat :=
  offsets.foldl (fun count (j : Int) => offsets.foldl (fun count (i : Int) =>
    if i = 0 ∧ j = 0 then count
    else if (image.get (x + i) (y + j)).eq (Pixel.gray 0) then count
    else count + 1) count) 0

/-- `getNodeList(image, connected_num)`. -/
def getNodeList (image : BiImage) (connectedNum : Nat) : List Point :=
  forEach image.width image.height (fun i j pointList =>
    if (image.get i j).eq (Pixel.gray 0) then pointList
    else if getConnectedNum image i j = connectedNum then pointList ++ [⟨i, j⟩]
    else pointList) []

end ImageUtil

namespace SensorBarLogic

open ImageUtil

/-! ## The code -/

/-- `class Hand`. -/
structure Hand where
  palmCenterPoint : Point
  fingerPointList : List Point
  area : Int

/-- The points of the list that are black in `temp`. -/
def fingers (temp : BiImage) (pointList : List Point) : List Point :=
  forEach temp.width temp.height (fun x y found =>
    if !(temp.get x y).eq (Pixel.gray 0) then found
    else found ++ (pointList.filter fun point => point.x = (x : Int) ∧ point.y = (y : Int)).map fun _ => ⟨x, y⟩) []

/-- `SamplingHand(image)`: the hand, and the image. -/
def samplingHand (fuel : Nat) (image : BiImage) : Option (Hand × BiImage) := do
  let (_, image) ← labeling fuel (antiNoise image 1)
  let (area, image) ← samplingLargeObject image
  let temp := antiNoise (copy image) 5
  let (_, image) ← thinning fuel image
  let palm := scope temp
  some (⟨⟨palm.x + palm.width.tdiv 2, palm.y + palm.height.tdiv 2⟩, fingers temp (getNodeList image 1), area⟩, image)

/-! ## The places of the objects -/

section Labels

variable {A out : BiImage}

/-- The pixels of the object of `p`. -/
def objectOf (A : BiImage) (p : Nat × Nat) : Set (Nat × Nat) := {q | SameObject A p q}

/-- `r` is the first pixel of its object. -/
def FirstPixel (A : BiImage) (r : Nat × Nat) : Prop := InnerWhite A r ∧ ∀ p ∈ objectOf A r, index A r ≤ index A p

/-- The place of the object with the first pixel `r` among all objects. -/
noncomputable def place (A : BiImage) (r : Nat × Nat) : Nat := {s | FirstPixel A s ∧ index A s < index A r}.ncard + 1

theorem finite_objectOf (A : BiImage) (p : Nat × Nat) : (objectOf A p).Finite :=
  (List.finite_toSet (innerWhite A)).subset fun _ hq => mem_innerWhite.2 hq.mem_right

theorem objectOf_congr {p q : Nat × Nat} (h : SameObject A p q) : objectOf A p = objectOf A q := by
  have hqp : SameObject A q p := sameObject_iff.2 ((scan_innerWhite A).path_symm (sameObject_iff.1 h))
  exact Set.ext fun a => ⟨fun ha => hqp.trans ha, fun ha => h.trans ha⟩

/-- First pixels in terms of the scan. -/
theorem firstPixel_iff {r : Nat × Nat} : FirstPixel A r ↔ Head neighbours (index A) (innerWhite A) r r := by
  constructor
  · intro hr
    exact ⟨PathIn.refl (mem_innerWhite.2 hr.1), fun q hq => hr.2 q (sameObject_iff.2 hq)⟩
  · intro hr
    exact ⟨mem_innerWhite.1 hr.1.mem_left, fun q hq => hr.2 q (sameObject_iff.1 hq)⟩

theorem exists_firstPixel {p : Nat × Nat} (hp : InnerWhite A p) : ∃ r, FirstPixel A r ∧ SameObject A r p := by
  have hmem := mem_innerWhite.2 hp
  obtain ⟨r, hr⟩ : ∃ r, Head neighbours (index A) (innerWhite A) p r := exists_head hmem
  exact ⟨r, firstPixel_iff.2 hr.self, sameObject_iff.2 ((scan_innerWhite A).path_symm hr.1)⟩

/-- Places are in the order of the first pixels. -/
theorem place_le_iff {r r' : Nat × Nat} (hr : FirstPixel A r) (hr' : FirstPixel A r') :
    place A r ≤ place A r' ↔ index A r ≤ index A r' := by
  have hfinite : ∀ t, {s | FirstPixel A s ∧ index A s < index A t}.Finite := fun t =>
    (List.finite_toSet (innerWhite A)).subset fun s hs => mem_innerWhite.2 hs.1.1
  -- a later one has more before it
  have hlt : ∀ {r r'}, FirstPixel A r → index A r < index A r' → place A r < place A r' := by
    intro r r' hr hlt
    refine Nat.succ_lt_succ (Set.ncard_lt_ncard ⟨fun s hs => ⟨hs.1, hs.2.trans hlt⟩, fun hsub => ?_⟩ (hfinite r'))
    exact absurd (hsub ⟨hr, hlt⟩).2 (Nat.lt_irrefl _)
  constructor
  · intro hle
    by_contra hnot
    exact absurd (hlt hr' (Nat.lt_of_not_le hnot)) (Nat.not_lt.2 hle)
  · intro hle
    rcases Nat.lt_or_eq_of_le hle with h | h
    · exact (hlt hr h).le
    · rw [(scan_innerWhite A).pos_inj (mem_innerWhite.2 hr.1) (mem_innerWhite.2 hr'.1) h]

/-- An isolated pixel is an object of its own. -/
theorem objectOf_isolated {p : Nat × Nat} (hp : p ∈ isolated A) : objectOf A p = {p} := by
  refine Set.ext fun q => ⟨fun hq => eq_of_isolated hp (sameObject_iff.1 hq), ?_⟩
  rintro rfl
  exact PathIn.refl (mem_innerWhite.1 hp.1)

/-- Other objects have at least two pixels. -/
theorem two_le_ncard {p : Nat × Nat} (hp : InnerWhite A p) (hiso : p ∉ isolated A) : 2 ≤ (objectOf A p).ncard := by
  obtain ⟨q, hpq, hq⟩ : ∃ q ∈ neighbours p, q ∈ innerWhite A := by
    by_contra hnone
    push Not at hnone
    exact hiso ⟨mem_innerWhite.2 hp, hnone⟩
  have hne : p ≠ q := fun h => (scan_innerWhite A).irrefl p (mem_innerWhite.2 hp) (h ▸ hpq)
  have hpath : SameObject A p q := sameObject_iff.2 (PathIn.single (mem_innerWhite.2 hp) hpq hq)
  exact (Set.one_lt_ncard (finite_objectOf A p)).2 ⟨p, PathIn.refl hp, q, hpath, hne⟩

/-- What `Labeling` makes of a picture without labels. -/
structure Labelled (A out : BiImage) : Prop where
  frame : SameFrame out A
  label : ∀ p, A.Inside p → (out.get p.1 p.2).label = if InnerWhite A p then (number A p : Int) else 0

variable (h : Labelled A out)
include h

/-- The pixels of a label. -/
theorem Labelled.mem_object {label : Int} (hne : label ≠ 0) {p : Nat × Nat} :
    p ∈ object out label ↔ InnerWhite A p ∧ (number A p : Int) = label := by
  show out.Inside p ∧ _ ↔ _
  rw [h.frame.inside]
  constructor
  · rintro ⟨hp, heq⟩
    rw [h.label p hp] at heq
    split_ifs at heq with hwhite
    · exact ⟨hwhite, heq⟩
    · exact absurd heq.symm hne
  · rintro ⟨hwhite, heq⟩
    exact ⟨hwhite.inside, by rw [h.label p hwhite.inside, if_pos hwhite, heq]⟩

omit h in
theorem number_ne_zero {p : Nat × Nat} (hp : InnerWhite A p) : (number A p : Int) ≠ 0 := by
  have hpos : 1 ≤ number A p := count_pos (label_pos hp)
  omega

variable (hfew : FewLabels A) (htwo : AtMostForemost A 2)
include hfew htwo

omit h in
/-- Pixels have the same number if they belong to the same object. -/
theorem number_eq_iff {p q : Nat × Nat} (hp : InnerWhite A p) : number A q = number A p ↔ SameObject A p q := by
  refine ⟨fun heq => sameObject_of_number hfew.next_le hp heq.symm, fun hpq => ?_⟩
  have hcomplete := (complete_iff_oneEnd (scan_innerWhite A) (swept_first A) (swept_second A) cap_pos).2
    (hfew.oneEnd htwo)
  exact congrArg (Nat.count (InUse A)) (hcomplete p q (sameObject_iff.1 hpq)).symm

/-- The pixels with the number of `p` are those of its object. -/
theorem Labelled.object_eq {p : Nat × Nat} (hp : InnerWhite A p) : object out (number A p) = objectOf A p := by
  refine Set.ext fun q => ?_
  rw [h.mem_object (number_ne_zero hp), Int.ofNat_inj, number_eq_iff hfew htwo hp]
  exact ⟨fun hq => hq.2, fun hq => ⟨hq.mem_right, hq⟩⟩

theorem Labelled.area_eq {p : Nat × Nat} (hp : InnerWhite A p) : area out (number A p) = (objectOf A p).ncard := by
  rw [area, h.object_eq hfew htwo hp]

omit h in
/-- The number is the place of the object. -/
theorem number_eq_place {p r : Nat × Nat} (hr : FirstPixel A r) (hpr : SameObject A r p) (hiso : p ∉ isolated A) :
    number A p = place A r := by
  have hhead : Head neighbours (index A) (innerWhite A) p r := by
    have hself := firstPixel_iff.1 hr
    have hrp := sameObject_iff.1 hpr
    exact ⟨(scan_innerWhite A).path_symm hrp, fun q hq => hself.2 q (hrp.trans hq)⟩
  have hcount := count_label_head (scan_innerWhite A) (swept_first A) (swept_second A) cap_pos hfew.next_le
    (hfew.oneEnd htwo) hhead hiso
  simp only [← firstPixel_iff] at hcount
  exact hcount

/-! ## The area -/

omit h hfew htwo in
/-- **The largest object is in the right place**: no object has more pixels than that of `r`, those with as many begin
later, and its place is the number of its pixels, of which it has at least two. -/
structure InPlace (A : BiImage) (r : Nat × Nat) : Prop where
  first : FirstPixel A r
  most : ∀ p, (objectOf A p).ncard ≤ (objectOf A r).ncard
  earliest : ∀ p, FirstPixel A p → (objectOf A p).ncard = (objectOf A r).ncard → index A r ≤ index A p
  size : 2 ≤ (objectOf A r).ncard
  place : place A r = (objectOf A r).ncard

/-- A label that is its own area is the place of the largest object. -/
theorem Labelled.inPlace {label : Int} (hlargest : Largest out label) (heq : label = area out label) :
    ∃ r, InPlace A r := by
  obtain ⟨p, hp⟩ := hlargest.nonempty
  obtain ⟨hwhite, rfl⟩ := (h.mem_object hlargest.ne_zero).1 hp
  rw [area, h.object_eq hfew htwo hwhite] at heq
  by_cases hiso : p ∈ isolated A
  · -- the label of an isolated pixel is at least 2
    have hlabel : 2 ≤ number A p :=
      count_label_isolated (scan_innerWhite A) (swept_first A) (swept_second A) cap_pos hiso
    rw [objectOf_isolated hiso, Set.ncard_singleton] at heq
    omega
  have harea : ∀ {q}, InnerWhite A q → area out (number A q) = (objectOf A q).ncard := h.area_eq hfew htwo
  obtain ⟨r, hr, hrp⟩ := exists_firstPixel hwhite
  have hplace := number_eq_place hfew htwo hr hrp hiso
  have hcongr := objectOf_congr hrp
  have hsize := two_le_ncard hwhite hiso
  refine ⟨r, hr, fun q => ?_, fun q hq hcard => ?_, by rwa [hcongr], by rw [hcongr]; omega⟩
  · by_cases hq : InnerWhite A q
    · have hmost := hlargest.most _ (number_ne_zero hq)
      rwa [harea hq, harea hwhite, ← hcongr] at hmost
    · rw [show objectOf A q = ∅ from Set.eq_empty_of_forall_notMem fun a ha => hq ha.mem_left, Set.ncard_empty]
      exact Nat.zero_le _
  · rw [hcongr] at hcard
    have hfirst := hlargest.first _ (number_ne_zero hq.1) (by rw [harea hq.1, harea hwhite, hcard])
    have hiso' : q ∉ isolated A := fun hiso' => by
      rw [objectOf_isolated hiso', Set.ncard_singleton] at hcard
      omega
    rw [hplace, number_eq_place hfew htwo hq (PathIn.refl hq.1) hiso', Int.ofNat_le] at hfirst
    exact (place_le_iff hr hq).1 hfirst

/-- The largest object in the right place has its area as its label. -/
theorem Labelled.largest_of_inPlace {r : Nat × Nat} (hr : InPlace A r) :
    ∃ label, Largest out label ∧ label = area out label := by
  have hwhite := hr.first.1
  have hsize := hr.size
  have hisolated : ∀ {q}, q ∈ isolated A → (objectOf A q).ncard = 1 := fun hq => by
    rw [objectOf_isolated hq, Set.ncard_singleton]
  have hiso : r ∉ isolated A := fun hiso => by
    have hone := hisolated hiso
    omega
  have hplace := number_eq_place hfew htwo hr.first (PathIn.refl hwhite) hiso
  have harea : ∀ {q}, InnerWhite A q → area out (number A q) = (objectOf A q).ncard := h.area_eq hfew htwo
  refine ⟨number A r, ⟨number_ne_zero hwhite, ?_, fun other hother => ?_, fun other hother heq => ?_⟩, ?_⟩
  · rw [h.object_eq hfew htwo hwhite]
    exact ⟨r, PathIn.refl hwhite⟩
  · rw [harea hwhite]
    by_cases hnonempty : (object out other).Nonempty
    · obtain ⟨q, hq⟩ := hnonempty
      obtain ⟨hwhite', rfl⟩ := (h.mem_object hother).1 hq
      rw [harea hwhite']
      exact hr.most q
    · rw [area_eq_zero hnonempty]
      exact Nat.zero_le _
  · rw [harea hwhite] at heq
    obtain ⟨q, hq⟩ := Set.nonempty_of_ncard_ne_zero (s := object out other) (by unfold area at heq; omega)
    obtain ⟨hwhite', rfl⟩ := (h.mem_object hother).1 hq
    rw [harea hwhite'] at heq
    have hiso' : q ∉ isolated A := fun hiso' => by
      have hone := hisolated hiso'
      omega
    obtain ⟨s, hs, hsq⟩ := exists_firstPixel hwhite'
    have hearlier := hr.earliest s hs (by rw [objectOf_congr hsq, heq])
    rw [Int.ofNat_le, hplace, number_eq_place hfew htwo hs hsq hiso']
    exact (place_le_iff hr.first hs).2 hearlier
  · rw [harea hwhite, hplace, hr.place]

end Labels

/-! ## The area of the hand -/

variable {w h : Nat} {image : BiImage}

/-- The area of the hand is the number of white pixels of the object that has been taken out. -/
def AreaIsSize (fuel : Nat) (image : BiImage) : Prop :=
  ∃ n labelled label object hand out, labeling fuel (antiNoise image 1) = some (n, labelled) ∧
    samplingLargeObject labelled = some (label, object) ∧ samplingHand fuel image = some (hand, out) ∧
    hand.area = ({p | object.Inside p ∧ (object.get p.1 p.2).lightness = 255}.ncard : Int)

/-- **`SamplingHand` stores the label as the area.** -/
theorem samplingHand_area {fuel : Nat} {labelled object : BiImage} {n label : Int}
    (hlabel : labeling fuel (antiNoise image 1) = some (n, labelled))
    (hobject : samplingLargeObject labelled = some (label, object)) (hfuel : object.width * object.height < fuel) :
    (samplingHand fuel image).map (fun r => r.1.area) = some label := by
  obtain ⟨count, thin, hthin, -⟩ := thinning_frame object hfuel
  simp [samplingHand, hlabel, hobject, hthin]

/-- What the area is compared with. -/
theorem areaIsSize_iff {fuel : Nat} {labelled object : BiImage} {n label : Int}
    (hlabel : labeling fuel (antiNoise image 1) = some (n, labelled))
    (hobject : samplingLargeObject labelled = some (label, object)) (hfuel : object.width * object.height < fuel) :
    AreaIsSize fuel image ↔ label = ({p | object.Inside p ∧ (object.get p.1 p.2).lightness = 255}.ncard : Int) := by
  have hstored := samplingHand_area hlabel hobject hfuel
  constructor
  · rintro ⟨n', labelled', label', object', hand, out, hlabel', hobject', hhand, harea⟩
    obtain ⟨-, rfl⟩ := Prod.mk.inj (Option.some.inj (hlabel.symm.trans hlabel'))
    obtain ⟨-, rfl⟩ := Prod.mk.inj (Option.some.inj (hobject.symm.trans hobject'))
    rw [hhand, Option.map_some, Option.some.injEq] at hstored
    exact hstored.symm.trans harea
  · intro heq
    obtain ⟨⟨hand, out⟩, hhand, harea⟩ := Option.map_eq_some_iff.1 hstored
    exact ⟨n, labelled, label, object, hand, out, hlabel, hobject, hhand, harea.trans heq⟩

/-- The white pixels of the object are those of the label. -/
theorem white_object (hclear : image.clearColor = Pixel.init) (label : Int) :
    {p | (samplingObject image label).2.Inside p ∧ ((samplingObject image label).2.get p.1 p.2).lightness = 255} =
      object image label := by
  obtain ⟨hfr, hget, -⟩ := samplingObject_spec hclear label
  refine Set.ext fun p => ?_
  show _ ∧ _ ↔ _ ∧ _
  rw [hfr.inside]
  refine and_congr_right fun hp => ?_
  rw [hget p hp, lightness_sampled]

/-- **When the area is the size**: as long as every object gets one label, exactly if the largest object that is left has
the place that is equal to the number of its pixels. -/
theorem area_iff (hb : Binary w h image) {fuel : Nat} (hfuel : w * h < fuel) (hfew : FewLabels (antiNoise image 1))
    (htwo : AtMostForemost (antiNoise image 1) 2) :
    AreaIsSize fuel image ↔ ∃ r, InPlace (antiNoise image 1) r := by
  have hA : Binary w h (antiNoise image 1) := (opening_spec hb _).1
  have hfuelA : (antiNoise image 1).width * (antiNoise image 1).height < fuel := by rwa [hA.width, hA.height]
  generalize hopened : antiNoise image 1 = A at hA hfuelA hfew htwo
  obtain ⟨s, out, -, -, hrun, hfr, hget⟩ := labeling_spec A hfuelA
  have hlabelled : Labelled A out := by
    refine ⟨hfr, fun p hp => ?_⟩
    rw [hget p.1 p.2 hp]
    split_ifs
    · rfl
    · rcases hA.pixels ⟨p, hA.width ▸ hp.1, hA.height ▸ hp.2⟩ with hgray | hgray
      · rw [hgray]; rfl
      · rw [hgray]; rfl
  have hclear : out.clearColor = Pixel.init := hfr.clear.trans hA.clear
  -- the picture without the object has the same size
  have hfuelO : ∀ label, (samplingObject out label).2.width * (samplingObject out label).2.height < fuel := by
    intro label
    have hframe := (samplingObject_spec hclear label).1.trans hfr
    rwa [hframe.width, hframe.height]
  have hsize : ∀ {label}, (Tally.most (areaMap out)).2 = some label →
      (AreaIsSize fuel image ↔ label = area out label) := by
    intro label hmost
    have hlarge : samplingLargeObject out = some (label, (samplingObject out label).2) := by
      rw [samplingLargeObject, hmost]
      rfl
    rw [areaIsSize_iff (hopened ▸ hrun) hlarge (hfuelO label), white_object hclear]
    rfl
  constructor
  · intro harea
    obtain ⟨n, labelled, label, object, hand, last, hrun', hlarge, -⟩ := id harea
    rw [hopened, hrun] at hrun'
    obtain ⟨-, rfl⟩ := Prod.mk.inj (Option.some.inj hrun')
    obtain ⟨id, hmost, -⟩ := Option.map_eq_some_iff.1 hlarge
    exact hlabelled.inPlace hfew htwo (largest_of_most hmost) ((hsize hmost).1 harea)
  · rintro ⟨r, hr⟩
    obtain ⟨label, hlargest, heq⟩ := hlabelled.largest_of_inPlace hfew htwo hr
    obtain ⟨p, hp⟩ := hlargest.nonempty
    obtain ⟨id, hmost⟩ := exists_most ⟨p, hp.1, by rw [hp.2]; exact hlargest.ne_zero⟩
    obtain rfl := (largest_of_most hmost).unique hlargest
    exact (hsize hmost).2 heq

theorem binary_picture (hw : w < 2 ^ 31) (hh : h < 2 ^ 31) (rows : List (List Nat)) :
    Binary w h (picture w h hw hh rows) := by
  refine binary_ofFn hw hh fun x y => ?_
  split_ifs
  · exact Or.inr rfl
  · exact Or.inl rfl

theorem six_fits : 6 < 2 ^ 31 := by decide

theorem four_fits : 4 < 2 ^ 31 := by decide

/-- Some white pixels at the upper border. The noise filter leaves one inner pixel on the left and two on the right. -/
def corners : BiImage := picture 6 3 six_fits three_fits [[1, 1, 0, 1, 1, 1], [1, 0, 0, 1, 1, 0], [0, 0, 0, 0, 0, 0]]

/-- A white image. -/
def allWhite : BiImage := ofFn 4 4 four_fits four_fits fun _ _ => Pixel.gray 255

/-- The label of the largest object, and the number of its pixels. -/
def labelAndSize (fuel : Nat) (image : BiImage) : Option (Int × Nat × Nat) := do
  let (_, labelled) ← labeling fuel (antiNoise image 1)
  let (label, object) ← samplingLargeObject labelled
  some (label, (raster 0 object.width 0 object.height).countP fun p => (object.get p.1 p.2).lightness = 255,
    object.width * object.height)

theorem areaIsSize_iff_of_eval {fuel count size : Nat} {label : Int}
    (heval : labelAndSize fuel image = some (label, count, size)) (hfuel : size < fuel) :
    AreaIsSize fuel image ↔ label = count := by
  simp only [labelAndSize, Option.bind_eq_bind, Option.bind_eq_some_iff, Option.some.injEq, Prod.mk.injEq] at heval
  obtain ⟨⟨n, labelled⟩, hlabel, ⟨label', object⟩, hobject, rfl, rfl, rfl⟩ := heval
  rw [areaIsSize_iff hlabel hobject hfuel, ← countP_raster fun p => (object.get p.1 p.2).lightness = 255]

/-- The pair of pixels on the right has the second place. -/
theorem area_corners : ∃ r, InPlace (antiNoise corners 1) r := by
  have hb : Binary 6 3 corners := binary_picture _ _ _
  have heval : labelAndSize 19 corners = some (2, 2, 18) := by decide +kernel
  have hfew : FewLabels (antiNoise corners 1) := fewLabels_of_length (by decide +kernel)
  have hstarts : ∀ s ∈ innerWhite (antiNoise corners 1), (∀ q ∈ neighbours s, q ∈ innerWhite (antiNoise corners 1) →
      index (antiNoise corners 1) s < index (antiNoise corners 1) q) → s ∈ [(1, 1), (3, 1)] := by decide +kernel
  have htwo : AtMostForemost (antiNoise corners 1) 2 := by
    suffices h : ∀ s, Foremost neighbours (index (antiNoise corners 1)) (innerWhite (antiNoise corners 1)) s →
        s ∈ [(1, 1), (3, 1)] from atMost_of_mem h
    exact fun s hs => hstarts s hs.1.1 hs.1.2
  exact (area_iff hb (by decide) hfew htwo).1 ((areaIsSize_iff_of_eval heval (by decide)).2 rfl)

/-- The four inner pixels of the white image have the label 1. -/
theorem not_areaIsSize_allWhite :
    Binary 4 4 allWhite ∧ InnerWhite (antiNoise allWhite 1) (1, 1) ∧ ¬AreaIsSize 17 allWhite := by
  refine ⟨binary_ofFn four_fits four_fits fun _ _ => Or.inr rfl, by decide +kernel, ?_⟩
  have heval : labelAndSize 17 allWhite = some (1, 4, 16) := by decide +kernel
  rw [areaIsSize_iff_of_eval heval (by decide)]
  decide

end SensorBarLogic

end LeftFelt
