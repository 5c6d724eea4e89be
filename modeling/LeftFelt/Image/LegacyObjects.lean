import LeftFelt.Image.LabelingLaws
import LeftFelt.Image.LegacyLabel

/-!
# The objects of the legacy labelling

`label` tells objects apart if at most 255 labels are handed out (`separates_of_few`): one to every inner white pixel
with none beside it that comes earlier, and one more to every inner white pixel with none beside it at all. The label
after that is 256, which is stored as 0. In a picture where no two inner white pixels are adjacent the pixel that gets it
stays without a label (`label_of_alone`), so that there the condition is exact (`separates_iff`).
-/

namespace LeftFelt.Legacy

open Lib ImageUtil

/-! ## Objects -/

/-- A pixel with the graylevel 255 that is not at the border. -/
def InnerWhite (image : Image) (p : Nat × Nat) : Prop :=
  ((1 ≤ p.1 ∧ p.1 < image.width - 1) ∧ 1 ≤ p.2 ∧ p.2 < image.height - 1) ∧ (image.px p).graylevel = 255

instance (image : Image) (p : Nat × Nat) : Decidable (InnerWhite image p) := inferInstanceAs (Decidable (_ ∧ _))

/-- **The law**: inner white pixels have labels, and equal ones only if a path of them leads from one to the other. -/
structure Separates (image out : Image) : Prop where
  labelled : ∀ p, InnerWhite image p → out.label p.1 p.2 ≠ 0
  object : ∀ p q, InnerWhite image p → InnerWhite image q → out.label p.1 p.2 = out.label q.1 q.2 →
    PathIn Adjacent {p | InnerWhite image p} p q

/-- An inner white pixel, with none beside it that comes earlier. -/
def Start (image : Image) (p : Nat × Nat) : Prop :=
  InnerWhite image p ∧ ∀ q, InnerWhite image q → Adjacent p q → p.1 + p.2 * image.width < q.1 + q.2 * image.width

/-- An inner white pixel with none beside it. -/
def Alone (image : Image) (p : Nat × Nat) : Prop := InnerWhite image p ∧ ∀ q, InnerWhite image q → ¬Adjacent p q

/-- How many labels are handed out. -/
noncomputable def provisional (image : Image) : Nat := {p | Start image p}.ncard + {p | Alone image p}.ncard

section Few

variable {image : Image} {b : BiImage} (hb : Shows image b)
include hb

theorem innerWhite_iff {p : Nat × Nat} : ImageUtil.InnerWhite b p ↔ InnerWhite image p := by
  rw [ImageUtil.InnerWhite, InnerWhite, hb.width, hb.height]
  refine and_congr_right fun hp => ?_
  rw [hb.lightness p.1 p.2 ⟨by omega, by omega⟩]

/-- What holds of the neighbours in the scan, and of adjacent pixels. -/
theorem neighbours_iff {p : Nat × Nat} (hp : InnerWhite image p) (P : Nat × Nat → Prop) :
    (∀ q ∈ neighbours p, q ∈ innerWhite b → P q) ↔ ∀ q, InnerWhite image q → Adjacent p q → P q := by
  have hadj : ∀ q, q ∈ neighbours p ↔ Adjacent p q := fun q => mem_neighbours hp.1.1.1 hp.1.2.1
  constructor
  · exact fun hall q hq hpq => hall q ((hadj q).2 hpq) (mem_innerWhite.2 ((innerWhite_iff hb).2 hq))
  · exact fun hall q hpq hq => hall q ((innerWhite_iff hb).1 (mem_innerWhite.1 hq)) ((hadj q).1 hpq)

theorem starts_eq : starts b = {p | Start image p} := by
  refine Set.ext fun p => ?_
  show Lib.Start neighbours (index b) (innerWhite b) p ↔ _
  rw [Lib.Start, mem_innerWhite, innerWhite_iff hb]
  refine and_congr_right fun hp => ?_
  have hindex : ∀ q, index b q = q.1 + q.2 * image.width := fun q => by rw [index, hb.width]
  rw [neighbours_iff hb hp]
  simp only [hindex]

theorem isolated_eq : isolated b = {p | Alone image p} := by
  refine Set.ext fun p => ?_
  show Lib.Isolated neighbours (innerWhite b) p ↔ _
  rw [Lib.Isolated, mem_innerWhite, innerWhite_iff hb]
  refine and_congr_right fun hp => ?_
  exact neighbours_iff hb hp fun _ => False

/-- The labels that are handed out. -/
theorem next_eq : (secondSwept b).next = 1 + provisional image := by
  rw [next_secondSwept, starts_eq hb, isolated_eq hb, provisional, Nat.add_assoc]

omit hb in
/-- **At most 255 labels**: then the law holds. -/
theorem separates_of_few (h : Valid image) (hfew : provisional image ≤ 255) {fuel : Nat}
    (hfuel : image.width * image.height < fuel) :
    ∃ n out, label fuel image = some (n, out) ∧ Separates image out := by
  have hb := shows_shown h
  have hnext := next_eq hb
  rw [hb.width, hb.height] at hfuel
  obtain ⟨out, hrun, -, hlabel⟩ := label_spec hb hfuel (by omega)
  have hnumber : ∀ p, InnerWhite image p →
      ImageUtil.InnerWhite (shown image h) p ∧ out.label p.1 p.2 = number (shown image h) p := fun p hp => by
    have hp' := (innerWhite_iff hb).2 hp
    exact ⟨hp', by rw [hlabel p.1 p.2 hp'.inside, if_pos hp']⟩
  refine ⟨_, out, hrun, fun p hp => ?_, fun p q hp hq heq => ?_⟩
  · obtain ⟨hp', hout⟩ := hnumber p hp
    have hpos : 1 ≤ number (shown image h) p := count_pos (label_pos hp')
    omega
  · obtain ⟨hp', hout⟩ := hnumber p hp
    rw [hout, (hnumber q hq).2] at heq
    have hpath := sameObject_of_number (by omega) hp' heq
    have hset : {p | ImageUtil.InnerWhite (shown image h) p} = {p | InnerWhite image p} :=
      Set.ext fun p => innerWhite_iff hb
    rwa [SameObject, hset] at hpath

end Few

/-! ## `label` comes to an end -/

section Total

variable {s : Labeler} {lookup : List Nat} {size : Nat}

/-- A table of links that lead down. -/
structure Table (size : Nat) (lookup : List Nat) : Prop where
  length : lookup.length = size
  descending : Descending lookup

theorem Table.le (h : Table size lookup) (k : Nat) :
    lookup.getD k 0 ≤ k ∧ (lookup.getD k 0 < size ∨ lookup.getD k 0 = 0) := by
  by_cases hk : k < lookup.length
  · have hle := h.descending k hk
    have hlength := h.length
    exact ⟨hle, by omega⟩
  · rw [List.getD_eq_getElem?_getD, List.getElem?_eq_none (Nat.le_of_not_lt hk)]
    exact ⟨Nat.zero_le k, Or.inr rfl⟩

theorem Table.set (h : Table size lookup) {l a : Nat} (ha : a ≤ l) : Table size (lookup.set l a) :=
  ⟨List.length_set.trans h.length, h.descending.set ha⟩

theorem table_linkLabels {data : List Nat} (h : Table size lookup) (m : Nat) :
    Table size (linkLabels m data lookup) :=
  foldl_scan_all (Table size) h fun l lookup _ h => by
    unfold linkLabel
    split_ifs with hmeet hge
    · exact h.set (hge.trans (h.le l).1)
    · exact h
    · exact h

theorem table_sweep (h : Table size s.lookup) : Table size (sweep s).lookup := by
  rw [sweep, forLoop_forLoop]
  refine foldl_scan_all (fun s : Labeler => Table size s.lookup) h fun p s _ h => ?_
  unfold labelPixel
  dsimp only
  split_ifs
  · exact h
  · exact table_linkLabels h _
  · exact h

/-- `Lookup_update` comes to an end for every entry. -/
theorem table_updateEntry (h : Table size lookup) {fuel : Nat} (hfuel : size + 1 < fuel) (l : Nat) :
    ∃ lookup', updateEntry fuel lookup l = some lookup' ∧ Table size lookup' := by
  have hle : ∀ k, lookup.getD k 0 ≤ k := fun k => (h.le k).1
  obtain ⟨fuel, rfl⟩ := Nat.exists_eq_add_of_le' (Nat.one_le_of_lt hfuel)
  rw [updateEntry]
  by_cases hfix : l = lookup.getD l 0
  · rw [if_neg (not_not.2 hfix)]
    exact ⟨lookup, rfl, h⟩
  · have hlow : lookup.getD l 0 < fuel := by
      have := (h.le l).2
      omega
    have hroot := lookupUpdate_eq hle fuel hlow fun _ _ => rfl
    rw [if_pos hfix, lookupUpdate, if_neg hfix, hroot]
    exact ⟨_, rfl, h.set ((root_le hle _).trans (hle l))⟩

theorem table_pass (h : Table size s.lookup) {fuel : Nat} (hfuel : size + 1 < fuel) :
    ∃ s', pass fuel s = some s' ∧ Table size s'.lookup := by
  obtain ⟨lookup, hrun, htable⟩ := Checked.foldlM_eq_some (f := updateEntry fuel) (l := List.range (sweep s).labelCount)
    (fun _ => Table size) (table_sweep h) fun _ l _ _ _ h => table_updateEntry h hfuel l
  exact ⟨relabel lookup (sweep s), by rw [pass, hrun]; rfl, htable⟩

/-- **`label` comes to an end.** -/
theorem label_total (image : Image) {fuel : Nat} (hfuel : image.width * image.height + 1 < fuel) :
    ∃ n out, label fuel image = some (n, out) := by
  have htable : Table (image.width * image.height) (startLabels image).lookup := by
    refine ⟨List.length_range, fun k hk => ?_⟩
    have hlt : k < image.width * image.height := by simpa [startLabels] using hk
    simp [startLabels, hlt]
  obtain ⟨s, hfirst, hs⟩ := table_pass htable hfuel
  obtain ⟨t, hsecond, -⟩ := table_pass hs hfuel
  exact ⟨_, _, by rw [label, passes, hfirst, Option.bind_some, hsecond]; rfl⟩

end Total

/-! ## Pixels that are alone -/

/-- The inner white pixels, in the order of the scan. -/
def whites (image : Image) : List (Nat × Nat) :=
  (raster 1 (image.width - 1) 1 (image.height - 1)).filter fun p => (image.px p).graylevel = 255

variable {image : Image} {s t : Labeler} {p q : Nat × Nat}

theorem mem_whites : p ∈ whites image ↔ InnerWhite image p := by
  rw [whites, List.mem_filter, mem_raster, decide_eq_true_eq, InnerWhite]

theorem whites_nodup (image : Image) : (whites image).Nodup := (raster_nodup ..).filter _

/-- The picture is still there, and only inner white pixels have labels. -/
structure Dark (image : Image) (s : Labeler) : Prop where
  picture : SamePicture s.image image
  dark : ∀ p, p.1 < image.width → p.2 < image.height → ¬InnerWhite image p → s.image.label p.1 p.2 = 0

/-- After some pixels of a scan: the next labels have been handed out, and stored with 8 bits. -/
structure Scanned (image : Image) (s : Labeler) (seen : List (Nat × Nat)) (t : Labeler) : Prop extends
    Dark image t where
  count : t.labelCount = s.labelCount + seen.length
  label : ∀ i (h : i < seen.length), t.image.label seen[i].1 seen[i].2 = (s.labelCount + i) % 256

theorem toNat_ofInt_mod (n : Nat) : (UInt8.ofInt n).toNat = n % 256 := by
  rw [UInt8.ofInt, UInt8.toNat_ofNat']
  omega

/-- No label is seen around a pixel that is alone. -/
theorem minData_of_alone (hs : Dark image s) (hp : Alone image p) : minData s.image p.1 p.2 = List.replicate 8 0 := by
  obtain ⟨⟨⟨hx, hy⟩, -⟩, halone⟩ := hp
  have hzero : ∀ x y : Nat, (p.1 ≤ x + 1 ∧ x ≤ p.1 + 1) ∧ (p.2 ≤ y + 1 ∧ y ≤ p.2 + 1) ∧ (x ≠ p.1 ∨ y ≠ p.2) →
      s.image.label x y = 0 := by
    rintro x y ⟨⟨hx₁, hx₂⟩, ⟨hy₁, hy₂⟩, hne⟩
    refine hs.dark (x, y) (by show x < _; omega) (by show y < _; omega) fun hq => halone (x, y) hq ⟨?_, ⟨?_, ?_⟩, ?_, ?_⟩
    · rintro rfl
      simp at hne
    all_goals omega
  simp only [minData, List.replicate, List.cons.injEq, and_true]
  refine ⟨?_, ?_, ?_, ?_, ?_, ?_, ?_, ?_⟩
  all_goals exact hzero _ _ (by omega)

/-- A pixel that is alone gets the next label. -/
theorem labelPixel_of_alone (hsize : image.imageData.length = image.width * image.height) {seen : List (Nat × Nat)}
    (ht : Scanned image s seen t) (hp : Alone image p) (hnew : p ∉ seen) (hseen : ∀ q ∈ seen, InnerWhite image q) :
    Scanned image s (seen ++ [p]) (labelPixel p.1 p.2 t) := by
  have hwhite : (t.image.px (p.1, p.2)).graylevel = 255 := (ht.picture.graylevel p).trans hp.1.2
  have hdata := minData_of_alone ht.toDark hp
  have hrun : labelPixel p.1 p.2 t = { t with
      image := t.image.setLabel (p.1 + p.2 * t.image.width) t.labelCount, labelCount := t.labelCount + 1 } := by
    rw [labelPixel, if_pos hwhite, hdata]
    rfl
  have hin : ∀ q, InnerWhite image q → q.1 < image.width ∧ q.2 < image.height := fun q hq => by
    have := hq.1
    omega
  have hread : ∀ q : Nat × Nat, q.1 < image.width → (t.image.setLabel (p.1 + p.2 * t.image.width) t.labelCount).label
      q.1 q.2 = if q = p then t.labelCount % 256 else t.image.label q.1 q.2 := fun q hq => by
    rw [label_setLabel (ht.picture.size hsize) (by rw [ht.picture.width, ht.picture.height]; exact hin p hp.1)
      (by rwa [ht.picture.width]), toNat_ofInt_mod]
  rw [hrun]
  refine ⟨⟨(samePicture_setLabel ..).trans ht.picture, fun q hqx hqy hq => ?_⟩, ?_, fun i hi => ?_⟩
  · have hne : q ≠ p := fun heq => hq (heq ▸ hp.1)
    rw [hread q hqx, if_neg hne, ht.dark q hqx hqy hq]
  · rw [ht.count, List.length_append, List.length_singleton, Nat.add_assoc]
  · rw [List.length_append, List.length_singleton] at hi
    by_cases hlt : i < seen.length
    · have hmem : seen[i] ∈ seen := List.getElem_mem hlt
      have hne : seen[i] ≠ p := fun heq => hnew (heq ▸ hmem)
      rw [List.getElem_append_left hlt, hread _ (hin _ (hseen _ hmem)).1, if_neg hne, ht.label i hlt]
    · obtain rfl : i = seen.length := by omega
      rw [List.getElem_append_right le_rfl]
      simp only [Nat.sub_self, List.getElem_singleton]
      rw [hread p (hin p hp.1).1, if_pos rfl, ht.count]

/-- **A sweep**, if all inner white pixels are alone. -/
theorem sweep_of_alone (hsize : image.imageData.length = image.width * image.height)
    (halone : ∀ p, InnerWhite image p → Alone image p) (hs : Dark image s) :
    Scanned image s (whites image) (sweep s) := by
  rw [sweep, forLoop_forLoop, hs.picture.width, hs.picture.height]
  refine foldl_scan (fun pre t => Scanned image s (pre.filter fun p => (image.px p).graylevel = 255) t)
    ⟨hs, rfl, fun i hi => absurd hi (Nat.not_lt_zero i)⟩ fun pre p post t hpre ht => ?_
  have hmem : ∀ q ∈ pre ++ p :: post, (1 ≤ q.1 ∧ q.1 < image.width - 1) ∧ 1 ≤ q.2 ∧ q.2 < image.height - 1 :=
    fun q hq => mem_raster.1 (hpre ▸ hq)
  rw [List.filter_append]
  by_cases hwhite : (image.px p).graylevel = 255
  · rw [List.filter_cons_of_pos (by simpa using hwhite)]
    refine labelPixel_of_alone hsize ht (halone p ⟨hmem p (by simp), hwhite⟩) (fun hseen => ?_) fun q hq => ?_
    · have hnodup := raster_nodup 1 (image.width - 1) 1 (image.height - 1)
      rw [hpre, List.nodup_append] at hnodup
      exact hnodup.2.2 p (List.mem_of_mem_filter hseen) p List.mem_cons_self rfl
    · rw [List.mem_filter, decide_eq_true_eq] at hq
      exact ⟨hmem q (List.mem_append_left _ hq.1), hq.2⟩
  · have hblack : ¬(t.image.px (p.1, p.2)).graylevel = 255 := by rwa [ht.picture.graylevel]
    rw [List.filter_cons_of_neg (by simpa using hwhite), List.filter_nil, List.append_nil, labelPixel, if_neg hblack]
    exact ht

/-- A label that is 0 stays 0. -/
theorem dark_relabel (hsize : image.imageData.length = image.width * image.height) (hs : Dark image s)
    (lookup : List Nat) : Dark image (relabel lookup s) ∧ ∀ p : Nat × Nat, p.1 < image.width → p.2 < image.height →
      s.image.label p.1 p.2 = 0 → (relabel lookup s).image.label p.1 p.2 = 0 := by
  have hsize' := hs.picture.size hsize
  have hzero : ∀ p : Nat × Nat, p.1 < image.width → p.2 < image.height → s.image.label p.1 p.2 = 0 →
      (relabel lookup s).image.label p.1 p.2 = 0 := fun p hx hy hp => by
    rw [relabel, label_replaceLabels _ hsize' (by rw [hs.picture.width, hs.picture.height]; exact ⟨hx, hy⟩), hp]
    rfl
  have hpicture := samePicture_replaceLabels (fun l => (lookup.getD l 0 : Int)) hsize'
  exact ⟨⟨hpicture.trans hs.picture, fun p hx hy hp => hzero p hx hy (hs.dark p hx hy hp)⟩, hzero⟩

/-- A pass, if all inner white pixels are alone: a label that is a multiple of 256 is stored as 0. -/
theorem pass_of_alone (hsize : image.imageData.length = image.width * image.height)
    (halone : ∀ p, InnerWhite image p → Alone image p) (hs : Dark image s) {fuel : Nat} (hrun : pass fuel s = some t) :
    Dark image t ∧ t.labelCount = s.labelCount + (whites image).length ∧
      ∀ i (h : i < (whites image).length), (s.labelCount + i) % 256 = 0 →
        t.image.label (whites image)[i].1 (whites image)[i].2 = 0 := by
  have hswept := sweep_of_alone hsize halone hs
  rw [pass, Option.map_eq_some_iff] at hrun
  obtain ⟨lookup, -, rfl⟩ := hrun
  obtain ⟨hdark, hzero⟩ := dark_relabel hsize hswept.toDark lookup
  refine ⟨hdark, hswept.count, fun i hi hmod => hzero _ ?_ ?_ ((hswept.label i hi).trans hmod)⟩
  all_goals
    have hin := (mem_whites.1 (List.getElem_mem hi)).1
    omega

/-- **With too many pixels that are alone** one of them stays without a label. -/
theorem label_of_alone (hsize : image.imageData.length = image.width * image.height)
    (halone : ∀ p, InnerWhite image p → Alone image p) {fuel : Nat} {n : Int} {out : Image}
    (hrun : label fuel image = some (n, out)) {i : Nat} (hi : i < (whites image).length)
    (hmod : (1 + (whites image).length + i) % 256 = 0) : out.label (whites image)[i].1 (whites image)[i].2 = 0 := by
  have hstart : Dark image (startLabels image) := by
    refine ⟨samePicture_startLabels hsize, fun p hx hy _ => ?_⟩
    rw [label_eq, labels_startLabels hsize, List.getD_eq_getElem?_getD, List.getElem?_replicate]
    split <;> rfl
  rw [label, passes, Option.map_eq_some_iff] at hrun
  obtain ⟨t, hpasses, heq⟩ := hrun
  obtain ⟨-, rfl⟩ := Prod.mk.inj heq
  rw [Option.bind_eq_some_iff] at hpasses
  obtain ⟨s, hfirst, hsecond⟩ := hpasses
  obtain ⟨hdark, hcount, -⟩ := pass_of_alone hsize halone hstart hfirst
  obtain ⟨hdark', -, hzero⟩ := pass_of_alone hsize halone hdark hsecond
  have hcount' : s.labelCount = 1 + (whites image).length := hcount
  have hin := (mem_whites.1 (List.getElem_mem hi)).1
  rw [label_replaceLabels _ (hdark'.picture.size hsize)
    (by rw [hdark'.picture.width, hdark'.picture.height]; omega), hzero i hi (by rw [hcount', hmod])]
  rfl

/-- So many labels are handed out then. -/
theorem provisional_of_alone (halone : ∀ p, InnerWhite image p → Alone image p) :
    provisional image = 2 * (whites image).length := by
  have hwhites : {p | InnerWhite image p}.ncard = (whites image).length := by
    rw [← List.toFinset_card_of_nodup (whites_nodup image), ← Set.ncard_coe_finset]
    congr 1
    exact Set.ext fun p => by simp [mem_whites]
  have hstarts : {p | Start image p} = {p | InnerWhite image p} :=
    Set.ext fun p => ⟨fun hp => hp.1, fun hp => ⟨hp, fun q hq hpq => absurd hpq ((halone p hp).2 q hq)⟩⟩
  have hisolated : {p | Alone image p} = {p | InnerWhite image p} := Set.ext fun p => ⟨fun hp => hp.1, halone p⟩
  rw [provisional, hstarts, hisolated, hwhites]
  omega

/-- More than 255 labels for pixels that are alone. -/
theorem not_separates_of_alone (hsize : image.imageData.length = image.width * image.height)
    (halone : ∀ p, InnerWhite image p → Alone image p) (hmany : 128 ≤ (whites image).length) {fuel : Nat} {n : Int}
    {out : Image} (hrun : label fuel image = some (n, out)) : ¬Separates image out := by
  -- the last multiple of 256 among the labels of the second sweep
  obtain ⟨i, hi, hmod⟩ : ∃ i < (whites image).length, (1 + (whites image).length + i) % 256 = 0 :=
    ⟨256 * (2 * (whites image).length / 256) - (1 + (whites image).length), by omega, by omega⟩
  exact fun hlaw => hlaw.labelled _ (mem_whites.1 (List.getElem_mem hi)) (label_of_alone hsize halone hrun hi hmod)

/-! ## The condition -/

/-- **When objects are told apart**: if at most 255 labels are handed out. Where all inner white pixels are alone,
exactly then. -/
theorem separates_iff (h : Valid image) {fuel : Nat} (hfuel : image.width * image.height < fuel) :
    (provisional image ≤ 255 → ∃ n out, label fuel image = some (n, out) ∧ Separates image out) ∧
      ((∀ p, InnerWhite image p → Alone image p) →
        ((∃ n out, label fuel image = some (n, out) ∧ Separates image out) ↔ provisional image ≤ 255)) := by
  refine ⟨fun hfew => separates_of_few h hfew hfuel, fun halone => ⟨?_, fun hfew => separates_of_few h hfew hfuel⟩⟩
  rintro ⟨n, out, hrun, hlaw⟩
  by_contra hmany
  rw [provisional_of_alone halone] at hmany
  exact not_separates_of_alone h.size halone (by omega) hrun hlaw

/-- The dot is labelled. -/
theorem separates_dot : ∃ n out, label 10 dot = some (n, out) ∧ Separates dot out := by
  have hmiddle : ∀ p, InnerWhite dot p → p = (1, 1) := by
    rintro p ⟨⟨⟨hx, hx'⟩, hy, hy'⟩, -⟩
    simp only [dot] at hx' hy'
    exact Prod.ext (show p.1 = 1 by omega) (show p.2 = 1 by omega)
  have halone : ∀ p, InnerWhite dot p → Alone dot p := fun p hp =>
    ⟨hp, fun q hq hpq => hpq.1 ((hmiddle p hp).trans (hmiddle q hq).symm)⟩
  have hwhites : whites dot = [(1, 1)] := by decide
  refine (separates_iff valid_dot (show 3 * 3 < 10 by simp)).1 ?_
  rw [provisional_of_alone halone, hwhites]
  simp

/-! ## A grid of dots -/

/-- 128 dots in 8 rows. -/
def dots : Image where
  width := 33
  height := 17
  imageData := (List.range 561).map fun k => ⟨0, 0, 0, 0, if k % 33 % 2 = 1 ∧ k / 33 % 2 = 1 then 255 else 0, 0⟩

theorem graylevel_dots {p : Nat × Nat} (hx : p.1 < 33) (hy : p.2 < 17) :
    (dots.px p).graylevel = if p.1 % 2 = 1 ∧ p.2 % 2 = 1 then 255 else 0 := by
  have hcolumn : (p.1 + p.2 * 33) % 33 = p.1 := by omega
  have hrow : (p.1 + p.2 * 33) / 33 = p.2 := by omega
  have hlt : p.1 + p.2 * 33 < 561 := by omega
  simp [Image.px, dots, hlt, hcolumn, hrow]

theorem odd_of_innerWhite {p : Nat × Nat} (hp : InnerWhite dots p) : p.1 % 2 = 1 ∧ p.2 % 2 = 1 := by
  obtain ⟨⟨⟨-, hx⟩, -, hy⟩, hwhite⟩ := hp
  simp only [dots] at hx hy
  rw [graylevel_dots (by omega) (by omega)] at hwhite
  by_contra hodd
  rw [if_neg hodd] at hwhite
  exact absurd hwhite (by decide)

theorem alone_dots {p : Nat × Nat} (hp : InnerWhite dots p) : Alone dots p := by
  refine ⟨hp, fun q hq hpq => ?_⟩
  have hpodd := odd_of_innerWhite hp
  have hqodd := odd_of_innerWhite hq
  obtain ⟨hne, ⟨hx, hx'⟩, hy, hy'⟩ := hpq
  exact hne (Prod.ext (by omega) (by omega))

/-- The places with two odd coordinates: 16 in each of 8 rows. -/
theorem length_whites_dots : 128 ≤ (whites dots).length := by
  have hnodup : ((List.range 128).map fun k => (2 * (k % 16) + 1, 2 * (k / 16) + 1)).Nodup := by
    refine List.nodup_range.map fun k l hkl => ?_
    obtain ⟨hx, hy⟩ := Prod.mk.inj hkl
    omega
  have hsub : (List.range 128).map (fun k => (2 * (k % 16) + 1, 2 * (k / 16) + 1)) ⊆ whites dots := by
    intro p hp
    obtain ⟨k, hk, rfl⟩ := List.mem_map.1 hp
    have hlt := List.mem_range.1 hk
    refine mem_whites.2 ⟨⟨⟨by omega, show _ < 32 by omega⟩, by omega, show _ < 16 by omega⟩, ?_⟩
    rw [graylevel_dots (by omega) (by omega), if_pos ⟨by omega, by omega⟩]
  simpa using (hnodup.subperm hsub).length_le

theorem valid_dots : Valid dots := ⟨by simp [dots], by simp [dots], by simp [dots]⟩

/-- With 128 dots there is one that has no label. -/
theorem not_separates_dots : Valid dots ∧ ∃ n out, label 563 dots = some (n, out) ∧ ¬Separates dots out := by
  obtain ⟨n, out, hrun⟩ := label_total dots (show 33 * 17 + 1 < 563 by simp)
  exact ⟨valid_dots, n, out, hrun,
    not_separates_of_alone valid_dots.size (fun _ => alone_dots) length_whites_dots hrun⟩

end LeftFelt.Legacy
