import LeftFelt.Image.Binary
import LeftFelt.Image.Labeling
import LeftFelt.Lib.Checked
import LeftFelt.Lib.TwoSweeps
import Mathlib.Data.Nat.Count

/-!
# The tables of the labelling

The tables of `Labeling` hold the labelling that two sweeps over the inner white pixels make (`Holds`): one visit
(`labelPixel_holds`), one sweep (`sweep_holds`), the loop over `Lookup_table` (`updateAll_eq`), one pass
(`pass_holds`) and both (`passes_holds`). `Lookup_update` comes to an end, since links lead downwards, and the tables
are large enough for all labels (`room`).

`labeling_spec` says what the image shows afterwards: every inner white pixel has the number of its label among the
labels in use.
-/

namespace LeftFelt.ImageUtil

open Lib BiImage
open Lib.Checked (foldlM_eq_some)

/-! ## The scan -/

/-- A white pixel that is not at the border. -/
def InnerWhite (image : BiImage) (p : Nat × Nat) : Prop :=
  ((1 ≤ p.1 ∧ p.1 < image.width - 1) ∧ 1 ≤ p.2 ∧ p.2 < image.height - 1) ∧ (image.get p.1 p.2).lightness = 255

instance (image : BiImage) (p : Nat × Nat) : Decidable (InnerWhite image p) := inferInstanceAs (Decidable (_ ∧ _))

/-- The inner white pixels, in the order of the scan. -/
def innerWhite (image : BiImage) : List (Nat × Nat) :=
  (raster 1 (image.width - 1) 1 (image.height - 1)).filter fun p => (image.get p.1 p.2).lightness = 255

/-- The eight neighbours, in the order of `min_data`. -/
def neighbours (p : Nat × Nat) : List (Nat × Nat) :=
  ((List.range 9).filter fun i => ¬(i % 3 = 1 ∧ i / 3 = 1)).map fun i => (p.1 + i % 3 - 1, p.2 + i / 3 - 1)

/-- The index of a coordinate. -/
def index (image : BiImage) (p : Nat × Nat) : Nat := p.1 + p.2 * image.width

variable {image : BiImage}

theorem mem_innerWhite {p : Nat × Nat} : p ∈ innerWhite image ↔ InnerWhite image p := by
  rw [innerWhite, List.mem_filter, mem_raster, decide_eq_true_eq, InnerWhite]

theorem InnerWhite.inside {p : Nat × Nat} (hp : InnerWhite image p) : image.Inside p := by
  obtain ⟨⟨hx, hy⟩, -⟩ := hp
  exact ⟨by omega, by omega⟩

/-- Off the border the neighbours are the adjacent coordinates. -/
theorem mem_neighbours {p q : Nat × Nat} (hx : 1 ≤ p.1) (hy : 1 ≤ p.2) : q ∈ neighbours p ↔ Adjacent p q := by
  obtain ⟨px, py⟩ := p
  obtain ⟨qx, qy⟩ := q
  simp only at hx hy
  simp only [neighbours, List.mem_map, List.mem_filter, List.mem_range, decide_eq_true_eq, Adjacent, Within,
    Prod.mk.injEq, ne_eq]
  constructor
  · rintro ⟨i, ⟨hi, hcentre⟩, rfl, rfl⟩
    omega
  · intro hadj
    exact ⟨qx + 1 - px + 3 * (qy + 1 - py), by omega, by omega, by omega⟩

theorem scan_innerWhite (image : BiImage) : Scan neighbours (index image) (innerWhite image) := by
  have hraster : ∀ p ∈ innerWhite image, (1 ≤ p.1 ∧ p.1 < image.width - 1) ∧ 1 ≤ p.2 := fun p hp =>
    ⟨(mem_innerWhite.1 hp).1.1, (mem_innerWhite.1 hp).1.2.1⟩
  refine ⟨?_, fun p hp hself => ?_, fun p hp q hq hpq => ?_⟩
  · have hsorted : (innerWhite image).Pairwise RasterLt := (raster_pairwise _ _ _ _).filter _
    refine hsorted.imp_of_mem fun {p q} hp hq hlt => ?_
    have hx := (hraster p hp).1
    rcases hlt with hrow | ⟨hrow, hcol⟩
    · have hmul := Nat.mul_le_mul_right image.width (Nat.succ_le_of_lt hrow)
      rw [Nat.succ_mul] at hmul
      unfold index
      omega
    · unfold index
      rw [hrow]
      omega
  · have hp' := hraster p hp
    exact ((mem_neighbours hp'.1.1 hp'.2).1 hself).1 rfl
  · have hp' := hraster p hp
    have hq' := hraster q hq
    rw [mem_neighbours hp'.1.1 hp'.2] at hpq
    exact (mem_neighbours hq'.1.1 hq'.2).2 hpq.symm

/-! ## One pixel -/

/-- The tables hold a labelling. -/
structure Holds (image : BiImage) (s : Labeler) (t : Labelling (Nat × Nat)) : Prop where
  count : s.labelCount = t.next
  labels_length : s.labelList.length = image.width * image.height
  lookup_length : s.lookup.length = image.width * image.height
  label : ∀ p, image.Inside p → s.labelList.getD (index image p) 0 = t.label p
  link : ∀ k, k < t.next ∨ k < image.width * image.height → s.lookup.getD k 0 = t.link k

/-- The table leads to labels that are not larger. -/
theorem Holds.lookup_le {s : Labeler} {t : Labelling (Nat × Nat)} (hs : Holds image s t) (hle : ∀ k, t.link k ≤ k)
    (k : Nat) : s.lookup.getD k 0 ≤ k := by
  by_cases hk : k < image.width * image.height
  · rw [hs.link k (Or.inr hk)]
    exact hle k
  · have hlength := hs.lookup_length
    rw [List.getD_eq_getElem?_getD, List.getElem?_eq_none (by omega)]
    exact Nat.zero_le k

theorem minData_eq {s : Labeler} {t : Labelling (Nat × Nat)} (hs : Holds image s t) {p : Nat × Nat}
    (hp : InnerWhite image p) : minData image.width s.labelList p.1 p.2 = (neighbours p).map t.label := by
  have hinner := hp.1
  rw [neighbours, List.map_map]
  refine List.map_congr_left fun i hi => ?_
  have hi9 := List.mem_range.1 (List.mem_of_mem_filter hi)
  exact hs.label (p.1 + i % 3 - 1, p.2 + i / 3 - 1) ⟨by show _ - 1 < _; omega, by show _ - 1 < _; omega⟩

/-- `flag_count` is 8 when no label is seen. -/
theorem flagCount_eq (label : Nat × Nat → Nat) (p : Nat × Nat) :
    (((neighbours p).map label).filter (· = 0)).length = 8 ↔ ((neighbours p).map label).filter (· ≠ 0) = [] := by
  have hlen : ((neighbours p).map label).length = 8 := by
    rw [List.length_map, neighbours, List.length_map]
    rfl
  rw [← hlen, List.length_filter_eq_length_iff, List.filter_eq_nil_iff]
  simp

theorem cap_pos : 0 < 0xFFFF := by decide

/-- A loop that keeps the smallest number but 0. -/
theorem foldl_smallest (cap : Nat) (data : List Nat) :
    data.foldl (fun min v => if v ≠ 0 then if min > v then v else min else min) cap =
      (data.filter (· ≠ 0)).foldr min cap := by
  have hmin : ∀ (ls : List Nat) (a v : Nat), ls.foldr min (min a v) = min v (ls.foldr min a) := by
    intro ls a v
    induction ls with
    | nil => exact Nat.min_comm a v
    | cons b ls ih => rw [List.foldr_cons, List.foldr_cons, ih, Nat.min_left_comm]
  induction data generalizing cap with
  | nil => rfl
  | cons v data ih =>
    rw [List.foldl_cons, ih]
    by_cases hv : v = 0
    · simp [hv]
    · have hstep : (if cap > v then v else cap) = min cap v := by
        split <;> omega
      rw [if_pos hv, hstep, hmin, List.filter_cons_of_pos (by simpa using hv), List.foldr_cons]

/-- `min_calc` takes the smallest label seen, at most 0xFFFF. -/
theorem minCalc_eq (data : List Nat) : minCalc data = (data.filter (· ≠ 0)).foldr min 0xFFFF :=
  foldl_smallest 0xFFFF data

/-- One label that is met is linked to the smaller of its link and `m`. -/
theorem getD_linkLabel {lookup : List Nat} {m l : Nat} (hl : l < lookup.length) (hle : lookup.getD l 0 ≤ l) (k : Nat) :
    (linkLabel m lookup l).getD k 0 = if k = l ∧ l ≠ 0 then min (lookup.getD l 0) m else lookup.getD k 0 := by
  unfold linkLabel
  by_cases hmeet : l ≠ m ∧ l ≠ 0
  · rw [if_pos hmeet]
    by_cases hge : lookup.getD l 0 ≥ m
    · rw [if_pos hge, Nat.min_eq_right hge]
      by_cases hk : k = l
      · subst hk
        rw [if_pos ⟨rfl, hmeet.2⟩, List.getD_eq_getElem?_getD, List.getElem?_set_self hl]
        rfl
      · rw [if_neg fun h => hk h.1, List.getD_eq_getElem?_getD, List.getElem?_set_ne (Ne.symm hk),
          List.getD_eq_getElem?_getD]
    · rw [if_neg hge, Nat.min_eq_left (Nat.le_of_not_le hge)]
      split
      · rename_i hk
        rw [hk.1]
      · rfl
  · rw [if_neg hmeet]
    split
    · rename_i hk
      have hlm : l = m := by
        by_contra hne
        exact hmeet ⟨hne, hk.2⟩
      rw [hk.1, Nat.min_eq_left (hlm ▸ hle)]
    · rfl

/-- **The links after the loop over `j`.** -/
theorem linkLabels_eq {link : Nat → Nat} (hle : ∀ k, link k ≤ k) {data lookup : List Nat} {size n : Nat}
    (hlength : lookup.length = size) (hdata : ∀ k ∈ data, k < size) (m : Nat)
    (hlookup : ∀ k, k < n ∨ k < size → lookup.getD k 0 = link k) :
    (linkLabels m data lookup).length = size ∧ ∀ k, k < n ∨ k < size → (linkLabels m data lookup).getD k 0 =
      if k ∈ data.filter (· ≠ 0) then min (link k) m else link k := by
  refine foldl_scan (f := linkLabel m) (fun pre lookup => lookup.length = size ∧
    ∀ k, k < n ∨ k < size → lookup.getD k 0 = if k ∈ pre.filter (· ≠ 0) then min (link k) m else link k)
    ⟨hlength, by simpa using hlookup⟩ ?_
  rintro pre l post lookup' hpre ⟨hlen, hget⟩
  have hl : l < size := hdata l (by simp [hpre])
  have hcur := hget l (Or.inr hl)
  have hcur_le : lookup'.getD l 0 ≤ l := by
    rw [hcur]
    split
    · exact (Nat.min_le_left _ _).trans (hle l)
    · exact hle l
  refine ⟨?_, fun k hk => ?_⟩
  · unfold linkLabel
    split
    · split
      · rw [List.length_set, hlen]
      · exact hlen
    · exact hlen
  · rw [getD_linkLabel (hlen ▸ hl) hcur_le, hget k hk]
    by_cases hkl : k = l
    · subst hkl
      rw [hcur]
      by_cases hk0 : k = 0
      · simp [hk0]
      · by_cases hmem : k ∈ pre <;> simp [hk0, hmem]
    · simp [hkl]

/-- **A visit**: the body of the loops over the pixels does to the tables what `visit` does to the labelling. -/
theorem labelPixel_holds {s : Labeler} {t : Labelling (Nat × Nat)} (hs : Holds image s t) (ht : Bounded t)
    {p : Nat × Nat} (hp : InnerWhite image p)
    (hroom : (visit neighbours 0xFFFF t p).next ≤ max (image.width * image.height) 1) (hnext : 0 < t.next) :
    Holds image (labelPixel image p.1 p.2 s) (visit neighbours 0xFFFF t p) := by
  have hdata := minData_eq hs hp
  have hseen : ((neighbours p).map t.label).filter (· ≠ 0) = seen neighbours t p := rfl
  have hin := hp.inside
  have hindex : index image p < image.width * image.height := index_lt hin.1 hin.2
  -- writing the label of `p`
  have hset : ∀ v q, image.Inside q →
      (s.labelList.set (index image p) v).getD (index image q) 0 = Function.update t.label p v q := by
    intro v q hq
    rw [index, index, getD_set hs.labels_length.ge hin hq.1, Function.update_apply]
    split
    · rfl
    · exact hs.label q hq
  rw [labelPixel, if_pos hp.2, hdata]
  by_cases hnil : seen neighbours t p = []
  · have hflag := (flagCount_eq t.label p).2 (hseen.trans hnil)
    rw [visit_of_seen_eq_nil hnil] at hroom ⊢
    simp only [hflag, if_true]
    refine ⟨by rw [hs.count], by rw [List.length_set, hs.labels_length], hs.lookup_length, fun q hq => ?_,
      fun k hk => ?_⟩
    · rw [hs.count]
      exact hset t.next q hq
    · refine hs.link k ?_
      simp only at hroom hk
      omega
  · have hflag : ¬(((neighbours p).map t.label).filter (· = 0)).length = 8 := fun h =>
      hnil (hseen.symm.trans ((flagCount_eq t.label p).1 h))
    have hmin : minCalc ((neighbours p).map t.label) = (seen neighbours t p).foldr min 0xFFFF := by
      rw [minCalc_eq, hseen]
    have hroom' : t.next ≤ image.width * image.height := by
      rw [visit_of_seen_ne_nil hnil] at hroom
      simp only at hroom
      omega
    have hlow : ∀ k ∈ (neighbours p).map t.label, k < image.width * image.height := by
      intro k hk
      obtain ⟨q, -, rfl⟩ := List.mem_map.1 hk
      exact (ht.label_lt q).trans_le hroom'
    obtain ⟨hlen, hlinks⟩ :=
      linkLabels_eq ht.link_le hs.lookup_length hlow ((seen neighbours t p).foldr min 0xFFFF) hs.link
    rw [visit_of_seen_ne_nil hnil]
    simp only [hflag, if_false, hmin]
    exact ⟨hs.count, by rw [List.length_set, hs.labels_length], hlen, hset _, hlinks⟩

/-! ## One pass -/

/-- The visits to the white pixels of a list. -/
def visitWhite (image : BiImage) (t : Labelling (Nat × Nat)) (l : List (Nat × Nat)) : Labelling (Nat × Nat) :=
  (l.filter fun p => (image.get p.1 p.2).lightness = 255).foldl (visit neighbours 0xFFFF) t

/-- The sweep over a labelling. -/
def swept (image : BiImage) (t : Labelling (Nat × Nat)) : Labelling (Nat × Nat) :=
  (innerWhite image).foldl (visit neighbours 0xFFFF) t

theorem swept_eq (image : BiImage) (t : Labelling (Nat × Nat)) :
    swept image t = visitWhite image t (raster 1 (image.width - 1) 1 (image.height - 1)) := rfl

theorem visitWhite_append (t : Labelling (Nat × Nat)) (l l' : List (Nat × Nat)) :
    visitWhite image t (l ++ l') = visitWhite image (visitWhite image t l) l' := by
  rw [visitWhite, List.filter_append, List.foldl_append]
  rfl

theorem visitWhite_singleton (t : Labelling (Nat × Nat)) (p : Nat × Nat) : visitWhite image t [p] =
    if (image.get p.1 p.2).lightness = 255 then visit neighbours 0xFFFF t p else t := by
  by_cases hwhite : (image.get p.1 p.2).lightness = 255
  · rw [if_pos hwhite, visitWhite, List.filter_cons_of_pos (by simpa using hwhite)]
    rfl
  · rw [if_neg hwhite, visitWhite, List.filter_cons_of_neg (by simpa using hwhite)]
    rfl

/-- The visit to the next pixel of the scan. -/
theorem sweep_step {s : Labeler} {t : Labelling (Nat × Nat)} (ht : Bounded t) (hnext : 0 < t.next)
    (hroom : (swept image t).next ≤ max (image.width * image.height) 1) {pre post : List (Nat × Nat)} {p : Nat × Nat}
    (hpre : raster 1 (image.width - 1) 1 (image.height - 1) = pre ++ p :: post)
    (hs : Holds image s (visitWhite image t pre)) :
    Holds image (labelPixel image p.1 p.2 s) (visitWhite image t (pre ++ [p])) := by
  rw [visitWhite_append, visitWhite_singleton]
  by_cases hwhite : (image.get p.1 p.2).lightness = 255
  · have hp : InnerWhite image p := by
      refine ⟨?_, hwhite⟩
      rw [← mem_raster, hpre]
      simp
    rw [swept_eq, hpre, visitWhite_append, ← List.singleton_append, visitWhite_append, visitWhite_singleton,
      if_pos hwhite] at hroom
    rw [if_pos hwhite]
    refine labelPixel_holds hs (ht.foldl _) hp ?_ (hnext.trans_le (le_next_foldl _ _))
    exact (le_next_foldl _ _).trans hroom
  · have hskip : labelPixel image p.1 p.2 s = s := if_neg hwhite
    rw [if_neg hwhite, hskip]
    exact hs

/-- **A sweep**: the loops over the pixels do to the tables what the sweep does to the labelling. -/
theorem sweep_holds {s : Labeler} {t : Labelling (Nat × Nat)} (hs : Holds image s t) (ht : Bounded t)
    (hnext : 0 < t.next)
    (hroom : (swept image t).next ≤ max (image.width * image.height) 1) :
    Holds image (sweep image s) (swept image t) := by
  rw [sweep, forLoop_forLoop, swept_eq]
  exact foldl_scan (fun pre s' => Holds image s' (visitWhite image t pre)) hs fun _ _ _ _ hpre hs' =>
    sweep_step ht hnext hroom hpre hs'

/-- `Lookup_update` follows the links to their end. -/
theorem lookupUpdate_eq {link : Nat → Nat} (hle : ∀ k, link k ≤ k) {label : List Nat} (fuel : Nat) {i : Nat}
    (hfuel : i < fuel) (hlabel : ∀ k ≤ i, label.getD k 0 = link k) :
    lookupUpdate fuel i label = some (root link i) := by
  induction fuel generalizing i with
  | zero => omega
  | succ fuel ih =>
    rw [lookupUpdate, hlabel i (Nat.le_refl i)]
    by_cases hfix : i = link i
    · rw [if_pos hfix, root_eq_self hfix.symm, ← hfix]
    · have hlt : link i < i := by
        have := hle i
        omega
      rw [if_neg hfix, ih (by omega) fun k hk => hlabel k (by omega), root_link hle]

/-- One entry is replaced by the end of its links, when the entries before it have been. -/
theorem updateEntry_eq {link : Nat → Nat} (hle : ∀ k, link k ≤ k) {fuel h : Nat} (hfuel : h < fuel) {lookup : List Nat}
    (hlength : h < lookup.length ∨ h = 0)
    (hlookup : ∀ k ≤ h, lookup.getD k 0 = if k < h then root link k else link k) :
    ∃ lookup', updateEntry fuel lookup h = some lookup' ∧ lookup'.length = lookup.length ∧
      lookup'.getD h 0 = root link h ∧ ∀ k, k ≠ h → lookup'.getD k 0 = lookup.getD k 0 := by
  have hself := hlookup h (Nat.le_refl h)
  rw [if_neg (Nat.lt_irrefl h)] at hself
  unfold updateEntry
  by_cases hfix : h = lookup.getD h 0
  · have hlink : link h = h := by omega
    rw [if_neg fun hne => hne hfix]
    exact ⟨lookup, rfl, rfl, by rw [root_eq_self hlink, hself, hlink], fun _ _ => rfl⟩
  · -- the table as it stands, entries before `h` replaced, is itself a table of links with the same ends
    have hpartial : ∀ k, (if k < h then root link k else link k) ≤ k := fun k => by
      split
      · exact root_le hle k
      · exact hle k
    have hend : root (fun k => if k < h then root link k else link k) h = root link h := by
      have hlt : link h < h := by
        have := hle h
        omega
      rw [← root_link hpartial]
      simp only [Nat.lt_irrefl, if_false]
      rw [← root_link hpartial]
      simp only [hlt, if_true, root_link hle]
      refine root_eq_self ?_
      have hroot : root link h < h := (root_le_link hle).trans_lt hlt
      rw [if_pos hroot]
      exact root_eq_self (link_root hle h)
    have hlength' : h < lookup.length := by
      refine hlength.resolve_right fun h0 => hfix ?_
      have := hle h
      omega
    rw [if_pos hfix, lookupUpdate_eq hpartial fuel hfuel hlookup, hend]
    refine ⟨_, rfl, List.length_set, ?_, fun k hk => ?_⟩
    · rw [List.getD_eq_getElem?_getD, List.getElem?_set_self hlength']
      rfl
    · rw [List.getD_eq_getElem?_getD, List.getElem?_set_ne (Ne.symm hk), List.getD_eq_getElem?_getD]

/-- **The links after the loop over the table**: all lead to their ends at once. -/
theorem updateAll_eq {s : Labeler} {t : Labelling (Nat × Nat)} (hs : Holds image s t) (hle : ∀ k, t.link k ≤ k)
    (hnext : ∀ k, t.next ≤ k → t.link k = k) (hroom : t.next ≤ max (image.width * image.height) 1) {fuel : Nat}
    (hfuel : t.next ≤ fuel) :
    ∃ lookup, updateAll fuel s = some lookup ∧ lookup.length = image.width * image.height ∧
      ∀ k, k < t.next ∨ k < image.width * image.height → lookup.getD k 0 = root t.link k := by
  have hstep : ∀ pre h post (lookup : List Nat), List.range s.labelCount = pre ++ h :: post →
      (lookup.length = image.width * image.height ∧ ∀ k, k < t.next ∨ k < image.width * image.height →
        lookup.getD k 0 = if k < pre.length then root t.link k else t.link k) →
      ∃ lookup', updateEntry fuel lookup h = some lookup' ∧ lookup'.length = image.width * image.height ∧
        ∀ k, k < t.next ∨ k < image.width * image.height →
          lookup'.getD k 0 = if k < (pre ++ [h]).length then root t.link k else t.link k := by
    intro pre h post lookup hpre hlookup
    obtain ⟨hlen, hget⟩ := hlookup
    obtain ⟨rfl, hlt⟩ := range_split hpre
    rw [hs.count] at hlt
    obtain ⟨lookup', hrun, hlen', hself, hother⟩ := updateEntry_eq hle (hlt.trans_le hfuel)
      (by omega) fun k hk => hget k (Or.inl (by omega))
    refine ⟨lookup', hrun, hlen'.trans hlen, fun k hk => ?_⟩
    rw [List.length_append, List.length_singleton]
    by_cases hkh : k = pre.length
    · rw [hkh, hself, if_pos (Nat.lt_succ_self _)]
    · rw [hother k hkh, hget k hk]
      by_cases hlow : k < pre.length
      · rw [if_pos hlow, if_pos (by omega)]
      · rw [if_neg hlow, if_neg (by omega)]
  obtain ⟨lookup, hrun, hlen, hget⟩ := foldlM_eq_some (fun pre (lookup : List Nat) =>
    lookup.length = image.width * image.height ∧ ∀ k, k < t.next ∨ k < image.width * image.height →
      lookup.getD k 0 = if k < pre.length then root t.link k else t.link k)
    ⟨hs.lookup_length, fun k hk => by simpa using hs.link k hk⟩ hstep
  refine ⟨lookup, hrun, hlen, fun k hk => ?_⟩
  rw [hget k hk, List.length_range, hs.count]
  split
  · rfl
  · rw [root_eq_self (hnext k (by omega)), hnext k (by omega)]

/-- **A pass** does to the tables what a sweep and the resolution of the links do to the labelling. -/
theorem pass_holds {s : Labeler} {t : Labelling (Nat × Nat)} (hs : Holds image s t) (ht : Base (innerWhite image) t)
    {fuel : Nat} (hfuel : image.width * image.height < fuel)
    (hroom : (swept image t).next ≤ max (image.width * image.height) 1) :
    ∃ s', pass fuel image s = some s' ∧ Holds image s' (resolve (swept image t)) := by
  have hswept : Swept neighbours 0xFFFF (index image) t (innerWhite image) (swept image t) :=
    swept_foldl (scan_innerWhite image) t
  have hsweep := sweep_holds hs ht.bounded ht.next_pos hroom
  have hle := hswept.link_le_self ht
  obtain ⟨lookup, hrun, hlen, hget⟩ := updateAll_eq hsweep hle (fun k hk => hswept.link_next ht hk) hroom
    (show (swept image t).next ≤ fuel by omega)
  refine ⟨relabel lookup (sweep image s), by rw [pass, hrun]; rfl, hsweep.count, ?_, hlen, fun p hp => ?_, hget⟩
  · rw [relabel, List.length_map, hsweep.labels_length]
  · have hlabel := hsweep.label p hp
    have hin : index image p < (sweep image s).labelList.length := by
      rw [hsweep.labels_length]
      exact index_lt hp.1 hp.2
    simp only [relabel, List.getD_eq_getElem?_getD, List.getElem?_map, List.getElem?_eq_getElem hin, Option.map_some,
      Option.getD_some] at hlabel ⊢
    rw [hlabel]
    show _ = root (swept image t).link ((swept image t).label p)
    split
    · rw [← List.getD_eq_getElem?_getD]
      exact hget _ (Or.inl (hswept.label_lt ht p))
    · rename_i hzero
      have hzero' : (swept image t).label p = 0 := by omega
      rw [hzero']
      exact (Nat.le_zero.1 (root_le hle 0)).symm

/-! ## Both passes -/

/-- The labelling after the first sweep. -/
def firstSwept (image : BiImage) : Labelling (Nat × Nat) := swept image unlabelled

/-- The labelling after the second sweep. -/
def secondSwept (image : BiImage) : Labelling (Nat × Nat) := swept image (resolve (firstSwept image))

/-- The inner white pixels with no inner white neighbour before them in the scan. -/
def starts (image : BiImage) : Set (Nat × Nat) := {p | Start neighbours (index image) (innerWhite image) p}

/-- The inner white pixels with no inner white neighbour. -/
def isolated (image : BiImage) : Set (Nat × Nat) := {p | Isolated neighbours (innerWhite image) p}

theorem swept_first (image : BiImage) :
    Swept neighbours 0xFFFF (index image) unlabelled (innerWhite image) (firstSwept image) :=
  swept_foldl (scan_innerWhite image) _

theorem swept_second (image : BiImage) :
    Swept neighbours 0xFFFF (index image) (resolve (firstSwept image)) (innerWhite image) (secondSwept image) :=
  swept_foldl (scan_innerWhite image) _

theorem base_first (image : BiImage) : Base (innerWhite image) (resolve (firstSwept image)) :=
  (swept_first image).base_resolve (base_unlabelled _) cap_pos

theorem base_second (image : BiImage) : Base (innerWhite image) (resolve (secondSwept image)) :=
  (swept_second image).base_resolve (base_first image) cap_pos

/-- **The labels handed out**: one to every start, and one more to every isolated pixel. -/
theorem next_secondSwept (image : BiImage) :
    (secondSwept image).next = 1 + (starts image).ncard + (isolated image).ncard := by
  have hstarts : starts image = {p | p ∈ innerWhite image ∧
      Fresh neighbours (index image) unlabelled (firstSwept image) p} :=
    Set.ext fun p => start_iff_fresh (scan_innerWhite image) (swept_first image) cap_pos
  have hisolated : isolated image = {p | p ∈ innerWhite image ∧
      Fresh neighbours (index image) (resolve (firstSwept image)) (secondSwept image) p} :=
    Set.ext fun p => isolated_iff_fresh (swept_first image) (swept_second image) cap_pos
  rw [(swept_second image).next_eq (scan_innerWhite image), ← hisolated]
  show (firstSwept image).next + _ = _
  rw [(swept_first image).next_eq (scan_innerWhite image), ← hstarts]
  rfl

/-- No two starts stand side by side, so that there are few. -/
theorem ncard_starts_le (image : BiImage) : 2 * (starts image).ncard ≤ (image.width - 1) * (image.height - 1 - 1) := by
  have hinner : ∀ p ∈ starts image, InnerWhite image p := fun p hp => mem_innerWhite.1 hp.1
  have hright : Function.Injective fun p : Nat × Nat => (p.1 + 1, p.2) := by
    rintro ⟨a, b⟩ ⟨c, d⟩ h
    simpa using h
  have hdisjoint : Disjoint (starts image) ((fun p : Nat × Nat => (p.1 + 1, p.2)) '' starts image) := by
    rw [Set.disjoint_left]
    rintro _ hq ⟨p, hp, rfl⟩
    have hmem : p ∈ neighbours (p.1 + 1, p.2) := by
      refine (mem_neighbours (p := (p.1 + 1, p.2)) (Nat.succ_pos _) (hinner p hp).1.2.1).2 ⟨fun h => ?_, ?_⟩
      · exact absurd (congrArg Prod.fst h) (Nat.succ_ne_self p.1)
      · unfold Within
        omega
    have hlt : p.1 + 1 + p.2 * image.width < p.1 + p.2 * image.width := hq.2 p hmem hp.1
    omega
  have hsubset : starts image ∪ (fun p : Nat × Nat => (p.1 + 1, p.2)) '' starts image ⊆
      ↑(Finset.Ico 1 image.width ×ˢ Finset.Ico 1 (image.height - 1)) := by
    rintro q (hq | ⟨p, hp, rfl⟩)
    · have hin := (hinner q hq).1
      simp only [Finset.coe_product, Finset.coe_Ico, Set.mem_prod, Set.mem_Ico]
      omega
    · have hin := (hinner p hp).1
      simp only [Finset.coe_product, Finset.coe_Ico, Set.mem_prod, Set.mem_Ico]
      omega
  have hfinite := (Finset.finite_toSet (Finset.Ico 1 image.width ×ˢ Finset.Ico 1 (image.height - 1))).subset hsubset
  have hcard := Set.ncard_le_ncard hsubset (Finset.finite_toSet _)
  rw [Set.ncard_union_eq hdisjoint (hfinite.subset Set.subset_union_left) (hfinite.subset Set.subset_union_right),
    Set.ncard_image_of_injective _ hright, Set.ncard_coe_finset, Finset.card_product, Nat.card_Ico,
    Nat.card_Ico] at hcard
  omega

/-- No two starts are adjacent, and isolated pixels are starts. -/
theorem handed_le (image : BiImage) :
    (starts image).ncard + (isolated image).ncard ≤ (image.width - 1) * (image.height - 1 - 1) := by
  have hisolated : (isolated image).ncard ≤ (starts image).ncard := by
    refine Set.ncard_le_ncard (fun p hp => ⟨hp.1, fun q hq hmem => absurd hmem (hp.2 q hq)⟩) ?_
    exact (List.finite_toSet (innerWhite image)).subset fun p hp => hp.1
  have hstarts := ncard_starts_le image
  omega

/-- **The tables are large enough** for all labels, and have an entry to spare unless the image has one pixel only. -/
theorem room_of_pos (hw : 1 ≤ image.width) (hh : 1 ≤ image.height) :
    (secondSwept image).next ≤ image.width * image.height ∧
      (1 < image.width * image.height → (secondSwept image).next < image.width * image.height) := by
  have hhanded := handed_le image
  obtain ⟨w, hw'⟩ : ∃ w, image.width = w + 1 := ⟨image.width - 1, by omega⟩
  obtain ⟨h, hh'⟩ : ∃ h, image.height = h + 1 := ⟨image.height - 1, by omega⟩
  have hle := Nat.mul_le_mul_left w (show h - 1 ≤ h + 1 by omega)
  have hzero : h = 0 → w * (h - 1) = 0 := by
    rintro rfl
    rfl
  rw [hw', hh', Nat.add_sub_cancel, Nat.add_sub_cancel] at hhanded
  rw [next_secondSwept, hw', hh', Nat.succ_mul w]
  omega

theorem room (image : BiImage) : (secondSwept image).next ≤ max (image.width * image.height) 1 := by
  have hhanded := handed_le image
  rcases Nat.eq_zero_or_pos image.width with hw | hw
  · rw [hw, Nat.zero_sub, Nat.zero_mul] at hhanded
    rw [next_secondSwept]
    omega
  rcases Nat.eq_zero_or_pos image.height with hh | hh
  · rw [hh, Nat.zero_sub, Nat.mul_zero] at hhanded
    rw [next_secondSwept]
    omega
  · exact (room_of_pos hw hh).1.trans (Nat.le_max_left _ 1)

theorem startLabels_holds (image : BiImage) : Holds image (startLabels (image.width * image.height)) unlabelled := by
  refine ⟨rfl, List.length_replicate, List.length_range, fun p hp => ?_, fun k hk => ?_⟩
  · show (List.replicate _ 0).getD _ 0 = 0
    rw [List.getD_eq_getElem?_getD, List.getElem?_replicate]
    split <;> rfl
  · show (List.range _).getD k 0 = k
    rw [List.getD_eq_getElem?_getD]
    by_cases hlt : k < image.width * image.height
    · rw [List.getElem?_range hlt]
      rfl
    · rw [List.getElem?_eq_none (by rw [List.length_range]; omega)]
      have hk' : k < 1 := hk.resolve_right hlt
      show 0 = k
      omega

/-- **Both passes** end, and the tables hold the labelling after two sweeps. -/
theorem passes_holds (image : BiImage) {fuel : Nat} (hfuel : image.width * image.height < fuel) :
    ∃ s, passes fuel image = some s ∧ Holds image s (resolve (secondSwept image)) := by
  have hroom := room image
  obtain ⟨s₁, hrun₁, hs₁⟩ := pass_holds (startLabels_holds image) (base_unlabelled _) hfuel
    (le_trans (swept_second image).next_le hroom)
  obtain ⟨s₂, hrun₂, hs₂⟩ := pass_holds hs₁ (base_first image) hfuel hroom
  exact ⟨s₂, by rw [passes, hrun₁]; exact hrun₂, hs₂⟩

/-! ## The numbers -/

/-- Labels in use: those that are their own ends. -/
def InUse (image : BiImage) (r : Nat) : Prop := (secondSwept image).link r = r

instance (image : BiImage) : DecidablePred (InUse image) := fun r =>
  inferInstanceAs (Decidable ((secondSwept image).link r = r))

/-- The final number of an inner white pixel: how many labels in use are smaller than its label. -/
def number (image : BiImage) (p : Nat × Nat) : Nat :=
  Nat.count (InUse image) ((resolve (secondSwept image)).label p)

theorem inUse_label (image : BiImage) (p : Nat × Nat) : InUse image ((resolve (secondSwept image)).label p) :=
  link_root ((swept_second image).link_le_self (base_first image)) _

/-- What `sub_table` has after the first labels: the numbers of those that are in use. -/
structure SubTable (image : BiImage) (n : Nat) (t : List Int × Int) : Prop where
  length : t.1.length = image.width * image.height
  next : t.2 = Nat.count (InUse image) n
  entry : ∀ r < image.width * image.height,
    t.1.getD r (-1) = if r < n ∧ InUse image r then (Nat.count (InUse image) r : Int) else -1

theorem subTable_start (image : BiImage) :
    SubTable image 0 (List.replicate (image.width * image.height) (-1), 0) where
  length := List.length_replicate
  next := rfl
  entry r hr := by simp [List.getD_eq_getElem?_getD, hr]

section SubTable

variable {image : BiImage} {n : Nat} {sub : List Int} {i : Int} (h : SubTable image n (sub, i))
include h

/-- The next label has no number. -/
theorem SubTable.getD_self : sub.getD n (-1) = -1 := by
  by_cases hin : n < image.width * image.height
  · exact (h.entry n hin).trans (if_neg fun h' => Nat.lt_irrefl _ h'.1)
  · have hlength : sub.length = image.width * image.height := h.length
    rw [List.getD_eq_getElem?_getD, List.getElem?_eq_none (by omega)]
    rfl

/-- A label in use gets the next number. -/
theorem SubTable.set (huse : InUse image n) : SubTable image (n + 1) (sub.set n i, i + 1) where
  length := List.length_set.trans h.length
  next := by
    have hnext : i = Nat.count (InUse image) n := h.next
    rw [hnext, Nat.count_succ, if_pos huse]
    rfl
  entry r hr := by
    have hlength : sub.length = image.width * image.height := h.length
    have hnext : i = Nat.count (InUse image) n := h.next
    by_cases hr' : r = n
    · subst hr'
      rw [List.getD_eq_getElem?_getD, List.getElem?_set_self (show r < sub.length by omega),
        if_pos ⟨Nat.lt_succ_self _, huse⟩, ← hnext]
      rfl
    · rw [List.getD_eq_getElem?_getD, List.getElem?_set_ne (Ne.symm hr'), ← List.getD_eq_getElem?_getD]
      refine (h.entry r hr).trans (if_congr (and_congr_left fun _ => ?_) rfl rfl)
      omega

/-- A label that is not in use is left out. -/
theorem SubTable.skip (huse : ¬InUse image n) : SubTable image (n + 1) (sub, i) where
  length := h.length
  next := by
    have hnext : i = Nat.count (InUse image) n := h.next
    rw [hnext, Nat.count_succ, if_neg huse]
    rfl
  entry r hr := by
    refine (h.entry r hr).trans (if_congr (and_congr_left fun hr' => ?_) rfl rfl)
    have hne : r ≠ n := by
      rintro rfl
      exact huse hr'
    omega

end SubTable

/-- **The loop that fills `sub_table`** numbers the labels in use. -/
theorem subTable_eq {s : Labeler} (hs : Holds image s (resolve (secondSwept image))) :
    (subTable (image.width * image.height) s).2 = Nat.count (InUse image) (secondSwept image).next ∧
      ∀ r < image.width * image.height, r < (secondSwept image).next → InUse image r →
        (subTable (image.width * image.height) s).1.getD r (-1) = Nat.count (InUse image) r := by
  have hle := (swept_second image).link_le_self (base_first image)
  have hroom := room image
  have hcount : s.labelCount = (secondSwept image).next := hs.count
  have key := foldl_scan (f := fun (t : List Int × Int) h =>
      if t.1.getD (s.lookup.getD h 0) (-1) = -1 then (t.1.set (s.lookup.getD h 0) t.2, t.2 + 1) else t)
    (l := List.range' 0 s.labelCount) (fun pre t => SubTable image pre.length t) (subTable_start image) ?_
  · have hlength : (List.range' 0 s.labelCount).length = (secondSwept image).next := by
      rw [List.length_range', hcount]
    have hall : SubTable image (secondSwept image).next (subTable (image.width * image.height) s) := hlength ▸ key
    exact ⟨hall.next, fun r hr hlt huse => (hall.entry r hr).trans (if_pos ⟨hlt, huse⟩)⟩
  rintro pre h post ⟨sub, i⟩ hpre hsub
  rw [← List.range_eq_range'] at hpre
  obtain ⟨rfl, hlt⟩ := range_split hpre
  rw [hcount] at hlt
  have hlink : s.lookup.getD pre.length 0 = root (secondSwept image).link pre.length := hs.link _ (Or.inl hlt)
  rw [List.length_append, List.length_singleton, hlink]
  by_cases huse : InUse image pre.length
  · -- the label is in use, and met for the first time
    have hroot : root (secondSwept image).link pre.length = pre.length := root_eq_self huse
    rw [hroot, if_pos hsub.getD_self]
    exact hsub.set huse
  · -- the label leads to one that has its number already
    have hlow : root (secondSwept image).link pre.length < pre.length := by
      have hlt' := (root_le_link hle).trans (hle pre.length)
      refine Nat.lt_of_le_of_ne hlt' fun heq => huse ?_
      exact (root_eq_self_iff hle).1 heq
    have hold : sub.getD (root (secondSwept image).link pre.length) (-1) ≠ -1 := by
      have hnumber := (hsub.entry _ (by omega)).trans (if_pos ⟨hlow, link_root hle _⟩)
      simp only at hnumber
      omega
    rw [if_neg hold]
    exact hsub.skip huse

/-! ## The image -/

/-- The number that the last loops find for the label of a pixel. -/
theorem number_eq {s : Labeler} (hs : Holds image s (resolve (secondSwept image))) {p : Nat × Nat}
    (hp : image.Inside p) :
    ((List.range s.labelCount).map fun h =>
      (subTable (image.width * image.height) s).1.getD (s.lookup.getD h 0) (-1)).getD
        ((resolve (secondSwept image)).label p) 0 = number image p := by
  have hbase := base_second image
  have hlt := hbase.label_lt p
  have hsize : (resolve (secondSwept image)).label p < image.width * image.height := by
    have hroom := room image
    have hindex := index_lt hp.1 hp.2
    have hnext : (resolve (secondSwept image)).next = (secondSwept image).next := rfl
    omega
  have hlink : s.lookup.getD ((resolve (secondSwept image)).label p) 0 = (resolve (secondSwept image)).label p :=
    (hs.link _ (Or.inl hlt)).trans (hbase.link_label p)
  rw [List.getD_eq_getElem?_getD, List.getElem?_map, List.getElem?_range (by rw [hs.count]; exact hlt)]
  show (subTable (image.width * image.height) s).1.getD (s.lookup.getD _ 0) (-1) = _
  rw [hlink]
  exact (subTable_eq hs).2 _ hsize hlt (inUse_label image p)

/-- Exactly the inner white pixels have labels. -/
theorem label_ne_zero_iff {p : Nat × Nat} :
    (resolve (secondSwept image)).label p ≠ 0 ↔ p ∈ innerWhite image := by
  have hbase := base_second image
  constructor
  · intro hne
    by_contra hp
    exact hne (hbase.outside p hp)
  · intro hp hzero
    have hlink := hbase.link_pos _ ((swept_second image).label_pos (base_first image) cap_pos hp)
    have hzero' : root (secondSwept image).link ((secondSwept image).label p) = 0 := hzero
    have hlink' : 0 < root (secondSwept image).link ((secondSwept image).label p) := hlink
    omega

/-- The last loops write the number of every label. -/
theorem writeLabels_eq {s : Labeler} (hs : Holds image s (resolve (secondSwept image))) :
    SameFrame (writeLabels (subTable (image.width * image.height) s).1 s image) image ∧
      ∀ p, image.Inside p → (writeLabels (subTable (image.width * image.height) s).1 s image).px p =
        if p ∈ innerWhite image then (image.get p.1 p.2).setLabel (number image p) else image.px p := by
  have hlabel : ∀ p, image.Inside p →
      s.labelList.getD (p.1 + p.2 * image.width) 0 = (resolve (secondSwept image)).label p := hs.label
  have hnumber : ∀ p, image.Inside p → _ := fun p => number_eq hs (p := p)
  generalize (subTable (image.width * image.height) s).1 = sub at *
  have hl : ∀ p ∈ raster 0 image.width 0 image.height, image.Inside p := fun p hp => by
    rw [mem_raster] at hp
    exact ⟨hp.1.2, hp.2.2⟩
  rw [writeLabels, forEach_eq]
  have key := foldl_write (fun p => decide (p ∈ innerWhite image))
    (fun p pixel => (if image.clearColor.eq pixel then Pixel.init else pixel).setLabel (number image p))
    (raster_nodup 0 image.width 0 image.height) hl
    (f := fun out p => if s.labelList.getD (p.1 + p.2 * image.width) 0 ≠ 0 then
      out.put p.1 p.2 ((out.get p.1 p.2).setLabel (((List.range s.labelCount).map fun h =>
        sub.getD (s.lookup.getD h 0) (-1)).getD (s.labelList.getD (p.1 + p.2 * image.width) 0) 0)) else out) ?_
  · refine ⟨key.1, fun p hp => ?_⟩
    rw [key.2 p hp]
    have hmem : p ∈ raster 0 image.width 0 image.height := mem_raster.2 ⟨⟨Nat.zero_le _, hp.1⟩, Nat.zero_le _, hp.2⟩
    simp only [hmem, true_and, decide_eq_true_eq]
    rw [get_inside (x := p.1) (y := p.2) hp]
  · intro t p ht hp
    have hin := hl p hp
    have hin' := ht.inside.2 hin
    simp only [decide_eq_true_eq, hlabel p hin, label_ne_zero_iff, hnumber p hin]
    rw [put_inside (x := p.1) (y := p.2) hin', get_inside (x := p.1) (y := p.2) hin', ht.clear]

/-- Inner white pixels are shown as they are stored, with any label. -/
theorem get_of_white {image : BiImage} {x y : Nat} (hp : image.Inside (x, y))
    (hwhite : (image.get x y).lightness = 255) :
    image.get x y = image.px (x, y) ∧ ¬image.clearColor.eq (image.px (x, y)) = true ∧
      (image.px (x, y)).empty = false := by
  have hget := get_inside hp
  by_cases hclear : image.clearColor.eq (image.px (x, y)) = true
  · rw [if_pos hclear] at hget
    rw [hget] at hwhite
    exact absurd hwhite (by decide)
  · rw [if_neg hclear] at hget
    refine ⟨hget, hclear, ?_⟩
    by_contra hempty
    rw [Bool.not_eq_false] at hempty
    rw [hget, Pixel.eq_init_of_empty hempty] at hwhite
    exact absurd hwhite (by decide)

/-- **What `Labeling` does**: it comes to an end, gives every inner white pixel its number, leaves all other pixels as
they are, and returns the number of labels in use, 0 included. -/
theorem labeling_spec (image : BiImage) {fuel : Nat} (hfuel : image.width * image.height < fuel) :
    ∃ s out, passes fuel image = some s ∧ Holds image s (resolve (secondSwept image)) ∧
      labeling fuel image = some ((Nat.count (InUse image) (secondSwept image).next : Int), out) ∧ SameFrame out image ∧
      ∀ x y : Nat, image.Inside (x, y) → out.get x y =
        if InnerWhite image (x, y) then (image.get x y).setLabel (number image (x, y)) else image.get x y := by
  obtain ⟨s, hrun, hs⟩ := passes_holds image hfuel
  obtain ⟨hfr, hpx⟩ := writeLabels_eq hs
  refine ⟨s, writeLabels (subTable (image.width * image.height) s).1 s image, hrun, hs, ?_, hfr, fun x y hp => ?_⟩
  · rw [labeling, hrun, ← (subTable_eq hs).1]
    rfl
  · have hread := hpx (x, y) hp
    simp only [mem_innerWhite] at hread
    by_cases hwhite : InnerWhite image (x, y)
    · rw [if_pos hwhite] at hread ⊢
      obtain ⟨hget, hclear, hempty⟩ := get_of_white hp hwhite.2
      -- the label does not matter to the comparison with the clear colour
      have hclear' : ¬image.clearColor.eq ((image.get x y).setLabel (number image (x, y))) = true := by
        intro heq
        rw [Pixel.eq_iff] at heq
        refine hclear (Pixel.eq_iff.2 ?_)
        rw [hget] at heq
        exact ⟨heq.1.trans hempty.symm, heq.2⟩
      rw [get_inside (hfr.inside.2 hp), hread, hfr.clear, if_neg hclear']
    · rw [if_neg hwhite] at hread ⊢
      exact get_congr hfr (hfr.inside.2 hp) hread

end LeftFelt.ImageUtil
