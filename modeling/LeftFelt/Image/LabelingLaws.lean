import LeftFelt.Image.LabelingTables
import LeftFelt.Lib.Foremost
import Mathlib.Data.Nat.Nth

/-!
# What the labels mean

Four expectations on `Labeling`, for the inner white pixels and their 8-neighbourhood.

* Pixels with the same label belong to the same object (`labeling_sound`), as long as the label 0xFFFF, which
  `min_calc` takes for the largest, is not reached.
* The pixels of one object have the same label: as long as no start meets two earlier ones, or no object has more than
  two foremost starts (`labeling_complete`). A label keeps one link, and a link that is overwritten may have been the
  only one between two halves of an object (`winding`).
* The labels are numbered without a gap: only if no pixel is alone (`labeling_numbering_iff`). A pixel without
  neighbours is given a second label by the second sweep, and the first one is numbered too.
* The labels come from the picture alone: only if all other pixels have had the same labels before
  (`labeling_labels_iff`), since nothing is written to them.
-/

namespace LeftFelt.ImageUtil

open Lib BiImage

variable {image : BiImage}

/-- Two pixels of one object. -/
abbrev SameObject (image : BiImage) (p q : Nat × Nat) : Prop := PathIn Adjacent {p | InnerWhite image p} p q

/-- The objects are the connected parts of the scan. -/
theorem sameObject_iff {p q : Nat × Nat} : SameObject image p q ↔ ScanPath neighbours (innerWhite image) p q := by
  have hset : {p | InnerWhite image p} = {p | p ∈ innerWhite image} := Set.ext fun p => mem_innerWhite.symm
  have hadj : ∀ a ∈ {p | p ∈ innerWhite image}, ∀ b, b ∈ neighbours a ↔ Adjacent a b := fun a ha b =>
    mem_neighbours (mem_innerWhite.1 ha).1.1.1 (mem_innerWhite.1 ha).1.2.1
  unfold SameObject
  rw [hset]
  constructor
  · exact fun h => h.imp fun a ha b _ hab => (hadj a ha b).2 hab
  · exact fun h => h.imp fun a ha b _ hab => (hadj a ha b).1 hab

theorem label_pos {p : Nat × Nat} (hp : InnerWhite image p) : 0 < (resolve (secondSwept image)).label p :=
  (base_second image).link_pos _ ((swept_second image).label_pos (base_first image) cap_pos (mem_innerWhite.2 hp))

/-- The label 0 stands for the background and counts as in use. -/
theorem inUse_zero (image : BiImage) : InUse image 0 :=
  Nat.le_zero.1 ((swept_second image).link_le_self (base_first image) 0)

/-- Labels in use other than 0 have positive numbers. -/
theorem count_pos {r : Nat} (hr : 0 < r) : 1 ≤ Nat.count (InUse image) r :=
  calc 1 = Nat.count (InUse image) 1 := by rw [Nat.count_one, if_pos (inUse_zero image)]
    _ ≤ Nat.count (InUse image) r := Nat.count_monotone _ hr

/-- Equal numbers are numbers of equal labels. -/
theorem number_inj {p q : Nat × Nat} (h : number image p = number image q) :
    (resolve (secondSwept image)).label p = (resolve (secondSwept image)).label q :=
  Nat.count_injective (inUse_label image p) (inUse_label image q) h

/-! ## Soundness -/

/-- Equal numbers are given inside of one object. -/
theorem sameObject_of_number (hcap : (secondSwept image).next ≤ 0xFFFF) {p q : Nat × Nat} (hp : InnerWhite image p)
    (heq : number image p = number image q) : SameObject image p q := by
  have hsound := two_sweeps_sound (scan_innerWhite image) (swept_first image) (swept_second image) cap_pos hcap
  have hpos := label_pos hp
  exact sameObject_iff.2 (hsound _ _ (by omega) (number_inj heq))

/-- **Soundness**: if fewer than 0xFFFF labels are handed out, exactly the inner white pixels are labelled, with
positive labels, and equal labels mean the same object. -/
theorem labeling_sound (image : BiImage) {fuel : Nat} (hfuel : image.width * image.height < fuel) :
    ∃ s n out, passes fuel image = some s ∧ labeling fuel image = some (n, out) ∧
      (s.labelCount - 1 < 0xFFFF →
        (∀ p, image.Inside p → (s.labelList.getD (index image p) 0 ≠ 0 ↔ InnerWhite image p)) ∧
        (∀ x y : Nat, image.Inside (x, y) → ¬InnerWhite image (x, y) → out.get x y = image.get x y) ∧
        (∀ x y : Nat, InnerWhite image (x, y) → 1 ≤ (out.get x y).label) ∧
        ∀ x y x' y' : Nat, InnerWhite image (x, y) → InnerWhite image (x', y') →
          (out.get x y).label = (out.get x' y').label → SameObject image (x, y) (x', y')) := by
  obtain ⟨s, out, hpasses, hs, hrun, hfr, hget⟩ := labeling_spec image hfuel
  refine ⟨s, _, out, hpasses, hrun, fun hfew => ⟨fun p hp => ?_, fun x y hp hblack => ?_, fun x y hp => ?_, ?_⟩⟩
  · rw [hs.label p hp]
    constructor
    · intro hne
      by_contra hblack
      exact hne ((base_second image).outside p fun hmem => hblack (mem_innerWhite.1 hmem))
    · intro hwhite
      have hpos := label_pos hwhite
      omega
  · rw [hget x y hp, if_neg hblack]
  · rw [hget x y hp.inside, if_pos hp]
    have hnumber : 1 ≤ number image (x, y) := count_pos (label_pos hp)
    show (1 : Int) ≤ (number image (x, y) : Int)
    omega
  · intro x y x' y' hp hq heq
    rw [hget x y hp.inside, if_pos hp, hget x' y' hq.inside, if_pos hq] at heq
    have hnumber : number image (x, y) = number image (x', y') := Int.ofNat_inj.1 heq
    have hcap : (secondSwept image).next ≤ 0xFFFF := by
      have hcount : s.labelCount = (secondSwept image).next := hs.count
      omega
    exact sameObject_of_number hcap hp hnumber

/-- One white pixel in the middle of a 3 × 3 image. -/
def dot : BiImage := ofFn 3 3 (by decide) (by decide) fun x y => if x = 1 ∧ y = 1 then Pixel.gray 255 else Pixel.gray 0

/-- The dot is labelled. -/
theorem labeling_sound_dot : ∃ n out, labeling 10 dot = some (n, out) ∧ 1 ≤ (out.get 1 1).label := by
  obtain ⟨s, n, out, hpasses, hrun, hsound⟩ := labeling_sound dot (show 3 * 3 < 10 by decide)
  have hcount : (passes 10 dot).map Labeler.labelCount = some 3 := by decide +kernel
  rw [hpasses, Option.map_some, Option.some.injEq] at hcount
  obtain ⟨-, -, hlabel, -⟩ := hsound (by omega)
  exact ⟨n, out, hrun, hlabel 1 1 (by decide)⟩

/-! ## Completeness -/

/-- The pixels of one object have the same label. -/
def Complete (image out : BiImage) : Prop :=
  ∀ p q : Nat × Nat, SameObject image p q → (out.get p.1 p.2).label = (out.get q.1 q.2).label

/-- Fewer than 0xFFFF labels are handed out: one to every start, one more to every isolated pixel. -/
def FewLabels (image : BiImage) : Prop := (starts image).ncard + (isolated image).ncard < 0xFFFF

theorem FewLabels.next_le (hfew : FewLabels image) : (secondSwept image).next ≤ 0xFFFF := by
  rw [next_secondSwept]
  unfold FewLabels at hfew
  omega

/-- The labels of the image are the numbers of the labels. -/
theorem label_eq {out : BiImage} (hget : ∀ x y : Nat, image.Inside (x, y) → out.get x y =
      if InnerWhite image (x, y) then (image.get x y).setLabel (number image (x, y)) else image.get x y)
    {p : Nat × Nat} (hp : InnerWhite image p) : (out.get p.1 p.2).label = (number image p : Int) := by
  rw [hget p.1 p.2 hp.inside, if_pos hp]
  rfl

/-- Objects have one label if on each of them all links of both sweeps have one end. As long as fewer than 0xFFFF
labels are handed out, that is to say that each of them has one bottom. -/
theorem complete_iff (image : BiImage) {fuel : Nat} (hfuel : image.width * image.height < fuel) :
    ∃ n out, labeling fuel image = some (n, out) ∧
      (Complete image out ↔ OneEnd neighbours 0xFFFF (index image) (innerWhite image)) ∧
      (FewLabels image → (OneEnd neighbours 0xFFFF (index image) (innerWhite image) ↔
        OneBottom neighbours 0xFFFF (index image) (innerWhite image))) := by
  obtain ⟨s, out, -, -, hrun, -, hget⟩ := labeling_spec image hfuel
  have hscan := scan_innerWhite image
  have hfirst := swept_first image
  have hsecond := swept_second image
  refine ⟨_, out, hrun, ?_, fun hfew => oneEnd_iff_oneBottom hscan hfirst hsecond cap_pos hfew.next_le⟩
  rw [← complete_iff_oneEnd hscan hfirst hsecond cap_pos]
  constructor
  · intro hcomplete p q hpq
    have hobject := sameObject_iff.2 hpq
    have heq := hcomplete p q hobject
    rw [label_eq hget hobject.mem_left, label_eq hget hobject.mem_right] at heq
    exact number_inj (Int.ofNat_inj.1 heq)
  · intro hcomplete p q hobject
    rw [label_eq hget hobject.mem_left, label_eq hget hobject.mem_right, number, number,
      hcomplete p q (sameObject_iff.1 hobject)]

/-- No object has more than `k` foremost starts: pixels with no earlier neighbour such that nothing to which they lead,
forward in the raster, is led to from an earlier one of that kind. -/
def AtMostForemost (image : BiImage) (k : Nat) : Prop := AtMost neighbours (index image) (innerWhite image) k

/-- Fewer than 0xFFFF labels, and two foremost starts on an object: it has one end. -/
theorem FewLabels.oneEnd (hfew : FewLabels image) (htwo : AtMostForemost image 2) :
    OneEnd neighbours 0xFFFF (index image) (innerWhite image) := by
  have hscan := scan_innerWhite image
  have hle := hfew.next_le
  rw [oneEnd_iff_oneBottom hscan (swept_first image) (swept_second image) cap_pos hle]
  exact oneBottom_of_atMost hscan (swept_first image) (swept_second image) cap_pos
    ((swept_second image).next_le.trans hle) htwo

/-- No link is overwritten, since no start meets two earlier ones; or two sweeps make up for it, since fewer than 0xFFFF
labels are handed out and no object has more than two foremost starts. -/
def Rejoined (image : BiImage) : Prop :=
  MeetsOnce neighbours 0xFFFF (index image) (innerWhite image) ∨ FewLabels image ∧ AtMostForemost image 2

theorem Rejoined.complete (h : Rejoined image) {fuel : Nat} (hfuel : image.width * image.height < fuel) :
    ∃ n out, labeling fuel image = some (n, out) ∧ Complete image out := by
  obtain ⟨n, out, hrun, hiff, -⟩ := complete_iff image hfuel
  refine ⟨n, out, hrun, hiff.2 ?_⟩
  rcases h with hone | ⟨hfew, htwo⟩
  · rw [← complete_iff_oneEnd (scan_innerWhite image) (swept_first image) (swept_second image) cap_pos]
    exact fun p q => complete_of_meetsOnce (scan_innerWhite image) (swept_first image) (swept_second image) cap_pos hone
  · exact hfew.oneEnd htwo

/-- A picture drawn with 0 and 1. -/
def picture (w h : Nat) (hw : w < 2 ^ 31) (hh : h < 2 ^ 31) (rows : List (List Nat)) : BiImage :=
  ofFn w h hw hh fun x y => if (rows.getD y []).getD x 0 = 1 then Pixel.gray 255 else Pixel.gray 0

/-- A line that winds up and down. -/
def winding : BiImage := picture 11 6 (by decide) (by decide)
  [[0, 0, 0, 0, 0, 0, 0, 0, 0, 0, 0],
   [0, 0, 0, 0, 0, 0, 0, 0, 0, 1, 0],
   [0, 1, 0, 0, 0, 1, 0, 1, 1, 0, 0],
   [0, 1, 0, 1, 1, 0, 1, 0, 0, 0, 0],
   [0, 0, 1, 0, 0, 0, 0, 0, 0, 0, 0],
   [0, 0, 0, 0, 0, 0, 0, 0, 0, 0, 0]]

/-- The winding line is one object from its right end to its left end. -/
theorem winding_joined : SameObject winding (9, 1) (1, 2) := by
  have hline : List.IsChain (fun a b => Adjacent a b ∧ InnerWhite winding b)
      [(9, 1), (8, 2), (7, 2), (6, 3), (5, 2), (4, 3), (3, 3), (2, 4), (1, 3), (1, 2)] := by decide +kernel
  exact PathIn.of_isChain (show InnerWhite winding (9, 1) by decide +kernel) hline rfl

/-- The ends of the winding line have different labels. -/
theorem labels_winding {n : Int} {out : BiImage} (hrun : labeling 67 winding = some (n, out)) :
    ¬Complete winding out := by
  have hlabels : (labeling 67 winding).map (fun r => ((r.2.get 9 1).label, (r.2.get 1 2).label)) = some (1, 2) := by
    decide +kernel
  rw [hrun, Option.map_some, Option.some.injEq, Prod.mk.injEq] at hlabels
  intro hcomplete
  have heq : (out.get 9 1).label = (out.get 1 2).label := hcomplete (9, 1) (1, 2) winding_joined
  have hright : (out.get 9 1).label = 1 := hlabels.1
  have hleft : (out.get 1 2).label = 2 := hlabels.2
  omega

/-- A picture has few labels if it has few inner white pixels. -/
theorem fewLabels_of_length (hlength : 2 * (innerWhite image).length < 0xFFFF) : FewLabels image := by
  have hcard : ∀ {A : Set (Nat × Nat)}, (∀ p ∈ A, p ∈ innerWhite image) → A.ncard ≤ (innerWhite image).length := by
    intro A hA
    calc A.ncard ≤ {p | p ∈ innerWhite image}.ncard := Set.ncard_le_ncard hA (List.finite_toSet _)
      _ ≤ (innerWhite image).length := by
        rw [← List.coe_toFinset, Set.ncard_coe_finset]
        exact List.toFinset_card_le _
  have hstarts := hcard (A := starts image) fun p hp => hp.1
  have hisolated := hcard (A := isolated image) fun p hp => hp.1
  unfold FewLabels
  omega

/-- A start is not foremost if it leads to where an earlier one leads. -/
theorem not_foremost {s s' p : Nat × Nat} (hs' : s' ∈ starts image) (hlt : index image s' < index image s)
    (h : Flows neighbours (index image) (innerWhite image) s p)
    (h' : Flows neighbours (index image) (innerWhite image) s' p) :
    ¬Foremost neighbours (index image) (innerWhite image) s := fun hs =>
  absurd (hs.2 s' p hs' h h') (Nat.not_le.2 hlt)

/-- One step forward in the raster. -/
theorem flows_step {p q : Nat × Nat} (h : p ∈ innerWhite image ∧
    (q ∈ neighbours p ∧ index image p < index image q) ∧ q ∈ innerWhite image) :
    Flows neighbours (index image) (innerWhite image) p q := PathIn.single h.1 h.2.1 h.2.2

/-- Of the five starts on the winding line three are foremost. -/
theorem atMostForemost_winding : AtMostForemost winding 3 := by
  suffices h : ∀ s, Foremost neighbours (index winding) (innerWhite winding) s → s ∈ [(9, 1), (1, 2), (5, 2)] from
    atMost_of_mem h
  intro s hs
  have hstarts : ∀ s ∈ innerWhite winding, (∀ q ∈ neighbours s, q ∈ innerWhite winding →
      index winding s < index winding q) → s ∈ [(9, 1), (1, 2), (5, 2)] ∨ s = (7, 2) ∨ s = (3, 3) := by decide +kernel
  rcases hstarts s hs.1.1 hs.1.2 with hmem | rfl | rfl
  · exact hmem
  · have hright : (9, 1) ∈ starts winding := ⟨by decide +kernel, by decide +kernel⟩
    exact absurd hs (not_foremost (p := (8, 2)) hright (by decide) (flows_step (by decide +kernel))
      (flows_step (by decide +kernel)))
  · have hmiddle : (5, 2) ∈ starts winding := ⟨by decide +kernel, by decide +kernel⟩
    exact absurd hs (not_foremost (p := (4, 3)) hmiddle (by decide) (flows_step (by decide +kernel))
      (flows_step (by decide +kernel)))

/-- **When objects have one label**: if no start meets two earlier ones, or else if fewer than 0xFFFF labels are handed
out and no object has more than two foremost starts. No larger number of them is enough. -/
theorem labeling_complete (image : BiImage) {fuel : Nat} (hfuel : image.width * image.height < fuel) :
    (Rejoined image → ∃ n out, labeling fuel image = some (n, out) ∧ Complete image out) ∧
      ∀ k, (∀ image fuel, image.width * image.height < fuel → FewLabels image → AtMostForemost image k →
        ∃ n out, labeling fuel image = some (n, out) ∧ Complete image out) → k ≤ 2 := by
  refine ⟨fun h => h.complete hfuel, fun k hall => ?_⟩
  by_contra hk
  have hmost : AtMostForemost winding k := fun p hp => (atMostForemost_winding p hp).trans (by omega)
  obtain ⟨n, out, hrun, hcomplete⟩ :=
    hall winding 67 (show 11 * 6 < 67 by decide) (fewLabels_of_length (by decide +kernel)) hmost
  exact labels_winding hrun hcomplete

/-- A valley between two peaks, with a third one in it. -/
def valley : BiImage := picture 7 5 (by decide) (by decide)
  [[0, 0, 0, 0, 0, 0, 0],
   [0, 1, 0, 0, 0, 1, 0],
   [0, 1, 0, 1, 0, 1, 0],
   [0, 0, 1, 0, 1, 0, 0],
   [0, 0, 0, 0, 0, 0, 0]]

/-- The peak in the valley meets both others, which are foremost. -/
theorem rejoined_valley : Rejoined valley := by
  refine Or.inr ⟨fewLabels_of_length (by decide +kernel), ?_⟩
  suffices h : ∀ s, Foremost neighbours (index valley) (innerWhite valley) s → s ∈ [(1, 1), (5, 1)] from
    atMost_of_mem h
  intro s hs
  have hstarts : ∀ s ∈ innerWhite valley, (∀ q ∈ neighbours s, q ∈ innerWhite valley →
      index valley s < index valley q) → s ∈ [(1, 1), (5, 1)] ∨ s = (3, 2) := by decide +kernel
  rcases hstarts s hs.1.1 hs.1.2 with hmem | rfl
  · exact hmem
  · have hleft : (1, 1) ∈ starts valley := ⟨by decide +kernel, by decide +kernel⟩
    have hdown : Flows neighbours (index valley) (innerWhite valley) (1, 1) (1, 2) := flows_step (by decide +kernel)
    exact absurd hs (not_foremost (p := (2, 3)) hleft (by decide) (flows_step (by decide +kernel))
      (hdown.trans (flows_step (by decide +kernel))))

/-- The valley is one object with one label. -/
theorem labeling_complete_valley : ∃ n out, labeling 36 valley = some (n, out) ∧ Complete valley out :=
  (labeling_complete valley (show 7 * 5 < 36 by decide)).1 rejoined_valley

/-- The winding line gets two labels. -/
theorem not_complete_winding : ∃ n out, labeling 67 winding = some (n, out) ∧ ¬Complete winding out := by
  obtain ⟨s, out, -, -, hrun, -, -⟩ := labeling_spec winding (show 11 * 6 < 67 by decide)
  exact ⟨_, out, hrun, labels_winding hrun⟩

/-! ## Numbering -/

/-- The labels other than 0 are the numbers from 1 to `n - 1`. -/
def Numbered (image : BiImage) (n : Int) (out : BiImage) : Prop :=
  ∀ k : Int, k ≠ 0 → ((∃ x y : Nat, image.Inside (x, y) ∧ (out.get x y).label = k) ↔ 1 ≤ k ∧ k ≤ n - 1)

/-- An inner white pixel without neighbours. -/
def Alone (image : BiImage) (p : Nat × Nat) : Prop := InnerWhite image p ∧ ∀ q, InnerWhite image q → ¬Adjacent p q

theorem alone_iff {p : Nat × Nat} : Alone image p ↔ Isolated neighbours (innerWhite image) p := by
  rw [Alone, Isolated, mem_innerWhite]
  refine and_congr_right fun hp => ?_
  have hadj : ∀ q, q ∈ neighbours p ↔ Adjacent p q := fun q => mem_neighbours hp.1.1.1 hp.1.2.1
  constructor
  · intro halone q hq hmem
    exact halone q (mem_innerWhite.1 hmem) ((hadj q).1 hq)
  · intro halone q hq hpq
    exact halone q ((hadj q).2 hpq) (mem_innerWhite.2 hq)

/-- The first sweep gives the label of `p` to another pixel as well. -/
def Shared (image : BiImage) (p : Nat × Nat) : Prop :=
  ∃ q, InnerWhite image q ∧ q ≠ p ∧ First neighbours 0xFFFF (index image) (innerWhite image) q p

/-- Only the label 0xFFFF is given to pixels that are not reached from where it was handed out. -/
theorem FewLabels.not_shared (hfew : FewLabels image) {p : Nat × Nat} (hp : Alone image p) : ¬Shared image p := by
  rintro ⟨q, hq, hne, hstart, hfirst⟩
  rw [alone_iff] at hp
  rcases hfirst with rfl | ⟨-, hflow | ⟨-, hcount⟩, -⟩
  · exact hne rfl
  · exact hne (eq_of_isolated hp (hflow.imp fun a _ b _ hab => hab.1))
  · have hsub : {s | Start neighbours (index image) (innerWhite image) s ∧ index image s < index image p} ⊂
        starts image := by
      refine ⟨fun s hs => hs.1, fun hsub => ?_⟩
      exact absurd (hsub hstart).2 (Nat.lt_irrefl _)
    have hcard := Set.ncard_lt_ncard hsub ((List.finite_toSet (innerWhite image)).subset fun s hs => hs.1)
    unfold FewLabels at hfew
    omega

/-- The labels in use do not end. -/
theorem infinite_inUse (image : BiImage) : (Set.ofPred (InUse image)).Infinite :=
  Set.infinite_of_forall_exists_gt fun n => ⟨max (n + 1) (secondSwept image).next,
    (swept_second image).link_next (base_first image) (Nat.le_max_right _ _), by omega⟩

/-- **When the numbers have no gap**: exactly if no pixel is alone, or else the first sweep gave its label to another
one. As long as fewer than 0xFFFF labels are handed out, exactly if no pixel is alone. -/
theorem labeling_numbering_iff (image : BiImage)
    (hunlabelled : ∀ x y : Nat, image.Inside (x, y) → (image.get x y).label = 0) {fuel : Nat}
    (hfuel : image.width * image.height < fuel) :
    ∃ n out, labeling fuel image = some (n, out) ∧
      (Numbered image n out ↔ ∀ p, Alone image p → Shared image p) ∧
      (FewLabels image → (Numbered image n out ↔ ∀ p, ¬Alone image p)) := by
  obtain ⟨s, out, -, -, hrun, -, hget⟩ := labeling_spec image hfuel
  have hinf := infinite_inUse image
  have hlt : ∀ p, (resolve (secondSwept image)).label p < (secondSwept image).next := (base_second image).label_lt
  have hnumbered : Numbered image (Nat.count (InUse image) (secondSwept image).next : Int) out ↔
      ∀ p, Alone image p → Shared image p := by
    have hgapless := gapless_iff (scan_innerWhite image) (swept_first image) (swept_second image) cap_pos
    simp only [← alone_iff, mem_innerWhite] at hgapless
    refine Iff.trans ?_ hgapless
    constructor
    · intro hnum r hr hrlt huse
      have hcount := Nat.count_strict_mono (p := InUse image) huse hrlt
      have hpos : 1 ≤ Nat.count (InUse image) r := count_pos hr
      obtain ⟨x, y, hp, hlabel⟩ := (hnum (Nat.count (InUse image) r : Int) (by omega)).2 (by omega)
      by_cases hwhite : InnerWhite image (x, y)
      · have hnumber : number image (x, y) = Nat.count (InUse image) r :=
          Int.ofNat_inj.1 ((label_eq hget hwhite).symm.trans hlabel)
        exact ⟨(x, y), hwhite, Nat.count_injective (inUse_label image (x, y)) huse hnumber⟩
      · rw [hget x y hp, if_neg hwhite, hunlabelled x y hp] at hlabel
        omega
    · intro hused k hk
      constructor
      · rintro ⟨x, y, hp, rfl⟩
        by_cases hwhite : InnerWhite image (x, y)
        · rw [label_eq hget hwhite]
          have hpos : 1 ≤ number image (x, y) := count_pos (label_pos hwhite)
          have hcount : number image (x, y) < _ := Nat.count_strict_mono (inUse_label image (x, y)) (hlt (x, y))
          omega
        · rw [hget x y hp, if_neg hwhite, hunlabelled x y hp] at hk
          exact absurd rfl hk
      · rintro ⟨hk1, hkn⟩
        obtain ⟨m, rfl⟩ := Int.eq_ofNat_of_zero_le (show 0 ≤ k by omega)
        -- the label with the number `m`
        have hcount : Nat.count (InUse image) (Nat.nth (InUse image) m) = m := Nat.count_nth_of_infinite hinf m
        have hnth : Nat.nth (InUse image) m < (secondSwept image).next := Nat.nth_lt_of_lt_count (by omega)
        have hpos : 0 < Nat.nth (InUse image) m := by
          by_contra hzero
          rw [Nat.eq_zero_of_not_pos hzero, Nat.count_zero] at hcount
          omega
        obtain ⟨p, hp, heq⟩ := hused _ hpos hnth (Nat.nth_mem_of_infinite hinf m)
        refine ⟨p.1, p.2, hp.inside, ?_⟩
        rw [label_eq hget hp, number, heq, hcount]
  refine ⟨_, out, hrun, hnumbered, fun hfew => hnumbered.trans ?_⟩
  constructor
  · intro hshared p hp
    exact hfew.not_shared hp (hshared p hp)
  · intro hnone p hp
    exact absurd hp (hnone p)

/-- Two white pixels side by side. -/
def pair : BiImage := picture 4 3 (by decide) (by decide) [[0, 0, 0, 0], [0, 1, 1, 0], [0, 0, 0, 0]]

/-- The label of the pair is 1, and there is no other. -/
theorem labeling_numbering_pair : ∃ n out, labeling 13 pair = some (n, out) ∧ Numbered pair n out := by
  have hunlabelled : ∀ p ∈ raster 0 4 0 3, (pair.get p.1 p.2).label = 0 := by decide +kernel
  obtain ⟨n, out, hrun, hiff, -⟩ := labeling_numbering_iff pair
    (fun x y hp => hunlabelled (x, y) (mem_raster.2 ⟨⟨Nat.zero_le _, hp.1⟩, Nat.zero_le _, hp.2⟩))
    (show 4 * 3 < 13 by decide)
  refine ⟨n, out, hrun, hiff.2 fun p hp => ?_⟩
  have hwhite : innerWhite pair = [(1, 1), (2, 1)] := by decide +kernel
  have hmem := mem_innerWhite.2 hp.1
  rw [hwhite, List.mem_cons, List.mem_singleton] at hmem
  rcases hmem with rfl | rfl
  · exact absurd (by decide) (hp.2 (2, 1) (by decide +kernel))
  · exact absurd (by decide) (hp.2 (1, 1) (by decide +kernel))

/-- The dot gets the label 2 of 3, and no pixel has the label 1. -/
theorem not_numbered_dot : (∀ x y : Nat, dot.Inside (x, y) → (dot.get x y).label = 0) ∧
    ∃ n out, labeling 10 dot = some (n, out) ∧ ¬Numbered dot n out := by
  have hunlabelled : ∀ p ∈ raster 0 3 0 3, (dot.get p.1 p.2).label = 0 := by decide +kernel
  have hinside : ∀ x y : Nat, dot.Inside (x, y) → (x, y) ∈ raster 0 3 0 3 := fun x y hp =>
    mem_raster.2 ⟨⟨Nat.zero_le _, hp.1⟩, Nat.zero_le _, hp.2⟩
  refine ⟨fun x y hp => hunlabelled (x, y) (hinside x y hp), ?_⟩
  obtain ⟨s, out, -, -, hrun, -, -⟩ := labeling_spec dot (show 3 * 3 < 10 by decide)
  refine ⟨_, out, hrun, fun hnum => ?_⟩
  have hvalues : (labeling 10 dot).map (fun r => (r.1, (raster 0 3 0 3).map fun p => (r.2.get p.1 p.2).label)) =
      some (3, [0, 0, 0, 0, 2, 0, 0, 0, 0]) := by decide +kernel
  rw [hrun, Option.map_some, Option.some.injEq, Prod.mk.injEq] at hvalues
  obtain ⟨x, y, hp, hlabel⟩ := (hnum 1 (by decide)).2 (by omega)
  have hmem : (1 : Int) ∈ (raster 0 3 0 3).map fun p => (out.get p.1 p.2).label :=
    List.mem_map.2 ⟨(x, y), hinside x y hp, hlabel⟩
  rw [hvalues.2] at hmem
  exact absurd hmem (by decide)

/-! ## Labels of earlier frames -/

/-- Two images of the same size that show the same lightness everywhere. -/
structure SamePicture (a b : BiImage) : Prop where
  width : a.width = b.width
  height : a.height = b.height
  lightness : ∀ x y : Nat, a.Inside (x, y) → (a.get x y).lightness = (b.get x y).lightness

/-- The images show the same labels. -/
def SameLabels (a b : BiImage) : Prop := ∀ x y : Nat, a.Inside (x, y) → (a.get x y).label = (b.get x y).label

section SamePicture

variable {a b : BiImage} (h : SamePicture a b)
include h

theorem SamePicture.inside {p : Nat × Nat} : a.Inside p ↔ b.Inside p := by
  rw [BiImage.Inside, BiImage.Inside, h.width, h.height]

theorem SamePicture.innerWhite_eq : innerWhite a = innerWhite b := by
  rw [innerWhite, innerWhite, ← h.width, ← h.height]
  refine List.filter_congr fun p hp => ?_
  rw [mem_raster] at hp
  rw [h.lightness p.1 p.2 ⟨by omega, by omega⟩]

theorem SamePicture.innerWhite_iff {p : Nat × Nat} : InnerWhite a p ↔ InnerWhite b p := by
  rw [← mem_innerWhite, ← mem_innerWhite, h.innerWhite_eq]

/-- The tables are the same. -/
theorem SamePicture.secondSwept_eq : secondSwept a = secondSwept b := by
  have hswept : swept a = swept b := funext fun t => by rw [swept, swept, h.innerWhite_eq]
  rw [secondSwept, secondSwept, firstSwept, firstSwept, hswept]

theorem SamePicture.inUse_iff {r : Nat} : InUse a r ↔ InUse b r := by
  rw [InUse, InUse, h.secondSwept_eq]

theorem SamePicture.count_inUse (n : Nat) : Nat.count (InUse a) n = Nat.count (InUse b) n := by
  induction n with
  | zero => rfl
  | succ n ih => simp only [Nat.count_succ, ih, h.inUse_iff]

theorem SamePicture.number_eq (p : Nat × Nat) : number a p = number b p := by
  rw [number, number, h.count_inUse, h.secondSwept_eq]

end SamePicture

/-- **Where the labels come from**: two images that show the same picture get the same number of labels, and the same
labels everywhere exactly if they have had the same labels where no object is. -/
theorem labeling_labels_iff {a b : BiImage} (h : SamePicture a b) {fuel : Nat} (hfuel : a.width * a.height < fuel) :
    ∃ n outA outB, labeling fuel a = some (n, outA) ∧ labeling fuel b = some (n, outB) ∧
      (SameLabels outA outB ↔ ∀ x y : Nat, a.Inside (x, y) → ¬InnerWhite a (x, y) →
        (a.get x y).label = (b.get x y).label) := by
  obtain ⟨-, outA, -, -, hrunA, hfrA, hgetA⟩ := labeling_spec a hfuel
  obtain ⟨-, outB, -, -, hrunB, -, hgetB⟩ := labeling_spec b (by rwa [← h.width, ← h.height])
  rw [← h.count_inUse, ← h.secondSwept_eq] at hrunB
  refine ⟨_, outA, outB, hrunA, hrunB, ?_⟩
  have hlabel : ∀ x y : Nat, a.Inside (x, y) → ((outA.get x y).label = (outB.get x y).label ↔
      (¬InnerWhite a (x, y) → (a.get x y).label = (b.get x y).label)) := by
    intro x y hp
    by_cases hwhite : InnerWhite a (x, y)
    · have heq : (outA.get x y).label = (outB.get x y).label := by
        rw [label_eq hgetA hwhite, label_eq hgetB (h.innerWhite_iff.1 hwhite), h.number_eq]
      simp [heq, hwhite]
    · rw [hgetA x y hp, hgetB x y (h.inside.1 hp), if_neg hwhite, if_neg (mt h.innerWhite_iff.2 hwhite)]
      simp [hwhite]
  constructor
  · intro hsame x y hp
    exact (hlabel x y hp).1 (hsame x y (hfrA.inside.2 hp))
  · intro hold x y hp
    exact (hlabel x y (hfrA.inside.1 hp)).2 (hold x y (hfrA.inside.1 hp))

/-- A black pixel with a label. -/
def stale (label : Int) : BiImage := ofFn 1 1 (by decide) (by decide) fun _ _ => (Pixel.gray 0).setLabel label

theorem get_stale (label : Int) {x y : Nat} (hp : (stale label).Inside (x, y)) :
    (stale label).get x y = (Pixel.gray 0).setLabel label := get_ofFn _ _ hp.1 hp.2 rfl

theorem samePicture_stale (k l : Int) : SamePicture (stale k) (stale l) :=
  ⟨rfl, rfl, fun x y hp => by rw [get_stale k hp, get_stale l hp]; rfl⟩

/-- The dot and itself. -/
theorem labeling_labels_dot : ∃ n outA outB, labeling 10 dot = some (n, outA) ∧ labeling 10 dot = some (n, outB) ∧
    SameLabels outA outB := by
  obtain ⟨n, outA, outB, hrunA, hrunB, hiff⟩ := labeling_labels_iff (a := dot) (b := dot) ⟨rfl, rfl, fun _ _ _ => rfl⟩
    (show 3 * 3 < 10 by decide)
  exact ⟨n, outA, outB, hrunA, hrunB, hiff.2 fun _ _ _ _ => rfl⟩

/-- The label 5 of an earlier frame stays on a black pixel. -/
theorem not_sameLabels_stale : SamePicture (stale 5) (stale 0) ∧ ∃ n outA outB,
    labeling 2 (stale 5) = some (n, outA) ∧ labeling 2 (stale 0) = some (n, outB) ∧ ¬SameLabels outA outB := by
  have h := samePicture_stale 5 0
  obtain ⟨-, outA, -, -, hrunA, hfrA, hgetA⟩ := labeling_spec (stale 5) (show 1 * 1 < 2 by decide)
  obtain ⟨-, outB, -, -, hrunB, -, hgetB⟩ := labeling_spec (stale 0) (show 1 * 1 < 2 by decide)
  rw [← h.count_inUse, ← h.secondSwept_eq] at hrunB
  refine ⟨h, _, outA, outB, hrunA, hrunB, fun hsame => ?_⟩
  have hin : ∀ label, (stale label).Inside (0, 0) := fun _ => ⟨one_pos, one_pos⟩
  have hblack : ∀ label, ¬InnerWhite (stale label) (0, 0) := fun _ hp => absurd hp.1.1.1 (by decide)
  have heq := hsame 0 0 (hfrA.inside.2 (hin 5))
  rw [hgetA 0 0 (hin 5), hgetB 0 0 (hin 0), if_neg (hblack 5), if_neg (hblack 0), get_stale 5 (hin 5),
    get_stale 0 (hin 0)] at heq
  exact absurd heq (by decide)

end LeftFelt.ImageUtil
