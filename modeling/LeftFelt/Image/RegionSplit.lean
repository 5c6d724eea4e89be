import LeftFelt.Image.Binary
import LeftFelt.Lib.Flood
import LeftFelt.Lib.OrderedMap

/-!
# Splitting an image into regions of a colour

`ImageUtil::colorRegionSplit` goes through the image, and from every pixel that belongs to no region yet a new region
grows: its pixels differ by at most `threshold` from the colour of that first pixel, the seed. The pixels whose
neighbours have still to be looked at are kept in two maps, one for each coordinate, with a counter: a stack. At last
all pixels of a region are painted with the colour of the seed.

`attend_flood` says that the loop over the maps is the search of `Lib.Flood`. The law is `colorRegionSplit_spec`.
-/

namespace LeftFelt.ImageUtil

open Lib BiImage

/-! ## The code -/

/-- The variables of `colorRegionSplit`: `label_disp`, `tab`, and the stack in `unlabel_x` and `unlabel_y`. -/
structure Regions where
  labelNum : Nat
  unattendedNum : Nat
  labelDisp : OrderedMap Nat Nat
  tab : OrderedMap Nat Pixel
  unlabelX : OrderedMap Nat Int
  unlabelY : OrderedMap Nat Int

/-- The pixel at `(x, y)` comes into the region `labelNum`, and on the stack. -/
def Regions.take (image : BiImage) (s : Regions) (x y : Int) : Regions :=
  { s with
    labelDisp := s.labelDisp.insert (x + y * image.width).toNat s.labelNum
    unattendedNum := s.unattendedNum + 1
    unlabelX := s.unlabelX.insert (s.unattendedNum + 1) x
    unlabelY := s.unlabelY.insert (s.unattendedNum + 1) y }

/-- The body of the loop over `i`. -/
def lookAt (image : BiImage) (threshold mx my : Int) (s : Regions) (i : Nat) : Regions :=
  let x := mx + ((i % 3 : Nat) - 1)
  let y := my + ((i / 3 : Nat) - 1)
  if (0 ≤ x ∧ x < image.width) ∧ 0 ≤ y ∧ y < image.height then
    if s.labelDisp.getD (x + y * image.width).toNat 0 = 0 then
      if Pixel.diff (s.tab.getD s.labelNum Pixel.init) (image.get x y) > threshold then s else s.take image x y
    else s
  else s

/-- The loop `while(unattended_num > 0)`, at most `fuel` rounds of it. -/
def attend (image : BiImage) (threshold : Int) : Nat → Regions → Option Regions
  | 0, _ => none
  | fuel + 1, s =>
    if s.unattendedNum > 0 then
      attend image threshold fuel ((List.range 9).foldl
        (lookAt image threshold (s.unlabelX.getD s.unattendedNum 0) (s.unlabelY.getD s.unattendedNum 0))
        { s with unattendedNum := s.unattendedNum - 1 })
    else some s

/-- The body of the loops over the image. -/
def seedAt (fuel : Nat) (image : BiImage) (threshold : Int) (x y : Nat) (s : Regions) : Option Regions :=
  if s.labelDisp.getD (x + y * image.width) 0 > 0 then some s
  else
    attend image threshold fuel
      { labelNum := s.labelNum + 1
        unattendedNum := 1
        labelDisp := s.labelDisp.insert (x + y * image.width) (s.labelNum + 1)
        tab := s.tab.insert (s.labelNum + 1) (image.get x y)
        unlabelX := s.unlabelX.insert 1 x
        unlabelY := s.unlabelY.insert 1 y }

/-- The loops over the image. -/
def growRegions (fuel : Nat) (image : BiImage) (threshold : Int) : Option Regions :=
  forEach image.width image.height (fun x y s => s.bind (seedAt fuel image threshold x y))
    (some ⟨0, 0, OrderedMap.empty, OrderedMap.empty, OrderedMap.empty, OrderedMap.empty⟩)

/-- The last loops: every pixel is painted with the colour of its region. -/
def paintRegions (s : Regions) (image : BiImage) : BiImage :=
  forEach image.width image.height (fun x y out =>
    out.put x y (s.tab.getD (s.labelDisp.getD (x + y * image.width) 0) Pixel.init)) image

/-- `colorRegionSplit(image, threshold)`. -/
def colorRegionSplit (fuel : Nat) (image : BiImage) (threshold : Int) : Option BiImage :=
  (growRegions fuel image threshold).map fun s => paintRegions s image

/-! ## The loop and the search -/

variable {image : BiImage} {threshold : Int} {s : Regions} {t : Flood (Nat × Nat)}

/-- The region of a pixel, and 0 outside of the image. -/
def region (image : BiImage) (s : Regions) (p : Nat × Nat) : Nat :=
  if image.Inside p then s.labelDisp.getD (p.1 + p.2 * image.width) 0 else 0

/-- The neighbour number `i`, if it lies in the image. -/
def neighbourAt (image : BiImage) (p : Nat × Nat) (i : Nat) : Option (Nat × Nat) :=
  let x : Int := p.1 + ((i % 3 : Nat) - 1)
  let y : Int := p.2 + ((i / 3 : Nat) - 1)
  if (0 ≤ x ∧ x < image.width) ∧ 0 ≤ y ∧ y < image.height then some (x.toNat, y.toNat) else none

/-- The neighbours that the loop over `i` looks at, the pixel itself among them. -/
def around (image : BiImage) (p : Nat × Nat) : List (Nat × Nat) := (List.range 9).filterMap (neighbourAt image p)

/-- The pixel is like the seed. -/
def alike (image : BiImage) (threshold : Int) (seed p : Nat × Nat) : Bool :=
  Pixel.diff (image.get seed.1 seed.2) (image.get p.1 p.2) ≤ threshold

/-- The maps hold the stack, its top under the number of its elements. -/
def Stacked (x y : OrderedMap Nat Int) : List (Nat × Nat) → Prop
  | [] => True
  | p :: ps => (x.getD (ps.length + 1) 0 = p.1 ∧ y.getD (ps.length + 1) 0 = p.2) ∧ Stacked x y ps

/-- The variables of the loop show the labels and the stack of the search. -/
structure Shows (image : BiImage) (s : Regions) (t : Flood (Nat × Nat)) : Prop where
  label : t.label = region image s
  num : s.unattendedNum = t.stack.length
  stack : Stacked s.unlabelX s.unlabelY t.stack

theorem Stacked.insert {x y : OrderedMap Nat Int} {ps : List (Nat × Nat)} (h : Stacked x y ps) {k : Nat}
    (hk : ps.length < k) (a b : Int) : Stacked (x.insert k a) (y.insert k b) ps := by
  induction ps with
  | nil => trivial
  | cons p ps ih =>
    simp only [List.length_cons] at hk
    have hne : ps.length + 1 ≠ k := by omega
    refine ⟨?_, ih h.2 (by omega)⟩
    rw [OrderedMap.getD_insert, OrderedMap.getD_insert, if_neg hne, if_neg hne]
    exact h.1

/-- A pixel comes into the region. -/
theorem Shows.take (h : Shows image s t) {q : Nat × Nat} (hq : image.Inside q) :
    Shows image (s.take image q.1 q.2) ⟨Function.update t.label q s.labelNum, q :: t.stack⟩ := by
  have hkey : ((q.1 : Int) + q.2 * image.width).toNat = q.1 + q.2 * image.width := by
    rw [← Int.toNat_natCast (q.1 + q.2 * image.width)]
    push_cast
    rfl
  refine ⟨funext fun a => ?_, by simp [Regions.take, h.num], ?_⟩
  · show Function.update t.label q s.labelNum a = _
    by_cases haq : a = q
    · subst haq
      rw [Function.update_self, region, if_pos hq, Regions.take, hkey, OrderedMap.getD_insert, if_pos rfl]
    · rw [Function.update_of_ne haq, h.label, region, region]
      split_ifs with ha
      · have hne : a.1 + a.2 * image.width ≠ q.1 + q.2 * image.width := fun heq => haq (index_inj ha.1 hq.1 heq)
        rw [Regions.take, hkey, OrderedMap.getD_insert, if_neg hne]
      · rfl
  · have hnum := h.num
    refine ⟨⟨?_, ?_⟩, h.stack.insert (by omega) _ _⟩
    · rw [Regions.take, OrderedMap.getD_insert, if_pos (by omega)]
    · rw [Regions.take, OrderedMap.getD_insert, if_pos (by omega)]

/-- The region that grows now, and the colour of its seed. -/
structure Growing (image : BiImage) (n : Nat) (tab : OrderedMap Nat Pixel) (s : Regions) : Prop where
  num : s.labelNum = n
  tab : s.tab = tab

variable {n : Nat} {tab : OrderedMap Nat Pixel} {seed : Nat × Nat}

/-- **One neighbour**: it is looked at as in the search. -/
theorem lookAt_push (h : Shows image s t) (hs : Growing image n tab s)
    (hseed : tab.getD n Pixel.init = image.get seed.1 seed.2) (p : Nat × Nat) (i : Nat) :
    Growing image n tab (lookAt image threshold p.1 p.2 s i) ∧
      Shows image (lookAt image threshold p.1 p.2 s i)
        ((neighbourAt image p i).toList.foldl (Flood.push n (alike image threshold seed)) t) := by
  simp only [lookAt, neighbourAt]
  generalize (p.1 : Int) + ((i % 3 : Nat) - 1) = x
  generalize (p.2 : Int) + ((i / 3 : Nat) - 1) = y
  by_cases hin : (0 ≤ x ∧ x < image.width) ∧ 0 ≤ y ∧ y < image.height
  swap
  · rw [if_neg hin, if_neg hin]
    exact ⟨hs, h⟩
  rw [if_pos hin, if_pos hin]
  obtain ⟨a, rfl⟩ := Int.eq_ofNat_of_zero_le hin.1.1
  obtain ⟨b, rfl⟩ := Int.eq_ofNat_of_zero_le hin.2.1
  have hq : image.Inside (a, b) := ⟨Int.ofNat_lt.1 hin.1.2, Int.ofNat_lt.1 hin.2.2⟩
  have hlabel : s.labelDisp.getD ((a : Int) + b * image.width).toNat 0 = t.label (a, b) := by
    rw [h.label, region, if_pos hq, ← Int.toNat_natCast (a + b * image.width)]
    push_cast
    rfl
  have halike : Pixel.diff (s.tab.getD s.labelNum Pixel.init) (image.get a b) > threshold ↔
      ¬alike image threshold seed (a, b) = true := by
    rw [hs.num, hs.tab, hseed, alike, decide_eq_true_eq]
    exact not_le.symm
  simp only [Int.toNat_natCast, Option.toList_some, List.foldl_cons, List.foldl_nil, hlabel, halike, Flood.push]
  by_cases hzero : t.label (a, b) = 0
  · by_cases hlike : alike image threshold seed (a, b) = true
    · rw [if_pos hzero, if_neg (not_not.2 hlike), if_pos ⟨hzero, hlike⟩]
      exact ⟨⟨hs.num, hs.tab⟩, hs.num ▸ h.take hq⟩
    · rw [if_pos hzero, if_pos hlike, if_neg fun hcond => hlike hcond.2]
      exact ⟨hs, h⟩
  · rw [if_neg hzero, if_neg fun hcond => hzero hcond.1]
    exact ⟨hs, h⟩

/-- All neighbours. -/
theorem lookAround (h : Shows image s t) (hs : Growing image n tab s)
    (hseed : tab.getD n Pixel.init = image.get seed.1 seed.2) (p : Nat × Nat) (l : List Nat) :
    Growing image n tab (l.foldl (lookAt image threshold p.1 p.2) s) ∧
      Shows image (l.foldl (lookAt image threshold p.1 p.2) s)
        ((l.filterMap (neighbourAt image p)).foldl (Flood.push n (alike image threshold seed)) t) := by
  induction l generalizing s t with
  | nil => exact ⟨hs, h⟩
  | cons i l ih =>
    obtain ⟨hs', h'⟩ := lookAt_push h hs hseed p i
    have hcons : (i :: l).filterMap (neighbourAt image p) =
        (neighbourAt image p i).toList ++ l.filterMap (neighbourAt image p) := by
      cases hi : neighbourAt image p i with
      | none => simp [hi]
      | some q => simp [hi]
    rw [hcons, List.foldl_append, List.foldl_cons]
    exact ih h' hs'

/-- **The loop is the search.** -/
theorem attend_flood (fuel : Nat) (h : Shows image s t) (hs : Growing image n tab s)
    (hseed : tab.getD n Pixel.init = image.get seed.1 seed.2) {t' : Flood (Nat × Nat)}
    (hflood : Flood.flood (around image) n (alike image threshold seed) fuel t = some t') :
    ∃ s', attend image threshold fuel s = some s' ∧ Shows image s' t' ∧ Growing image n tab s' := by
  induction fuel generalizing s t with
  | zero => cases hflood
  | succ fuel ih =>
    obtain ⟨label, stack⟩ := t
    have hnum := h.num
    cases stack with
    | nil =>
      obtain rfl := Option.some.inj hflood
      rw [attend, if_neg (by rw [hnum]; exact Nat.lt_irrefl 0)]
      exact ⟨s, rfl, h, hs⟩
    | cons p ps =>
      have hstack := h.stack
      obtain ⟨⟨hx, hy⟩, hrest⟩ := hstack
      simp only [List.length_cons] at hnum
      rw [attend, if_pos (by omega), hnum, hx, hy, Nat.add_sub_cancel]
      obtain ⟨hs', h'⟩ := lookAround (s := { s with unattendedNum := ps.length })
        (t := ⟨label, ps⟩) ⟨h.label, rfl, hrest⟩ ⟨hs.num, hs.tab⟩ hseed p (List.range 9)
      exact ih h' hs' hflood

/-! ## The scan -/

/-- The first pixel of the region of `p`, in raster order: the region has its colour, and `p` is joined to it. -/
structure SeedOf (image : BiImage) (threshold : Int) (s : Regions) (seed p : Nat × Nat) : Prop where
  inside : image.Inside seed
  same : region image s seed = region image s p
  color : s.tab.getD (region image s p) Pixel.init = image.get seed.1 seed.2
  joined : PathIn Adjacent {q | region image s q = region image s p} seed p
  like : p = seed ∨ alike image threshold seed p = true
  first : ∀ q, region image s q = region image s p → q = seed ∨ RasterLt seed q

/-- **The invariant of the scan**: the pixels that have been visited belong to regions, and all regions have seeds. -/
structure Split (image : BiImage) (threshold : Int) (visited : List (Nat × Nat)) (s : Regions) : Prop where
  le : ∀ p, region image s p ≤ s.labelNum
  visited : ∀ p ∈ visited, region image s p ≠ 0
  seed : ∀ p, region image s p ≠ 0 → ∃ seed, SeedOf image threshold s seed p

theorem inside_of_region {p : Nat × Nat} (hp : region image s p ≠ 0) : image.Inside p := by
  by_contra hout
  exact hp (if_neg hout)

/-- The neighbours lie in the image, next to the pixel. -/
theorem mem_around {p q : Nat × Nat} (hq : q ∈ around image p) : image.Inside q ∧ (q ≠ p → Adjacent p q) := by
  obtain ⟨i, hi, hq⟩ := List.mem_filterMap.1 hq
  have hi9 := List.mem_range.1 hi
  simp only [neighbourAt] at hq
  split_ifs at hq with hin
  obtain rfl := Option.some.inj hq
  refine ⟨⟨by dsimp only; omega, by dsimp only; omega⟩, fun hne => ⟨Ne.symm hne, ?_⟩⟩
  simp only [Within]
  omega

/-- Seeds of old regions stay. -/
theorem SeedOf.grow {s' : Regions} {p q : Nat × Nat} (h : SeedOf image threshold s p q)
    (hle : region image s q ≤ s.labelNum) (hq : region image s q ≠ 0)
    (hold : ∀ a, region image s a ≠ 0 → region image s' a = region image s a)
    (hnew : ∀ a, region image s a = 0 → region image s' a = 0 ∨ region image s' a = s.labelNum + 1)
    (htab : s'.tab = s.tab.insert (s.labelNum + 1) (image.get seed.1 seed.2)) : SeedOf image threshold s' p q := by
  have hregion : ∀ a, region image s' a = region image s' q ↔ region image s a = region image s q := by
    intro a
    rw [hold q hq]
    by_cases ha : region image s a = 0
    · have hna := hnew a ha
      omega
    · rw [hold a ha]
  have hset : {a | region image s' a = region image s' q} = {a | region image s a = region image s q} :=
    Set.ext hregion
  refine ⟨h.inside, (hregion p).2 h.same, ?_, hset ▸ h.joined, h.like, fun a ha => h.first a ((hregion a).1 ha)⟩
  rw [hold q hq, htab, OrderedMap.getD_insert, if_neg (by omega)]
  exact h.color

/-- **A new region grows.** -/
theorem seedAt_split {visited post : List (Nat × Nat)} {p : Nat × Nat}
    (hlist : raster 0 image.width 0 image.height = visited ++ p :: post) (h : Split image threshold visited s)
    {fuel : Nat} (hfuel : image.width * image.height < fuel) :
    ∃ s', seedAt fuel image threshold p.1 p.2 s = some s' ∧ Split image threshold (visited ++ [p]) s' := by
  have hp : image.Inside p := by
    have hmem : p ∈ raster 0 image.width 0 image.height := by simp [hlist]
    simpa [Inside] using hmem
  have hregion : s.labelDisp.getD (p.1 + p.2 * image.width) 0 = region image s p := (if_pos hp).symm
  rw [seedAt, hregion]
  by_cases hdone : region image s p > 0
  · rw [if_pos hdone]
    refine ⟨s, rfl, h.le, fun q hq => ?_, h.seed⟩
    rcases List.mem_append.1 hq with hq | hq
    · exact h.visited q hq
    · rw [List.mem_singleton.1 hq]
      omega
  rw [if_neg hdone]
  have hzero : region image s p = 0 := by omega
  -- the search begins with the seed on the stack
  have hnew : ∀ q, region image s q ≠ s.labelNum + 1 := fun q hq => by
    have hle := h.le q
    omega
  have hstart : Shows image
      { labelNum := s.labelNum + 1
        unattendedNum := 1
        labelDisp := s.labelDisp.insert (p.1 + p.2 * image.width) (s.labelNum + 1)
        tab := s.tab.insert (s.labelNum + 1) (image.get p.1 p.2)
        unlabelX := s.unlabelX.insert 1 p.1
        unlabelY := s.unlabelY.insert 1 p.2 } ⟨Function.update (region image s) p (s.labelNum + 1), [p]⟩ := by
    have htake := Shows.take (s := { s with labelNum := s.labelNum + 1, unattendedNum := 0 })
      (t := ⟨region image s, []⟩) ⟨rfl, rfl, trivial⟩ hp
    exact ⟨htake.label, rfl, htake.stack⟩
  have htodo : Flood.todo (raster 0 image.width 0 image.height)
      ⟨Function.update (region image s) p (s.labelNum + 1), [p]⟩ < fuel := by
    have hmem : p ∈ raster 0 image.width 0 image.height := by simp [hlist]
    have hpush : Flood.todo _ (Flood.push (s.labelNum + 1) (fun _ => true) ⟨region image s, []⟩ p) ≤ _ :=
      Flood.todo_push (Nat.add_one_ne_zero s.labelNum) hmem
    rw [Flood.push, if_pos ⟨hzero, rfl⟩] at hpush
    have hcount := List.countP_le_length (p := fun q => region image s q = 0) (l := raster 0 image.width 0 image.height)
    have hlength := congrArg List.length (raster_index image.width image.height)
    rw [List.length_map, List.length_range] at hlength
    simp only [Flood.todo, List.length_nil] at hpush ⊢
    omega
  have hgrow : Flood.Grows Adjacent (s.labelNum + 1) (alike image threshold p) p (region image s) _ :=
    Flood.Grows.start hnew hzero
  have hcells : ∀ a, ∀ b ∈ around image a, b ∈ raster 0 image.width 0 image.height := fun a b hb => by
    simpa [Inside] using (mem_around hb).1
  obtain ⟨t, hflood, hgrows⟩ :=
    Flood.flood_spec (Nat.succ_ne_zero _) (fun a b hb => (mem_around hb).2) hcells fuel hgrow htodo
  obtain ⟨s', hrun, hshows, hgrowing⟩ := attend_flood fuel hstart ⟨rfl, rfl⟩
    (by rw [OrderedMap.getD_insert, if_pos rfl]) hflood
  refine ⟨s', hrun, ?_⟩
  have hnum : s'.labelNum = s.labelNum + 1 := hgrowing.num
  have hlabel : ∀ q, t.label q = region image s' q := fun q => congrFun hshows.label q
  have hold : ∀ q, region image s q ≠ 0 → region image s' q = region image s q := fun q hq =>
    (hlabel q).symm.trans (hgrows.old q hq)
  have hadded : ∀ q, region image s q = 0 → region image s' q = 0 ∨ region image s' q = s.labelNum + 1 := by
    intro q hq
    rw [← hlabel q]
    exact hgrows.new q hq
  refine ⟨fun q => ?_, fun q hq => ?_, fun q hq => ?_⟩
  · have hle := h.le q
    rw [hnum]
    by_cases hqz : region image s q = 0
    · have hcase := hadded q hqz
      omega
    · rw [hold q hqz]
      omega
  · rcases List.mem_append.1 hq with hq | hq
    · rw [hold q (h.visited q hq)]
      exact h.visited q hq
    · rw [List.mem_singleton.1 hq, ← hlabel p, hgrows.root]
      exact Nat.succ_ne_zero _
  · by_cases hqz : region image s q = 0
    · have hq' : region image s' q = s.labelNum + 1 := (hadded q hqz).resolve_left hq
      have hqt : t.label q = s.labelNum + 1 := (hlabel q).trans hq'
      refine ⟨p, hp, ?_, ?_, ?_, hgrows.accepted q hqt, fun a ha => ?_⟩
      · rw [← hlabel p, hgrows.root, hq']
      · rw [hgrowing.tab, hq', OrderedMap.getD_insert, if_pos rfl]
      · have hset : {a | region image s' a = region image s' q} = {a | t.label a = s.labelNum + 1} :=
          Set.ext fun a => by rw [Set.mem_ofPred_eq, Set.mem_ofPred_eq, hlabel a, hq']
        rw [hset]
        exact hgrows.joined q hqt
      · -- the pixels before the seed belong to older regions
        have hnot : a ∉ visited := by
          intro hav
          have hle := h.le a
          rw [hold a (h.visited a hav), hq'] at ha
          omega
        have hin : a ∈ raster 0 image.width 0 image.height := by
          simpa [Inside] using inside_of_region (show region image s' a ≠ 0 by omega)
        have hsorted := raster_pairwise 0 image.width 0 image.height
        rw [hlist, List.pairwise_append, List.pairwise_cons] at hsorted
        rw [hlist, List.mem_append, List.mem_cons] at hin
        rcases hin with hin | rfl | hin
        · exact absurd hin hnot
        · exact Or.inl rfl
        · exact Or.inr (hsorted.2.1.1 a hin)
    · obtain ⟨seed, hseed⟩ := h.seed q hqz
      exact ⟨seed, hseed.grow (h.le q) hqz hold hadded hgrowing.tab⟩

/-- **The whole scan.** -/
theorem growRegions_split (image : BiImage) (threshold : Int) {fuel : Nat} (hfuel : image.width * image.height < fuel) :
    ∃ s, growRegions fuel image threshold = some s ∧
      Split image threshold (raster 0 image.width 0 image.height) s := by
  rw [growRegions, forEach_eq]
  refine foldl_scan (fun visited o => ∃ s, o = some s ∧ Split image threshold visited s) ⟨_, rfl, ?_⟩ ?_
  · have hzero : ∀ p, region image ⟨0, 0, OrderedMap.empty, OrderedMap.empty, OrderedMap.empty, OrderedMap.empty⟩ p =
        0 := by
      intro p
      rw [region]
      split_ifs
      · rfl
      · rfl
    exact ⟨fun p => (hzero p).le, fun p hp => absurd hp List.not_mem_nil, fun p hp => absurd (hzero p) hp⟩
  · rintro visited p post _ hlist ⟨s, rfl, hs⟩
    exact seedAt_split hlist hs hfuel

/-- The picture afterwards: every pixel has the colour of its seed. -/
theorem get_paintRegions {p seed : Nat × Nat} (hp : image.Inside p) (hseed : SeedOf image threshold s seed p) :
    (paintRegions s image).get p.1 p.2 = image.get seed.1 seed.2 := by
  obtain ⟨hfr, hpx⟩ := forEach_put (fun x y => s.tab.getD (s.labelDisp.getD (x + y * image.width) 0) Pixel.init) image
  have hregion : s.labelDisp.getD (p.1 + p.2 * image.width) 0 = region image s p := (if_pos hp).symm
  have hcolor := hpx p hp
  rw [hregion, hseed.color] at hcolor
  rw [paintRegions, get_inside (hfr.inside.2 hp), hcolor, hfr.clear]
  exact get_get image _ _

/-- **The law of the regions**: the split ends, every pixel belongs to one region, the regions are connected, and every
pixel gets the colour of its seed, the first pixel of its region, which differs from its own by at most the
threshold. -/
theorem colorRegionSplit_spec (image : BiImage) {threshold : Int} (hthreshold : 0 ≤ threshold) {fuel : Nat}
    (hfuel : image.width * image.height < fuel) :
    ∃ s out, growRegions fuel image threshold = some s ∧ colorRegionSplit fuel image threshold = some out ∧
      SameFrame out image ∧
      (∀ p, image.Inside p → region image s p ≠ 0) ∧
      (∀ p q, image.Inside p → image.Inside q → region image s p = region image s q →
        PathIn Adjacent {a | image.Inside a ∧ region image s a = region image s p} p q) ∧
      ∀ p, image.Inside p → ∃ seed, image.Inside seed ∧ region image s seed = region image s p ∧
        (∀ q, image.Inside q → region image s q = region image s p → q = seed ∨ RasterLt seed q) ∧
        out.get p.1 p.2 = image.get seed.1 seed.2 ∧
        Pixel.diff (out.get p.1 p.2) (image.get p.1 p.2) ≤ threshold := by
  obtain ⟨s, hrun, hs⟩ := growRegions_split image threshold hfuel
  have hdone : ∀ p, image.Inside p → region image s p ≠ 0 := fun p hp => hs.visited p (by simpa [Inside] using hp)
  refine ⟨s, paintRegions s image, hrun, by rw [colorRegionSplit, hrun]; rfl, (forEach_put _ image).1, hdone, ?_, ?_⟩
  · intro p q hp hq hpq
    have hset : {a | region image s a = region image s p} ⊆
        {a | image.Inside a ∧ region image s a = region image s p} := by
      intro a ha
      refine ⟨inside_of_region (s := s) ?_, ha⟩
      rw [show region image s a = region image s p from ha]
      exact hdone p hp
    obtain ⟨seed, hseed⟩ := hs.seed p (hdone p hp)
    obtain ⟨seed', hseed'⟩ := hs.seed q (hdone q hq)
    -- the region has one first pixel
    have hsame : seed' = seed := by
      rcases hseed.first seed' (hseed'.same.trans hpq.symm) with heq | hlt
      · exact heq
      · rcases hseed'.first seed (hseed.same.trans hpq) with heq | hlt'
        · exact heq.symm
        · exact absurd (hlt.trans hlt') (RasterLt.irrefl seed)
    have hq' := hseed'.joined
    rw [hsame, ← hpq] at hq'
    exact ((hseed.joined.symm fun _ _ _ _ hab => hab.symm).trans hq').mono hset
  · intro p hp
    obtain ⟨seed, hseed⟩ := hs.seed p (hdone p hp)
    have hget := get_paintRegions hp hseed
    refine ⟨seed, hseed.inside, hseed.same, fun q _ hq => hseed.first q hq, hget, ?_⟩
    rw [hget]
    rcases hseed.like with rfl | hlike
    · simpa [Pixel.diff] using hthreshold
    · simpa [alike] using hlike

/-- Two dark pixels and a white one. -/
def shades : BiImage := ofFn 3 1 three_fits one_fits fun x _ =>
  if x = 0 then Pixel.gray 0 else if x = 1 then Pixel.gray 5 else Pixel.gray 255

/-- The second pixel gets the colour of the first one, and the third one keeps its own. -/
theorem colorRegionSplit_shades : ∃ s out, growRegions 4 shades 30 = some s ∧
    colorRegionSplit 4 shades 30 = some out ∧ (∀ p, shades.Inside p → region shades s p ≠ 0) ∧
      out.get 1 0 = Pixel.gray 0 ∧ out.get 2 0 = Pixel.gray 255 := by
  obtain ⟨s, out, hrun, hsplit, -, hdone, -⟩ :=
    colorRegionSplit_spec shades (show (0 : Int) ≤ 30 by decide) (show 3 * 1 < 4 by decide)
  have hcolors : (colorRegionSplit 4 shades 30).map (fun out => (out.get 1 0, out.get 2 0)) =
      some (Pixel.gray 0, Pixel.gray 255) := by decide +kernel
  rw [hsplit, Option.map_some, Option.some_inj, Prod.mk.injEq] at hcolors
  exact ⟨s, out, hrun, hsplit, hdone, hcolors⟩

end LeftFelt.ImageUtil
