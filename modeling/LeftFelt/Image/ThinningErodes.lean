import LeftFelt.Image.Thinning

/-!
# Thinning only erodes

What `Thinning` does to a binary image, whatever its masks are: no pixel becomes white, the border stays, and every
deletion is counted once (`Eroded`), since a mask reads `image`, which has its matches until all of them are deleted
from `temp`. The last round deletes nothing, and so no mask matches what is left (`Stable`): a second call changes
nothing (`thinning_erodes`).
-/

namespace LeftFelt.ImageUtil

open Lib BiImage

variable {w h : Nat} {image : BiImage} {mask : List Int} {l : List (List Int)} {s t : Thinner}

/-- A cell that is not at the border. -/
def Inner (p : Cell w h) : Prop := (1 ≤ p.1.1 ∧ p.1.1 < w - 1) ∧ 1 ≤ p.1.2 ∧ p.1.2 < h - 1

/-- No mask matches. -/
def Stable (w h : Nat) (l : List (List Int)) (image : BiImage) : Prop :=
  ∀ mask ∈ l, ∀ p : Cell w h, ¬Deleted image mask p

/-! ## Counting -/

/-- The loops over the pixels count their deletions. -/
theorem count_thinPixels (mask : List Int) (s : Thinner) (l : List (Nat × Nat)) :
    (l.foldl (fun s p => thinPixel mask p.1 p.2 s) s).count = s.count + l.countP (thins s.image mask) := by
  induction l generalizing s with
  | nil => rfl
  | cons p l ih =>
    have himage : (thinPixel mask p.1 p.2 s).image = s.image := by
      unfold thinPixel
      split_ifs <;> rfl
    have hcount : (thinPixel mask p.1 p.2 s).count = s.count + if thins s.image mask p then 1 else 0 := by
      unfold thinPixel thins
      by_cases hblack : (s.image.get p.1 p.2).eq (Pixel.gray 0) = true
      · simp [hblack]
      · by_cases hmatch : matchesMask s.image mask p.1 p.2 = true
        · simp [hblack, hmatch]
        · simp [hblack, hmatch]
    rw [List.foldl_cons, ih, himage, hcount, List.countP_cons]
    omega

/-- As many pixels are deleted as the loops count. -/
theorem ncard_deleted (hb : Binary w h image) (mask : List Int) :
    {p : Cell w h | Deleted image mask p}.ncard = (raster 1 (w - 1) 1 (h - 1)).countP (thins image mask) := by
  have himage : Subtype.val '' {p : Cell w h | Deleted image mask p} =
      (((raster 1 (w - 1) 1 (h - 1)).filter (thins image mask)).toFinset : Set (Nat × Nat)) := by
    ext q
    simp only [Set.mem_image, List.coe_toFinset, List.mem_filter]
    constructor
    · rintro ⟨p, hp, rfl⟩
      exact (deleted_iff hb).1 hp
    · intro hq
      have hin := mem_raster.1 hq.1
      exact ⟨⟨q, by omega⟩, (deleted_iff hb).2 hq, rfl⟩
  rw [← Set.ncard_image_of_injective _ Subtype.val_injective, himage, Set.ncard_coe_finset,
    List.toFinset_card_of_nodup ((raster_nodup _ _ _ _).filter _), List.countP_eq_length_filter]

theorem count_applyMask (hs : Synced w h s) (mask : List Int) :
    (applyMask s mask).count = s.count + {p : Cell w h | Deleted s.image mask p}.ncard := by
  rw [ncard_deleted hs.binary, ← count_thinPixels, applyMask, forLoop_forLoop, hs.binary.width, hs.binary.height]

/-! ## Erosion -/

/-- **Erosion** from one state to a later one: some inner pixels have been deleted, each of them once. -/
structure Eroded (w h : Nat) (s t : Thinner) : Prop where
  synced : Synced w h t
  subset : (white t.image : Set (Cell w h)) ⊆ white s.image
  border : ∀ p : Cell w h, ¬Inner p → p ∈ (white s.image : Set (Cell w h)) → p ∈ (white t.image : Set (Cell w h))
  count : t.count + (white t.image : Set (Cell w h)).ncard = s.count + (white s.image : Set (Cell w h)).ncard

theorem Eroded.refl (hs : Synced w h s) : Eroded w h s s := ⟨hs, subset_rfl, fun _ _ hp => hp, rfl⟩

theorem Eroded.trans {u : Thinner} (hst : Eroded w h s t) (htu : Eroded w h t u) : Eroded w h s u :=
  ⟨htu.synced, htu.subset.trans hst.subset, fun p hp hwhite => htu.border p hp (hst.border p hp hwhite),
    htu.count.trans hst.count⟩

/-- One mask erodes. -/
theorem applyMask_eroded (hs : Synced w h s) (mask : List Int) : Eroded w h s (applyMask s mask) := by
  obtain ⟨hsynced, hwhite, -⟩ := applyMask_spec hs mask
  have hsub : (kept s.image mask : Set (Cell w h)) ⊆ white s.image := fun p hp => hp.1
  have hdiff : (white s.image : Set (Cell w h)) \ kept s.image mask = {p | Deleted s.image mask p} := by
    ext p
    simp only [kept, Set.mem_sdiff, Set.mem_ofPred_eq, not_and, not_not]
    exact ⟨fun hp => hp.2 hp.1, fun hp => ⟨hp.2.1, fun _ => hp⟩⟩
  refine ⟨hsynced, hwhite ▸ hsub, fun p hp hmem => ?_, ?_⟩
  · rw [hwhite]
    exact ⟨hmem, fun hdel => hp hdel.1⟩
  · have hcard := Set.ncard_sdiff_add_ncard_of_subset hsub
    rw [hdiff] at hcard
    rw [hwhite, count_applyMask hs, Nat.add_assoc, hcard]

/-- Some masks in a row erode. -/
theorem applyMasks_eroded (hs : Synced w h s) (l : List (List Int)) : Eroded w h s (l.foldl applyMask s) := by
  induction l generalizing s with
  | nil => exact Eroded.refl hs
  | cons mask l ih =>
    have hmask := applyMask_eroded hs mask
    exact hmask.trans (ih hmask.synced)

theorem thinRound_eroded (hs : Synced w h s) : Eroded w h s (thinRound s) := by
  have hround := applyMasks_eroded (s := { s with continueFlag := false }) ⟨hs.binary, hs.frame, hs.same⟩ masks
  exact ⟨hround.synced, hround.subset, hround.border, hround.count⟩

/-! ## What no mask matches -/

/-- A mask looks at cells only. -/
theorem matchesMask_congr {a b : BiImage} (hget : ∀ p : Cell w h, a.get p.1.1 p.1.2 = b.get p.1.1 p.1.2)
    {p : Cell w h} (hp : Inner p) : matchesMask a mask p.1.1 p.1.2 = matchesMask b mask p.1.1 p.1.2 := by
  unfold matchesMask
  rw [Bool.eq_iff_iff, List.all_eq_true, List.all_eq_true]
  refine forall₂_congr fun k hk => ?_
  have hk9 := List.mem_range.1 hk
  have hx : ((p.1.1 + k % 3 - 1 : Nat) : Int) = p.1.1 + (k % 3 : Nat) - 1 := by have := hp.1; omega
  have hy : ((p.1.2 + k / 3 - 1 : Nat) : Int) = p.1.2 + (k / 3 : Nat) - 1 := by have := hp.2; omega
  have hcell : a.get (p.1.1 + k % 3 - 1 : Nat) (p.1.2 + k / 3 - 1 : Nat) =
      b.get (p.1.1 + k % 3 - 1 : Nat) (p.1.2 + k / 3 - 1 : Nat) := hget (neighbour p hp ⟨k, hk9⟩)
  rw [← hx, ← hy, hcell]

theorem deleted_congr {a b : BiImage} (hget : ∀ p : Cell w h, a.get p.1.1 p.1.2 = b.get p.1.1 p.1.2) {p : Cell w h} :
    Deleted a mask p ↔ Deleted b mask p := by
  unfold Deleted
  refine and_congr_right fun hp => ?_
  rw [hget p, matchesMask_congr hget hp]

/-- Nothing is deleted, nothing changes. -/
theorem get_applyMask (hs : Synced w h s) (hnone : ∀ p : Cell w h, ¬Deleted s.image mask p) (p : Cell w h) :
    (applyMask s mask).image.get p.1.1 p.1.2 = s.image.get p.1.1 p.1.2 := by
  obtain ⟨hsynced, hwhite, -⟩ := applyMask_spec hs mask
  refine (white_eq_iff hsynced.binary hs.binary).1 ?_ p
  rw [hwhite]
  exact Set.ext fun q => ⟨fun hq => hq.1, fun hq => ⟨hq, hnone q⟩⟩

/-- **If the flag stays down, no mask matches**, neither before nor afterwards. -/
theorem stable_of_flag (hs : Synced w h s) (hflag : (l.foldl applyMask s).continueFlag = false) :
    s.continueFlag = false ∧ Stable w h l s.image ∧
      ∀ p : Cell w h, (l.foldl applyMask s).image.get p.1.1 p.1.2 = s.image.get p.1.1 p.1.2 := by
  induction l generalizing s with
  | nil => exact ⟨hflag, fun mask hmask => absurd hmask List.not_mem_nil, fun p => rfl⟩
  | cons mask l ih =>
    obtain ⟨hsynced, -, hup⟩ := applyMask_spec hs mask
    obtain ⟨hdown, hstable, hget⟩ := ih hsynced hflag
    rw [← Bool.not_eq_true, hup, not_or, not_exists, Bool.not_eq_true] at hdown
    have hsame := get_applyMask hs hdown.2
    refine ⟨hdown.1, fun m hm p => ?_, fun p => (hget p).trans (hsame p)⟩
    rcases List.mem_cons.1 hm with rfl | hm
    · exact hdown.2 p
    · exact mt (deleted_congr hsame).2 (hstable m hm p)

/-- **If no mask matches, nothing happens.** -/
theorem applyMasks_of_stable (hs : Synced w h s) (hstable : Stable w h l s.image) :
    (l.foldl applyMask s).continueFlag = s.continueFlag ∧ (l.foldl applyMask s).count = s.count ∧
      ∀ p : Cell w h, (l.foldl applyMask s).image.get p.1.1 p.1.2 = s.image.get p.1.1 p.1.2 := by
  induction l generalizing s with
  | nil => exact ⟨rfl, rfl, fun p => rfl⟩
  | cons mask l ih =>
    obtain ⟨hsynced, -, hup⟩ := applyMask_spec hs mask
    have hnone : ∀ p : Cell w h, ¬Deleted s.image mask p := hstable mask List.mem_cons_self
    have hsame := get_applyMask hs hnone
    have hcount : (applyMask s mask).count = s.count := by
      have hempty : {p : Cell w h | Deleted s.image mask p} = ∅ := Set.eq_empty_of_forall_notMem hnone
      rw [count_applyMask hs, hempty, Set.ncard_empty, Nat.add_zero]
    have hflag : (applyMask s mask).continueFlag = s.continueFlag := by
      rw [Bool.eq_iff_iff, hup]
      exact or_iff_left fun hex => hnone _ hex.choose_spec
    obtain ⟨hdown, hcount', hget⟩ := ih hsynced fun m hm p =>
      mt (deleted_congr hsame).1 (hstable m (List.mem_cons_of_mem _ hm) p)
    exact ⟨hdown.trans hflag, hcount'.trans hcount, fun p => (hget p).trans (hsame p)⟩

/-- The loop erodes, and no mask matches what it leaves. -/
theorem thinningLoop_eroded (fuel : Nat) (hs : Synced w h s) (hrun : thinningLoop fuel s = some t) :
    Eroded w h s t ∧ Stable w h masks t.image := by
  induction fuel generalizing s with
  | zero => cases hrun
  | succ fuel ih =>
    have hround := thinRound_eroded hs
    simp only [thinningLoop] at hrun
    split_ifs at hrun with hup
    · obtain ⟨heroded, hstable⟩ := ih hround.synced hrun
      exact ⟨hround.trans heroded, hstable⟩
    · obtain rfl := Option.some.inj hrun
      obtain ⟨-, hstable, hget⟩ := stable_of_flag (s := { s with continueFlag := false }) (l := masks)
        ⟨hs.binary, hs.frame, hs.same⟩ (Bool.not_eq_true _ ▸ hup)
      exact ⟨hround, fun mask hmask p => mt (deleted_congr hget).1 (hstable mask hmask p)⟩

/-- One round is enough then. -/
theorem thinningLoop_of_stable (fuel : Nat) (hs : Synced w h s) (hstable : Stable w h masks s.image) :
    ∃ t, thinningLoop (fuel + 1) s = some t ∧ t.count = s.count ∧ Synced w h t ∧
      ∀ p : Cell w h, t.image.get p.1.1 p.1.2 = s.image.get p.1.1 p.1.2 := by
  have hs' : Synced w h { s with continueFlag := false } := ⟨hs.binary, hs.frame, hs.same⟩
  obtain ⟨hflag, hcount, hget⟩ := applyMasks_of_stable hs' hstable
  refine ⟨thinRound s, ?_, hcount, (thinRound_eroded hs).synced, hget⟩
  simp only [thinningLoop]
  exact if_neg (by rw [thinRound, hflag]; exact Bool.false_ne_true)

/-! ## The law -/

/-- The state that `Thinning` starts with. -/
theorem synced_start (hb : Binary w h image) :
    Synced w h ⟨image, (create 0 0 (by decide) (by decide)).assign image, 0, true⟩ :=
  ⟨hb, sameFrame_assign _ image, fun _ hp => px_assign _ hp⟩

/-- **Thinning ends and only erodes**: no pixel becomes white, the border stays, the count is the number of white pixels
that became black, and a second call returns 0 and changes nothing. -/
theorem thinning_erodes (hb : Binary w h image) {fuel : Nat} (hfuel : w * h < fuel) :
    ∃ count out, thinning fuel image = some (count, out) ∧ Binary w h out ∧
      (white out : Set (Cell w h)) ⊆ white image ∧
      (∀ p : Cell w h, ¬Inner p → out.get p.1.1 p.1.2 = image.get p.1.1 p.1.2) ∧
      count = ((white image : Set (Cell w h)) \ white out).ncard ∧
      ∃ again, thinning fuel out = some (0, again) ∧ SameFrame again out ∧
        ∀ p : Cell w h, again.px p.1 = out.px p.1 := by
  have hcells : (white image : Set (Cell w h)).ncard < fuel := (ncard_cells_le _).trans_lt hfuel
  obtain ⟨t, hrun, -, -⟩ := thinningLoop_spec fuel (synced_start hb) hcells
  obtain ⟨heroded, hstable⟩ := thinningLoop_eroded fuel (synced_start hb) hrun
  have hb' := heroded.synced.binary
  obtain ⟨u, hrun', hcount, hu, hget⟩ := thinningLoop_of_stable (fuel - 1) (synced_start hb') hstable
  rw [Nat.sub_add_cancel (by omega : 1 ≤ fuel)] at hrun'
  refine ⟨t.count, t.image, by rw [thinning, hrun]; rfl, hb', heroded.subset, fun p hp => ?_, ?_, u.image, ?_,
    hu.binary.sameFrame hb', fun p => ?_⟩
  · exact hb'.get_eq_of_white_iff hb ⟨fun hmem => heroded.subset hmem, heroded.border p hp⟩
  · have hcard : ((white image : Set (Cell w h)) \ white t.image).ncard + (white t.image : Set (Cell w h)).ncard =
        (white image : Set (Cell w h)).ncard := Set.ncard_sdiff_add_ncard_of_subset heroded.subset
    have htotal : t.count + (white t.image : Set (Cell w h)).ncard = 0 + (white image : Set (Cell w h)).ncard :=
      heroded.count
    omega
  · rw [thinning, hrun', Option.map_some, hcount]
  · rw [hu.binary.px_eq, hb'.px_eq, hget]

/-- Thinning a white 3 × 3 square. -/
theorem thinning_erodes_square : ∃ count out,
    thinning 10 (ofFn 3 3 (by decide) (by decide) fun _ _ => Pixel.gray 255) = some (count, out) ∧
      ∃ again, thinning 10 out = some (0, again) := by
  obtain ⟨count, out, hrun, -, -, -, -, again, hagain, -, -⟩ :=
    thinning_erodes (binary_ofFn (w := 3) (h := 3) (by decide) (by decide) (v := fun _ _ => Pixel.gray 255)
      fun _ _ => Or.inr rfl) (show 3 * 3 < 10 by decide)
  exact ⟨count, out, hrun, again, hagain⟩

end LeftFelt.ImageUtil
