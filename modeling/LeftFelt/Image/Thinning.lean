import LeftFelt.Image.Binary
import LeftFelt.Lib.PathIn

/-!
# Thinning

`ImageUtil::Thinning` deletes the white pixels that match a mask, mask by mask, and starts over until a round deletes
nothing. A mask reads `image` and writes `temp`, so that all its matches are deleted at once.

Whether this keeps the connected parts is a matter of the masks alone: each has two keepers (`Keeps`), neighbours
that must be white and that cannot match the same mask, since the pixel they are seen from would have to be black. The
keepers take over the deleted pixel (`takesOver`), so one mask keeps the connected parts
(`applyMask_spec`), and so do a round and the whole loop. Every round but the last deletes a pixel, which is why
the loop ends (`thinningLoop_spec`).
-/

namespace LeftFelt.ImageUtil

open Lib BiImage

/-! ## The code -/

/-- `mask`, without the row `{-2}` that marks its end; -1 is the wildcard. -/
def masks : List (List Int) :=
  [[ 0,  0, -1,
     0,  1,  1,
    -1,  1, -1],
   [ 0,  0,  0,
    -1,  1, -1,
     1,  1, -1],
   [-1,  0,  0,
     1,  1,  0,
    -1,  1, -1],
   [ 1, -1,  0,
     1,  1,  0,
    -1, -1,  0],
   [-1,  1, -1,
     1,  1,  0,
    -1,  0,  0],
   [-1,  1,  1,
    -1,  1, -1,
     0,  0,  0],
   [-1,  1, -1,
     0,  1,  1,
     0,  0, -1],
   [ 0, -1, -1,
     0,  1,  1,
     0, -1,  1]]

/-- The loop over `k` reaches 9: no entry of the mask but wildcards differs from the image. -/
def matchesMask (image : BiImage) (mask : List Int) (i j : Nat) : Bool :=
  (List.range 9).all fun k : Nat => mask.getD k (-1) == -1 ||
    (image.get (i + (k % 3 : Nat) - 1) (j + (k / 3 : Nat) - 1)).eq (Pixel.gray (UInt8.ofInt (mask.getD k (-1) * 255)))

/-- The variables of `Thinning`. -/
structure Thinner where
  image : BiImage
  temp : BiImage
  count : Nat
  continueFlag : Bool

/-- The body of the loops over the pixels. -/
def thinPixel (mask : List Int) (i j : Nat) (s : Thinner) : Thinner :=
  if (s.image.get i j).eq (Pixel.gray 0) then s
  else if matchesMask s.image mask i j then
    { s with temp := s.temp.put i j (Pixel.gray 0), count := s.count + 1, continueFlag := true }
  else s

/-- One mask: the inner pixels, then `image = temp`. -/
def applyMask (s : Thinner) (mask : List Int) : Thinner :=
  let s := forLoop 1 (s.image.height - 1) (fun j => forLoop 1 (s.image.width - 1) fun i => thinPixel mask i j) s
  { s with image := s.image.assign s.temp }

/-- The body of the outer loop. -/
def thinRound (s : Thinner) : Thinner := masks.foldl applyMask { s with continueFlag := false }

/-- The outer loop, for at most `fuel` rounds. -/
def thinningLoop : Nat → Thinner → Option Thinner
  | 0, _ => none
  | fuel + 1, s =>
    let s := thinRound s
    if s.continueFlag then thinningLoop fuel s else some s

/-- `Thinning(image)`: the number of deletions, and the image. -/
def thinning (fuel : Nat) (image : BiImage) : Option (Nat × BiImage) :=
  (thinningLoop fuel ⟨image, (create 0 0 (by decide) (by decide)).assign image, 0, true⟩).map fun s =>
    (s.count, s.image)

/-! ## The masks -/

/-- The entries `k` and `l` of a mask are the same or next to each other. -/
def Beside (k l : Fin 9) : Prop :=
  (k.1 % 3 ≤ l.1 % 3 + 1 ∧ l.1 % 3 ≤ k.1 % 3 + 1) ∧ k.1 / 3 ≤ l.1 / 3 + 1 ∧ l.1 / 3 ≤ k.1 / 3 + 1

instance (k l : Fin 9) : Decidable (Beside k l) := inferInstanceAs (Decidable (_ ∧ _))

/-- The entry of a mask, -1 beyond its end. -/
def entry (mask : List Int) (k : Fin 9) : Int := mask.getD k.1 (-1)

/-- The entry `e` must be white, and a pixel there does not match the mask: it would see the centre as black. -/
def Keeper (mask : List Int) (e : Fin 9) : Prop := e ≠ 4 ∧ entry mask e = 1 ∧ entry mask (Fin.rev e) = 0

instance (mask : List Int) (e : Fin 9) : Decidable (Keeper mask e) := inferInstanceAs (Decidable (_ ∧ _))

/-- **The masks**: each has two keepers beside each other, and every other entry that may be white is beside one of
them. -/
theorem masks_keepers : ∀ mask ∈ masks, ∃ e f, Keeper mask e ∧ Keeper mask f ∧ Beside e f ∧
    ∀ k, k ≠ 4 → entry mask k = 0 ∨ Beside k e ∨ Beside k f := by
  decide

/-! ## One mask -/

variable {w h : Nat} {image : BiImage} {mask : List Int}

/-- The loops delete the pixel: it is not at the border, white, and matches the mask. -/
def Deleted (image : BiImage) (mask : List Int) (p : Cell w h) : Prop :=
  ((1 ≤ p.1.1 ∧ p.1.1 < w - 1) ∧ 1 ≤ p.1.2 ∧ p.1.2 < h - 1) ∧ image.get p.1.1 p.1.2 = Pixel.gray 255 ∧
    matchesMask image mask p.1.1 p.1.2 = true

/-- The cell that the entry `k` of a mask looks at. -/
def neighbour (p : Cell w h) (hp : (1 ≤ p.1.1 ∧ p.1.1 < w - 1) ∧ 1 ≤ p.1.2 ∧ p.1.2 < h - 1) (k : Fin 9) : Cell w h :=
  ⟨(p.1.1 + k.1 % 3 - 1, p.1.2 + k.1 / 3 - 1), by have := k.2; show _ - 1 < w ∧ _ - 1 < h; omega⟩

/-- A pixel that matches has the colour of every entry of the mask that is not a wildcard. -/
theorem Deleted.entry_eq (hb : Binary w h image) {p : Cell w h} (hd : Deleted image mask p) (k : Fin 9)
    (hk : entry mask k ≠ -1) :
    image.get (neighbour p hd.1 k).1.1 (neighbour p hd.1 k).1.2 = Pixel.gray (UInt8.ofInt (entry mask k * 255)) := by
  have hmatch := List.all_eq_true.1 hd.2.2 k.1 (List.mem_range.2 k.2)
  rw [Bool.or_eq_true, beq_iff_eq] at hmatch
  have heq := hmatch.resolve_left hk
  have hx : ((neighbour p hd.1 k).1.1 : Int) = p.1.1 + (k.1 % 3 : Nat) - 1 := by
    have := hd.1
    show ((p.1.1 + k.1 % 3 - 1 : Nat) : Int) = _
    omega
  have hy : ((neighbour p hd.1 k).1.2 : Int) = p.1.2 + (k.1 / 3 : Nat) - 1 := by
    have := hd.1
    show ((p.1.2 + k.1 / 3 - 1 : Nat) : Int) = _
    omega
  rw [← hx, ← hy, Pixel.eq_iff] at heq
  rcases hb.pixels (neighbour p hd.1 k) with hg | hg
  · rw [hg] at heq ⊢
    exact gray_inj.2 heq.2.1
  · rw [hg] at heq ⊢
    exact gray_inj.2 heq.2.1

theorem Deleted.entry_one (hb : Binary w h image) {p : Cell w h} (hd : Deleted image mask p) {k : Fin 9}
    (hk : entry mask k = 1) : neighbour p hd.1 k ∈ (white image : Set (Cell w h)) := by
  have heq := hd.entry_eq hb k (by rw [hk]; decide)
  rw [hk] at heq
  exact heq

theorem Deleted.entry_zero (hb : Binary w h image) {p : Cell w h} (hd : Deleted image mask p) {k : Fin 9}
    (hk : entry mask k = 0) : neighbour p hd.1 k ∉ (white image : Set (Cell w h)) := by
  have heq := hd.entry_eq hb k (by rw [hk]; decide)
  rw [hk] at heq
  intro hmem
  have hmem' : image.get _ _ = Pixel.gray 255 := hmem
  rw [hmem'] at heq
  exact absurd (gray_inj.1 heq) (by decide)

/-- What is left of the white pixels. -/
def kept (image : BiImage) (mask : List Int) : Set (Cell w h) := {p | p ∈ white image ∧ ¬Deleted image mask p}

/-- A keeper is kept. -/
theorem Deleted.keeper (hb : Binary w h image) {p : Cell w h} (hd : Deleted image mask p) {e : Fin 9}
    (he : Keeper mask e) : neighbour p hd.1 e ∈ kept image mask ∧ CellAdjacent p (neighbour p hd.1 e) := by
  obtain ⟨hcentre, hone, hzero⟩ := he
  have hp := hd.1
  have he9 := e.2
  refine ⟨⟨hd.entry_one hb hone, fun hd' => hd'.entry_zero hb hzero ?_⟩, ?_, ?_⟩
  · -- seen from the keeper, the opposite entry of the mask is the deleted pixel
    have hback : neighbour (neighbour p hd.1 e) hd'.1 e.rev = p := by
      apply Subtype.ext
      refine Prod.ext ?_ ?_
      · show p.1.1 + e.1 % 3 - 1 + (9 - (e.1 + 1)) % 3 - 1 = p.1.1
        omega
      · show p.1.2 + e.1 / 3 - 1 + (9 - (e.1 + 1)) / 3 - 1 = p.1.2
        omega
    rw [hback]
    exact hd.2.1
  · intro heq
    have hx : p.1.1 = p.1.1 + e.1 % 3 - 1 := congrArg Prod.fst heq
    have hy : p.1.2 = p.1.2 + e.1 / 3 - 1 := congrArg Prod.snd heq
    exact hcentre (Fin.ext (by show e.1 = 4; omega))
  · show (p.1.1 + e.1 % 3 - 1 ≤ p.1.1 + 1 ∧ p.1.1 ≤ p.1.1 + e.1 % 3 - 1 + 1) ∧
      p.1.2 + e.1 / 3 - 1 ≤ p.1.2 + 1 ∧ p.1.2 ≤ p.1.2 + e.1 / 3 - 1 + 1
    omega

/-- Entries beside each other look at cells near each other. -/
theorem near_neighbour {p : Cell w h} (hp : (1 ≤ p.1.1 ∧ p.1.1 < w - 1) ∧ 1 ≤ p.1.2 ∧ p.1.2 < h - 1) {k l : Fin 9}
    (hkl : Beside k l) : Near CellAdjacent (neighbour p hp k) (neighbour p hp l) := by
  by_cases heq : neighbour p hp k = neighbour p hp l
  · exact Or.inl heq
  · refine Or.inr ⟨fun hval => heq (Subtype.ext hval), ?_⟩
    obtain ⟨hx, hy⟩ := hkl
    show (p.1.1 + l.1 % 3 - 1 ≤ p.1.1 + k.1 % 3 - 1 + 1 ∧ p.1.1 + k.1 % 3 - 1 ≤ p.1.1 + l.1 % 3 - 1 + 1) ∧
      p.1.2 + l.1 / 3 - 1 ≤ p.1.2 + k.1 / 3 - 1 + 1 ∧ p.1.2 + k.1 / 3 - 1 ≤ p.1.2 + l.1 / 3 - 1 + 1
    omega

/-- Every cell next to `p` is looked at by an entry other than the centre. -/
theorem exists_neighbour {p b : Cell w h} (hp : (1 ≤ p.1.1 ∧ p.1.1 < w - 1) ∧ 1 ≤ p.1.2 ∧ p.1.2 < h - 1)
    (hpb : CellAdjacent p b) : ∃ k, k ≠ 4 ∧ neighbour p hp k = b := by
  obtain ⟨hne, hx, hy⟩ := hpb
  have hk : b.1.1 + 1 - p.1.1 + 3 * (b.1.2 + 1 - p.1.2) < 9 := by omega
  have heq : neighbour p hp ⟨b.1.1 + 1 - p.1.1 + 3 * (b.1.2 + 1 - p.1.2), hk⟩ = b := by
    apply Subtype.ext
    refine Prod.ext ?_ ?_
    · show p.1.1 + (b.1.1 + 1 - p.1.1 + 3 * (b.1.2 + 1 - p.1.2)) % 3 - 1 = b.1.1
      omega
    · show p.1.2 + (b.1.1 + 1 - p.1.1 + 3 * (b.1.2 + 1 - p.1.2)) / 3 - 1 = b.1.2
      omega
  refine ⟨_, fun h4 => hne ?_, heq⟩
  have h4' : b.1.1 + 1 - p.1.1 + 3 * (b.1.2 + 1 - p.1.2) = 4 := congrArg Fin.val h4
  exact Prod.ext (by omega) (by omega)

/-- **The keepers take over.** -/
theorem Deleted.takesOver (hb : Binary w h image) (hmask : mask ∈ masks) {d : Cell w h} (hd : Deleted image mask d) :
    ∃ s t, TakesOver CellAdjacent (white image) (kept image mask) d s t := by
  obtain ⟨e, f, he, hf, hef, hcover⟩ := masks_keepers mask hmask
  refine ⟨neighbour d hd.1 e, neighbour d hd.1 f, hd.keeper hb he, hd.keeper hb hf, near_neighbour hd.1 hef, ?_⟩
  intro b hbwhite hdb
  obtain ⟨k, hk4, rfl⟩ := exists_neighbour hd.1 hdb
  rcases hcover k hk4 with hzero | hke | hkf
  · exact absurd hbwhite (hd.entry_zero hb hzero)
  · exact Or.inl (near_neighbour hd.1 hke)
  · exact Or.inr (near_neighbour hd.1 hkf)

/-- Deleting the matches of one mask keeps the connected parts. -/
theorem keepsComponents_kept (hb : Binary w h image) (hmask : mask ∈ masks) :
    KeepsComponents CellAdjacent (white image : Set (Cell w h)) (kept image mask) := by
  refine keepsComponents_of_takeover (fun _ _ => Adjacent.symm) (fun p hp => hp.1) fun d hd hnot => ?_
  have hdel : Deleted image mask d := by
    by_contra hkeep
    exact hnot ⟨hd, hkeep⟩
  exact hdel.takesOver hb hmask

/-! ## The state of the loops -/

/-- Between two masks: the image is binary and `temp` shows the same pixels. -/
structure Synced (w h : Nat) (s : Thinner) : Prop where
  binary : Binary w h s.image
  frame : SameFrame s.temp s.image
  same : ∀ p, s.image.Inside p → s.temp.px p = s.image.px p

/-- The test that decides on a deletion. -/
def thins (image : BiImage) (mask : List Int) (p : Nat × Nat) : Bool :=
  !(image.get p.1 p.2).eq (Pixel.gray 0) && matchesMask image mask p.1 p.2

theorem deleted_iff (hb : Binary w h image) {p : Cell w h} :
    Deleted image mask p ↔ p.1 ∈ raster 1 (w - 1) 1 (h - 1) ∧ thins image mask p.1 = true := by
  have hwhite : (!(image.get p.1.1 p.1.2).eq (Pixel.gray 0)) = true ↔ image.get p.1.1 p.1.2 = Pixel.gray 255 := by
    rcases hb.pixels p with hp | hp <;> rw [hp] <;> decide
  rw [Deleted, mem_raster, thins, Bool.and_eq_true, hwhite]

/-- The loops over the pixels: `temp` loses the pixels that match, and the flag tells whether there was one. -/
theorem thinPixels_spec (mask : List Int) {s : Thinner} (hfr : SameFrame s.temp s.image) {l : List (Nat × Nat)}
    (hl : ∀ p ∈ l, s.image.Inside p) :
    (l.foldl (fun s p => thinPixel mask p.1 p.2 s) s).image = s.image ∧
      SameFrame (l.foldl (fun s p => thinPixel mask p.1 p.2 s) s).temp s.image ∧
      (∀ q, s.image.Inside q → (l.foldl (fun s p => thinPixel mask p.1 p.2 s) s).temp.px q =
        if q ∈ l ∧ thins s.image mask q then Pixel.gray 0 else s.temp.px q) ∧
      ((l.foldl (fun s p => thinPixel mask p.1 p.2 s) s).continueFlag = true ↔
        s.continueFlag = true ∨ ∃ q ∈ l, thins s.image mask q = true) := by
  refine foldl_scan (fun pre (t : Thinner) => t.image = s.image ∧ SameFrame t.temp s.image ∧
    (∀ q, s.image.Inside q → t.temp.px q = if q ∈ pre ∧ thins s.image mask q then Pixel.gray 0 else s.temp.px q) ∧
      (t.continueFlag = true ↔ s.continueFlag = true ∨ ∃ q ∈ pre, thins s.image mask q = true))
    ⟨rfl, hfr, fun q _ => by simp, by simp⟩ ?_
  rintro pre p post t hpre ⟨himage, hframe, hpx, hflag⟩
  have hp : s.image.Inside p := hl p (by simp [hpre])
  have hstep : thinPixel mask p.1 p.2 t = if thins s.image mask p then
      { t with temp := t.temp.put p.1 p.2 (Pixel.gray 0), count := t.count + 1, continueFlag := true } else t := by
    rw [thinPixel, thins, himage]
    by_cases hblack : (s.image.get p.1 p.2).eq (Pixel.gray 0) = true
    · simp only [hblack, if_true, Bool.not_true, Bool.false_and, Bool.false_eq_true, if_false]
    · simp only [hblack, if_false, Bool.not_false, Bool.true_and, Bool.false_eq_true]
  rw [hstep]
  by_cases hthin : thins s.image mask p = true
  · rw [if_pos hthin]
    have hp' := hframe.inside.2 hp
    refine ⟨himage, ?_, fun q hq => ?_, ?_⟩
    · show SameFrame (t.temp.put p.1 p.2 (Pixel.gray 0)) s.image
      rw [put_inside (x := p.1) (y := p.2) hp']
      exact (sameFrame_write _ _).trans hframe
    · show (t.temp.put p.1 p.2 (Pixel.gray 0)).px q = _
      rw [put_inside (x := p.1) (y := p.2) hp', px_write hp' (hframe.inside.2 hq), hpx q hq]
      by_cases hqp : q = p
      · subst hqp
        simp [hthin]
      · simp [hqp]
    · simp only [true_iff]
      exact Or.inr ⟨p, by simp, hthin⟩
  · rw [if_neg hthin]
    refine ⟨himage, hframe, fun q hq => ?_, ?_⟩
    · rw [hpx q hq]
      by_cases hqp : q = p
      · subst hqp
        simp [hthin]
      · simp [hqp]
    · rw [hflag]
      simp [hthin]

/-- Between two masks, on any image: `temp` shows the same pixels. -/
structure Twin (w h : Nat) (s : Thinner) : Prop where
  width : s.image.width = w
  height : s.image.height = h
  frame : SameFrame s.temp s.image
  same : ∀ p, s.image.Inside p → s.temp.px p = s.image.px p

theorem Twin.inside {s : Thinner} (hs : Twin w h s) (p : Cell w h) : s.image.Inside p.1 := by
  rw [Inside, hs.width, hs.height]
  exact p.2

theorem Synced.twin {s : Thinner} (hs : Synced w h s) : Twin w h s :=
  ⟨hs.binary.width, hs.binary.height, hs.frame, hs.same⟩

/-- One mask on any image: the pixels that it thins become black, and the flag tells whether there was one. -/
theorem applyMask_twin {s : Thinner} (hs : Twin w h s) (mask : List Int) :
    Twin w h (applyMask s mask) ∧ SameFrame (applyMask s mask).image s.image ∧
      (∀ p : Cell w h, (applyMask s mask).image.px p.1 =
        if p.1 ∈ raster 1 (w - 1) 1 (h - 1) ∧ thins s.image mask p.1 then Pixel.gray 0 else s.image.px p.1) ∧
      ((applyMask s mask).continueFlag = true ↔ s.continueFlag = true ∨
        ∃ p : Cell w h, p.1 ∈ raster 1 (w - 1) 1 (h - 1) ∧ thins s.image mask p.1 = true) := by
  have hl : ∀ p ∈ raster 1 (w - 1) 1 (h - 1), p.1 < w ∧ p.2 < h := fun p hp => by
    rw [mem_raster] at hp
    omega
  obtain ⟨himage, hframe, hpx, hflag⟩ := thinPixels_spec mask hs.frame fun p hp => hs.inside ⟨p, hl p hp⟩
  have hmask : applyMask s mask =
      { (raster 1 (w - 1) 1 (h - 1)).foldl (fun s p => thinPixel mask p.1 p.2 s) s with
        image :=
          s.image.assign ((raster 1 (w - 1) 1 (h - 1)).foldl (fun s p => thinPixel mask p.1 p.2 s) s).temp } := by
    simp only [applyMask, forLoop_forLoop, hs.width, hs.height, himage]
  rw [hmask]
  generalize (raster 1 (w - 1) 1 (h - 1)).foldl (fun s p => thinPixel mask p.1 p.2 s) s = t at *
  have hfr : SameFrame (s.image.assign t.temp) s.image := (sameFrame_assign s.image t.temp).trans hframe
  refine ⟨⟨hfr.width.trans hs.width, hfr.height.trans hs.height, ?_, fun p hp => ?_⟩, hfr, fun p => ?_, ?_⟩
  · exact hframe.trans ⟨hfr.width.symm, hfr.height.symm, hfr.clear.symm⟩
  · exact (px_assign s.image (hframe.inside.2 (hfr.inside.1 hp))).symm
  · have hin := hs.inside p
    rw [px_assign s.image (hframe.inside.2 hin), hpx p.1 hin, hs.same p.1 hin]
  · show t.continueFlag = true ↔ _
    rw [hflag]
    refine or_congr Iff.rfl ⟨?_, ?_⟩
    · rintro ⟨q, hq, hthin⟩
      exact ⟨⟨q, hl q hq⟩, hq, hthin⟩
    · rintro ⟨p, hp, hthin⟩
      exact ⟨p.1, hp, hthin⟩

/-- **One mask**: the pixels that match it are deleted, and the flag tells whether there was one. -/
theorem applyMask_spec {s : Thinner} (hs : Synced w h s) (mask : List Int) :
    Synced w h (applyMask s mask) ∧ (white (applyMask s mask).image : Set (Cell w h)) = kept s.image mask ∧
      ((applyMask s mask).continueFlag = true ↔ s.continueFlag = true ∨ ∃ p : Cell w h, Deleted s.image mask p) := by
  have hb := hs.binary
  obtain ⟨htwin, hfr, hpx, hflag⟩ := applyMask_twin hs.twin mask
  -- the new image, pixel by pixel
  have hget : ∀ p : Cell w h, (applyMask s mask).image.get p.1.1 p.1.2 =
      if p.1 ∈ raster 1 (w - 1) 1 (h - 1) ∧ thins s.image mask p.1 then Pixel.gray 0
      else s.image.get p.1.1 p.1.2 := by
    intro p
    have hin := hfr.inside.2 (hb.inside p)
    have hread := hpx p
    split
    · rename_i hdel
      rw [if_pos hdel] at hread
      rw [get_of_not_empty (hfr.clear.trans hb.clear) hin (by rw [hread]; rfl), hread]
    · rename_i hkeep
      rw [if_neg hkeep] at hread
      exact get_congr hfr hin hread
  refine ⟨⟨⟨htwin.width, htwin.height, hfr.clear.trans hb.clear, fun p => ?_⟩, htwin.frame, htwin.same⟩, ?_, ?_⟩
  · rw [hget p]
    split
    · exact Or.inl rfl
    · exact hb.pixels p
  · refine Set.ext fun p => ?_
    show (applyMask s mask).image.get p.1.1 p.1.2 = Pixel.gray 255 ↔ s.image.get p.1.1 p.1.2 = Pixel.gray 255 ∧ _
    rw [deleted_iff hb, hget p]
    split
    · rename_i hdel
      exact ⟨fun hgray => absurd (gray_inj.1 hgray) (by decide), fun hkeep => absurd hdel hkeep.2⟩
    · rename_i hkeep
      exact ⟨fun hp => ⟨hp, hkeep⟩, fun hp => hp.1⟩
  · rw [hflag]
    exact or_congr Iff.rfl (exists_congr fun p => (deleted_iff hb).symm)

/-! ## Rounds and the loop -/

/-- Some masks in a row keep the connected parts; if the flag goes up, there are fewer white pixels. -/
theorem applyMasks_spec {l : List (List Int)} (hl : ∀ mask ∈ l, mask ∈ masks) {s : Thinner} (hs : Synced w h s) :
    Synced w h (l.foldl applyMask s) ∧
      KeepsComponents CellAdjacent (white s.image : Set (Cell w h)) (white (l.foldl applyMask s).image) ∧
      ((l.foldl applyMask s).continueFlag = true → s.continueFlag = true ∨
        (white (l.foldl applyMask s).image : Set (Cell w h)) ⊂ white s.image) := by
  induction l generalizing s with
  | nil => exact ⟨hs, KeepsComponents.refl, Or.inl⟩
  | cons mask l ih =>
    obtain ⟨hs', hwhite, hflag⟩ := applyMask_spec hs mask
    have hkeep : KeepsComponents CellAdjacent (white s.image : Set (Cell w h)) (white (applyMask s mask).image) := by
      rw [hwhite]
      exact keepsComponents_kept hs.binary (hl mask List.mem_cons_self)
    obtain ⟨hs'', hkeep', hflag'⟩ := ih (fun m hm => hl m (List.mem_cons_of_mem _ hm)) hs'
    refine ⟨hs'', hkeep.trans hkeep', fun hup => ?_⟩
    rcases hflag' hup with hup' | hless
    · refine (hflag.1 hup').imp id ?_
      rintro ⟨p, hdel⟩
      refine ⟨(hkeep.trans hkeep').subset, fun hsub => ?_⟩
      have hp : p ∈ (white (applyMask s mask).image : Set (Cell w h)) := hkeep'.subset (hsub hdel.2.1)
      rw [hwhite] at hp
      exact hp.2 hdel
    · exact Or.inr ⟨hless.1.trans hkeep.subset, fun hsub => hless.2 (hkeep.subset.trans hsub)⟩

/-- A round. -/
theorem thinRound_spec {s : Thinner} (hs : Synced w h s) :
    Synced w h (thinRound s) ∧
      KeepsComponents CellAdjacent (white s.image : Set (Cell w h)) (white (thinRound s).image) ∧
      ((thinRound s).continueFlag = true → (white (thinRound s).image : Set (Cell w h)) ⊂ white s.image) := by
  obtain ⟨hs', hkeep, hflag⟩ := applyMasks_spec (l := masks) (fun _ hm => hm)
    (s := { s with continueFlag := false }) ⟨hs.binary, hs.frame, hs.same⟩
  exact ⟨hs', hkeep, fun hup => (hflag hup).resolve_left Bool.false_ne_true⟩

/-- **The loop** ends within as many rounds as there are white pixels, and one more. -/
theorem thinningLoop_spec (fuel : Nat) {s : Thinner} (hs : Synced w h s)
    (hfuel : (white s.image : Set (Cell w h)).ncard < fuel) :
    ∃ t, thinningLoop fuel s = some t ∧ Synced w h t ∧
      KeepsComponents CellAdjacent (white s.image : Set (Cell w h)) (white t.image) := by
  induction fuel generalizing s with
  | zero => omega
  | succ fuel ih =>
    obtain ⟨hs', hkeep, hless⟩ := thinRound_spec hs
    simp only [thinningLoop]
    by_cases hup : (thinRound s).continueFlag = true
    · have hcard := Set.ncard_lt_ncard (hless hup) (Set.toFinite _)
      obtain ⟨t, hloop, ht, hkeep'⟩ := ih hs' (by omega)
      rw [if_pos hup]
      exact ⟨t, hloop, ht, hkeep.trans hkeep'⟩
    · rw [if_neg hup]
      exact ⟨_, rfl, hs', hkeep⟩

/-- **Thinning preserves topology**: it ends, and the white pixels that are left are joined by white paths exactly if
they were before; no connected part is lost. -/
theorem thinning_keepsComponents (hb : Binary w h image) {fuel : Nat} (hfuel : w * h < fuel) :
    ∃ count out, thinning fuel image = some (count, out) ∧ Binary w h out ∧
      KeepsComponents CellAdjacent (white image : Set (Cell w h)) (white out) := by
  have hcells : (white image : Set (Cell w h)).ncard < fuel := (ncard_cells_le _).trans_lt hfuel
  obtain ⟨t, hloop, ht, hkeep⟩ := thinningLoop_spec fuel
    (s := ⟨image, (create 0 0 (by decide) (by decide)).assign image, 0, true⟩)
    ⟨hb, sameFrame_assign _ image, fun p hp => px_assign _ hp⟩ hcells
  refine ⟨t.count, t.image, ?_, ht.binary, hkeep⟩
  rw [thinning, hloop]
  rfl

/-- Thinning a white 3 × 3 square. -/
theorem thinning_keepsComponents_square : ∃ count out,
    thinning 10 (ofFn 3 3 (by decide) (by decide) fun _ _ => Pixel.gray 255) = some (count, out) ∧ Binary 3 3 out ∧
      KeepsComponents CellAdjacent
        (white (ofFn 3 3 (by decide) (by decide) fun _ _ => Pixel.gray 255) : Set (Cell 3 3)) (white out) :=
  thinning_keepsComponents (binary_ofFn (by decide) (by decide) fun _ _ => Or.inr rfl) (by decide)

end LeftFelt.ImageUtil
