import LeftFelt.Image.Filters

/-!
# Histograms

`getHistogram` counts the pixels of every lightness (`getHistogram_getD`). The scans from both ends find the smallest
and the largest lightness that occurs (`Lightest.find`, `Darkest.find`).
-/

namespace LeftFelt.ImageUtil

open Lib BiImage

variable {image : BiImage} {l : Nat}

/-- The lightness of a pixel. -/
def lightness (image : BiImage) (p : Nat × Nat) : Nat := (image.get p.1 p.2).lightness.toNat

theorem lightness_lt (image : BiImage) (p : Nat × Nat) : lightness image p < 256 := UInt8.toNat_lt _

theorem inside_ofFn {w h : Nat} {hw : w < 2 ^ 31} {hh : h < 2 ^ 31} {v : Nat → Nat → Pixel} {p : Nat × Nat} :
    (ofFn w h hw hh v).Inside p ↔ p.1 < w ∧ p.2 < h := by
  rw [Inside, (sameFrame_ofFn w h hw hh v).width, (sameFrame_ofFn w h hw hh v).height]
  rfl

theorem lightness_ofFn {w h : Nat} {hw : w < 2 ^ 31} {hh : h < 2 ^ 31} {v : Nat → Nat → Pixel} {p : Nat × Nat}
    (hp : (ofFn w h hw hh v).Inside p) (hv : (v p.1 p.2).empty = false) :
    lightness (ofFn w h hw hh v) p = (v p.1 p.2).lightness.toNat := by
  obtain ⟨hx, hy⟩ := inside_ofFn.1 hp
  rw [lightness, get_ofFn hw hh hx hy hv]

/-- **The classes of `Binarize`**: the pixels below the threshold get black, the others white. -/
theorem px_binarizePixels (t : Nat) {p : Nat × Nat} (hp : image.Inside p) :
    (binarizePixels image t).px p = if t ≤ lightness image p then Pixel.gray 255 else Pixel.gray 0 := by
  let shown (pixel : Pixel) : Pixel := if image.clearColor.eq pixel then Pixel.init else pixel
  have hl : ∀ q ∈ grid image, image.Inside q := fun q hq => mem_grid.1 hq
  obtain ⟨-, hpx⟩ := foldl_write (fun _ => true)
    (fun _ pixel => if t ≤ (shown pixel).lightness.toNat then Pixel.gray 255 else Pixel.gray 0)
    (raster_nodup 0 image.width 0 image.height) hl
    (f := fun out q => if (out.get q.1 q.2).lightness.toNat ≥ (t : Int) then out.put q.1 q.2 (Pixel.gray 255)
      else out.put q.1 q.2 (Pixel.gray 0)) (by
      rintro out ⟨i, j⟩ hout hq
      have hin := hout.inside.2 (hl _ hq)
      simp only [get_inside hin, put_inside hin, hout.clear, if_true, shown, ge_iff_le, Nat.cast_le]
      exact (apply_ite _ _ _ _).symm)
  have hwrite := hpx p hp
  rw [if_pos ⟨mem_grid.2 hp, rfl⟩] at hwrite
  rw [binarizePixels, forEach_eq, hwrite, lightness, get_inside hp]

/-- The number of pixels of a lightness. -/
def occurrences (image : BiImage) (l : Nat) : Nat := (grid image).countP fun p => lightness image p = l

theorem occurrences_pos : 0 < occurrences image l ↔ ∃ p, image.Inside p ∧ lightness image p = l := by
  simp only [occurrences, List.countP_pos_iff, mem_grid, decide_eq_true_eq]

/-- **The histogram counts**, for every lightness, the pixels that have it. -/
theorem getHistogram_getD (image : BiImage) (l : Nat) : (getHistogram image).getD l 0 = occurrences image l := by
  have key : ∀ (ps : List (Nat × Nat)) (h : List Int), h.length = 256 →
      (ps.foldl (fun h p => h.set (lightness image p) (h.getD (lightness image p) 0 + 1)) h).getD l 0 =
        h.getD l 0 + ps.countP fun p => lightness image p = l := by
    intro ps
    induction ps with
    | nil => simp
    | cons p ps ih =>
      intro h hlen
      have hlt := lightness_lt image p
      rw [List.foldl_cons, ih _ (by rw [List.length_set, hlen]), List.countP_cons]
      by_cases hl : lightness image p = l
      · subst hl
        simp only [List.getD_eq_getElem?_getD, List.getElem?_set_self (hlen ▸ hlt), Option.getD_some, decide_true,
          if_true]
        push_cast
        ring
      · simp only [List.getD_eq_getElem?_getD, List.getElem?_set_ne hl, hl, decide_false, Bool.false_eq_true, if_false,
          Nat.add_zero]
  have hrun := key (grid image) (List.replicate 256 0) List.length_replicate
  have hzero : (List.replicate 256 (0 : Int)).getD l 0 = 0 := by
    rw [List.getD_eq_getElem?_getD, List.getElem?_replicate]
    split_ifs
    · rfl
    · rfl
  rw [getHistogram, forEach_eq]
  rw [hzero, zero_add] at hrun
  exact hrun

/-! ## The range of the lightness -/

/-- `a` and `b` are the smallest and the largest lightness that occur. -/
structure Range (image : BiImage) (a b : Nat) : Prop where
  low : ∃ p, image.Inside p ∧ lightness image p = a
  high : ∃ p, image.Inside p ∧ lightness image p = b
  le : ∀ p, image.Inside p → a ≤ lightness image p
  ge : ∀ p, image.Inside p → lightness image p ≤ b

theorem Range.le_high {a b : Nat} (h : Range image a b) : a ≤ b ∧ b < 256 := by
  obtain ⟨p, hp, rfl⟩ := h.high
  exact ⟨h.le p hp, lightness_lt image p⟩

/-- A scan from the top finds the last number with a property. -/
theorem find_reverse_range {n i : Nat} {c : Nat → Bool} (hi : i < n) (hc : c i) :
    ∃ b, (List.range n).reverse.find? c = some b ∧ c b ∧ ∀ j, j < n → c j → j ≤ b := by
  induction n with
  | zero => omega
  | succ n ih =>
    rw [List.range_succ, List.reverse_append, List.reverse_singleton, List.singleton_append, List.find?_cons]
    by_cases hn : c n
    · rw [hn]
      exact ⟨n, rfl, hn, fun j hj _ => by omega⟩
    · have hin : i ≠ n := fun h => hn (h ▸ hc)
      obtain ⟨b, hb, hcb, hall⟩ := ih (by omega)
      rw [Bool.not_eq_true] at hn
      rw [hn]
      refine ⟨b, hb, hcb, fun j hj hcj => ?_⟩
      rcases Nat.lt_succ_iff_lt_or_eq.1 hj with hj | rfl
      · exact hall j hj hcj
      · rw [hn] at hcj
        cases hcj

/-- **Both scans** of the histogram of an image with pixels. -/
theorem exists_range (h : 0 < image.width * image.height) : ∃ a b, Range image a b ∧
    (List.range 256).find? (fun i => decide ((getHistogram image).getD i 0 ≠ 0)) = some a ∧
    (List.range 256).reverse.find? (fun i => decide ((getHistogram image).getD i 0 ≠ 0)) = some b := by
  have hoccurs : ∀ l, (decide ((getHistogram image).getD l 0 ≠ 0) = true) ↔
      ∃ p, image.Inside p ∧ lightness image p = l := fun l => by
    rw [decide_eq_true_iff, getHistogram_getD, ← occurrences_pos]
    omega
  obtain ⟨p, hp⟩ : ∃ p, image.Inside p := ⟨(0, 0), Nat.pos_of_mul_pos_right h, Nat.pos_of_mul_pos_left h⟩
  obtain ⟨b, hb, hcb, hall⟩ := find_reverse_range (c := fun i => decide ((getHistogram image).getD i 0 ≠ 0))
    (lightness_lt image p) ((hoccurs _).2 ⟨p, hp, rfl⟩)
  cases ha : (List.range 256).find? (fun i => decide ((getHistogram image).getD i 0 ≠ 0)) with
  | none =>
    rw [List.find?_range_eq_none] at ha
    have hno := ha _ (lightness_lt image p)
    rw [(hoccurs _).2 ⟨p, hp, rfl⟩] at hno
    cases hno
  | some a =>
    rw [List.find?_range_eq_some] at ha
    obtain ⟨hca, -, hbelow⟩ := ha
    refine ⟨a, b, ⟨(hoccurs a).1 hca, (hoccurs b).1 hcb, fun q hq => ?_, fun q hq => ?_⟩, rfl, hb⟩
    · by_contra hlt
      have hno := hbelow _ (not_le.1 hlt)
      rw [(hoccurs _).2 ⟨q, hq, rfl⟩] at hno
      cases hno
    · exact hall _ (lightness_lt image q) ((hoccurs _).2 ⟨q, hq, rfl⟩)

end LeftFelt.ImageUtil
