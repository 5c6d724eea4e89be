import LeftFelt.Image.Access
import LeftFelt.Image.TopHat
import LeftFelt.Lib.Rounding

/-!
# The low-pass filter

`ImageUtil::LowResolution` replaces every pixel by the mean of the pixels around it. It writes into the image that it
reads, so that the pixels before the one at hand are means already (`mixed`); the result is the mean over the original
pixels only where these cannot be told from the others by their sums (`lowPassed_iff`).
-/

namespace LeftFelt.Lib.Binary64

open Float.Model

/-- The square of a positive `int`. -/
theorem has_square {m : Int} (hm : 0 < m) (hm' : m < 2 ^ 31) : ∃ r : ℚ,
    Has (Float.Model.ofInt m * Float.Model.ofInt m) r ∧ Rounds ((m * m : Int) : ℚ) r ∧ 1 ≤ r ∧ r ≤ 2 ^ 63 := by
  have hM : Has (Float.Model.ofInt m) m := has_int (by rw [abs_of_pos hm]; omega)
  have hsq : 0 < m * m := by positivity
  have hsq' : m * m ≤ 2 ^ 62 := by nlinarith
  have hcast : (m : ℚ) * m = (m * m : Int) := by push_cast; rfl
  obtain ⟨r, hr, hround⟩ := has_mul hM hM (hcast ▸ inRange_int (by rw [abs_of_pos hsq]; exact hsq'.trans (by norm_num)))
  rw [hcast] at hround
  refine ⟨r, hr, hround, ?_, ?_⟩
  · exact_mod_cast int_le_of_rounds (n := 1) (digits_of_has hr) hround (by norm_num) (by exact_mod_cast hsq)
  · obtain ⟨-, hnear, -⟩ := rounds_bounds hround (by positivity)
    have hle : ((m * m : Int) : ℚ) ≤ 2 ^ 62 := by exact_mod_cast hsq'
    linarith

/-- The quotient of an `int` and a number of at least one. -/
theorem has_div_le {x y : Float.Model} {a : Int} {r : ℚ} (hx : Has x a) (hy : Has y r) (h0 : 0 ≤ a) (ha : a < 2 ^ 31)
    (hr1 : 1 ≤ r) (hr2 : r ≤ 2 ^ 63) :
    ∃ q : ℚ, Has (x / y) q ∧ Rounds (a / r) q ∧ 0 ≤ q ∧ q ≤ (2 ^ 31 - 1 : Int) := by
  have ha0 : (0 : ℚ) ≤ a := by exact_mod_cast h0
  have ha' : (a : ℚ) ≤ (2 ^ 31 - 1 : Int) := by exact_mod_cast (by omega : a ≤ 2 ^ 31 - 1)
  have hy0 : 0 ≤ (a : ℚ) / r := div_nonneg ha0 (by linarith)
  have hle : (a : ℚ) / r ≤ a := div_le_self ha0 hr1
  have hrange : InRange ((a : ℚ) / r) := by
    rcases eq_or_ne a 0 with rfl | hne
    · exact .inl (by simp)
    · have h1 : (1 : ℚ) ≤ a := by exact_mod_cast (by omega : 1 ≤ a)
      push_cast at ha'
      rw [InRange, abs_of_nonneg hy0]
      refine .inr ⟨?_, by linarith⟩
      rw [div_mul_eq_mul_div, le_div_iff₀ (by linarith)]
      linarith
  obtain ⟨q, hq, hround⟩ := has_div hx hy (by linarith) hrange
  obtain ⟨hq0, -, -⟩ := rounds_bounds hround hy0
  exact ⟨q, hq, hround, hq0, le_int_of_rounds (digits_of_has hq) hround (by norm_num) (hle.trans ha')⟩

/-- `(int)(a / pow(m, 2))`: the quotient is rounded, but not to another integer. -/
theorem cInt_div_sq {a m : Int} (h0 : 0 ≤ a) (ha : a < 2 ^ 31) (hm : 0 < m) (hm' : m < 2 ^ 31) :
    cInt (Float.Model.ofInt a / (Float.Model.ofInt m * Float.Model.ofInt m)) = a / (m * m) := by
  have hA : Has (Float.Model.ofInt a) a := has_int (by rw [abs_of_nonneg h0]; omega)
  have hsq : 0 < m * m := by positivity
  obtain ⟨r, hr, hround, hr1, hr2⟩ := has_square hm hm'
  obtain ⟨q, hq, hround', hq0, hqhi⟩ := has_div_le hA hr h0 ha hr1 hr2
  push_cast at hqhi
  rw [cInt_of_nonneg hq hq0 (by linarith)]
  by_cases hbig : m * m ≤ 2 ^ 52
  · rw [rounds_int (digits_of_has hr) hround (by rwa [abs_of_pos hsq])] at hround'
    exact floor_of_rounds (digits_of_has hq) hround' h0 ha hsq hbig
  · -- the square is rounded, but the quotient is far below one
    have hsq52 : (((2 ^ 52 : Nat) : Int) : ℚ) ≤ (m * m : Int) := by exact_mod_cast (not_le.1 hbig).le
    have hr52 := int_le_of_rounds (digits_of_has hr) hround (by norm_num) hsq52
    norm_num at hr52
    have ha' : (a : ℚ) < 2 ^ 31 := by exact_mod_cast ha
    have hy0 : 0 ≤ (a : ℚ) / r := div_nonneg (by exact_mod_cast h0) (by linarith)
    have hsmall : (a : ℚ) / r ≤ 1 / 2 := by
      rw [div_le_iff₀ (by linarith)]
      linarith
    obtain ⟨-, hnear, -⟩ := rounds_bounds hround' hy0
    rw [Int.ediv_eq_zero_of_lt h0 (by omega), Int.floor_eq_zero_iff]
    exact ⟨hq0, by linarith⟩

end LeftFelt.Lib.Binary64

namespace LeftFelt.ImageUtil

open Lib BiImage

/-! ## The code -/

/-- `for (k = -level; k <= level; k++)`. -/
def steps (level : Int) : List Int := (List.range (2 * level + 1).toNat).map fun (k : Nat) => k - level

/-- `R`, `G` and `B` after the two inner loops. -/
def windowSums (image : BiImage) (level : Int) (i j : Nat) : Int × Int × Int :=
  (steps level).foldl (fun s k => (steps level).foldl (fun s l =>
    let pixel := image.get (i + l) (j + k)
    (s.1 + pixel.red.toNat, s.2.1 + pixel.green.toNat, s.2.2 + pixel.blue.toNat)) s) (0, 0, 0)

/-- `(unsigned char)(sum/pow((level*2+1)*1.0,2))`, and `none` where the sum has left a `long` or the factor an `int`.
The sums only grow, so that it is enough to look at their end. -/
def windowMean (level sum : Int) : Option UInt8 :=
  if sum < 2 ^ 31 ∧ level * 2 + 1 < 2 ^ 31 then
    some (UInt8.ofInt (Binary64.cInt (Float.Model.ofInt sum /
      (Float.Model.ofInt (level * 2 + 1) * Float.Model.ofInt (level * 2 + 1)))))
  else none

/-- The pixel that is put. -/
def lowPixel (image : BiImage) (level : Int) (i j : Nat) : Option Pixel :=
  let (R, G, B) := windowSums image level i j
  (windowMean level R).bind fun r => (windowMean level G).bind fun g =>
    (windowMean level B).map fun b => Pixel.rgb r g b

/-- `LowResolution(image, level)`. -/
def lowResolution (image : BiImage) (level : Int) : Option BiImage :=
  Checked.forLoop 0 image.height (fun j => Checked.forLoop 0 image.width fun i out =>
    (lowPixel out level i j).map fun pixel => out.put i j pixel) image

/-! ## Windows -/

variable {image : BiImage} {level : Int} {p : Nat × Nat} {pixels : List Pixel} {c : Pixel → UInt8}

/-- The pixels around `p` in a table that is laid out like the image, as `Get` shows them. -/
def windowOf (image : BiImage) (a : Nat × Nat → Pixel) (level : Int) (p : Nat × Nat) : List Pixel :=
  (steps level).flatMap fun k => (steps level).map fun l => viewed image (a (cell image (p.1 + l) (p.2 + k)))

/-- The sum of a channel. -/
def channelSum (c : Pixel → UInt8) (pixels : List Pixel) : Int := (pixels.map fun pixel => ((c pixel).toNat : Int)).sum

/-- The truncated mean of a channel over a window. -/
def channelMean (c : Pixel → UInt8) (level : Int) (pixels : List Pixel) : Int :=
  channelSum c pixels / ((level * 2 + 1) * (level * 2 + 1))

theorem channelSum_cons (c : Pixel → UInt8) (pixel : Pixel) (pixels : List Pixel) :
    channelSum c (pixel :: pixels) = (c pixel).toNat + channelSum c pixels := rfl

theorem channelSum_bounds (c : Pixel → UInt8) (pixels : List Pixel) :
    0 ≤ channelSum c pixels ∧ channelSum c pixels ≤ 255 * pixels.length := by
  induction pixels with
  | nil => exact ⟨le_rfl, le_rfl⟩
  | cons pixel pixels ih =>
    have hc := (c pixel).toNat_lt
    rw [channelSum_cons, List.length_cons]
    push_cast
    omega

theorem mem_steps {k : Int} : k ∈ steps level ↔ -level ≤ k ∧ k ≤ level := by
  rw [steps, List.mem_map]
  constructor
  · rintro ⟨n, hn, rfl⟩
    rw [List.mem_range] at hn
    omega
  · rintro ⟨hlo, hhi⟩
    exact ⟨(k + level).toNat, by rw [List.mem_range]; omega, by omega⟩

theorem length_windowOf (h0 : 0 ≤ level) (image : BiImage) (a : Nat × Nat → Pixel) (p : Nat × Nat) :
    ((windowOf image a level p).length : Int) = (level * 2 + 1) * (level * 2 + 1) := by
  have hsteps : ((steps level).length : Int) = level * 2 + 1 := by
    rw [steps, List.length_map, List.length_range]
    omega
  simp only [windowOf, List.length_flatMap, List.length_map, List.map_const', List.sum_replicate, smul_eq_mul]
  push_cast
  rw [hsteps]

/-- A mean fits a channel. -/
theorem channelMean_bounds (h0 : 0 ≤ level) (image : BiImage) (c : Pixel → UInt8) (a : Nat × Nat → Pixel)
    (p : Nat × Nat) :
    0 ≤ channelMean c level (windowOf image a level p) ∧ channelMean c level (windowOf image a level p) ≤ 255 := by
  have hn : 0 < (level * 2 + 1) * (level * 2 + 1) := by positivity
  obtain ⟨hlo, hhi⟩ := channelSum_bounds c (windowOf image a level p)
  rw [length_windowOf h0] at hhi
  exact ⟨Int.ediv_nonneg hlo hn.le, Int.ediv_le_of_le_mul hn hhi⟩

/-- The loops add up the channels. -/
theorem foldl_channels (pixels : List Pixel) (s : Int × Int × Int) :
    pixels.foldl (fun s pixel =>
      (s.1 + (pixel.red.toNat : Int), s.2.1 + (pixel.green.toNat : Int), s.2.2 + (pixel.blue.toNat : Int))) s =
      (s.1 + channelSum Pixel.red pixels, s.2.1 + channelSum Pixel.green pixels,
        s.2.2 + channelSum Pixel.blue pixels) := by
  induction pixels generalizing s with
  | nil => simp [channelSum]
  | cons pixel pixels ih =>
    rw [List.foldl_cons, ih, channelSum_cons, channelSum_cons, channelSum_cons]
    simp only [add_assoc]

/-- Around a pixel no access leaves the image. -/
theorem get_windowOf {t : BiImage} (ht : SameFrame t image) (hp : image.Inside p) (hw : level ≤ image.width)
    (hh : level ≤ image.height) {k l : Int} (hk : k ∈ steps level) (hl : l ∈ steps level) :
    t.get (p.1 + l) (p.2 + k) = viewed image (t.px (cell image (p.1 + l) (p.2 + k))) := by
  rw [mem_steps] at hk hl
  have hw0 : 0 < t.width := Nat.zero_lt_of_lt (ht.inside.2 hp).1
  have hh0 : 0 < t.height := Nat.zero_lt_of_lt (ht.inside.2 hp).2
  have hcell : cell t = cell image := by
    funext x y
    rw [cell, cell, ht.width, ht.height]
  have haccess : Accesses t (p.1 + l) (p.2 + k) :=
    accesses_of_near hw0 hh0 (.inl (by rw [ht.width]; omega)) (.inl (by rw [ht.height]; omega))
  rw [haccess.get_eq hw0 hh0, get_eq_viewed (inside_cell hw0 hh0 _ _), viewed_congr ht, hcell]

theorem windowSums_eq {t : BiImage} (ht : SameFrame t image) (hp : image.Inside p) (hw : level ≤ image.width)
    (hh : level ≤ image.height) :
    windowSums t level p.1 p.2 = (channelSum Pixel.red (windowOf image t.px level p),
      channelSum Pixel.green (windowOf image t.px level p), channelSum Pixel.blue (windowOf image t.px level p)) := by
  have hread : (steps level).flatMap (fun k => (steps level).map fun l => t.get (p.1 + l) (p.2 + k)) =
      windowOf image t.px level p :=
    List.flatMap_congr fun k hk => List.map_congr_left fun l hl => get_windowOf ht hp hw hh hk hl
  rw [← hread]
  have hfold := foldl_channels ((steps level).flatMap fun k => (steps level).map fun l => t.get (p.1 + l) (p.2 + k))
    (0, 0, 0)
  simp only [zero_add] at hfold
  rw [← hfold, List.foldl_flatMap]
  simp only [windowSums, List.foldl_map]

/-! ## The pixel put -/

/-- The pixel of the means. -/
def meanPixel (level : Int) (pixels : List Pixel) : Pixel :=
  Pixel.rgb (UInt8.ofInt (channelMean Pixel.red level pixels)) (UInt8.ofInt (channelMean Pixel.green level pixels))
    (UInt8.ofInt (channelMean Pixel.blue level pixels))

/-- The sums fit a `long`, and the factor an `int`. -/
def SumsFit (level : Int) (pixels : List Pixel) : Prop :=
  (∀ c ∈ Pixel.rgbChannels, channelSum c pixels < 2 ^ 31) ∧ level * 2 + 1 < 2 ^ 31

instance (level : Int) (pixels : List Pixel) : Decidable (SumsFit level pixels) :=
  inferInstanceAs (Decidable (_ ∧ _))

theorem windowMean_eq (h0 : 0 ≤ level) (c : Pixel → UInt8) (pixels : List Pixel) :
    windowMean level (channelSum c pixels) =
      if channelSum c pixels < 2 ^ 31 ∧ level * 2 + 1 < 2 ^ 31 then some (UInt8.ofInt (channelMean c level pixels))
      else none := by
  rw [windowMean]
  split_ifs with hfit
  · rw [Binary64.cInt_div_sq (channelSum_bounds c pixels).1 hfit.1 (by omega) hfit.2, channelMean]
  · rfl

/-- The pixel that is put, computed from a window. -/
def meanOf (level : Int) (pixels : List Pixel) : Option Pixel :=
  if SumsFit level pixels then some (meanPixel level pixels) else none

theorem lowPixel_eq (h0 : 0 ≤ level) {t : BiImage} (ht : SameFrame t image) (hp : image.Inside p)
    (hw : level ≤ image.width) (hh : level ≤ image.height) :
    lowPixel t level p.1 p.2 = meanOf level (windowOf image t.px level p) := by
  rw [lowPixel, windowSums_eq ht hp hw hh, meanOf]
  simp only [windowMean_eq h0]
  by_cases hfit : SumsFit level (windowOf image t.px level p)
  · have hsum : ∀ c ∈ Pixel.rgbChannels, channelSum c (windowOf image t.px level p) < 2 ^ 31 ∧ level * 2 + 1 < 2 ^ 31 :=
      fun c hc => ⟨hfit.1 c hc, hfit.2⟩
    rw [if_pos hfit, if_pos (hsum _ (by simp [Pixel.rgbChannels])), if_pos (hsum _ (by simp [Pixel.rgbChannels])),
      if_pos (hsum _ (by simp [Pixel.rgbChannels]))]
    rfl
  · rw [if_neg hfit]
    simp only [SumsFit, Pixel.rgbChannels, List.forall_mem_cons, List.not_mem_nil, IsEmpty.forall_iff, implies_true,
      and_true] at hfit
    split_ifs <;> first | rfl | (exfalso; tauto)

/-! ## The scan -/

/-- The means over windows of the original image, whatever the scan order. -/
def LowPassed (image : BiImage) (level : Int) : Prop :=
  ∃ out, lowResolution image level = some out ∧ ∀ p, image.Inside p → ∀ c ∈ Pixel.rgbChannels,
    ((c (out.px p)).toNat : Int) = channelMean c level (windowOf image image.px level p)

/-- The table that the pixel at `p` is computed from, if all is well before it: means before `p`, old pixels after. -/
def mixed (image : BiImage) (level : Int) (p q : Nat × Nat) : Pixel :=
  if RasterLt q p then meanPixel level (windowOf image image.px level q) else image.px q

/-- No sum is too large, and the pixels before one that have become means do not change the mean over its window. -/
def Undisturbed (image : BiImage) (level : Int) : Prop :=
  ∀ p, image.Inside p → SumsFit level (windowOf image (mixed image level p) level p) ∧
    ∀ c ∈ Pixel.rgbChannels, channelMean c level (windowOf image (mixed image level p) level p) =
      channelMean c level (windowOf image image.px level p)

theorem windowOf_congr {a b : Nat × Nat → Pixel} (hp : image.Inside p) (hab : ∀ q, image.Inside q → a q = b q) :
    windowOf image a level p = windowOf image b level p := by
  have hw : 0 < image.width := Nat.zero_lt_of_lt hp.1
  have hh : 0 < image.height := Nat.zero_lt_of_lt hp.2
  exact List.flatMap_congr fun k _ => List.map_congr_left fun l _ => by rw [hab _ (inside_cell hw hh _ _)]

/-- The channels of the pixel of the means. -/
theorem toNat_meanPixel (h0 : 0 ≤ level) (a : Nat × Nat → Pixel) (p : Nat × Nat) (hc : c ∈ Pixel.rgbChannels) :
    ((c (meanPixel level (windowOf image a level p))).toNat : Int) =
      channelMean c level (windowOf image a level p) := by
  obtain ⟨hlo, hhi⟩ := channelMean_bounds h0 image c a p
  rw [← Pixel.toNat_ofInt hlo hhi]
  simp only [Pixel.rgbChannels, List.mem_cons, List.not_mem_nil, or_false] at hc
  rcases hc with rfl | rfl | rfl
  · rfl
  · rfl
  · rfl

theorem meanPixel_eq_iff (h0 : 0 ≤ level) (a b : Nat × Nat → Pixel) (p : Nat × Nat) :
    meanPixel level (windowOf image a level p) = meanPixel level (windowOf image b level p) ↔
      ∀ c ∈ Pixel.rgbChannels, channelMean c level (windowOf image a level p) =
        channelMean c level (windowOf image b level p) := by
  constructor
  · intro h c hc
    rw [← toNat_meanPixel h0 a p hc, ← toNat_meanPixel h0 b p hc, h]
  · intro h
    refine Pixel.rgb_ext fun c hc => ?_
    have hmean := h c hc
    rw [← toNat_meanPixel h0 a p hc, ← toNat_meanPixel h0 b p hc] at hmean
    exact_mod_cast hmean

theorem lowResolution_eq (image : BiImage) (level : Int) : lowResolution image level =
    (grid image).foldlM (fun t p => (lowPixel t level p.1 p.2).map fun pixel => t.put p.1 p.2 pixel) image := by
  rw [lowResolution, Checked.forLoop_forLoop]
  rfl

/-- A mixed window gives the mean of the original one. -/
theorem meanOf_eq_some_iff (h0 : 0 ≤ level) (a b : Nat × Nat → Pixel) (p : Nat × Nat) :
    meanOf level (windowOf image a level p) = some (meanPixel level (windowOf image b level p)) ↔
      SumsFit level (windowOf image a level p) ∧
        ∀ c ∈ Pixel.rgbChannels, channelMean c level (windowOf image a level p) =
          channelMean c level (windowOf image b level p) := by
  rw [meanOf, Option.ite_none_right_eq_some, Option.some_inj, meanPixel_eq_iff h0]

/-- The scan puts the means of the original windows exactly where each of them comes out of the mixed table. -/
theorem foldlM_lowPixel_iff (h0 : 0 ≤ level) (hw : level ≤ image.width) (hh : level ≤ image.height) :
    (∃ out, lowResolution image level = some out ∧
      ∀ p, image.Inside p → out.px p = meanPixel level (windowOf image image.px level p)) ↔
      Undisturbed image level := by
  have hiff := foldlM_put_iff (g := fun p => meanPixel level (windowOf image image.px level p))
    (F := fun a p => meanOf level (windowOf image a level p))
    (fun t p ht hp => lowPixel_eq h0 ht hp hw hh)
    fun a b p hp hab => congrArg (meanOf level) (windowOf_congr hp hab)
  rw [lowResolution_eq]
  exact hiff.trans (forall₂_congr fun p _ => meanOf_eq_some_iff h0 (mixed image level p) image.px p)

/-- **When the filter is a convolution of the original image**: where the means written before a pixel do not show in
its own mean. -/
theorem lowPassed_iff (h0 : 0 ≤ level) (hw : level ≤ image.width) (hh : level ≤ image.height) :
    LowPassed image level ↔ Undisturbed image level := by
  rw [← foldlM_lowPixel_iff h0 hw hh]
  constructor
  · rintro ⟨out, hrun, hmean⟩
    refine ⟨out, hrun, ?_⟩
    rw [lowResolution_eq] at hrun
    -- what has been put has no label
    have hrgb := px_of_foldlM_put (Q := fun _ pixel => ∃ r g b, pixel = Pixel.rgb r g b) hrun
      fun t p pixel _ hput => by
        obtain ⟨r, -, hput⟩ := Option.bind_eq_some_iff.1 hput
        obtain ⟨g, -, hput⟩ := Option.bind_eq_some_iff.1 hput
        obtain ⟨b, -, hput⟩ := Option.map_eq_some_iff.1 hput
        exact ⟨r, g, b, hput.symm⟩
    intro p hp
    obtain ⟨r, g, b, hpx⟩ := hrgb p hp
    have hchannels := hmean p hp
    rw [hpx] at hchannels ⊢
    refine Pixel.rgb_ext fun c hc => ?_
    have hc' := hchannels c hc
    rw [← toNat_meanPixel h0 image.px p hc] at hc'
    exact_mod_cast hc'
  · rintro ⟨out, hrun, hpx⟩
    refine ⟨out, hrun, fun p hp c hc => ?_⟩
    rw [hpx p hp, toNat_meanPixel h0 image.px p hc]

/-- A bright pixel and two dark ones. -/
def brightStart : BiImage := ofFn 3 1 three_fits one_fits fun x _ => if x = 0 then Pixel.gray 255 else Pixel.gray 0

/-- A pixel that is a little brighter than the others. -/
def speck : BiImage :=
  ofFn 3 2 three_fits two_fits fun x y => if (x, y) = (0, 0) then Pixel.gray 12 else Pixel.gray 10

/-- The filter smooths it away. -/
theorem lowPassed_speck : LowPassed speck 1 ∧
    (lowResolution speck 1).map (fun out => (out.px (0, 0)).red) = some 10 := by
  refine ⟨(lowPassed_iff (by decide) (by decide) (by decide)).2 fun p hp => ?_, by decide +kernel⟩
  obtain ⟨x, y⟩ := p
  have hx : x < 3 := hp.1
  have hy : y < 2 := hp.2
  interval_cases y
  · interval_cases x <;> decide +kernel
  · interval_cases x <;> decide +kernel

/-- All three means are 85, but the second pixel is computed from the first one's mean. -/
theorem not_lowPassed_brightStart : ¬LowPassed brightStart 1 := by
  rintro ⟨out, hrun, hmean⟩
  have hred : (lowResolution brightStart 1).map (fun out => (out.px (1, 0)).red) = some 28 := by decide +kernel
  rw [hrun, Option.map_some, Option.some_inj] at hred
  have h := hmean (1, 0) (by decide) Pixel.red (by simp [Pixel.rgbChannels])
  rw [hred] at h
  revert h
  decide +kernel

end LeftFelt.ImageUtil
