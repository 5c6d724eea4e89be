import LeftFelt.Lib.Rounding

/-!
# Numbers in binary32

The logical model of `float` (`Float32.Model`), read as rational numbers like that of `double`: the operations round
(`has_mul`, `has_div`, `has_add`), small integers and the conversion to `double` are exact (`has_int`, `has_toDouble`).
-/

namespace LeftFelt.Lib.Binary32

open Float.Model FloatFormat

variable {x y : Float32.Model} {u v : ℚ}

/-- The value of a `float` that is zero or a normal number. -/
def Has (x : Float32.Model) (v : ℚ) : Prop := HasValue Format.binary32 x.unpack v

/-- The conversion `(double)x`. -/
def toDouble (x : Float32.Model) : Float.Model := Float.Model.pack (convert Format.binary64 x.unpack)

theorem has_pack {x : UnpackedFloat} (h : HasValue Format.binary32 x v) : Has (Float32.Model.pack x) v :=
  hasValue_pack h

/-- What is far from the ends of the range. -/
theorem inRange_of_abs (h : u = 0 ∨ 1 ≤ |u| * 2 ^ 20 ∧ |u| ≤ 2 ^ 20) : InRange Format.binary32 u := by
  have hbias : Format.binary32.exponentBias = 127 := rfl
  rcases h with h | ⟨hlo, hhi⟩
  · exact .inl h
  refine .inr ⟨?_, ?_⟩
  · rw [hbias]
    calc (2 : ℚ) ^ (2 - (127 : Nat) : Int) ≤ 2 ^ (-20 : Int) := zpow_le_zpow_right₀ one_le_two (by norm_num)
      _ = 1 / 2 ^ 20 := by norm_num
      _ ≤ |u| := by rwa [div_le_iff₀ (by positivity)]
  · rw [hbias]
    exact hhi.trans_lt (by gcongr <;> norm_num)

/-- The error of a rounding. -/
theorem rounds_near (h : Rounds Format.binary32 u v) : |v - u| * (2 ^ 24 - 1) ≤ |u| := FloatFormat.rounds_near h

theorem has_mul (hx : Has x u) (hy : Has y v) (hr : InRange Format.binary32 (u * v)) :
    ∃ w, Has (x * y) w ∧ Rounds Format.binary32 (u * v) w := by
  obtain ⟨w, hw, hround⟩ := hasValue_mul hx hy hr
  exact ⟨w, has_pack hw, hround⟩

theorem has_div (hx : Has x u) (hy : Has y v) (hv : v ≠ 0) (hr : InRange Format.binary32 (u / v)) :
    ∃ w, Has (x / y) w ∧ Rounds Format.binary32 (u / v) w := by
  obtain ⟨w, hw, hround⟩ := hasValue_div hx hy hv hr
  exact ⟨w, has_pack hw, hround⟩

theorem has_add (hx : Has x u) (hy : Has y v) (hr : InRange Format.binary32 (u + v)) :
    ∃ w, Has (x + y) w ∧ Rounds Format.binary32 (u + v) w := by
  obtain ⟨w, hw, hround⟩ := hasValue_add hx hy hr
  exact ⟨w, has_pack hw, hround⟩

/-- Integers of 24 bits are exact. -/
theorem has_int {n : Int} (h : n.natAbs < 2 ^ 24) : Has (Float32.Model.ofInt n) n :=
  has_pack (hasValue_ofInt (by decide) h)

/-- Every `float` is a `double`. -/
theorem has_toDouble (hx : Has x u) : Binary64.Has (toDouble x) u :=
  Binary64.has_pack (Binary64.hasValue_iff.2 (hasValue_convert (by decide) (by decide) hx))

end LeftFelt.Lib.Binary32
