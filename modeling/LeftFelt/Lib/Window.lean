import Mathlib.Data.Rel
import Mathlib.Logic.Function.Iterate

/-!
# Erosion and dilation by a window

A window is a relation `R`: `p ~[R] q` says that the window at `p` contains `q`. Erosion `R.core A` keeps the elements
whose window lies in `A`; dilation `R.preimage A` adds the elements whose window meets `A`. Neither the relation nor the
operations are assumed to be symmetric.

* Erosion and dilation are exchanged by complements (`compl_core`), and so are the opening and the closing
  (`compl_opened`).
* Iterating them is eroding and dilating by the iterated window (`core_iterate`, `preimage_iterate`).
* For a symmetric window the opening only removes elements and is idempotent. For any window, `opened_subset_iff` and
  `opened_opened_iff` say for which sets it is so.
-/

namespace LeftFelt.Lib

open scoped SetRel

variable {P : Type*} (R : SetRel P P) {A B : Set P}

/-- Erosion, then dilation. -/
def opened (A : Set P) : Set P := R.preimage (R.core A)

/-- Dilation, then erosion. -/
def closed (A : Set P) : Set P := R.core (R.preimage A)

/-! ## Complements and inclusions -/

theorem compl_core (A : Set P) : (R.core A)ᶜ = R.preimage Aᶜ := by
  ext p
  simp only [Set.mem_compl_iff, SetRel.mem_core, SetRel.mem_preimage, not_forall]
  constructor
  · rintro ⟨q, hpq, hq⟩
    exact ⟨q, hq, hpq⟩
  · rintro ⟨q, hq, hpq⟩
    exact ⟨q, hpq, hq⟩

theorem compl_preimage (A : Set P) : (R.preimage A)ᶜ = R.core Aᶜ := by
  rw [← compl_compl (R.core Aᶜ), compl_core, compl_compl]

/-- **Duality**: the complement of the opening is the closing of the complement. -/
theorem compl_opened (A : Set P) : (opened R A)ᶜ = closed R Aᶜ := by
  rw [opened, closed, compl_preimage, compl_core]

theorem compl_closed (A : Set P) : (closed R A)ᶜ = opened R Aᶜ := by
  rw [opened, closed, compl_core, compl_preimage]

theorem opened_mono (h : A ⊆ B) : opened R A ⊆ opened R B := SetRel.preimage_mono (SetRel.core_mono h)

theorem closed_mono (h : A ⊆ B) : closed R A ⊆ closed R B := SetRel.core_mono (SetRel.preimage_mono h)

/-! ## Iteration -/

/-- The window of `n` steps. -/
def iterated (R : SetRel P P) : Nat → SetRel P P
  | 0 => SetRel.id
  | n + 1 => R ○ iterated R n

theorem core_iterate (n : Nat) (A : Set P) : R.core^[n] A = (iterated R n).core A := by
  induction n with
  | zero => exact (SetRel.core_id A).symm
  | succ n ih => rw [Function.iterate_succ_apply', ih, iterated, SetRel.core_comp]

theorem preimage_iterate (n : Nat) (A : Set P) : R.preimage^[n] A = (iterated R n).preimage A := by
  induction n with
  | zero => exact (SetRel.preimage_id A).symm
  | succ n ih => rw [Function.iterate_succ_apply', ih, iterated, SetRel.preimage_comp]

/-! ## When the opening is one -/

/-- The opening removes elements only, exactly when every window inside `A` also has its mirror image inside `A`. -/
theorem opened_subset_iff : opened R A ⊆ A ↔ ∀ q ∈ R.core A, ∀ p, p ~[R] q → p ∈ A := by
  constructor
  · intro h q hq p hpq
    exact h ⟨q, hq, hpq⟩
  · rintro h p ⟨q, hq, hpq⟩
    exact h q hq p hpq

/-- If the opening removes elements only, it is idempotent exactly when the windows that lie in the opening are enough
to cover it. -/
theorem opened_opened_iff (h : opened R A ⊆ A) :
    opened R (opened R A) = opened R A ↔
      ∀ q ∈ R.core A, ∀ p, p ~[R] q → ∃ s, p ~[R] s ∧ ∀ t, s ~[R] t → ∃ u ∈ R.core A, t ~[R] u := by
  constructor
  · intro heq q hq p hpq
    have hp : p ∈ opened R (opened R A) := by
      rw [heq]
      exact ⟨q, hq, hpq⟩
    obtain ⟨s, hs, hps⟩ := hp
    exact ⟨s, hps, fun t hst => hs hst⟩
  · intro hcover
    refine Set.Subset.antisymm (opened_mono R h) ?_
    rintro p ⟨q, hq, hpq⟩
    obtain ⟨s, hps, hs⟩ := hcover q hq p hpq
    exact ⟨s, fun t hst => hs t hst, hps⟩

end LeftFelt.Lib
