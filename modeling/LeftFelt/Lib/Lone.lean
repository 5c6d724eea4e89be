import Mathlib.Data.List.Basic
import Mathlib.Logic.Function.Basic

/-!
# One thread at a time

Threads hold lists of values. At most one of them holds any (`Lone`): then a step of a thread, while the others hold
nothing, changes what is held to what it holds afterwards.
-/

namespace LeftFelt.Lib

variable {ι V : Type*} {w : ι → List V} {held : List V} {i : ι}

/-- At most one thread holds values, and what is held is `held`. -/
def Lone (w : ι → List V) (held : List V) : Prop :=
  (held = [] ∧ ∀ i, w i = []) ∨ ∃ i, w i = held ∧ ∀ j ≠ i, w j = []

namespace Lone

theorem of_empty (h : ∀ i, w i = []) : Lone w [] := Or.inl ⟨rfl, h⟩

/-- If the others hold nothing, a thread holds what is held. -/
theorem eq_of_free (h : Lone w held) (hfree : ∀ j ≠ i, w j = []) : w i = held := by
  obtain ⟨rfl, hempty⟩ | ⟨j, rfl, hj⟩ := h
  · exact hempty i
  · by_cases hij : i = j
    · rw [hij]
    · rw [hj i hij, hfree j (Ne.symm hij)]

/-- If a thread holds values, the others hold nothing. -/
theorem free_of_ne_nil (h : Lone w held) (hne : w i ≠ []) : ∀ j ≠ i, w j = [] := by
  obtain ⟨-, hempty⟩ | ⟨j, -, hj⟩ := h
  · exact absurd (hempty i) hne
  · by_cases hij : i = j
    · exact hij ▸ hj
    · exact absurd (hj i hij) hne

/-- If no thread holds anything, nothing is held. -/
theorem held_eq_nil (h : Lone w held) (hempty : ∀ i, w i = []) : held = [] := by
  obtain ⟨hnil, -⟩ | ⟨i, rfl, -⟩ := h
  · exact hnil
  · exact hempty i

variable {T : Type*} {threads : ι → T} {holds : T → List V} [DecidableEq ι]

/-- **A step of one thread**, while the others hold nothing. -/
theorem update (hfree : ∀ j ≠ i, holds (threads j) = []) (t : T) :
    Lone (holds ∘ Function.update threads i t) (holds t) := by
  rw [Function.comp_update]
  refine Or.inr ⟨i, Function.update_self _ _ _, fun j hj => ?_⟩
  rw [Function.update_of_ne hj]
  exact hfree j hj

/-- A step that holds what was held before. -/
theorem update_same (h : Lone (holds ∘ threads) held) {t : T} (ht : holds (threads i) = holds t) :
    Lone (holds ∘ Function.update threads i t) held := by
  have hsame : (holds ∘ threads) i = holds t := ht
  rwa [Function.comp_update, ← hsame, Function.update_eq_self]

end Lone

end LeftFelt.Lib
