import Mathlib.Data.List.Basic

/-!
# Lists put together from pieces

A list that is put together from pieces that are not longer than others is as long as the list of the others only if
no piece is shorter: then the two lists are the same exactly if all their pieces are (`flatMap_eq_flatMap_iff`). If no
piece begins with another one, the pieces can be told apart (`flatMap_injective`).
-/

namespace LeftFelt.Lib.Pieces

variable {α β : Type*} {f g : α → List β} {l : List α}

theorem length_flatMap_le (h : ∀ a ∈ l, (f a).length ≤ (g a).length) :
    (l.flatMap f).length ≤ (l.flatMap g).length := by
  induction l with
  | nil => exact Nat.le_refl _
  | cons a l ih =>
    rw [List.forall_mem_cons] at h
    rw [List.flatMap_cons, List.flatMap_cons, List.length_append, List.length_append]
    exact Nat.add_le_add h.1 (ih h.2)

/-- **The pieces of equal lists are equal**, if they are not longer than the others. -/
theorem flatMap_eq_flatMap_iff (h : ∀ a ∈ l, (f a).length ≤ (g a).length) :
    l.flatMap f = l.flatMap g ↔ ∀ a ∈ l, f a = g a := by
  refine ⟨fun heq => ?_, List.flatMap_congr⟩
  induction l with
  | nil => exact fun _ ha => by cases ha
  | cons a l ih =>
    rw [List.forall_mem_cons] at h ⊢
    rw [List.flatMap_cons, List.flatMap_cons] at heq
    have hlength := congrArg List.length heq
    rw [List.length_append, List.length_append] at hlength
    have hle := length_flatMap_le h.2
    obtain ⟨hpiece, hrest⟩ := List.append_inj heq (by omega)
    exact ⟨hpiece, ih h.2 hrest⟩

/-- **A prefix code is injective**: the pieces are not empty and none begins with another one. -/
theorem flatMap_injective (hne : ∀ a, f a ≠ []) (hfree : ∀ a b, f a <+: f b → a = b) :
    Function.Injective (List.flatMap f) := by
  intro l
  induction l with
  | nil =>
    intro l' heq
    cases l' with
    | nil => rfl
    | cons b l' => exact absurd (List.append_eq_nil_iff.mp heq.symm).1 (hne b)
  | cons a l ih =>
    intro l' heq
    cases l' with
    | nil => exact absurd (List.append_eq_nil_iff.mp heq).1 (hne a)
    | cons b l' =>
      rw [List.flatMap_cons, List.flatMap_cons] at heq
      have ha : f a <+: f a ++ l.flatMap f := List.prefix_append _ _
      have hb : f b <+: f a ++ l.flatMap f := heq ▸ List.prefix_append _ _
      have hab : a = b := (List.prefix_or_prefix_of_prefix ha hb).elim (hfree a b) fun h => (hfree b a h).symm
      subst hab
      rw [ih (List.append_cancel_left heq)]

end LeftFelt.Lib.Pieces
