import Mathlib.Data.List.Basic

/-!
# What still stands

Some events put something up and others take it down. It stands after some events if it has been put up and not been
taken down since.
-/

namespace LeftFelt.Lib.Standing

variable {ε : Type*} {up down e : ε} {events : List ε}

/-- There is an event `up`, and no event `down` behind it. -/
def Stands (up down : ε) (events : List ε) : Prop := ∃ before after, events = before ++ up :: after ∧ down ∉ after

theorem not_stands_nil : ¬Stands up down [] := fun ⟨_, _, h, _⟩ => List.append_ne_nil_of_right_ne_nil _ (by simp) h.symm

/-- **One event more**: it puts up, or it stands already and is not taken down. -/
theorem stands_concat : Stands up down (events ++ [e]) ↔ e = up ∨ (Stands up down events ∧ e ≠ down) := by
  constructor
  · rintro ⟨before, after, heq, hdown⟩
    rcases List.eq_nil_or_concat' after with rfl | ⟨after, last, rfl⟩
    · exact Or.inl (List.append_inj_right' heq rfl |> List.head_eq_of_cons_eq)
    · rw [← List.cons_append, ← List.append_assoc] at heq
      obtain ⟨rfl, hlast⟩ := List.append_inj' heq rfl
      obtain rfl := List.head_eq_of_cons_eq hlast
      rw [List.mem_append, List.mem_singleton, not_or] at hdown
      exact Or.inr ⟨⟨before, after, rfl, hdown.1⟩, fun h => hdown.2 h.symm⟩
  · rintro (rfl | ⟨⟨before, after, rfl, hdown⟩, hne⟩)
    · exact ⟨events, [], rfl, List.not_mem_nil⟩
    · refine ⟨before, after ++ [e], by rw [List.append_assoc, List.cons_append], ?_⟩
      rw [List.mem_append, List.mem_singleton, not_or]
      exact ⟨hdown, hne.symm⟩

end LeftFelt.Lib.Standing
