import Mathlib.Data.List.Infix
import Mathlib.Data.Nat.Find

/-!
# The occurrences of a pattern in a text

`Gaps p s gaps` says what a text has before, between and behind the occurrences of a pattern: each occurrence is the
first one in what is left behind the one before. If the pattern is not empty, every text has its gaps (`exists_gaps`),
and only these (`Gaps.unique`).
-/

namespace LeftFelt.Lib.Occurrences

variable {α : Type*} {p u s : List α} {gaps others : List (List α)}

/-- The gaps of a text between the occurrences of the pattern `p`. -/
inductive Gaps (p : List α) : List α → List (List α) → Prop
  | last {s : List α} (h : ¬p <:+: s) : Gaps p s [s]
  | next {u s : List α} {gaps : List (List α)} (h : ∀ i < u.length, ¬p <+: (u ++ (p ++ s)).drop i)
      (rest : Gaps p s gaps) : Gaps p (u ++ (p ++ s)) (u :: gaps)

theorem Gaps.ne_nil (h : Gaps p s gaps) : gaps ≠ [] := by
  cases h with
  | last h => exact List.cons_ne_nil _ _
  | next h rest => exact List.cons_ne_nil _ _

/-- With the pattern between them the gaps are the text. -/
theorem Gaps.intercalate_eq (h : Gaps p s gaps) : p.intercalate gaps = s := by
  induction h with
  | last h => exact List.intercalate_singleton
  | next h rest ih => rw [List.intercalate_cons_of_ne_nil rest.ne_nil, ih, List.append_assoc]

/-- The first of two occurrences is not behind the other one. -/
theorem length_le_of_first {u' s' : List α} (h : ∀ i < u'.length, ¬p <+: (u' ++ (p ++ s')).drop i)
    (heq : u ++ (p ++ s) = u' ++ (p ++ s')) : u'.length ≤ u.length := by
  by_contra hlt
  refine h u.length (not_le.1 hlt) ?_
  rw [← heq, List.drop_left]
  exact List.prefix_append p s

/-- **A text has no other gaps.** -/
theorem Gaps.unique (h : Gaps p s gaps) (hothers : Gaps p s others) : gaps = others := by
  induction h generalizing others with
  | last h =>
    cases hothers with
    | last _ => rfl
    | next _ _ => exact absurd (List.infix_append' _ p _) h
  | @next u s gaps h rest ih =>
    generalize htext : u ++ (p ++ s) = text at hothers
    cases hothers with
    | last hnone => exact absurd (htext ▸ List.infix_append' u p s) hnone
    | next hfirst hrest =>
      have hlength := le_antisymm (length_le_of_first h htext.symm) (length_le_of_first hfirst htext)
      obtain ⟨rfl, htail⟩ := List.append_inj htext hlength
      rw [ih (List.append_cancel_left htail ▸ hrest)]

/-- What is found first in a text. -/
theorem exists_first [DecidableEq α] (h : p <:+: s) :
    ∃ u t, s = u ++ (p ++ t) ∧ ∀ i < u.length, ¬p <+: s.drop i := by
  have hfound : ∃ i, p <+: s.drop i := by
    obtain ⟨u, t, rfl⟩ := h
    exact ⟨u.length, by rw [List.append_assoc, List.drop_left]; exact List.prefix_append p t⟩
  obtain ⟨t, ht⟩ := Nat.find_spec hfound
  refine ⟨s.take (Nat.find hfound), t, ?_, fun i hi => Nat.find_min hfound ?_⟩
  · rw [ht, List.take_append_drop]
  · exact hi.trans_le (List.length_take_le _ _)

/-- **Every text has gaps.** -/
theorem exists_gaps [DecidableEq α] (hp : p ≠ []) (s : List α) : ∃ gaps, Gaps p s gaps := by
  by_cases h : p <:+: s
  · obtain ⟨u, t, hs, hfirst⟩ := exists_first h
    have hlength : t.length < s.length := by
      have := List.length_pos_of_ne_nil hp
      simp only [hs, List.length_append]
      omega
    obtain ⟨gaps, hgaps⟩ := exists_gaps hp t
    subst hs
    exact ⟨u :: gaps, .next hfirst hgaps⟩
  · exact ⟨[s], .last h⟩
termination_by s.length

end LeftFelt.Lib.Occurrences
