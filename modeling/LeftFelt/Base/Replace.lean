import LeftFelt.Base.Str
import LeftFelt.Lib.Occurrences

/-!
# Replacing and stripping

`String::Replace` searches on behind what it has put in, so that it returns for every pattern that is not empty, with
the new text in place of each occurrence that the string had (`replace_spec`). `String::EndStrip` is `FrontStrip` from
the other end, except for strings of which nothing would be left (`endStrip_iff`).
-/

namespace LeftFelt.Str

open Lib Occurrences

variable {fromStr s t : Str}

/-! ## Replacing -/

theorem drop_append_add (t s : Str) (i : Nat) : (t ++ s).drop (t.length + i) = s.drop i := by
  rw [← List.drop_drop, List.drop_left]

/-- Nothing is found behind `t`. -/
theorem find_append_eq_none (t : Str) (h : ¬fromStr <:+: s) : find (t ++ s) fromStr t.length = none := by
  rw [find_eq_none]
  intro i hi _ hfront
  obtain ⟨k, rfl⟩ := Nat.exists_eq_add_of_le hi
  rw [drop_append_add] at hfront
  exact h (hfront.isInfix.trans (List.drop_suffix k s).isInfix)

/-- What is found first behind `t`. -/
theorem find_append_eq_some (t : Str) {u : Str} (h : ∀ i < u.length, ¬fromStr <+: (u ++ (fromStr ++ s)).drop i) :
    find (t ++ (u ++ (fromStr ++ s))) fromStr t.length = some (t.length + u.length) := by
  rw [find_eq_some, drop_append_add, List.drop_left]
  refine ⟨List.prefix_append fromStr s, by omega, by simp, fun i hi hlt => ?_⟩
  obtain ⟨k, rfl⟩ := Nat.exists_eq_add_of_le hi
  rw [drop_append_add]
  exact h k (by omega)

/-- The loop of `Replace`, when it has come to the end of `t` and `s` is as it was. -/
theorem replaceFrom_append {gaps : List Str} (hfrom : fromStr ≠ []) (h : Gaps fromStr s gaps) (toStr t : Str)
    {fuel : Nat} (hfuel : s.length < fuel) :
    replaceFrom fuel fromStr toStr t.length (t ++ s) = .ok (t ++ toStr.intercalate gaps) := by
  induction h generalizing t fuel with
  | @last s h =>
    obtain ⟨fuel, rfl⟩ := Nat.exists_eq_succ_of_ne_zero (Nat.ne_zero_of_lt hfuel)
    rw [replaceFrom, find_append_eq_none t h, List.intercalate_singleton]
  | @next u s gaps h rest ih =>
    obtain ⟨fuel, rfl⟩ := Nat.exists_eq_succ_of_ne_zero (Nat.ne_zero_of_lt hfuel)
    have hpositive := List.length_pos_of_ne_nil hfrom
    simp only [List.length_append] at hfuel
    have htake : (t ++ (u ++ (fromStr ++ s))).take (t.length + u.length) = t ++ u := by
      rw [← List.append_assoc, ← List.length_append, List.take_left]
    have hdrop : (t ++ (u ++ (fromStr ++ s))).drop (t.length + u.length + fromStr.length) = s := by
      rw [Nat.add_assoc, drop_append_add, drop_append_add, List.drop_left]
    have hnext := ih (t ++ u ++ toStr) (show s.length < fuel by omega)
    simp only [replaceFrom, find_append_eq_some t h, htake, hdrop]
    rw [List.length_append, List.length_append] at hnext
    rw [hnext, List.intercalate_cons_of_ne_nil rest.ne_nil]
    simp only [List.append_assoc]

/-- **`Replace` returns**, and what it puts in stands between the gaps that the string had. -/
theorem replace_spec (hfrom : fromStr ≠ []) (s : Str) :
    ∃ gaps, (∀ others, Gaps fromStr s others ↔ others = gaps) ∧ fromStr.intercalate gaps = s ∧
      ∀ toStr fuel, s.length < fuel → replace fuel s fromStr toStr = .ok (toStr.intercalate gaps) := by
  obtain ⟨gaps, hgaps⟩ := exists_gaps hfrom s
  refine ⟨gaps, fun others => ⟨fun h => h.unique hgaps, ?_⟩, hgaps.intercalate_eq, fun toStr fuel hfuel => ?_⟩
  · rintro rfl
    exact hgaps
  · exact replaceFrom_append hfrom hgaps toStr [] hfuel

/-- What is put in may have the pattern. -/
theorem replace_growing : ∃ gaps, (∀ others, Gaps (literal "ab") (literal "abab") others ↔ others = gaps) ∧
    (literal "ab").intercalate gaps = literal "abab" ∧
    ∀ toStr fuel, (literal "abab").length < fuel →
      replace fuel (literal "abab") (literal "ab") toStr = .ok (toStr.intercalate gaps) :=
  replace_spec (by decide) (literal "abab")

/-! ## Stripping -/

/-- If there is no other byte, the index goes on below 0. -/
theorem endStripFrom_replicate (c : UInt8) (n k : Nat) (hk : k ≤ n) :
    endStripFrom (List.replicate n c) c k = .error .outOfRange := by
  induction k with
  | zero => rfl
  | succ k ih =>
    have hbyte : (List.replicate n c).getD k 0 = c := by
      rw [List.getD_eq_getElem?_getD, List.getElem?_replicate, if_pos (by omega), Option.getD_some]
    rw [endStripFrom, hbyte, if_neg (not_not_intro rfl), ih (by omega)]

/-- **When stripping is symmetric**: if there is nothing to be stripped from, or something is left. -/
theorem endStrip_iff (s : Str) (c : UInt8) :
    s.endStrip c = .ok (frontStrip s.reverse c).reverse ↔ s = [] ∨ ∃ a ∈ s, a ≠ c := by
  constructor
  · intro h
    by_contra hall
    simp only [not_or, not_exists, not_and, not_not] at hall
    obtain ⟨hne, hall⟩ := hall
    rw [endStrip, if_neg hne, List.eq_replicate_of_mem hall, List.length_replicate,
      endStripFrom_replicate c s.length s.length le_rfl] at h
    cases h
  · intro h
    rw [endStrip_eq_rdropWhile h, frontStrip_eq_dropWhile]
    rfl

/-- A string of one space. -/
theorem not_endStrip_space :
    ¬∀ (s : Str) (c : UInt8), s.endStrip c = .ok (frontStrip s.reverse c).reverse := fun h =>
  absurd (h [space] space) (by decide)

end LeftFelt.Str
