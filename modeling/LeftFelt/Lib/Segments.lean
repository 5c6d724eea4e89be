import Mathlib.Data.List.Infix
import Mathlib.Data.List.Induction
import Mathlib.Data.List.TakeWhile

/-!
# Paths and their segments

A path is the list of its segments, each printed behind a separator (`joined`); `List.splitOn` takes it apart again.

Segments are resolved on a stack: the segment `up` takes the last one away, or nothing if there is none, and every
other one is put at the end (`climb`). How much is left is seen at the tails of the list: at least `k` segments are
left exactly if some tail has at least `k` more ordinary segments than ups (`le_length_climb`).
-/

namespace LeftFelt.Lib.Segments

/-! ## Joining -/

section Joined

variable {α : Type*} {sep : α} {segs : List (List α)}

/-- The segments, each behind a separator. -/
def joined (sep : α) (segs : List (List α)) : List α := segs.flatMap (sep :: ·)

@[simp] theorem joined_nil (sep : α) : joined sep [] = [] := rfl

@[simp] theorem joined_cons (sep : α) (s : List α) (segs : List (List α)) :
    joined sep (s :: segs) = sep :: (s ++ joined sep segs) := rfl

theorem joined_append (sep : α) (segs segs' : List (List α)) :
    joined sep (segs ++ segs') = joined sep segs ++ joined sep segs' := List.flatMap_append

/-- All segments but the first stand behind a separator in Mathlib's `intercalate`, too. -/
theorem intercalate_cons (s : List α) : [sep].intercalate (s :: segs) = s ++ joined sep segs := by
  induction segs generalizing s with
  | nil => simp
  | cons t segs ih => rw [List.intercalate_cons_of_ne_nil (List.cons_ne_nil t segs), ih t]; simp

/-- **Every string behind a separator** is a list of segments. -/
theorem joined_splitOn [BEq α] [LawfulBEq α] (sep : α) (s : List α) : joined sep (s.splitOn sep) = sep :: s := by
  cases h : s.splitOn sep with
  | nil => exact absurd h (List.splitOn_ne_nil sep s)
  | cons t segs => rw [joined_cons, ← intercalate_cons, ← h, List.intercalate_splitOn]

/-- No segment has a separator. -/
theorem not_mem_of_mem_splitOn [BEq α] [LawfulBEq α] {s t : List α} (h : t ∈ s.splitOn sep) : sep ∉ t := by
  induction hn : s.length using Nat.strong_induction_on generalizing s with
  | h n ih =>
    by_cases hs : sep ∈ s
    · obtain ⟨u, v, rfl, hu⟩ := List.eq_append_cons_of_mem hs
      rw [List.splitOn_append_cons_self_of_not_mem hu] at h
      rw [List.length_append, List.length_cons] at hn
      cases List.mem_cons.1 h with
      | inl heq => exact heq ▸ hu
      | inr hv => exact ih v.length (by omega) hv rfl
    · rw [List.splitOn_eq_singleton hs, List.mem_singleton] at h
      exact h ▸ hs

/-- **The segments are taken apart again.** -/
theorem splitOn_joined [BEq α] [LawfulBEq α] (h : ∀ s ∈ segs, sep ∉ s) :
    (joined sep segs).splitOn sep = [] :: segs := by
  have hsplit : (List.intercalate [sep] ([] :: segs)).splitOn sep = [] :: segs :=
    List.splitOn_intercalate sep (by simpa using h) (List.cons_ne_nil _ _)
  rwa [intercalate_cons, List.nil_append] at hsplit

/-- A list that is cut at two places: they are the same, or one stands in front of the other. -/
theorem append_cons_eq_append_cons {a : α} {s t u v : List α} (h : s ++ a :: t = u ++ a :: v) :
    (s = u ∧ t = v) ∨ (∃ x, u = s ++ a :: x ∧ t = x ++ a :: v) ∨ ∃ x, s = u ++ a :: x ∧ v = x ++ a :: t := by
  obtain ⟨x, hu, ht⟩ | ⟨x, hs, hv⟩ := List.append_eq_append_iff.mp h
  · cases x with
    | nil => exact Or.inl ⟨by simpa using hu.symm, (List.cons.inj ht).2⟩
    | cons b x =>
      obtain ⟨rfl, hrest⟩ := List.cons.inj ht
      exact Or.inr (Or.inl ⟨x, hu, hrest⟩)
  · cases x with
    | nil => exact Or.inl ⟨by simpa using hs, (List.cons.inj hv).2.symm⟩
    | cons b x =>
      obtain ⟨rfl, hrest⟩ := List.cons.inj hv
      exact Or.inr (Or.inr ⟨x, hs, hrest⟩)

/-- What begins with a byte stands behind a string without it. -/
theorem infix_of_not_mem {a : α} {s t q : List α} (h : a ∉ s) (hsub : a :: q <:+: s ++ t) : a :: q <:+: t := by
  induction s with
  | nil => exact hsub
  | cons b s ih =>
    rw [List.mem_cons, not_or] at h
    cases List.infix_cons_iff.1 hsub with
    | inl hfront => exact absurd (List.cons_prefix_cons.1 hfront).1 h.1
    | inr hsub => exact ih h.2 hsub

/-- Between two separators that touch there is an empty segment, which is not the last one. -/
theorem nil_mem_dropLast (h : ∀ s ∈ segs, sep ∉ s) (hsub : [sep, sep] <:+: joined sep segs) : [] ∈ segs.dropLast := by
  induction segs with
  | nil => exact absurd (List.eq_nil_of_infix_nil hsub) (List.cons_ne_nil _ _)
  | cons s segs ih =>
    cases segs with
    | nil =>
      have hs := h s List.mem_cons_self
      rw [joined_cons, joined_nil, List.append_nil] at hsub
      cases List.infix_cons_iff.1 hsub with
      | inl hfront =>
        have hsep := (List.cons_prefix_cons.1 hfront).2
        exact absurd (hsep.subset List.mem_cons_self) hs
      | inr hsub => exact absurd (hsub.subset List.mem_cons_self) hs
    | cons t segs =>
      rw [List.dropLast_cons_cons, List.mem_cons]
      cases List.infix_cons_iff.1 hsub with
      | inl hfront =>
        cases s with
        | nil => exact Or.inl rfl
        | cons a s =>
          have hsep : [sep] <+: a :: (s ++ joined sep (t :: segs)) := (List.cons_prefix_cons.1 hfront).2
          have ha := (List.cons_prefix_cons.1 hsep).1
          exact absurd (ha ▸ List.mem_cons_self) (h (a :: s) List.mem_cons_self)
      | inr hsub =>
        exact Or.inr (ih (fun s hs => h s (List.mem_cons_of_mem _ hs))
          (infix_of_not_mem (h s List.mem_cons_self) hsub))

/-- An empty segment, which is not the last one, stands between two separators that touch. -/
theorem infix_of_nil_mem_dropLast (h : [] ∈ segs.dropLast) : [sep, sep] <:+: joined sep segs := by
  obtain ⟨u, v, hu⟩ := List.append_of_mem h
  have hne : segs ≠ [] := by
    rintro rfl
    cases h
  rw [← List.dropLast_append_getLast hne, hu]
  refine ⟨joined sep u, ?_⟩
  cases v with
  | nil => exact ⟨segs.getLast hne, by simp [joined_append]⟩
  | cons s v => exact ⟨s ++ joined sep (v ++ [segs.getLast hne]), by simp [joined_append]⟩

/-- Up to an inner empty segment there is less than all segments. -/
theorem length_joined_takeWhile_lt [DecidableEq α] (h : [] ∈ segs.dropLast) :
    (joined sep (segs.takeWhile (· ≠ []))).length + 1 < (joined sep segs).length := by
  induction segs with
  | nil => cases h
  | cons s segs ih =>
    obtain ⟨t, segs, rfl⟩ : ∃ t segs', segs = t :: segs' := by
      cases segs with
      | nil => cases h
      | cons t segs => exact ⟨t, segs, rfl⟩
    by_cases hs : s = []
    · rw [hs, List.takeWhile_cons_of_neg (by simp)]
      simp
    · rw [List.dropLast_cons_cons, List.mem_cons] at h
      have hrest := ih (h.resolve_left (Ne.symm hs))
      rw [List.takeWhile_cons_of_pos (by simpa using hs), joined_cons, joined_cons, List.length_cons,
        List.length_cons, List.length_append, List.length_append]
      omega

/-- Segments up to an empty one at the end, and its separator. -/
theorem joined_takeWhile [DecidableEq α] (h : [] ∉ segs.dropLast) :
    joined sep (segs.takeWhile (· ≠ [])) ++ (if [] ∈ segs then [sep] else []) = joined sep segs := by
  have htake : ∀ segs : List (List α), [] ∉ segs → segs.takeWhile (· ≠ []) = segs := fun segs hsegs =>
    List.takeWhile_eq_self_iff.2 fun s hs => by simpa using ne_of_mem_of_not_mem hs hsegs
  by_cases hnil : [] ∈ segs
  · obtain rfl | ⟨init, s, rfl⟩ := List.eq_nil_or_concat' segs
    · exact absurd hnil List.not_mem_nil
    · rw [List.dropLast_concat] at h
      have hs : [] = s := by simpa [h] using hnil
      rw [if_pos hnil, ← hs, List.takeWhile_append, htake init h, if_pos rfl, List.takeWhile_cons_of_neg (by simp),
        List.append_nil, joined_append]
      simp
  · rw [if_neg hnil, htake segs hnil, List.append_nil]

end Joined

/-! ## Climbing -/

section Climb

variable {β : Type*} [DecidableEq β] {up : β} {stack segs : List β}

/-- One segment. -/
def climbOne (up : β) (stack : List β) (s : β) : List β := if s = up then stack.dropLast else stack ++ [s]

/-- The segments one after the other. -/
def climb (up : β) (stack segs : List β) : List β := segs.foldl (climbOne up) stack

@[simp] theorem climb_nil : climb up stack [] = stack := rfl

theorem climb_cons (s : β) : climb up stack (s :: segs) = climb up (climbOne up stack s) segs := rfl

theorem climb_append (segs' : List β) : climb up stack (segs ++ segs') = climb up (climb up stack segs) segs' :=
  List.foldl_append

/-- What is left has been there before, or is an ordinary segment. -/
theorem mem_climb {s : β} (h : s ∈ climb up stack segs) : s ∈ stack ∨ s ∈ segs ∧ s ≠ up := by
  induction segs generalizing stack with
  | nil => exact Or.inl h
  | cons t segs ih =>
    cases ih h with
    | inl hone =>
      unfold climbOne at hone
      split at hone
      · exact Or.inl (List.mem_of_mem_dropLast hone)
      · rename_i hup
        cases List.mem_append.1 hone with
        | inl hold => exact Or.inl hold
        | inr hnew =>
          rw [List.mem_singleton] at hnew
          exact Or.inr ⟨hnew ▸ List.mem_cons_self, hnew ▸ hup⟩
    | inr hrest => exact Or.inr ⟨List.mem_cons_of_mem _ hrest.1, hrest.2⟩

/-- Ordinary segments are put to the end. -/
theorem climb_of_not_mem (h : up ∉ segs) : climb up stack segs = stack ++ segs := by
  induction segs generalizing stack with
  | nil => rw [climb_nil, List.append_nil]
  | cons s segs ih =>
    rw [List.mem_cons, not_or] at h
    rw [climb_cons, climbOne, if_neg (Ne.symm h.1), ih h.2, List.append_assoc, List.singleton_append]

/-- A stack without `up` could as well be climbed first. -/
theorem climb_eq_climb_append (h : up ∉ stack) : climb up stack segs = climb up [] (stack ++ segs) := by
  rw [climb_append, climb_of_not_mem h, List.nil_append]

/-- **How much is left**: at least as many segments as a tail has more ordinary ones than ups. -/
theorem le_length_climb {k : Nat} : k ≤ (climb up [] segs).length ↔
    ∃ t, t <:+ segs ∧ t.countP (· = up) + k ≤ t.countP (· ≠ up) := by
  induction segs using List.reverseRecOn generalizing k with
  | nil =>
    have hnil : k ≤ (climb up [] []).length ↔ ([] : List β).countP (· = up) + k ≤ ([] : List β).countP (· ≠ up) := by
      simp
    constructor
    · intro h
      exact ⟨[], List.suffix_rfl, hnil.1 h⟩
    · rintro ⟨t, ht, h⟩
      rw [List.eq_nil_of_suffix_nil ht] at h
      exact hnil.2 h
  | append_singleton segs s ih =>
    rw [climb_append, climb_cons, climb_nil, climbOne]
    cases k with
    | zero => exact iff_of_true (Nat.zero_le _) ⟨[], List.nil_suffix, Nat.le_refl 0⟩
    | succ k =>
      have hsuffix : (∃ t, t <:+ segs ++ [s] ∧ t.countP (· = up) + (k + 1) ≤ t.countP (· ≠ up)) ↔
          ∃ t, t <:+ segs ∧ (t ++ [s]).countP (· = up) + (k + 1) ≤ (t ++ [s]).countP (· ≠ up) := by
        constructor
        · rintro ⟨t, ht, h⟩
          cases List.suffix_concat_iff.1 ht with
          | inl hnil =>
            rw [hnil] at h
            exact absurd h (Nat.not_succ_le_zero _)
          | inr hex =>
            obtain ⟨u, rfl, hu⟩ := hex
            exact ⟨u, hu, h⟩
        · rintro ⟨t, ht, h⟩
          exact ⟨t ++ [s], List.suffix_concat_iff.2 (Or.inr ⟨t, rfl, ht⟩), h⟩
      rw [hsuffix]
      by_cases hup : s = up
      · have hpop : k + 1 ≤ (climb up [] segs).dropLast.length ↔ k + 2 ≤ (climb up [] segs).length := by
          rw [List.length_dropLast]
          omega
        rw [if_pos hup, hpop, ih]
        simp [hup, Nat.add_assoc, Nat.add_comm 1]
      · have hpush : k + 1 ≤ (climb up [] segs ++ [s]).length ↔ k ≤ (climb up [] segs).length := by
          rw [List.length_append, List.length_singleton, Nat.add_le_add_iff_right]
        rw [if_neg hup, hpush, ih]
        simp [hup, ← Nat.add_assoc]

/-- **Something is left** exactly if some tail has more ordinary segments than ups. -/
theorem climb_ne_nil : climb up [] segs ≠ [] ↔ ∃ t, t <:+ segs ∧ t.countP (· = up) < t.countP (· ≠ up) := by
  rw [← List.length_pos_iff, Nat.lt_iff_add_one_le, Nat.zero_add, le_length_climb]
  rfl

end Climb

end LeftFelt.Lib.Segments
