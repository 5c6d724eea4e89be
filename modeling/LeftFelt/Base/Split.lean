import LeftFelt.Base.Str
import LeftFelt.Lib.Loop
import LeftFelt.Lib.Words

/-!
# Splitting a string

`String::Split` takes a string apart at every place where it has the delimiter, and leaves out what is empty: what it
returns are the words of the string (`split_eq_words`), each from where it begins to where it ends, and with a delimiter
between them they are the string in which runs of delimiters are one and the ends have none (`split_spec`).
-/

namespace LeftFelt.Str

open Lib

/-- `substr(pos, len)`. -/
def substr (s : Str) (pos len : Nat) : Str := (s.drop pos).take len

/-- The body of the loop of `Split`, with `list` and `num`. -/
def splitStep (s : Str) (delimiter : UInt8) (i : Nat) : List Str × Nat → List Str × Nat
  | (list, num) =>
    if s.getD i 0 = delimiter then
      if i ≠ num then (list ++ [s.substr num (i - num)], i + 1) else (list, num + 1)
    else (list, num)

/-- What follows the loop. -/
def splitEnd (s : Str) : List Str × Nat → List Str
  | (list, num) => if s.length ≠ num then list ++ [s.substr num (s.length - num)] else list

/-- `Split(delimiter)`. -/
def split (s : Str) (delimiter : UInt8) : List Str :=
  s.splitEnd (forLoop 0 s.length (s.splitStep delimiter) ([], 0))

theorem getD_append_cons (s w t : Str) (a : UInt8) : (s ++ (w ++ a :: t)).getD (s.length + w.length) 0 = a := by
  rw [← List.length_append, ← List.append_assoc]
  simp

theorem substr_append (s w t : Str) : substr (s ++ (w ++ t)) s.length (s.length + w.length - s.length) = w := by
  rw [substr, List.drop_left, Nat.add_sub_cancel_left, List.take_left]

/-- The loop, when the word `w` has begun behind `s` and `t` is left. -/
theorem split_from {text : Str} {delimiter : UInt8} (s w t : Str) (list : List Str) (htext : text = s ++ (w ++ t))
    (hw : ∀ b ∈ w, b ∉ [delimiter]) :
    splitEnd text ((List.range' (s.length + w.length) t.length).foldl
      (fun st i => splitStep text delimiter i st) (list, s.length)) = list ++ words [delimiter] (w ++ t) := by
  induction t generalizing s w list with
  | nil =>
    have hword := substr_append s w []
    have hlength : text.length = s.length + w.length := by simp [htext]
    rw [← htext] at hword
    rw [List.append_nil, words_end hw, part, List.length_nil, List.range'_zero, List.foldl_nil, splitEnd, hlength, hword]
    by_cases h : w = [] <;> simp [h]
  | cons a t ih =>
    have hbyte := getD_append_cons s w t a
    have hword := substr_append s w (a :: t)
    rw [← htext] at hbyte hword
    rw [List.length_cons, List.range'_succ, List.foldl_cons, splitStep, hbyte, hword]
    by_cases ha : a = delimiter
    · subst ha
      rw [if_pos rfl, words_delimiter hw (List.mem_singleton_self _), part, ← List.append_assoc]
      by_cases h : w = []
      · subst h
        simpa using ih (s ++ [a]) [] list (by simp [htext]) (by simp)
      · have hne : s.length + w.length ≠ s.length := by simpa using h
        rw [if_pos hne, if_neg h]
        simpa [Nat.add_assoc] using ih (s ++ w ++ [a]) [] (list ++ [w]) (by simp [htext]) (by simp)
    · rw [if_neg ha, words_letter]
      simpa [Nat.add_assoc] using
        ih s (w ++ [a]) list (by simp [htext]) (forall_not_mem_concat hw (by simpa using ha))

/-- **`Split` returns the words.** -/
theorem split_eq_words (s : Str) (delimiter : UInt8) : s.split delimiter = words [delimiter] s := by
  exact split_from [] [] s [] rfl (by simp)

/-- **The words of a string** are its longest parts that are not empty and have no delimiter, in their order. Put
together again, they are the string with single delimiters and none at its ends. -/
theorem split_spec (s : Str) (delimiter : UInt8) :
    (∃ spans : List (Nat × Nat), spans.Pairwise (fun p q => p.2 < q.1) ∧
      (∀ p, p ∈ spans ↔ IsWord [delimiter] s p.1 p.2) ∧
      s.split delimiter = spans.map fun p => s.substr p.1 (p.2 - p.1)) ∧
    [delimiter].intercalate (s.split delimiter) = trim (collapse delimiter s) delimiter := by
  rw [split_eq_words]
  obtain ⟨spans, hspans, hwords⟩ := exists_spans [delimiter] s
  refine ⟨⟨spans, hspans.ordered, fun p => ?_, hwords⟩, intercalate_words delimiter s⟩
  rw [hspans.mem_iff]
  exact and_iff_right (Nat.zero_le p.1)

end LeftFelt.Str
