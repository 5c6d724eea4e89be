import LeftFelt.Base.Str
import LeftFelt.Lib.Pieces

/-!
# Escaping strings

`escapeString` puts `#` before the wildcards of SQL and `\` before quotes. It does not run into itself: different
strings are escaped to different ones (`escapeString_injective`). Only strings without any special byte are left as
they are (`lt_length_escapeString`).
-/

namespace LeftFelt.Functions

open Lib.Pieces Str

/-- `'_'`. -/
def underscore : UInt8 := 0x5F

/-- `'%'`. -/
def percent : UInt8 := 0x25

/-- `'#'`. -/
def hash : UInt8 := 0x23

/-- `'\\'`. -/
def backslash : UInt8 := 0x5C

/-- `'0'`. -/
def zero : UInt8 := 0x30

/-- `[_%#]`. -/
def wildcards : Str := [underscore, percent, hash]

/-- What `addslashes` puts a backslash before, apart from NUL. -/
def slashed : Str := [apostrophe, quote, backslash]

/-- `mb_ereg_replace('([_%#])','#\1',$string)`. -/
def replaceWildcards (string : Str) : Str := string.flatMap fun c => if c ∈ wildcards then [hash, c] else [c]

/-- `addslashes`. -/
def addslashes (string : Str) : Str :=
  string.flatMap fun c => if c = nul then [backslash, zero] else if c ∈ slashed then [backslash, c] else [c]

/-- `escapeString`. -/
def escapeString (string : Str) : Str := addslashes (replaceWildcards string)

/-! ## One byte -/

/-- What a byte is escaped to. -/
def escaped (c : UInt8) : Str :=
  if c ∈ wildcards then [hash, c] else if c = nul then [backslash, zero] else if c ∈ slashed then [backslash, c] else [c]

/-- The bytes that are not left as they are. -/
def special : Str := wildcards ++ nul :: slashed

theorem escapeString_eq_flatMap (string : Str) : escapeString string = string.flatMap escaped := by
  have hhash : hash ≠ nul ∧ hash ∉ slashed := by decide
  have hwildcards : ∀ c ∈ wildcards, c ≠ nul ∧ c ∉ slashed := by
    simp [wildcards, underscore, percent, hash, nul, slashed, apostrophe, quote, backslash]
  rw [escapeString, addslashes, replaceWildcards, List.flatMap_assoc]
  refine List.flatMap_congr fun c _ => ?_
  by_cases hc : c ∈ wildcards
  · obtain ⟨hnul, hslashed⟩ := hwildcards c hc
    simp only [escaped, if_pos hc, List.flatMap_cons, List.flatMap_nil, if_neg hhash.1, if_neg hhash.2, if_neg hnul,
      if_neg hslashed]
    rfl
  · simp only [escaped, if_neg hc, List.flatMap_cons, List.flatMap_nil, List.append_nil]

theorem escaped_of_not_mem {c : UInt8} (h : c ∉ special) : escaped c = [c] := by
  rw [special, List.mem_append, List.mem_cons, not_or, not_or] at h
  rw [escaped, if_neg h.1, if_neg h.2.1, if_neg h.2.2]

/-- **A special byte** is put behind `#` or a backslash, where `0` stands for NUL. -/
theorem escaped_cases {c : UInt8} (h : c ∈ special) :
    escaped c = [hash, c] ∨ (escaped c = [backslash, zero] ∧ c = nul) ∨ (escaped c = [backslash, c] ∧ c ∈ slashed) := by
  rw [special, List.mem_append, List.mem_cons] at h
  rw [escaped]
  split_ifs with hwildcard hnul hslashed
  · exact Or.inl rfl
  · exact Or.inr (Or.inl ⟨rfl, hnul⟩)
  · exact Or.inr (Or.inr ⟨rfl, hslashed⟩)
  · simp [hwildcard, hnul, hslashed] at h

theorem hash_mem_special : hash ∈ special := by simp [special, wildcards]

theorem backslash_mem_special : backslash ∈ special := by simp [special, slashed]

/-- It is escaped to two bytes, of which the first one is special. -/
theorem escaped_of_mem {c : UInt8} (h : c ∈ special) : ∃ d e, escaped c = [d, e] ∧ d ∈ special := by
  rcases escaped_cases h with heq | ⟨heq, -⟩ | ⟨heq, -⟩
  · exact ⟨_, _, heq, hash_mem_special⟩
  · exact ⟨_, _, heq, backslash_mem_special⟩
  · exact ⟨_, _, heq, backslash_mem_special⟩

/-- And the other one is special, or stands for NUL. -/
theorem mem_of_mem_escaped {c e : UInt8} (h : c ∈ special) (he : e ∈ escaped c) : e ∈ zero :: special := by
  have hhash := List.mem_cons_of_mem zero hash_mem_special
  have hbackslash := List.mem_cons_of_mem zero backslash_mem_special
  have hself := List.mem_cons_of_mem zero h
  rcases escaped_cases h with heq | ⟨heq, -⟩ | ⟨heq, -⟩
  · rw [heq] at he
    rcases List.mem_pair.mp he with rfl | rfl <;> assumption
  · rw [heq] at he
    rcases List.mem_pair.mp he with rfl | rfl
    · exact hbackslash
    · exact List.mem_cons_self
  · rw [heq] at he
    rcases List.mem_pair.mp he with rfl | rfl <;> assumption

/-- Different special bytes are escaped to different ones. -/
theorem eq_of_escaped_eq {a b : UInt8} (ha : a ∈ special) (hb : b ∈ special) (h : escaped a = escaped b) : a = b := by
  have hhash : hash ≠ backslash := by decide
  have hzero : zero ∉ slashed := by decide
  rcases escaped_cases ha with ha | ⟨ha, hnul⟩ | ⟨ha, hslashed⟩ <;>
    rcases escaped_cases hb with hb | ⟨hb, hnul'⟩ | ⟨hb, hslashed'⟩ <;> rw [ha, hb, List.cons.injEq] at h
  · exact List.singleton_injective h.2
  · exact absurd h.1 hhash
  · exact absurd h.1 hhash
  · exact absurd h.1.symm hhash
  · exact hnul.trans hnul'.symm
  · exact absurd (List.singleton_injective h.2 ▸ hslashed') hzero
  · exact absurd h.1.symm hhash
  · exact absurd (List.singleton_injective h.2 ▸ hslashed) hzero
  · exact List.singleton_injective h.2

theorem length_escaped (c : UInt8) : (escaped c).length = if c ∈ special then 2 else 1 := by
  by_cases h : c ∈ special
  · obtain ⟨d, e, heq, -⟩ := escaped_of_mem h
    rw [heq, if_pos h]
    rfl
  · rw [escaped_of_not_mem h, if_neg h]
    rfl

/-- The bytes of different pieces are told apart: no piece begins with another one. -/
theorem escaped_prefix {a b : UInt8} (h : escaped a <+: escaped b) : a = b := by
  by_cases ha : a ∈ special
  · by_cases hb : b ∈ special
    · have hlength : (escaped a).length = (escaped b).length := by
        rw [length_escaped, length_escaped, if_pos ha, if_pos hb]
      exact eq_of_escaped_eq ha hb (h.eq_of_length hlength)
    · have hle := h.length_le
      rw [length_escaped, length_escaped, if_pos ha, if_neg hb] at hle
      omega
  · rw [escaped_of_not_mem ha] at h
    by_cases hb : b ∈ special
    · obtain ⟨d, e, heq, hd⟩ := escaped_of_mem hb
      rw [heq, List.cons_prefix_cons] at h
      exact absurd (h.1 ▸ hd) ha
    · rw [escaped_of_not_mem hb, List.cons_prefix_cons] at h
      exact h.1

/-! ## Strings -/

/-- **Different strings are escaped to different strings.** -/
theorem escapeString_injective : Function.Injective escapeString := by
  have hne : ∀ c, escaped c ≠ [] := fun c => by
    rw [← List.length_pos_iff, length_escaped]
    split_ifs <;> omega
  rw [funext escapeString_eq_flatMap]
  exact flatMap_injective hne fun a b => escaped_prefix

/-- No byte of the string is special. -/
def Plain (string : Str) : Prop := ∀ c ∈ string, c ∉ special

instance (string : Str) : Decidable (Plain string) := inferInstanceAs (Decidable (∀ c ∈ string, c ∉ special))

theorem escapeString_of_plain {string : Str} (h : Plain string) : escapeString string = string := by
  rw [escapeString_eq_flatMap, List.flatMap_congr fun c hc => escaped_of_not_mem (h c hc), List.flatMap_singleton']

/-- A string gets longer by one byte for each special one. -/
theorem length_escapeString (string : Str) :
    (escapeString string).length = string.length + string.countP (· ∈ special) := by
  rw [escapeString_eq_flatMap]
  induction string with
  | nil => rfl
  | cons c string ih =>
    rw [List.flatMap_cons, List.length_append, ih, length_escaped, List.length_cons, List.countP_cons]
    simp only [decide_eq_true_eq]
    split_ifs <;> omega

theorem lt_length_escapeString {string : Str} (h : ¬Plain string) : string.length < (escapeString string).length := by
  rw [Plain] at h
  push Not at h
  obtain ⟨c, hc, hspecial⟩ := h
  have hcount : 0 < string.countP (· ∈ special) := List.countP_pos_iff.mpr ⟨c, hc, decide_eq_true hspecial⟩
  rw [length_escapeString]
  omega

/-- An escaped string is escaped again. -/
theorem not_plain_escapeString {string : Str} (h : ¬Plain string) : ¬Plain (escapeString string) := by
  rw [Plain] at h
  push Not at h
  obtain ⟨c, hc, hspecial⟩ := h
  obtain ⟨d, e, heq, hd⟩ := escaped_of_mem hspecial
  intro hplain
  refine hplain d ?_ hd
  rw [escapeString_eq_flatMap, List.mem_flatMap]
  exact ⟨c, hc, heq ▸ List.mem_cons_self⟩

/-- Escaping neither adds nor removes a byte that is not special. -/
theorem mem_escapeString {c : UInt8} (h : c ∉ zero :: special) (string : Str) :
    c ∈ escapeString string ↔ c ∈ string := by
  have hbyte : ∀ d, c ∈ escaped d ↔ c = d := fun d => by
    by_cases hd : d ∈ special
    · exact iff_of_false (fun hc => h (mem_of_mem_escaped hd hc)) fun heq => h (List.mem_cons_of_mem _ (heq ▸ hd))
    · rw [escaped_of_not_mem hd, List.mem_singleton]
  rw [escapeString_eq_flatMap, List.mem_flatMap]
  simp only [hbyte, exists_eq_right']

end LeftFelt.Functions
