import Mathlib.Data.List.Basic
import Mathlib.Data.List.DropRight
import Mathlib.Tactic.SplitIfs

/-!
# The words of a text

The words of a text are its longest parts that are not empty and have no delimiter. A text is read with a word at its
front that has begun already: `words_end`, `words_delimiter` and `words_letter` say what becomes of it.

A word stands between two delimiters, or at an end of the text (`exists_spans`). With one delimiter between any two of
them, the words are the text without the other delimiters (`intercalate_words`).
-/

namespace LeftFelt.Lib

variable {α : Type*} {D : List α} {w s : List α} {a : α}

theorem forall_not_mem_concat (hw : ∀ b ∈ w, b ∉ D) (ha : a ∉ D) : ∀ b ∈ w ++ [a], b ∉ D := by
  simpa [or_imp, forall_and] using ⟨hw, ha⟩

/-! ## Places -/

/-- There is a delimiter. -/
def IsDelimiter (D s : List α) (k : Nat) : Prop := ∃ a ∈ D, s[k]? = some a

/-- **A longest part without delimiters**, from `i` to `j`, that is not empty. -/
structure IsWord (D s : List α) (i j : Nat) : Prop where
  lt : i < j
  le : j ≤ s.length
  free : ∀ k, i ≤ k → k < j → ¬IsDelimiter D s k
  front : i = 0 ∨ IsDelimiter D s (i - 1)
  behind : j = s.length ∨ IsDelimiter D s j

/-- Between a place where a word may begin and the next delimiter there is one word, if there is anything. -/
theorem isWord_iff {i m : Nat} (him : i ≤ m) (hfront : i = 0 ∨ IsDelimiter D s (i - 1))
    (hfree : ∀ k, i ≤ k → k < m → ¬IsDelimiter D s k) (hm : m ≤ s.length) (hbehind : m = s.length ∨ IsDelimiter D s m)
    (p : Nat × Nat) :
    i ≤ p.1 ∧ IsWord D s p.1 p.2 ↔ (i < m ∧ p = (i, m)) ∨ (m + 1 ≤ p.1 ∧ IsWord D s p.1 p.2) := by
  constructor
  · rintro ⟨hle, hword⟩
    obtain hlt | hge := Nat.lt_or_ge m p.1
    · exact .inr ⟨hlt, hword⟩
    · -- it begins at `i`, since a delimiter stands before it, and it ends at `m`
      have hstart : p.1 = i := by
        obtain hzero | hdelimiter := hword.front
        · omega
        · by_contra hne
          exact hfree (p.1 - 1) (by omega) (by have := hword.lt; omega) hdelimiter
      have hend : p.2 ≤ m := by
        obtain hlength | hdelimiter := hbehind
        · exact hlength ▸ hword.le
        · exact not_lt.1 fun hlt => hword.free m hge hlt hdelimiter
      have hlast : p.2 = m := by
        obtain hlength | hdelimiter := hword.behind
        · omega
        · by_contra hne
          exact hfree p.2 (by have := hword.lt; omega) (by omega) hdelimiter
      have hlt := hword.lt
      exact .inl ⟨by omega, Prod.ext hstart hlast⟩
  · rintro (⟨hlt, rfl⟩ | ⟨hlt, hword⟩)
    · exact ⟨le_rfl, hlt, hm, hfree, hfront, hbehind⟩
    · exact ⟨by omega, hword⟩

/-- A word that has begun behind `u` has no delimiter. -/
theorem not_isDelimiter_of_append {text u t : List α} (htext : text = u ++ (w ++ t)) (hw : ∀ b ∈ w, b ∉ D) (k : Nat)
    (hk : u.length ≤ k) (hlt : k < u.length + w.length) : ¬IsDelimiter D text k := by
  rintro ⟨a, ha, hget⟩
  rw [htext, List.getElem?_append_right hk, List.getElem?_append_left (by omega)] at hget
  exact hw a (List.mem_of_getElem? hget) ha

/-- The words from a place on, in their order. -/
structure AreWords (D s : List α) (i : Nat) (spans : List (Nat × Nat)) : Prop where
  ordered : spans.Pairwise fun p q => p.2 < q.1
  mem_iff : ∀ p, p ∈ spans ↔ i ≤ p.1 ∧ IsWord D s p.1 p.2

/-- Behind the last delimiter there is one word at most. -/
theorem AreWords.nil (D s : List α) : AreWords D s (s.length + 1) [] where
  ordered := .nil
  mem_iff p := ⟨fun hmem => (List.not_mem_nil hmem).elim, fun ⟨hle, hword⟩ => by
    have := hword.lt
    have := hword.le
    omega⟩

/-- The words before a place, and those behind it. -/
theorem AreWords.cons {i m : Nat} {spans : List (Nat × Nat)} (h : AreWords D s (m + 1) spans) (him : i ≤ m)
    (hfront : i = 0 ∨ IsDelimiter D s (i - 1)) (hfree : ∀ k, i ≤ k → k < m → ¬IsDelimiter D s k) (hm : m ≤ s.length)
    (hbehind : m = s.length ∨ IsDelimiter D s m) :
    AreWords D s i ((if i < m then [(i, m)] else []) ++ spans) where
  ordered := by
    have hbefore : ∀ q ∈ spans, m < q.1 := fun q hq => ((h.mem_iff q).1 hq).1
    split_ifs with hlt
    · exact List.pairwise_cons.2 ⟨hbefore, h.ordered⟩
    · exact h.ordered
  mem_iff p := by
    rw [isWord_iff him hfront hfree hm hbehind, List.mem_append, h.mem_iff]
    split_ifs with hlt
    · simp [hlt]
    · simp [hlt]

variable [DecidableEq α]

/-- The words of a text, where the delimiters are those in `D`. -/
def words (D s : List α) : List (List α) := (s.splitOnP (· ∈ D)).filter (· ≠ [])

/-- A word, unless it is empty. -/
def part (w : List α) : List (List α) := if w = [] then [] else [w]

/-- The text ends: so does the word. -/
theorem words_end (hw : ∀ b ∈ w, b ∉ D) : words D w = part w := by
  have hsplit : w.splitOnP (· ∈ D) = [w] := List.splitOnP_eq_singleton (by simpa using hw)
  rw [words, hsplit, part]
  by_cases h : w = [] <;> simp [h]

/-- A delimiter ends the word. -/
theorem words_delimiter (hw : ∀ b ∈ w, b ∉ D) (ha : a ∈ D) (s : List α) :
    words D (w ++ a :: s) = part w ++ words D s := by
  have hsplit : (w ++ a :: s).splitOnP (· ∈ D) = w :: s.splitOnP (· ∈ D) :=
    List.splitOnP_append_cons_of_forall_mem (by simpa using hw) a (by simpa using ha) s
  rw [words, hsplit, part, words, List.filter_cons]
  by_cases h : w = [] <;> simp [h]

/-- Any other letter is put at the end of the word. -/
theorem words_letter (w s : List α) (a : α) : words D (w ++ a :: s) = words D (w ++ [a] ++ s) := by
  rw [List.append_assoc, List.singleton_append]

/-- **The words have all letters of the text** that are not delimiters. -/
theorem flatten_words (hw : ∀ b ∈ w, b ∉ D) (s : List α) : (words D (w ++ s)).flatten = w ++ s.filter (· ∉ D) := by
  have hpart : ∀ w : List α, (part w).flatten = w := fun w => by
    rw [part]
    split_ifs with h <;> simp [h]
  induction s generalizing w with
  | nil => simp [words_end hw, hpart]
  | cons a s ih =>
    by_cases ha : a ∈ D
    · rw [words_delimiter hw ha, List.flatten_append, hpart]
      simpa [ha] using ih (w := []) (by simp)
    · rw [words_letter, ih (forall_not_mem_concat hw ha)]
      simp [ha]

theorem words_congr {D' : List α} (h : ∀ a, a ∈ D ↔ a ∈ D') (s : List α) : words D s = words D' s := by
  simp only [words, h]

theorem nil_not_mem_words : [] ∉ words D s := by simp [words]

/-! ## Where the words stand -/

/-- What a text has from one place to another. -/
def cut (s : List α) (p : Nat × Nat) : List α := (s.drop p.1).take (p.2 - p.1)

omit [DecidableEq α] in
theorem map_cut_part (u w t : List α) :
    (if u.length < u.length + w.length then [(u.length, u.length + w.length)] else []).map (cut (u ++ (w ++ t))) =
      part w := by
  have hcut : cut (u ++ (w ++ t)) (u.length, u.length + w.length) = w := by
    rw [cut, List.drop_left, Nat.add_sub_cancel_left, List.take_left]
  by_cases h : w = []
  · simp [part, h]
  · simp [part, h, hcut, List.length_pos_of_ne_nil]

/-- The words from a place on, where a word may begin, when `w` has been read. -/
theorem exists_spans_from {text : List α} (u w t : List α) (htext : text = u ++ (w ++ t))
    (hu : u.length = 0 ∨ IsDelimiter D text (u.length - 1)) (hw : ∀ b ∈ w, b ∉ D) :
    ∃ spans, AreWords D text u.length spans ∧ words D (w ++ t) = spans.map (cut text) := by
  induction t generalizing u w with
  | nil =>
    have hlength : u.length + w.length = text.length := by simp [htext]
    have hfree := not_isDelimiter_of_append htext hw
    have hrest := (AreWords.nil D text).cons (hlength ▸ Nat.le_add_right _ _) hu (hlength ▸ hfree) le_rfl (.inl rfl)
    refine ⟨_, hrest, ?_⟩
    rw [List.append_nil, words_end hw, List.append_nil, ← hlength, htext, map_cut_part]
  | cons a t ih =>
    have hnext : text[u.length + w.length]? = some a := by
      rw [htext, ← List.append_assoc, ← List.length_append]
      simp
    by_cases ha : a ∈ D
    · have hdelimiter : IsDelimiter D text (u.length + w.length) := ⟨a, ha, hnext⟩
      have hlength : (u ++ w ++ [a]).length = u.length + w.length + 1 := by simp [Nat.add_assoc]
      have hm : u.length + w.length ≤ text.length := by simp [htext]
      obtain ⟨spans, hspans, hwords⟩ :=
        ih (u ++ w ++ [a]) [] (by simp [htext]) (.inr (hlength ▸ hdelimiter)) (by simp)
      rw [hlength] at hspans
      have hfree := not_isDelimiter_of_append htext hw
      refine ⟨_, hspans.cons (Nat.le_add_right _ _) hu hfree hm (.inr hdelimiter), ?_⟩
      rw [words_delimiter hw ha, List.map_append, htext, map_cut_part, ← htext]
      exact congrArg _ hwords
    · rw [words_letter]
      exact ih u (w ++ [a]) (by simp [htext]) hu (forall_not_mem_concat hw ha)

/-- **The words stand where the longest parts without delimiters are.** -/
theorem exists_spans (D s : List α) : ∃ spans, AreWords D s 0 spans ∧ words D s = spans.map (cut s) :=
  exists_spans_from [] [] s rfl (.inl rfl) (by simp)

/-! ## The words put together -/

/-- Of delimiters that follow each other only the last one is kept. -/
def collapse (d : α) : List α → List α
  | [] => []
  | a :: s => if a = d ∧ s.head? = some d then collapse d s else a :: collapse d s

theorem collapse_cons_of_ne {d : α} (h : a ≠ d) (s : List α) : collapse d (a :: s) = a :: collapse d s :=
  if_neg fun hd => h hd.1

/-- A run of delimiters becomes one. -/
theorem collapse_cons_self (d : α) (s : List α) : collapse d (d :: s) = d :: (collapse d s).dropWhile (· == d) := by
  induction s with
  | nil => simp [collapse]
  | cons a s ih =>
    by_cases ha : a = d
    · subst ha
      have hrun : collapse a (a :: a :: s) = collapse a (a :: s) := if_pos ⟨rfl, rfl⟩
      rw [hrun, ih, List.dropWhile_cons_of_pos (by simp), List.dropWhile_idempotent]
    · have hsingle : collapse d (d :: a :: s) = d :: collapse d (a :: s) := if_neg fun hd => ha (by simpa using hd.2)
      rw [hsingle, collapse_cons_of_ne ha, List.dropWhile_cons_of_neg (by simpa using ha)]

omit [DecidableEq α] in
/-- Nothing is taken from the end of what does not end there. -/
theorem rdropWhile_cons {p : α → Bool} (h : s.rdropWhile p ≠ [] ∨ ¬p a) :
    (a :: s).rdropWhile p = a :: s.rdropWhile p := by
  have hdrop : (s.reverse.dropWhile p).isEmpty ↔ s.rdropWhile p = [] := by simp [List.rdropWhile]
  rw [List.rdropWhile, List.reverse_cons, List.dropWhile_append]
  split_ifs with hempty
  · have hnil := hdrop.1 hempty
    have ha := h.resolve_left (not_not.2 hnil)
    rw [hnil, List.dropWhile_cons_of_neg ha]
    rfl
  · rw [List.reverse_append]
    rfl

theorem intercalate_words_ne_nil (d : α) {t : List α} (h : words D t ≠ []) : [d].intercalate (words D t) ≠ [] := by
  cases hwords : words D t with
  | nil => exact absurd hwords h
  | cons w ws =>
    have hw : w ≠ [] := fun hnil => nil_not_mem_words (D := D) (s := t) (by rw [hwords, hnil]; exact List.mem_cons_self)
    cases ws with
    | nil => rwa [List.intercalate_singleton]
    | cons v vs => simp [List.intercalate_cons_cons, hw]

/-- A word in front of the others, when these are known without the delimiters at the end. -/
theorem intercalate_cons_words {d : α} {t rest : List α} (w : List α)
    (h : [d].intercalate (words [d] t) = rest.rdropWhile (· == d)) :
    [d].intercalate (w :: words [d] t) = w ++ (d :: rest).rdropWhile (· == d) := by
  by_cases hlast : words [d] t = []
  · have hnil := List.rdropWhile_eq_nil_iff.1 (h.symm.trans (by rw [hlast]; rfl))
    have hrest : (d :: rest).rdropWhile (· == d) = [] :=
      List.rdropWhile_eq_nil_iff.2 (List.forall_mem_cons.2 ⟨beq_self_eq_true d, hnil⟩)
    rw [hlast, List.intercalate_singleton, hrest, List.append_nil]
  · have hne := intercalate_words_ne_nil d hlast
    rw [h] at hne
    rw [List.intercalate_cons_of_ne_nil hlast, h, rdropWhile_cons (.inl hne), List.append_assoc]
    rfl

/-- The words with a delimiter between them, with the word that is read and without it. -/
theorem intercalate_words_append (d : α) (t : List α) :
    (∀ w, w ≠ [] → (∀ b ∈ w, b ∉ [d]) →
      [d].intercalate (words [d] (w ++ t)) = w ++ (collapse d t).rdropWhile (· == d)) ∧
    [d].intercalate (words [d] t) = ((collapse d t).dropWhile (· == d)).rdropWhile (· == d) := by
  induction t with
  | nil =>
    refine ⟨fun w hne hw => ?_, rfl⟩
    rw [List.append_nil, words_end hw, part, if_neg hne]
    simp [collapse]
  | cons a t ih =>
    obtain ⟨hbegun, hnew⟩ := ih
    by_cases ha : a = d
    · subst ha
      refine ⟨fun w hne hw => ?_, ?_⟩
      · rw [words_delimiter hw (List.mem_singleton_self a), part, if_neg hne, List.singleton_append, collapse_cons_self]
        exact intercalate_cons_words w hnew
      · have hskip : words [a] (a :: t) = words [a] t :=
          words_delimiter (w := []) (by simp) (List.mem_singleton_self a) t
        rw [hskip, hnew, collapse_cons_self, List.dropWhile_cons_of_pos (by simp), List.dropWhile_idempotent]
    · have hfree : ∀ b ∈ [a], b ∉ [d] := by simpa using ha
      refine ⟨fun w hne hw => ?_, ?_⟩
      · rw [words_letter, hbegun _ (by simp) (forall_not_mem_concat hw (by simpa using ha)), collapse_cons_of_ne ha,
          rdropWhile_cons (.inr (by simpa using ha)), List.append_assoc]
        rfl
      · rw [collapse_cons_of_ne ha, List.dropWhile_cons_of_neg (by simpa using ha),
          rdropWhile_cons (.inr (by simpa using ha))]
        exact hbegun [a] (by simp) hfree

/-- **The words put together again**: runs of delimiters become one, and there is none at the ends. -/
theorem intercalate_words (d : α) (s : List α) :
    [d].intercalate (words [d] s) = ((collapse d s).dropWhile (· == d)).rdropWhile (· == d) :=
  (intercalate_words_append d s).2

end LeftFelt.Lib
