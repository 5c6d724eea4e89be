import LeftFelt.Base.Split

/-!
# The class Script

`Script` splits its text again after every call, at several delimiters. `Split` overwrites the places where it cuts with
NUL, and takes the next cut for such a place only if NUL is a delimiter. It does not cut where a word would be empty,
but leaves the delimiter in the next word. After a cut it goes on with the remaining delimiters: one that is NUL cuts
again, and then everything that is left becomes a word.

In terms of words and what is left of the text this is `scan` (`split_eq_scan`). It returns the words of the text that
has been set exactly if no delimiter stands in front or behind another one, and each is found again and cut once
(`words_iff`).
-/

namespace LeftFelt

open Lib Str

/-- The class. -/
structure Script where
  input : Str
  delimiter : List UInt8
  result : List Str

namespace Script

/-! ## The methods -/

/-- `input`, `result` and `num` in `Split`. -/
structure Splitting where
  input : Str
  result : List Str
  num : Nat

/-- `input.substr(num, i - num)`, where `num` can be `i + 1`: then the rest is taken. -/
def wordAt (s : Splitting) (i : Nat) : Str :=
  if i < s.num then s.input.drop s.num else s.input.substr s.num (i - s.num)

/-- The body of the inner loop. -/
def cut (i : Nat) (s : Splitting) (delimiter : UInt8) : Splitting :=
  if s.input.getD i 0 = delimiter ∧ i ≠ s.num then
    let s := { s with input := s.input.set i nul }
    { s with result := s.result ++ [wordAt s i], num := i + 1 }
  else s

/-- The body of the outer loop. -/
def splitStep (delimiter : List UInt8) (i : Nat) (s : Splitting) : Splitting := delimiter.foldl (cut i) s

/-- What follows the loops, at `i`. -/
def splitEnd (i : Nat) (s : Splitting) : Splitting :=
  if i ≠ s.num then { s with result := s.result ++ [wordAt s i] } else s

/-- `Split`. -/
def split (s : Script) : Script :=
  let done := splitEnd s.input.length (forLoop 0 s.input.length (splitStep s.delimiter) ⟨s.input, [], 0⟩)
  { s with input := done.input, result := done.result }

/-- `Script()`. -/
def new : Script := ⟨[], [], []⟩

/-- `Script(delimiter)`. -/
def ofDelimiters (delimiter : Str) : Script := { new with delimiter := new.delimiter ++ delimiter }.split

/-- `Size`. -/
def size (s : Script) : Nat := s.result.length

/-- `Get`, which throws `out_of_range` behind the last word. -/
def get (s : Script) (num : Nat) : Option Str := s.result[num]?

/-- A call of `Delimiter` or `String`. -/
inductive Call where
  | delimiter (word : UInt8)
  | string (str : Str)

/-- One call. -/
def call (s : Script) : Call → Script
  | .delimiter word => { s with delimiter := s.delimiter ++ [word] }.split
  | .string str => { s with input := str }.split

/-- The calls, on a new `Script`. -/
def run (calls : List Call) : Script := calls.foldl call new

/-! ## Words and what is left -/

variable {D D' : List UInt8} {w s t : Str} {a c : UInt8}

/-- How often a place is cut once more: for every NUL among the delimiters behind the first one that matches. -/
def again (D : List UInt8) (c : UInt8) : Nat := (D.drop (D.idxOf c + 1)).count nul

/-- The loops of `Split`, when the word `w` has begun: the words, and what becomes of the text. -/
def scan (D : List UInt8) : Str → Str → List Str × Str
  | w, [] => (part w, [])
  | w, c :: t =>
    if w ≠ [] ∧ c ∈ D then
      let (words, text) := scan D [] t
      (w :: (List.replicate (again D c) t ++ words), nul :: text)
    else
      let (words, text) := scan D (w ++ [c]) t
      (words, c :: text)

theorem foldl_cut_of_no_match {i : Nat} {st : Splitting} (h : st.input.getD i 0 ∉ D ∨ i = st.num) :
    D.foldl (cut i) st = st := by
  induction D with
  | nil => rfl
  | cons d D ih =>
    have hd : ¬(st.input.getD i 0 = d ∧ i ≠ st.num) := by
      rintro ⟨rfl, hne⟩
      exact h.elim (fun h => h List.mem_cons_self) hne
    rw [List.foldl_cons, cut, if_neg hd]
    exact ih (h.imp_left fun h => (not_or.mp fun h' => h (List.mem_cons.mpr h')).2)

/-- After a cut only NUL cuts once more. -/
theorem foldl_cut_again (s t : Str) (result : List Str) (D : List UInt8) :
    D.foldl (cut s.length) ⟨s ++ nul :: t, result, s.length + 1⟩ =
      ⟨s ++ nul :: t, result ++ List.replicate (D.count nul) t, s.length + 1⟩ := by
  induction D generalizing result with
  | nil => simp
  | cons d D ih =>
    rw [List.foldl_cons, cut]
    by_cases hd : d = nul
    · subst hd
      have hrest : (s ++ nul :: t).drop (s.length + 1) = t := by simp [List.drop_append]
      simp [wordAt, hrest, ih, List.replicate_succ]
    · simp [Ne.symm hd, hd, ih]

/-- **The inner loop**, where the word `w` stands in front of `c`. -/
theorem splitStep_eq (s w t : Str) (c : UInt8) (result : List Str) (D : List UInt8) :
    splitStep D (s.length + w.length) ⟨s ++ (w ++ c :: t), result, s.length⟩ =
      if w ≠ [] ∧ c ∈ D then
        ⟨s ++ w ++ nul :: t, result ++ w :: List.replicate (again D c) t, s.length + w.length + 1⟩
      else ⟨s ++ (w ++ c :: t), result, s.length⟩ := by
  have hbyte := getD_append_cons s w t c
  rw [splitStep]
  split_ifs with h
  · obtain ⟨hw, hc⟩ := h
    obtain ⟨D₁, D₂, rfl, hD₁⟩ := List.eq_append_cons_of_mem hc
    have hlt : 0 < w.length := List.length_pos_iff.mpr hw
    have hword := substr_append s w (nul :: t)
    have hset : (s ++ (w ++ c :: t)).set (s.length + w.length) nul = s ++ (w ++ nul :: t) := by
      simp [← List.append_assoc, ← List.length_append]
    have hcut : cut (s.length + w.length) ⟨s ++ (w ++ c :: t), result, s.length⟩ c =
        ⟨s ++ (w ++ nul :: t), result ++ [w], s.length + w.length + 1⟩ := by
      rw [cut, if_pos ⟨hbyte, by simp only; omega⟩]
      simp only [hset, wordAt, hword, if_neg (show ¬s.length + w.length < s.length by omega)]
    have hagain : again (D₁ ++ c :: D₂) c = D₂.count nul := by
      have hidx : (D₁ ++ c :: D₂).idxOf c = D₁.length := by simp [List.idxOf_append, hD₁]
      rw [again, hidx, ← List.drop_drop, List.drop_left, List.drop_one, List.tail_cons]
    have hfirst : D₁.foldl (cut (s.length + w.length)) ⟨s ++ (w ++ c :: t), result, s.length⟩ =
        ⟨s ++ (w ++ c :: t), result, s.length⟩ := foldl_cut_of_no_match (Or.inl (by rwa [hbyte]))
    rw [List.foldl_append, hfirst, List.foldl_cons, hcut, hagain, ← List.append_assoc, ← List.length_append,
      foldl_cut_again]
    simp
  · refine foldl_cut_of_no_match ?_
    rw [hbyte]
    by_cases hw : w = []
    · exact Or.inr (by simp [hw])
    · exact Or.inl fun hc => h ⟨hw, hc⟩

/-- The loops, when the word `w` has begun behind `s` and `t` is left. -/
theorem split_from (D : List UInt8) (s w t : Str) (result : List Str) :
    let done := splitEnd (s.length + w.length + t.length) ((List.range' (s.length + w.length) t.length).foldl
      (fun st i => splitStep D i st) ⟨s ++ (w ++ t), result, s.length⟩)
    done.input = s ++ (w ++ (scan D w t).2) ∧ done.result = result ++ (scan D w t).1 := by
  induction t generalizing s w result with
  | nil =>
    have hword := substr_append s w []
    rw [List.append_nil, Nat.add_sub_cancel_left] at hword
    by_cases h : w = []
    · simp [h, splitEnd, scan, part]
    · simp [h, splitEnd, scan, part, wordAt, hword]
  | cons c t ih =>
    rw [List.length_cons, List.range'_succ, List.foldl_cons, splitStep_eq, scan]
    split_ifs with h
    · have hrest := ih (s ++ w ++ [nul]) [] (result ++ w :: List.replicate (again D c) t)
      simpa [Nat.add_assoc, Nat.add_comm 1] using hrest
    · have hrest := ih s (w ++ [c]) result
      simpa [Nat.add_assoc, Nat.add_comm 1] using hrest

/-- **`Split` is a scan.** -/
theorem split_eq_scan (s : Script) :
    s.split = { s with input := (scan s.delimiter [] s.input).2, result := (scan s.delimiter [] s.input).1 } := by
  obtain ⟨hinput, hresult⟩ := split_from s.delimiter [] [] s.input []
  simp only [List.length_nil, Nat.add_zero, Nat.zero_add, List.nil_append] at hinput hresult
  rw [split, forLoop, Nat.sub_zero, hinput, hresult]

/-! ## The words of a scan -/

/-- The text is the one that has been set, or has NUL in place of a delimiter. -/
def Aligned (D : List UInt8) (text set : Str) : Prop := List.Forall₂ (fun c a => c = a ∨ (c = nul ∧ a ∈ D)) text set

/-- A delimiter may stand at the front only if `inWord`, and nowhere behind another one. -/
def Spaced (D : List UInt8) : (inWord : Bool) → Str → Prop
  | _, [] => True
  | inWord, a :: s => if a ∈ D then inWord = true ∧ Spaced D false s else Spaced D true s

/-- A byte of the text where a delimiter has been set: it is cut there, and only once. -/
def CutOnce (D : List UInt8) (c : UInt8) : Prop := c ∈ D ∧ again D c = 0

/-- No letter is lost but those where it is cut, of which there are at most as many as delimiters have been set. -/
theorem le_length_scan (w : Str) (h : Aligned D t s) :
    w.length + (s.filter (· ∉ D)).length ≤ (scan D w t).1.flatten.length := by
  induction h generalizing w with
  | nil =>
    rw [scan, part]
    split_ifs with hw <;> simp [hw]
  | @cons c a t s hca hts ih =>
    rw [scan]
    split_ifs with hcut
    · have ha : a ∈ D := hca.elim (fun h => h ▸ hcut.2) And.right
      have hrest := ih []
      simp [ha] at hrest ⊢
      omega
    · have hrest := ih (w ++ [c])
      by_cases ha : a ∈ D <;> simp [ha] at hrest ⊢ <;> omega

/-- What is cut off once more is too much, or an empty word. -/
theorem replicate_scan_ne_words (hagain : again D c ≠ 0) (h : Aligned D t s) :
    List.replicate (again D c) t ++ (scan D [] t).1 ≠ words D s := by
  intro heq
  have hscan := le_length_scan [] h
  have htotal := congrArg (List.length ∘ List.flatten) heq
  have hletters := congrArg List.length (flatten_words (D := D) (w := []) (by simp) s)
  rw [List.nil_append, List.nil_append] at hletters
  simp only [Function.comp_apply, List.flatten_append, List.length_append, hletters, List.length_nil,
    Nat.zero_add] at htotal hscan
  have hreplicate : (List.replicate (again D c) t).flatten.length = again D c * t.length := by simp
  rw [hreplicate] at htotal
  have ht : t = [] := by
    rw [← List.length_eq_zero_iff]
    exact (Nat.mul_eq_zero.mp (by omega)).resolve_left hagain
  refine nil_not_mem_words (D := D) (s := s) (heq ▸ List.mem_append_left _ ?_)
  exact List.mem_replicate.mpr ⟨hagain, ht.symm⟩

/-- A delimiter that is kept is in a word. -/
theorem scan_concat_ne_words (hw : ∀ b ∈ w, b ∉ D) (ha : a ∈ D) (h : Aligned D t s) :
    (scan D (w ++ [c]) t).1 ≠ words D (w ++ a :: s) := by
  intro heq
  have hscan := le_length_scan (w ++ [c]) h
  rw [heq, flatten_words hw, List.filter_cons_of_neg (by simpa using ha)] at hscan
  simp only [List.length_append, List.length_singleton] at hscan
  omega

/-- **The words of a scan** are those of the text that has been set exactly if every delimiter is cut, and only once. -/
theorem scan_eq_words_iff (hw : ∀ b ∈ w, b ∉ D) (h : Aligned D t s) :
    (scan D w t).1 = words D (w ++ s) ↔
      Spaced D (w ≠ []) s ∧ List.Forall₂ (fun c a => a ∈ D → CutOnce D c) t s := by
  induction h generalizing w with
  | nil => simp [scan, words_end hw, Spaced]
  | @cons c a t s hca hts ih =>
    rw [List.forall₂_cons, Spaced, scan]
    by_cases ha : a ∈ D
    · simp only [ha, if_true, forall_const]
      by_cases hcut : w ≠ [] ∧ c ∈ D
      · have hrest := ih (w := []) (by simp)
        rw [if_pos hcut, words_delimiter hw ha, part, if_neg hcut.1]
        by_cases hagain : again D c = 0
        · simpa [hagain, hcut, CutOnce] using hrest
        · refine iff_of_false (fun heq => ?_) fun h => hagain h.2.1.2
          exact replicate_scan_ne_words hagain hts (List.cons.inj heq).2
      · rw [if_neg hcut]
        refine iff_of_false (fun heq => ?_) fun h => hcut ⟨by simpa using h.1.1, h.2.1.1⟩
        exact scan_concat_ne_words hw ha hts heq
    · obtain rfl : c = a := hca.resolve_right fun h => ha h.2
      have hrest := ih (forall_not_mem_concat hw ha)
      rw [words_letter]
      simpa [ha] using hrest

/-! ## The calls -/

/-- The delimiters of some calls. -/
def delimiters (calls : List Call) : List UInt8 :=
  calls.filterMap fun | .delimiter word => some word | .string _ => none

/-- The text that has been set last. -/
def text (calls : List Call) : Str :=
  ((calls.filterMap fun | .delimiter _ => none | .string str => some str).getLast?).getD []

/-- What stands in the text for a byte that has been set, after splits with some delimiters. -/
def overwritten (D : List UInt8) (a : UInt8) : UInt8 := if a ∈ D then nul else a

theorem overwritten_nil : overwritten [] = id := by
  funext a
  simp [overwritten]

/-- What the last call finds in the text for a byte that has been set: a call of `Delimiter` finds NUL where the text
has been split before. -/
def found (calls : List Call) : UInt8 → UInt8 :=
  match calls.getLast? with
  | some (.delimiter _) => overwritten (delimiters calls.dropLast)
  | _ => id

theorem delimiters_concat_delimiter (calls : List Call) (word : UInt8) :
    delimiters (calls ++ [.delimiter word]) = delimiters calls ++ [word] := by simp [delimiters]

theorem delimiters_concat_string (calls : List Call) (str : Str) :
    delimiters (calls ++ [.string str]) = delimiters calls := by simp [delimiters]

theorem text_concat_delimiter (calls : List Call) (word : UInt8) : text (calls ++ [.delimiter word]) = text calls := by
  simp [text]

theorem text_concat_string (calls : List Call) (str : Str) : text (calls ++ [.string str]) = str := by simp [text]

/-- The text that a call splits. -/
def before (s : Script) : Call → Str
  | .delimiter _ => s.input
  | .string str => str

theorem delimiter_run (calls : List Call) : (run calls).delimiter = delimiters calls := by
  induction calls using List.reverseRecOn with
  | nil => rfl
  | append_singleton calls last ih =>
    rw [run, List.foldl_concat, ← run]
    cases last with
    | delimiter word => rw [delimiters_concat_delimiter, call, split_eq_scan, ih]
    | string str => rw [delimiters_concat_string, call, split_eq_scan, ih]

/-- **The last call** scans the text that it finds. -/
theorem run_concat (calls : List Call) (last : Call) :
    let D := delimiters (calls ++ [last])
    let found := (run calls).before last
    run (calls ++ [last]) = ⟨(scan D [] found).2, D, (scan D [] found).1⟩ := by
  dsimp only
  rw [run, List.foldl_concat, ← run]
  cases last with
  | delimiter word => rw [delimiters_concat_delimiter, call, split_eq_scan, delimiter_run, before]
  | string str => rw [delimiters_concat_string, call, split_eq_scan, delimiter_run, before]

/-- The constructor for several delimiters adds them. -/
theorem run_delimiters (D : Str) : run (D.map .delimiter) = ofDelimiters D := by
  have hdelimiters : ∀ D : Str, delimiters (D.map .delimiter) = D := fun D => by simp [delimiters, List.filterMap_map]
  induction D using List.reverseRecOn with
  | nil => rfl
  | append_singleton D word ih =>
    have hinput : (run (D.map .delimiter)).input = [] := by rw [ih, ofDelimiters, split_eq_scan, new, scan]
    rw [List.map_append, List.map_singleton, run_concat, before, hinput, delimiters_concat_delimiter, hdelimiters,
      ofDelimiters, split_eq_scan]
    rfl

/-! ## The text -/

theorem Aligned.mono (hsub : D ⊆ D') (h : Aligned D t s) : Aligned D' t s :=
  h.imp fun _ _ hca => hca.imp_right fun h => ⟨h.1, hsub h.2⟩

theorem aligned_refl (D : List UInt8) (s : Str) : Aligned D s s := List.forall₂_same.mpr fun _ _ => Or.inl rfl

theorem Aligned.scan (h : Aligned D t s) (w : Str) : Aligned D (Script.scan D w t).2 s := by
  induction h generalizing w with
  | nil => exact .nil
  | @cons c a t s hca hts ih =>
    rw [Script.scan]
    split_ifs with hcut
    · exact .cons (Or.inr ⟨rfl, hca.elim (fun h => h ▸ hcut.2) And.right⟩) (ih [])
    · exact .cons hca (ih (w ++ [c]))

/-- **The text that a call splits** has what has been set, or NUL in place of a delimiter. -/
theorem aligned_before (calls : List Call) (last : Call) :
    Aligned (delimiters (calls ++ [last])) ((run calls).before last) (text (calls ++ [last])) := by
  induction calls using List.reverseRecOn generalizing last with
  | nil =>
    cases last with
    | delimiter word => exact .nil
    | string str => exact aligned_refl _ _
  | append_singleton calls last' ih =>
    cases last with
    | delimiter word =>
      rw [before, run_concat, delimiters_concat_delimiter, text_concat_delimiter]
      exact ((ih last').scan []).mono (List.subset_append_left _ _)
    | string str =>
      rw [before, text_concat_string]
      exact aligned_refl _ _

/-- If no delimiter stands in front or behind another one, all of them are overwritten. -/
theorem scan_overwritten {D₀ : List UInt8} {inWord : Bool} (hsub₀ : D₀ ⊆ D') (hsub : D' ⊆ D)
    (h : Spaced D inWord s) (hw : inWord = true → w ≠ []) :
    (scan D' w (s.map (overwritten D₀))).2 = s.map (overwritten D') := by
  induction s generalizing w inWord with
  | nil => rfl
  | cons a s ih =>
    have hletter (ha : a ∉ D') : overwritten D₀ a = a ∧ overwritten D' a = a :=
      ⟨if_neg fun h => ha (hsub₀ h), if_neg ha⟩
    rw [Spaced] at h
    rw [List.map_cons, List.map_cons, scan]
    by_cases ha : a ∈ D
    · rw [if_pos ha] at h
      have hne : w ≠ [] := hw h.1
      by_cases hcut : overwritten D₀ a ∈ D'
      · have ha' : a ∈ D' := by
          by_contra ha'
          exact ha' ((hletter ha').1 ▸ hcut)
        rw [if_pos ⟨hne, hcut⟩]
        simpa [overwritten, ha'] using ih h.2 (by simp)
      · have hkept : overwritten D₀ a = overwritten D' a := by
          by_cases ha' : a ∈ D'
          · by_cases ha₀ : a ∈ D₀
            · simp [overwritten, ha', ha₀]
            · exact absurd ha' (by simpa [overwritten, ha₀] using hcut)
          · rw [(hletter ha').1, (hletter ha').2]
        rw [if_neg fun h => hcut h.2, hkept]
        simpa using ih (w := w ++ [overwritten D' a]) h.2 (by simp)
    · rw [if_neg ha] at h
      obtain ⟨h₀, h'⟩ := hletter fun h => ha (hsub h)
      rw [h₀, h', if_neg fun hcut => ha (hsub hcut.2)]
      simpa using ih (w := w ++ [a]) h (by simp)

theorem found_concat_delimiter (calls : List Call) (word : UInt8) :
    found (calls ++ [.delimiter word]) = overwritten (delimiters calls) := by simp [found]

theorem found_concat_string (calls : List Call) (str : Str) : found (calls ++ [.string str]) = overwritten [] := by
  rw [overwritten_nil]
  simp [found]

theorem found_eq_overwritten (calls : List Call) (last : Call) :
    ∃ D₀ ⊆ delimiters (calls ++ [last]), found (calls ++ [last]) = overwritten D₀ := by
  cases last with
  | delimiter word =>
    rw [delimiters_concat_delimiter]
    exact ⟨_, List.subset_append_left _ _, found_concat_delimiter calls word⟩
  | string str => exact ⟨_, List.nil_subset _, found_concat_string calls str⟩

/-- In that case this is what the last call finds. -/
theorem before_eq {calls : List Call} {last : Call} (hsub : delimiters (calls ++ [last]) ⊆ D)
    (h : Spaced D false (text (calls ++ [last]))) :
    (run calls).before last = (text (calls ++ [last])).map (found (calls ++ [last])) := by
  induction calls using List.reverseRecOn generalizing last with
  | nil =>
    cases last with
    | delimiter word => simp [before, run, new, text]
    | string str => simp [before, found, text]
  | append_singleton calls last' ih =>
    cases last with
    | delimiter word =>
      rw [delimiters_concat_delimiter] at hsub
      rw [text_concat_delimiter] at h ⊢
      have hsub' : delimiters (calls ++ [last']) ⊆ D := fun _ hd => hsub (List.mem_append_left _ hd)
      obtain ⟨D₀, hsub₀, hfound⟩ := found_eq_overwritten calls last'
      rw [before, run_concat, ih hsub' h, hfound, found_concat_delimiter]
      exact scan_overwritten hsub₀ hsub' h (by simp)
    | string str => rw [before, text_concat_string, found_concat_string, overwritten_nil, List.map_id]

/-- **When the words are returned.** -/
theorem result_eq_words_iff (calls : List Call) :
    (run calls).result = words (delimiters calls) (text calls) ↔ Spaced (delimiters calls) false (text calls) ∧
      ∀ a ∈ text calls, a ∈ delimiters calls → CutOnce (delimiters calls) (found calls a) := by
  rcases List.eq_nil_or_concat' calls with rfl | ⟨calls, last, rfl⟩
  · simp [run, new, delimiters, text, words, Spaced]
  · rw [run_concat]
    refine (scan_eq_words_iff (w := []) (by simp) (aligned_before calls last)).trans (and_congr_right fun hspaced => ?_)
    rw [before_eq (List.Subset.refl _) hspaced, List.forall₂_map_left_iff, List.forall₂_same]

/-- No delimiter stands in front or behind another one. -/
def Separate (D : List UInt8) (s : Str) : Prop := (∀ a ∈ s.head?, a ∉ D) ∧ s.IsChain fun a b => a ∈ D → b ∉ D

theorem spaced_iff (D : List UInt8) (inWord : Bool) (s : Str) :
    Spaced D inWord s ↔ (inWord = false → ∀ a ∈ s.head?, a ∉ D) ∧ s.IsChain fun a b => a ∈ D → b ∉ D := by
  induction s generalizing inWord with
  | nil => simp [Spaced]
  | cons a s ih =>
    rw [Spaced, List.isChain_cons]
    by_cases ha : a ∈ D
    · cases inWord <;> simp [ha, ih]
    · cases inWord <;> simp [ha, ih]

/-! ## The words that are returned -/

/-- `Size` and `Get` return these words. -/
def Returns (s : Script) (words : List Str) : Prop := s.size = words.length ∧ ∀ i, s.get i = words[i]?

theorem returns_iff (s : Script) (words : List Str) : Returns s words ↔ s.result = words := by
  constructor
  · intro h
    exact List.ext_getElem? h.2
  · rintro rfl
    exact ⟨rfl, fun _ => rfl⟩

/-- What is returned are the words of the text, which with one delimiter `String::Split` returns as well. -/
def Tokenizes (calls : List Call) : Prop :=
  Returns (run calls) (words (delimiters calls) (text calls)) ∧
    ∀ c, (∀ d, d ∈ delimiters calls ↔ d = c) → Returns (run calls) ((text calls).split c)

/-- **When the words of the text are returned**: no delimiter stands in front or behind another one, and what is found
for it is a delimiter and cut once. -/
theorem words_iff (calls : List Call) :
    Tokenizes calls ↔ Separate (delimiters calls) (text calls) ∧
      ∀ a ∈ text calls, a ∈ delimiters calls → CutOnce (delimiters calls) (found calls a) := by
  have hspaced : Spaced (delimiters calls) false (text calls) ↔ Separate (delimiters calls) (text calls) := by
    simp [spaced_iff, Separate]
  rw [← hspaced, ← result_eq_words_iff, ← returns_iff, Tokenizes]
  refine and_iff_left_of_imp fun h c hc => ?_
  rwa [split_eq_words, ← words_congr (fun d => (hc d).trans List.mem_singleton.symm)]

/-- Of two commas the second one comes into the next word. -/
theorem not_tokenizes_doubled : ¬Tokenizes [.delimiter 44, .string [97, 44, 44, 98]] := by
  intro h
  have hwords := (returns_iff _ _).mp h.1
  revert hwords
  decide

end Script

end LeftFelt
