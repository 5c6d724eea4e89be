import Mathlib.Data.List.Basic
import Mathlib.Data.List.DropRight
import Mathlib.Data.UInt

/-!
# Strings

The functions of the class `String` that take strings apart. A string is the list of its bytes.

`EndStrip` reads out of range if the string is not empty and has no other byte than the one to be stripped, since its
index is unsigned: then the function ends in `outOfRange`. The loop of `Replace` runs for at most `fuel` rounds.
-/

namespace LeftFelt

/-- A string. -/
abbrev Str := List UInt8

/-- Why a function does not return: an exception `std::out_of_range`, or too few rounds for a loop. -/
inductive Stop where
  | outOfRange
  | outOfFuel
  deriving DecidableEq

namespace Str

/-- A string literal. -/
def literal (s : String) : Str := s.toList.map fun c => c.toNat.toUInt8

/-- `'\t'`. -/
def tab : UInt8 := 0x09

/-- `' '`. -/
def space : UInt8 := 0x20

/-- `'"'`. -/
def quote : UInt8 := 0x22

/-- `'\''`. -/
def apostrophe : UInt8 := 0x27

/-- `'/'`. -/
def slash : UInt8 := 0x2F

/-- `'<'`. -/
def lt : UInt8 := 0x3C

/-- `'='`. -/
def eq : UInt8 := 0x3D

/-- `'>'`. -/
def gt : UInt8 := 0x3E

/-- `'\0'`. -/
def nul : UInt8 := 0x00

theorem eq_ne_space : eq ≠ space := by decide

theorem quote_ne_space : quote ≠ space := by decide

theorem apostrophe_ne_space : apostrophe ≠ space := by decide

theorem quote_ne_eq : quote ≠ eq := by decide

theorem quote_ne_apostrophe : quote ≠ apostrophe := by decide

theorem lt_ne_space : lt ≠ space := by decide

theorem gt_ne_lt : gt ≠ lt := by decide

theorem not_mem_replicate {a b : UInt8} (h : a ≠ b) (n : Nat) : a ∉ List.replicate n b := fun hmem =>
  h (List.eq_of_mem_replicate hmem)

/-- The C string that a buffer begins with, unless it goes on behind the buffer. -/
def cString (buffer : Str) : Option Str := if nul ∈ buffer then some (buffer.takeWhile (· ≠ nul)) else none

theorem cString_append_nul (s t : Str) : cString (s ++ nul :: t) = some (s.takeWhile (· ≠ nul)) := by
  have htake : (s ++ nul :: t).takeWhile (· ≠ nul) = s.takeWhile (· ≠ nul) := by
    induction s with
    | nil => rfl
    | cons a s ih => by_cases ha : a = nul <;> simp_all
  rw [cString, if_pos (List.mem_append_right s List.mem_cons_self), htake]

theorem takeWhile_ne_nul {s : Str} : s.takeWhile (· ≠ nul) = s ↔ nul ∉ s := by
  rw [List.takeWhile_eq_self_iff]
  exact ⟨fun h hmem => by simpa using h nul hmem, fun h b hb => by simpa using ne_of_mem_of_not_mem hb h⟩

/-- `FrontSplit(c)`: what stands before the first `c`, and the rest. -/
def frontSplit (s : Str) (c : UInt8) : Str × Str := (s.take (s.idxOf c), s.drop (s.idxOf c))

/-- `rfind(c)`. -/
def rfind (s : Str) (c : UInt8) : Option Nat := if c ∈ s then some (s.length - 1 - s.reverse.idxOf c) else none

/-- `EndSplit(c)`: what stands before the last `c`, and the rest. Without `c` the first part is empty. -/
def endSplit (s : Str) (c : UInt8) : Str × Str :=
  let index := (s.rfind c).getD 0
  (s.take index, s.drop index)

/-- `Front()`. -/
def front (s : Str) : Str := s.take 1

/-- `FrontStrip(c)`: without the bytes `c` at the front. -/
def frontStrip (s : Str) (c : UInt8) : Str := s.drop (s.findIdx (· ≠ c))

/-- The loop of `EndStrip`, where `index + 1` is the argument. -/
def endStripFrom (s : Str) (c : UInt8) : Nat → Except Stop Str
  | 0 => .error .outOfRange
  | index + 1 => if s.getD index 0 ≠ c then .ok (s.take (index + 1)) else endStripFrom s c index

/-- `EndStrip(c)`: without the bytes `c` at the end. -/
def endStrip (s : Str) (c : UInt8) : Except Stop Str := if s = [] then .ok s else endStripFrom s c s.length

/-- `find(fromStr, index)`. -/
def find (s fromStr : Str) (index : Nat) : Option Nat :=
  (List.range' index (s.length + 1 - index)).find? fun i => fromStr.isPrefixOf (s.drop i)

/-- The loop of `Replace`. -/
def replaceFrom : Nat → Str → Str → Nat → Str → Except Stop Str
  | 0, _, _, _, _ => .error .outOfFuel
  | fuel + 1, fromStr, toStr, index, s =>
    match s.find fromStr index with
    | none => .ok s
    | some i => replaceFrom fuel fromStr toStr (i + toStr.length) (s.take i ++ toStr ++ s.drop (i + fromStr.length))

/-- `Replace(from, to)`. -/
def replace (fuel : Nat) (s fromStr toStr : Str) : Except Stop Str := replaceFrom fuel fromStr toStr 0 s

variable {s t : Str} {c : UInt8}

theorem frontSplit_append (h : c ∉ s) : frontSplit (s ++ c :: t) c = (s, c :: t) := by
  have hidx : (s ++ c :: t).idxOf c = s.length := by
    rw [List.idxOf_append, if_neg h, List.idxOf_cons_self, Nat.zero_add]
  rw [frontSplit, hidx, List.take_left, List.drop_left]

@[simp] theorem frontSplit_cons_self (t : Str) (c : UInt8) : frontSplit (c :: t) c = ([], c :: t) :=
  frontSplit_append (s := []) List.not_mem_nil

theorem frontSplit_of_not_mem (h : c ∉ s) : frontSplit s c = (s, []) := by
  rw [frontSplit, List.idxOf_eq_length h, List.take_length, List.drop_length]

@[simp] theorem frontSplit_fst_append_snd (s : Str) (c : UInt8) : (frontSplit s c).1 ++ (frontSplit s c).2 = s :=
  List.take_append_drop _ s

theorem frontSplit_snd_suffix (s : Str) (c : UInt8) : (frontSplit s c).2 <:+ s := List.drop_suffix _ s

/-- The two ways a string is cut: there is no `c`, or the second part begins with the first one. -/
theorem frontSplit_cases (s : Str) (c : UInt8) :
    (c ∉ s ∧ frontSplit s c = (s, [])) ∨ ∃ u v, s = u ++ c :: v ∧ c ∉ u ∧ frontSplit s c = (u, c :: v) := by
  by_cases h : c ∈ s
  · obtain ⟨u, v, rfl, hu⟩ := List.eq_append_cons_of_mem h
    exact Or.inr ⟨u, v, rfl, hu, frontSplit_append hu⟩
  · exact Or.inl ⟨h, frontSplit_of_not_mem h⟩

theorem not_mem_frontSplit (s : Str) (c : UInt8) : c ∉ (frontSplit s c).1 := by
  rcases frontSplit_cases s c with ⟨hmem, hsplit⟩ | ⟨u, v, -, hu, hsplit⟩
  · rwa [hsplit]
  · rwa [hsplit]

theorem frontSplit_fst_eq_takeWhile (s : Str) (c : UInt8) : (frontSplit s c).1 = s.takeWhile (· ≠ c) := by
  have htake : ∀ u : Str, c ∉ u → u.takeWhile (· ≠ c) = u := fun u hu =>
    List.takeWhile_eq_self_iff.2 fun a ha => by simpa using ne_of_mem_of_not_mem ha hu
  rcases frontSplit_cases s c with ⟨hmem, hsplit⟩ | ⟨u, v, rfl, hu, hsplit⟩
  · rw [hsplit, htake s hmem]
  · rw [hsplit, List.takeWhile_append, htake u hu, if_pos rfl, List.takeWhile_cons_of_neg (by simp), List.append_nil]

theorem frontSplit_snd_eq_nil : (frontSplit s c).2 = [] ↔ c ∉ s := by
  rcases frontSplit_cases s c with ⟨hmem, hsplit⟩ | ⟨u, v, rfl, -, hsplit⟩
  · simp [hsplit, hmem]
  · simp [hsplit]

/-- The first `c` stands behind a string without it. -/
theorem frontSplit_append_of_not_mem (h : c ∉ s) (t : Str) :
    frontSplit (s ++ t) c = (s ++ (frontSplit t c).1, (frontSplit t c).2) := by
  rcases frontSplit_cases t c with ⟨ht, hsplit⟩ | ⟨u, v, rfl, hu, hsplit⟩
  · rw [hsplit, frontSplit_of_not_mem (by simp [h, ht])]
  · rw [hsplit, ← List.append_assoc, frontSplit_append (by simp [h, hu])]

@[simp] theorem frontStrip_cons_self (s : Str) (c : UInt8) : frontStrip (c :: s) c = frontStrip s c := by
  simp [frontStrip, List.findIdx_cons]

theorem frontStrip_cons_of_ne {a : UInt8} (s : Str) (h : a ≠ c) : frontStrip (a :: s) c = a :: s := by
  simp [frontStrip, List.findIdx_cons, h]

@[simp] theorem frontStrip_nil (c : UInt8) : frontStrip [] c = [] := rfl

theorem frontStrip_suffix (s : Str) (c : UInt8) : frontStrip s c <:+ s := List.drop_suffix _ s

/-- What is left does not begin with `c`. -/
theorem head?_frontStrip (s : Str) (c : UInt8) : (frontStrip s c).head? ≠ some c := by
  induction s with
  | nil => simp
  | cons a s ih =>
    by_cases h : a = c
    · rwa [h, frontStrip_cons_self]
    · rw [frontStrip_cons_of_ne s h]
      exact fun heq => h (Option.some.inj heq)

/-- A string that does not begin with `c` is left as it is. -/
theorem frontStrip_of_head? (h : s.head? ≠ some c) : frontStrip s c = s := by
  cases s with
  | nil => rfl
  | cons a s => exact frontStrip_cons_of_ne s fun heq => h (congrArg some heq)

/-- A run of `c` in front is stripped. -/
theorem frontStrip_replicate_append (n : Nat) (c : UInt8) (s : Str) :
    frontStrip (List.replicate n c ++ s) c = frontStrip s c := by
  induction n with
  | zero => rfl
  | succ n ih => rw [List.replicate_succ, List.cons_append, frontStrip_cons_self, ih]

/-- Nothing is stripped behind another byte. -/
theorem frontStrip_append_cons {a : UInt8} (h : a ≠ c) (s t : Str) :
    frontStrip (s ++ a :: t) c = frontStrip s c ++ a :: t := by
  induction s with
  | nil => exact frontStrip_cons_of_ne t h
  | cons b s ih =>
    by_cases hb : b = c
    · rw [List.cons_append, hb, frontStrip_cons_self, frontStrip_cons_self, ih]
    · rw [List.cons_append, frontStrip_cons_of_ne _ hb, frontStrip_cons_of_ne _ hb, List.cons_append]

/-- A string that does not begin with `c` has nothing to be stripped. -/
theorem frontStrip_append (hne : s ≠ []) (h : c ∉ s) : frontStrip (s ++ t) c = s ++ t := by
  cases s with
  | nil => exact absurd rfl hne
  | cons a s => exact frontStrip_cons_of_ne (s ++ t) (List.ne_of_not_mem_cons h).symm

/-- The loop of `EndStrip` passes the bytes `c` at the end. -/
theorem endStripFrom_append (t : Str) {a : UInt8} (ha : a ≠ c) (n : Nat) :
    ∀ k ≤ n, endStripFrom (t ++ [a] ++ List.replicate n c) c ((t ++ [a]).length + k) = .ok (t ++ [a])
  | 0, _ => by
    have hlast : (t ++ [a] ++ List.replicate n c).getD t.length 0 = a := by simp
    have htake : (t ++ [a] ++ List.replicate n c).take (t.length + 1) = t ++ [a] := List.take_left' (by simp)
    rw [List.length_append, List.length_singleton, Nat.add_zero, endStripFrom, hlast, if_pos ha, htake]
  | k + 1, hk => by
    have hbyte : (t ++ [a] ++ List.replicate n c).getD ((t ++ [a]).length + k) 0 = c := by
      rw [List.getD_eq_getElem?_getD, List.getElem?_append_right (by omega), Nat.add_sub_cancel_left,
        List.getElem?_replicate, if_pos (by omega), Option.getD_some]
    rw [← Nat.add_assoc, endStripFrom, hbyte, if_neg (not_not_intro rfl)]
    exact endStripFrom_append t ha n k (by omega)

/-- A run of `c` at the end is stripped. -/
theorem endStrip_append_replicate (hne : t ≠ []) (hlast : t.getLast? ≠ some c) (n : Nat) :
    endStrip (t ++ List.replicate n c) c = .ok t := by
  obtain ⟨u, a, rfl⟩ := (List.eq_nil_or_concat' t).resolve_left hne
  have ha : a ≠ c := fun heq => hlast (by rw [List.getLast?_concat, heq])
  have hstrip := endStripFrom_append u ha n n le_rfl
  rw [endStrip, if_neg (by simp), List.length_append, List.length_replicate, hstrip]

/-- A string that does not end with `c` is left as it is. -/
theorem endStrip_of_getLast? (h : s.getLast? ≠ some c) : endStrip s c = .ok s := by
  by_cases hne : s = []
  · rw [hne]; rfl
  · simpa using endStrip_append_replicate hne h 0

/-- A string without `c` has nothing to be stripped. -/
theorem endStrip_of_not_mem (h : c ∉ s) : endStrip s c = .ok s :=
  endStrip_of_getLast? fun hlast => h (List.mem_of_getLast? hlast)

/-- **`EndStrip` returns** if the string has another byte than `c`, or none at all. -/
theorem exists_endStrip (h : s = [] ∨ ∃ a ∈ s, a ≠ c) :
    ∃ t n, s = t ++ List.replicate n c ∧ t.getLast? ≠ some c ∧ endStrip s c = .ok t := by
  induction s using List.reverseRecOn with
  | nil => exact ⟨[], 0, rfl, by simp, rfl⟩
  | append_singleton s a ih =>
    by_cases ha : a = c
    · obtain ⟨b, hb, hbc⟩ := h.resolve_left (by simp)
      have hbs : b ∈ s := (List.mem_append.1 hb).resolve_right fun hmem => hbc ((List.mem_singleton.1 hmem).trans ha)
      obtain ⟨t, n, rfl, hlast, -⟩ := ih (Or.inr ⟨b, hbs, hbc⟩)
      have hne : t ≠ [] := by
        intro ht
        rw [ht, List.nil_append] at hbs
        exact hbc (List.eq_of_mem_replicate hbs)
      have hrun : t ++ List.replicate n c ++ [a] = t ++ List.replicate (n + 1) c := by
        rw [ha, List.append_assoc, List.replicate_succ']
      exact ⟨t, n + 1, hrun, hlast, hrun ▸ endStrip_append_replicate hne hlast (n + 1)⟩
    · have hlast : (s ++ [a]).getLast? ≠ some c := by simpa using ha
      exact ⟨s ++ [a], 0, by simp, hlast, endStrip_of_getLast? hlast⟩

/-- Without the bytes `c` at both ends. -/
def trim (s : Str) (c : UInt8) : Str := (s.dropWhile (· == c)).rdropWhile (· == c)

theorem frontStrip_eq_dropWhile (s : Str) (c : UInt8) : frontStrip s c = s.dropWhile (· == c) := by
  induction s with
  | nil => rfl
  | cons a s ih =>
    by_cases h : a = c
    · rw [h, frontStrip_cons_self, List.dropWhile_cons_of_pos (by simp), ih]
    · rw [frontStrip_cons_of_ne s h, List.dropWhile_cons_of_neg (by simpa using h)]

theorem endStrip_eq_rdropWhile (h : s = [] ∨ ∃ a ∈ s, a ≠ c) : endStrip s c = .ok (s.rdropWhile (· == c)) := by
  obtain ⟨t, n, rfl, hlast, hstrip⟩ := exists_endStrip h
  have hself : t.rdropWhile (· == c) = t := by
    rw [List.rdropWhile_eq_self_iff]
    intro hne heq
    exact hlast (by rw [List.getLast?_eq_some_getLast hne, eq_of_beq heq])
  have hrun : ∀ n, (t ++ List.replicate n c).rdropWhile (· == c) = t := by
    intro n
    induction n with
    | zero => rw [List.replicate_zero, List.append_nil, hself]
    | succ n ih => rw [List.replicate_succ', ← List.append_assoc, List.rdropWhile_concat_pos _ _ c (by simp), ih]
  rw [hstrip, hrun n]

/-- **Both strips**: after `FrontStrip`, `EndStrip` returns. -/
theorem endStrip_frontStrip (s : Str) (c : UInt8) : (s.frontStrip c).endStrip c = .ok (s.trim c) := by
  have hbyte : s.frontStrip c = [] ∨ ∃ a ∈ s.frontStrip c, a ≠ c := by
    cases hs : s.frontStrip c with
    | nil => exact Or.inl rfl
    | cons a t =>
      have hhead := head?_frontStrip s c
      rw [hs] at hhead
      exact Or.inr ⟨a, List.mem_cons_self, fun heq => hhead (congrArg some heq)⟩
  rw [endStrip_eq_rdropWhile hbyte, frontStrip_eq_dropWhile, trim]

/-- A string with other bytes at both ends is left as it is. -/
theorem trim_eq_self (hhead : s.head? ≠ some c) (hlast : s.getLast? ≠ some c) : s.trim c = s := by
  have hstrip := endStrip_frontStrip s c
  rw [frontStrip_of_head? hhead, endStrip_of_getLast? hlast] at hstrip
  exact (Except.ok.inj hstrip).symm

/-- **Nothing is stripped** exactly from a string that neither begins nor ends with `c`. -/
theorem trim_eq_self_iff : s.trim c = s ↔ s.head? ≠ some c ∧ s.getLast? ≠ some c := by
  refine ⟨fun h => ?_, fun h => trim_eq_self h.1 h.2⟩
  have hfront : s.dropWhile (· == c) = s := by
    have hstart := List.rdropWhile_prefix (· == c) (s.dropWhile (· == c))
    have hle := hstart.length_le
    rw [show (s.dropWhile (· == c)).rdropWhile (· == c) = s from h] at hle
    exact (s.dropWhile_suffix (· == c)).eq_of_length_le hle
  refine ⟨?_, fun hlast => ?_⟩
  · rw [← hfront, ← frontStrip_eq_dropWhile]
    exact head?_frontStrip s c
  · rw [trim, hfront] at h
    have hne : s.rdropWhile (· == c) ≠ [] := by
      rw [h]
      rintro rfl
      cases hlast
    have hend := List.rdropWhile_last_not (· == c) s hne
    simp only [h] at hend
    rw [List.getLast?_eq_some_getLast (h ▸ hne), Option.some.injEq] at hlast
    simp [hlast] at hend

theorem infix_trim (s : Str) (c : UInt8) : s.trim c <:+: s := by
  have hstart := List.rdropWhile_prefix (· == c) (s.dropWhile (· == c))
  exact hstart.isInfix.trans (List.dropWhile_suffix _).isInfix

/-- The last `c` stands in front of a string without it. -/
theorem endSplit_append (s : Str) (h : c ∉ t) : endSplit (s ++ c :: t) c = (s, c :: t) := by
  have hidx : (s ++ c :: t).reverse.idxOf c = t.length := by
    rw [List.reverse_append, List.reverse_cons, List.append_assoc, List.idxOf_append,
      if_neg (by simpa using h), List.singleton_append, List.idxOf_cons_self, Nat.zero_add, List.length_reverse]
  have hfind : (s ++ c :: t).rfind c = some s.length := by
    rw [rfind, if_pos (by simp), hidx, List.length_append, List.length_cons]
    congr 1
    omega
  rw [endSplit, hfind]
  simp

/-! ## Searching -/

/-- Where `find` finds: the first place from `index` on. -/
theorem find_eq_some {index i : Nat} : s.find t index = some i ↔
    t <+: s.drop i ∧ index ≤ i ∧ i ≤ s.length ∧ ∀ j, index ≤ j → j < i → ¬t <+: s.drop j := by
  rw [find, List.find?_range'_eq_some, List.isPrefixOf_iff_prefix, List.mem_range'_1]
  simp only [Bool.not_eq_true', Bool.eq_false_iff, ne_eq, List.isPrefixOf_iff_prefix]
  exact and_congr_right fun _ => ⟨fun h => ⟨h.1.1, by omega, h.2⟩, fun h => ⟨⟨h.1, by omega⟩, h.2.2⟩⟩

theorem find_eq_none {index : Nat} : s.find t index = none ↔
    ∀ i, index ≤ i → i ≤ s.length → ¬t <+: s.drop i := by
  rw [find, List.find?_range'_eq_none]
  simp only [Bool.not_eq_true', Bool.eq_false_iff, ne_eq, List.isPrefixOf_iff_prefix]
  exact forall₂_congr fun i hi => ⟨fun h hle => h (by omega), fun h hlt => h (by omega)⟩

/-- A single byte is found behind the bytes that are passed. -/
theorem find_singleton (u : Str) {v : Str} (h : c ∉ v) (w : Str) :
    find (u ++ (v ++ c :: w)) [c] u.length = some (u ++ v).length := by
  rw [find_eq_some]
  refine ⟨?_, by simp, by simp, fun j hj hlt hfront => ?_⟩
  · rw [← List.append_assoc, List.drop_left]
    exact ⟨w, rfl⟩
  · obtain ⟨k, rfl⟩ := Nat.exists_eq_add_of_le hj
    rw [List.length_append] at hlt
    rw [List.drop_append, List.drop_eq_nil_of_le (by omega), List.nil_append, Nat.add_sub_cancel_left,
      List.drop_append_of_le_length (by omega)] at hfront
    cases hdrop : v.drop k with
    | nil => exact absurd (List.drop_eq_nil_iff.1 hdrop) (by omega)
    | cons a v' =>
      rw [hdrop, List.cons_append, List.cons_prefix_cons] at hfront
      have hmem : a ∈ v.drop k := hdrop ▸ List.mem_cons_self
      exact h (hfront.1 ▸ List.mem_of_mem_drop hmem)

theorem find_singleton_eq_none (u : Str) {v : Str} (h : c ∉ v) : find (u ++ v) [c] u.length = none := by
  rw [find_eq_none]
  intro i hi _ hfront
  obtain ⟨k, rfl⟩ := Nat.exists_eq_add_of_le hi
  rw [← List.drop_drop, List.drop_left] at hfront
  exact h (List.mem_of_mem_drop (hfront.subset List.mem_cons_self))

theorem map_replace_of_not_mem {a : UInt8} (b : UInt8) (h : a ∉ s) : s.map (fun c => if c = a then b else c) = s := by
  have hid : s.map (fun c => if c = a then b else c) = s.map id :=
    List.map_congr_left fun c hc => if_neg (ne_of_mem_of_not_mem hc h)
  rw [hid, List.map_id]

/-- The loop of `Replace` behind the bytes `u`, for a single byte. -/
theorem replaceFrom_singleton (a b : UInt8) {fuel : Nat} (u v : Str) (hfuel : v.length < fuel) :
    replaceFrom fuel [a] [b] u.length (u ++ v) = .ok (u ++ v.map fun c => if c = a then b else c) := by
  induction fuel generalizing u v with
  | zero => exact absurd hfuel (Nat.not_lt_zero _)
  | succ fuel ih =>
    rw [replaceFrom]
    by_cases h : a ∈ v
    · obtain ⟨v, w, rfl, hv⟩ := List.eq_append_cons_of_mem h
      rw [List.length_append, List.length_cons] at hfuel
      have htake : (u ++ (v ++ a :: w)).take (u ++ v).length = u ++ v := by
        rw [← List.append_assoc, List.take_left]
      have hdrop : (u ++ (v ++ a :: w)).drop ((u ++ v).length + 1) = w := by
        rw [← List.append_assoc, ← List.drop_drop, List.drop_left, List.drop_one, List.tail_cons]
      have hnext := ih (u ++ v ++ [b]) w (by omega)
      have hlength : (u ++ v ++ [b]).length = (u ++ v).length + 1 := List.length_append
      rw [hlength] at hnext
      simp only [find_singleton u hv w, List.length_singleton, htake, hdrop]
      rw [hnext, List.map_append, List.map_cons, if_pos rfl, map_replace_of_not_mem b hv]
      simp
    · rw [find_singleton_eq_none u h, map_replace_of_not_mem b h]

/-- Replacing one byte by another. -/
theorem replace_singleton (a b : UInt8) {fuel : Nat} (hfuel : s.length < fuel) :
    replace fuel s [a] [b] = .ok (s.map fun c => if c = a then b else c) :=
  replaceFrom_singleton a b [] s hfuel

/-- Nothing is replaced if the byte does not occur. -/
theorem replace_of_not_mem {fuel : Nat} (hfuel : 0 < fuel) (h : c ∉ s) : replace fuel s [c] t = .ok s := by
  have hfind : s.find [c] 0 = none := find_singleton_eq_none [] h
  cases fuel with
  | zero => exact absurd hfuel (Nat.lt_irrefl 0)
  | succ fuel => rw [replace, replaceFrom, hfind]

end Str

end LeftFelt
