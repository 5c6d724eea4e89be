import Mathlib.Data.List.Basic
import Mathlib.Data.List.Pairwise
import Mathlib.Order.Defs.LinearOrder

/-!
# Ordered maps

A map is the list of its entries in the order of their keys, which makes equal maps equal lists. `insert` puts an
entry in its place, or replaces the value that the key has. Inserting the entries of a map one after the other gives
the map again (`foldl_insert`).
-/

namespace LeftFelt.Lib

/-- A map: its entries, in the order of the keys. -/
@[ext]
structure OrderedMap (K V : Type*) [LT K] where
  entries : List (K × V)
  sorted : entries.Pairwise fun a b => a.1 < b.1
  deriving DecidableEq

namespace OrderedMap

variable {K V : Type*}

/-- Puts an entry in its place. -/
def insertEntry [LT K] [DecidableLT K] (k : K) (v : V) : List (K × V) → List (K × V)
  | [] => [(k, v)]
  | e :: es => if k < e.1 then (k, v) :: e :: es else if e.1 < k then e :: insertEntry k v es else (e.1, v) :: es

/-- The map without entries. -/
def empty [LT K] : OrderedMap K V := ⟨[], .nil⟩

/-- The new entry is the only new one, and keeps the order. -/
theorem lt_insertEntry [LT K] [DecidableLT K] {a k : K} {v : V} {es : List (K × V)} (hk : a < k)
    (hes : ∀ e ∈ es, a < e.1) :
    ∀ e ∈ insertEntry k v es, a < e.1 := by
  induction es with
  | nil => simpa [insertEntry] using hk
  | cons e es ih =>
    have he := hes e List.mem_cons_self
    have hes' : ∀ e ∈ es, a < e.1 := fun e he => hes e (List.mem_cons_of_mem _ he)
    unfold insertEntry
    split
    · simpa using ⟨hk, he, fun b c hmem => hes' (b, c) hmem⟩
    · split
      · simpa using ⟨he, fun b c hmem => ih hes' (b, c) hmem⟩
      · simpa using ⟨he, fun b c hmem => hes' (b, c) hmem⟩

variable [LE K] [LT K] [DecidableLT K] [Std.IsLinearOrder K] [Std.LawfulOrderLT K]

theorem sorted_insertEntry (k : K) (v : V) {es : List (K × V)} (h : es.Pairwise fun a b => a.1 < b.1) :
    (insertEntry k v es).Pairwise fun a b => a.1 < b.1 := by
  induction h with
  | nil => simp [insertEntry]
  | @cons e es hlt hes ih =>
    unfold insertEntry
    split
    · rename_i hk
      refine .cons (fun b hb => ?_) (.cons hlt hes)
      rcases List.mem_cons.1 hb with rfl | hb
      · exact hk
      · exact Std.lt_trans hk (hlt b hb)
    · split
      · rename_i hk
        exact .cons (lt_insertEntry hk hlt) ih
      · exact .cons hlt hes

/-- What the entries are: the new one, and the old ones under other keys. -/
theorem mem_insertEntry {k : K} {v : V} {e : K × V} {es : List (K × V)} (h : es.Pairwise fun a b => a.1 < b.1) :
    e ∈ insertEntry k v es ↔ e = (k, v) ∨ e ∈ es ∧ e.1 ≠ k := by
  induction h with
  | nil => simp [insertEntry]
  | @cons a es hlt hes ih =>
    unfold insertEntry
    split
    · rename_i hk
      have hne : e ∈ a :: es → e.1 ≠ k := by
        intro hmem heq
        rcases List.mem_cons.1 hmem with rfl | hmem
        · exact Std.lt_irrefl (heq ▸ hk)
        · exact Std.lt_irrefl (Std.lt_trans (heq ▸ hlt e hmem) hk)
      rw [List.mem_cons]
      exact or_congr_right ⟨fun hmem => ⟨hmem, hne hmem⟩, And.left⟩
    · split
      · rename_i hk
        have ha : a.1 ≠ k := fun heq => Std.lt_irrefl (heq ▸ hk)
        rw [List.mem_cons, List.mem_cons, ih]
        constructor
        · rintro (rfl | rfl | ⟨hmem, hne⟩)
          · exact Or.inr ⟨Or.inl rfl, ha⟩
          · exact Or.inl rfl
          · exact Or.inr ⟨Or.inr hmem, hne⟩
        · rintro (rfl | ⟨rfl | hmem, hne⟩)
          · exact Or.inr (Or.inl rfl)
          · exact Or.inl rfl
          · exact Or.inr (Or.inr ⟨hmem, hne⟩)
      · rename_i hk hk'
        have ha : a.1 = k := Std.le_antisymm (Std.not_lt.1 hk) (Std.not_lt.1 hk')
        have hes' : ∀ b ∈ es, b.1 ≠ k := fun b hb heq => Std.lt_irrefl (heq ▸ ha ▸ hlt b hb)
        rw [List.mem_cons, List.mem_cons, ha]
        constructor
        · rintro (rfl | hmem)
          · exact Or.inl rfl
          · exact Or.inr ⟨Or.inr hmem, hes' e hmem⟩
        · rintro (rfl | ⟨rfl | hmem, hne⟩)
          · exact Or.inl rfl
          · exact absurd ha hne
          · exact Or.inr hmem

/-- `m[k] = v`. -/
def insert (m : OrderedMap K V) (k : K) (v : V) : OrderedMap K V :=
  ⟨insertEntry k v m.entries, sorted_insertEntry k v m.sorted⟩

theorem mem_insert {m : OrderedMap K V} {k : K} {v : V} {e : K × V} :
    e ∈ (m.insert k v).entries ↔ e = (k, v) ∨ e ∈ m.entries ∧ e.1 ≠ k :=
  mem_insertEntry m.sorted

section Get

variable [DecidableEq K]

/-- The value of a key, and `d` if it has none. -/
def getD (m : OrderedMap K V) (k : K) (d : V) : V := ((m.entries.find? fun e => e.1 = k).map Prod.snd).getD d

omit [LE K] [DecidableLT K] [Std.IsLinearOrder K] [Std.LawfulOrderLT K] in
theorem getD_of_forall_ne {m : OrderedMap K V} {k : K} (h : ∀ e ∈ m.entries, e.1 ≠ k) (d : V) : m.getD k d = d := by
  have hnone : m.entries.find? (fun e => e.1 = k) = none := by
    rw [List.find?_eq_none]
    intro e he
    simpa using h e he
  rw [getD, hnone]
  rfl

omit [LE K] [DecidableLT K] [Std.IsLinearOrder K] [Std.LawfulOrderLT K] in
theorem getD_of_mem {m : OrderedMap K V} {k : K} {v : V} (hmem : (k, v) ∈ m.entries)
    (hone : ∀ e ∈ m.entries, e.1 = k → e.2 = v) (d : V) : m.getD k d = v := by
  cases hfind : m.entries.find? (fun e => e.1 = k) with
  | none =>
    rw [List.find?_eq_none] at hfind
    have hne := hfind (k, v) hmem
    simp at hne
  | some e =>
    have hkey : e.1 = k := by simpa using List.find?_some hfind
    have hvalue := hone e (List.mem_of_find?_eq_some hfind) hkey
    rw [getD, hfind]
    exact hvalue

omit [DecidableLT K] [DecidableEq K] [Std.IsLinearOrder K] in
/-- A key has one value. -/
theorem value_unique {m : OrderedMap K V} {a b : K × V} (ha : a ∈ m.entries) (hb : b ∈ m.entries) (h : a.1 = b.1) :
    a = b := by
  by_contra hne
  have hkeys : m.entries.Pairwise fun a b => a.1 ≠ b.1 := by
    refine m.sorted.imp fun {a b} hlt heq => ?_
    rw [heq] at hlt
    exact Std.lt_irrefl hlt
  have : Std.Symm fun a b : K × V => a.1 ≠ b.1 := ⟨fun _ _ hab => Ne.symm hab⟩
  exact hkeys.forall ha hb hne h

/-- **Reading after one write.** -/
theorem getD_insert (m : OrderedMap K V) (k j : K) (v d : V) :
    (m.insert k v).getD j d = if j = k then v else m.getD j d := by
  by_cases hjk : j = k
  · subst hjk
    rw [if_pos rfl]
    refine getD_of_mem (mem_insert.2 (Or.inl rfl)) (fun e he hkey => ?_) d
    rcases mem_insert.1 he with rfl | ⟨-, hne⟩
    · rfl
    · exact absurd hkey hne
  · rw [if_neg hjk]
    by_cases hold : ∃ v', (j, v') ∈ m.entries
    · obtain ⟨v', hv'⟩ := hold
      have hone : ∀ e ∈ m.entries, e.1 = j → e.2 = v' := fun e he hkey =>
        congrArg Prod.snd (value_unique (b := (j, v')) he hv' hkey)
      rw [getD_of_mem hv' hone]
      refine getD_of_mem (mem_insert.2 (Or.inr ⟨hv', hjk⟩)) (fun e he hkey => ?_) d
      rcases mem_insert.1 he with rfl | ⟨he, -⟩
      · exact absurd hkey.symm hjk
      · exact hone e he hkey
    · have hnone : ∀ e ∈ m.entries, e.1 ≠ j := by
        rintro ⟨j', v'⟩ he rfl
        exact hold ⟨v', he⟩
      rw [getD_of_forall_ne hnone]
      refine getD_of_forall_ne (fun e he hkey => ?_) d
      rcases mem_insert.1 he with rfl | ⟨he, -⟩
      · exact hjk hkey.symm
      · exact hnone e he hkey

end Get

/-- A key behind all others goes to the end. -/
theorem insertEntry_of_forall_lt {k : K} {v : V} {es : List (K × V)} (h : ∀ e ∈ es, e.1 < k) :
    insertEntry k v es = es ++ [(k, v)] := by
  induction es with
  | nil => rfl
  | cons e es ih =>
    have he := h e List.mem_cons_self
    rw [insertEntry, if_neg fun hlt => Std.lt_irrefl (Std.lt_trans hlt he), if_pos he,
      ih fun e he => h e (List.mem_cons_of_mem _ he), List.cons_append]

/-- **Inserting the entries of a map** one after the other gives the map again. -/
theorem foldl_insert (m : OrderedMap K V) : m.entries.foldl (fun m e => m.insert e.1 e.2) empty = m := by
  have key : ∀ (es : List (K × V)) (m' : OrderedMap K V), (m'.entries ++ es).Pairwise (fun a b => a.1 < b.1) →
      (es.foldl (fun m e => m.insert e.1 e.2) m').entries = m'.entries ++ es := by
    intro es
    induction es with
    | nil =>
      intro m' _
      rw [List.foldl_nil, List.append_nil]
    | cons e es ih =>
      intro m' hsorted
      have hinsert : (m'.insert e.1 e.2).entries = m'.entries ++ [e] :=
        insertEntry_of_forall_lt fun a ha => (List.pairwise_append.1 hsorted).2.2 a ha e List.mem_cons_self
      rw [List.foldl_cons, ih, hinsert, List.append_assoc, List.singleton_append]
      rw [hinsert, List.append_assoc, List.singleton_append]
      exact hsorted
  exact OrderedMap.ext (key m.entries empty m.sorted)

end OrderedMap

end LeftFelt.Lib
