import LeftFelt.Lib.Pages
import Mathlib.Data.List.Sort

/-!
# Places in a ranking

A list is sorted by a key, the greatest one first, and equal keys come in any order. So an element has a first and a last
place that it can have: there are so many elements above it, and so many that are not below (`Ranking.place`), and both
are places of it in some order (`exists_first`, `exists_last`). Hence it is on a page in every order if and only if
all places are on the page (`mem_page_iff`).
-/

namespace LeftFelt.Lib.Ranks

open Pages

variable {α β : Type*} [LinearOrder β] {key : α → β} {s l : List α} {a : α} {view n i : Nat}

/-- The elements of `s` in an order of their keys. -/
def Ranking (key : α → β) (s l : List α) : Prop := l.Perm s ∧ l.Pairwise fun a b => key b ≤ key a

/-- How many have a greater key. -/
def above (key : α → β) (a : α) (s : List α) : Nat := s.countP (key a < key ·)

/-- How many have no smaller key. -/
def reach (key : α → β) (a : α) (s : List α) : Nat := s.countP (key a ≤ key ·)

/-- An element stands behind those above it, and among those that are not below. -/
theorem Ranking.place (h : Ranking key s l) (hi : i < l.length) (ha : l[i] = a) :
    above key a s ≤ i ∧ i < reach key a s := by
  obtain ⟨hperm, hsorted⟩ := h
  have hsplit : l.take i ++ a :: l.drop (i + 1) = l := by
    rw [← ha, List.getElem_cons_drop, List.take_append_drop]
  rw [above, reach, ← hperm.countP_eq, ← hperm.countP_eq]
  rw [← hsplit] at hsorted ⊢
  obtain ⟨-, htail, hcross⟩ := List.pairwise_append.1 hsorted
  have hbelow : (l.drop (i + 1)).countP (key a < key ·) = 0 :=
    List.countP_eq_zero.2 fun b hb => by simpa using (List.pairwise_cons.1 htail).1 b hb
  have hfirst : (l.take i).countP (key a ≤ key ·) = (l.take i).length :=
    List.countP_eq_length.2 fun b hb => by simpa using hcross b hb a List.mem_cons_self
  have hlength : (l.take i).length = i := List.length_take_of_le hi.le
  have hle : (l.take i).countP (key a < key ·) ≤ (l.take i).length := List.countP_le_length
  simp only [List.countP_append, List.countP_cons, hbelow, hfirst]
  simp
  omega

/-- The others, and `a` between those that are to be in front of it and those behind it. -/
def around (front : α → Bool) (a : α) (others : List α) : List α :=
  others.filter front ++ a :: others.filter fun b => !front b

theorem getElem?_around (front : α → Bool) (a : α) (others : List α) :
    (around front a others)[others.countP front]? = some a := by
  rw [around, List.countP_eq_length_filter, List.getElem?_append_right le_rfl, Nat.sub_self, List.getElem?_cons_zero]

/-- An element is on one page of a list without duplicates. -/
theorem mem_page_of_getElem? (hl : l.Nodup) (hi : l[i]? = some a) :
    a ∈ page view n l ↔ n * view ≤ i ∧ i < (n + 1) * view := by
  rw [page, List.mem_iff_getElem?, succ_mul_view]
  constructor
  · rintro ⟨k, hk⟩
    rw [List.getElem?_take] at hk
    split at hk
    · rw [List.getElem?_drop] at hk
      obtain ⟨hlt, hget⟩ := List.getElem?_eq_some_iff.1 hi
      obtain ⟨hlt', hget'⟩ := List.getElem?_eq_some_iff.1 hk
      have hsame : i = n * view + k := (hl.getElem_inj_iff).1 (hget.trans hget'.symm)
      omega
    · cases hk
  · rintro ⟨hle, hlt⟩
    refine ⟨i - n * view, ?_⟩
    rw [List.getElem?_take_of_lt (by omega), List.getElem?_drop, Nat.add_sub_cancel' hle]
    exact hi

section

variable [DecidableEq α] {front : α → Bool}

omit [DecidableEq α] in
/-- Every list has an order. -/
theorem ranking_insertionSort (key : α → β) (s : List α) :
    Ranking key s (s.insertionSort fun a b => key b ≤ key a) := by
  have : Std.Total fun a b : α => key b ≤ key a := ⟨fun a b => le_total (key b) (key a)⟩
  have : IsTrans α fun a b => key b ≤ key a := ⟨fun a b c hab hbc => hbc.trans hab⟩
  exact ⟨List.perm_insertionSort _ _, List.pairwise_insertionSort _ _⟩

/-- The others in their order. -/
def others (key : α → β) (a : α) (s : List α) : List α := (s.erase a).insertionSort fun a b => key b ≤ key a

theorem countP_others (key : α → β) (ha : a ∈ s) :
    s.countP front = (others key a s).countP front + if front a then 1 else 0 := by
  rw [(List.perm_cons_erase ha).countP_eq, List.countP_cons, others, (List.perm_insertionSort _ _).countP_eq]

theorem ranking_around (ha : a ∈ s) (hfront : ∀ b, front b = true → key a ≤ key b)
    (hbehind : ∀ b, front b = false → key b ≤ key a) : Ranking key s (around front a (others key a s)) := by
  have hsorted : (others key a s).Pairwise fun a b => key b ≤ key a := (ranking_insertionSort key (s.erase a)).2
  have hbehind' {b : α} (hb : b ∈ (others key a s).filter fun b => !front b) : key b ≤ key a :=
    hbehind b (by simpa using List.of_mem_filter hb)
  constructor
  · calc around front a (others key a s)
        |>.Perm (a :: ((others key a s).filter front ++ (others key a s).filter fun b => !front b)) := List.perm_middle
      _ |>.Perm (a :: others key a s) := (List.filter_append_perm front _).cons a
      _ |>.Perm (a :: s.erase a) := (List.perm_insertionSort _ _).cons a
      _ |>.Perm s := (List.perm_cons_erase ha).symm
  · have htail : (a :: (others key a s).filter fun b => !front b).Pairwise fun a b => key b ≤ key a :=
      List.pairwise_cons.2 ⟨fun b hb => hbehind' hb, hsorted.filter _⟩
    refine List.pairwise_append.2 ⟨hsorted.filter _, htail, fun b hb c hc => ?_⟩
    have hab : key a ≤ key b := hfront b (List.of_mem_filter hb)
    rcases List.mem_cons.1 hc with rfl | hc
    · exact hab
    · exact (hbehind' hc).trans hab

/-- The first place is one. -/
theorem exists_first (key : α → β) (ha : a ∈ s) : ∃ l, Ranking key s l ∧ l[above key a s]? = some a := by
  refine ⟨around (key a < key ·) a (others key a s), ranking_around ha (fun b hb => (of_decide_eq_true hb).le)
    (fun b hb => not_lt.1 (of_decide_eq_false hb)), ?_⟩
  rw [above, countP_others key ha]
  simpa using getElem?_around (key a < key ·) a (others key a s)

/-- The last place is one. -/
theorem exists_last (key : α → β) (ha : a ∈ s) : ∃ l, Ranking key s l ∧ l[reach key a s - 1]? = some a := by
  refine ⟨around (key a ≤ key ·) a (others key a s), ranking_around ha (fun b hb => of_decide_eq_true hb)
    (fun b hb => (not_le.1 (of_decide_eq_false hb)).le), ?_⟩
  rw [reach, countP_others key ha]
  simpa using getElem?_around (key a ≤ key ·) a (others key a s)

/-- **When an element is on a page in every order.** -/
theorem mem_page_iff (hs : s.Nodup) (ha : a ∈ s) : (∀ l, Ranking key s l → a ∈ page view n l) ↔
    n * view ≤ above key a s ∧ reach key a s ≤ (n + 1) * view := by
  constructor
  · intro hall
    obtain ⟨first, hfirst, hplace⟩ := exists_first key ha
    obtain ⟨last, hlast, hplace'⟩ := exists_last key ha
    obtain ⟨hle, -⟩ := (mem_page_of_getElem? (hfirst.1.nodup_iff.2 hs) hplace).1 (hall first hfirst)
    obtain ⟨-, hlt⟩ := (mem_page_of_getElem? (hlast.1.nodup_iff.2 hs) hplace').1 (hall last hlast)
    exact ⟨hle, by omega⟩
  · rintro ⟨hle, hlt⟩ l hl
    obtain ⟨i, hi, hget⟩ := List.mem_iff_getElem.1 (hl.1.mem_iff.2 ha)
    obtain ⟨hfirst, hlast⟩ := hl.place hi hget
    exact (mem_page_of_getElem? (hl.1.nodup_iff.2 hs) (List.getElem?_eq_some_iff.2 ⟨hi, hget⟩)).2 ⟨by omega, by omega⟩

end

end LeftFelt.Lib.Ranks
