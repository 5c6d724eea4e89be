import LeftFelt.Lib.Loop
import LeftFelt.Lib.OrderedMap
import Mathlib.Data.List.Count

/-!
# Tallies

The entries of a list are counted in an ordered map (`tally`). A scan of the map that keeps an entry only if its count
is larger than all before finds the least of the entries that occur most often (`most_spec`).
-/

namespace LeftFelt.Lib

namespace Tally

open OrderedMap

variable {K : Type*} [LE K] [LT K] [DecidableLT K] [DecidableEq K] [Std.IsLinearOrder K] [Std.LawfulOrderLT K]

/-- `m[k]++`. -/
def bump (m : OrderedMap K Nat) (k : K) : OrderedMap K Nat := m.insert k (m.getD k 0 + 1)

/-- How often each entry occurs. -/
def tally (l : List K) : OrderedMap K Nat := l.foldl bump empty

/-- The entry that occurs most often so far, and how often. -/
def keepMost (best : Nat × Option K) (e : K × Nat) : Nat × Option K := if best.1 < e.2 then (e.2, some e.1) else best

/-- The entry that occurs most often. -/
def most (m : OrderedMap K Nat) : Nat × Option K := m.entries.foldl keepMost (0, none)

theorem mem_tally {l : List K} {e : K × Nat} : e ∈ (tally l).entries ↔ e.1 ∈ l ∧ e.2 = l.count e.1 := by
  suffices ∀ e : K × Nat, e ∈ (tally l).entries ↔ e.1 ∈ l ∧ e.2 = l.count e.1 from this e
  refine foldl_scan (fun (pre : List K) (m : OrderedMap K Nat) =>
    ∀ e : K × Nat, e ∈ m.entries ↔ e.1 ∈ pre ∧ e.2 = pre.count e.1) (by simp [empty]) ?_
  rintro pre k post m - hm ⟨j, n⟩
  have hk : m.getD k 0 = pre.count k := by
    by_cases hmem : k ∈ pre
    · refine getD_of_mem ((hm (k, _)).2 ⟨hmem, rfl⟩) (fun e he hkey => ?_) 0
      rw [← hkey]
      exact ((hm e).1 he).2
    · rw [List.count_eq_zero_of_not_mem hmem]
      refine getD_of_forall_ne (fun e he hkey => hmem ?_) 0
      rw [← hkey]
      exact ((hm e).1 he).1
  rw [bump, mem_insert, hk, hm, List.mem_append, List.mem_singleton, List.count_append]
  by_cases hjk : j = k
  · subst hjk
    simp
  · simp [hjk, Ne.symm hjk]

/-- **The scan for the most frequent entry**: none if nothing has been counted, else the least of those that occur most
often. -/
theorem most_spec (l : List K) :
    ((most (tally l)).2 = none ∧ l = []) ∨
      ∃ k ∈ l, most (tally l) = (l.count k, some k) ∧
        ∀ j ∈ l, l.count j ≤ l.count k ∧ (l.count j = l.count k → k ≤ j) := by
  have key := foldl_scan (f := keepMost) (l := (tally l).entries) (s := (0, none))
    (fun pre best => (best = (0, none) ∧ pre = []) ∨
      ∃ e ∈ pre, best = (e.2, some e.1) ∧ ∀ d ∈ pre, d.2 ≤ e.2 ∧ (d.2 = e.2 → e.1 ≤ d.1)) (Or.inl ⟨rfl, rfl⟩) ?_
  · rcases key with ⟨hbest, hnil⟩ | ⟨⟨k, n⟩, he, hbest, hall⟩
    · refine Or.inl ⟨by rw [most, hbest], List.eq_nil_iff_forall_not_mem.2 fun k hk => ?_⟩
      have hmem := mem_tally.2 (show (k, l.count k).1 ∈ l ∧ _ = _ from ⟨hk, rfl⟩)
      rw [hnil] at hmem
      cases hmem
    · obtain ⟨hk, hn⟩ := mem_tally.1 he
      dsimp only at hk hn
      subst hn
      refine Or.inr ⟨k, hk, hbest, fun j hj => ?_⟩
      exact hall (j, l.count j) (mem_tally.2 ⟨hj, rfl⟩)
  rintro pre e post best hl hI
  have hpos : 0 < e.2 := by
    obtain ⟨hmem, hcount⟩ := mem_tally.1 (show e ∈ (tally l).entries by simp [hl])
    rw [hcount]
    exact List.count_pos_iff.2 hmem
  have hlater : ∀ d ∈ pre, d.1 < e.1 := by
    have hsorted := (tally l).sorted
    rw [hl, List.pairwise_append] at hsorted
    exact fun d hd => hsorted.2.2 d hd e List.mem_cons_self
  refine Or.inr ?_
  rcases hI with ⟨rfl, rfl⟩ | ⟨a, ha, rfl, hall⟩
  · refine ⟨e, by simp, by rw [keepMost, if_pos hpos], fun d hd => ?_⟩
    obtain rfl := List.mem_singleton.1 hd
    exact ⟨Nat.le_refl _, fun _ => Std.le_refl _⟩
  · rw [keepMost]
    split_ifs with hlt
    · refine ⟨e, by simp, rfl, fun d hd => ?_⟩
      rcases List.mem_append.1 hd with hd | hd
      · have hle := (hall d hd).1
        dsimp only at hlt
        exact ⟨by omega, fun heq => by omega⟩
      · obtain rfl := List.mem_singleton.1 hd
        exact ⟨Nat.le_refl _, fun _ => Std.le_refl _⟩
    · refine ⟨a, List.mem_append_left _ ha, rfl, fun d hd => ?_⟩
      rcases List.mem_append.1 hd with hd | hd
      · exact hall d hd
      · obtain rfl := List.mem_singleton.1 hd
        exact ⟨Nat.not_lt.1 hlt, fun _ => Std.le_of_lt (hlater a ha)⟩

end Tally

end LeftFelt.Lib
