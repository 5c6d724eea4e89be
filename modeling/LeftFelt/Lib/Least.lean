import LeftFelt.Lib.Loop
import Mathlib.Order.Lattice
import Mathlib.Tactic.Common

/-!
# The first of the least

A loop that remembers the least value seen so far, and replaces it by strictly smaller ones only, ends with the first
of the elements of least value, or with what it began with if no element is below it (`foldl_keepLess`).
-/

namespace LeftFelt.Lib

variable {α K : Type*} [LinearOrder K]

/-- `if (min > f(a)) { min = f(a); at = a; }`. -/
def keepLess (f : α → K) (s : K × α) (a : α) : K × α := if s.1 > f a then (f a, a) else s

/-- `a` has the least value in `l`, and the others that have it come after `a`. -/
structure FirstLeast (f : α → K) (before : α → α → Prop) (l : List α) (a : α) : Prop where
  mem : a ∈ l
  least : ∀ b ∈ l, f a ≤ f b
  first : ∀ b ∈ l, f b = f a → b = a ∨ before a b

variable {f : α → K} {before : α → α → Prop} {pre : List α} {a b : α}

/-- A new element smaller than all before it. -/
theorem FirstLeast.take (h : ∀ c ∈ pre, f b < f c) : FirstLeast f before (pre ++ [b]) b := by
  refine ⟨by simp, fun c hc => ?_, fun c hc heq => ?_⟩
  · rcases List.mem_append.1 hc with hc | hc
    · exact (h c hc).le
    · rw [List.mem_singleton.1 hc]
  · rcases List.mem_append.1 hc with hc | hc
    · exact absurd heq (h c hc).ne'
    · exact .inl (List.mem_singleton.1 hc)

/-- A new element that is not smaller. -/
theorem FirstLeast.keep (h : FirstLeast f before pre a) (hab : before a b) (hle : f a ≤ f b) :
    FirstLeast f before (pre ++ [b]) a := by
  refine ⟨by simp [h.mem], fun c hc => ?_, fun c hc heq => ?_⟩
  · rcases List.mem_append.1 hc with hc | hc
    · exact h.least c hc
    · rwa [List.mem_singleton.1 hc]
  · rcases List.mem_append.1 hc with hc | hc
    · exact h.first c hc heq
    · rw [List.mem_singleton.1 hc]
      exact .inr hab

/-- **The scan ends at the first of the least.** -/
theorem foldl_keepLess (f : α → K) {l : List α} (hl : l.Pairwise before) (start : K) (a₀ : α) :
    (l.foldl (keepLess f) (start, a₀) = (start, a₀) ∧ ∀ b ∈ l, start ≤ f b) ∨
      ∃ a, l.foldl (keepLess f) (start, a₀) = (f a, a) ∧ f a < start ∧ FirstLeast f before l a := by
  refine foldl_scan (f := keepLess f) (l := l) (s := (start, a₀))
    (fun pre s => (s = (start, a₀) ∧ ∀ b ∈ pre, start ≤ f b) ∨
      ∃ a, s = (f a, a) ∧ f a < start ∧ FirstLeast f before pre a) (.inl ⟨rfl, by simp⟩) ?_
  rintro pre b post s rfl hs
  rcases hs with ⟨rfl, hpre⟩ | ⟨a, rfl, hlt, ha⟩
  · by_cases hb : start > f b
    · exact .inr ⟨b, if_pos hb, hb, .take fun c hc => hb.trans_le (hpre c hc)⟩
    · refine .inl ⟨if_neg hb, fun c hc => ?_⟩
      rcases List.mem_append.1 hc with hc | hc
      · exact hpre c hc
      · rw [List.mem_singleton.1 hc]
        exact not_lt.1 hb
  · by_cases hb : f a > f b
    · exact .inr ⟨b, if_pos hb, hb.trans hlt, .take fun c hc => hb.trans_le (ha.least c hc)⟩
    · have hab : before a b := (List.pairwise_append.1 hl).2.2 a ha.mem b (by simp)
      exact .inr ⟨a, if_neg hb, hlt, ha.keep hab (not_lt.1 hb)⟩

end LeftFelt.Lib
