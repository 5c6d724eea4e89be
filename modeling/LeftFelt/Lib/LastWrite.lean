import LeftFelt.Lib.Loop

/-!
# The last write

A loop that overwrites a value at some of the elements of a list ends with what it has written at the last of them, or
with the value that it began with.
-/

namespace LeftFelt.Lib.LastWrite

variable {α β : Type*} {c : α → Prop} {f : α → β} {l : List α} {a : α} {v : β}

/-- `if (c(a)) v = f(a)`. -/
def overwrite (c : α → Prop) [DecidablePred c] (f : α → β) (v : β) (a : α) : β := if c a then f a else v

/-- `a` is the last element of the list with `c a`. -/
def Last (c : α → Prop) (l : List α) (a : α) : Prop := ∃ pre post, l = pre ++ a :: post ∧ c a ∧ ∀ b ∈ post, ¬c b

theorem last_or_none (c : α → Prop) (l : List α) : (∀ a ∈ l, ¬c a) ∨ ∃ a, Last c l a := by
  induction l with
  | nil => exact .inl (by simp)
  | cons b l ih =>
    rcases ih with hnone | ⟨a, pre, post, rfl, ha, hpost⟩
    · by_cases hb : c b
      · exact .inr ⟨b, [], l, rfl, hb, hnone⟩
      · exact .inl (List.forall_mem_cons.2 ⟨hb, hnone⟩)
    · exact .inr ⟨a, b :: pre, post, rfl, ha, hpost⟩

/-- Of two coordinates one comes first. -/
theorem rasterLt_trichotomy (p q : Nat × Nat) : RasterLt p q ∨ p = q ∨ RasterLt q p := by
  obtain ⟨i, j⟩ := p
  obtain ⟨i', j'⟩ := q
  simp only [RasterLt, Prod.mk.injEq]
  omega

/-- In a raster nothing comes after it. -/
theorem last_raster {x0 x1 y0 y1 : Nat} {c : Nat × Nat → Prop} {p : Nat × Nat} :
    Last c (raster x0 x1 y0 y1) p ↔
      (p ∈ raster x0 x1 y0 y1 ∧ c p) ∧ ∀ q ∈ raster x0 x1 y0 y1, RasterLt p q → ¬c q := by
  have hsorted := raster_pairwise x0 x1 y0 y1
  constructor
  · rintro ⟨pre, post, heq, hp, hpost⟩
    rw [heq] at hsorted ⊢
    refine ⟨⟨by simp, hp⟩, fun q hq hlt => ?_⟩
    rw [List.mem_append, List.mem_cons] at hq
    rcases hq with hq | rfl | hq
    · have hbefore := (List.pairwise_append.1 hsorted).2.2 q hq p List.mem_cons_self
      exact absurd (hlt.trans hbefore) (RasterLt.irrefl p)
    · exact absurd hlt (RasterLt.irrefl q)
    · exact hpost q hq
  · rintro ⟨⟨hmem, hp⟩, hafter⟩
    obtain ⟨pre, post, heq⟩ := List.mem_iff_append.1 hmem
    refine ⟨pre, post, heq, hp, fun q hq => ?_⟩
    rw [heq] at hsorted
    have hlt := (List.pairwise_cons.1 (List.pairwise_append.1 hsorted).2.1).1 q hq
    exact hafter q (by simp [heq, hq]) hlt

variable [DecidablePred c]

theorem foldl_of_none (h : ∀ a ∈ l, ¬c a) : l.foldl (overwrite c f) v = v :=
  foldl_scan_all (fun w => w = v) rfl fun a w ha hw => by rw [overwrite, if_neg (h a ha), hw]

/-- **The value in the end** is the one of the last write. -/
theorem foldl_of_last (h : Last c l a) : l.foldl (overwrite c f) v = f a := by
  obtain ⟨pre, post, rfl, ha, hpost⟩ := h
  rw [List.foldl_append, List.foldl_cons, foldl_of_none hpost, overwrite, if_pos ha]

end LeftFelt.Lib.LastWrite
