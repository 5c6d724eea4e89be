import Mathlib.Data.List.Basic
import Mathlib.Data.List.Chain
import Mathlib.Data.List.Infix
import Mathlib.Tactic.Ring

/-!
# Pages of a list that grows

A list is read page by page, and gets longer between the pages. Who reads on meets every element that was there at the
start, as far as his pages go, and meets none twice (`prefix_pages`, `pages_sublist`).
-/

namespace LeftFelt.Lib.Pages

open scoped List

variable {α : Type*}

/-- Page number `n` of a list. -/
def page (view n : Nat) (l : List α) : List α := (l.drop (n * view)).take view

/-- The pages from number `n` on, each of the list as it is by then. -/
def pages (view : Nat) : Nat → List (List α) → List α
  | _, [] => []
  | n, l :: ls => page view n l ++ pages view (n + 1) ls

/-- Each list is the one before it, with more elements at the end. -/
abbrev Growing (ls : List (List α)) : Prop := ls.IsChain (· <+: ·)

variable (view : Nat) {n : Nat} {l l' last : List α} {ls : List (List α)}

theorem succ_mul_view (n view : Nat) : (n + 1) * view = n * view + view := by ring

/-- The first pages are the beginning of the list. -/
theorem flatMap_page (n : Nat) (l : List α) : ((List.range n).flatMap fun i => page view i l) = l.take (n * view) := by
  induction n with
  | zero => simp
  | succ n ih =>
    rw [List.range_succ, List.flatMap_append, ih, List.flatMap_singleton, page, succ_mul_view, List.take_add]

/-- A page that has elements. -/
theorem page_ne_nil_iff (hview : 1 ≤ view) (l : List α) : page view n l ≠ [] ↔ n * view < l.length := by
  rw [page, ← List.length_pos_iff, List.length_take, List.length_drop]
  omega

/-- The last list begins with the first one. -/
theorem prefix_getLast (hgrow : Growing (l :: ls)) (hlast : (l :: ls).getLast? = some last) : l <+: last := by
  induction ls generalizing l with
  | nil =>
    obtain rfl : l = last := by simpa using hlast
    exact List.prefix_rfl
  | cons l' ls ih =>
    obtain ⟨hfirst, hrest⟩ := List.isChain_cons_cons.1 hgrow
    rw [List.getLast?_cons_cons] at hlast
    exact hfirst.trans (ih hrest hlast)

/-- **The pages begin with what was there at the start.** -/
theorem prefix_pages (hgrow : Growing (l :: ls)) :
    (l.drop (n * view)).take ((l :: ls).length * view) <+: pages view n (l :: ls) := by
  induction ls generalizing n l with
  | nil => simp [pages, page]
  | cons l' ls ih =>
    obtain ⟨hfirst, hrest⟩ := List.isChain_cons_cons.1 hgrow
    have htail : (l.drop (n * view)).drop view <+: l'.drop ((n + 1) * view) := by
      rw [List.drop_drop, succ_mul_view]
      exact List.IsPrefix.drop hfirst _
    have hlength : (l :: l' :: ls).length * view = view + (l' :: ls).length * view := by
      rw [List.length_cons, succ_mul_view, Nat.add_comm]
    rw [hlength, List.take_add, pages]
    exact (List.prefix_append_right_inj _).2 ((htail.take _).trans (ih hrest))

/-- **The pages are a part of the last list**, in its order. -/
theorem pages_sublist (hgrow : Growing ls) (hlast : ls.getLast? = some last) :
    pages view n ls <+ last.drop (n * view) := by
  induction ls generalizing n with
  | nil => exact List.nil_sublist _
  | cons l ls ih =>
    have hpage : page view n l <+ (last.drop (n * view)).take view :=
      ((List.IsPrefix.drop (prefix_getLast hgrow hlast) _).take _).sublist
    rw [← List.take_append_drop view (last.drop (n * view)), List.drop_drop, ← succ_mul_view, pages]
    refine hpage.append ?_
    cases ls with
    | nil => exact List.nil_sublist _
    | cons l' ls => exact ih (List.isChain_cons_cons.1 hgrow).2 (by rwa [List.getLast?_cons_cons] at hlast)

end LeftFelt.Lib.Pages
