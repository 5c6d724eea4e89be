import Mathlib.Logic.Function.Basic
import Mathlib.Data.List.Nodup
import Mathlib.Data.List.Count

/-!
# Windows and their objects

Which window an object belongs to is kept twice: in the pointer `wnd` of the object and in the vector `obj` of every
window. `Window::DeleteObject` erases an object only from a vector that is empty, and `AddObject` makes none of the
vectors it works on empty (`Linked`), so that an object stays in the vector of every window it has been added to. The
pointers and the vectors agree exactly if no object is added twice (`addObjects_consistent_iff`).
-/

namespace LeftFelt.Gui

variable {O W : Type*}

/-- The member `wnd` of all objects, where `none` is `NULL`, and the member `obj` of all windows. -/
structure Windows (O W : Type*) where
  wnd : O → Option W
  obj : W → List O

namespace Windows

/-- New objects and new windows. -/
def init : Windows O W := ⟨fun _ => none, fun _ => []⟩

/-- An object is in a vector exactly if it has a window, and then it is in the vector of that window. -/
structure Linked (s : Windows O W) : Prop where
  mem_obj : ∀ {o w}, s.wnd o = some w → o ∈ s.obj w
  wnd_ne : ∀ {o w}, o ∈ s.obj w → s.wnd o ≠ none

theorem linked_init : (init : Windows O W).Linked where
  mem_obj h := nomatch h
  wnd_ne h := nomatch h

variable [DecidableEq O] [DecidableEq W]

/-! ## The methods -/

/-- `erase` where the loop has found `o`. At the end of the vector it is undefined. -/
def eraseObject (objs : List O) (o : O) : Option (List O) := if o ∈ objs then some (objs.erase o) else none

/-- `Window::DeleteObject`. -/
def deleteObject (s : Windows O W) (w : W) (o : O) : Option (Windows O W) :=
  if (s.obj w).isEmpty = true then
    (eraseObject (s.obj w) o).map fun objs => { s with obj := Function.update s.obj w objs }
  else some s

/-- `WindowObject::SetWindow`, with what it returns. -/
def setWindow (s : Windows O W) (o : O) (w : W) : Option (Windows O W × Bool) :=
  match s.wnd o with
  | none => some ({ s with wnd := Function.update s.wnd o (some w) }, true)
  | some old =>
    (s.deleteObject old o).map fun s => ({ s with wnd := Function.update s.wnd o (some w) }, true)

/-- `Window::AddObject`. -/
def addObject (s : Windows O W) (w : W) (o : O) : Option (Windows O W) :=
  (s.setWindow o w).map fun (s, set) =>
    if set then { s with obj := Function.update s.obj w (s.obj w ++ [o]) } else s

/-- A call of `AddObject` for each pair. -/
def addObjects (s : Windows O W) : List (W × O) → Option (Windows O W)
  | [] => some s
  | (w, o) :: calls => (s.addObject w o).bind fun s => s.addObjects calls

/-! ## One call -/

/-- What `AddObject` does as long as nothing is deleted. -/
def link (s : Windows O W) (w : W) (o : O) : Windows O W :=
  ⟨Function.update s.wnd o (some w), Function.update s.obj w (s.obj w ++ [o])⟩

/-- The pointers and the vectors agree: an object is once in the vector of its window and in no other vector. -/
def Consistent (s : Windows O W) : Prop := ∀ o w, (s.obj w).count o = if s.wnd o = some w then 1 else 0

theorem consistent_init : (init : Windows O W).Consistent := fun _ _ => rfl

variable {s : Windows O W} {w : W} {o : O}

/-- The vector of the old window is not empty, since the object is in it: nothing is deleted. -/
theorem addObject_eq (hs : s.Linked) (w : W) (o : O) : s.addObject w o = some (s.link w o) := by
  cases hwnd : s.wnd o with
  | none => simp only [addObject, setWindow, hwnd, Option.map_some, if_true, link]
  | some old =>
    have hne : ¬(s.obj old).isEmpty = true := fun hempty =>
      List.ne_nil_of_mem (hs.mem_obj hwnd) (List.isEmpty_iff.mp hempty)
    simp only [addObject, setWindow, hwnd, deleteObject, if_neg hne, Option.map_some, if_true, link]

theorem mem_obj_link {o' : O} {w' : W} : o' ∈ (s.link w o).obj w' ↔ o' ∈ s.obj w' ∨ (w' = w ∧ o' = o) := by
  by_cases hw : w' = w
  · subst hw
    simp only [link, Function.update_self, List.mem_append, List.mem_singleton, true_and]
  · simp only [link, Function.update_of_ne hw, hw, false_and, or_false]

theorem wnd_link_self : (s.link w o).wnd o = some w := Function.update_self ..

theorem wnd_link_of_ne {o' : O} (h : o' ≠ o) : (s.link w o).wnd o' = s.wnd o' := Function.update_of_ne h ..

theorem forall_wnd_link {os : List O} :
    (∀ o' ∈ os, (s.link w o).wnd o' = none) ↔ o ∉ os ∧ ∀ o' ∈ os, s.wnd o' = none := by
  refine ⟨fun h => ?_, fun ⟨hne, h⟩ o' ho' => ?_⟩
  · have hne : o ∉ os := fun hmem => by
      have hself := h o hmem
      rw [wnd_link_self] at hself
      cases hself
    refine ⟨hne, fun o' ho' => ?_⟩
    rw [← wnd_link_of_ne (ne_of_mem_of_not_mem ho' hne)]
    exact h o' ho'
  · rw [wnd_link_of_ne (ne_of_mem_of_not_mem ho' hne)]
    exact h o' ho'

theorem Linked.link (hs : s.Linked) (w : W) (o : O) : (s.link w o).Linked where
  mem_obj {o' w'} h := by
    rw [mem_obj_link]
    by_cases ho : o' = o
    · subst ho
      rw [wnd_link_self, Option.some.injEq] at h
      exact Or.inr ⟨h.symm, rfl⟩
    · rw [wnd_link_of_ne ho] at h
      exact Or.inl (hs.mem_obj h)
  wnd_ne {o' w'} h := by
    by_cases ho : o' = o
    · subst ho
      simp only [wnd_link_self, ne_eq, reduceCtorEq, not_false_eq_true]
    · rw [wnd_link_of_ne ho]
      exact hs.wnd_ne ((mem_obj_link.mp h).resolve_right fun h => ho h.2)

theorem count_obj_link (o' : O) (w' : W) :
    ((s.link w o).obj w').count o' = (s.obj w').count o' + if w' = w ∧ o' = o then 1 else 0 := by
  by_cases hw : w' = w
  · subst hw
    simp only [Windows.link, Function.update_self, List.count_append, List.count_singleton, beq_iff_eq, true_and,
      eq_comm (a := o)]
  · simp only [Windows.link, Function.update_of_ne hw, hw, false_and, if_false, Nat.add_zero]

/-- **Only the first call for an object keeps the pointers and the vectors in agreement.** -/
theorem consistent_link_iff (hs : s.Linked) : (s.link w o).Consistent ↔ s.Consistent ∧ s.wnd o = none := by
  cases hwnd : s.wnd o with
  | none =>
    have hcount : ∀ w', (s.obj w').count o = 0 := fun w' =>
      List.count_eq_zero.mpr fun hmem => hs.wnd_ne hmem hwnd
    rw [and_iff_left rfl]
    refine forall₂_congr fun o' w' => ?_
    rw [count_obj_link]
    by_cases ho : o' = o
    · subst ho
      simp only [wnd_link_self, hcount, hwnd, and_true, Option.some.injEq, eq_comm, Nat.zero_add, reduceCtorEq,
        if_false]
    · simp only [wnd_link_of_ne ho, ho, and_false, if_false, Nat.add_zero]
  | some old =>
    refine iff_of_false (fun h => ?_) fun h => nomatch h.2
    have hold := List.count_pos_iff.mpr (hs.mem_obj hwnd)
    have hcount := h o old
    simp only [count_obj_link, wnd_link_self, Option.some.injEq, and_true, eq_comm (a := w)] at hcount
    omega

/-! ## All calls -/

/-- **When the pointers and the vectors agree**: no object is added twice. -/
theorem addObjects_linked (hs : s.Linked) (calls : List (W × O)) :
    ∃ s', s.addObjects calls = some s' ∧
      (s'.Consistent ↔ s.Consistent ∧ (calls.map Prod.snd).Nodup ∧ ∀ o ∈ calls.map Prod.snd, s.wnd o = none) := by
  induction calls generalizing s with
  | nil => exact ⟨s, rfl, by simp⟩
  | cons call calls ih =>
    obtain ⟨w, o⟩ := call
    obtain ⟨s', hrun, hiff⟩ := ih (hs.link w o)
    refine ⟨s', by rw [addObjects, addObject_eq hs, Option.bind_some, hrun], hiff.trans ?_⟩
    rw [consistent_link_iff hs, forall_wnd_link, List.map_cons, List.nodup_cons, List.forall_mem_cons]
    tauto

end Windows

open Windows

variable [DecidableEq O] [DecidableEq W]

/-- The registration of new objects in new windows is consistent after the calls. -/
def Registered (calls : List (W × O)) : Prop :=
  ∃ s, (init : Windows O W).addObjects calls = some s ∧ s.Consistent

/-- **When the pointers and the vectors agree**: no object is added twice. -/
theorem addObjects_consistent_iff (calls : List (W × O)) : Registered calls ↔ (calls.map Prod.snd).Nodup := by
  obtain ⟨s, hrun, hiff⟩ := addObjects_linked (linked_init (O := O) (W := W)) calls
  have hstart : ∀ o ∈ calls.map Prod.snd, (init : Windows O W).wnd o = none := fun _ _ => rfl
  have hiff : s.Consistent ↔ (calls.map Prod.snd).Nodup := by
    rw [hiff, and_iff_left hstart, and_iff_right consistent_init]
  rw [← hiff, Registered, hrun]
  simp only [Option.some.injEq, exists_eq_left']

/-- An object that is moved stays in the vector of its old window. -/
theorem not_registered_moved : ¬∀ calls : List (Bool × Unit), Registered calls := by
  intro h
  obtain ⟨s, hrun, hs⟩ := h [(false, ()), (true, ())]
  obtain rfl := Option.some.inj hrun
  exact absurd (hs () false) (by decide)

end LeftFelt.Gui
