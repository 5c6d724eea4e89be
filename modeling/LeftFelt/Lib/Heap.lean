import LeftFelt.Lib.Checked
import Mathlib.Logic.Function.Basic
import Mathlib.Tactic.SplitIfs

/-!
# A heap

Blocks of cells, as `malloc` gives them. A cell is indeterminate until something is stored in it. Where C leaves the
behaviour undefined (a null pointer, a block that has been freed, a place outside of a block), an operation gives
`none`. An address is given only once.

`copyCells_eq_some` and `length_of_copyCells` say what a loop does that copies an array cell by cell: it comes to an end
exactly if the new array has room.
-/

namespace LeftFelt.Lib

/-- A pointer to the beginning of a block, or `NULL`. -/
abbrev Pointer := Option Nat

/-- The blocks that have not been freed, and the next address. -/
structure Heap (V : Type*) where
  block : Nat → Option (List (Option V))
  next : Nat

namespace Heap

variable {V : Type*}

/-- The heap without any blocks. -/
def empty : Heap V := ⟨fun _ => none, 0⟩

/-- `malloc`, for `n` cells. -/
def malloc (n : Nat) (h : Heap V) : Heap V × Nat :=
  (⟨Function.update h.block h.next (some (List.replicate n none)), h.next + 1⟩, h.next)

/-- `free`. -/
def free (h : Heap V) : Pointer → Option (Heap V)
  | none => some h
  | some a => if (h.block a).isSome then some { h with block := Function.update h.block a none } else none

/-- The cell `i` of a block. -/
def load (h : Heap V) (p : Pointer) (i : Nat) : Option (Option V) :=
  p.bind fun a => (h.block a).bind fun cells => cells[i]?

/-- A cell is stored as the cell `i` of a block. -/
def store (h : Heap V) (a i : Nat) (cell : Option V) : Option (Heap V) :=
  (h.block a).bind fun cells =>
    if i < cells.length then some { h with block := Function.update h.block a (some (cells.set i cell)) } else none

/-- The cells that a pointer points to. There are none behind `NULL`. -/
def cells (h : Heap V) : Pointer → Option (List (Option V))
  | none => some []
  | some a => h.block a

/-- A cell of one block is copied to the same place of another one: `*(to + i) = *(from + i)`. -/
def copyCell (h : Heap V) (old : Pointer) (a i : Nat) : Option (Heap V) := do
  h.store a i (← h.load old i)

/-- Blocks have addresses that have been given. -/
def Fresh (h : Heap V) : Prop := ∀ a, (h.block a).isSome → a < h.next

variable {h h' : Heap V} {a i : Nat} {cell : Option V} {cs : List (Option V)}

@[simp] theorem block_malloc (n : Nat) (h : Heap V) : (h.malloc n).1.block h.next = some (List.replicate n none) :=
  Function.update_self ..

@[simp] theorem next_malloc (n : Nat) (h : Heap V) : (h.malloc n).1.next = h.next + 1 := rfl

theorem block_malloc_of_ne (n : Nat) {h : Heap V} {a : Nat} (ha : a ≠ h.next) : (h.malloc n).1.block a = h.block a :=
  Function.update_of_ne ha ..

/-- What a cell is changed to. -/
theorem block_store (hblock : h.block a = some cs) (hstore : h.store a i cell = some h') :
    h'.block a = some (cs.set i cell) := by
  rw [store, hblock, Option.bind_some] at hstore
  split_ifs at hstore with hi
  obtain rfl := Option.some.inj hstore
  exact Function.update_self ..

/-- A block that is still there after `free` is as it was. -/
theorem block_free {p : Pointer} (hfree : h.free p = some h') (hblock : h'.block a = some cs) : h.block a = some cs := by
  cases p with
  | none => rwa [← Option.some.inj hfree] at hblock
  | some b =>
    rw [free] at hfree
    split_ifs at hfree
    obtain rfl := Option.some.inj hfree
    by_cases hab : a = b
    · subst hab
      simp at hblock
    · simpa [Function.update_of_ne hab] using hblock

/-- The block that has been freed is not there any more. -/
theorem block_free_self (hfree : h.free (some a) = some h') : h'.block a = none := by
  rw [free] at hfree
  split_ifs at hfree
  obtain rfl := Option.some.inj hfree
  exact Function.update_self ..

/-- Three blocks in a row. -/
theorem malloc_three (x y z : Nat) (h : Heap V) :
    (((h.malloc x).1.malloc y).1.malloc z).1.block h.next = some (List.replicate x none) ∧
      (((h.malloc x).1.malloc y).1.malloc z).1.block (h.next + 1) = some (List.replicate y none) ∧
      (((h.malloc x).1.malloc y).1.malloc z).1.block (h.next + 2) = some (List.replicate z none) ∧
      ∀ a < h.next, (((h.malloc x).1.malloc y).1.malloc z).1.block a = h.block a := by
  refine ⟨?_, ?_, block_malloc z ((h.malloc x).1.malloc y).1, fun a ha => ?_⟩
  · rw [block_malloc_of_ne _ (by simp only [next_malloc]; omega), block_malloc_of_ne _ (by simp), block_malloc]
  · rw [block_malloc_of_ne _ (by simp)]
    exact block_malloc y (h.malloc x).1
  · rw [block_malloc_of_ne _ (by simp only [next_malloc]; omega),
      block_malloc_of_ne _ (by simp only [next_malloc]; omega), block_malloc_of_ne _ (by omega)]

/-- What a pointer points to, it points to as long as the block stays. -/
theorem cells_eq {p : Pointer} (hsame : ∀ a, p = some a → h'.block a = h.block a) : h'.cells p = h.cells p := by
  cases p with
  | none => rfl
  | some a => exact hsame a rfl

theorem cells_congr {p : Pointer} (hother : ∀ b, b ≠ a → h'.block b = h.block b) (hne : p ≠ some a) :
    h'.cells p = h.cells p :=
  cells_eq fun b hb => hother b fun heq => hne (by rw [hb, heq])

/-! ## Freeing and copying -/

theorem free_eq (hblock : (h.block a).isSome) :
    h.free (some a) = some { h with block := Function.update h.block a none } := if_pos hblock

/-- Several blocks are freed. -/
theorem free_all {ps : List Pointer} (hall : ∀ a, some a ∈ ps → (h.block a).isSome)
    (hdistinct : ps.Pairwise fun p q => ∀ a, p = some a → q ≠ some a) :
    ∃ h', ps.foldlM free h = some h' ∧ h'.next = h.next ∧
      ∀ a, h'.block a = if some a ∈ ps then none else h.block a := by
  induction ps generalizing h with
  | nil => exact ⟨h, rfl, rfl, fun a => by simp⟩
  | cons p ps ih =>
    rw [List.pairwise_cons] at hdistinct
    cases p with
    | none =>
      obtain ⟨h', hrun, hnext, hblock⟩ := ih (fun a ha => hall a (List.mem_cons_of_mem _ ha)) hdistinct.2
      exact ⟨h', hrun, hnext, fun a => by simp [hblock]⟩
    | some b =>
      have hb := hall b List.mem_cons_self
      have hrest : ∀ a, some a ∈ ps → ((Function.update h.block b none) a).isSome := by
        intro a ha
        rw [Function.update_of_ne fun heq => hdistinct.1 _ ha b rfl (by rw [heq])]
        exact hall a (List.mem_cons_of_mem _ ha)
      obtain ⟨h', hrun, hnext, hblock⟩ := ih (h := { h with block := Function.update h.block b none }) hrest hdistinct.2
      refine ⟨h', by rw [List.foldlM_cons, free_eq hb]; exact hrun, hnext, fun a => ?_⟩
      rw [hblock]
      by_cases hab : a = b
      · simp [hab]
      · simp [hab]

theorem load_eq {old : Pointer} (hold : h.cells old = some cs) (hi : i < cs.length) : h.load old i = some cs[i] := by
  cases old with
  | none =>
    obtain rfl := Option.some.inj hold
    exact absurd hi (Nat.not_lt_zero i)
  | some b =>
    have hblock : h.block b = some cs := hold
    rw [load, Option.bind_some, hblock, Option.bind_some, List.getElem?_eq_getElem hi]

/-- The first cells of a block have been copied from another one. -/
def overlay (n : Nat) (cs ds : List (Option V)) : List (Option V) := cs.take n ++ ds.drop n

variable {ds : List (Option V)} {n : Nat} {old : Pointer}

theorem length_overlay (hcs : n ≤ cs.length) (hds : n ≤ ds.length) : (overlay n cs ds).length = ds.length := by
  rw [overlay, List.length_append, List.length_take, List.length_drop]
  omega

theorem overlay_succ (hcs : n < cs.length) (hds : n < ds.length) :
    (overlay n cs ds).set n cs[n] = overlay (n + 1) cs ds := by
  have hlength : (cs.take n).length = n := by
    rw [List.length_take]
    omega
  rw [overlay, List.set_append_right _ _ hlength.le, hlength, Nat.sub_self, List.drop_eq_getElem_cons hds,
    List.set_cons_zero, overlay, List.take_succ_eq_append_getElem hcs, List.append_assoc, List.singleton_append]

/-- The next cell. -/
theorem copyCell_eq (hold : h.cells old = some cs) (hcs : n < cs.length) (hnew : h.block a = some (overlay n cs ds))
    (hds : n < ds.length) :
    h.copyCell old a n = some { h with block := Function.update h.block a (some (overlay (n + 1) cs ds)) } := by
  have hlength := length_overlay hcs.le hds.le
  rw [copyCell, load_eq hold hcs, Option.bind_eq_bind, Option.bind_some, store, hnew, Option.bind_some,
    if_pos (by omega), overlay_succ hcs hds]

/-- A cell that can be copied has a place. -/
theorem copyCell_spec (hnew : h.block a = some ds) (hcopy : h.copyCell old a i = some h') :
    i < ds.length ∧ ∃ ds', h'.block a = some ds' ∧ ds'.length = ds.length := by
  rw [copyCell, Option.bind_eq_bind, Option.bind_eq_some_iff] at hcopy
  obtain ⟨cell, -, hstore⟩ := hcopy
  refine ⟨?_, _, block_store hnew hstore, List.length_set⟩
  rw [store, hnew, Option.bind_some] at hstore
  split_ifs at hstore with hi
  exact hi

/-- `for (i = 0; i < n; i++) *(to + i) = *(from + i)`. -/
def copyCells (old : Pointer) (a n : Nat) (h : Heap V) : Option (Heap V) :=
  Checked.forLoop 0 n (fun i h => h.copyCell old a i) h

/-- **The loop copies the cells**, and changes no other block. -/
theorem copyCells_eq_some (hold : h.cells old = some cs) (hne : old ≠ some a) (hnew : h.block a = some ds)
    (hcs : n ≤ cs.length) (hds : n ≤ ds.length) :
    ∃ h', copyCells old a n h = some h' ∧ h'.next = h.next ∧ h'.block a = some (overlay n cs ds) ∧
      ∀ b, b ≠ a → h'.block b = h.block b := by
  obtain ⟨h', hrun, hI⟩ := Checked.foldlM_eq_some (f := fun h i => h.copyCell old a i) (l := List.range n) (s := h)
    (fun pre h' => h'.next = h.next ∧ h'.block a = some (overlay pre.length cs ds) ∧
      ∀ b, b ≠ a → h'.block b = h.block b) ⟨rfl, hnew, fun _ _ => rfl⟩ (by
    rintro pre i post h' hpre ⟨hnext, hblock, hother⟩
    obtain ⟨rfl, hi⟩ := range_split hpre
    refine ⟨_, copyCell_eq ((cells_congr hother hne).trans hold) (by omega) hblock (by omega), hnext, ?_,
      fun b hb => (Function.update_of_ne hb ..).trans (hother b hb)⟩
    rw [List.length_append, List.length_singleton]
    exact Function.update_self ..)
  rw [List.length_range] at hI
  exact ⟨h', by rw [copyCells, Checked.forLoop, Nat.sub_zero, ← List.range_eq_range']; exact hrun, hI⟩

/-- **A loop that comes to an end had room.** -/
theorem length_of_copyCells (hnew : h.block a = some ds) (hrun : copyCells old a n h = some h') :
    n ≤ ds.length := by
  have key : ∃ ds', h'.block a = some ds' ∧ ds'.length = ds.length ∧ n ≤ ds.length := by
    rw [copyCells, Checked.forLoop, Nat.sub_zero, ← List.range_eq_range'] at hrun
    induction n generalizing h' with
    | zero =>
      obtain rfl := Option.some.inj hrun
      exact ⟨ds, hnew, rfl, Nat.zero_le _⟩
    | succ n ih =>
      rw [List.range_succ, List.foldlM_append, Option.bind_eq_bind, Option.bind_eq_some_iff] at hrun
      obtain ⟨h₁, hfirst, hlast⟩ := hrun
      obtain ⟨ds₁, hds₁, hlength₁, -⟩ := ih hfirst
      rw [List.foldlM_cons, Option.bind_eq_bind, Option.bind_eq_some_iff] at hlast
      obtain ⟨h₂, hcopy, hlast⟩ := hlast
      obtain rfl := Option.some.inj hlast
      obtain ⟨hn, ds₂, hds₂, hlength₂⟩ := copyCell_spec hds₁ hcopy
      exact ⟨ds₂, hds₂, hlength₂.trans hlength₁, by omega⟩
  obtain ⟨-, -, -, hle⟩ := key
  exact hle

end Heap

end LeftFelt.Lib
