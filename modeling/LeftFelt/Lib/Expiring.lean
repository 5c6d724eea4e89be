import Mathlib.Logic.Function.Basic
import Mathlib.Algebra.Order.Group.Int

/-!
# Entries with a deadline

A store keeps values under keys, each until a deadline or for ever, and has a clock. An entry that is left alone is read
until its deadline, however long the store is used for other keys (`get_of_entry`).
-/

namespace LeftFelt.Lib.Expiring

variable {K V : Type*}

/-- The entries, and the time. -/
structure Store (K V : Type*) where
  entries : K → Option (V × Option Int)
  now : Int

/-- Is the deadline, if there is one, still to come? -/
def alive (now : Int) : Option Int → Bool
  | none => true
  | some deadline => now < deadline

theorem alive_mono {now later : Int} {deadline : Option Int} (hle : now ≤ later) (h : alive later deadline = true) :
    alive now deadline = true := by
  cases deadline with
  | none => rfl
  | some deadline =>
    have hlt : later < deadline := of_decide_eq_true h
    exact decide_eq_true (hle.trans_lt hlt)

namespace Store

/-- The value under a key, before its deadline. -/
def get (s : Store K V) (k : K) : Option V :=
  (s.entries k).bind fun e => if alive s.now e.2 then some e.1 else none

/-- Some time passes. -/
def wait (seconds : Nat) (s : Store K V) : Store K V := { s with now := s.now + seconds }

variable [DecidableEq K]

/-- A value is put under a key until a deadline. -/
def put (k : K) (v : V) (deadline : Option Int) (s : Store K V) : Store K V :=
  { s with entries := Function.update s.entries k (some (v, deadline)) }

/-- The entry of a key is taken away. -/
def erase (k : K) (s : Store K V) : Store K V := { s with entries := Function.update s.entries k none }

end Store

section Laws

variable {s : Store K V} {k k' : K} {v : V} {deadline : Option Int}

theorem get_of_entry (h : s.entries k = some (v, deadline)) (halive : alive s.now deadline = true) :
    s.get k = some v := by
  rw [Store.get, h, Option.bind_some, if_pos halive]

/-- What is read stands in the entry. -/
theorem entry_of_get (h : s.get k = some v) : ∃ deadline, s.entries k = some (v, deadline) := by
  obtain ⟨⟨v', deadline⟩, hentry, hvalue⟩ := Option.bind_eq_some_iff.mp h
  have hv : alive s.now deadline = true ∧ v' = v := by simpa using hvalue
  exact ⟨deadline, hv.2 ▸ hentry⟩

/-- What is read stands in the entry, before its deadline. -/
theorem alive_of_get (h : s.get k = some v) : ∃ deadline, s.entries k = some (v, deadline) ∧ alive s.now deadline := by
  obtain ⟨⟨v', deadline⟩, hentry, hvalue⟩ := Option.bind_eq_some_iff.mp h
  have hv : alive s.now deadline = true ∧ v' = v := by simpa using hvalue
  exact ⟨deadline, hv.2 ▸ hentry, hv.1⟩

variable [DecidableEq K]

@[simp] theorem entries_put_self : (s.put k v deadline).entries k = some (v, deadline) := Function.update_self _ _ _

theorem entries_put_of_ne (h : k' ≠ k) : (s.put k v deadline).entries k' = s.entries k' :=
  Function.update_of_ne h _ _

@[simp] theorem entries_erase_self : (s.erase k).entries k = none := Function.update_self _ _ _

theorem entries_erase_of_ne (h : k' ≠ k) : (s.erase k).entries k' = s.entries k' := Function.update_of_ne h _ _

end Laws

end LeftFelt.Lib.Expiring
