import Mathlib.Data.List.Infix

/-!
# Computations with a trace

A computation over a state returns or stops (`exec`). A traced one is put together from such parts, and notes events
between them. No part can take an event back: the events of a run begin with those that were there (`Grows`).
-/

namespace LeftFelt.Lib.Traced

variable {E σ ε α β : Type}

/-! ## Computations -/

/-- What a computation returns, or why it stops, and the state that it leaves. -/
def exec (x : ExceptT E (StateM σ) α) (s : σ) : Except E α × σ := x.run.run s

section Bind

variable {x : ExceptT E (StateM σ) α} {f : α → ExceptT E (StateM σ) β} {s s' : σ}

theorem exec_bind_ok {a : α} (h : exec x s = (.ok a, s')) : exec (x >>= f) s = exec (f a) s' := by
  unfold exec at h ⊢
  rw [ExceptT.run_bind, StateT.run_bind, h]
  rfl

theorem exec_bind_error {e : E} (h : exec x s = (.error e, s')) : exec (x >>= f) s = (.error e, s') := by
  unfold exec at h ⊢
  rw [ExceptT.run_bind, StateT.run_bind, h]
  rfl

/-- **A computation that is followed by another**: it stops, or the other one goes on from where it is. -/
theorem exec_bind_cases (x : ExceptT E (StateM σ) α) (f : α → ExceptT E (StateM σ) β) (s : σ) :
    (∃ e s', exec x s = (.error e, s') ∧ exec (x >>= f) s = (.error e, s')) ∨
    ∃ a s', exec x s = (.ok a, s') ∧ exec (x >>= f) s = exec (f a) s' := by
  obtain ⟨r, s', h⟩ : ∃ r s', exec x s = (r, s') := ⟨_, _, rfl⟩
  cases r with
  | error e => exact Or.inl ⟨e, s', h, exec_bind_error h⟩
  | ok a => exact Or.inr ⟨a, s', h, exec_bind_ok h⟩

end Bind

/-! ## Traces -/

/-- A state, and the events so far. -/
structure Trace (ε σ : Type) where
  state : σ
  events : List ε

/-- A computation with events. -/
abbrev Run (E ε σ α : Type) := ExceptT E (StateM (Trace ε σ)) α

/-- A part, which does not see the events. -/
def part (x : ExceptT E (StateM σ) α) : Run E ε σ α :=
  ExceptT.mk fun t => ((exec x t.state).1, { t with state := (exec x t.state).2 })

/-- One more event. -/
def note (e : ε) : Run E ε σ Unit := modify fun t => { t with events := t.events ++ [e] }

theorem exec_part (x : ExceptT E (StateM σ) α) (t : Trace ε σ) :
    exec (part x : Run E ε σ α) t = ((exec x t.state).1, { t with state := (exec x t.state).2 }) := rfl

theorem exec_note (e : ε) (t : Trace ε σ) :
    exec (note e : Run E ε σ Unit) t = (.ok (), { t with events := t.events ++ [e] }) := rfl

/-- The events that were there stay. -/
def Grows (x : Run E ε σ α) : Prop :=
  ∀ t, t.events <+: (exec x t).2.events

theorem grows_pure (a : α) : Grows (pure a : Run E ε σ α) := fun _ => List.prefix_rfl

theorem grows_throw (e : E) : Grows (throw e : Run E ε σ α) := fun _ => List.prefix_rfl

theorem grows_part (x : ExceptT E (StateM σ) α) : Grows (part x : Run E ε σ α) := fun _ => List.prefix_rfl

theorem grows_note (e : ε) : Grows (note e : Run E ε σ Unit) := fun t => List.prefix_append t.events [e]

theorem grows_bind {x : Run E ε σ α} {f : α → Run E ε σ β} (hx : Grows x) (hf : ∀ a, Grows (f a)) :
    Grows (x >>= f) := by
  intro t
  have hgrow := hx t
  obtain ⟨e, s', hexec, heq⟩ | ⟨a, s', hexec, heq⟩ := exec_bind_cases x f t
  · rw [heq]
    rwa [hexec] at hgrow
  · rw [heq]
    rw [hexec] at hgrow
    exact hgrow.trans (hf a s')

theorem grows_forM {f : α → Run E ε σ Unit} (hf : ∀ a, Grows (f a)) (as : List α) : Grows (as.forM f) := by
  induction as with
  | nil => exact grows_pure ()
  | cons a as ih => exact grows_bind (hf a) fun _ => ih

end LeftFelt.Lib.Traced
