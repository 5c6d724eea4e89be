import Mathlib.Logic.Function.Basic

/-!
# Named tables

A store keeps tables under names, and a log of the statements that have been tried. Every statement works on one
table: a `Language` says on which, and what it makes of it, if it does not fail. So a run of statements changes only
the tables that they work on (`executeAll_other`).
-/

namespace LeftFelt.Lib.Tables

variable {N T S R : Type*}

/-- A kind of statements: the table that one works on, and what it makes of it, where `none` is no table, or no
success. -/
structure Language (N T S R : Type*) where
  table : S → N
  apply : S → Option T → Option (Option T × R)

/-- The tables, and the statements that have been tried. -/
structure Store (N T S : Type*) where
  tables : N → Option T
  log : List S

variable [DecidableEq N] (L : Language N T S R)

/-- One statement, which fails if it cannot be applied, or for a reason of its own. -/
def execute (fails : Bool) (st : S) (db : Store N T S) : Store N T S × Option R :=
  match if fails then none else L.apply st (db.tables (L.table st)) with
  | none => ({ db with log := db.log ++ [st] }, none)
  | some r => (⟨Function.update db.tables (L.table st) r.1, db.log ++ [st]⟩, some r.2)

/-- The statements one after the other. -/
def executeAll (sts : List (Bool × S)) (db : Store N T S) : Store N T S :=
  sts.foldl (fun db st => (execute L st.1 st.2 db).1) db

variable {L} {fails : Bool} {st : S} {db : Store N T S}

/-- **What a statement does**: it fails and leaves the tables, or is applied to its own one. -/
theorem execute_cases (L : Language N T S R) (fails : Bool) (st : S) (db : Store N T S) :
    execute L fails st db = ({ db with log := db.log ++ [st] }, none) ∨
    ∃ t r, L.apply st (db.tables (L.table st)) = some (t, r) ∧
      execute L fails st db = (⟨Function.update db.tables (L.table st) t, db.log ++ [st]⟩, some r) := by
  unfold execute
  cases fails with
  | true => exact Or.inl rfl
  | false =>
    cases happly : L.apply st (db.tables (L.table st)) with
    | none => exact Or.inl (by simp)
    | some r => exact Or.inr ⟨r.1, r.2, rfl, by simp⟩

theorem execute_other {n : N} (h : L.table st ≠ n) : (execute L fails st db).1.tables n = db.tables n := by
  obtain heq | ⟨t, r, -, heq⟩ := execute_cases L fails st db
  · rw [heq]
  · rw [heq]
    exact Function.update_of_ne h.symm _ _

theorem execute_log (L : Language N T S R) (fails : Bool) (st : S) (db : Store N T S) :
    (execute L fails st db).1.log = db.log ++ [st] := by
  obtain heq | ⟨t, r, -, heq⟩ := execute_cases L fails st db
  · rw [heq]
  · rw [heq]

/-- A property that every statement of a run keeps. -/
theorem executeAll_induction {P : Store N T S → Prop} {sts : List (Bool × S)}
    (hstep : ∀ p ∈ sts, ∀ db, P db → P (execute L p.1 p.2 db).1) (hdb : P db) : P (executeAll L sts db) := by
  induction sts generalizing db with
  | nil => exact hdb
  | cons p sts ih =>
    exact ih (fun q hq => hstep q (List.mem_cons_of_mem _ hq)) (hstep p List.mem_cons_self db hdb)

/-- **Other tables are left alone.** -/
theorem executeAll_other {n : N} {sts : List (Bool × S)} (h : ∀ p ∈ sts, L.table p.2 ≠ n) :
    (executeAll L sts db).tables n = db.tables n :=
  executeAll_induction (P := fun db' => db'.tables n = db.tables n)
    (fun p hp _ hdb => (execute_other (h p hp)).trans hdb) rfl

theorem executeAll_log (sts : List (Bool × S)) : (executeAll L sts db).log = db.log ++ sts.map Prod.snd := by
  induction sts generalizing db with
  | nil => exact (List.append_nil _).symm
  | cons p sts ih =>
    have hrest := @ih (execute L p.1 p.2 db).1
    rw [execute_log, List.append_assoc] at hrest
    exact hrest

end LeftFelt.Lib.Tables
