import LeftFelt.Web.Isolation

/-!
# Adding a service

`addService` inserts the row of a service and creates the table of its users, and returns what became of the row. So it
takes a table that cannot be created for a success, and leaves a new table behind when the row cannot be inserted
(`addService_atomic_iff`).
-/

namespace LeftFelt.Account

open Str Lib Tables

/-- A registered service with a table of users. -/
def Complete (db : Database) (service_id : Str) : Prop :=
  registration db service_id ≠ [] ∧ (db.tables (getUserTableName service_id)).isSome = true

/-- **All or nothing**: the call returns `true` exactly if the service is complete afterwards, and after `false` the
registrations and the tables that exist are the ones before. -/
def Atomic (service_id : Str) (before : Database) (r : Manager × Except String Bool) : Prop :=
  (r.2 = .ok true ↔ Complete r.1.db service_id) ∧
  (r.2 = .ok false →
    services r.1.db = services before ∧ ∀ table, (r.1.db.tables table).isSome = (before.tables table).isSome)

/-- The row of the service can be inserted: the statement does not fail, and there is no such row. -/
def Insertable (fails : Nat → Bool) (db : Database) (service_id : Str) : Prop :=
  fails 0 = false ∧ (∃ rs, db.tables serviceIdTable = some (.service rs)) ∧ registration db service_id = []

variable {fails : Nat → Bool} {db : Database} {service_id : Str}

theorem registration_eq_nil : registration db service_id = [] ↔ ∀ r ∈ services db, r.service_id ≠ service_id := by
  simp [registration, List.filter_eq_nil_iff]

/-- What `set` does if the row can be inserted. -/
theorem set_of_insertable (h : Insertable fails db service_id) (user_table_name : Str) :
    ServiceModel.set (fails 0) service_id user_table_name db =
      (⟨Function.update db.tables serviceIdTable (some (.service (services db ++ [⟨service_id, user_table_name⟩]))),
        db.log ++ [.insertService serviceIdTable service_id user_table_name]⟩, true) := by
  obtain ⟨hfails, ⟨rs, hrs⟩, hreg⟩ := h
  have hservices : services db = rs := congrArg rows hrs
  rw [registration_eq_nil, hservices] at hreg
  have hnew : ¬∃ r ∈ rs, r.service_id = service_id := fun ⟨r, hr, hid⟩ => hreg r hr hid
  simp [ServiceModel.set, execute, sql, Statement.table, apply, hfails, hrs, hnew, hservices]

/-- And if it cannot. -/
theorem set_of_not_insertable (h : ¬Insertable fails db service_id) (user_table_name : Str) :
    ServiceModel.set (fails 0) service_id user_table_name db =
      ({ db with log := db.log ++ [.insertService serviceIdTable service_id user_table_name] }, false) := by
  unfold ServiceModel.set
  obtain heq | ⟨t, r, happly, -⟩ :=
    execute_cases sql (fails 0) (.insertService serviceIdTable service_id user_table_name) db
  · rw [heq]
    rfl
  · cases hfails : fails 0 with
    | true => rfl
    | false =>
      obtain ⟨rs, hrs⟩ := service_of_apply rfl happly
      refine absurd ⟨hfails, ⟨rs, hrs⟩, registration_eq_nil.mpr ?_⟩ h
      have hservices : services db = rs := congrArg rows hrs
      rw [hrs] at happly
      simp only [sql, apply, Option.ite_none_left_eq_some] at happly
      exact fun r hr hid => happly.1 ⟨r, hservices ▸ hr, hid⟩

/-- A row that is inserted brings no table into being. -/
theorem isSome_set (fails : Nat → Bool) (service_id user_table_name : Str) (db : Database) (table : Str) :
    ((ServiceModel.set (fails 0) service_id user_table_name db).1.tables table).isSome = (db.tables table).isSome := by
  by_cases h : Insertable fails db service_id
  · rw [set_of_insertable h]
    by_cases htable : table = serviceIdTable
    · obtain ⟨rs, hrs⟩ := h.2.1
      simp [htable, hrs]
    · simp [Function.update_of_ne htable]
  · rw [set_of_not_insertable h]

/-- What `create` does to the tables. -/
theorem create_tables (m : UserModel) {table_name : Str} (hm : m.table_name = some table_name) (fails : Bool)
    (db : Database) :
    ∃ db' created, m.create fails db = .ok (db', created) ∧
      db'.tables = if fails = true then db.tables
        else Function.update db.tables table_name (some ((db.tables table_name).getD (.user []))) := by
  unfold UserModel.create UserModel.send
  rw [hm]
  refine ⟨_, _, rfl, ?_⟩
  cases fails with
  | true => rfl
  | false => cases htable : db.tables table_name <;> simp [execute, sql, Statement.table, apply, htable]

/-- **A table of users is created**: the services stay, and no other table comes into being. -/
theorem create_spec (m : UserModel) (hm : m.table_name = some (getUserTableName service_id)) (fails : Bool)
    (db : Database) :
    ∃ db' created, m.create fails db = .ok (db', created) ∧ services db' = services db ∧
      ∀ table, (db'.tables table).isSome = true ↔
        (db.tables table).isSome = true ∨ (table = getUserTableName service_id ∧ fails = false) := by
  obtain ⟨db', created, hcreate, htables⟩ := create_tables m hm fails db
  refine ⟨db', created, hcreate, ?_, fun table => ?_⟩
  · unfold services
    rw [htables]
    cases fails with
    | true => rfl
    | false =>
      have hne : serviceIdTable ≠ getUserTableName service_id := (getUserTableName_ne_serviceIdTable service_id).symm
      exact congrArg rows (Function.update_of_ne hne _ _)
  · rw [htables]
    by_cases htable : table = getUserTableName service_id
    · cases fails <;> simp [htable]
    · cases fails <;> simp [htable, Function.update_of_ne]

/-- **What `addService` does**: it returns what became of the row, and creates the table if that does not fail. -/
theorem addService_spec (fails : Nat → Bool) (service_id : Str) (w : Manager) :
    let r := ServiceLogic.addService fails service_id w
    (Insertable fails w.db service_id → r.2 = .ok true ∧ registration r.1.db service_id ≠ []) ∧
    (¬Insertable fails w.db service_id → r.2 = .ok false ∧ services r.1.db = services w.db) ∧
    ∀ table, (r.1.db.tables table).isSome = true ↔
      (w.db.tables table).isSome = true ∨ (table = getUserTableName service_id ∧ fails 1 = false) := by
  intro r
  obtain ⟨db', created, hcreate, hservices, hexists⟩ := create_spec ⟨some (getUserTableName service_id)⟩ rfl (fails 1)
    (ServiceModel.set (fails 0) service_id (getUserTableName service_id) w.db).1
  have hr : r = (⟨db', ⟨some (getUserTableName service_id)⟩, w.userLogic⟩,
      .ok (ServiceModel.set (fails 0) service_id (getUserTableName service_id) w.db).2) := by
    simp only [r, ServiceLogic.addService, UserModel.setTableName, hcreate]
  rw [hr]
  refine ⟨fun h => ?_, fun h => ?_, fun table => ?_⟩
  · rw [set_of_insertable h] at hservices ⊢
    refine ⟨rfl, ?_⟩
    rw [registration, hservices]
    simp [services, rows]
  · rw [set_of_not_insertable h] at hservices ⊢
    exact ⟨rfl, hservices⟩
  · rw [hexists, isSome_set]

/-- **When adding a service is atomic**: the row is inserted and its table is there or is created; or the row is not
inserted, no table is created, and the service was not complete. -/
theorem addService_atomic_iff (fails : Nat → Bool) (service_id : Str) (w : Manager) :
    Atomic service_id w.db (ServiceLogic.addService fails service_id w) ↔
      (Insertable fails w.db service_id ∧
        ((w.db.tables (getUserTableName service_id)).isSome = true ∨ fails 1 = false)) ∨
      (¬Insertable fails w.db service_id ∧
        ((w.db.tables (getUserTableName service_id)).isSome = true ∨ fails 1 = true) ∧
        ¬Complete w.db service_id) := by
  obtain ⟨hinsert, hnot, htables⟩ := addService_spec fails service_id w
  unfold Atomic
  by_cases h : Insertable fails w.db service_id
  · obtain ⟨hresult, hreg⟩ := hinsert h
    simp [hresult, h, Complete, hreg, htables]
  · obtain ⟨hresult, hservices⟩ := hnot h
    have hreg : registration (ServiceLogic.addService fails service_id w).1.db service_id =
        registration w.db service_id := congrArg (List.filter _) hservices
    have hsame : (∀ table, ((ServiceLogic.addService fails service_id w).1.db.tables table).isSome =
          (w.db.tables table).isSome) ↔
        (w.db.tables (getUserTableName service_id)).isSome = true ∨ fails 1 = true := by
      constructor
      · intro hall
        cases hfails : fails 1 with
        | true => exact Or.inr rfl
        | false =>
          rw [← hall]
          exact Or.inl ((htables _).mpr (Or.inr ⟨rfl, hfails⟩))
      · refine fun hown table => Bool.eq_iff_iff.mpr ((htables table).trans (or_iff_left_of_imp ?_))
        rintro ⟨rfl, hfails⟩
        exact hown.resolve_right (by simp [hfails])
    simp only [hresult, hservices, h, Complete, hreg, htables, hsame, true_and, false_and, false_or, not_false_eq_true,
      true_implies, Except.ok.injEq, Bool.false_eq_true, false_iff]
    rw [and_comm]
    refine and_congr_right fun hown => not_congr (and_congr_right fun _ => or_iff_left_of_imp fun hfails => ?_)
    exact hown.resolve_right (by simp [hfails])

/-- A table that cannot be created is taken for a success. -/
theorem not_atomic_installed :
    ¬∀ (fails : Nat → Bool) (service_id : Str) (w : Manager),
      Atomic service_id w.db (ServiceLogic.addService fails service_id w) := by
  intro h
  have hatomic := (h (fun i => i == 1) (literal "a") installed).1.mp rfl
  exact absurd hatomic.2 (by decide +kernel)

end LeftFelt.Account
