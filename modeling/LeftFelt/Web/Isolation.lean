import LeftFelt.Web.Account

/-!
# One service at a time

A call for one service sends statements on the table of the services, for that service, and on the table of its users
(`Allowed`, `call_db`). So after any calls every registered service still has its own table of users, which no call
for another one touches (`call_isolated`).
-/

namespace LeftFelt.Account

open Str Lib Tables

/-! ## Calls -/

/-- A call of one of the two logics. -/
inductive Call where
  | addService (service_id : ServiceId)
  | deleteService (service_id : ServiceId)
  | addUser (service_id : Str) (user : User)
  | deleteUser (service_id user_id : Str)
  | getUser (service_id user_id : Str)
  | userAuth (service_id user_id password : Str)

/-- What a call returns. -/
inductive Output where
  | success (result : Bool)
  | user (user : Option User)
  | token (token : Option Str)
  deriving DecidableEq

namespace Call

/-- The service that is called for. -/
def service : Call → Str
  | addService service_id | deleteService service_id => service_id.id
  | addUser service_id _ | deleteUser service_id _ | getUser service_id _ | userAuth service_id _ _ => service_id

/-- Is it one of the operations on the users of a service? -/
def onUsers : Call → Bool
  | addUser _ _ | deleteUser _ _ | getUser _ _ => true
  | addService _ | deleteService _ | userAuth _ _ _ => false

end Call

/-- One call, where `fails i` says whether the `i`-th statement fails for a reason of its own. -/
def call (sha1 : Str → Str) (fails : Nat → Bool) (c : Call) (w : Manager) : Manager × Except String Output :=
  match c with
  | .addService service_id => (ServiceLogic.addService fails service_id.id w).map id (·.map .success)
  | .deleteService service_id => (ServiceLogic.deleteService fails service_id.id w).map id (·.map .success)
  | .addUser service_id user => (UserLogic.addUser fails service_id user w).map id (·.map .success)
  | .deleteUser service_id user_id => (UserLogic.deleteUser fails service_id user_id w).map id (·.map .success)
  | .getUser service_id user_id => (UserLogic.getUser fails service_id user_id w).map id (·.map .user)
  | .userAuth service_id user_id password =>
    (UserLogic.userAuth sha1 fails service_id user_id password w).map id (·.map .token)

/-- Calls one after the other. -/
def run (sha1 : Str → Str) (history : List (Call × (Nat → Bool))) (w : Manager) : Manager :=
  history.foldl (fun w c => (call sha1 c.2 c.1 w).1) w

/-! ## Names of tables -/

theorem getUserTableName_injective {a b : Str} (h : getUserTableName a = getUserTableName b) : a = b :=
  List.append_cancel_right h

/-- A name without the postfix is not the name of a table of users. -/
theorem getUserTableName_ne {table : Str} (h : ¬ userTablePostfix <:+ table) (service_id : Str) :
    getUserTableName service_id ≠ table := by
  intro heq
  exact h (heq ▸ List.suffix_append service_id userTablePostfix)

theorem getUserTableName_ne_serviceIdTable (service_id : Str) : getUserTableName service_id ≠ serviceIdTable :=
  getUserTableName_ne (by decide) service_id

theorem getUserTableName_ne_permissionTable (service_id : Str) : getUserTableName service_id ≠ permissionTable :=
  getUserTableName_ne (by decide) service_id

theorem serviceIdTable_ne_permissionTable : serviceIdTable ≠ permissionTable := by decide

/-! ## The registered services -/

/-- The services in a table. -/
def rows : Option Table → List ServiceRow
  | some (.service rows) => rows
  | _ => []

/-- The rows of the table of the services. -/
def services (db : Database) : List ServiceRow := rows (db.tables serviceIdTable)

/-- The rows of one service. -/
def registration (db : Database) (service_id : Str) : List ServiceRow :=
  (services db).filter (·.service_id = service_id)

/-- Every registered service has the table that is named after it. -/
def Consistent (db : Database) : Prop :=
  ∀ r ∈ services db, r.service_table_name = getUserTableName r.service_id

/-! ## What a call may send -/

/-- The statements for one service. -/
inductive Allowed (service_id : Str) : Statement → Prop
  | select : Allowed service_id (.selectService serviceIdTable service_id)
  | insert : Allowed service_id (.insertService serviceIdTable service_id (getUserTableName service_id))
  | delete : Allowed service_id (.deleteService serviceIdTable service_id)
  | onUserTable {st : Statement} (hst : st.onUserTable = true) (htable : st.table = getUserTableName service_id) :
    Allowed service_id st

namespace Allowed

variable {service_id : Str} {st : Statement}

/-- A statement works on the table of the services or on the one of the users. -/
theorem table_eq (h : Allowed service_id st) : st.table = serviceIdTable ∨ st.table = getUserTableName service_id := by
  cases h with
  | select => exact Or.inl rfl
  | insert => exact Or.inl rfl
  | delete => exact Or.inl rfl
  | onUserTable hst htable => exact Or.inr htable

theorem table_ne_permissionTable (h : Allowed service_id st) : st.table ≠ permissionTable := by
  cases h.table_eq with
  | inl heq => exact heq ▸ serviceIdTable_ne_permissionTable
  | inr heq => exact heq ▸ getUserTableName_ne_permissionTable service_id

theorem table_ne_other (h : Allowed service_id st) {other : Str} (hother : other ≠ service_id) :
    st.table ≠ getUserTableName other := by
  cases h.table_eq with
  | inl heq => exact heq ▸ (getUserTableName_ne_serviceIdTable other).symm
  | inr heq => exact heq ▸ fun hname => hother (getUserTableName_injective hname).symm

/-- The table of the services is never used as one of users. -/
theorem table_ne_serviceIdTable (h : Allowed service_id st) (hst : st.onUserTable = true) :
    st.table ≠ serviceIdTable := by
  cases h with
  | select => cases hst
  | insert => cases hst
  | delete => cases hst
  | onUserTable _ htable => exact htable ▸ getUserTableName_ne_serviceIdTable service_id

end Allowed

/-- The other statements succeed on a table of services only. -/
theorem service_of_apply {st : Statement} {t : Option Table} {x : Option Table × Result} (hst : st.onUserTable = false)
    (happly : apply st t = some x) : ∃ rs, t = some (.service rs) := by
  cases st with
  | selectService | insertService | deleteService =>
    cases t with
    | none => cases happly
    | some t =>
      cases t with
      | service rs => exact ⟨rs, rfl⟩
      | permission rs => cases happly
      | user rs => cases happly
  | createUserTable | dropTable | selectUser | insertUser | deleteUser => cases hst

/-- A statement that succeeds keeps the services of its table, adds one, or leaves the others. -/
theorem rows_apply {service_id : Str} {st : Statement} (h : Allowed service_id st) {t t' : Option Table} {r : Result}
    (hst : st.onUserTable = false) (happly : apply st t = some (t', r)) :
    rows t' = rows t ∨ rows t' = rows t ++ [⟨service_id, getUserTableName service_id⟩] ∨
    rows t' = (rows t).filter (·.service_id ≠ service_id) := by
  obtain ⟨rs, rfl⟩ := service_of_apply hst happly
  cases h with
  | select =>
    simp only [apply, Option.some.injEq, Prod.mk.injEq] at happly
    exact Or.inl (by rw [← happly.1])
  | insert =>
    simp only [apply, Option.ite_none_left_eq_some, Option.some.injEq, Prod.mk.injEq] at happly
    exact Or.inr (Or.inl (by rw [← happly.2.1]; rfl))
  | delete =>
    simp only [apply, Option.some.injEq, Prod.mk.injEq] at happly
    exact Or.inr (Or.inr (by rw [← happly.1]; rfl))
  | onUserTable huser _ => exact absurd huser (by simp [hst])

/-- **What a statement makes of the table of the services**: nothing, a row more, or the rows of the others. -/
theorem services_execute {service_id : Str} {st : Statement} (h : Allowed service_id st) (fails : Bool)
    (db : Database) :
    services (execute sql fails st db).1 = services db ∨
    services (execute sql fails st db).1 = services db ++ [⟨service_id, getUserTableName service_id⟩] ∨
    services (execute sql fails st db).1 = (services db).filter (·.service_id ≠ service_id) := by
  by_cases htable : st.table = serviceIdTable
  · have hst : st.onUserTable = false := by
      by_contra huser
      exact h.table_ne_serviceIdTable (by simpa using huser) htable
    obtain heq | ⟨t, r, happly, heq⟩ := execute_cases sql fails st db
    · exact Or.inl (by rw [heq]; rfl)
    · have hnew : services (execute sql fails st db).1 = rows t := by
        rw [heq, services, ← htable]
        exact congrArg rows (Function.update_self _ _ _)
      rw [hnew, services, ← htable]
      exact rows_apply h hst happly
  · exact Or.inl (congrArg rows (execute_other htable))

theorem consistent_execute {service_id : Str} {st : Statement} (h : Allowed service_id st) (fails : Bool)
    {db : Database} (hdb : Consistent db) : Consistent (execute sql fails st db).1 := by
  intro r hr
  obtain heq | heq | heq := services_execute h fails db
  · exact hdb r (heq ▸ hr)
  · rw [heq, List.mem_append, List.mem_singleton] at hr
    cases hr with
    | inl hr => exact hdb r hr
    | inr hr => rw [hr]
  · rw [heq] at hr
    exact hdb r (List.mem_filter.mp hr).1

theorem registration_execute {service_id : Str} {st : Statement} (h : Allowed service_id st) (fails : Bool)
    (db : Database) {other : Str} (hother : other ≠ service_id) :
    registration (execute sql fails st db).1 other = registration db other := by
  unfold registration
  obtain heq | heq | heq := services_execute h fails db
  · rw [heq]
  · rw [heq, List.filter_append, List.filter_singleton]
    simp [hother.symm]
  · rw [heq, List.filter_filter]
    refine List.filter_congr fun r _ => ?_
    by_cases hr : r.service_id = other
    · simp [hr, hother]
    · simp [hr]

/-! ## What a call sends -/

/-- A name that is found for a service stands in one of its rows. -/
theorem get_cases (fails : Bool) (service_id : Str) (db : Database) :
    (ServiceModel.get fails service_id db).2 = none ∨
    ∃ r ∈ registration db service_id, (ServiceModel.get fails service_id db).2 = some r.service_table_name := by
  unfold ServiceModel.get
  obtain heq | ⟨t, r, happly, heq⟩ := execute_cases sql fails (.selectService serviceIdTable service_id) db
  · exact Or.inl (by rw [heq])
  · obtain ⟨rs, hrs⟩ := service_of_apply rfl happly
    have hservices : services db = rs := congrArg rows hrs
    simp only [heq]
    rw [hrs] at happly
    simp only [sql, apply, Option.some.injEq, Prod.mk.injEq] at happly
    rw [← happly.2]
    cases hfind : rs.find? (·.service_id = service_id) with
    | none => exact Or.inl rfl
    | some row =>
      have hid : row.service_id = service_id := by simpa using List.find?_some hfind
      refine Or.inr ⟨row, List.mem_filter.mpr ⟨?_, decide_eq_true hid⟩, rfl⟩
      exact hservices ▸ List.mem_of_find?_eq_some hfind

/-- The name that is found for a service is the one of its table. -/
theorem get_eq {db : Database} (hdb : Consistent db) {fails : Bool} {service_id table_name : Str}
    (h : (ServiceModel.get fails service_id db).2 = some table_name) : table_name = getUserTableName service_id := by
  obtain hnone | ⟨r, hr, hsome⟩ := get_cases fails service_id db
  · rw [hnone] at h
    cases h
  · obtain ⟨hmem, hid⟩ := List.mem_filter.mp hr
    rw [← Option.some.inj (hsome.symm.trans h), hdb r hmem, of_decide_eq_true hid]

/-- A service that is not registered has no name of a table. -/
theorem get_unregistered {db : Database} {service_id : Str} (h : registration db service_id = []) (fails : Bool) :
    (ServiceModel.get fails service_id db).2 = none := by
  obtain hnone | ⟨r, hr, -⟩ := get_cases fails service_id db
  · exact hnone
  · rw [h] at hr
    cases hr

/-- To look for a name changes no table. -/
theorem get_tables (fails : Bool) (service_id : Str) (db : Database) :
    (ServiceModel.get fails service_id db).1.tables = db.tables := by
  unfold ServiceModel.get
  obtain heq | ⟨t, r, happly, heq⟩ := execute_cases sql fails (.selectService serviceIdTable service_id) db
  · rw [heq]
  · obtain ⟨rs, hrs⟩ := service_of_apply rfl happly
    rw [hrs] at happly
    simp only [sql, apply, Option.some.injEq, Prod.mk.injEq] at happly
    simp only [heq, ← happly.1, ← hrs]
    exact Function.update_eq_self _ _

section Users

variable {α : Type} {service_id : Str} {f : UserModel → Bool → Database → Except String (Database × α)}
  {statement : Str → Statement} {g : Option Result → α}

/-- An operation on the users of a service looks for its table and works on that one. -/
theorem withTable_db (hf : ∀ m fails db, f m fails db = (m.send fails statement db).map fun r => (r.1, g r.2))
    (hstatement : ∀ table, (statement table).onUserTable = true ∧ (statement table).table = table) (fails : Nat → Bool)
    {w : Manager} (hw : Consistent w.db) :
    ∃ sts, (UserLogic.withTable fails service_id f w).1.db = executeAll sql sts w.db ∧
      ∀ p ∈ sts, Allowed service_id p.2 := by
  have hselect : (ServiceModel.get (fails 0) service_id w.db).1 =
      executeAll sql [(fails 0, .selectService serviceIdTable service_id)] w.db := rfl
  cases hget : (ServiceModel.get (fails 0) service_id w.db).2 with
  | none =>
    refine ⟨[(fails 0, .selectService serviceIdTable service_id)], ?_, ?_⟩
    · simp only [UserLogic.withTable, UserLogic.setUserTableName, UserModel.setTableName, hf, UserModel.send, hget]
      exact hselect
    · exact List.forall_mem_singleton.mpr .select
  | some table_name =>
    obtain rfl := get_eq hw hget
    refine ⟨[(fails 0, .selectService serviceIdTable service_id), (fails 1, statement (getUserTableName service_id))],
      ?_, ?_⟩
    · simp only [UserLogic.withTable, UserLogic.setUserTableName, UserModel.setTableName, hf, UserModel.send, hget]
      rfl
    · obtain ⟨huser, htable⟩ := hstatement (getUserTableName service_id)
      exact List.forall_mem_cons.mpr ⟨.select, List.forall_mem_singleton.mpr (.onUserTable huser htable)⟩

/-- Without a registration it throws and changes nothing. -/
theorem withTable_unregistered
    (hf : ∀ m fails db, f m fails db = (m.send fails statement db).map fun r => (r.1, g r.2)) (fails : Nat → Bool)
    {w : Manager} (hw : registration w.db service_id = []) :
    (UserLogic.withTable fails service_id f w).2 = .error noTableName ∧
    (UserLogic.withTable fails service_id f w).1.db.tables = w.db.tables := by
  have hget := get_unregistered hw (fails 0)
  have htables := get_tables (fails 0) service_id w.db
  simp only [UserLogic.withTable, UserLogic.setUserTableName, UserModel.setTableName, hf, UserModel.send, hget]
  exact ⟨rfl, htables⟩

end Users

/-- **What a call sends**: statements for its service only. -/
theorem call_db (sha1 : Str → Str) (fails : Nat → Bool) (c : Call) {w : Manager} (hw : Consistent w.db) :
    ∃ sts, (call sha1 fails c w).1.db = executeAll sql sts w.db ∧ ∀ p ∈ sts, Allowed c.service p.2 := by
  cases c with
  | addService service_id =>
    refine ⟨[(fails 0, .insertService serviceIdTable service_id.id (getUserTableName service_id.id)),
      (fails 1, .createUserTable (getUserTableName service_id.id))], rfl, ?_⟩
    exact List.forall_mem_cons.mpr ⟨.insert, List.forall_mem_singleton.mpr (.onUserTable rfl rfl)⟩
  | deleteService service_id =>
    refine ⟨[(fails 0, .deleteService serviceIdTable service_id.id),
      (fails 1, .dropTable (getUserTableName service_id.id))], rfl, ?_⟩
    exact List.forall_mem_cons.mpr ⟨.delete, List.forall_mem_singleton.mpr (.onUserTable rfl rfl)⟩
  | addUser service_id user =>
    exact withTable_db (fun _ _ _ => rfl) (fun _ => ⟨rfl, rfl⟩) fails hw
  | deleteUser service_id user_id =>
    exact withTable_db (fun _ _ _ => rfl) (fun _ => ⟨rfl, rfl⟩) fails hw
  | getUser service_id user_id =>
    exact withTable_db (fun _ _ _ => rfl) (fun _ => ⟨rfl, rfl⟩) fails hw
  | userAuth service_id user_id password =>
    by_cases hempty : service_id = [] ∨ user_id = [] ∨ password = []
    · refine ⟨[], ?_, fun p hp => by cases hp⟩
      simp only [call, UserLogic.userAuth, if_pos hempty]
      rfl
    · simp only [call, UserLogic.userAuth, if_neg hempty]
      exact withTable_db (fun _ _ _ => rfl) (fun _ => ⟨rfl, rfl⟩) fails hw

/-- No call breaks the registry. -/
theorem consistent_call (sha1 : Str → Str) (fails : Nat → Bool) (c : Call) {w : Manager} (hw : Consistent w.db) :
    Consistent (call sha1 fails c w).1.db := by
  obtain ⟨sts, hdb, hallowed⟩ := call_db sha1 fails c hw
  rw [hdb]
  exact executeAll_induction (fun p hp _ hconsistent => consistent_execute (hallowed p hp) p.1 hconsistent) hw

/-- Nor does a run. -/
theorem consistent_run (sha1 : Str → Str) (history : List (Call × (Nat → Bool))) {w : Manager}
    (hw : Consistent w.db) : Consistent (run sha1 history w).db := by
  induction history generalizing w with
  | nil => exact hw
  | cons c history ih => exact ih (consistent_call sha1 c.2 c.1 hw)

/-! ## Isolation -/

/-- **Service isolation**: after any calls, one more call leaves the users and the registration of every other
service, sends nothing to the table of the permissions, and works on no table of services as on one of users; and an
operation on the users of a service that is not registered throws and changes no table. -/
theorem call_isolated (sha1 : Str → Str) (history : List (Call × (Nat → Bool))) (c : Call) (fails : Nat → Bool)
    (w : Manager) (hw : Consistent w.db) :
    let v := run sha1 history w
    let r := call sha1 fails c v
    (∀ other ≠ c.service, registration r.1.db other = registration v.db other ∧
      r.1.db.tables (getUserTableName other) = v.db.tables (getUserTableName other) ∧
      ∀ row ∈ registration v.db other, row.service_table_name = getUserTableName other) ∧
    (r.1.db.tables permissionTable = v.db.tables permissionTable ∧
      ∃ sts, r.1.db.log = v.db.log ++ sts ∧ ∀ st ∈ sts, st.table ≠ permissionTable ∧
        (st.onUserTable = true → st.table ≠ serviceIdTable)) ∧
    (c.onUsers = true → registration v.db c.service = [] →
      r.2 = .error noTableName ∧ r.1.db.tables = v.db.tables) := by
  intro v r
  have hv : Consistent v.db := consistent_run sha1 history hw
  obtain ⟨sts, hdb, hallowed⟩ := call_db sha1 fails c hv
  refine ⟨fun other hother => ⟨?_, ?_, fun row hrow => ?_⟩, ⟨?_, sts.map Prod.snd, ?_, ?_⟩, fun hc hreg => ?_⟩
  · rw [hdb]
    exact executeAll_induction (P := fun db => registration db other = registration v.db other)
      (fun p hp db heq => (registration_execute (hallowed p hp) p.1 db hother).trans heq) rfl
  · rw [hdb]
    exact executeAll_other fun p hp => (hallowed p hp).table_ne_other hother
  · obtain ⟨hmem, hid⟩ := List.mem_filter.mp hrow
    rw [hv row hmem, of_decide_eq_true hid]
  · rw [hdb]
    exact executeAll_other fun p hp => (hallowed p hp).table_ne_permissionTable
  · rw [hdb]
    exact executeAll_log sts
  · intro st hst
    obtain ⟨p, hp, rfl⟩ := List.mem_map.mp hst
    exact ⟨(hallowed p hp).table_ne_permissionTable, (hallowed p hp).table_ne_serviceIdTable⟩
  · cases c with
    | addUser service_id user =>
      obtain ⟨herror, htables⟩ := withTable_unregistered (fun _ _ _ => rfl) fails hreg
      exact ⟨congrArg (·.map Output.success) herror, htables⟩
    | deleteUser service_id user_id =>
      obtain ⟨herror, htables⟩ := withTable_unregistered (fun _ _ _ => rfl) fails hreg
      exact ⟨congrArg (·.map Output.success) herror, htables⟩
    | getUser service_id user_id =>
      obtain ⟨herror, htables⟩ := withTable_unregistered (fun _ _ _ => rfl) fails hreg
      exact ⟨congrArg (·.map Output.user) herror, htables⟩
    | addService service_id => cases hc
    | deleteService service_id => cases hc
    | userAuth service_id user_id password => cases hc

/-- An empty table of services, and no tables of users. -/
def installed : Manager :=
  ⟨⟨Function.update (fun _ => none) serviceIdTable (some (.service [])), []⟩, ⟨none⟩, ⟨none⟩⟩

theorem consistent_of_empty {db : Database} (h : services db = []) : Consistent db := by
  intro r hr
  rw [h] at hr
  cases hr

theorem call_isolated_installed :
    let v := run id [(.addService ⟨literal "a", by decide +kernel⟩, fun _ => false)] installed
    let r := call id (fun _ => false) (.addUser (literal "b") ⟨literal "u", literal "p", 1, false⟩) v
    r.1.db.tables (getUserTableName (literal "a")) = v.db.tables (getUserTableName (literal "a")) ∧
    r.2 = .error noTableName := by
  have h := call_isolated id [(.addService ⟨literal "a", by decide +kernel⟩, fun _ => false)]
    (.addUser (literal "b") ⟨literal "u", literal "p", 1, false⟩) (fun _ => false) installed
    (consistent_of_empty (by decide +kernel))
  exact ⟨(h.1 (literal "a") (by decide)).2.1, (h.2.2 rfl (by decide +kernel)).1⟩

end LeftFelt.Account
