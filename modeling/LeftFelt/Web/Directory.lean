import LeftFelt.Lib.Answers
import LeftFelt.Web.AddService
import Mathlib.Data.List.Find

/-!
# A directory of users

What the account manager is for: the registered services, each with its users. The tables and their names, and the
table name that the logics keep from call to call, are the way it is done; the calls answer as if there was nothing but
the directory (`answers_directory`).

A statement on the users may fail at any time. While a service is added or deleted none may: what is left then is no
directory.
-/

namespace LeftFelt.Account

open Str Lib Tables Answers

/-- The registered services, each with its users. -/
abbrev Directory := Str → Option (Str → Option User)

namespace Directory

/-- An operation on the users of a service: it throws if the service is not registered or its registration cannot be
read, and refuses if the users cannot be read. -/
def withUsers (fails : Nat → Bool) (service_id : Str) (refusal : Output)
    (f : (Str → Option User) → (Str → Option User) × Output) (d : Directory) : Directory × Except String Output :=
  match if fails 0 then none else d service_id with
  | none => (d, .error noTableName)
  | some users =>
    if fails 1 then (d, .ok refusal)
    else (Function.update d service_id (some (f users).1), .ok (f users).2)

/-- A user more, unless there is one with the id. -/
def insert (user : User) (users : Str → Option User) : (Str → Option User) × Output :=
  if (users user.user_id).isSome then (users, .success false)
  else (Function.update users user.user_id (some { user with deleted := false }), .success true)

/-- The token of a user who knows the password. -/
def token (sha1 : Str → Str) (service_id user_id password : Str) (users : Str → Option User) : Option Str :=
  (users user_id).bind fun user =>
    if password = user.password then some (sha1 (UserLogic.tokenText service_id user)) else none

/-- One call. -/
def call (sha1 : Str → Str) (fails : Nat → Bool) (c : Call) (d : Directory) : Directory × Except String Output :=
  match c with
  | .addService service_id =>
    if (d service_id.id).isSome then (d, .ok (.success false))
    else (Function.update d service_id.id (some fun _ => none), .ok (.success true))
  | .deleteService service_id => (Function.update d service_id.id none, .ok (.success true))
  | .addUser service_id user => withUsers fails service_id (.success false) (insert user) d
  | .deleteUser service_id user_id =>
    withUsers fails service_id (.success false) (fun users => (Function.update users user_id none, .success true)) d
  | .getUser service_id user_id =>
    withUsers fails service_id (.user none) (fun users => (users, .user (users user_id))) d
  | .userAuth service_id user_id password =>
    if service_id = [] ∨ user_id = [] ∨ password = [] then (d, .ok (.token none))
    else
      withUsers fails service_id (.token none)
        (fun users => (users, .token (token sha1 service_id user_id password users))) d

end Directory

/-! ## The users of a table -/

/-- The user that a row stands for. -/
def UserRow.toUser (r : UserRow) : User := ⟨r.user_id, r.password, r.permission_id, r.deleted⟩

/-- The users are those of the rows, and none is marked as deleted. -/
structure HoldsUsers (users : Str → Option User) (rows : List UserRow) : Prop where
  find : ∀ user_id, users user_id = (rows.find? (·.user_id = user_id)).map UserRow.toUser
  kept : ∀ r ∈ rows, r.deleted = false

namespace HoldsUsers

variable {users : Str → Option User} {rows : List UserRow}

theorem nil : HoldsUsers (fun _ => none) [] := ⟨fun _ => rfl, by simp⟩

theorem isSome_iff (h : HoldsUsers users rows) (user_id : Str) :
    (users user_id).isSome ↔ ∃ r ∈ rows, r.user_id = user_id := by
  simp [h.find, List.find?_isSome]

/-- A user has the id that he is found under. -/
theorem user_id_eq (h : HoldsUsers users rows) {user_id : Str} {user : User} (huser : users user_id = some user) :
    user.user_id = user_id ∧ user.deleted = false := by
  rw [h.find, Option.map_eq_some_iff] at huser
  obtain ⟨r, hr, rfl⟩ := huser
  have hid : r.user_id = user_id := by simpa using List.find?_some hr
  exact ⟨hid, h.kept r (List.mem_of_find?_eq_some hr)⟩

theorem insert (h : HoldsUsers users rows) (user : User) (hnew : ¬(users user.user_id).isSome) :
    HoldsUsers (Function.update users user.user_id (some { user with deleted := false }))
      (rows ++ [⟨user.user_id, user.password, user.permission_id, false⟩]) where
  find := by
    intro user_id
    rw [List.find?_append]
    by_cases heq : user_id = user.user_id
    · subst heq
      have hnone : rows.find? (·.user_id = user.user_id) = none := by
        rw [List.find?_eq_none]
        intro r hr hid
        exact hnew ((h.isSome_iff _).2 ⟨r, hr, of_decide_eq_true hid⟩)
      simp [hnone, UserRow.toUser]
    · rw [Function.update_of_ne heq, h.find]
      simp [Ne.symm heq]
  kept := by
    intro r hr
    rcases List.mem_append.1 hr with hr | hr
    · exact h.kept r hr
    · rw [List.mem_singleton.1 hr]

theorem delete (h : HoldsUsers users rows) (user_id : Str) :
    HoldsUsers (Function.update users user_id none) (rows.filter (·.user_id ≠ user_id)) where
  find := by
    intro other
    rw [List.find?_filter]
    by_cases heq : other = user_id
    · subst heq
      rw [Function.update_self, List.find?_eq_none.2 (by simp)]
      rfl
    · rw [Function.update_of_ne heq, h.find]
      congr 1
      refine List.find?_congr fun r _ => ?_
      by_cases hr : r.user_id = other <;> simp [hr, heq]
  kept := fun r hr => h.kept r (List.mem_filter.1 hr).1

/-- What `get` reads. -/
theorem readUser (h : HoldsUsers users rows) (user_id : Str) :
    UserModel.readUser false (some (.user (rows.find? fun r =>
      r.user_id = user_id ∧ (false = true ∨ r.deleted = false)))) = users user_id := by
  have hfind : (rows.find? fun r => r.user_id = user_id ∧ (false = true ∨ r.deleted = false)) =
      rows.find? (·.user_id = user_id) :=
    List.find?_congr fun r hr => by simp [h.kept r hr]
  rw [hfind, h.find]
  cases hrow : rows.find? (·.user_id = user_id) with
  | none => rfl
  | some r => simp [UserModel.readUser, UserRow.toUser, h.kept r (List.mem_of_find?_eq_some hrow)]

end HoldsUsers

/-! ## The tables of a directory -/

/-- **The tables hold the directory**: the services are registered, each with the name of its table, and the table of a
service has its users; a service that is not registered has no table. -/
structure Represents (d : Directory) (db : Database) : Prop where
  table : ∃ rs, db.tables serviceIdTable = some (.service rs)
  consistent : Consistent db
  registered : ∀ service_id, registration db service_id ≠ [] ↔ (d service_id).isSome
  users : ∀ service_id users, d service_id = some users →
    ∃ rows, db.tables (getUserTableName service_id) = some (.user rows) ∧ HoldsUsers users rows
  nothing : ∀ service_id, d service_id = none → db.tables (getUserTableName service_id) = none

namespace Represents

variable {d : Directory} {db db' : Database} {service_id : Str}

/-- Only the tables count. -/
theorem of_tables (h : Represents d db) (htables : db'.tables = db.tables) : Represents d db' := by
  obtain ⟨htable, hconsistent, hregistered, husers, hnothing⟩ := h
  have hservices : services db' = services db := by rw [services, services, htables]
  refine ⟨htables ▸ htable, ?_, fun service_id => ?_, htables ▸ husers, htables ▸ hnothing⟩
  · rwa [Consistent, hservices]
  · rw [registration, hservices]
    exact hregistered service_id

/-- The users of a service change. -/
theorem update (h : Represents d db) {users users' : Str → Option User} (hsome : d service_id = some users)
    {rows' : List UserRow} (hrows : HoldsUsers users' rows')
    (htables : db'.tables = Function.update db.tables (getUserTableName service_id) (some (.user rows'))) :
    Represents (Function.update d service_id (some users')) db' := by
  have hne : serviceIdTable ≠ getUserTableName service_id := (getUserTableName_ne_serviceIdTable service_id).symm
  have hservice : db'.tables serviceIdTable = db.tables serviceIdTable := by
    rw [htables, Function.update_of_ne hne]
  have hservices : services db' = services db := congrArg Account.rows hservice
  have hother : ∀ other ≠ service_id, db'.tables (getUserTableName other) = db.tables (getUserTableName other) := by
    intro other hother
    rw [htables, Function.update_of_ne fun heq => hother (getUserTableName_injective heq)]
  refine ⟨hservice ▸ h.table, by rw [Consistent, hservices]; exact h.consistent, fun other => ?_, fun other => ?_,
    fun other => ?_⟩
  · rw [registration, hservices]
    refine (h.registered other).trans ?_
    by_cases heq : other = service_id
    · simp [heq, hsome]
    · rw [Function.update_of_ne heq]
  · intro us hus
    by_cases heq : other = service_id
    · subst heq
      rw [Function.update_self, Option.some.injEq] at hus
      exact ⟨rows', by rw [htables, Function.update_self], hus ▸ hrows⟩
    · rw [Function.update_of_ne heq] at hus
      rw [hother other heq]
      exact h.users other us hus
  · intro hnone
    have heq : other ≠ service_id := by
      rintro rfl
      rw [Function.update_self] at hnone
      cases hnone
    rw [Function.update_of_ne heq] at hnone
    rw [hother other heq]
    exact h.nothing other hnone

/-- The name of the table of a service, when it is asked for. -/
theorem get_eq (h : Represents d db) (fails : Bool) (service_id : Str) :
    (ServiceModel.get fails service_id db).2 =
      (if fails then none else d service_id).map fun _ => getUserTableName service_id := by
  obtain ⟨rs, hrs⟩ := h.table
  cases hfails : fails with
  | true => rfl
  | false =>
    have hget : (ServiceModel.get false service_id db).2 =
        (rs.find? (·.service_id = service_id)).map ServiceRow.service_table_name := by
      simp [ServiceModel.get, execute, sql, Statement.table, apply, hrs]
    cases hd : d service_id with
    | none =>
      refine get_unregistered ?_ false
      by_contra hreg
      have hsome := (h.registered service_id).1 hreg
      rw [hd] at hsome
      cases hsome
    | some users =>
      cases hname : (ServiceModel.get false service_id db).2 with
      | some name => rw [Account.get_eq h.consistent hname]; rfl
      | none =>
        rw [hget, Option.map_eq_none_iff, List.find?_eq_none] at hname
        obtain ⟨r, hr⟩ := List.exists_mem_of_ne_nil _ ((h.registered service_id).2 (by rw [hd]; rfl))
        obtain ⟨hmem, hid⟩ := List.mem_filter.1 hr
        have hservices : services db = rs := congrArg Account.rows hrs
        exact absurd hid (hname r (hservices ▸ hmem))

end Represents

/-! ## The operations on the users -/

section Users

variable {α : Type} {service_id : Str} {f : UserModel → Bool → Database → Except String (Database × α)}
  {statement : Str → Statement} {g : Option Result → α} {output : α → Output} {refusal : Output} {d : Directory}
  {w : Manager}

/-- **An operation on the users of a service**: if its statement does to the rows what the operation does to the users,
or cannot be applied where it refuses, it is the operation of the directory. -/
theorem withTable_directory (next : (Str → Option User) → (Str → Option User) × Output)
    (hf : ∀ m fails db, f m fails db = (m.send fails statement db).map fun r => (r.1, g r.2))
    (htable : ∀ table, (statement table).table = table) (hrefuse : output (g none) = refusal)
    (hnext : ∀ users rows, HoldsUsers users rows →
      (∃ rows' r, apply (statement (getUserTableName service_id)) (some (.user rows)) = some (some (.user rows'), r) ∧
        HoldsUsers (next users).1 rows' ∧ output (g (some r)) = (next users).2) ∨
      (apply (statement (getUserTableName service_id)) (some (.user rows)) = none ∧ next users = (users, refusal)))
    (fails : Nat → Bool) (h : Represents d w.db) :
    (UserLogic.withTable fails service_id f w).2.map output =
      (Directory.withUsers fails service_id refusal next d).2 ∧
    Represents (Directory.withUsers fails service_id refusal next d).1
      (UserLogic.withTable fails service_id f w).1.db := by
  have hget := h.get_eq (fails 0) service_id
  have hread := h.of_tables (get_tables (fails 0) service_id w.db)
  set db := (ServiceModel.get (fails 0) service_id w.db).1 with hdb
  cases hd : (if fails 0 then none else d service_id) with
  | none =>
    rw [hd, Option.map_none] at hget
    simp only [UserLogic.withTable, UserLogic.setUserTableName, UserModel.setTableName, hf, UserModel.send, hget,
      Directory.withUsers, hd]
    exact ⟨rfl, hread⟩
  | some users =>
    have husers : d service_id = some users := by
      cases hfails : fails 0 <;> simp_all
    obtain ⟨rows, hrows, hholds⟩ := hread.users service_id users husers
    rw [hd, Option.map_some] at hget
    simp only [UserLogic.withTable, UserLogic.setUserTableName, UserModel.setTableName, hf, UserModel.send, hget,
      Directory.withUsers, hd, Except.map]
    rw [← hdb]
    cases hfails : fails 1 with
    | true => exact ⟨congrArg Except.ok hrefuse, hread.of_tables rfl⟩
    | false =>
      obtain ⟨rows', r, happly, hholds', houtput⟩ | ⟨happly, hsame⟩ := hnext users rows hholds
      · have hexec : execute sql false (statement (getUserTableName service_id)) db =
            (⟨Function.update db.tables (getUserTableName service_id) (some (.user rows')),
              db.log ++ [statement (getUserTableName service_id)]⟩, some r) := by
          simp [execute, sql, htable, hrows, happly]
        rw [hexec]
        exact ⟨congrArg Except.ok houtput, hread.update husers hholds' rfl⟩
      · have hexec : execute sql false (statement (getUserTableName service_id)) db =
            ({ db with log := db.log ++ [statement (getUserTableName service_id)] }, none) := by
          simp [execute, sql, htable, hrows, happly]
        rw [hexec, hsame]
        refine ⟨congrArg Except.ok hrefuse, ?_⟩
        have hself : Function.update d service_id (some users) = d := by rw [← husers, Function.update_eq_self]
        simp only [Bool.false_eq_true, if_false, hself]
        exact hread.of_tables rfl

end Users

/-! ## Services come and go -/

namespace Represents

variable {d : Directory} {db db' : Database} {service_id : Str}

/-- A service more, without users. -/
theorem add (h : Represents d db) (hnone : d service_id = none)
    (hservices : db'.tables serviceIdTable =
      some (.service (services db ++ [⟨service_id, getUserTableName service_id⟩])))
    (htables : ∀ other, db'.tables (getUserTableName other) =
      if other = service_id then some (.user []) else db.tables (getUserTableName other)) :
    Represents (Function.update d service_id (some fun _ => none)) db' := by
  have hnew : services db' = services db ++ [⟨service_id, getUserTableName service_id⟩] :=
    congrArg Account.rows hservices
  refine ⟨⟨_, hservices⟩, fun r hr => ?_, fun other => ?_, fun other us hus => ?_, fun other hother => ?_⟩
  · rw [hnew, List.mem_append, List.mem_singleton] at hr
    rcases hr with hr | rfl
    · exact h.consistent r hr
    · rfl
  · rw [registration, hnew, List.filter_append, List.filter_singleton]
    by_cases heq : other = service_id
    · simp [heq]
    · rw [Function.update_of_ne heq, ← h.registered other, registration]
      simp [Ne.symm heq]
  · rw [htables]
    by_cases heq : other = service_id
    · subst heq
      rw [Function.update_self, Option.some.injEq] at hus
      exact ⟨[], if_pos rfl, hus ▸ HoldsUsers.nil⟩
    · rw [Function.update_of_ne heq] at hus
      rw [if_neg heq]
      exact h.users other us hus
  · rw [htables]
    by_cases heq : other = service_id
    · rw [heq, Function.update_self] at hother
      cases hother
    · rw [Function.update_of_ne heq] at hother
      rw [if_neg heq]
      exact h.nothing other hother

/-- A service less. -/
theorem delete (h : Represents d db)
    (hservices : db'.tables serviceIdTable = some (.service ((services db).filter (·.service_id ≠ service_id))))
    (htables : ∀ other, db'.tables (getUserTableName other) =
      if other = service_id then none else db.tables (getUserTableName other)) :
    Represents (Function.update d service_id none) db' := by
  have hnew : services db' = (services db).filter (·.service_id ≠ service_id) := congrArg Account.rows hservices
  refine ⟨⟨_, hservices⟩, fun r hr => ?_, fun other => ?_, fun other us hus => ?_, fun other hother => ?_⟩
  · rw [hnew] at hr
    exact h.consistent r (List.mem_filter.1 hr).1
  · by_cases heq : other = service_id
    · simp [registration, hnew, heq]
    · rw [Function.update_of_ne heq, ← h.registered other, registration, hnew, List.filter_filter]
      refine not_congr (Eq.congr_left ?_)
      refine List.filter_congr fun r _ => ?_
      by_cases hr : r.service_id = other <;> simp [hr, heq]
  · rw [htables]
    by_cases heq : other = service_id
    · rw [heq, Function.update_self] at hus
      cases hus
    · rw [Function.update_of_ne heq] at hus
      rw [if_neg heq]
      exact h.users other us hus
  · rw [htables]
    by_cases heq : other = service_id
    · exact if_pos heq
    · rw [Function.update_of_ne heq] at hother
      rw [if_neg heq]
      exact h.nothing other hother

end Represents

/-- What the two statements of `addService` make of the tables. -/
theorem addService_directory {d : Directory} {w : Manager} (h : Represents d w.db) (service_id : ServiceId)
    {fails : Nat → Bool} (hinsert : fails 0 = false) (hcreate : fails 1 = false) (sha1 : Str → Str) :
    (call sha1 fails (.addService service_id) w).2 = (Directory.call sha1 fails (.addService service_id) d).2 ∧
    Represents (Directory.call sha1 fails (.addService service_id) d).1
      (call sha1 fails (.addService service_id) w).1.db := by
  obtain ⟨db', created, hcreated, htables⟩ := create_tables ⟨some (getUserTableName service_id.id)⟩ rfl (fails 1)
    (ServiceModel.set (fails 0) service_id.id (getUserTableName service_id.id) w.db).1
  have hcall : call sha1 fails (.addService service_id) w = (⟨db', ⟨some (getUserTableName service_id.id)⟩, w.userLogic⟩,
      .ok (.success (ServiceModel.set (fails 0) service_id.id (getUserTableName service_id.id) w.db).2)) := by
    simp only [call, ServiceLogic.addService, UserModel.setTableName, hcreated]
    rfl
  rw [hcreate, if_neg Bool.false_ne_true] at htables
  rw [hcall]
  cases hd : d service_id.id with
  | some users =>
    have hnot : ¬Insertable fails w.db service_id.id := by
      rintro ⟨-, -, hreg⟩
      exact (h.registered service_id.id).2 (by rw [hd]; rfl) hreg
    obtain ⟨rows, hrows, -⟩ := h.users service_id.id users hd
    rw [set_of_not_insertable hnot] at htables ⊢
    rw [Directory.call, if_pos (by rw [hd]; rfl)]
    refine ⟨rfl, h.of_tables ?_⟩
    rw [htables]
    simp only [hrows, Option.getD_some]
    exact Function.update_eq_self_iff.2 hrows.symm
  | none =>
    have hins : Insertable fails w.db service_id.id := by
      refine ⟨hinsert, h.table, ?_⟩
      by_contra hreg
      have hsome := (h.registered service_id.id).1 hreg
      rw [hd] at hsome
      cases hsome
    rw [set_of_insertable hins] at htables ⊢
    dsimp only at htables
    rw [Directory.call, if_neg (by rw [hd]; exact Bool.false_ne_true)]
    refine ⟨rfl, h.add hd ?_ fun other => ?_⟩
    · rw [htables, Function.update_of_ne (getUserTableName_ne_serviceIdTable _).symm, Function.update_self]
    · rw [htables]
      by_cases heq : other = service_id.id
      · subst heq
        rw [Function.update_self, if_pos rfl, Function.update_of_ne (getUserTableName_ne_serviceIdTable _),
          h.nothing _ hd]
        rfl
      · rw [Function.update_of_ne fun hname => heq (getUserTableName_injective hname), if_neg heq,
          Function.update_of_ne (getUserTableName_ne_serviceIdTable _)]

/-- What `drop` makes of the tables. -/
theorem drop_tables (m : UserModel) {table_name : Str} (hm : m.table_name = some table_name) (db : Database) :
    ∃ db' dropped, m.drop false db = .ok (db', dropped) ∧ db'.tables = Function.update db.tables table_name none := by
  unfold UserModel.drop UserModel.send
  rw [hm]
  refine ⟨_, _, rfl, ?_⟩
  cases htable : db.tables table_name with
  | none =>
    simp only [execute, sql, Statement.table, apply, htable]
    exact (Function.update_eq_self_iff.2 htable.symm).symm
  | some table => simp [execute, sql, Statement.table, apply, htable]

/-- And those of `deleteService`. -/
theorem deleteService_directory {d : Directory} {w : Manager} (h : Represents d w.db) (service_id : ServiceId)
    {fails : Nat → Bool} (hdelete : fails 0 = false) (hdrop : fails 1 = false) (sha1 : Str → Str) :
    (call sha1 fails (.deleteService service_id) w).2 = (Directory.call sha1 fails (.deleteService service_id) d).2 ∧
    Represents (Directory.call sha1 fails (.deleteService service_id) d).1
      (call sha1 fails (.deleteService service_id) w).1.db := by
  obtain ⟨rs, hrs⟩ := h.table
  have hservices : services w.db = rs := congrArg rows hrs
  have hne := getUserTableName_ne_serviceIdTable service_id.id
  have hdeleted : ServiceModel.delete (fails 0) service_id.id w.db =
      (⟨Function.update w.db.tables serviceIdTable
          (some (.service ((services w.db).filter (·.service_id ≠ service_id.id)))),
        w.db.log ++ [.deleteService serviceIdTable service_id.id]⟩, true) := by
    simp [ServiceModel.delete, execute, sql, Statement.table, apply, hrs, hdelete, hservices]
  obtain ⟨db', dropped, hdropped, htables⟩ := drop_tables ⟨some (getUserTableName service_id.id)⟩ rfl
    (ServiceModel.delete (fails 0) service_id.id w.db).1
  have hcall : call sha1 fails (.deleteService service_id) w =
      (⟨db', ⟨some (getUserTableName service_id.id)⟩, w.userLogic⟩, .ok (.success true)) := by
    simp only [call, ServiceLogic.deleteService, UserModel.setTableName, hdrop, hdropped]
    rw [hdeleted]
    rfl
  rw [hdeleted] at htables
  dsimp only at htables
  rw [hcall]
  refine ⟨rfl, h.delete ?_ fun other => ?_⟩
  · rw [htables, Function.update_of_ne hne.symm, Function.update_self]
  · rw [htables]
    by_cases heq : other = service_id.id
    · rw [heq, Function.update_self, if_pos rfl]
    · rw [Function.update_of_ne fun hname => heq (getUserTableName_injective hname), if_neg heq,
        Function.update_of_ne (getUserTableName_ne_serviceIdTable _)]

/-! ## Calls -/

/-- The failures that leave a directory: none while a service is added or deleted. -/
def Tolerated (c : Call) (fails : Nat → Bool) : Prop :=
  match c with
  | .addService _ | .deleteService _ => fails 0 = false ∧ fails 1 = false
  | .addUser _ _ | .deleteUser _ _ | .getUser _ _ | .userAuth _ _ _ => True

/-- **One call answers as the directory does**, and keeps to it. -/
theorem call_directory (sha1 : Str → Str) {fails : Nat → Bool} {c : Call} (hfails : Tolerated c fails) {d : Directory}
    {w : Manager} (h : Represents d w.db) :
    (call sha1 fails c w).2 = (Directory.call sha1 fails c d).2 ∧
    Represents (Directory.call sha1 fails c d).1 (call sha1 fails c w).1.db := by
  cases c with
  | addService service_id => exact addService_directory h service_id hfails.1 hfails.2 sha1
  | deleteService service_id => exact deleteService_directory h service_id hfails.1 hfails.2 sha1
  | addUser service_id user =>
    refine withTable_directory (Directory.insert user) (fun _ _ _ => rfl) (fun _ => rfl) rfl
      (fun users rows hholds => ?_) fails h
    unfold Directory.insert
    by_cases hnew : (users user.user_id).isSome
    · rw [if_pos hnew]
      refine .inr ⟨?_, rfl⟩
      rw [apply, if_pos ((hholds.isSome_iff user.user_id).1 hnew)]
    · rw [if_neg hnew]
      refine .inl ⟨_, .done, ?_, hholds.insert user hnew, rfl⟩
      rw [apply, if_neg fun hmem => hnew ((hholds.isSome_iff user.user_id).2 hmem)]
  | deleteUser service_id user_id =>
    refine withTable_directory _ (fun _ _ _ => rfl) (fun _ => rfl) rfl (fun users rows hholds => ?_) fails h
    exact .inl ⟨_, _, rfl, hholds.delete user_id, rfl⟩
  | getUser service_id user_id =>
    refine withTable_directory _ (fun _ _ _ => rfl) (fun _ => rfl) rfl (fun users rows hholds => ?_) fails h
    exact .inl ⟨_, _, rfl, hholds, congrArg Output.user (hholds.readUser user_id)⟩
  | userAuth service_id user_id password =>
    by_cases hempty : service_id = [] ∨ user_id = [] ∨ password = []
    · simp only [call, UserLogic.userAuth, if_pos hempty, Directory.call]
      exact ⟨rfl, h⟩
    · set toToken : Option User → Option Str := fun user => user.bind fun user =>
        if user_id = user.user_id ∧ password = user.password then some (sha1 (UserLogic.tokenText service_id user))
        else none with htoToken
      have hcall : call sha1 fails (.userAuth service_id user_id password) w =
          ((UserLogic.getUser fails service_id user_id w).1,
            (UserLogic.getUser fails service_id user_id w).2.map (Output.token ∘ toToken)) := by
        simp only [call, UserLogic.userAuth, if_neg hempty, Prod.map, id]
        cases (UserLogic.getUser fails service_id user_id w).2 <;> rfl
      rw [hcall, Directory.call, if_neg hempty]
      refine withTable_directory _ (fun _ _ _ => rfl) (fun _ => rfl) rfl (fun users rows hholds => ?_) fails h
      refine .inl ⟨_, _, rfl, hholds, congrArg Output.token ?_⟩
      rw [hholds.readUser user_id, Directory.token, htoToken]
      cases huser : users user_id with
      | none => rfl
      | some user => simp [(hholds.user_id_eq huser).1]

/-- **The account manager is a directory of users**: from tables that hold a directory, its calls one after the other
answer as those of the directory, and leave tables that hold what is left of it. -/
theorem answers_directory (sha1 : Str → Str) (history : List (Call × (Nat → Bool)))
    (hfails : ∀ c ∈ history, Tolerated c.1 c.2) {d : Directory} {w : Manager} (h : Represents d w.db) :
    let concrete := answers (fun c => call sha1 c.2 c.1) history w
    let abstract := answers (fun c => Directory.call sha1 c.2 c.1) history d
    concrete.2 = abstract.2 ∧ Represents abstract.1 concrete.1.db := by
  intro concrete abstract
  obtain ⟨houtput, hrepresents⟩ := answers_eq
    (R := fun (w : Manager) d => Represents d w.db) (fun c hc w d h => call_directory sha1 (hfails c hc) h) h
  exact ⟨houtput, hrepresents⟩

/-- The tables that the installation makes hold no service. -/
theorem represents_installed : Represents (fun _ => none) installed.db where
  table := ⟨[], by decide +kernel⟩
  consistent := consistent_of_empty (by decide +kernel)
  registered := fun service_id => by
    have hservices : services installed.db = [] := by decide +kernel
    simp [registration, hservices]
  users := fun _ _ h => by cases h
  nothing := fun service_id _ => by
    show Function.update (fun _ => none) serviceIdTable (some (Table.service [])) (getUserTableName service_id) = none
    rw [Function.update_of_ne (getUserTableName_ne_serviceIdTable service_id)]

theorem answers_directory_installed :
    let history : List (Call × (Nat → Bool)) := [(.addService ⟨literal "shop", by decide +kernel⟩, fun _ => false),
      (.addUser (literal "shop") ⟨literal "u", literal "p", 1, false⟩, fun _ => false),
      (.getUser (literal "shop") (literal "u"), fun i => i = 1)]
    let concrete := answers (fun c => call id c.2 c.1) history installed
    let abstract := answers (fun c => Directory.call id c.2 c.1) history fun _ => none
    concrete.2 = abstract.2 ∧ Represents abstract.1 concrete.1.db :=
  answers_directory id _ (by
    rintro c hc
    simp only [List.mem_cons, List.not_mem_nil, or_false] at hc
    rcases hc with rfl | rfl | rfl
    · exact ⟨rfl, rfl⟩
    · trivial
    · trivial) represents_installed

end LeftFelt.Account
