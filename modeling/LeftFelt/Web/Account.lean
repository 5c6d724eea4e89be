import LeftFelt.Base.Str
import LeftFelt.Lib.Tables

/-!
# Services and their users

The account manager: `ServiceModel` and `UserModel` with the statements that they send to the database, and
`ServiceLogic` and `UserLogic` on top of them. The services are registered in one table, each with the name of a table
of its own for its users.

The database compares strings byte by byte, and every statement can fail. A failed statement changes no table: the
models turn it into `false` or `null`.
-/

namespace LeftFelt.Account

open Str Lib Tables

/-! ## The database -/

/-- A row of the table of the services. -/
structure ServiceRow where
  service_id : Str
  service_table_name : Str
  deriving DecidableEq

/-- A row of a table of users. -/
structure UserRow where
  user_id : Str
  password : Str
  permission_id : Int
  deleted : Bool
  deriving DecidableEq

/-- A table: of services, of permissions or of users. -/
inductive Table where
  | service (rows : List ServiceRow)
  | permission (rows : List Str)
  | user (rows : List UserRow)
  deriving DecidableEq

/-- The statements of the models. -/
inductive Statement where
  | createUserTable (table : Str)
  | dropTable (table : Str)
  | selectUser (table user_id : Str) (ignore_deleted : Bool)
  | insertUser (table user_id password : Str) (permission_id : Int)
  | deleteUser (table user_id : Str)
  | selectService (table service_id : Str)
  | insertService (table service_id service_table_name : Str)
  | deleteService (table service_id : Str)
  deriving DecidableEq

namespace Statement

/-- The table that stands in the statement. -/
def table : Statement → Str
  | createUserTable t | dropTable t | selectUser t _ _ | insertUser t _ _ _ | deleteUser t _ => t
  | selectService t _ | insertService t _ _ | deleteService t _ => t

/-- Is it a statement on a table of users? -/
def onUserTable : Statement → Bool
  | createUserTable _ | dropTable _ | selectUser _ _ _ | insertUser _ _ _ _ | deleteUser _ _ => true
  | selectService _ _ | insertService _ _ _ | deleteService _ _ => false

end Statement

/-- What a statement returns: a user, the name of a table, or nothing but success. -/
inductive Result where
  | done
  | user (row : Option UserRow)
  | name (service_table_name : Option Str)

/-- What a statement makes of its table. A statement on a table with other columns, or on none, fails. -/
def apply : Statement → Option Table → Option (Option Table × Result)
  | .createUserTable _, none => some (some (.user []), .done)
  | .createUserTable _, some t => some (some t, .done)
  | .dropTable _, some _ => some (none, .done)
  | .selectUser _ user_id ignore_deleted, some (.user rows) =>
    some (some (.user rows), .user (rows.find? fun r => r.user_id = user_id ∧ (ignore_deleted ∨ r.deleted = false)))
  | .insertUser _ user_id password permission_id, some (.user rows) =>
    if ∃ r ∈ rows, r.user_id = user_id then none
    else some (some (.user (rows ++ [⟨user_id, password, permission_id, false⟩])), .done)
  | .deleteUser _ user_id, some (.user rows) => some (some (.user (rows.filter (·.user_id ≠ user_id))), .done)
  | .selectService _ service_id, some (.service rows) =>
    some (some (.service rows), .name ((rows.find? (·.service_id = service_id)).map ServiceRow.service_table_name))
  | .insertService _ service_id service_table_name, some (.service rows) =>
    if ∃ r ∈ rows, r.service_id = service_id then none
    else some (some (.service (rows ++ [⟨service_id, service_table_name⟩])), .done)
  | .deleteService _ service_id, some (.service rows) =>
    some (some (.service (rows.filter (·.service_id ≠ service_id))), .done)
  | _, _ => none

/-- The statements. -/
def sql : Language Str Table Statement Result := ⟨Statement.table, apply⟩

/-- The database. -/
abbrev Database := Store Str Table Statement

/-! ## The models -/

/-- `"service_id_table"`. -/
def serviceIdTable : Str := literal "service_id_table"

/-- `"permission_table"`. -/
def permissionTable : Str := literal "permission_table"

/-- The text of the exception. -/
def noTableName : String := "テーブル名が設定されていません"

namespace ServiceModel

/-- `get($service_id)`: `null` if the statement fails, or if there is no row. -/
def get (fails : Bool) (service_id : Str) (db : Database) : Database × Option Str :=
  let r := execute sql fails (.selectService serviceIdTable service_id) db
  (r.1, match r.2 with
    | some (.name service_table_name) => service_table_name
    | _ => none)

/-- `set($service_id, $user_table_name)`. -/
def set (fails : Bool) (service_id user_table_name : Str) (db : Database) : Database × Bool :=
  let r := execute sql fails (.insertService serviceIdTable service_id user_table_name) db
  (r.1, r.2.isSome)

/-- `delete($service_id)`. -/
def delete (fails : Bool) (service_id : Str) (db : Database) : Database × Bool :=
  let r := execute sql fails (.deleteService serviceIdTable service_id) db
  (r.1, r.2.isSome)

end ServiceModel

/-- `User`. -/
structure User where
  user_id : Str
  password : Str
  permission_id : Int
  deleted : Bool
  deriving DecidableEq

/-- `UserModel`: the table name, which is `null` at first. -/
structure UserModel where
  table_name : Option Str
  deriving DecidableEq

namespace UserModel

/-- `setTableName($table_name)`. -/
def setTableName (_ : UserModel) (table_name : Option Str) : UserModel := ⟨table_name⟩

/-- A statement on the table that is set. -/
def send (m : UserModel) (fails : Bool) (statement : Str → Statement) (db : Database) :
    Except String (Database × Option Result) :=
  match m.table_name with
  | none => .error noTableName
  | some table_name => .ok (execute sql fails (statement table_name) db)

/-- `create()`. -/
def create (m : UserModel) (fails : Bool) (db : Database) : Except String (Database × Bool) :=
  (m.send fails .createUserTable db).map fun r => (r.1, r.2.isSome)

/-- `drop()`. -/
def drop (m : UserModel) (fails : Bool) (db : Database) : Except String (Database × Bool) :=
  (m.send fails .dropTable db).map fun r => (r.1, r.2.isSome)

/-- The user that `get` makes of a row, and `null` for a deleted one. -/
def readUser (ignore_deleted : Bool) : Option Result → Option User
  | some (.user (some row)) =>
    let user := ⟨row.user_id, row.password, row.permission_id, row.deleted⟩
    if !user.deleted || ignore_deleted then some user else none
  | _ => none

/-- `get($user_id, $ignore_deleted)`. -/
def get (m : UserModel) (fails : Bool) (user_id : Str) (ignore_deleted : Bool) (db : Database) :
    Except String (Database × Option User) :=
  (m.send fails (.selectUser · user_id ignore_deleted) db).map fun r => (r.1, readUser ignore_deleted r.2)

/-- `set($user)`. -/
def set (m : UserModel) (fails : Bool) (user : User) (db : Database) : Except String (Database × Bool) :=
  (m.send fails (.insertUser · user.user_id user.password user.permission_id) db).map fun r => (r.1, r.2.isSome)

/-- `delete($user_id)`. -/
def delete (m : UserModel) (fails : Bool) (user_id : Str) (db : Database) : Except String (Database × Bool) :=
  (m.send fails (.deleteUser · user_id) db).map fun r => (r.1, r.2.isSome)

end UserModel

/-! ## The logics -/

/-- Letters, digits and underscores. -/
def isIdentifier (c : UInt8) : Bool :=
  (0x30 ≤ c && c ≤ 0x39) || (0x41 ≤ c && c ≤ 0x5A) || (0x61 ≤ c && c ≤ 0x7A) || c = 0x5F

/-- A service id that can stand in the name of a table. -/
structure ServiceId where
  id : Str
  plain : ∀ c ∈ id, isIdentifier c

/-- The account manager: the database, and the models of users of the two logics. -/
structure Manager where
  db : Database
  serviceLogic : UserModel
  userLogic : UserModel

/-- `USER_TABLE_POSTFIX`. -/
def userTablePostfix : Str := literal "_user_table"

/-- `getUserTableName($service_id)`. -/
def getUserTableName (service_id : Str) : Str := service_id ++ userTablePostfix

namespace ServiceLogic

/-- `addService($service_id)`. -/
def addService (fails : Nat → Bool) (service_id : Str) (w : Manager) : Manager × Except String Bool :=
  let user_table_name := getUserTableName service_id
  let result := ServiceModel.set (fails 0) service_id user_table_name w.db
  let w := { w with db := result.1, serviceLogic := w.serviceLogic.setTableName (some user_table_name) }
  match w.serviceLogic.create (fails 1) w.db with
  | .error e => (w, .error e)
  | .ok created => ({ w with db := created.1 }, .ok result.2)

/-- `deleteService($service_id)`. -/
def deleteService (fails : Nat → Bool) (service_id : Str) (w : Manager) : Manager × Except String Bool :=
  let user_table_name := getUserTableName service_id
  let result := ServiceModel.delete (fails 0) service_id w.db
  let w := { w with db := result.1, serviceLogic := w.serviceLogic.setTableName (some user_table_name) }
  match w.serviceLogic.drop (fails 1) w.db with
  | .error e => (w, .error e)
  | .ok dropped => ({ w with db := dropped.1 }, .ok result.2)

end ServiceLogic

namespace UserLogic

/-- `setUserTableName($service_id)`. -/
def setUserTableName (fails : Nat → Bool) (service_id : Str) (w : Manager) : Manager :=
  let table_name := ServiceModel.get (fails 0) service_id w.db
  { w with db := table_name.1, userLogic := w.userLogic.setTableName table_name.2 }

/-- A call of the model of the users, for the table of the service. -/
def withTable {α : Type} (fails : Nat → Bool) (service_id : Str)
    (f : UserModel → Bool → Database → Except String (Database × α)) (w : Manager) : Manager × Except String α :=
  let w := setUserTableName fails service_id w
  match f w.userLogic (fails 1) w.db with
  | .error e => (w, .error e)
  | .ok r => ({ w with db := r.1 }, .ok r.2)

/-- `getUser($service_id, $user_id)`. -/
def getUser (fails : Nat → Bool) (service_id user_id : Str) (w : Manager) : Manager × Except String (Option User) :=
  withTable fails service_id (fun m fails => m.get fails user_id false) w

/-- `addUser($service_id, $user)`. -/
def addUser (fails : Nat → Bool) (service_id : Str) (user : User) (w : Manager) : Manager × Except String Bool :=
  withTable fails service_id (fun m fails => m.set fails user) w

/-- `deleteUser($service_id, $user_id)`. -/
def deleteUser (fails : Nat → Bool) (service_id user_id : Str) (w : Manager) : Manager × Except String Bool :=
  withTable fails service_id (fun m fails => m.delete fails user_id) w

/-- What is hashed for a token: the parts with underscores between them. -/
def tokenText (service_id : Str) (user : User) : Str :=
  (literal "_").intercalate [service_id, user.user_id, user.password, literal (toString user.permission_id)]

/-- `userAuth($service_id, $user_id, $password)`: a token, or `null`. -/
def userAuth (sha1 : Str → Str) (fails : Nat → Bool) (service_id user_id password : Str) (w : Manager) :
    Manager × Except String (Option Str) :=
  if service_id = [] ∨ user_id = [] ∨ password = [] then (w, .ok none)
  else
    let r := getUser fails service_id user_id w
    (r.1, r.2.map fun user => user.bind fun user =>
      if user_id = user.user_id ∧ password = user.password then some (sha1 (tokenText service_id user)) else none)

end UserLogic

end LeftFelt.Account
