import LeftFelt.Lib.Segments
import LeftFelt.Web.Isolation

/-!
# Tokens

`userAuth` accepts the password of a user that is registered for the service and not deleted, and nothing else
(`userAuth_eq_token`). Its token is the hash of the service, the user, the password and the permission, with underscores
between them. A permission has no underscore, but the other parts may have some, so that the same text can be read in
another way (`exists_same_text`), unless the underscores stand where no other reading is possible (`Clear`).

Whoever is not accepted gets `null`, if a string is empty or the service is registered (`userAuth_answers`).
-/

namespace LeftFelt.Account

open Str Lib Tables Segments

/-! ## Who is accepted -/

/-- The name that the table of the services has for the table of the users. -/
def tableName (db : Database) (service_id : Str) : Option Str :=
  ((services db).find? (·.service_id = service_id)).map ServiceRow.service_table_name

/-- The users in a table. -/
def users : Option Table → List UserRow
  | some (.user rows) => rows
  | _ => []

/-- A user of a service that is not deleted. -/
def account (db : Database) (service_id user_id : Str) : Option UserRow :=
  (tableName db service_id).bind fun table_name =>
    (users (db.tables table_name)).find? fun r => r.user_id = user_id ∧ r.deleted = false

section Accepted

variable {db : Database} {service_id user_id : Str}

/-- The user that is found has the id, and is not deleted. -/
theorem account_spec {r : UserRow} (h : account db service_id user_id = some r) :
    r.user_id = user_id ∧ r.deleted = false := by
  obtain ⟨table_name, -, hfind⟩ := Option.bind_eq_some_iff.mp h
  simpa using List.find?_some hfind

/-- Its service is registered. -/
theorem tableName_ne_none {r : UserRow} (h : account db service_id user_id = some r) :
    tableName db service_id ≠ none := by
  obtain ⟨table_name, hname, -⟩ := Option.bind_eq_some_iff.mp h
  rw [hname]
  exact Option.some_ne_none table_name

theorem get_tableName (fails : Bool) (db : Database) (service_id : Str) :
    (ServiceModel.get fails service_id db).2 = if fails = true then none else tableName db service_id := by
  cases fails with
  | true => rfl
  | false =>
    unfold tableName services
    cases htable : db.tables serviceIdTable with
    | none => simp [ServiceModel.get, execute, sql, Statement.table, htable, apply, rows]
    | some t => cases t <;> simp [ServiceModel.get, execute, sql, Statement.table, htable, apply, rows]

/-- The user that is found in a table is not deleted. -/
theorem readUser_select (rows : List UserRow) (user_id : Str) :
    UserModel.readUser false (some (.user (rows.find? fun r => r.user_id = user_id ∧ (false ∨ r.deleted = false)))) =
      (rows.find? fun r => r.user_id = user_id ∧ r.deleted = false).map fun r =>
        ⟨r.user_id, r.password, r.permission_id, r.deleted⟩ := by
  simp only [Bool.false_eq_true, false_or]
  cases hfind : rows.find? fun r => r.user_id = user_id ∧ r.deleted = false with
  | none => rfl
  | some r =>
    have hrow : r.user_id = user_id ∧ r.deleted = false := by simpa using List.find?_some hfind
    simp [UserModel.readUser, hrow.2]

theorem get_users (m : UserModel) {table_name : Str} (hm : m.table_name = some table_name) (fails : Bool)
    (user_id : Str) (db : Database) :
    (m.get fails user_id false db).map Prod.snd = .ok (if fails = true then none else
      ((users (db.tables table_name)).find? fun r => r.user_id = user_id ∧ r.deleted = false).map fun r =>
        ⟨r.user_id, r.password, r.permission_id, r.deleted⟩) := by
  unfold UserModel.get UserModel.send
  rw [hm]
  cases fails with
  | true => rfl
  | false =>
    have happly := readUser_select (users (db.tables table_name)) user_id
    cases htable : db.tables table_name with
    | none => simp [execute, sql, Statement.table, htable, apply, Except.map, users, UserModel.readUser]
    | some t =>
      cases t with
      | user rows =>
        rw [htable] at happly
        simp only [execute, sql, Statement.table, htable, apply, Except.map, users]
        exact congrArg Except.ok happly
      | service rows => simp [execute, sql, Statement.table, htable, apply, Except.map, users, UserModel.readUser]
      | permission rows => simp [execute, sql, Statement.table, htable, apply, Except.map, users, UserModel.readUser]

/-- What `getUser` returns. -/
theorem getUser_snd (fails : Nat → Bool) (service_id user_id : Str) (w : Manager) :
    (UserLogic.getUser fails service_id user_id w).2 =
      if fails 0 = true ∨ tableName w.db service_id = none then .error noTableName
      else .ok (if fails 1 = true then none else (account w.db service_id user_id).map fun r =>
        ⟨r.user_id, r.password, r.permission_id, r.deleted⟩) := by
  have hname := get_tableName (fails 0) w.db service_id
  have htables := get_tables (fails 0) service_id w.db
  unfold UserLogic.getUser UserLogic.withTable UserLogic.setUserTableName UserModel.setTableName
  generalize ServiceModel.get (fails 0) service_id w.db = found at hname htables
  obtain ⟨db, name⟩ := found
  subst hname
  cases hfails : fails 0 with
  | true => rfl
  | false =>
    cases htable : tableName w.db service_id with
    | none => simp [UserModel.get, UserModel.send, Except.map]
    | some table_name =>
      have hget := get_users ⟨some table_name⟩ rfl (fails 1) user_id db
      simp only [Bool.false_eq_true, if_false, false_or, reduceCtorEq, account, htable, Option.bind_some]
      rw [← htables, ← hget]
      cases UserModel.get ⟨some table_name⟩ (fails 1) user_id false db <;> rfl

/-- **Who gets a token**: a registered user that is not deleted, with the right password, if no statement fails. -/
theorem userAuth_eq_token {sha1 : Str → Str} {fails : Nat → Bool} {service_id user_id password token : Str}
    {w : Manager} :
    (UserLogic.userAuth sha1 fails service_id user_id password w).2 = .ok (some token) ↔
      (service_id ≠ [] ∧ user_id ≠ [] ∧ password ≠ []) ∧ (fails 0 = false ∧ fails 1 = false) ∧
      ∃ r, account w.db service_id user_id = some r ∧ r.password = password ∧
        token = sha1 (UserLogic.tokenText service_id ⟨user_id, password, r.permission_id, false⟩) := by
  have huser := getUser_snd fails service_id user_id w
  unfold UserLogic.userAuth
  by_cases hempty : service_id = [] ∨ user_id = [] ∨ password = []
  · simp only [if_pos hempty, Except.ok.injEq, reduceCtorEq, false_iff]
    rintro ⟨⟨hs, hu, hp⟩, -⟩
    simp [hs, hu, hp] at hempty
  · have hne : service_id ≠ [] ∧ user_id ≠ [] ∧ password ≠ [] := by simpa using hempty
    simp only [huser, hne, ne_eq, not_false_eq_true, true_and, and_true]
    cases haccount : account w.db service_id user_id with
    | none =>
      split_ifs <;> simp [Except.map]
    | some r =>
      obtain ⟨hid, hdeleted⟩ := account_spec haccount
      have hname := tableName_ne_none haccount
      cases fails 0 with
      | true => simp [Except.map]
      | false =>
        cases fails 1 with
        | true => simp [Except.map, hname]
        | false =>
          by_cases hpassword : r.password = password
          · simp [Except.map, hname, hid, hdeleted, hpassword, eq_comm]
          · simp [Except.map, hname, hid, hdeleted, hpassword, Ne.symm hpassword]

end Accepted

/-! ## What is hashed -/

/-- `'_'`. -/
def underscore : UInt8 := 0x5F

theorem tokenText_eq (service_id : Str) (user : User) :
    UserLogic.tokenText service_id user = service_id ++ underscore :: (user.user_id ++
      underscore :: (user.password ++ underscore :: literal (toString user.permission_id))) := by
  simp [UserLogic.tokenText, List.intercalate, literal, underscore]

/-- The digits of a number have no underscore. -/
theorem underscore_not_mem_toString (n : Int) : underscore ∉ literal (toString n) := by
  have hchar : ∀ c ∈ (toString n).toList, c.isDigit = true ∨ c = '-' := by
    have hdigits : ∀ m : Nat, ∀ c ∈ m.repr.toList, c.isDigit = true := by
      intro m c hc
      rw [Nat.toList_repr] at hc
      exact Nat.isDigit_of_mem_toDigits (by decide) (by decide) hc
    cases n with
    | ofNat m => exact fun c hc => Or.inl (hdigits m c hc)
    | negSucc m =>
      intro c hc
      have hsign : (toString (Int.negSucc m)).toList = '-' :: (m + 1).repr.toList := String.toList_append
      rw [hsign, List.mem_cons] at hc
      exact hc.symm.imp_left (hdigits (m + 1) c)
  intro hmem
  obtain ⟨c, hc, hbyte⟩ := List.mem_map.mp hmem
  cases hchar c hc with
  | inl hdigit =>
    have hrange : 48 ≤ c.toNat ∧ c.toNat ≤ 57 := by simpa [Char.isDigit, UInt32.le_iff_toNat_le] using hdigit
    have hnat : c.toNat % 256 = 95 := congrArg UInt8.toNat hbyte
    omega
  | inr hminus =>
    rw [hminus] at hbyte
    exact absurd hbyte (by decide)

/-- The underscores stand where the text can be read in one way only. -/
def Clear (service_id user_id password : Str) : Prop :=
  underscore ∉ service_id.tail ∧ (underscore ∉ user_id ∨ user_id = [underscore]) ∧ underscore ∉ password.dropLast

instance (service_id user_id password : Str) : Decidable (Clear service_id user_id password) :=
  inferInstanceAs (Decidable (_ ∧ _ ∧ _))

section Text

variable {service_id user_id password : Str}

/-- **A clear text is read in one way only.** -/
theorem Clear.eq_of_text (h : Clear service_id user_id password) {s u p : Str} (hs : s ≠ []) (hu : u ≠ []) (hp : p ≠ [])
    (htext : service_id ++ underscore :: (user_id ++ underscore :: password) =
      s ++ underscore :: (u ++ underscore :: p)) : service_id = s ∧ user_id = u := by
  obtain ⟨hservice, huser, hpassword⟩ := h
  -- another separator in the password would leave something behind it
  have hcut : ∀ {x y : Str}, y ≠ [] → password ≠ x ++ underscore :: y := by
    rintro x y hy rfl
    refine hpassword ?_
    rw [List.dropLast_append_of_ne_nil (List.cons_ne_nil _ _), List.dropLast_cons_of_ne_nil hy]
    simp
  obtain ⟨hs', htext⟩ | ⟨t, ht, htext⟩ | ⟨t, ht, htext⟩ := append_cons_eq_append_cons htext
  · obtain ⟨hu', -⟩ | ⟨t, -, ht⟩ | ⟨t, ht, -⟩ := append_cons_eq_append_cons htext
    · exact ⟨hs', hu'⟩
    · exact absurd ht (hcut hp)
    · cases huser with
      | inl hmem => simp [ht] at hmem
      | inr hone =>
        rw [hone] at ht
        obtain ⟨rfl, -⟩ | ⟨x, rfl, -⟩ := List.append_eq_cons_iff.mp ht.symm
        · exact absurd rfl hu
        · simp at ht
  · obtain ⟨-, ht'⟩ | ⟨x, -, ht'⟩ | ⟨x, hx, ht'⟩ := append_cons_eq_append_cons htext
    · exact absurd ht' (hcut hp)
    · exact absurd ht' (hcut (by simp))
    · -- the user is a single underscore, so the other one is cut out of the password
      cases huser with
      | inl hmem => simp [hx] at hmem
      | inr hone =>
        obtain ⟨rfl, rfl⟩ : t = [] ∧ x = [] := by
          have hlength := congrArg List.length (hone.symm.trans hx)
          rw [List.length_singleton, List.length_append, List.length_cons] at hlength
          exact ⟨List.eq_nil_of_length_eq_zero (by omega), List.eq_nil_of_length_eq_zero (by omega)⟩
        obtain ⟨rfl, -⟩ | ⟨y, hy, -⟩ | ⟨y, -, hy⟩ := append_cons_eq_append_cons ht'
        · exact absurd rfl hu
        · simp at hy
        · exact absurd hy (hcut hp)
  · obtain ⟨a, s, rfl⟩ := List.exists_cons_of_ne_nil hs
    simp [ht] at hservice

/-- **A text that is not clear is read in another way**, too. -/
theorem exists_same_text (hs : service_id ≠ []) (hu : user_id ≠ []) (hp : password ≠ [])
    (h : ¬Clear service_id user_id password) :
    ∃ s u p, (s ≠ [] ∧ u ≠ [] ∧ p ≠ []) ∧ u ≠ user_id ∧
      service_id ++ underscore :: (user_id ++ underscore :: password) = s ++ underscore :: (u ++ underscore :: p) := by
  simp only [Clear, not_and_or, not_not, not_or] at h
  obtain hservice | ⟨huser, hne⟩ | hpassword := h
  · obtain ⟨a, service_id, rfl⟩ := List.exists_cons_of_ne_nil hs
    obtain ⟨x, y, rfl⟩ := List.append_of_mem hservice
    refine ⟨a :: x, y ++ underscore :: user_id, password, ⟨by simp, by simp, hp⟩, ?_, by simp⟩
    intro heq
    have hlength := congrArg List.length heq
    rw [List.length_append, List.length_cons] at hlength
    omega
  · obtain ⟨x, y, rfl⟩ := List.append_of_mem huser
    cases x with
    | nil =>
      have hy : y ≠ [] := fun hy => hne (by rw [hy]; rfl)
      exact ⟨service_id ++ [underscore], y, password, ⟨by simp, hy, hp⟩, by simp, by simp⟩
    | cons a x => exact ⟨service_id, a :: x, y ++ underscore :: password, ⟨hs, by simp, by simp⟩, by simp, by simp⟩
  · obtain ⟨x, y, hxy⟩ := List.append_of_mem hpassword
    have hpw : password = x ++ underscore :: (y ++ [password.getLast hp]) := by
      rw [← List.cons_append, ← List.append_assoc, ← hxy, List.dropLast_append_getLast]
    rw [hpw]
    refine ⟨service_id, user_id ++ underscore :: x, y ++ [password.getLast hp], ⟨hs, by simp, by simp⟩, by simp, ?_⟩
    simp

end Text

/-- Equal texts have equal parts in front of the permission. -/
theorem text_of_tokenText_eq {s s' : Str} {user user' : User}
    (h : UserLogic.tokenText s user = UserLogic.tokenText s' user') :
    s ++ underscore :: (user.user_id ++ underscore :: user.password) =
      s' ++ underscore :: (user'.user_id ++ underscore :: user'.password) := by
  rw [tokenText_eq, tokenText_eq] at h
  have hcut : (s ++ underscore :: (user.user_id ++ underscore :: user.password)) ++
        underscore :: literal (toString user.permission_id) =
      (s' ++ underscore :: (user'.user_id ++ underscore :: user'.password)) ++
        underscore :: literal (toString user'.permission_id) := by simpa using h
  obtain ⟨heq, -⟩ | ⟨x, -, hx⟩ | ⟨x, -, hx⟩ := append_cons_eq_append_cons hcut
  · exact heq
  · exact absurd (hx ▸ by simp) (underscore_not_mem_toString user.permission_id)
  · exact absurd (hx ▸ by simp) (underscore_not_mem_toString user'.permission_id)

/-! ## Whose token it is -/

/-- The token of a user is never the one of another user, or of the same one for another service. -/
def Identifies (sha1 : Str → Str) (service_id user_id password : Str) : Prop :=
  ∀ (w : Manager) (fails fails' : Nat → Bool) (service_id' user_id' password' token : Str),
    (UserLogic.userAuth sha1 fails service_id user_id password w).2 = .ok (some token) →
    (UserLogic.userAuth sha1 fails' service_id' user_id' password' w).2 = .ok (some token) →
    service_id = service_id' ∧ user_id = user_id'

section TwoUsers

variable {s u p s' u' p' : Str}

/-- A database with two users, of one service or of two. -/
def twoUsers (s u p s' u' p' : Str) : Manager :=
  ⟨⟨fun t =>
    if t = serviceIdTable then some (.service ((List.dedup [s, s']).map fun x => ⟨x, getUserTableName x⟩))
    else if t = getUserTableName s ∨ t = getUserTableName s' then some (.user [⟨u, p, 0, false⟩, ⟨u', p', 0, false⟩])
    else none, []⟩, ⟨none⟩, ⟨none⟩⟩

/-- Both services are registered. -/
theorem tableName_twoUsers {x : Str} (hx : x ∈ [s, s']) :
    tableName (twoUsers s u p s' u' p').db x = some (getUserTableName x) := by
  have hfind : ∀ {l : List Str}, x ∈ l →
      (l.map fun y => (⟨y, getUserTableName y⟩ : ServiceRow)).find? (·.service_id = x) =
        some ⟨x, getUserTableName x⟩ := by
    intro l hl
    induction l with
    | nil => cases hl
    | cons y l ih =>
      by_cases hy : y = x
      · simp [hy]
      · have hrest := ih ((List.mem_cons.mp hl).resolve_left (Ne.symm hy))
        simp [hy, hrest]
  have hrow := hfind (List.mem_dedup.mpr hx)
  simp only [tableName, services, twoUsers, if_true, rows, hrow, Option.map_some]

theorem users_twoUsers {x : Str} (hx : x ∈ [s, s']) :
    users ((twoUsers s u p s' u' p').db.tables (getUserTableName x)) = [⟨u, p, 0, false⟩, ⟨u', p', 0, false⟩] := by
  have hname : getUserTableName x = getUserTableName s ∨ getUserTableName x = getUserTableName s' := by
    simpa [getUserTableName] using hx
  simp only [twoUsers, getUserTableName_ne_serviceIdTable, if_false, if_pos hname, users]

/-- Both users get a token. -/
theorem userAuth_twoUsers (sha1 : Str → Str) (hne : u' ≠ u) (h : s ≠ [] ∧ u ≠ [] ∧ p ≠ [])
    (h' : s' ≠ [] ∧ u' ≠ [] ∧ p' ≠ []) :
    (UserLogic.userAuth sha1 (fun _ => false) s u p (twoUsers s u p s' u' p')).2 =
      .ok (some (sha1 (UserLogic.tokenText s ⟨u, p, 0, false⟩))) ∧
    (UserLogic.userAuth sha1 (fun _ => false) s' u' p' (twoUsers s u p s' u' p')).2 =
      .ok (some (sha1 (UserLogic.tokenText s' ⟨u', p', 0, false⟩))) := by
  refine ⟨userAuth_eq_token.mpr ⟨h, ⟨rfl, rfl⟩, ⟨u, p, 0, false⟩, ?_, rfl, rfl⟩,
    userAuth_eq_token.mpr ⟨h', ⟨rfl, rfl⟩, ⟨u', p', 0, false⟩, ?_, rfl, rfl⟩⟩
  · rw [account, tableName_twoUsers (by simp), Option.bind_some, users_twoUsers (by simp)]
    simp
  · rw [account, tableName_twoUsers (by simp), Option.bind_some, users_twoUsers (by simp)]
    simp [hne.symm]

/-- Two readings of one text belong to two users with one token. -/
theorem not_identifies (sha1 : Str → Str) (hne : u' ≠ u) (h : s ≠ [] ∧ u ≠ [] ∧ p ≠ [])
    (h' : s' ≠ [] ∧ u' ≠ [] ∧ p' ≠ [])
    (htext : s ++ underscore :: (u ++ underscore :: p) = s' ++ underscore :: (u' ++ underscore :: p')) :
    ¬Identifies sha1 s u p := by
  intro hidentifies
  obtain ⟨htoken, htoken'⟩ := userAuth_twoUsers sha1 hne h h'
  have hsame : UserLogic.tokenText s ⟨u, p, 0, false⟩ = UserLogic.tokenText s' ⟨u', p', 0, false⟩ := by
    have hlonger := congrArg (· ++ underscore :: literal (toString (0 : Int))) htext
    simpa [tokenText_eq] using hlonger
  rw [← hsame] at htoken'
  exact hne (hidentifies _ _ _ _ _ _ _ htoken htoken').2.symm

end TwoUsers

/-- **Whose token it is**: with an injective hash, a user without a token of its own is one whose text can be read in
another way. -/
theorem identifies_iff {sha1 : Str → Str} (hsha1 : Function.Injective sha1) (service_id user_id password : Str) :
    Identifies sha1 service_id user_id password ↔
      service_id = [] ∨ user_id = [] ∨ password = [] ∨ Clear service_id user_id password := by
  constructor
  · intro hidentifies
    by_contra hcontra
    simp only [not_or] at hcontra
    obtain ⟨hs, hu, hp, hclear⟩ := hcontra
    obtain ⟨s, u, p, hne', hne, htext⟩ := exists_same_text hs hu hp hclear
    exact not_identifies sha1 hne ⟨hs, hu, hp⟩ hne' htext hidentifies
  · intro hcond w fails fails' s u p token htoken htoken'
    obtain ⟨hne, -, r, -, -, rfl⟩ := userAuth_eq_token.mp htoken
    obtain ⟨hne', -, r', -, -, htext⟩ := userAuth_eq_token.mp htoken'
    have hclear : Clear service_id user_id password := by
      obtain hs | hu | hp | hclear := hcond
      · exact absurd hs hne.1
      · exact absurd hu hne.2.1
      · exact absurd hp hne.2.2
      · exact hclear
    exact hclear.eq_of_text hne'.1 hne'.2.1 hne'.2.2 (text_of_tokenText_eq (hsha1 htext))

theorem identifies_shop : Clear (literal "shop") (literal "ann") (literal "secret") ∧
    Identifies id (literal "shop") (literal "ann") (literal "secret") :=
  ⟨by decide, (identifies_iff Function.injective_id _ _ _).mpr (Or.inr (Or.inr (Or.inr (by decide))))⟩

/-- The user `c` of `a_b` and the user `b_c` of `a` have one token. -/
theorem not_identifies_underscore :
    ¬∀ sha1 : Str → Str, Function.Injective sha1 → ∀ service_id user_id password,
      Identifies sha1 service_id user_id password := by
  intro h
  have htext : literal "a_b" ++ underscore :: (literal "c" ++ underscore :: literal "secret") =
      literal "a" ++ underscore :: (literal "b_c" ++ underscore :: literal "secret") := by decide
  exact not_identifies id (by decide) (by decide) (by decide) htext
    (h id Function.injective_id (literal "a_b") (literal "c") (literal "secret"))

/-! ## Who is refused -/

/-- The service has a user that is not deleted, with the password. -/
def HasUser (db : Database) (service_id user_id password : Str) : Prop :=
  ∃ r, account db service_id user_id = some r ∧ r.password = password

/-- Nothing is empty, no statement fails, and the service has the user. -/
def Accepted (fails : Nat → Bool) (db : Database) (service_id user_id password : Str) : Prop :=
  (service_id ≠ [] ∧ user_id ≠ [] ∧ password ≠ []) ∧ (fails 0 = false ∧ fails 1 = false) ∧
    HasUser db service_id user_id password

section Refused

variable (sha1 : Str → Str) (fails : Nat → Bool) (service_id user_id password : Str) (w : Manager)

theorem exists_token_iff :
    (∃ token, (UserLogic.userAuth sha1 fails service_id user_id password w).2 = .ok (some token)) ↔
      Accepted fails w.db service_id user_id password := by
  simp only [userAuth_eq_token]
  constructor
  · rintro ⟨token, hne, hfails, r, haccount, hpassword, -⟩
    exact ⟨hne, hfails, r, haccount, hpassword⟩
  · rintro ⟨hne, hfails, r, haccount, hpassword⟩
    exact ⟨_, hne, hfails, r, haccount, hpassword, rfl⟩

/-- There is no exception if nothing is asked, or the table of the service is found. -/
theorem userAuth_ok (h : service_id = [] ∨ user_id = [] ∨ password = [] ∨
    fails 0 = false ∧ tableName w.db service_id ≠ none) :
    ∃ token, (UserLogic.userAuth sha1 fails service_id user_id password w).2 = .ok token := by
  unfold UserLogic.userAuth
  by_cases hempty : service_id = [] ∨ user_id = [] ∨ password = []
  · exact ⟨none, by rw [if_pos hempty]⟩
  · have hfound : fails 0 = false ∧ tableName w.db service_id ≠ none := by
      simp only [not_or] at hempty
      simpa [hempty] using h
    have huser := getUser_snd fails service_id user_id w
    rw [if_neg (by simp [hfound])] at huser
    simp only [if_neg hempty, huser]
    exact ⟨_, rfl⟩

/-- **Who gets a token and who gets `null`.** An unknown service, or one whose table is not found, is another matter. -/
theorem userAuth_answers :
    ((∃ token, (UserLogic.userAuth sha1 fails service_id user_id password w).2 = .ok (some token)) ↔
      Accepted fails w.db service_id user_id password) ∧
    (service_id = [] ∨ user_id = [] ∨ password = [] ∨ fails 0 = false ∧ tableName w.db service_id ≠ none →
      ¬Accepted fails w.db service_id user_id password →
      (UserLogic.userAuth sha1 fails service_id user_id password w).2 = .ok none) := by
  have htoken := exists_token_iff sha1 fails service_id user_id password w
  refine ⟨htoken, fun h hrefused => ?_⟩
  obtain ⟨token, hok⟩ := userAuth_ok sha1 fails service_id user_id password w h
  cases token with
  | none => exact hok
  | some token => exact absurd (htoken.mp ⟨token, hok⟩) hrefused

end Refused

/-- A user with an empty password. -/
theorem not_answers_empty :
    ¬∀ (sha1 : Str → Str) (service_id user_id password : Str) (w : Manager),
      ((∃ token, (UserLogic.userAuth sha1 (fun _ => false) service_id user_id password w).2 = .ok (some token)) ↔
        HasUser w.db service_id user_id password) ∧
      (¬HasUser w.db service_id user_id password →
        (UserLogic.userAuth sha1 (fun _ => false) service_id user_id password w).2 = .ok none) := by
  intro h
  let w := twoUsers (literal "shop") (literal "ann") [] (literal "shop") (literal "bob") (literal "secret")
  have haccount : account w.db (literal "shop") (literal "ann") = some ⟨literal "ann", [], 0, false⟩ := by
    rw [account, tableName_twoUsers (by simp), Option.bind_some, users_twoUsers (by simp)]
    rfl
  obtain ⟨token, htoken⟩ := (h id (literal "shop") (literal "ann") [] w).1.mpr ⟨_, haccount, rfl⟩
  cases htoken

end LeftFelt.Account
