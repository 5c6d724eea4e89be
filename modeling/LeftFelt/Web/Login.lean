import LeftFelt.Web.Controller
import LeftFelt.Web.Token

/-!
# The login

`loginAction` hashes the password of the form, asks the API `userAuth` for a token and compares the answer with `false`.
The API answers with a token or with `null`, which is not `false`: the action takes every answer for a success
(`execute_submitted`). `header` refuses a line with a line break. So the action does what it is for exactly when the API
does return a token and the next page can be sent, or neither of these (`loginResult_iff`).

The hash functions are parameters. A form comes to the API as it was sent, without the fields that are `null`; an
exception of the API comes back as a text that is no JSON. `setCookie` is called without its argument `domain`, which
is `null` then, with a warning.
-/

namespace LeftFelt.Web

open Str Account

/-! ## Parameters and their hash -/

/-- `Request`, as far as its parameters are read. -/
abbrev Parametors := Str → Option Str

/-- `getParametor($name, $default)`. -/
def getParametor (request : Parametors) (name default : Str) : Str := (request name).getD default

/-- `SecureHash`. -/
structure SecureHash where
  stretching : Nat
  salt_prefix : Str
  salt_postfix : Str

/-- `get($str)`, where `null` stands for the empty string. -/
def SecureHash.get (hash : Str → Str) : SecureHash → Option Str → Str
  | ⟨stretching, salt_prefix, salt_postfix⟩, str =>
    let key := salt_prefix ++ str.getD [] ++ salt_postfix
    hash^[stretching] key

/-- The digit that a byte stands for. -/
def hexValue (c : UInt8) : Option Nat :=
  if 0x30 ≤ c ∧ c ≤ 0x39 then some (c.toNat - 0x30)
  else if 0x41 ≤ c ∧ c ≤ 0x46 then some (c.toNat - 0x41 + 10)
  else if 0x61 ≤ c ∧ c ≤ 0x66 then some (c.toNat - 0x61 + 10)
  else none

/-- `urldecode($s)`: a `%` that no two digits follow stays. -/
def urldecode : Str → Str
  | [] => []
  | 0x25 :: a :: b :: s =>
    match hexValue a, hexValue b with
    | some m, some n => (16 * m + n).toUInt8 :: urldecode s
    | _, _ => 0x25 :: urldecode (a :: b :: s)
  | c :: s => (if c = 0x2B then space else c) :: urldecode s

/-! ## The API -/

/-- A value that JSON writes. -/
inductive Json where
  | null
  | bool (b : Bool)
  | text (s : Str)
  | object (fields : List (Str × Json))

/-- `$json->name`, which is `null` if there is no such field. -/
def Json.field : Json → Str → Json
  | .object fields, name => (fields.lookup name).getD .null
  | _, _ => .null

/-- `$json === false`. -/
def Json.isFalse : Json → Bool
  | .bool false => true
  | _ => false

/-- `json_decode($body)`: `null` for a body that is no JSON. -/
def json_decode (body : Option Json) : Json := body.getD .null

/-- `'service_id'`. -/
def serviceIdKey : Str := literal "service_id"

/-- `'user_id'`. -/
def userIdKey : Str := literal "user_id"

/-- `'password'`. -/
def passwordKey : Str := literal "password"

/-- `'result'`. -/
def resultKey : Str := literal "result"

/-- `userAuthAction::execute()`: what becomes of the attribute `result`. -/
def userAuthAction (sha1 : Str → Str) (fails : Nat → Bool) (request : Parametors) (w : Manager) :
    Manager × Except String (Option Str) :=
  let service_id := getParametor request serviceIdKey []
  let user_id := getParametor request userIdKey []
  let password := getParametor request passwordKey []
  UserLogic.userAuth sha1 fails service_id user_id password w

/-- `userAuthView::execute()` with its renderer. -/
def userAuthView (result : Option Str) : Json :=
  .object [(resultKey, match result with
    | none => .null
    | some token => .text token)]

/-- The body of an answer, for a result or an exception. -/
def body : Except String (Option Str) → Option Json
  | .ok result => some (userAuthView result)
  | .error _ => none

/-- `api/userAuth.php`: the body that it answers with. -/
def userAuthApi (sha1 : Str → Str) (fails : Nat → Bool) (request : Parametors) (w : Manager) :
    Manager × Option Json :=
  let r := userAuthAction sha1 fails request w
  (r.1, body r.2)

/-! ## The action -/

/-- What is sent with the answer: a cookie, by `setcookie`, or another header. -/
inductive Reply where
  | setcookie (name : Str) (value : Json) (expire : Int) (path : Str) (domain : Option Str) (secure httponly : Bool)
  | header (line : Str)

/-- A character that is cut off at the end of a header. -/
def isBlank (c : UInt8) : Bool := c = space ∨ 0x09 ≤ c ∧ c ≤ 0x0D

/-- A header may not have a line break or a NUL. -/
def isRefused (c : UInt8) : Bool := c = 0x0A ∨ c = 0x0D ∨ c = nul

/-- `header($line)`: what is sent. A header that is refused is left out, with a warning. -/
def sentHeader (line : Str) : List Reply :=
  let line := line.rdropWhile isBlank
  if line.any isRefused then [] else [.header line]

/-- `setCookie($name, $value, $expire, $domain)`, with the defaults of the other arguments. -/
def setCookie (name : Str) (value : Json) (expire : Int) (domain : Option Str) : Reply :=
  .setcookie name value expire (literal "/") domain false false

/-- What is left behind by `loginAction`: the calls, and the attributes for its view. -/
structure Login where
  manager : Manager
  replies : List Reply
  next_url : Str
  service_id : Option Str

/-- The configuration, as far as the action reads it. -/
structure LoginConfig where
  password_hash : SecureHash
  login_expire : Int

namespace loginAction

/-- `'next_url'`. -/
def nextUrlKey : Str := literal "next_url"

/-- `'login_button'`. -/
def loginButtonKey : Str := literal "login_button"

section

variable (sha1 hash : Str → Str) (config : LoginConfig) (time : Int) (fails : Nat → Bool)

/-- `userAuthRequest($data)`, where `HttpRequestLogic` posts the fields that are not `null`. -/
def userAuthRequest (data : List (Str × Option Str)) (w : Manager) : Manager × Json :=
  let r := userAuthApi sha1 fails (fun name => (data.lookup name).join) w
  (r.1, (json_decode r.2).field resultKey)

/-- The fields that are sent. -/
def data (request : Parametors) : List (Str × Option Str) :=
  [(serviceIdKey, request serviceIdKey), (userIdKey, request userIdKey),
    (passwordKey, some (config.password_hash.get hash (request passwordKey)))]

/-- The line that leads to the next page. -/
def location (next_url : Str) : Str := literal "Location: " ++ next_url

/-- `execute()`. -/
def execute (request : Parametors) (w : Manager) : Login :=
  let next_url := urldecode (getParametor request nextUrlKey [])
  let data := data hash config request
  let submitted : Manager × List Reply :=
    if getParametor request loginButtonKey [] ≠ [] then
      let response := userAuthRequest sha1 fails data w
      (response.1, if !response.2.isFalse then
        setCookie loadUserFilter.userSession response.2 (time + config.login_expire) none ::
          sentHeader (location next_url)
        else [])
    else (w, [])
  ⟨submitted.1, submitted.2, urlencode next_url, (data.lookup serviceIdKey).join⟩

/-! ## What a login comes to -/

/-- The credentials of a request, as `userAuth` decides on them. -/
def auth (request : Parametors) (w : Manager) : Except String (Option Str) :=
  (UserLogic.userAuth sha1 fails (getParametor request serviceIdKey []) (getParametor request userIdKey [])
    (config.password_hash.get hash (request passwordKey)) w).2

/-- The token, or `null`. -/
def answer : Except String (Option Str) → Json
  | .ok (some token) => .text token
  | _ => .null

theorem field_body (r : Except String (Option Str)) : (json_decode (body r)).field resultKey = answer r := by
  cases r with
  | error e => rfl
  | ok result => cases result <;> rfl

/-- The API hands on what `userAuth` decides. -/
theorem userAuthRequest_data (request : Parametors) (w : Manager) :
    (userAuthRequest sha1 fails (data hash config request) w).2 = answer (auth sha1 hash config fails request w) :=
  field_body _

/-- An answer is never `false`. -/
theorem isFalse_answer (r : Except String (Option Str)) : (answer r).isFalse = false := by
  cases r with
  | error e => rfl
  | ok result => cases result <;> rfl

/-- **Every login that is submitted is taken for a success**, whatever the API answers. -/
theorem execute_submitted {request : Parametors} (hsubmit : getParametor request loginButtonKey [] ≠ [])
    (w : Manager) :
    (execute sha1 hash config time fails request w).replies =
      setCookie loadUserFilter.userSession (answer (auth sha1 hash config fails request w))
        (time + config.login_expire) none :: sentHeader (location (urldecode (getParametor request nextUrlKey []))) := by
  unfold execute
  simp only [if_pos hsubmit, userAuthRequest_data, isFalse_answer, Bool.not_false, if_true]

end

/-- The cookie is set. An empty value, or `null`, would delete it. -/
def SetsCookie (o : Login) (token : Str) : Prop :=
  token ≠ [] ∧ ∃ expire, setCookie loadUserFilter.userSession (.text token) expire none ∈ o.replies

/-- The answer leads to another page than the form: the header is sent, but for the blanks at its end. -/
def Redirects (o : Login) (next_url : Str) : Prop := .header ((location next_url).rdropWhile isBlank) ∈ o.replies

/-- **What a login is for**: the cookie and the next page for a token, neither of them without one. -/
def LoginResult (decision : Except String (Option Str)) (next_url : Str) (o : Login) : Prop :=
  (∀ token, SetsCookie o token ∧ Redirects o next_url ↔ decision = .ok (some token)) ∧
  ((∀ token, decision ≠ .ok (some token)) → (∀ value, ¬SetsCookie o value) ∧ ∀ url, ¬Redirects o url)

/-- The credentials are those of a user of the service, and no statement fails. -/
def Registered (hash : Str → Str) (config : LoginConfig) (fails : Nat → Bool) (request : Parametors) (db : Database) :
    Prop :=
  let service_id := getParametor request serviceIdKey []
  let user_id := getParametor request userIdKey []
  let password := config.password_hash.get hash (request passwordKey)
  (service_id ≠ [] ∧ user_id ≠ [] ∧ password ≠ []) ∧ (fails 0 = false ∧ fails 1 = false) ∧
    ∃ r, account db service_id user_id = some r ∧ r.password = password

/-- The next page can be sent in a header: it has no line break and no NUL, except for line breaks at the end. -/
def Sendable (next_url : Str) : Prop := ∀ c ∈ next_url.rdropWhile isBlank, ¬isRefused c

instance (next_url : Str) : Decidable (Sendable next_url) := inferInstanceAs (Decidable (∀ _ ∈ _, _))

/-- What is cut off at the end does not reach the text in front. -/
theorem rdropWhile_append (s t : Str) (p : UInt8 → Bool) :
    (s ++ t).rdropWhile p = if t.rdropWhile p = [] then s.rdropWhile p else s ++ t.rdropWhile p := by
  simp only [List.rdropWhile, List.reverse_append, List.dropWhile_append, List.isEmpty_iff, List.reverse_eq_nil_iff]
  split_ifs
  · rfl
  · simp

theorem location_rdropWhile (next_url : Str) :
    ((location next_url).rdropWhile isBlank).any isRefused = false ↔ Sendable next_url := by
  rw [location, rdropWhile_append, Sendable]
  by_cases hempty : next_url.rdropWhile isBlank = []
  · rw [if_pos hempty, hempty]
    exact iff_of_true (by decide) (by simp)
  · have hline : (literal "Location: ").any isRefused = false := by decide
    rw [if_neg hempty, List.any_append, hline, Bool.false_or]
    simp

/-- A header that can be sent leads to the page. -/
theorem sentHeader_location (next_url : Str) : sentHeader (location next_url) =
    if Sendable next_url then [.header ((location next_url).rdropWhile isBlank)] else [] := by
  rw [sentHeader]
  by_cases hsend : Sendable next_url
  · have hline := (location_rdropWhile next_url).mpr hsend
    simp [hsend, hline]
  · have hline := Bool.eq_true_of_not_eq_false fun h => hsend ((location_rdropWhile next_url).mp h)
    simp [hsend, hline]

/-- What a login comes to, for every decision. -/
theorem loginResult_of_replies {o : Login} {decision : Except String (Option Str)} {expire : Int} {next_url : Str}
    (ho : o.replies =
      setCookie loadUserFilter.userSession (answer decision) expire none :: sentHeader (location next_url))
    (htoken : ∀ token, decision = .ok (some token) → token ≠ []) :
    LoginResult decision next_url o ↔ ((∃ token, decision = .ok (some token)) ↔ Sendable next_url) := by
  rw [sentHeader_location] at ho
  have hredirect : Redirects o next_url ↔ Sendable next_url := by
    rw [Redirects, ho]
    split_ifs with hsend
    · simp [hsend]
    · simp [hsend, setCookie]
  constructor
  · intro hresult
    constructor
    · rintro ⟨token, htoken⟩
      exact hredirect.mp ((hresult.1 token).mpr htoken).2
    · intro hsend
      by_contra hno
      exact (hresult.2 (by simpa using hno)).2 next_url (hredirect.mpr hsend)
  · intro hiff
    by_cases hsend : Sendable next_url
    · obtain ⟨token, rfl⟩ := hiff.mpr hsend
      refine ⟨fun value => ?_, fun hno => absurd rfl (hno token)⟩
      have hcookie : SetsCookie o value ↔ value = token := by
        rw [SetsCookie, ho]
        constructor
        · rintro ⟨-, e, hmem⟩
          have heq : value = token ∧ e = expire := by simpa [answer, setCookie, hsend] using hmem
          exact heq.1
        · rintro rfl
          exact ⟨htoken value rfl, expire, by simp [answer]⟩
      simp [hcookie, hredirect, hsend, eq_comm]
    · -- neither a token nor a header
      have hno : ∀ token, decision ≠ .ok (some token) := fun token h => hsend (hiff.mp ⟨token, h⟩)
      refine ⟨fun token => iff_of_false (fun h => hsend (hredirect.mp h.2)) (hno token), fun _ => ⟨?_, ?_⟩⟩
      · rintro value ⟨-, e, hmem⟩
        rw [ho, if_neg hsend, List.mem_singleton, setCookie, setCookie] at hmem
        injection hmem with _ hvalue
        cases decision with
        | error e => cases hvalue
        | ok result =>
          cases result with
          | none => cases hvalue
          | some token => exact hno token rfl
      · intro url hmem
        rw [Redirects, ho, if_neg hsend, List.mem_singleton, setCookie] at hmem
        cases hmem

end loginAction

open loginAction in
/-- **When a login does what it is for**: the credentials are those of a user of the service, and the next page can be
sent; or neither. -/
theorem loginResult_iff {sha1 : Str → Str} (hsha1 : ∀ s, (sha1 s).length = 40) (hash : Str → Str)
    (config : LoginConfig) (time : Int) (fails : Nat → Bool) (request : Parametors)
    (hsubmit : getParametor request loginButtonKey [] ≠ []) (w : Manager) :
    LoginResult (auth sha1 hash config fails request w) (urldecode (getParametor request nextUrlKey []))
        (execute sha1 hash config time fails request w) ↔
      (Registered hash config fails request w.db ↔ Sendable (urldecode (getParametor request nextUrlKey []))) := by
  have htoken : ∀ token, auth sha1 hash config fails request w = .ok (some token) → token ≠ [] := by
    intro token hauth hempty
    obtain ⟨-, -, r, -, -, rfl⟩ := userAuth_eq_token.mp hauth
    have hlength := hsha1 (UserLogic.tokenText (getParametor request serviceIdKey [])
      ⟨getParametor request userIdKey [], config.password_hash.get hash (request passwordKey), r.permission_id, false⟩)
    rw [hempty] at hlength
    cases hlength
  rw [loginResult_of_replies (execute_submitted sha1 hash config time fails hsubmit w) htoken]
  refine iff_congr ?_ Iff.rfl
  unfold auth Registered
  simp only [userAuth_eq_token]
  constructor
  · rintro ⟨token, hne, hfails, r, haccount, hpassword, -⟩
    exact ⟨hne, hfails, r, haccount, hpassword⟩
  · rintro ⟨hne, hfails, r, haccount, hpassword⟩
    exact ⟨_, hne, hfails, r, haccount, hpassword, rfl⟩

/-- The form of a login, as it is submitted. -/
def loginForm (service_id user_id password : Str) : Parametors := fun name =>
  [(serviceIdKey, service_id), (userIdKey, user_id), (passwordKey, password),
    (loginAction.loginButtonKey, literal "login"), (loginAction.nextUrlKey, literal "mypage.php")].lookup name

theorem registered_loginForm {hash : Str → Str} {config : LoginConfig} {fails : Nat → Bool}
    {service_id user_id password : Str} {db : Database} {r : UserRow}
    (hne : service_id ≠ [] ∧ user_id ≠ [] ∧ config.password_hash.get hash (some password) ≠ [])
    (hselect : fails 0 = false) (hread : fails 1 = false) (haccount : account db service_id user_id = some r)
    (hpassword : r.password = config.password_hash.get hash (some password)) :
    loginAction.Registered hash config fails (loginForm service_id user_id password) db :=
  ⟨hne, ⟨hselect, hread⟩, r, haccount, hpassword⟩

/-- The hash of the password `secret`, hashed once with the salts of the configuration. -/
def secretHash : Str :=
  literal "38b8b167ac7937b444961c8335dfa6131bee36ad653d56995c5c731a0cd2f2df" ++
    literal "eee21ca32a3fa99200b14cbd80bc7289ed01b1958af246fff38a62e6aae4f75d"

/-- A service `shop` with a user `ann`. -/
def shop : Manager :=
  ⟨⟨Function.update (Function.update (fun _ => none) serviceIdTable
      (some (.service [⟨literal "shop", getUserTableName (literal "shop")⟩])))
    (getUserTableName (literal "shop")) (some (.user [⟨literal "ann", secretHash, 1, false⟩])), []⟩, ⟨none⟩, ⟨none⟩⟩

/-- One round of hashing, and half a year for the cookie. -/
def shopConfig : LoginConfig := ⟨⟨1, literal "!left>", literal "<felt#"⟩, 15552000⟩

theorem account_shop :
    account shop.db (literal "shop") (literal "ann") = some ⟨literal "ann", secretHash, 1, false⟩ := by
  decide +kernel

/-- The token of `ann`. -/
def annToken : Str := literal "cf747a25ae86106802966574befd8c3a69daf88f"

theorem length_annToken : annToken.length = 40 := by decide +kernel

theorem loginForm_submitted (service_id user_id password : Str) :
    getParametor (loginForm service_id user_id password) loginAction.loginButtonKey [] ≠ [] := by
  have hbutton : getParametor (loginForm service_id user_id password) loginAction.loginButtonKey [] =
      literal "login" := rfl
  rw [hbutton]
  decide

open loginAction in
/-- The page that it names can be sent. -/
theorem sendable_loginForm (service_id user_id password : Str) :
    Sendable (urldecode (getParametor (loginForm service_id user_id password) nextUrlKey [])) := by
  have hnext : getParametor (loginForm service_id user_id password) nextUrlKey [] = literal "mypage.php" := rfl
  rw [hnext]
  decide +kernel

open loginAction in
theorem loginResult_shop :
    LoginResult
      (auth (fun _ => annToken) (fun _ => secretHash) shopConfig (fun _ => false)
        (loginForm (literal "shop") (literal "ann") (literal "secret")) shop)
      (urldecode (getParametor (loginForm (literal "shop") (literal "ann") (literal "secret")) nextUrlKey []))
      (execute (fun _ => annToken) (fun _ => secretHash) shopConfig 0 (fun _ => false)
        (loginForm (literal "shop") (literal "ann") (literal "secret")) shop) := by
  refine (loginResult_iff (fun _ => length_annToken) (fun _ => secretHash) shopConfig 0 (fun _ => false) _
    (loginForm_submitted _ _ _) shop).mpr (iff_of_true (registered_loginForm ?_ rfl rfl account_shop ?_)
      (sendable_loginForm _ _ _))
  · rw [shopConfig, SecureHash.get, Function.iterate_one]
    decide +kernel
  · rw [shopConfig, SecureHash.get, Function.iterate_one]

open loginAction in
/-- An unknown user is led to the next page. -/
theorem not_loginResult_unknown :
    ¬∀ (sha1 hash : Str → Str), (∀ s, (sha1 s).length = 40) →
      ∀ (config : LoginConfig) (time : Int) (fails : Nat → Bool) (request : Parametors),
        getParametor request loginButtonKey [] ≠ [] → ∀ w : Manager,
          LoginResult (auth sha1 hash config fails request w) (urldecode (getParametor request nextUrlKey []))
            (execute sha1 hash config time fails request w) := by
  intro h
  have hresult := h (fun _ => annToken) (fun _ => secretHash) (fun _ => length_annToken) shopConfig 0 (fun _ => false)
    (loginForm (literal "shop") (literal "bob") (literal "secret")) (loginForm_submitted _ _ _) shop
  have hunknown : account shop.db (literal "shop") (literal "bob") = none := by decide +kernel
  refine (hresult.2 fun token htoken => ?_).2
    (urldecode (getParametor (loginForm (literal "shop") (literal "bob") (literal "secret")) nextUrlKey [])) ?_
  · obtain ⟨-, -, r, haccount, -⟩ := userAuth_eq_token.mp htoken
    cases hunknown.symm.trans haccount
  · rw [Redirects, execute_submitted _ _ _ _ _ (loginForm_submitted _ _ _), sentHeader_location,
      if_pos (sendable_loginForm _ _ _)]
    exact List.mem_cons_of_mem _ List.mem_cons_self

end LeftFelt.Web
