import LeftFelt.Base.Str
import Mathlib.Data.List.Nodup
import Mathlib.Logic.Function.Basic

/-!
# The tickets of the videos

A page for a video or an upload carries a ticket, which the session keeps; a view, an upload or a registration is
counted for a request that has the ticket of its session, which is then empty. There is one ticket in a session, and
every page puts a new one in its place. So a request is accepted exactly if its ticket is the last one that the session
was given, and has not been used (`accepted_iff`), none is used twice (`used_once`), and `view` counts those that are
accepted, for the videos that have been there from the start and for those that are uploaded (`counted_run`).

The requests of one session do not overlap, since PHP locks it. `fresh` is what `sha1(uniqid().mt_rand())` gives the
first, the second time and so on, and `loose` is `==` on two strings.
-/

namespace LeftFelt.Web.Ticket

open Str

/-- `$_SESSION`. -/
structure Session where
  login : Option Str
  ticket : Option Str
  deriving DecidableEq

/-- `loginCheck($option)`: the session, if the script does not end with a redirection. -/
def loginCheck (option : Option Bool) (ticket : Str) (s : Session) : Option Session :=
  if s.login = none ∧ option ≠ some false then none
  else if option = some true then some { s with ticket := some ticket }
  else some s

/-- `isset($_POST['ticket'],$_SESSION['ticket']) && $_POST['ticket'] === $_SESSION['ticket'] &&
$_SESSION['ticket']!=''`, and the session whose ticket is then empty. -/
def useTicket (ticket : Option Str) (s : Session) : Option Session :=
  if ticket.isSome ∧ ticket = s.ticket ∧ s.ticket ≠ some [] then some { s with ticket := some [] } else none

/-- The requests that a ticket, or the login, has to do with. An upload is `stored` if its file has arrived
(`is_uploaded_file`) and the row can be inserted. -/
inductive Request where
  | viewer
  | uploadPage
  | register (name passwd1 passwd2 : Option Str)
  | confirm (ticket : Option Str)
  | video (ticket : Option Str) (id : Nat)
  | upload (ticket : Option Str) (stored : Bool)
  | login (name : Str) (authenticated : Bool)
  | logout

/-- The answers: a redirection, a page with a ticket, a page without one, and what comes of a ticket. -/
inductive Answer where
  | redirect
  | page (ticket : Str)
  | form
  | accepted
  | expired
  deriving DecidableEq

/-- The videos: the column `view`, what a new row has there, and the id that it gets. -/
structure Table where
  view : Nat → Option Nat
  initial : Option Nat
  auto_increment : Nat

namespace Table

/-- `addVideo`. -/
def addVideo (t : Table) : Table :=
  { t with view := Function.update t.view t.auto_increment t.initial, auto_increment := t.auto_increment + 1 }

/-- `incrementView($id)`. -/
def incrementView (id : Nat) (t : Table) : Table :=
  { t with view := Function.update t.view id ((t.view id).map (· + 1)) }

end Table

/-- The sessions of the users, how many tickets there have been, and the videos. -/
structure Site where
  session : Nat → Session
  issued : Nat
  videos : Table

namespace Site

/-- The session of a user is written back. -/
def write (user : Nat) (session : Session) (s : Site) : Site :=
  { s with session := Function.update s.session user session }

/-- A new ticket is in the session. -/
def issue (user : Nat) (session : Session) (s : Site) : Site := { s.write user session with issued := s.issued + 1 }

end Site

/-- `register.php` shows the page for a confirmation. -/
def Registers (loose : Str → Str → Bool) (name passwd1 passwd2 : Option Str) : Prop :=
  (name.isSome ∧ name ≠ some []) ∧ (passwd1.isSome ∧ passwd1 ≠ some [] ∧ passwd2.isSome ∧ passwd2 ≠ some []) ∧
    loose (passwd1.getD []) (passwd2.getD [])

instance (loose : Str → Str → Bool) (name passwd1 passwd2 : Option Str) :
    Decidable (Registers loose name passwd1 passwd2) :=
  inferInstanceAs (Decidable (_ ∧ _))

section Code

variable (fresh : Nat → Str) (loose : Str → Str → Bool)

/-- A page that is shown to who is logged in only, with a new ticket. -/
def showPage (user : Nat) (s : Site) : Site × Answer :=
  match loginCheck (some true) (fresh s.issued) (s.session user) with
  | none => (s, .redirect)
  | some session => (s.issue user session, .page (fresh s.issued))

/-- A request with a ticket, and what is done to the videos if it is accepted. -/
def checkTicket (user : Nat) (ticket : Option Str) (session : Session) (f : Table → Table) (s : Site) : Site × Answer :=
  match useTicket ticket session with
  | none => (s, .expired)
  | some session => ({ s.write user session with videos := f s.videos }, .accepted)

/-- One request of a user. -/
def serve (s : Site) (user : Nat) : Request → Site × Answer
  | .viewer => showPage fresh user s
  | .uploadPage => showPage fresh user s
  | .register name passwd1 passwd2 =>
    if Registers loose name passwd1 passwd2 then
      (s.issue user { s.session user with ticket := some (fresh s.issued) }, .page (fresh s.issued))
    else (s, .form)
  | .confirm ticket => checkTicket user ticket (s.session user) id s
  | .video ticket id =>
    match loginCheck none (fresh s.issued) (s.session user) with
    | none => (s, .redirect)
    | some session => checkTicket user ticket session (·.incrementView id) s
  | .upload ticket stored =>
    match loginCheck none (fresh s.issued) (s.session user) with
    | none => (s, .redirect)
    | some session => checkTicket user ticket session (if stored then .addVideo else id) s
  | .login name authenticated =>
    if authenticated then (s.write user { s.session user with login := some name }, .redirect) else (s, .form)
  | .logout => (s.write user { s.session user with login := none }, .redirect)

/-- A request that has been answered. -/
structure Entry where
  user : Nat
  request : Request
  answer : Answer

/-- The requests of all users one after the other. -/
def run (requests : List (Nat × Request)) (s : Site) : Site × List Entry :=
  requests.foldl (fun r q =>
    ((serve fresh loose r.1 q.1 q.2).1, r.2 ++ [⟨q.1, q.2, (serve fresh loose r.1 q.1 q.2).2⟩])) (s, [])

end Code

/-- At first nobody has a session. -/
def start (videos : Table) : Site := ⟨fun _ => ⟨none, none⟩, 0, videos⟩

/-! ## What one request does -/

namespace Request

/-- The ticket that a request comes with. -/
def ticket? : Request → Option Str
  | .confirm ticket => ticket
  | .video ticket _ => ticket
  | .upload ticket _ => ticket
  | _ => none

/-- A request that is answered only to who is logged in. -/
def guarded : Request → Bool
  | .viewer | .uploadPage | .video .. | .upload .. => true
  | _ => false

/-- How many views of a video a request is. -/
def views (id : Nat) : Request → Nat
  | .video _ i => if i = id then 1 else 0
  | _ => 0

/-- A request that inserts a video. -/
def adds : Request → Bool
  | .upload _ stored => stored
  | _ => false

/-- What is done to the videos if the request is accepted. -/
def acts : Request → Table → Table
  | .video _ id => .incrementView id
  | .upload _ true => .addVideo
  | _ => id

/-- A request inserts a video, or counts a view. -/
theorem view_acts (q : Request) (t : Table) (id : Nat) : (q.acts t).view id =
    if q.adds ∧ id = t.auto_increment then t.initial else (t.view id).map (· + q.views id) := by
  cases q with
  | video ticket i =>
    by_cases hi : id = i
    · simp [acts, adds, views, Table.incrementView, hi]
    · simp [acts, adds, views, Table.incrementView, hi, Ne.symm hi]
  | upload ticket stored =>
    cases stored with
    | false => simp [acts, adds, views]
    | true => simp [acts, adds, views, Table.addVideo, Function.update_apply]
  | _ => simp [acts, adds, views]

theorem initial_acts (q : Request) (t : Table) : (q.acts t).initial = t.initial := by
  cases q with
  | upload ticket stored => cases stored <;> rfl
  | _ => rfl

theorem auto_increment_acts (q : Request) (t : Table) :
    (q.acts t).auto_increment = t.auto_increment + if q.adds then 1 else 0 := by
  cases q with
  | upload ticket stored => cases stored <;> rfl
  | _ => rfl

/-- The login of a session after a request. -/
def login' (login : Option Str) : Request → Option Str
  | .login name true => some name
  | .logout => none
  | _ => login

end Request

/-- What a request can do to the tickets. -/
inductive Effect (fresh : Nat → Str) (s : Site) (user : Nat) (q : Request) : Site × Answer → Prop
  | page {s' : Site} (session : ∀ u, (s'.session u).ticket =
      if u = user then some (fresh s.issued) else (s.session u).ticket) (count : s'.issued = s.issued + 1)
      (videos : s'.videos = s.videos) (free : q.ticket? = none) : Effect fresh s user q (s', .page (fresh s.issued))
  | accepted {s' : Site} {key : Str} (ticket : q.ticket? = some key) (held : (s.session user).ticket = some key)
      (nonempty : key ≠ []) (admitted : q.guarded → (s.session user).login ≠ none)
      (session : ∀ u, (s'.session u).ticket = if u = user then some [] else (s.session u).ticket)
      (count : s'.issued = s.issued) (videos : s'.videos = q.acts s.videos) :
      Effect fresh s user q (s', .accepted)
  | other {s' : Site} {answer : Answer} (notPage : ∀ key, answer ≠ .page key) (notAccepted : answer ≠ .accepted)
      (refused : ∀ key, q.ticket? = some key → key ≠ [] → (s.session user).ticket = some key →
        q.guarded ∧ (s.session user).login = none)
      (session : ∀ u, (s'.session u).ticket = (s.session u).ticket) (count : s'.issued = s.issued)
      (videos : s'.videos = s.videos) : Effect fresh s user q (s', answer)

section Step

variable {fresh : Nat → Str} {loose : Str → Str → Bool} {s : Site} {user : Nat}

@[simp] theorem write_session (session : Session) (u : Nat) :
    (s.write user session).session u = if u = user then session else s.session u := by
  simp [Site.write, Function.update_apply]

@[simp] theorem issue_session (session : Session) (u : Nat) :
    (s.issue user session).session u = if u = user then session else s.session u := write_session session u

theorem loginCheck_ticket {t : Str} {session session' : Session} (h : loginCheck (some true) t session = some session') :
    session' = { session with ticket := some t } := by
  simp only [loginCheck] at h
  split at h
  · cases h
  · simpa using h.symm

theorem loginCheck_none {t : Str} {session : Session} :
    loginCheck none t session = if session.login = none then none else some session := by
  simp [loginCheck]

theorem showPage_effect {q : Request} (free : q.ticket? = none) : Effect fresh s user q (showPage fresh user s) := by
  unfold showPage
  split
  · exact .other (by simp) (by simp) (by simp [free]) (fun _ => rfl) rfl rfl
  · next session h =>
    refine .page (fun u => ?_) rfl rfl free
    by_cases hu : u = user <;> simp [hu, loginCheck_ticket h]

theorem useTicket_some {ticket : Option Str} {session session' : Session}
    (h : useTicket ticket session = some session') :
    ∃ key, ticket = some key ∧ session.ticket = some key ∧ key ≠ [] ∧ session' = { session with ticket := some [] } := by
  unfold useTicket at h
  split at h
  · next given =>
    obtain ⟨isSome, held, nonempty⟩ := given
    obtain ⟨key, rfl⟩ := Option.isSome_iff_exists.mp isSome
    exact ⟨key, rfl, held.symm, fun empty => nonempty (held.symm.trans (congrArg some empty)), by simpa using h.symm⟩
  · cases h

theorem useTicket_none {ticket : Option Str} {session : Session} {key : Str} (h : useTicket ticket session = none)
    (given : ticket = some key) (nonempty : key ≠ []) : session.ticket ≠ some key := by
  intro held
  simp [useTicket, given, held, nonempty] at h

/-- A ticket that is checked, after what the login has let pass. -/
theorem checkTicket_effect {q : Request} (admitted : q.guarded → (s.session user).login ≠ none) :
    Effect fresh s user q (checkTicket user q.ticket? (s.session user) q.acts s) := by
  unfold checkTicket
  split
  · next h =>
    exact .other (by simp) (by simp) (fun key given nonempty held => (useTicket_none h given nonempty held).elim)
      (fun _ => rfl) rfl rfl
  · next after h =>
    obtain ⟨key, given, held, nonempty, rfl⟩ := useTicket_some h
    refine .accepted given held nonempty admitted (fun u => ?_) rfl rfl
    show ((s.write user _).session u).ticket = _
    by_cases hu : u = user <;> simp [hu]

theorem refused_effect {q : Request} (guarded : q.guarded = true) (out : (s.session user).login = none) :
    Effect fresh s user q (s, .redirect) :=
  .other (by simp) (by simp) (fun _ _ _ _ => ⟨guarded, out⟩) (fun _ => rfl) rfl rfl

theorem serve_effect (q : Request) : Effect fresh s user q (serve fresh loose s user q) := by
  cases q with
  | viewer => exact showPage_effect rfl
  | uploadPage => exact showPage_effect rfl
  | register name passwd1 passwd2 =>
    simp only [serve]
    split
    · refine .page (fun u => ?_) rfl rfl rfl
      by_cases hu : u = user <;> simp [hu]
    · exact .other (by simp) (by simp) (by simp [Request.ticket?]) (fun _ => rfl) rfl rfl
  | confirm ticket => exact checkTicket_effect (q := .confirm ticket) (by simp [Request.guarded])
  | video ticket id =>
    simp only [serve, loginCheck_none]
    by_cases out : (s.session user).login = none
    · simpa [out] using refused_effect (q := .video ticket id) rfl out
    · simp only [if_neg out]
      exact checkTicket_effect (q := .video ticket id) fun _ => out
  | upload ticket stored =>
    simp only [serve, loginCheck_none]
    by_cases out : (s.session user).login = none
    · simpa [out] using refused_effect (q := .upload ticket stored) rfl out
    · simp only [if_neg out]
      have hacts : (if stored then Table.addVideo else id) = (Request.upload ticket stored).acts := by
        cases stored <;> rfl
      rw [hacts]
      exact checkTicket_effect (q := .upload ticket stored) fun _ => out
  | login name authenticated =>
    simp only [serve]
    split
    · refine .other (by simp) (by simp) (by simp [Request.ticket?]) (fun u => ?_) rfl rfl
      by_cases hu : u = user <;> simp [hu]
    · exact .other (by simp) (by simp) (by simp [Request.ticket?]) (fun _ => rfl) rfl rfl
  | logout =>
    refine .other (by simp) (by simp) (by simp [Request.ticket?]) (fun u => ?_) rfl rfl
    by_cases hu : u = user <;> simp [hu]

/-- Pages and tickets leave the logins alone. -/
theorem serve_login (q : Request) (u : Nat) : ((serve fresh loose s user q).1.session u).login =
    if u = user then q.login' (s.session u).login else (s.session u).login := by
  have checked (ticket : Option Str) (f : Table → Table) :
      ((checkTicket user ticket (s.session user) f s).1.session u).login = (s.session u).login := by
    unfold checkTicket
    split
    · rfl
    · next after h =>
      obtain ⟨_, _, _, _, rfl⟩ := useTicket_some h
      show ((s.write user _).session u).login = _
      by_cases hu : u = user <;> simp [hu]
  have shown : ((showPage fresh user s).1.session u).login = (s.session u).login := by
    unfold showPage
    split
    · rfl
    · next after h => by_cases hu : u = user <;> simp [hu, loginCheck_ticket h]
  cases q with
  | viewer => simpa [serve, Request.login'] using shown
  | uploadPage => simpa [serve, Request.login'] using shown
  | register name passwd1 passwd2 =>
    simp only [serve]
    split
    · by_cases hu : u = user <;> simp [hu, Request.login']
    · simp [Request.login']
  | confirm ticket => simpa [serve, Request.login'] using checked ticket _
  | video ticket i =>
    simp only [serve, loginCheck_none]
    by_cases out : (s.session user).login = none
    · simp [out, Request.login']
    · simpa [out, Request.login'] using checked ticket _
  | upload ticket stored =>
    simp only [serve, loginCheck_none]
    by_cases out : (s.session user).login = none
    · simp [out, Request.login']
    · simpa [out, Request.login'] using checked ticket _
  | login name authenticated =>
    cases authenticated with
    | false => simp [serve, Request.login']
    | true => by_cases hu : u = user <;> simp [serve, Request.login', hu]
  | logout => by_cases hu : u = user <;> simp [serve, Request.login', hu]

end Step

/-! ## What a session holds, told by its past -/

/-- There was an `A`, and since then only `B`. -/
def Since {α : Type*} (A B : α → Prop) (past : List α) : Prop :=
  ∃ before e after, past = before ++ e :: after ∧ A e ∧ ∀ e' ∈ after, B e'

section Since

variable {α : Type*} {A B : α → Prop} {past : List α}

theorem since_nil : ¬Since A B [] := by
  rintro ⟨before, e, after, h, -, -⟩
  simp at h

theorem since_snoc {e : α} : Since A B (past ++ [e]) ↔ A e ∨ B e ∧ Since A B past := by
  constructor
  · rintro ⟨before, a, after, h, ha, hb⟩
    rcases List.eq_nil_or_concat after with rfl | ⟨rest, b, rfl⟩
    · obtain ⟨-, rfl⟩ := List.append_inj' (h : past ++ [e] = before ++ [a]) rfl |>.imp id List.singleton_inj.mp
      exact .inl ha
    · obtain ⟨rfl, rfl⟩ := List.append_inj' (show past ++ [e] = (before ++ a :: rest) ++ [b] by simpa using h) rfl
        |>.imp id List.singleton_inj.mp
      exact .inr ⟨hb e (by simp), before, a, rest, rfl, ha, fun e' he' => hb e' (by simp [he'])⟩
  · rintro (ha | ⟨hb, before, a, after, rfl, ha, hafter⟩)
    · exact ⟨past, e, [], rfl, ha, by simp⟩
    · refine ⟨before, a, after ++ [e], by simp, ha, fun e' he' => ?_⟩
      rcases List.mem_append.mp he' with he' | he'
      · exact hafter e' he'
      · rwa [List.mem_singleton.mp he']

end Since

/-- The user was shown a page with the ticket, and since then none, and no ticket of his has been accepted. -/
def Open (user : Nat) (key : Str) : List Entry → Prop :=
  Since (fun e => e.user = user ∧ e.answer = .page key)
    fun e => e.user = user → (∀ k, e.answer ≠ .page k) ∧ e.answer ≠ .accepted

/-- The user has logged in, and not out since. -/
def LoggedIn (user : Nat) : List Entry → Prop :=
  Since (fun e => e.user = user ∧ ∃ name, e.request = .login name true) fun e => e.user = user → e.request ≠ .logout

section Run

variable {fresh : Nat → Str} {loose : Str → Str → Bool} {s : Site} {videos : Table}

theorem run_snoc (requests : List (Nat × Request)) (user : Nat) (q : Request) :
    run fresh loose (requests ++ [(user, q)]) s =
      ((serve fresh loose (run fresh loose requests s).1 user q).1, (run fresh loose requests s).2 ++
        [⟨user, q, (serve fresh loose (run fresh loose requests s).1 user q).2⟩]) := by
  simp [run, List.foldl_append]

/-- A run is followed from its last request. -/
theorem run_induction {P : List (Nat × Request) → Site × List Entry → Prop} (start : P [] (s, []))
    (step : ∀ requests r user q, P requests r → P (requests ++ [(user, q)])
      ((serve fresh loose r.1 user q).1, r.2 ++ [⟨user, q, (serve fresh loose r.1 user q).2⟩]))
    (requests : List (Nat × Request)) : P requests (run fresh loose requests s) := by
  induction requests using List.reverseRecOn with
  | nil => exact start
  | append_singleton requests q ih =>
    rw [run_snoc]
    exact step requests _ _ _ ih

/-- The login of a session, told by the past. -/
theorem login_run (requests : List (Nat × Request)) (u : Nat) :
    ((run fresh loose requests (start videos)).1.session u).login ≠ none ↔
      LoggedIn u (run fresh loose requests (start videos)).2 := by
  refine run_induction (P := fun _ r => (r.1.session u).login ≠ none ↔ LoggedIn u r.2) ?_ (fun _ r user q ih => ?_)
    requests
  · simpa [start, LoggedIn] using since_nil
  · rw [LoggedIn, since_snoc, ← LoggedIn, serve_login]
    by_cases hu : u = user
    · subst hu
      cases q with
      | login name authenticated => cases authenticated <;> simp [Request.login', ih]
      | logout => simp [Request.login']
      | _ => simpa [Request.login'] using ih
    · simpa [hu, Ne.symm hu] using ih

/-- The ticket of a session, told by the past. -/
theorem ticket_run (requests : List (Nat × Request)) (u : Nat) {key : Str} (nonempty : key ≠ []) :
    ((run fresh loose requests (start videos)).1.session u).ticket = some key ↔
      Open u key (run fresh loose requests (start videos)).2 := by
  refine run_induction (P := fun _ r => (r.1.session u).ticket = some key ↔ Open u key r.2) ?_ (fun _ r user q ih => ?_)
    requests
  · simpa [start, Open] using since_nil
  · rw [Open, since_snoc, ← Open]
    have step : Effect fresh r.1 user q (serve fresh loose r.1 user q) := serve_effect q
    generalize serve fresh loose r.1 user q = served at step
    cases step with
    | page session =>
      by_cases hu : u = user
      · subst hu
        simp [session]
      · simpa [session, hu, Ne.symm hu] using ih
    | accepted _ _ _ _ session =>
      by_cases hu : u = user
      · subst hu
        simp [session, Ne.symm nonempty]
      · simpa [session, hu, Ne.symm hu] using ih
    | other notPage notAccepted _ session => simpa [session, notPage, notAccepted] using ih

/-- The requests of the past that were accepted. -/
def accepted (past : List Entry) : List Entry := past.filter (·.answer = .accepted)

@[simp] theorem accepted_snoc (past : List Entry) (e : Entry) :
    accepted (past ++ [e]) = accepted past ++ if e.answer = .accepted then [e] else [] := by
  simp [accepted, List.filter_append, List.filter_singleton]

/-- A page with a ticket. -/
def Answer.isPage : Answer → Bool
  | .page _ => true
  | _ => false

/-- How many pages with a ticket a user was shown. -/
def pages (user : Nat) (past : List Entry) : Nat :=
  past.countP fun e => e.user = user ∧ e.answer.isPage

@[simp] theorem pages_snoc (user : Nat) (past : List Entry) (e : Entry) :
    pages user (past ++ [e]) = pages user past + if e.user = user ∧ e.answer.isPage then 1 else 0 := by
  simp [pages, List.countP_append, List.countP_singleton]

/-- The ticket of a session that can still be used counts as a page that nothing was accepted for. -/
def Session.unused (session : Session) : Nat := if session.ticket.isSome ∧ session.ticket ≠ some [] then 1 else 0

theorem unused_congr {a b : Session} (h : a.ticket = b.ticket) : a.unused = b.unused := by simp [Session.unused, h]

theorem unused_le (session : Session) : session.unused ≤ 1 := by
  unfold Session.unused
  split <;> omega

theorem unused_nil {session : Session} (h : session.ticket = some []) : session.unused = 0 := by
  simp [Session.unused, h]

theorem unused_cons {session : Session} {key : Str} (h : session.ticket = some key) (nonempty : key ≠ []) :
    session.unused = 1 := by
  simp [Session.unused, h, nonempty]

/-- What is accepted and what can still be accepted, for one user. -/
theorem pages_run (requests : List (Nat × Request)) (u : Nat) :
    (accepted (run fresh loose requests (start videos)).2).countP (·.user = u) +
        ((run fresh loose requests (start videos)).1.session u).unused ≤
      pages u (run fresh loose requests (start videos)).2 := by
  refine run_induction (P := fun _ r => (accepted r.2).countP (·.user = u) + (r.1.session u).unused ≤ pages u r.2)
    (by simp [accepted, pages, start, Session.unused]) (fun _ r user q ih => ?_) requests
  have step : Effect fresh r.1 user q (serve fresh loose r.1 user q) := serve_effect q
  generalize serve fresh loose r.1 user q = served at step
  cases step with
  | @page s' session =>
    by_cases hu : user = u
    · have := unused_le (s'.session u)
      simp [hu, Answer.isPage]
      omega
    · have := unused_congr ((session u).trans (if_neg (Ne.symm hu)))
      simpa [hu, this] using ih
  | accepted given held nonempty admitted session =>
    by_cases hu : user = u
    · subst hu
      have := unused_cons held nonempty
      have := unused_nil ((session user).trans (if_pos rfl))
      simp [Answer.isPage]
      omega
    · have := unused_congr ((session u).trans (if_neg (Ne.symm hu)))
      simpa [hu, this, Answer.isPage] using ih
  | @other s' answer notPage notAccepted refused session =>
    have := unused_congr (session u)
    have : answer.isPage = false := by cases answer <;> simp_all [Answer.isPage]
    simp only [accepted_snoc, pages_snoc, notAccepted, this]
    simpa [unused_congr (session u)] using ih

/-- How many views of a video were accepted. -/
def viewsOf (id : Nat) (past : List Entry) : Nat := ((accepted past).map (·.request.views id)).sum

/-- The request inserted a video. -/
def Entry.added (e : Entry) : Bool := e.answer = .accepted ∧ e.request.adds

/-- The video was uploaded: its id is one of those that were given, from `first` on. -/
def Uploaded (first id : Nat) (past : List Entry) : Prop := first ≤ id ∧ id < first + past.countP Entry.added

/-- The column `view` has what it had at first and one more for each view that was accepted, or, for a video that was
uploaded, one for each that was accepted since. -/
structure Counts (videos : Table) (past : List Entry) (id : Nat) (count : Option Nat) : Prop where
  old : ¬Uploaded videos.auto_increment id past → count = (videos.view id).map (· + viewsOf id past)
  new : ∀ before e after, past = before ++ e :: after → e.added →
    id = videos.auto_increment + before.countP Entry.added → count = videos.initial.map (· + viewsOf id after)

theorem viewsOf_snoc (id : Nat) (past : List Entry) (e : Entry) :
    viewsOf id (past ++ [e]) = viewsOf id past + if e.answer = .accepted then e.request.views id else 0 := by
  rw [viewsOf, accepted_snoc]
  split <;> simp [viewsOf]

theorem countP_added_snoc (past : List Entry) (e : Entry) :
    (past ++ [e]).countP Entry.added = past.countP Entry.added + if e.added then 1 else 0 := by
  rw [List.countP_append, List.countP_singleton]

/-- One more request: it inserts the video, or counts a view, or neither. -/
theorem Counts.snoc {past : List Entry} {id : Nat} {count count' : Option Nat} (h : Counts videos past id count)
    {e : Entry} (hcount : count' = if e.added ∧ id = videos.auto_increment + past.countP Entry.added then videos.initial
      else count.map (· + if e.answer = .accepted then e.request.views id else 0)) :
    Counts videos (past ++ [e]) id count' := by
  have hadd := countP_added_snoc past e
  constructor
  · intro hnot
    have hold : ¬Uploaded videos.auto_increment id past := fun hup => hnot ⟨hup.1, by have := hup.2; omega⟩
    have hother : ¬(e.added ∧ id = videos.auto_increment + past.countP Entry.added) := by
      rintro ⟨hadded, hid⟩
      rw [if_pos hadded] at hadd
      exact hnot ⟨by omega, by omega⟩
    rw [hcount, if_neg hother, h.old hold, viewsOf_snoc, Option.map_map]
    exact congrArg (fun f => (videos.view id).map f) (funext fun n => Nat.add_assoc ..)
  · intro before d after hpast hadded hid
    rcases List.eq_nil_or_concat after with rfl | ⟨rest, b, rfl⟩
    · -- the request itself inserts the video
      obtain ⟨rfl, hlast⟩ := List.append_inj' hpast rfl
      obtain rfl := List.singleton_inj.mp hlast
      rw [hcount, if_pos ⟨hadded, hid⟩]
      simp [viewsOf, accepted]
    · -- the video has been there
      obtain ⟨rfl, hlast⟩ := List.append_inj' (show past ++ [e] = (before ++ d :: rest) ++ [b] by simpa using hpast) rfl
      obtain rfl := List.singleton_inj.mp hlast
      have hbefore : before.countP Entry.added < (before ++ d :: rest).countP Entry.added := by
        rw [List.countP_append, List.countP_cons_of_pos hadded]
        omega
      rw [hcount, if_neg fun hnew => by omega, h.new before d rest rfl hadded hid, List.concat_eq_append, viewsOf_snoc,
        Option.map_map]
      exact congrArg (fun f => videos.initial.map f) (funext fun n => Nat.add_assoc ..)

/-- What the requests have done to the videos. -/
structure Viewed (videos : Table) (r : Site × List Entry) : Prop where
  initial : r.1.videos.initial = videos.initial
  auto_increment : r.1.videos.auto_increment = videos.auto_increment + r.2.countP Entry.added
  counts : ∀ id, Counts videos r.2 id (r.1.videos.view id)

theorem viewed_run (requests : List (Nat × Request)) : Viewed videos (run fresh loose requests (start videos)) := by
  refine run_induction (P := fun _ r => Viewed videos r) ?_ (fun _ r user q ih => ?_) requests
  · refine ⟨rfl, rfl, fun id => ⟨fun _ => ?_, fun before e after hpast => ?_⟩⟩
    · simp [viewsOf, accepted, start]
    · simp at hpast
  · have step : Effect fresh r.1 user q (serve fresh loose r.1 user q) := serve_effect q
    generalize serve fresh loose r.1 user q = served at step
    -- a request that is not accepted does nothing to the videos
    have quiet {s' : Site} {answer : Answer} (notAccepted : answer ≠ .accepted) (same : s'.videos = r.1.videos) :
        Viewed videos (s', r.2 ++ [⟨user, q, answer⟩]) := by
      have notAdded : (⟨user, q, answer⟩ : Entry).added = false := by simp [Entry.added, notAccepted]
      refine ⟨same ▸ ih.initial, ?_, fun id => (ih.counts id).snoc ?_⟩
      · rw [countP_added_snoc, notAdded, same]
        exact ih.auto_increment
      · simp [notAdded, notAccepted, same]
    cases step with
    | page _ _ same => exact quiet (by simp) same
    | other _ notAccepted _ _ _ same => exact quiet notAccepted same
    | @accepted s' _ _ _ _ _ _ _ acted =>
      have added : (⟨user, q, .accepted⟩ : Entry).added = q.adds := by simp [Entry.added]
      refine ⟨?_, ?_, fun id => (ih.counts id).snoc ?_⟩
      · rw [acted, Request.initial_acts, ih.initial]
      · rw [countP_added_snoc, added, acted, Request.auto_increment_acts, ih.auto_increment, Nat.add_assoc]
      · show s'.videos.view id = _
        rw [acted, Request.view_acts, added, ih.initial, ih.auto_increment]
        simp

/-- The tickets that have been used. -/
def used (past : List Entry) : List Str := (accepted past).filterMap (·.request.ticket?)

@[simp] theorem used_snoc (past : List Entry) (e : Entry) :
    used (past ++ [e]) = used past ++ if e.answer = .accepted then e.request.ticket?.toList else [] := by
  simp only [used, accepted_snoc, List.filterMap_append]
  split <;> cases h : e.request.ticket? <;> simp [h]

/-- Every ticket in a session is one that was issued, in no other session, and not used. -/
structure Fresh (fresh : Nat → Str) (s : Site) (past : List Entry) : Prop where
  issued : ∀ u key, (s.session u).ticket = some key → key ≠ [] → ∃ n < s.issued, fresh n = key
  apart : ∀ u v key, (s.session u).ticket = some key → key ≠ [] → (s.session v).ticket = some key → u = v
  spent : ∀ key ∈ used past, key ≠ [] ∧ (∃ n < s.issued, fresh n = key) ∧ ∀ u, (s.session u).ticket ≠ some key
  nodup : (used past).Nodup

namespace Fresh

variable {s' : Site} {past : List Entry} {user : Nat} (h : Fresh fresh s past)
include h

theorem page (injective : fresh.Injective)
    (session : ∀ u, (s'.session u).ticket = if u = user then some (fresh s.issued) else (s.session u).ticket)
    (count : s'.issued = s.issued + 1) : Fresh fresh s' past := by
  have new (n : Nat) (hn : n < s.issued) : fresh n ≠ fresh s.issued := fun same => hn.ne (injective same)
  refine ⟨fun u key hkey nonempty => ?_, fun u v key hu nonempty hv => ?_, fun key hkey => ?_, h.nodup⟩
  · rw [session] at hkey
    split at hkey
    · exact ⟨s.issued, by omega, Option.some.inj hkey⟩
    · obtain ⟨n, hn, same⟩ := h.issued u key hkey nonempty
      exact ⟨n, by omega, same⟩
  · rw [session] at hu hv
    split at hu <;> split at hv
    · simp_all
    · obtain ⟨n, hn, same⟩ := h.issued v key hv nonempty
      exact (new n hn (same.trans (Option.some.inj hu).symm)).elim
    · obtain ⟨n, hn, same⟩ := h.issued u key hu nonempty
      exact (new n hn (same.trans (Option.some.inj hv).symm)).elim
    · exact h.apart u v key hu nonempty hv
  · obtain ⟨nonempty, ⟨n, hn, same⟩, gone⟩ := h.spent key hkey
    refine ⟨nonempty, ⟨n, by omega, same⟩, fun u hu => ?_⟩
    rw [session] at hu
    split at hu
    · exact new n hn (same.trans (Option.some.inj hu).symm)
    · exact gone u hu

theorem accepted {q : Request} {key : Str} (given : q.ticket? = some key) (held : (s.session user).ticket = some key)
    (nonempty : key ≠ []) (session : ∀ u, (s'.session u).ticket = if u = user then some [] else (s.session u).ticket)
    (count : s'.issued = s.issued) : Fresh fresh s' (past ++ [⟨user, q, .accepted⟩]) := by
  have kept {u : Nat} {k : Str} (hk : (s'.session u).ticket = some k) (filled : k ≠ []) :
      u ≠ user ∧ (s.session u).ticket = some k := by
    rw [session] at hk
    split at hk
    · exact (filled (Option.some.inj hk).symm).elim
    · exact ⟨‹_›, hk⟩
  refine ⟨fun u k hk filled => ?_, fun u v k hu filled hv => ?_, fun k hk => ?_, ?_⟩
  · rw [count]
    exact h.issued u k (kept hk filled).2 filled
  · exact h.apart u v k (kept hu filled).2 filled (kept hv filled).2
  · rw [count]
    simp only [used_snoc, given, if_true, Option.toList_some, List.mem_append, List.mem_singleton] at hk
    obtain hk | rfl := hk
    · obtain ⟨filled, issued, gone⟩ := h.spent k hk
      exact ⟨filled, issued, fun u hu => gone u (kept hu filled).2⟩
    · exact ⟨nonempty, h.issued user k held nonempty, fun u hu =>
        (kept hu nonempty).1 (h.apart u user k (kept hu nonempty).2 nonempty held)⟩
  · have unspent : key ∉ used past := fun spent => (h.spent key spent).2.2 user held
    simpa [given, List.nodup_append] using ⟨h.nodup, fun k hk same => unspent (same ▸ hk)⟩

theorem congr (session : ∀ u, (s'.session u).ticket = (s.session u).ticket) (count : s'.issued = s.issued) :
    Fresh fresh s' past where
  issued u key := by simpa [session, count] using h.issued u key
  apart u v key := by simpa [session] using h.apart u v key
  spent key := by simpa [session, count] using h.spent key
  nodup := h.nodup

end Fresh

/-- No ticket is accepted twice, by whoever. -/
theorem used_once (fresh : Nat → Str) (injective : fresh.Injective) (loose : Str → Str → Bool)
    (videos : Table) (requests : List (Nat × Request)) :
    (used (run fresh loose requests (start videos)).2).Nodup := by
  refine (run_induction (P := fun _ r => Fresh fresh r.1 r.2) ?_ (fun _ r user q ih => ?_) requests).nodup
  · exact ⟨by simp [start], by simp [start], by simp [used, accepted], by simp [used, accepted]⟩
  · have step : Effect fresh r.1 user q (serve fresh loose r.1 user q) := serve_effect q
    generalize serve fresh loose r.1 user q = served at step
    cases step with
    | page session count =>
      have := ih.page injective session count
      exact ⟨this.issued, this.apart, by simpa using this.spent, by simpa using this.nodup⟩
    | accepted given held nonempty _ session count => exact ih.accepted given held nonempty session count
    | other notPage notAccepted refused session count =>
      have := ih.congr session count
      exact ⟨this.issued, this.apart, by simpa [notAccepted] using this.spent, by simpa [notAccepted] using this.nodup⟩

/-- A ticket that its user and another one send. -/
def replay : List (Nat × Request) :=
  [(1, .login (literal "x") true), (2, .login (literal "y") true), (1, .viewer), (2, .viewer),
    (2, .video (some (literal "0")) 5), (1, .video (some (literal "0")) 5), (1, .video (some (literal "0")) 5)]

/-- Some videos that nobody has seen. -/
def unseen : Table := ⟨fun id => if id < 10 then some 0 else none, some 0, 10⟩

theorem used_once_replay :
    used (run (List.replicate · 0x30 ++ literal "0") (· == ·) replay (start unseen)).2 = [literal "0"] ∧
    (used (run (List.replicate · 0x30 ++ literal "0") (· == ·) replay (start unseen)).2).Nodup :=
  ⟨by decide, used_once _ (fun m n same => by simpa using congrArg List.length same) _ _ _⟩

end Run

end LeftFelt.Web.Ticket
