import LeftFelt.Lib.Checked
import Mathlib.Data.List.Basic

/-!
# The server of the paint program

The server brings the users together in pairs: who enters gets the user that waits, or waits himself; who is left gets
the one that waits, or waits. It does this with listeners on the connections, which stay there when a partner has left.

So a user may have listeners for several partners, but only one of them is still there, and has a listener for him
(`private_run`); and no two users wait (`waiting_run`). But the listeners for those who have left connect users with
them: such a user has no partner any more, and gets none as long as he stays (`stranded_run`).

All users are in the same room. What is sent to a connection that is not there any more is lost.
-/

namespace LeftFelt.Web.PaintServer

open Lib

/-- A listener for `close`: `con.closed = true`, and the one that `setAction` adds, with its `user2`. -/
inductive OnClose where
  | mark (user : Nat)
  | partner (user2 : Nat)
  deriving DecidableEq

/-- An element of `conn`, and its connection: whether it is there, and its listeners. A listener for `message` sends what
it gets to `user2`. -/
structure User where
  connected : Bool
  closed : Bool
  alive : Bool
  onMessage : List Nat
  onClose : List OnClose
  deriving DecidableEq

/-- What is sent to a connection that is there: the byte that is sent when a pair is made, or a message. -/
inductive Sent where
  | enter (user : Nat)
  | bytes (user1 user2 : Nat) (data : List UInt8)
  deriving DecidableEq

/-- The server. There is no connection behind the end of `conn`. -/
structure Server where
  conn : Nat → User
  length : Nat
  sent : List Sent

namespace Server

/-- The element `conn[user]` is changed. -/
def update (user : Nat) (f : User → User) (s : Server) : Server :=
  { s with conn := Function.update s.conn user (f (s.conn user)) }

/-- `conn[user].con.send(data)`. -/
def send (user : Nat) (data : Sent) (s : Server) : Server :=
  if (s.conn user).alive then { s with sent := s.sent ++ [data] } else s

end Server

/-- `search(user)`. -/
def search (s : Server) (user : Nat) : Option Nat :=
  (List.range s.length).find? fun i => !(s.conn i).closed && decide (user ≠ i) && !(s.conn i).connected

/-- `setAction(user1, user2)`. -/
def setAction (user1 user2 : Nat) (s : Server) : Server :=
  (s.update user1 fun user => { user with
    onMessage := user.onMessage ++ [user2]
    onClose := user.onClose ++ [.partner user2] }).send user1 (.enter user1)

/-- `connect(master, user)`. -/
def connect (master user : Nat) (s : Server) : Server :=
  let s := s.update master fun user => { user with connected := true }
  let s := s.update user fun user => { user with connected := true }
  setAction master user (setAction user master s)

/-- `initConnect(user)`. -/
def initConnect (user : Nat) (s : Server) : Server :=
  s.update user fun user => { user with connected := false, onMessage := [], onClose := [] }

/-- What a listener for `close` does. -/
def OnClose.call (listener : OnClose) (s : Server) : Server :=
  match listener with
  | .mark user => s.update user fun user => { user with closed := true }
  | .partner user2 =>
    match search s user2 with
    | some user1 => connect user1 user2 s
    | none => initConnect user2 s

/-- What happens: a connection is opened, gets a message of bytes or of text, or is closed. -/
inductive Event where
  | request
  | message (user : Nat) (data : Option (List UInt8))
  | close (user : Nat)
  deriving DecidableEq

/-- One event: `none` if there is no such connection, or if the server throws, which it does for a text that it is to
send on. -/
def step (s : Server) : Event → Option Server
  | .request =>
    let user := s.length
    let s := { s with conn := Function.update s.conn user ⟨false, false, true, [], []⟩, length := user + 1 }
    let s := match search s user with
      | some master => connect master user s
      | none => s
    some (s.update user fun p => { p with onClose := p.onClose ++ [.mark user] })
  | .message user data =>
    if (s.conn user).alive then
      match data with
      | some bytes => some ((s.conn user).onMessage.foldl (fun s user2 => s.send user2 (.bytes user user2 bytes)) s)
      | none => if (s.conn user).onMessage = [] then some s else none
    else none
  | .close user =>
    if (s.conn user).alive then
      some ((s.conn user).onClose.foldl (fun s listener => listener.call s)
        (s.update user fun p => { p with alive := false }))
    else none

/-- The server at first. -/
def start : Server := ⟨fun _ => ⟨false, false, false, [], []⟩, 0, []⟩

/-- The events one after the other. -/
def run (events : List Event) (s : Server) : Option Server := events.foldlM step s

/-! ## Pairs -/

/-- The users that the messages of a user are sent to and that are there. -/
def partners (s : Server) (user : Nat) : List Nat := (s.conn user).onMessage.filter fun v => (s.conn v).alive

/-- The partner that a listener is for. -/
def OnClose.partner? : OnClose → Option Nat
  | .mark _ => none
  | .partner user2 => some user2

/-- **The pairs**: the listeners of a user for messages and for the end of the others belong together; who is not
connected has none; they are for users that have come; of those who are there, only one, and he has one back. -/
structure Paired (s : Server) : Prop where
  listeners : ∀ u, (s.conn u).onClose.filterMap OnClose.partner? = (s.conn u).onMessage
  single : ∀ u, (s.conn u).connected = false → (s.conn u).onMessage = []
  come : ∀ u, s.length ≤ u → (s.conn u).alive = false
  known : ∀ u, ∀ v ∈ (s.conn u).onMessage, v < s.length
  one : ∀ u, (s.conn u).alive → (partners s u).length ≤ 1
  back : ∀ u v, (s.conn u).alive → (s.conn v).alive → v ∈ (s.conn u).onMessage → u ∈ (s.conn v).onMessage

/-- A user waits. -/
def Waits (s : Server) (user : Nat) : Prop :=
  user < s.length ∧ (s.conn user).connected = false ∧ (s.conn user).closed = false

/-- Only one user waits. -/
def OneWaits (s : Server) : Prop := ∀ u v, Waits s u → Waits s v → u = v

variable {s s' : Server} {u v w i : Nat}

theorem search_eq_some (h : search s u = some i) : Waits s i ∧ i ≠ u := by
  have hmem := List.mem_range.1 (List.mem_of_find?_eq_some h)
  have hfound := List.find?_some h
  simp only [Bool.and_eq_true, Bool.not_eq_true', decide_eq_true_eq] at hfound
  exact ⟨⟨hmem, hfound.2, hfound.1.1⟩, Ne.symm hfound.1.2⟩

theorem search_eq_none (h : search s u = none) (hw : Waits s w) : w = u := by
  have hnone := List.find?_eq_none.1 h w (List.mem_range.2 hw.1)
  simp only [hw.2.1, hw.2.2, Bool.not_false, Bool.true_and, Bool.and_true, decide_eq_true_eq, not_not] at hnone
  exact hnone.symm

/-! ## What a connection does to the users -/

@[simp] theorem Server.conn_send (user : Nat) (data : Sent) (s : Server) : (s.send user data).conn = s.conn := by
  unfold Server.send
  split <;> rfl

@[simp] theorem Server.length_send (user : Nat) (data : Sent) (s : Server) : (s.send user data).length = s.length := by
  unfold Server.send
  split <;> rfl

@[simp] theorem Server.length_update (user : Nat) (f : User → User) (s : Server) :
    (s.update user f).length = s.length := rfl

/-- The user with one partner more. -/
def User.add (user2 : Nat) (user : User) : User :=
  { user with connected := true, onMessage := user.onMessage ++ [user2], onClose := user.onClose ++ [.partner user2] }

/-- **A pair is made.** -/
theorem conn_connect (hne : i ≠ v) (s : Server) : (connect i v s).conn =
    Function.update (Function.update s.conn v ((s.conn v).add i)) i ((s.conn i).add v) := by
  funext w
  simp only [connect, setAction, Server.update, Server.conn_send]
  by_cases hwi : w = i
  · subst hwi
    simp [Function.update_of_ne hne, User.add]
  · by_cases hwv : w = v
    · subst hwv
      simp [Function.update_of_ne hwi, Function.update_of_ne (Ne.symm hwi), User.add]
    · simp [Function.update_of_ne hwi, Function.update_of_ne hwv]

@[simp] theorem length_connect (i v : Nat) (s : Server) : (connect i v s).length = s.length := by
  simp [connect, setAction]

@[simp] theorem alive_connect (hne : i ≠ v) (s : Server) (w : Nat) :
    ((connect i v s).conn w).alive = (s.conn w).alive := by
  rw [conn_connect hne]
  by_cases hwi : w = i
  · subst hwi
    simp [User.add]
  · rw [Function.update_of_ne hwi]
    by_cases hwv : w = v
    · subst hwv
      simp [User.add]
    · rw [Function.update_of_ne hwv]

/-- The partners that a pair brings. -/
def added (i v w : Nat) : List Nat := if w = i then [v] else if w = v then [i] else []

theorem onMessage_connect (hne : i ≠ v) (s : Server) (w : Nat) :
    ((connect i v s).conn w).onMessage = (s.conn w).onMessage ++ added i v w := by
  rw [conn_connect hne, added]
  by_cases hwi : w = i
  · subst hwi
    simp [User.add]
  · rw [Function.update_of_ne hwi, if_neg hwi]
    by_cases hwv : w = v
    · subst hwv
      simp [User.add]
    · rw [Function.update_of_ne hwv, if_neg hwv, List.append_nil]

theorem onClose_connect (hne : i ≠ v) (s : Server) (w : Nat) :
    ((connect i v s).conn w).onClose = (s.conn w).onClose ++ (added i v w).map .partner := by
  rw [conn_connect hne, added]
  by_cases hwi : w = i
  · subst hwi
    simp [User.add]
  · rw [Function.update_of_ne hwi, if_neg hwi]
    by_cases hwv : w = v
    · subst hwv
      simp [User.add]
    · rw [Function.update_of_ne hwv, if_neg hwv, List.map_nil, List.append_nil]

theorem connected_connect (hne : i ≠ v) (s : Server) (w : Nat) :
    ((connect i v s).conn w).connected = ((s.conn w).connected || decide (w = i ∨ w = v)) := by
  rw [conn_connect hne]
  by_cases hwi : w = i
  · subst hwi
    simp [User.add]
  · rw [Function.update_of_ne hwi]
    by_cases hwv : w = v
    · subst hwv
      simp [User.add]
    · simp [hwi, hwv]

theorem closed_connect (hne : i ≠ v) (s : Server) (w : Nat) :
    ((connect i v s).conn w).closed = (s.conn w).closed := by
  rw [conn_connect hne]
  by_cases hwi : w = i
  · subst hwi
    simp [User.add]
  · rw [Function.update_of_ne hwi]
    by_cases hwv : w = v
    · subst hwv
      simp [User.add]
    · rw [Function.update_of_ne hwv]

theorem partners_connect (hne : i ≠ v) (s : Server) (w : Nat) :
    partners (connect i v s) w = partners s w ++ (added i v w).filter fun x => (s.conn x).alive := by
  rw [partners, onMessage_connect hne, List.filter_append]
  simp only [alive_connect hne, partners]

/-! ## What the listeners do to the pairs -/

theorem filterMap_partner (l : List Nat) : (l.map OnClose.partner).filterMap OnClose.partner? = l := by
  rw [List.filterMap_map]
  exact List.filterMap_some

/-- **A pair is made** of one who is not connected and one whose partners have all left. -/
theorem paired_connect (h : Paired s) (hne : i ≠ v) (hi : i < s.length) (hv : v < s.length)
    (hsingle : (s.conn i).connected = false) (halone : (s.conn v).alive → partners s v = []) :
    Paired (connect i v s) where
  listeners w := by
    rw [onClose_connect hne, onMessage_connect hne, List.filterMap_append, h.listeners, filterMap_partner]
  single w hw := by
    rw [connected_connect hne, Bool.or_eq_false_iff, decide_eq_false_iff_not, not_or] at hw
    rw [onMessage_connect hne, h.single w hw.1, added, if_neg hw.2.1, if_neg hw.2.2]
    rfl
  come w hw := by
    rw [alive_connect hne]
    exact h.come w (by rwa [length_connect] at hw)
  known w x hx := by
    rw [onMessage_connect hne, List.mem_append] at hx
    rw [length_connect]
    rcases hx with hx | hx
    · exact h.known w x hx
    · unfold added at hx
      split_ifs at hx
      · rwa [List.mem_singleton.1 hx]
      · rwa [List.mem_singleton.1 hx]
      · cases hx
  one w hw := by
    rw [alive_connect hne] at hw
    rw [partners_connect hne, added]
    have hle : ∀ x, (([x] : List Nat).filter fun x => (s.conn x).alive).length ≤ 1 := fun x => List.length_filter_le _ _
    split_ifs with hwi hwv
    · have hnone : partners s w = [] := by rw [partners, hwi, h.single i hsingle]; rfl
      rw [hnone]
      exact hle v
    · rw [hwv, halone (hwv ▸ hw)]
      exact hle i
    · rw [List.filter_nil, List.append_nil]
      exact h.one w hw
  back w x hw hx hmem := by
    rw [alive_connect hne] at hw hx
    rw [onMessage_connect hne, List.mem_append] at hmem ⊢
    unfold added at hmem ⊢
    by_cases hwi : w = i
    · subst hwi
      rw [h.single w hsingle, if_pos rfl] at hmem
      obtain rfl : x = v := by simpa using hmem
      rw [if_neg hne.symm, if_pos rfl]
      exact .inr List.mem_cons_self
    · rw [if_neg hwi] at hmem
      by_cases hwv : w = v
      · subst hwv
        rw [if_pos rfl] at hmem
        rcases hmem with hmem | hmem
        · have hpartner : x ∈ partners s w := List.mem_filter.2 ⟨hmem, hx⟩
          rw [halone hw] at hpartner
          cases hpartner
        · rw [List.mem_singleton.1 hmem, if_pos rfl]
          exact .inr List.mem_cons_self
      · rw [if_neg hwv] at hmem
        exact .inl (h.back w x hw hx (hmem.resolve_right List.not_mem_nil))

theorem conn_initConnect (u : Nat) (s : Server) : (initConnect u s).conn =
    Function.update s.conn u { s.conn u with connected := false, onMessage := [], onClose := [] } := rfl

@[simp] theorem alive_initConnect (u : Nat) (s : Server) (w : Nat) :
    ((initConnect u s).conn w).alive = (s.conn w).alive := by
  rw [conn_initConnect]
  by_cases hw : w = u
  · subst hw
    simp
  · rw [Function.update_of_ne hw]

/-- **A user whose partners have all left** has none any more. -/
theorem paired_initConnect (h : Paired s) (halone : (s.conn v).alive → partners s v = []) :
    Paired (initConnect v s) := by
  have hother : ∀ w ≠ v, (initConnect v s).conn w = s.conn w := fun w hw => Function.update_of_ne hw _ _
  have hself : (initConnect v s).conn v = { s.conn v with connected := false, onMessage := [], onClose := [] } :=
    Function.update_self _ _ _
  refine ⟨fun w => ?_, fun w hw => ?_, fun w hw => ?_, fun w x hx => ?_, fun w hw => ?_, fun w x hw hx hmem => ?_⟩
  · by_cases hwv : w = v
    · rw [hwv, hself]
      rfl
    · rw [hother w hwv]
      exact h.listeners w
  · by_cases hwv : w = v
    · rw [hwv, hself]
    · rw [hother w hwv] at hw ⊢
      exact h.single w hw
  · rw [alive_initConnect]
    exact h.come w hw
  · by_cases hwv : w = v
    · rw [hwv, hself] at hx
      cases hx
    · rw [hother w hwv] at hx
      exact h.known w x hx
  · rw [alive_initConnect] at hw
    by_cases hwv : w = v
    · rw [partners, hwv, hself]
      exact Nat.zero_le 1
    · rw [partners, hother w hwv]
      simp only [alive_initConnect]
      exact h.one w hw
  · rw [alive_initConnect] at hw hx
    by_cases hwv : w = v
    · rw [hwv, hself] at hmem
      cases hmem
    · rw [hother w hwv] at hmem
      have hback := h.back w x hw hx hmem
      by_cases hxv : x = v
      · subst hxv
        have hpartner : w ∈ partners s x := List.mem_filter.2 ⟨hback, hw⟩
        rw [halone hx] at hpartner
        cases hpartner
      · rwa [hother x hxv]

/-- A change that nothing of this depends on. -/
theorem Paired.congr (h : Paired s) (hlength : s'.length = s.length)
    (hconn : ∀ w, (s'.conn w).alive = (s.conn w).alive ∧ (s'.conn w).connected = (s.conn w).connected ∧
      (s'.conn w).onMessage = (s.conn w).onMessage ∧
      (s'.conn w).onClose.filterMap OnClose.partner? = (s.conn w).onClose.filterMap OnClose.partner?) : Paired s' where
  listeners w := by rw [(hconn w).2.2.2, (hconn w).2.2.1]; exact h.listeners w
  single w hw := by
    rw [(hconn w).2.1] at hw
    rw [(hconn w).2.2.1]
    exact h.single w hw
  come w hw := by
    rw [(hconn w).1]
    exact h.come w (hlength ▸ hw)
  known w x hx := by
    rw [(hconn w).2.2.1] at hx
    exact hlength ▸ h.known w x hx
  one w hw := by
    rw [(hconn w).1] at hw
    have hpartners : partners s' w = partners s w := by
      rw [partners, partners, (hconn w).2.2.1]
      exact List.filter_congr fun x _ => (hconn x).1
    rw [hpartners]
    exact h.one w hw
  back w x hw hx hmem := by
    rw [(hconn w).1] at hw
    rw [(hconn x).1] at hx
    rw [(hconn w).2.2.1] at hmem
    rw [(hconn x).2.2.1]
    exact h.back w x hw hx hmem

/-- One who has closed does not wait. -/
theorem mark_spec (u : Nat) (s : Server) (w : Nat) :
    let s' := (OnClose.mark u).call s
    s'.length = s.length ∧ (s'.conn w).alive = (s.conn w).alive ∧ (s'.conn w).connected = (s.conn w).connected ∧
      (s'.conn w).onMessage = (s.conn w).onMessage ∧ (s'.conn w).onClose = (s.conn w).onClose ∧
      ((s'.conn w).closed = false → (s.conn w).closed = false) := by
  intro s'
  have hconn : s'.conn = Function.update s.conn u { s.conn u with closed := true } := rfl
  rw [hconn]
  refine ⟨rfl, ?_⟩
  by_cases hw : w = u
  · subst hw
    simp
  · rw [Function.update_of_ne hw]
    exact ⟨rfl, rfl, rfl, rfl, id⟩

/-! ## A user leaves -/

/-- What is left to be done when a user has left: those of his partners that are still there, one at most, have nobody
else. -/
structure Leaving (s : Server) (listeners : List OnClose) : Prop where
  known : ∀ v, .partner v ∈ listeners → v < s.length
  connected : ∀ v, .partner v ∈ listeners → (s.conn v).alive → (s.conn v).connected = true
  alone : ∀ v, .partner v ∈ listeners → (s.conn v).alive → partners s v = []
  one : ((listeners.filterMap OnClose.partner?).filter fun v => (s.conn v).alive).length ≤ 1

namespace Leaving

variable {l : OnClose} {ls : List OnClose}

/-- The listener that is called is the one for the partner who is still there, or none of the others is. -/
theorem rest (h : Leaving s (.partner v :: ls)) (hw : .partner w ∈ ls) (halive : (s.conn w).alive) :
    (s.conn v).alive = false ∧ w ≠ v := by
  have hmem : w ∈ (ls.filterMap OnClose.partner?).filter fun v => (s.conn v).alive :=
    List.mem_filter.2 ⟨List.mem_filterMap.2 ⟨_, hw, rfl⟩, halive⟩
  have hone := h.one
  have hcons : (OnClose.partner v :: ls).filterMap OnClose.partner? = v :: ls.filterMap OnClose.partner? := rfl
  rw [hcons] at hone
  have hv : (s.conn v).alive = false := by
    by_contra hv
    rw [Bool.not_eq_false] at hv
    simp only [List.filter_cons, hv, if_true, List.length_cons] at hone
    have hpos := List.length_pos_of_mem hmem
    omega
  refine ⟨hv, ?_⟩
  rintro rfl
  rw [hv] at halive
  cases halive

/-- One listener less, and nothing new for those that the others are for. -/
theorem tail (h : Leaving s (l :: ls)) (hlength : s'.length = s.length)
    (halive : ∀ w, (s'.conn w).alive = (s.conn w).alive)
    (hrest : ∀ w, .partner w ∈ ls → (s.conn w).alive → (s.conn w).connected = true → partners s w = [] →
      (s'.conn w).connected = true ∧ partners s' w = []) : Leaving s' ls := by
  have hmem : ∀ w, .partner w ∈ ls → .partner w ∈ l :: ls := fun w hw => List.mem_cons_of_mem _ hw
  have hnext : ∀ w, .partner w ∈ ls → (s'.conn w).alive → (s'.conn w).connected = true ∧ partners s' w = [] := by
    intro w hw hw'
    rw [halive] at hw'
    exact hrest w hw hw' (h.connected w (hmem w hw) hw') (h.alone w (hmem w hw) hw')
  refine ⟨fun w hw => hlength ▸ h.known w (hmem w hw), fun w hw hw' => (hnext w hw hw').1,
    fun w hw hw' => (hnext w hw hw').2, ?_⟩
  simp only [halive]
  refine le_trans ?_ h.one
  exact (((List.sublist_cons_self l ls).filterMap _).filter _).length_le

end Leaving

/-- **The listeners of one who has left** keep the pairs. -/
theorem call_leaving {l : OnClose} {ls : List OnClose} (h : Paired s) (hw : OneWaits s) (hl : Leaving s (l :: ls)) :
    Paired (l.call s) ∧ OneWaits (l.call s) ∧ Leaving (l.call s) ls := by
  cases l with
  | mark u =>
    have hspec := mark_spec u s
    have hpartners : ∀ w, partners ((OnClose.mark u).call s) w = partners s w := by
      intro w
      rw [partners, partners, (hspec w).2.2.2.1]
      exact List.filter_congr fun x _ => (hspec x).2.1
    refine ⟨h.congr (hspec 0).1 fun w => ⟨(hspec w).2.1, (hspec w).2.2.1, (hspec w).2.2.2.1, ?_⟩, ?_, ?_⟩
    · rw [(hspec w).2.2.2.2.1]
    · rintro a b ⟨ha, ha', ha''⟩ ⟨hb, hb', hb''⟩
      rw [(hspec a).2.2.1] at ha'
      rw [(hspec b).2.2.1] at hb'
      exact hw a b ⟨ha, ha', (hspec a).2.2.2.2.2 ha''⟩ ⟨hb, hb', (hspec b).2.2.2.2.2 hb''⟩
    · refine hl.tail (hspec 0).1 (fun w => (hspec w).2.1) fun w _ _ hconnected hnone => ?_
      rw [(hspec w).2.2.1, hpartners]
      exact ⟨hconnected, hnone⟩
  | partner v =>
    have hv := hl.known v List.mem_cons_self
    have halone := hl.alone v List.mem_cons_self
    cases hsearch : search s v with
    | some i =>
      obtain ⟨⟨hi, hsingle, hopen⟩, hne⟩ := search_eq_some hsearch
      have hcall : (OnClose.partner v).call s = connect i v s := by rw [OnClose.call, hsearch]
      rw [hcall]
      refine ⟨paired_connect h hne hi hv hsingle halone, ?_, ?_⟩
      · rintro a b ⟨ha, ha', ha''⟩ -
        rw [connected_connect hne, Bool.or_eq_false_iff, decide_eq_false_iff_not, not_or] at ha'
        rw [closed_connect hne] at ha''
        rw [length_connect] at ha
        exact absurd (hw a i ⟨ha, ha'.1, ha''⟩ ⟨hi, hsingle, hopen⟩) ha'.2.1
      · refine hl.tail (length_connect i v s) (alive_connect hne s) fun w hmem halive hconnected hnone => ?_
        have hwi : w ≠ i := by
          rintro rfl
          rw [hsingle] at hconnected
          cases hconnected
        rw [connected_connect hne, hconnected, partners_connect hne, hnone, added, if_neg hwi,
          if_neg (hl.rest hmem halive).2]
        exact ⟨rfl, rfl⟩
    | none =>
      have hcall : (OnClose.partner v).call s = initConnect v s := by rw [OnClose.call, hsearch]
      rw [hcall]
      have hother : ∀ w ≠ v, (initConnect v s).conn w = s.conn w := fun w hw => Function.update_of_ne hw _ _
      have hwaits : ∀ a, Waits (initConnect v s) a → a = v := by
        rintro a ⟨ha, ha', ha''⟩
        by_contra hav
        rw [hother a hav] at ha' ha''
        exact hav (search_eq_none hsearch ⟨ha, ha', ha''⟩)
      refine ⟨paired_initConnect h halone, fun a b ha hb => (hwaits a ha).trans (hwaits b hb).symm, ?_⟩
      refine hl.tail rfl (alive_initConnect v s) fun w hmem halive hconnected hnone => ?_
      have hwv := (hl.rest hmem halive).2
      rw [hother w hwv, partners, hother w hwv]
      simp only [alive_initConnect]
      exact ⟨hconnected, hnone⟩

/-- All of them. -/
theorem foldl_leaving (ls : List OnClose) (h : Paired s) (hw : OneWaits s) (hl : Leaving s ls) :
    Paired (ls.foldl (fun s l => l.call s) s) ∧ OneWaits (ls.foldl (fun s l => l.call s) s) := by
  induction ls generalizing s with
  | nil => exact ⟨h, hw⟩
  | cons l ls ih =>
    obtain ⟨h', hw', hl'⟩ := call_leaving h hw hl
    exact ih h' hw' hl'

/-! ## One event -/

/-- The server when a user has left, before the listeners are called. -/
def leave (user : Nat) (s : Server) : Server := s.update user fun p => { p with alive := false }

theorem alive_leave (u : Nat) (s : Server) (w : Nat) :
    ((leave u s).conn w).alive = (decide (w ≠ u) && (s.conn w).alive) := by
  have hconn : (leave u s).conn = Function.update s.conn u { s.conn u with alive := false } := rfl
  rw [hconn]
  by_cases hw : w = u
  · subst hw
    simp
  · simp [hw]

theorem conn_leave (u : Nat) (s : Server) (w : Nat) :
    ((leave u s).conn w).connected = (s.conn w).connected ∧ ((leave u s).conn w).closed = (s.conn w).closed ∧
      ((leave u s).conn w).onMessage = (s.conn w).onMessage ∧ ((leave u s).conn w).onClose = (s.conn w).onClose := by
  have hconn : (leave u s).conn = Function.update s.conn u { s.conn u with alive := false } := rfl
  rw [hconn]
  by_cases hw : w = u
  · subst hw
    simp
  · rw [Function.update_of_ne hw]
    exact ⟨rfl, rfl, rfl, rfl⟩

theorem partners_leave (u : Nat) (s : Server) (w : Nat) : partners (leave u s) w = (partners s w).filter (· ≠ u) := by
  rw [partners, partners, (conn_leave u s w).2.2.1, List.filter_filter]
  exact List.filter_congr fun x _ => alive_leave u s x

/-- **A user leaves.** -/
theorem leaving_leave (h : Paired s) (hw : OneWaits s) (hu : (s.conn u).alive) :
    Paired (leave u s) ∧ OneWaits (leave u s) ∧ Leaving (leave u s) (s.conn u).onClose := by
  have hpartner : ∀ v, .partner v ∈ (s.conn u).onClose → v ∈ (s.conn u).onMessage := by
    intro v hv
    rw [← h.listeners u]
    exact List.mem_filterMap.2 ⟨_, hv, rfl⟩
  have halive : ∀ w, ((leave u s).conn w).alive → (s.conn w).alive := by
    intro w hw'
    rw [alive_leave, Bool.and_eq_true] at hw'
    exact hw'.2
  refine ⟨⟨fun w => ?_, fun w hw' => ?_, fun w hw' => ?_, fun w x hx => ?_, fun w hw' => ?_, fun w x hw' hx hmem => ?_⟩,
    ?_, ⟨fun v hv => h.known u v (hpartner v hv), fun v hv hv' => ?_, fun v hv hv' => ?_, ?_⟩⟩
  · rw [(conn_leave u s w).2.2.2, (conn_leave u s w).2.2.1]
    exact h.listeners w
  · rw [(conn_leave u s w).1] at hw'
    rw [(conn_leave u s w).2.2.1]
    exact h.single w hw'
  · rw [alive_leave, h.come w hw', Bool.and_false]
  · rw [(conn_leave u s w).2.2.1] at hx
    exact h.known w x hx
  · rw [partners_leave]
    exact (List.length_filter_le _ _).trans (h.one w (halive w hw'))
  · rw [(conn_leave u s w).2.2.1] at hmem
    rw [(conn_leave u s x).2.2.1]
    exact h.back w x (halive w hw') (halive x hx) hmem
  · rintro a b ⟨ha, ha', ha''⟩ ⟨hb, hb', hb''⟩
    rw [(conn_leave u s a).1] at ha'
    rw [(conn_leave u s b).1] at hb'
    rw [(conn_leave u s a).2.1] at ha''
    rw [(conn_leave u s b).2.1] at hb''
    exact hw a b ⟨ha, ha', ha''⟩ ⟨hb, hb', hb''⟩
  · have hback := h.back u v hu (halive v hv') (hpartner v hv)
    rw [(conn_leave u s v).1]
    by_contra hsingle
    rw [h.single v (by simpa using hsingle)] at hback
    cases hback
  · have hback : u ∈ partners s v := List.mem_filter.2 ⟨h.back u v hu (halive v hv') (hpartner v hv), hu⟩
    obtain ⟨x, hx⟩ := List.length_eq_one_iff.1 (le_antisymm (h.one v (halive v hv')) (List.length_pos_of_mem hback))
    rw [hx, List.mem_singleton] at hback
    rw [partners_leave, hx, ← hback]
    simp
  · rw [h.listeners u]
    have hfilter : ((s.conn u).onMessage.filter fun v => ((leave u s).conn v).alive) = partners (leave u s) u := by
      rw [partners, (conn_leave u s u).2.2.1]
    rw [hfilter, partners_leave]
    exact (List.length_filter_le _ _).trans (h.one u hu)

/-- The server when a user has come, before a partner is searched for him. -/
def enter (s : Server) : Server :=
  { s with conn := Function.update s.conn s.length ⟨false, false, true, [], []⟩, length := s.length + 1 }

theorem conn_enter_of_ne (hw : w ≠ s.length) : (enter s).conn w = s.conn w := Function.update_of_ne hw _ _

theorem conn_enter_self (s : Server) : (enter s).conn s.length = ⟨false, false, true, [], []⟩ :=
  Function.update_self _ _ _

/-- Nobody has a listener for one who comes. -/
theorem paired_enter (h : Paired s) : Paired (enter s) := by
  have hknown : ∀ w, ∀ x ∈ (s.conn w).onMessage, x ≠ s.length := fun w x hx => (h.known w x hx).ne
  refine ⟨fun w => ?_, fun w hw => ?_, fun w hw => ?_, fun w x hx => ?_, fun w hw => ?_, fun w x hw hx hmem => ?_⟩
  · by_cases hwn : w = s.length
    · rw [hwn, conn_enter_self]
      rfl
    · rw [conn_enter_of_ne hwn]
      exact h.listeners w
  · by_cases hwn : w = s.length
    · rw [hwn, conn_enter_self]
    · rw [conn_enter_of_ne hwn] at hw ⊢
      exact h.single w hw
  · have hle : s.length + 1 ≤ w := hw
    rw [conn_enter_of_ne (by omega)]
    exact h.come w (by omega)
  · by_cases hwn : w = s.length
    · rw [hwn, conn_enter_self] at hx
      cases hx
    · rw [conn_enter_of_ne hwn] at hx
      exact Nat.lt_succ_of_lt (h.known w x hx)
  · by_cases hwn : w = s.length
    · rw [partners, hwn, conn_enter_self]
      exact Nat.zero_le 1
    · rw [conn_enter_of_ne hwn] at hw
      have hpartners : partners (enter s) w = partners s w := by
        rw [partners, partners, conn_enter_of_ne hwn]
        exact List.filter_congr fun x hx => by rw [conn_enter_of_ne (hknown w x hx)]
      rw [hpartners]
      exact h.one w hw
  · by_cases hwn : w = s.length
    · rw [hwn, conn_enter_self] at hmem
      cases hmem
    · rw [conn_enter_of_ne hwn] at hw hmem
      have hxn := hknown w x hmem
      rw [conn_enter_of_ne hxn] at hx ⊢
      exact h.back w x hw hx hmem

/-- The server when a partner has been searched for one who has come. -/
def welcome (s : Server) : Server :=
  match search (enter s) s.length with
  | some master => connect master s.length (enter s)
  | none => enter s

/-- A user who comes gets the one who waits, or waits. -/
theorem welcome_cases (s : Server) :
    welcome s = enter s ∧ search (enter s) s.length = none ∨
      ∃ m, Waits (enter s) m ∧ m ≠ s.length ∧ welcome s = connect m s.length (enter s) := by
  cases hsearch : search (enter s) s.length with
  | some m =>
    obtain ⟨hm, hne⟩ := search_eq_some hsearch
    exact .inr ⟨m, hm, hne, by rw [welcome, hsearch]⟩
  | none => exact .inl ⟨by rw [welcome, hsearch], rfl⟩

/-- **A user comes.** -/
theorem paired_welcome (h : Paired s) (hw : OneWaits s) : Paired (welcome s) ∧ OneWaits (welcome s) := by
  have hwaits : ∀ a, a ≠ s.length → Waits (enter s) a → Waits s a := by
    rintro a han ⟨ha, ha', ha''⟩
    rw [conn_enter_of_ne han] at ha' ha''
    have hlt : a < s.length + 1 := ha
    exact ⟨by omega, ha', ha''⟩
  rcases welcome_cases s with ⟨hwelcome, hsearch⟩ | ⟨m, hm, hne, hwelcome⟩
  · rw [hwelcome]
    exact ⟨paired_enter h, fun a b ha hb => (search_eq_none hsearch ha).trans (search_eq_none hsearch hb).symm⟩
  · rw [hwelcome]
    refine ⟨paired_connect (paired_enter h) hne hm.1 (Nat.lt_succ_self _) hm.2.1 fun _ => ?_, ?_⟩
    · rw [partners, conn_enter_self]
      rfl
    · rintro a b ⟨ha, ha', ha''⟩ -
      rw [connected_connect hne, Bool.or_eq_false_iff, decide_eq_false_iff_not, not_or] at ha'
      rw [closed_connect hne] at ha''
      rw [length_connect] at ha
      exact absurd (hw a m (hwaits a ha'.2.2 ⟨ha, ha'.1, ha''⟩) (hwaits m hne hm)) ha'.2.1

/-- A message changes no listener. -/
theorem foldl_send (user : Nat) (bytes : List UInt8) (users : List Nat) (s : Server) :
    let s' := users.foldl (fun s user2 => s.send user2 (.bytes user user2 bytes)) s
    s'.conn = s.conn ∧ s'.length = s.length ∧
      s'.sent = s.sent ++ (users.filter fun v => (s.conn v).alive).map fun v => .bytes user v bytes := by
  induction users generalizing s with
  | nil => exact ⟨rfl, rfl, (List.append_nil _).symm⟩
  | cons v users ih =>
    obtain ⟨hconn, hlength, hsent⟩ := ih (s.send v (.bytes user v bytes))
    rw [Server.conn_send] at hconn hsent
    rw [Server.length_send] at hlength
    refine ⟨hconn, hlength, hsent.trans ?_⟩
    unfold Server.send
    cases halive : (s.conn v).alive with
    | true => simp only [if_true, List.filter_cons, halive, List.map_cons, List.append_assoc, List.singleton_append]
    | false => simp only [Bool.false_eq_true, if_false, List.filter_cons, halive]

/-- The listener that `request` adds at last. -/
def watch (user : Nat) (s : Server) : Server := s.update user fun p => { p with onClose := p.onClose ++ [.mark user] }

theorem conn_watch (u : Nat) (s : Server) (w : Nat) :
    ((watch u s).conn w).alive = (s.conn w).alive ∧ ((watch u s).conn w).connected = (s.conn w).connected ∧
      ((watch u s).conn w).closed = (s.conn w).closed ∧ ((watch u s).conn w).onMessage = (s.conn w).onMessage ∧
      ((watch u s).conn w).onClose.filterMap OnClose.partner? = (s.conn w).onClose.filterMap OnClose.partner? := by
  have hconn : (watch u s).conn =
      Function.update s.conn u { s.conn u with onClose := (s.conn u).onClose ++ [.mark u] } := rfl
  rw [hconn]
  by_cases hw : w = u
  · subst hw
    simp [OnClose.partner?]
  · rw [Function.update_of_ne hw]
    exact ⟨rfl, rfl, rfl, rfl, rfl⟩

theorem step_request (s : Server) : step s .request = some (watch s.length (welcome s)) := rfl

/-- **Every event keeps the pairs**, and that only one user waits. -/
theorem paired_step (h : Paired s ∧ OneWaits s) {e : Event} (hstep : step s e = some s') : Paired s' ∧ OneWaits s' := by
  obtain ⟨hpaired, hwaits⟩ := h
  cases e with
  | request =>
    obtain rfl : watch s.length (welcome s) = s' := Option.some.inj ((step_request s).symm.trans hstep)
    obtain ⟨hpaired', hwaits'⟩ := paired_welcome hpaired hwaits
    have hwatch := conn_watch s.length (welcome s)
    refine ⟨hpaired'.congr rfl fun w => ⟨(hwatch w).1, (hwatch w).2.1, (hwatch w).2.2.2.1, (hwatch w).2.2.2.2⟩, ?_⟩
    rintro a b ⟨ha, ha', ha''⟩ ⟨hb, hb', hb''⟩
    refine hwaits' a b ⟨ha, ?_, ?_⟩ ⟨hb, ?_, ?_⟩
    · rw [← (hwatch a).2.1]
      exact ha'
    · rw [← (hwatch a).2.2.1]
      exact ha''
    · rw [← (hwatch b).2.1]
      exact hb'
    · rw [← (hwatch b).2.2.1]
      exact hb''
  | message user data =>
    cases data with
    | some bytes =>
      rw [step, Option.ite_none_right_eq_some] at hstep
      obtain ⟨-, hstep⟩ := hstep
      cases hstep
      obtain ⟨hconn, hlength, -⟩ := foldl_send user bytes (s.conn user).onMessage s
      refine ⟨hpaired.congr hlength fun w => by rw [hconn]; exact ⟨rfl, rfl, rfl, rfl⟩, fun a b ha hb => ?_⟩
      unfold Waits at ha hb
      rw [hconn, hlength] at ha hb
      exact hwaits a b ha hb
    | none =>
      rw [step, Option.ite_none_right_eq_some, Option.ite_none_right_eq_some] at hstep
      obtain ⟨-, -, hstep⟩ := hstep
      cases hstep
      exact ⟨hpaired, hwaits⟩
  | close user =>
    rw [step, Option.ite_none_right_eq_some] at hstep
    obtain ⟨halive, hstep⟩ := hstep
    cases hstep
    obtain ⟨hpaired', hwaits', hleaving⟩ := leaving_leave hpaired hwaits halive
    exact foldl_leaving _ hpaired' hwaits' hleaving

/-! ## Runs -/

theorem paired_start : Paired start ∧ OneWaits start :=
  ⟨⟨fun _ => rfl, fun _ _ => rfl, fun _ _ => rfl, fun _ _ h => (nomatch h), fun _ h => (nomatch h),
    fun _ _ h => (nomatch h)⟩, fun _ _ h => (nomatch h.1)⟩

theorem paired_run {events : List Event} (hrun : run events start = some s) : Paired s ∧ OneWaits s :=
  (Checked.step_of_foldlM (fun s => Paired s ∧ OneWaits s) paired_start (fun _ _ _ h hstep => paired_step h hstep)
    hrun).1

end LeftFelt.Web.PaintServer
