import LeftFelt.Web.Paint
import LeftFelt.Web.PaintPairs

/-!
# Drawing together

The pages of the users and the server of the paint program, with what is on its way between them. While two users are
together, what one of them draws comes to the other one, once and in its order (`drawings_run`); only the test button
overtakes the commands that wait in the buffer. Nothing that a page sends makes the server throw (`deliver_run`).

A page handles what it gets in its order; the text that the server sends when a pair is made is no drawing.
-/

namespace LeftFelt.Web.PaintSystem

open Paint (Sender Draw onmessage createCommand CommandList)
open PaintServer (Server Sent OnClose Paired OneWaits Marked Settled partners partner)

/-- The pages and the server: of the messages of a user the server has taken the first ones, and of the messages for him
his page has handled the first ones. -/
structure System where
  server : Server
  page : Nat → Sender
  taken : Nat → Nat
  heard : Nat → Nat

/-- `testButton()`: a command for the end of a stroke, which is sent at once. -/
def testButton (e : Paint.Event) (s : Sender) : Sender := { s with sent := s.sent ++ [some e.bytes] }

/-- The command of `testButton()`. -/
def testEvent (selectedCommand : String) (h : selectedCommand ∈ CommandList) : Paint.Event :=
  ⟨selectedCommand, "end", 512, 128, h, by decide, by decide, by decide⟩

/-- What happens: a page is opened, something is done in it, its test button is pressed, its next message gets to the
server, it is closed, or it gets its next message. -/
inductive Event where
  | enter
  | page (user : Nat) (op : Paint.Op)
  | test (user : Nat) (selectedCommand : String) (h : selectedCommand ∈ CommandList)
  | deliver (user : Nat)
  | leave (user : Nat)
  | receive (user : Nat)

/-- What the server has sent to a user: a text, or bytes. -/
def incoming (s : Server) (user : Nat) : List (Option (List UInt8)) :=
  s.sent.filterMap fun
    | .enter u => if u = user then some none else none
    | .bytes _ u data => if u = user then some (some data) else none

/-- One event: `none` if it cannot happen, or if the server throws. -/
def step (s : System) : Event → Option System
  | .enter => (PaintServer.step s.server .request).map fun server => { s with server }
  | .page user op =>
    if (s.server.conn user).alive then
      some { s with page := Function.update s.page user (Paint.step (s.page user) op) }
    else none
  | .test user selectedCommand h =>
    if (s.server.conn user).alive then
      some { s with page := Function.update s.page user (testButton (testEvent selectedCommand h) (s.page user)) }
    else none
  | .deliver user => (s.page user).sent[s.taken user]?.bind fun data =>
    (PaintServer.step s.server (.message user data)).map fun server =>
      { s with server, taken := Function.update s.taken user (s.taken user + 1) }
  | .leave user => (PaintServer.step s.server (.close user)).map fun server => { s with server }
  | .receive user =>
    if s.heard user < (incoming s.server user).length then
      some { s with heard := Function.update s.heard user (s.heard user + 1) }
    else none

/-- At first nobody is there. -/
def start : System := ⟨PaintServer.start, fun _ => ⟨.uint8Array [], []⟩, fun _ => 0, fun _ => 0⟩

/-- The events one after the other. -/
def run (events : List Event) (s : System) : Option System := events.foldlM step s

/-- What a user draws. -/
def drawn (user : Nat) : Event → List Draw
  | .page u (.draw e) => if u = user then [e.draw] else []
  | .test u selectedCommand h => if u = user then [(testEvent selectedCommand h).draw] else []
  | _ => []

/-- What the page of a user has drawn for the messages that it has handled. -/
def canvas (s : System) (user : Nat) : List Draw := ((incoming s.server user).take (s.heard user)).flatMap onmessage

/-- What is on its way from one user to the other: to his page, to the server, and in the buffer. -/
def inFlight (s : System) (user1 user2 : Nat) : List Draw :=
  ((incoming s.server user2).drop (s.heard user2)).flatMap onmessage ++
    ((s.page user1).sent.drop (s.taken user1)).flatMap onmessage ++ onmessage (some (s.page user1).Commands.elements)

/-- **What always holds**: the pairs of the server; commands wait as whole ones, and only bytes have been sent. -/
structure Sound (s : System) : Prop where
  paired : Paired s.server ∧ OneWaits s.server
  marked : Marked s.server
  waiting : ∀ u, ∃ es : List Paint.Event, (s.page u).Commands.elements = es.flatMap Paint.Event.bytes
  bytes : ∀ u, ∀ data ∈ (s.page u).sent, data.isSome
  taken : ∀ u, s.taken u ≤ (s.page u).sent.length

variable {s s' : System} {t t' : Server} {u v w : Nat} {e : Event}

/-! ## What the server sends -/

/-- What the messages for a user draw. -/
def drawings (t : Server) (user : Nat) : List Draw := (incoming t user).flatMap onmessage

theorem drawings_send_enter (w x : Nat) (t : Server) (v : Nat) : drawings (t.send w (.enter x)) v = drawings t v := by
  unfold Server.send
  split
  · rw [drawings, incoming, List.filterMap_append, List.flatMap_append]
    by_cases hx : x = v
    · simp [hx, drawings, incoming, onmessage, Lib.Records.scan, Paint.DATA_SIZE]
    · simp [hx, drawings, incoming]
  · rfl

theorem drawings_connect (i w : Nat) (t : Server) (v : Nat) : drawings (PaintServer.connect i w t) v = drawings t v := by
  rw [PaintServer.connect, PaintServer.setAction, drawings_send_enter]
  exact drawings_send_enter _ _ _ v

theorem drawings_foldl (ls : List OnClose) (t : Server) (v : Nat) :
    drawings (ls.foldl (fun t l => l.call t) t) v = drawings t v := by
  induction ls generalizing t with
  | nil => rfl
  | cons l ls ih =>
    rw [List.foldl_cons, ih]
    cases l with
    | mark w => rfl
    | partner w =>
      cases hsearch : PaintServer.search t w with
      | some i => rw [OnClose.call, hsearch, drawings_connect]
      | none => rw [OnClose.call, hsearch]; rfl

/-- Who comes and who leaves sends no drawing. -/
theorem drawings_request (h : PaintServer.step t .request = some t') (v : Nat) : drawings t' v = drawings t v := by
  obtain rfl := Option.some.inj ((PaintServer.step_request t).symm.trans h)
  show drawings (PaintServer.welcome t) v = _
  rcases PaintServer.welcome_cases t with ⟨hwelcome, -⟩ | ⟨m, -, -, hwelcome⟩
  · rw [hwelcome]
    rfl
  · rw [hwelcome, drawings_connect]
    rfl

theorem drawings_close (h : PaintServer.step t (.close w) = some t') (v : Nat) : drawings t' v = drawings t v := by
  rw [PaintServer.step, Option.ite_none_right_eq_some] at h
  obtain ⟨-, h⟩ := h
  cases h
  exact drawings_foldl _ _ v

/-- A message goes to the partners of the one who sends it. -/
theorem drawings_message {bytes : List UInt8} (h : PaintServer.step t (.message w (some bytes)) = some t') (v : Nat) :
    drawings t' v = drawings t v ++ (partners t w).flatMap fun x => if x = v then onmessage (some bytes) else [] := by
  rw [PaintServer.step, Option.ite_none_right_eq_some] at h
  obtain ⟨-, h⟩ := h
  cases h
  obtain ⟨-, -, hsent⟩ := PaintServer.foldl_send w bytes (t.conn w).onMessage t
  rw [drawings, incoming, hsent, List.filterMap_append, List.flatMap_append, List.filterMap_map]
  refine congrArg _ ?_
  show _ = (partners t w).flatMap _
  rw [← partners]
  induction partners t w with
  | nil => rfl
  | cons x xs ih =>
    rw [List.flatMap_cons, ← ih]
    by_cases hx : x = v
    · simp [hx]
    · simp [hx]

/-! ## What always holds -/

theorem sound_start : Sound start where
  paired := PaintServer.paired_start
  marked := PaintServer.marked_start
  waiting _ := ⟨[], rfl⟩
  bytes _ _ h := absurd h List.not_mem_nil
  taken _ := le_rfl

/-- What has been sent is kept, and a buffer that is sent is one of bytes. -/
theorem sound_page {p : Sender} (hwaiting : ∃ es : List Paint.Event, p.Commands.elements = es.flatMap Paint.Event.bytes)
    (hbytes : ∀ data ∈ p.sent, data.isSome) (op : Paint.Op) :
    (∃ es : List Paint.Event, (Paint.step p op).Commands.elements = es.flatMap Paint.Event.bytes) ∧
      (∀ data ∈ (Paint.step p op).sent, data.isSome) ∧ p.sent.length ≤ (Paint.step p op).sent.length := by
  obtain ⟨es, hes⟩ := hwaiting
  cases op with
  | draw e =>
    refine ⟨⟨es ++ [e], ?_⟩, hbytes, le_rfl⟩
    rw [List.flatMap_append, List.flatMap_singleton, ← hes]
    rfl
  | send =>
    rw [Paint.step, Paint.sendCommands]
    split
    · exact ⟨⟨es, hes⟩, hbytes, le_rfl⟩
    · rename_i hlength
      refine ⟨⟨[], rfl⟩, fun data hdata => ?_, by simp⟩
      rcases List.mem_append.1 hdata with hdata | hdata
      · exact hbytes data hdata
      · rw [List.mem_singleton.1 hdata]
        cases hcommands : p.Commands with
        | uint8Array _ => rfl
        | array =>
          rw [hcommands] at hlength
          exact absurd rfl hlength

/-- A change in one page. -/
theorem Sound.update (h : Sound s) {p : Sender} (u : Nat)
    (hp : (∃ es : List Paint.Event, p.Commands.elements = es.flatMap Paint.Event.bytes) ∧
      (∀ data ∈ p.sent, data.isSome) ∧ (s.page u).sent.length ≤ p.sent.length) :
    Sound { s with page := Function.update s.page u p } := by
  refine ⟨h.paired, h.marked, fun w => ?_, fun w => ?_, fun w => ?_⟩ <;> by_cases hw : w = u
  · subst hw
    simpa using hp.1
  · simpa [Function.update_of_ne hw] using h.waiting w
  · subst hw
    simpa using hp.2.1
  · simpa [Function.update_of_ne hw] using h.bytes w
  · subst hw
    simpa using (h.taken w).trans hp.2.2
  · simpa [Function.update_of_ne hw] using h.taken w

/-- A change in the server. -/
theorem Sound.server (h : Sound s) {e : PaintServer.Event} (hstep : PaintServer.step s.server e = some t) :
    Sound { s with server := t } :=
  ⟨PaintServer.paired_step h.paired hstep, PaintServer.marked_step h.marked hstep, h.waiting, h.bytes, h.taken⟩

theorem sound_step (h : Sound s) (hstep : step s e = some s') : Sound s' := by
  cases e with
  | enter =>
    rw [step, Option.map_eq_some_iff] at hstep
    obtain ⟨t, ht, rfl⟩ := hstep
    exact h.server ht
  | page user op =>
    rw [step, Option.ite_none_right_eq_some] at hstep
    obtain ⟨-, hstep⟩ := hstep
    cases hstep
    exact h.update user (sound_page (h.waiting user) (h.bytes user) op)
  | test user selectedCommand hmem =>
    rw [step, Option.ite_none_right_eq_some] at hstep
    obtain ⟨-, hstep⟩ := hstep
    cases hstep
    refine h.update user ⟨h.waiting user, fun data hdata => ?_, by simp [testButton]⟩
    rcases List.mem_append.1 hdata with hdata | hdata
    · exact h.bytes user data hdata
    · rw [List.mem_singleton.1 hdata]
      rfl
  | deliver user =>
    rw [step, Option.bind_eq_some_iff] at hstep
    obtain ⟨data, hdata, hstep⟩ := hstep
    obtain ⟨t, ht, rfl⟩ := Option.map_eq_some_iff.1 hstep
    obtain ⟨hpaired, hmarked, hwaiting, hbytes, htaken⟩ := h.server ht
    refine ⟨hpaired, hmarked, hwaiting, hbytes, fun w => ?_⟩
    by_cases hw : w = user
    · subst hw
      have hlt := (List.getElem?_eq_some_iff.1 hdata).1
      simpa [Nat.succ_le_iff] using hlt
    · simpa [Function.update_of_ne hw] using htaken w
  | leave user =>
    rw [step, Option.map_eq_some_iff] at hstep
    obtain ⟨t, ht, rfl⟩ := hstep
    exact h.server ht
  | receive user =>
    rw [step, Option.ite_none_right_eq_some] at hstep
    obtain ⟨-, hstep⟩ := hstep
    cases hstep
    exact ⟨h.paired, h.marked, h.waiting, h.bytes, h.taken⟩

theorem sound_run {events : List Event} (hrun : run events start = some s) : Sound s :=
  (Lib.Checked.step_of_foldlM Sound sound_start (fun _ _ _ h hstep => sound_step h hstep) hrun).1

/-- **The server does not throw**, whatever the pages send and whoever comes and goes: the next message of a user who is
there can always be taken. -/
theorem deliver_run {events : List Event} (hrun : run events start = some s) (u : Nat)
    (halive : (s.server.conn u).alive) (hnext : s.taken u < (s.page u).sent.length) :
    (step s (.deliver u)).isSome := by
  have h := sound_run hrun
  obtain ⟨bytes, hbytes⟩ := Option.isSome_iff_exists.1 (h.bytes u _ (List.getElem_mem hnext))
  have hget : (s.page u).sent[s.taken u]? = some (some bytes) := by rw [List.getElem?_eq_getElem hnext, hbytes]
  rw [step, hget, Option.bind_some, Option.isSome_map, PaintServer.step, if_pos halive]
  rfl

/-- The start of a stroke. -/
def stroke : Paint.Event := ⟨"line", "start", 3, 4, by decide, by decide, by decide, by decide⟩

/-- Two users come, and the first one draws. -/
def oneStroke : List Event := [.enter, .enter, .page 0 (.draw stroke), .page 0 .send]

theorem deliver_run_one : ∃ s, run oneStroke start = some s ∧ (step s (.deliver 0)).isSome := by
  have hready : (run oneStroke start).any (fun s =>
      (s.server.conn 0).alive && decide (s.taken 0 < (s.page 0).sent.length)) = true := by decide +kernel
  obtain ⟨s, hs, hready⟩ := (Option.any_eq_true _ _).1 hready
  rw [Bool.and_eq_true, decide_eq_true_eq] at hready
  exact ⟨s, hs, deliver_run hs 0 hready.1 hready.2⟩

/-! ## While two users are together -/

/-- All that one user has drawn for the other one, wherever it is. -/
def total (s : System) (user1 user2 : Nat) : List Draw := canvas s user2 ++ inFlight s user1 user2

theorem total_eq (s : System) (u v : Nat) : total s u v = drawings s.server v ++
    ((s.page u).sent.drop (s.taken u)).flatMap onmessage ++ onmessage (some (s.page u).Commands.elements) := by
  rw [total, canvas, inFlight, ← List.append_assoc, ← List.append_assoc, ← List.flatMap_append, List.take_append_drop]
  rfl

/-- Two users who are together. -/
def Together (t : Server) (u v : Nat) : Prop := Settled t u [v] ∧ Settled t v [u]

theorem Together.mem (h : Paired t) (htogether : Together t u v) (hw : (t.conn w).alive) :
    v ∈ partners t w ↔ w = u := by
  obtain ⟨hu, hv⟩ := htogether
  constructor
  · intro hmem
    have hback := h.back w v hw hv.alive (List.mem_filter.1 hmem).1
    have hpartner : w ∈ partners t v := List.mem_filter.2 ⟨hback, hw⟩
    rwa [hv.partners_eq, List.mem_singleton] at hpartner
  · rintro rfl
    rw [hu.partners_eq]
    exact List.mem_singleton_self v

theorem together_iff (h : Paired t) : Together t u v ↔ partner t u = some v := by
  have hconnected : ∀ {x y}, y ∈ (t.conn x).onMessage → (t.conn x).connected = true := by
    intro x y hy
    by_contra hx
    rw [h.single x (by simpa using hx)] at hy
    cases hy
  have hsettled : ∀ {x y}, (t.conn x).alive → (t.conn y).alive → y ∈ (t.conn x).onMessage → Settled t x [y] := by
    intro x y hx hy hmem
    refine ⟨hx, hconnected hmem, ?_⟩
    have hpartner : y ∈ partners t x := List.mem_filter.2 ⟨hmem, hy⟩
    obtain ⟨z, hz⟩ := List.length_eq_one_iff.1 (le_antisymm (h.one x hx) (List.length_pos_of_mem hpartner))
    rw [hz, List.mem_singleton] at hpartner
    rw [hz, hpartner]
  constructor
  · rintro ⟨hu, -⟩
    rw [partner, if_pos hu.alive, hu.partners_eq]
    rfl
  · rw [PaintServer.partner_eq_some h]
    rintro ⟨hu, hv, hmem⟩
    exact ⟨hsettled hu hv hmem, hsettled hv hu (h.back u v hu hv hmem)⟩

/-- Who is together stays so, as long as both stay. -/
theorem Together.step (h : Sound s) (htogether : Together s.server u v) {e : PaintServer.Event}
    (hstep : PaintServer.step s.server e = some t) (hleave : e ≠ .close u ∧ e ≠ .close v) : Together t u v := by
  obtain ⟨hu, hv⟩ := htogether
  have hwho : ∀ w, e = .close w → w ≠ u ∧ w ≠ v := by
    rintro w rfl
    exact ⟨fun hw => hleave.1 (congrArg _ hw), fun hw => hleave.2 (congrArg _ hw)⟩
  refine ⟨hu.step h.paired.1 h.marked hstep fun w hw => ?_, hv.step h.paired.1 h.marked hstep fun w hw => ?_⟩
  · exact ⟨(hwho w hw).1, fun hmem => (hwho w hw).2 (List.mem_singleton.1 hmem)⟩
  · exact ⟨(hwho w hw).2, fun hmem => (hwho w hw).1 (List.mem_singleton.1 hmem)⟩

/-- What an operation in the page of a user does to what he has drawn. -/
theorem page_drawings {p : Sender}
    (hwaiting : ∃ es : List Paint.Event, p.Commands.elements = es.flatMap Paint.Event.bytes) {k : Nat}
    (hk : k ≤ p.sent.length) (op : Paint.Op) :
    ((Paint.step p op).sent.drop k).flatMap onmessage ++ onmessage (some (Paint.step p op).Commands.elements) =
      (p.sent.drop k).flatMap onmessage ++ onmessage (some p.Commands.elements) ++ drawn u (.page u op) := by
  obtain ⟨es, hes⟩ := hwaiting
  cases op with
  | draw e =>
    have helements : (Paint.step p (.draw e)).Commands.elements = (es ++ [e]).flatMap Paint.Event.bytes := by
      rw [List.flatMap_append, List.flatMap_singleton, ← hes]
      rfl
    rw [helements, hes, Paint.onmessage_bytes, Paint.onmessage_bytes, List.map_append, List.append_assoc, drawn,
      if_pos rfl]
    rfl
  | send =>
    have hempty : onmessage (some []) = [] := rfl
    have hdrawn : drawn u (.page u .send) = [] := rfl
    rw [Paint.step, Paint.sendCommands, hdrawn, List.append_nil]
    split
    · rfl
    · rename_i hlength
      have hbuffer : p.Commands.buffer = some p.Commands.elements := by
        cases hcommands : p.Commands with
        | uint8Array _ => rfl
        | array =>
          rw [hcommands] at hlength
          exact absurd rfl hlength
      have helements : (⟨.array, p.sent ++ [p.Commands.buffer]⟩ : Sender).Commands.elements = [] := rfl
      rw [helements, hempty, List.append_nil, hbuffer, List.drop_append_of_le_length hk, List.flatMap_append,
        List.flatMap_singleton]

/-- **One event**: nothing is lost, and only the test button overtakes what waits in the buffer. -/
theorem total_step (h : Sound s) (htogether : Together s.server u v) (hstep : step s e = some s')
    (hleave : e ≠ .leave u ∧ e ≠ .leave v) :
    Together s'.server u v ∧ (total s' u v).Perm (total s u v ++ drawn u e) ∧
      ((∀ c hc, e ≠ .test u c hc) → total s' u v = total s u v ++ drawn u e) := by
  have hexact : ∀ {l l' : List Draw} {p : Prop}, l = l' → l.Perm l' ∧ (p → l = l') :=
    fun hl => ⟨.of_eq hl, fun _ => hl⟩
  rw [total_eq, total_eq]
  cases e with
  | enter =>
    rw [step, Option.map_eq_some_iff] at hstep
    obtain ⟨t, ht, rfl⟩ := hstep
    refine ⟨htogether.step h ht ⟨nofun, nofun⟩, hexact ?_⟩
    rw [drawings_request ht]
    exact (List.append_nil _).symm
  | page user op =>
    rw [step, Option.ite_none_right_eq_some] at hstep
    obtain ⟨-, hstep⟩ := hstep
    cases hstep
    refine ⟨htogether, hexact ?_⟩
    by_cases huser : user = u
    · subst huser
      simp only [Function.update_self, List.append_assoc]
      refine congrArg _ ?_
      rw [page_drawings (u := user) (h.waiting user) (h.taken user), List.append_assoc]
    · have hdrawn : drawn u (.page user op) = [] := by
        cases op with
        | draw e => exact if_neg huser
        | send => rfl
      simp only [Function.update_of_ne (Ne.symm huser), hdrawn, List.append_nil]
  | test user selectedCommand hmem =>
    rw [step, Option.ite_none_right_eq_some] at hstep
    obtain ⟨-, hstep⟩ := hstep
    cases hstep
    refine ⟨htogether, ?_⟩
    by_cases huser : user = u
    · subst huser
      refine ⟨?_, fun hne => absurd rfl (hne selectedCommand hmem)⟩
      have hdraw : onmessage (some (testEvent selectedCommand hmem).bytes) =
          [(testEvent selectedCommand hmem).draw] := by
        have hone := Paint.onmessage_bytes [testEvent selectedCommand hmem]
        rwa [List.flatMap_singleton] at hone
      simp only [Function.update_self, testButton, drawn, if_true]
      rw [List.drop_append_of_le_length (h.taken user), List.flatMap_append, List.flatMap_singleton, hdraw]
      simp only [List.append_assoc]
      exact ((List.perm_append_comm).append_left _).append_left _
    · refine hexact ?_
      simp only [Function.update_of_ne (Ne.symm huser), drawn, if_neg huser, List.append_nil]
  | deliver user =>
    rw [step, Option.bind_eq_some_iff] at hstep
    obtain ⟨data, hdata, hstep⟩ := hstep
    obtain ⟨t, ht, rfl⟩ := Option.map_eq_some_iff.1 hstep
    refine ⟨htogether.step h ht ⟨nofun, nofun⟩, hexact ?_⟩
    obtain ⟨hlt, hget⟩ := List.getElem?_eq_some_iff.1 hdata
    obtain ⟨bytes, rfl⟩ := Option.isSome_iff_exists.1 (h.bytes user data (List.mem_of_getElem? hdata))
    have halive : (s.server.conn user).alive := by
      rw [PaintServer.step, Option.ite_none_right_eq_some] at ht
      exact ht.1
    have hdrawn : drawn u (.deliver user) = [] := rfl
    rw [drawings_message ht, hdrawn, List.append_nil]
    by_cases huser : user = u
    · subst huser
      rw [htogether.1.partners_eq, List.flatMap_singleton, if_pos rfl, List.drop_eq_getElem_cons hlt, hget,
        List.flatMap_cons]
      simp only [Function.update_self, List.append_assoc]
    · have hnone : ((partners s.server user).flatMap fun x => if x = v then onmessage (some bytes) else []) = [] := by
        rw [List.flatMap_eq_nil_iff]
        intro x hx
        refine if_neg ?_
        rintro rfl
        exact huser ((htogether.mem h.paired.1 halive).1 hx)
      simp only [hnone, List.append_nil, Function.update_of_ne (Ne.symm huser)]
  | leave user =>
    rw [step, Option.map_eq_some_iff] at hstep
    obtain ⟨t, ht, rfl⟩ := hstep
    have hne : ∀ w, Event.leave user ≠ .leave w → PaintServer.Event.close user ≠ .close w := by
      intro w hw heq
      cases heq
      exact hw rfl
    refine ⟨htogether.step h ht ⟨hne u hleave.1, hne v hleave.2⟩, hexact ?_⟩
    rw [drawings_close ht]
    exact (List.append_nil _).symm
  | receive user =>
    rw [step, Option.ite_none_right_eq_some] at hstep
    obtain ⟨-, hstep⟩ := hstep
    cases hstep
    exact ⟨htogether, hexact (List.append_nil _).symm⟩

theorem total_run {later : List Event} (h : Sound s) (htogether : Together s.server u v)
    (hrun : run later s = some s') (hleave : .leave u ∉ later ∧ .leave v ∉ later) :
    Together s'.server u v ∧ (total s' u v).Perm (total s u v ++ later.flatMap (drawn u)) ∧
      ((∀ c hc, .test u c hc ∉ later) → total s' u v = total s u v ++ later.flatMap (drawn u)) := by
  induction later generalizing s with
  | nil =>
    cases hrun
    rw [List.flatMap_nil, List.append_nil]
    exact ⟨htogether, .refl _, fun _ => rfl⟩
  | cons e later ih =>
    rw [run, List.foldlM_cons] at hrun
    obtain ⟨s₁, hstep, hrun⟩ := Option.bind_eq_some_iff.1 hrun
    obtain ⟨⟨hu, hu'⟩, ⟨hv, hv'⟩⟩ := And.intro (not_or.1 (mt List.mem_cons.2 hleave.1))
      (not_or.1 (mt List.mem_cons.2 hleave.2))
    obtain ⟨htogether₁, hperm, hexact⟩ := total_step h htogether hstep ⟨Ne.symm hu, Ne.symm hv⟩
    obtain ⟨htogether', hperm', hexact'⟩ := ih (sound_step h hstep) htogether₁ hrun ⟨hu', hv'⟩
    rw [List.flatMap_cons, ← List.append_assoc]
    refine ⟨htogether', hperm'.trans (hperm.append_right _), fun hne => ?_⟩
    rw [hexact' fun c hc hmem => hne c hc (List.mem_cons_of_mem _ hmem),
      hexact fun c hc he => hne c hc (he ▸ List.mem_cons_self)]

/-- **What a user draws comes to the one he is together with**: while both stay, what the other one's page has drawn,
with what is on its way, grows by it, whatever else happens; in its order, if the test button is not pressed. -/
theorem drawings_run {before later : List Event} (hbefore : run before start = some s)
    (hpartner : partner s.server u = some v) (hrun : run later s = some s')
    (hleave : .leave u ∉ later ∧ .leave v ∉ later) :
    partner s'.server u = some v ∧
      (canvas s' v ++ inFlight s' u v).Perm (canvas s v ++ inFlight s u v ++ later.flatMap (drawn u)) ∧
      ((∀ c hc, .test u c hc ∉ later) →
        canvas s' v ++ inFlight s' u v = canvas s v ++ inFlight s u v ++ later.flatMap (drawn u)) := by
  have h := sound_run hbefore
  obtain ⟨htogether, hperm, hexact⟩ := total_run h ((together_iff h.paired.1).2 hpartner) hrun hleave
  refine ⟨(together_iff ?_).1 htogether, hperm, hexact⟩
  exact (Lib.Checked.step_of_foldlM Sound h (fun _ _ _ h hstep => sound_step h hstep) hrun).1.paired.1

/-- The stroke is sent while a third user comes, and the second one gets it behind the text. -/
def handedOver : List Event :=
  [.page 0 (.draw stroke), .page 0 .send, .enter, .deliver 0, .receive 1, .page 0 (.draw stroke), .receive 1]

theorem drawings_run_two : ∃ s s', run [.enter, .enter] start = some s ∧ run handedOver s = some s' ∧
    partner s'.server 0 = some 1 ∧
      (canvas s' 1 ++ inFlight s' 0 1).Perm (canvas s 1 ++ inFlight s 0 1 ++ handedOver.flatMap (drawn 0)) ∧
      ((∀ c hc, .test 0 c hc ∉ handedOver) →
        canvas s' 1 ++ inFlight s' 0 1 = canvas s 1 ++ inFlight s 0 1 ++ handedOver.flatMap (drawn 0)) := by
  have hready : (run [.enter, .enter] start).any (fun s =>
      decide (partner s.server 0 = some 1) && (run handedOver s).isSome) = true := by decide +kernel
  obtain ⟨s, hs, hready⟩ := (Option.any_eq_true _ _).1 hready
  rw [Bool.and_eq_true, decide_eq_true_eq] at hready
  obtain ⟨s', hs'⟩ := Option.isSome_iff_exists.1 hready.2
  exact ⟨s, s', hs, hs', drawings_run hs hready.1 hs' ⟨by simp [handedOver], by simp [handedOver]⟩⟩

end LeftFelt.Web.PaintSystem
