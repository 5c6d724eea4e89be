import LeftFelt.Web.PaintServer
import Mathlib.Data.Set.Subsingleton

/-!
# Who draws with whom

What the server of the paint program does in every run: a drawing goes to one user, who sends his own ones back
(`private_run`); no two users wait while they could draw together (`waiting_run`); and who has been connected with one
who had left stays alone (`stranded_run`).
-/

namespace LeftFelt.Web.PaintServer

open Lib

variable {s s' : Server} {u v : Nat} {events : List Event}

/-- The partner of a user, if both are there. -/
def partner (s : Server) (user : Nat) : Option Nat := if (s.conn user).alive then (partners s user).head? else none

theorem Paired.partners_eq (h : Paired s) (hu : (s.conn u).alive) : partners s u = (partner s u).toList := by
  rw [partner, if_pos hu]
  have hone := h.one u hu
  match hp : partners s u, hone with
  | [], _ => rfl
  | [v], _ => rfl

theorem partner_eq_some (h : Paired s) :
    partner s u = some v ↔ (s.conn u).alive ∧ (s.conn v).alive ∧ v ∈ (s.conn u).onMessage := by
  have hmem : v ∈ partners s u ↔ v ∈ (s.conn u).onMessage ∧ (s.conn v).alive := List.mem_filter
  by_cases hu : (s.conn u).alive
  · rw [h.partners_eq hu, Option.mem_toList] at hmem
    rw [hmem]
    simp [hu, and_comm]
  · simp [partner, hu]

/-- **A drawing goes to one user**: partners are partners of each other, and what a user sends goes to his partner, if he
has one, and to nobody else. -/
theorem private_run (hrun : run events start = some s) :
    (∀ u v, partner s u = some v → partner s v = some u) ∧
    ∀ u, (s.conn u).alive → ∀ bytes, ∃ s', step s (.message u (some bytes)) = some s' ∧
      s'.sent = s.sent ++ (partner s u).toList.map fun v => .bytes u v bytes := by
  obtain ⟨h, -⟩ := paired_run hrun
  refine ⟨fun u v huv => ?_, fun u hu bytes => ?_⟩
  · rw [partner_eq_some h] at huv ⊢
    exact ⟨huv.2.1, huv.1, h.back u v huv.1 huv.2.1 huv.2.2⟩
  · obtain ⟨-, -, hsent⟩ := foldl_send u bytes (s.conn u).onMessage s
    exact ⟨_, if_pos hu, by rw [hsent, ← h.partners_eq hu]; rfl⟩

/-- Two users who draw, a third one who waits. -/
def threeUsers : List Event := [.request, .request, .request]

theorem private_run_three : ∃ s, run threeUsers start = some s ∧
    (∀ u v, partner s u = some v → partner s v = some u) ∧
    ∀ u, (s.conn u).alive → ∀ bytes, ∃ s', step s (.message u (some bytes)) = some s' ∧
      s'.sent = s.sent ++ (partner s u).toList.map fun v => .bytes u v bytes := by
  obtain ⟨s, hs⟩ := Option.isSome_iff_exists.1 (by decide +kernel : (run threeUsers start).isSome)
  exact ⟨s, hs, private_run hs⟩

/-! ## Who waits -/

/-- A connection is marked as closed by its own listener only, when it is not there any more. -/
def Marked (s : Server) : Prop :=
  ∀ u, (∀ v, .mark v ∈ (s.conn u).onClose → v = u) ∧ ((s.conn u).alive → (s.conn u).closed = false)

theorem marked_connect {i : Nat} (hne : i ≠ v) (h : Marked s) : Marked (connect i v s) := by
  intro w
  rw [onClose_connect hne, alive_connect hne, closed_connect hne]
  refine ⟨fun x hx => ?_, (h w).2⟩
  rw [List.mem_append] at hx
  refine (h w).1 x (hx.resolve_right fun hx => ?_)
  obtain ⟨y, -, hy⟩ := List.mem_map.1 hx
  cases hy

theorem marked_initConnect (h : Marked s) : Marked (initConnect v s) := by
  intro w
  rw [conn_initConnect]
  by_cases hw : w = v
  · subst hw
    rw [Function.update_self]
    exact ⟨fun x hx => (nomatch hx), (h w).2⟩
  · rw [Function.update_of_ne hw]
    exact h w

/-- The listeners of one who has left. -/
theorem marked_call (h : Marked s) {l : OnClose} (hl : ∀ w, l = .mark w → (s.conn w).alive = false) :
    Marked (l.call s) := by
  cases l with
  | mark w =>
    intro x
    obtain ⟨-, halive, -, -, honClose, -⟩ := mark_spec w s x
    rw [halive, honClose]
    refine ⟨(h x).1, fun hx => ?_⟩
    have hxw : x ≠ w := by
      rintro rfl
      rw [hl x rfl] at hx
      cases hx
    have hconn : ((OnClose.mark w).call s).conn x = s.conn x := Function.update_of_ne hxw _ _
    rw [hconn]
    exact (h x).2 hx
  | partner v =>
    cases hsearch : search s v with
    | some i =>
      rw [OnClose.call, hsearch]
      exact marked_connect (search_eq_some hsearch).2 h
    | none =>
      rw [OnClose.call, hsearch]
      exact marked_initConnect h

/-- They make nobody come back. -/
theorem alive_call (l : OnClose) (s : Server) (w : Nat) : ((l.call s).conn w).alive = (s.conn w).alive := by
  cases l with
  | mark u => exact (mark_spec u s w).2.1
  | partner v =>
    cases hsearch : search s v with
    | some i =>
      rw [OnClose.call, hsearch]
      exact alive_connect (search_eq_some hsearch).2 s w
    | none =>
      rw [OnClose.call, hsearch]
      exact alive_initConnect v s w

theorem marked_foldl (ls : List OnClose) (h : Marked s) (hl : ∀ w, .mark w ∈ ls → (s.conn w).alive = false) :
    Marked (ls.foldl (fun s l => l.call s) s) := by
  induction ls generalizing s with
  | nil => exact h
  | cons l ls ih =>
    refine ih (marked_call h fun w hw => hl w (by rw [hw]; exact List.mem_cons_self)) fun w hw => ?_
    rw [alive_call]
    exact hl w (List.mem_cons_of_mem _ hw)

theorem marked_watch (h : Marked s) (u : Nat) : Marked (watch u s) := by
  intro w
  obtain ⟨halive, -, hclosed, -, -⟩ := conn_watch u s w
  rw [halive, hclosed]
  refine ⟨fun x hx => ?_, (h w).2⟩
  have hconn : (watch u s).conn =
      Function.update s.conn u { s.conn u with onClose := (s.conn u).onClose ++ [.mark u] } := rfl
  rw [hconn] at hx
  by_cases hw : w = u
  · subst hw
    rw [Function.update_self, List.mem_append, List.mem_singleton] at hx
    rcases hx with hx | hx
    · exact (h w).1 x hx
    · cases hx
      rfl
  · rw [Function.update_of_ne hw] at hx
    exact (h w).1 x hx

theorem marked_step (h : Marked s) {e : Event} (hstep : step s e = some s') : Marked s' := by
  cases e with
  | request =>
    obtain rfl : watch s.length (welcome s) = s' := Option.some.inj ((step_request s).symm.trans hstep)
    refine marked_watch ?_ s.length
    have henter : Marked (enter s) := by
      intro w
      by_cases hw : w = s.length
      · rw [hw, conn_enter_self]
        exact ⟨fun _ hx => (nomatch hx), fun _ => rfl⟩
      · rw [conn_enter_of_ne hw]
        exact h w
    rcases welcome_cases s with ⟨hwelcome, -⟩ | ⟨m, hm, hne, hwelcome⟩
    · rw [hwelcome]
      exact henter
    · rw [hwelcome]
      exact marked_connect hne henter
  | message user data =>
    cases data with
    | some bytes =>
      rw [step, Option.ite_none_right_eq_some] at hstep
      obtain ⟨-, hstep⟩ := hstep
      cases hstep
      intro w
      rw [(foldl_send user bytes (s.conn user).onMessage s).1]
      exact h w
    | none =>
      rw [step, Option.ite_none_right_eq_some, Option.ite_none_right_eq_some] at hstep
      obtain ⟨-, -, hstep⟩ := hstep
      cases hstep
      exact h
  | close user =>
    rw [step, Option.ite_none_right_eq_some] at hstep
    obtain ⟨-, hstep⟩ := hstep
    cases hstep
    refine marked_foldl (s := leave user s) _ (fun w => ?_) fun w hw => ?_
    · obtain ⟨-, hclosed, -, honClose⟩ := conn_leave user s w
      rw [hclosed, honClose, alive_leave, Bool.and_eq_true]
      exact ⟨(h w).1, fun hx => (h w).2 hx.2⟩
    · rw [(h user).1 w hw, alive_leave]
      simp

theorem marked_start : Marked start := fun _ => ⟨fun _ h => absurd h List.not_mem_nil, fun _ => rfl⟩

theorem Paired.lt_length (h : Paired s) (hu : (s.conn u).alive) : u < s.length := by
  by_contra hle
  rw [h.come u (not_lt.1 hle)] at hu
  cases hu

theorem marked_run (hrun : run events start = some s) : Marked s :=
  (Checked.step_of_foldlM Marked marked_start (fun _ _ _ h hstep => marked_step h hstep) hrun).1

/-- **No two users wait** while they are there. -/
theorem waiting_run (hrun : run events start = some s) :
    ({u | (s.conn u).alive ∧ (s.conn u).connected = false} : Set Nat).Subsingleton := by
  obtain ⟨hpaired, hwaits⟩ := paired_run hrun
  have hmarked := marked_run hrun
  intro u ⟨hu, hu'⟩ v ⟨hv, hv'⟩
  exact hwaits u v ⟨hpaired.lt_length hu, hu', (hmarked u).2 hu⟩ ⟨hpaired.lt_length hv, hv', (hmarked v).2 hv⟩

theorem waiting_run_three : ∃ s, run threeUsers start = some s ∧
    ({u | (s.conn u).alive ∧ (s.conn u).connected = false} : Set Nat).Subsingleton := by
  obtain ⟨s, hs⟩ := Option.isSome_iff_exists.1 (by decide +kernel : (run threeUsers start).isSome)
  exact ⟨s, hs, waiting_run hs⟩

/-! ## Who stays together, and who stays alone -/

/-- A user who is there and has been connected, with his partners that are there. -/
structure Settled (s : Server) (user : Nat) (users : List Nat) : Prop where
  alive : (s.conn user).alive
  connected : (s.conn user).connected = true
  partners_eq : partners s user = users

/-- A user who is there, and is connected with nobody who is there. -/
def Stranded (s : Server) (user : Nat) : Prop := Settled s user []

variable {us : List Nat}

/-- A change that leaves a user as he is, and all he has a listener for. -/
theorem Settled.congr (h : Settled s u us) (hconn : s'.conn u = s.conn u)
    (halive : ∀ w ∈ (s.conn u).onMessage, (s'.conn w).alive = (s.conn w).alive) : Settled s' u us := by
  refine ⟨hconn ▸ h.alive, hconn ▸ h.connected, ?_⟩
  rw [partners, hconn, ← h.partners_eq]
  exact List.filter_congr halive

/-- A pair of others. -/
theorem Settled.connect (h : Settled s u us) {i : Nat} (hne : i ≠ v) (hi : (s.conn i).connected = false) (hv : v ≠ u) :
    Settled (connect i v s) u us := by
  have hiu : u ≠ i := by
    rintro rfl
    rw [h.connected] at hi
    cases hi
  refine h.congr ?_ fun w _ => alive_connect hne s w
  rw [conn_connect hne, Function.update_of_ne hiu, Function.update_of_ne hv.symm]

/-- The listeners of another one who has left. -/
theorem Settled.call (h : Settled s u us) {l : OnClose} (hl : l ≠ .mark u ∧ l ≠ .partner u) :
    Settled (l.call s) u us := by
  cases l with
  | mark w =>
    refine h.congr (Function.update_of_ne ?_ _ _) fun x _ => alive_call _ s x
    rintro rfl
    exact hl.1 rfl
  | partner v =>
    have hv : v ≠ u := by
      rintro rfl
      exact hl.2 rfl
    cases hsearch : search s v with
    | some i =>
      obtain ⟨hi, hne⟩ := search_eq_some hsearch
      rw [OnClose.call, hsearch]
      exact h.connect hne hi.2.1 hv
    | none =>
      rw [OnClose.call, hsearch]
      exact h.congr (Function.update_of_ne hv.symm _ _) fun x _ => alive_initConnect v s x

theorem Settled.foldl (h : Settled s u us) (ls : List OnClose) (hl : ∀ l ∈ ls, l ≠ .mark u ∧ l ≠ .partner u) :
    Settled (ls.foldl (fun s l => l.call s) s) u us := by
  induction ls generalizing s with
  | nil => exact h
  | cons l ls ih =>
    exact ih (h.call (hl l List.mem_cons_self)) fun l' hl' => hl l' (List.mem_cons_of_mem _ hl')

theorem alive_foldl (ls : List OnClose) (s : Server) (w : Nat) :
    ((ls.foldl (fun s l => l.call s) s).conn w).alive = (s.conn w).alive := by
  induction ls generalizing s with
  | nil => rfl
  | cons l ls ih => rw [List.foldl_cons, ih, alive_call]

theorem length_foldl (ls : List OnClose) (s : Server) : (ls.foldl (fun s l => l.call s) s).length = s.length := by
  induction ls generalizing s with
  | nil => rfl
  | cons l ls ih =>
    rw [List.foldl_cons, ih]
    cases l with
    | mark u => rfl
    | partner v =>
      cases hsearch : search s v with
      | some i => rw [OnClose.call, hsearch, length_connect]
      | none => rw [OnClose.call, hsearch]; rfl

/-- **One event**: a user keeps his partners, as long as neither he nor one of them leaves. -/
theorem Settled.step (h : Settled s u us) (hpaired : Paired s) (hmarked : Marked s) {e : Event}
    (hstep : PaintServer.step s e = some s') (hleave : ∀ w, e = .close w → w ≠ u ∧ w ∉ us) : Settled s' u us := by
  have hlt := hpaired.lt_length h.alive
  cases e with
  | request =>
    obtain rfl : watch s.length (welcome s) = s' := Option.some.inj ((step_request s).symm.trans hstep)
    have henter : Settled (enter s) u us :=
      h.congr (conn_enter_of_ne hlt.ne) fun w hw => by rw [conn_enter_of_ne (hpaired.known u w hw).ne]
    have hwelcome : Settled (welcome s) u us := by
      rcases welcome_cases s with ⟨hwelcome, -⟩ | ⟨m, hm, hne, hwelcome⟩
      · rw [hwelcome]
        exact henter
      · rw [hwelcome]
        exact henter.connect hne hm.2.1 hlt.ne'
    exact hwelcome.congr (Function.update_of_ne hlt.ne _ _) fun w _ => (conn_watch _ _ w).1
  | message user data =>
    cases data with
    | some bytes =>
      rw [PaintServer.step, Option.ite_none_right_eq_some] at hstep
      obtain ⟨-, hstep⟩ := hstep
      cases hstep
      have hconn := (foldl_send user bytes (s.conn user).onMessage s).1
      exact h.congr (by rw [hconn]) fun w _ => by rw [hconn]
    | none =>
      rw [PaintServer.step, Option.ite_none_right_eq_some, Option.ite_none_right_eq_some] at hstep
      obtain ⟨-, -, hstep⟩ := hstep
      cases hstep
      exact h
  | close user =>
    rw [PaintServer.step, Option.ite_none_right_eq_some] at hstep
    obtain ⟨halive, hstep⟩ := hstep
    cases hstep
    obtain ⟨hu, hus⟩ := hleave user rfl
    have hpartner : user ∉ (s.conn u).onMessage := fun hmem =>
      hus (h.partners_eq ▸ List.mem_filter.2 ⟨hmem, halive⟩)
    refine Settled.foldl (h.congr (Function.update_of_ne hu.symm _ _) fun w hw => ?_) _ fun l hl => ⟨?_, ?_⟩
    · have hne : w ≠ user := by
        rintro rfl
        exact hpartner hw
      rw [← leave, alive_leave, decide_eq_true hne, Bool.true_and]
    · rintro rfl
      exact hu ((hmarked user).1 u hl).symm
    · rintro rfl
      have hmem : u ∈ (s.conn user).onMessage := by
        rw [← hpaired.listeners user]
        exact List.mem_filterMap.2 ⟨_, hl, rfl⟩
      exact hpartner (hpaired.back user u halive h.alive hmem)

/-- Who has left does not come back. -/
theorem left_step (h : u < s.length ∧ (s.conn u).alive = false) {e : Event} (hstep : step s e = some s') :
    u < s'.length ∧ (s'.conn u).alive = false := by
  cases e with
  | request =>
    obtain rfl : watch s.length (welcome s) = s' := Option.some.inj ((step_request s).symm.trans hstep)
    rw [watch, Server.length_update, ← watch, (conn_watch s.length (welcome s) u).1]
    rcases welcome_cases s with ⟨hwelcome, -⟩ | ⟨m, -, hne, hwelcome⟩
    · rw [hwelcome, conn_enter_of_ne h.1.ne]
      exact ⟨Nat.lt_succ_of_lt h.1, h.2⟩
    · rw [hwelcome, length_connect, alive_connect hne, conn_enter_of_ne h.1.ne]
      exact ⟨Nat.lt_succ_of_lt h.1, h.2⟩
  | message user data =>
    cases data with
    | some bytes =>
      rw [step, Option.ite_none_right_eq_some] at hstep
      obtain ⟨-, hstep⟩ := hstep
      cases hstep
      obtain ⟨hconn, hlength, -⟩ := foldl_send user bytes (s.conn user).onMessage s
      rwa [hconn, hlength]
    | none =>
      rw [step, Option.ite_none_right_eq_some, Option.ite_none_right_eq_some] at hstep
      obtain ⟨-, -, hstep⟩ := hstep
      cases hstep
      exact h
  | close user =>
    rw [step, Option.ite_none_right_eq_some] at hstep
    obtain ⟨-, hstep⟩ := hstep
    cases hstep
    rw [length_foldl, alive_foldl]
    refine ⟨h.1, (alive_leave user s u).trans ?_⟩
    rw [h.2, Bool.and_false]

theorem close_step (h : u < s.length) (hstep : step s (.close u) = some s') :
    u < s'.length ∧ (s'.conn u).alive = false := by
  rw [step, Option.ite_none_right_eq_some] at hstep
  obtain ⟨-, hstep⟩ := hstep
  cases hstep
  rw [length_foldl, alive_foldl]
  exact ⟨h, (alive_leave u s u).trans (by simp)⟩

/-- **Who is stranded stays so**, as long as he is there, whoever comes and goes. -/
theorem stranded_run (hrun : run events start = some s) (h : Stranded s u) {later : List Event}
    (hlater : run later s = some s') : Stranded s' u ∨ (s'.conn u).alive = false := by
  have hinv := (Checked.step_of_foldlM
    (fun t => (Paired t ∧ OneWaits t) ∧ Marked t ∧ (Stranded t u ∨ u < t.length ∧ (t.conn u).alive = false))
    ⟨paired_run hrun, marked_run hrun, .inl h⟩ (fun e t t' ht hstep => ?_) hlater).1
  · exact hinv.2.2.imp_right And.right
  · obtain ⟨hpaired, hmarked, hu⟩ := ht
    refine ⟨paired_step hpaired hstep, marked_step hmarked hstep, ?_⟩
    rcases hu with hu | hu
    · by_cases hclose : e = .close u
      · subst hclose
        exact .inr (close_step (hpaired.1.lt_length hu.alive) hstep)
      · refine .inl (hu.step hpaired.1 hmarked hstep fun w hw => ⟨?_, List.not_mem_nil⟩)
        rintro rfl
        exact hclose hw
    · exact .inr (left_step hu hstep)

/-- The first of a pair leaves, and the second one gets the third user; the fourth user waits, until the second one
leaves too. -/
def twoPartners : List Event := [.request, .request, .request, .close 0, .request, .close 1]

/-- The fourth user has then been connected with the first one, who left long before. -/
theorem stranded_run_four : ∃ s s', run twoPartners start = some s ∧ Stranded s 3 ∧ run [.request] s = some s' ∧
    (Stranded s' 3 ∨ (s'.conn 3).alive = false) := by
  have hfields : (run twoPartners start).any (fun s =>
      (s.conn 3).alive && (s.conn 3).connected && (partners s 3).isEmpty) = true := by decide +kernel
  obtain ⟨s, hs, hfields⟩ := (Option.any_eq_true _ _).1 hfields
  rw [Bool.and_eq_true, Bool.and_eq_true, List.isEmpty_iff] at hfields
  have hstranded : Stranded s 3 := ⟨hfields.1.1, hfields.1.2, hfields.2⟩
  have hlater : run [.request] s = some (watch s.length (welcome s)) := rfl
  exact ⟨s, _, hs, hstranded, hlater, stranded_run hs hstranded hlater⟩

end LeftFelt.Web.PaintServer
