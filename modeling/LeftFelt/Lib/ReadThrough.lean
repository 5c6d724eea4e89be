import LeftFelt.Lib.Expiring
import Mathlib.Data.List.Induction
import Mathlib.Data.Set.Function

/-!
# A cache in front of a source

A reader looks for an answer in a cache. If there is none, it asks the source, and later puts what it was told into the
cache, where the answer is kept for some time. The source changes meanwhile, and the cache is not told.

Nothing is known about how the readers take turns, nor when the cache loses an entry. Still every answer is one that the
source would have given, not longer ago than an entry is kept and a reader is busy (`answer_of_run`). So what a reader is
told is what the source has had since any moment that is longer ago (`answer_later`).
-/

namespace LeftFelt.Lib.ReadThrough

open Expiring

/-- A source that is asked `Q`, and the cache. What an entry may be given as an answer, and how many seconds it is kept;
how many seconds a reader needs at most to put into the cache what it was told. -/
structure Service (S Q K V : Type*) where
  key : Q → K
  read : S → Q → Option V
  found : V → Bool
  kept : Nat
  busy : Nat

/-- What a reader is about to do. -/
inductive Phase (Q V : Type*) where
  | idle
  | missed (q : Q)
  | fetched (q : Q) (v : V) (since : Int)

/-- The source, the cache and the readers. -/
structure System (S Q K V : Type*) where
  source : S
  store : Store K V
  reader : Nat → Phase Q V

/-- What happens: the source changes, a reader looks into the cache, asks the source, puts the answer into the cache, or
is gone, the cache loses an entry, and time passes. -/
inductive Event (S Q K : Type*) where
  | write (f : S → S)
  | ask (reader : Nat) (q : Q)
  | fetch (reader : Nat)
  | put (reader : Nat)
  | drop (reader : Nat)
  | evict (k : K)
  | wait (seconds : Nat)

variable {S Q K V : Type*}

namespace Service

/-- The reader goes on. -/
def turn (s : System S Q K V) (r : Nat) (phase : Phase Q V) : System S Q K V :=
  { s with reader := Function.update s.reader r phase }

theorem reader_turn_self (s : System S Q K V) (r : Nat) (phase : Phase Q V) : (turn s r phase).reader r = phase :=
  Function.update_self ..

theorem reader_turn_of_ne (s : System S Q K V) {r u : Nat} (h : u ≠ r) (phase : Phase Q V) :
    (turn s r phase).reader u = s.reader u :=
  Function.update_of_ne h ..

variable [DecidableEq K] (c : Service S Q K V)

/-- The answer that the cache gives. -/
def look (s : System S Q K V) (q : Q) : Option V := (s.store.get (c.key q)).filter c.found

/-- One event: `none` if it cannot happen. -/
def step (s : System S Q K V) : Event S Q K → Option (System S Q K V)
  | .write f => some { s with source := f s.source }
  | .ask r q =>
    match s.reader r with
    | .idle => some (if (c.look s q).isSome then s else turn s r (.missed q))
    | _ => none
  | .fetch r =>
    match s.reader r with
    | .missed q =>
      match c.read s.source q with
      | some v => some (turn s r (.fetched q v s.store.now))
      | none => some (turn s r .idle)
    | _ => none
  | .put r =>
    match s.reader r with
    | .fetched q v since =>
      if s.store.now ≤ since + c.busy then
        some { turn s r .idle with store := s.store.put (c.key q) v (some (s.store.now + c.kept)) }
      else none
    | _ => none
  | .drop r => some (turn s r .idle)
  | .evict k => some { s with store := s.store.erase k }
  | .wait seconds => some { s with store := s.store.wait seconds }

/-- The events one after the other. -/
def run (events : List (Event S Q K)) (s : System S Q K V) : Option (System S Q K V) := events.foldlM c.step s

/-- The question that a reader is answered by an event, and the answer: none, if the source has none. -/
def answer (s : System S Q K V) : Event S Q K → Option (Q × Option V)
  | .ask r q =>
    match s.reader r with
    | .idle => (c.look s q).map fun v => (q, some v)
    | _ => none
  | .fetch r =>
    match s.reader r with
    | .missed q => if c.read s.source q = none then some (q, none) else none
    | _ => none
  | .put r =>
    match s.reader r with
    | .fetched q v _ => some (q, some v)
    | _ => none
  | _ => none

/-- What the readers ask in a run. -/
def asked (events : List (Event S Q K)) : Set Q := {q | ∃ r, .ask r q ∈ events}

/-- At first the cache is empty, and nobody reads. -/
def start (source : S) (now : Int) : System S Q K V := ⟨source, ⟨fun _ => none, now⟩, fun _ => .idle⟩

/-- At some moment of the run, not before a time, this was the answer of the source. -/
def Was (s₀ : System S Q K V) (events : List (Event S Q K)) (q : Q) (a : Option V) (time : Int) : Prop :=
  ∃ before after s, events = before ++ after ∧ c.run before s₀ = some s ∧ c.read s.source q = a ∧ time ≤ s.store.now

variable {c} {s₀ s s' : System S Q K V} {events : List (Event S Q K)} {e : Event S Q K} {q : Q} {a : Option V}
  {time : Int}

theorem run_append (first later : List (Event S Q K)) (s : System S Q K V) :
    c.run (first ++ later) s = (c.run first s).bind (c.run later) := List.foldlM_append

theorem run_snoc (events : List (Event S Q K)) (e : Event S Q K) (s : System S Q K V) :
    c.run (events ++ [e]) s = (c.run events s).bind (c.step · e) := by
  rw [run_append]
  congr 1
  funext s
  simp [run]

/-- Time does not go back. -/
theorem now_le_step (hstep : c.step s e = some s') : s.store.now ≤ s'.store.now := by
  cases e with
  | ask r q =>
    rw [step] at hstep
    split at hstep
    · cases hstep
      split <;> exact le_rfl
    · cases hstep
  | fetch r =>
    rw [step] at hstep
    split at hstep
    · split at hstep <;> cases hstep <;> exact le_rfl
    · cases hstep
  | put r =>
    rw [step] at hstep
    split at hstep
    · split at hstep
      · cases hstep
        exact le_rfl
      · cases hstep
    · cases hstep
  | wait seconds =>
    cases hstep
    exact Int.le_add_of_nonneg_right (Int.natCast_nonneg seconds)
  | _ =>
    cases hstep
    exact le_rfl

/-- Only writing changes the source. -/
theorem source_step (hstep : c.step s e = some s') (hread : ∀ f, e ≠ .write f) : s'.source = s.source := by
  cases e with
  | write f => exact (hread f rfl).elim
  | ask r q =>
    rw [step] at hstep
    split at hstep
    · cases hstep
      split <;> rfl
    · cases hstep
  | fetch r =>
    rw [step] at hstep
    split at hstep
    · split at hstep <;> cases hstep <;> rfl
    · cases hstep
  | put r =>
    rw [step] at hstep
    split at hstep
    · split at hstep
      · cases hstep
        rfl
      · cases hstep
    · cases hstep
  | _ =>
    cases hstep
    rfl

theorem now_le_run (hrun : c.run events s = some s') : s.store.now ≤ s'.store.now := by
  induction events generalizing s with
  | nil =>
    cases hrun
    exact le_rfl
  | cons e events ih =>
    rw [run, List.foldlM_cons, Option.bind_eq_bind, Option.bind_eq_some_iff] at hrun
    obtain ⟨t, hstep, hrest⟩ := hrun
    exact (now_le_step hstep).trans (ih hrest)

/-! ## What is in the cache -/

theorem Was.mono (h : c.Was s₀ events q a time) : c.Was s₀ (events ++ [e]) q a time := by
  obtain ⟨before, after, s, rfl, hbefore, hread, htime⟩ := h
  exact ⟨before, after ++ [e], s, List.append_assoc .., hbefore, hread, htime⟩

theorem Was.weaken {earlier : Int} (h : c.Was s₀ events q a time) (hle : earlier ≤ time) :
    c.Was s₀ events q a earlier := by
  obtain ⟨before, after, s, hevents, hbefore, hread, htime⟩ := h
  exact ⟨before, after, s, hevents, hbefore, hread, hle.trans htime⟩

/-- What the source answers now. -/
theorem was_now (hrun : c.run events s₀ = some s) : c.Was s₀ events q (c.read s.source q) s.store.now :=
  ⟨events, [], s, (List.append_nil _).symm, hrun, rfl, le_rfl⟩

/-- Entries and readers have their answers from the source, and no entry is kept for longer than it may. -/
structure Inv (c : Service S Q K V) (s₀ : System S Q K V) (events : List (Event S Q K)) (s : System S Q K V) : Prop where
  entry : ∀ k v deadline, s.store.entries k = some (v, deadline) → ∃ q ∈ asked events, c.key q = k ∧
    ∃ d, deadline = some d ∧ c.Was s₀ events q (some v) (d - c.kept - c.busy)
  fetched : ∀ r q v since, s.reader r = .fetched q v since → q ∈ asked events ∧ c.Was s₀ events q (some v) since
  missed : ∀ r q, s.reader r = .missed q → q ∈ asked events

theorem inv_start (source : S) (now : Int) : Inv c (start source now) [] (start source now) :=
  ⟨by simp [start], by simp [start], by simp [start]⟩

namespace Inv

variable (h : Inv c s₀ events s)
include h

theorem mono : Inv c s₀ (events ++ [e]) s := by
  have hasked {q : Q} (hq : q ∈ asked events) : q ∈ asked (events ++ [e]) :=
    hq.imp fun _ hr => List.mem_append_left _ hr
  refine ⟨fun k v deadline hentry => ?_, fun r q v since hreader => ?_, fun r q hreader => ?_⟩
  · obtain ⟨q, hq, hkey, d, hd, hwas⟩ := h.entry k v deadline hentry
    exact ⟨q, hasked hq, hkey, d, hd, hwas.mono⟩
  · obtain ⟨hq, hwas⟩ := h.fetched r q v since hreader
    exact ⟨hasked hq, hwas.mono⟩
  · exact hasked (h.missed r q hreader)

theorem turn (r : Nat) {phase : Phase Q V} (hmissed : ∀ q, phase = .missed q → q ∈ asked events)
    (hfetched : ∀ q v since, phase = .fetched q v since → q ∈ asked events ∧ c.Was s₀ events q (some v) since) :
    Inv c s₀ events (turn s r phase) := by
  refine ⟨h.entry, fun u q v since hreader => ?_, fun u q hreader => ?_⟩ <;> by_cases hu : u = r
  · subst hu
    exact hfetched q v since ((reader_turn_self s u phase).symm.trans hreader)
  · exact h.fetched u q v since ((reader_turn_of_ne s hu phase).symm.trans hreader)
  · subst hu
    exact hmissed q ((reader_turn_self s u phase).symm.trans hreader)
  · exact h.missed u q ((reader_turn_of_ne s hu phase).symm.trans hreader)

theorem put {q : Q} {v : V} (hq : q ∈ asked events) (hwas : c.Was s₀ events q (some v) (s.store.now - c.busy)) :
    Inv c s₀ events { s with store := s.store.put (c.key q) v (some (s.store.now + c.kept)) } := by
  refine ⟨fun k v' deadline hentry => ?_, h.fetched, h.missed⟩
  by_cases hk : k = c.key q
  · subst hk
    rw [entries_put_self] at hentry
    cases hentry
    exact ⟨q, hq, rfl, _, rfl, hwas.weaken (by omega)⟩
  · rw [entries_put_of_ne hk] at hentry
    exact h.entry k v' deadline hentry

theorem erase (k : K) : Inv c s₀ events { s with store := s.store.erase k } := by
  refine ⟨fun k' v deadline hentry => ?_, h.fetched, h.missed⟩
  by_cases hk : k' = k
  · subst hk
    rw [entries_erase_self] at hentry
    cases hentry
  · rw [entries_erase_of_ne hk] at hentry
    exact h.entry k' v deadline hentry

theorem step (hrun : c.run events s₀ = some s) (hstep : c.step s e = some s') : Inv c s₀ (events ++ [e]) s' := by
  have hmono : Inv c s₀ (events ++ [e]) s := h.mono
  cases e with
  | write f =>
    cases hstep
    exact ⟨hmono.entry, hmono.fetched, hmono.missed⟩
  | ask r q =>
    rw [Service.step] at hstep
    split at hstep
    · cases hstep
      split
      · exact hmono
      · refine hmono.turn r (fun q' hq' => ?_) (by simp)
        cases hq'
        exact ⟨r, by simp⟩
    · cases hstep
  | fetch r =>
    rw [Service.step] at hstep
    split at hstep
    · next q hreader =>
      split at hstep
      · next v hread =>
        cases hstep
        refine hmono.turn r (by simp) fun q' v' since hphase => ?_
        cases hphase
        exact ⟨hmono.missed r q hreader, hread ▸ (was_now hrun).mono⟩
      · cases hstep
        exact hmono.turn r (by simp) (by simp)
    · cases hstep
  | put r =>
    rw [Service.step] at hstep
    split at hstep
    · next q v since hreader =>
      split at hstep
      · next hbusy =>
        cases hstep
        obtain ⟨hq, hwas⟩ := hmono.fetched r q v since hreader
        exact (hmono.turn r (by simp) (by simp)).put hq (hwas.weaken (by show s.store.now - c.busy ≤ since; omega))
      · cases hstep
    · cases hstep
  | drop r =>
    cases hstep
    exact hmono.turn r (by simp) (by simp)
  | evict k =>
    cases hstep
    exact hmono.erase k
  | wait seconds =>
    cases hstep
    exact ⟨hmono.entry, hmono.fetched, hmono.missed⟩

end Inv

theorem inv_run {source : S} {now : Int} (hrun : c.run events (start source now) = some s) :
    Inv c (start source now) events s := by
  induction events using List.reverseRecOn generalizing s with
  | nil =>
    cases hrun
    exact inv_start source now
  | append_singleton events e ih =>
    rw [run_snoc, Option.bind_eq_some_iff] at hrun
    obtain ⟨s', hbefore, hlast⟩ := hrun
    exact (ih hbefore).step hbefore hlast

/-- **Every answer was right**, not long ago, however the readers take turns. -/
theorem answer_of_run {source : S} {now : Int} (hrun : c.run events (start source now) = some s)
    (hkey : (asked (events ++ [e])).InjOn c.key) (hstep : c.step s e = some s') (hanswer : c.answer s e = some (q, a)) :
    c.Was (start source now) events q a (s.store.now - c.kept - c.busy) := by
  have h : Inv c (start source now) events s := inv_run hrun
  cases e with
  | ask r q' =>
    rw [answer] at hanswer
    split at hanswer
    · obtain ⟨v, hlook, hv⟩ := Option.map_eq_some_iff.mp hanswer
      cases hv
      obtain ⟨deadline, hentry, halive⟩ := alive_of_get (Option.filter_eq_some_iff.mp hlook).1
      obtain ⟨q₀, hq₀, hsame, d, rfl, hwas⟩ := h.entry _ _ _ hentry
      obtain rfl : q₀ = q :=
        hkey (hq₀.imp fun _ hr => List.mem_append_left _ hr) ⟨r, List.mem_append_right _ List.mem_cons_self⟩ hsame
      have hd : s.store.now < d := of_decide_eq_true halive
      exact hwas.weaken (by omega)
    · cases hanswer
  | fetch r =>
    rw [answer] at hanswer
    split at hanswer
    · split at hanswer
      · next hread =>
        cases hanswer
        exact hread ▸ (was_now hrun).weaken (by omega)
      · cases hanswer
    · cases hanswer
  | put r =>
    rw [answer] at hanswer
    split at hanswer
    · next q' v since hreader =>
      cases hanswer
      rw [step, hreader] at hstep
      have hbusy : s.store.now ≤ since + c.busy := by
        by_contra hlate
        simp [hlate] at hstep
      exact (h.fetched r _ _ since hreader).2.weaken (by omega)
    · cases hanswer
  | _ => cases hanswer

/-- **Every answer is of later** once the source has had that for long enough. -/
theorem answer_later {source : S} {now : Int} {later : List (Event S Q K)} {s₁ : System S Q K V}
    (hrun : c.run events (start source now) = some s₁) (hlater : c.run later s₁ = some s)
    (hlong : s₁.store.now + c.kept + c.busy < s.store.now) (hkey : (asked (events ++ later ++ [e])).InjOn c.key)
    (hstep : c.step s e = some s') (hanswer : c.answer s e = some (q, a)) :
    c.Was s₁ later q a (s.store.now - c.kept - c.busy) := by
  have hwhole : c.run (events ++ later) (start source now) = some s := by
    rw [run_append, hrun, Option.bind_some, hlater]
  obtain ⟨before, after, s₂, hsplit, hbefore, hread, htime⟩ := answer_of_run hwhole hkey hstep hanswer
  rcases List.append_eq_append_iff.mp hsplit with ⟨mid, rfl, rfl⟩ | ⟨mid, rfl, rfl⟩
  · rw [run_append, hrun, Option.bind_some] at hbefore
    exact ⟨mid, after, s₂, rfl, hbefore, hread, htime⟩
  · -- then the answer would be from the time before
    rw [run_append, hbefore, Option.bind_some] at hrun
    have hle : s₂.store.now ≤ s₁.store.now := now_le_run hrun
    omega

end Service

end LeftFelt.Lib.ReadThrough
