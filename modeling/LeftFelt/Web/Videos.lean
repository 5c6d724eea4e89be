import LeftFelt.Web.Escape

/-!
# Which videos can be seen

A video is hidden while the column `deleted` of its row is not `NULL`. `enable` and `disable` change that column in all
rows of the table, and not only in the row of the video that they are called for. So a video is left to its own calls
exactly if every such call finds the other videos already as it leaves them (`ownCalls_iff`).
-/

namespace LeftFelt.Videos

open Functions

/-! ## The table -/

/-- A row of `videos`. -/
structure Video where
  id : Nat
  user_id : Str
  title : Str
  description : Str
  deleted : Option Nat

/-- The table `videos`, whose ids are given in ascending order. -/
structure Table where
  rows : List Video
  auto_increment : Nat
  id_lt : ∀ row ∈ rows, row.id < auto_increment

namespace Table

/-- The table without any videos. -/
def empty : Table := ⟨[], 1, fun _ h => nomatch h⟩

/-- `addVideo`, with the id that it returns. `default` is what a new row has in the column `deleted`. -/
def addVideo (default : Option Nat) (user_id title description : Str) (s : Table) : Table × Nat :=
  let row : Video := ⟨s.auto_increment, user_id, escapeString title, escapeString description, default⟩
  let rows := s.rows ++ [row]
  have id_lt : ∀ r ∈ rows, r.id < s.auto_increment + 1 := fun r hr => by
    rcases List.mem_append.mp hr with hr | hr
    · exact Nat.lt_succ_of_lt (s.id_lt r hr)
    · exact List.mem_singleton.mp hr ▸ Nat.lt_succ_self _
  (⟨rows, s.auto_increment + 1, id_lt⟩, s.auto_increment)

/-- `update videos set deleted = ...`, without any condition. -/
def updateDeleted (deleted : Option Nat) (s : Table) : Table where
  rows := s.rows.map fun row => { row with deleted }
  auto_increment := s.auto_increment
  id_lt r hr := by
    obtain ⟨row, hrow, rfl⟩ := List.mem_map.mp hr
    exact s.id_lt row hrow

/-- `enable($id)`, which does not use `$id`. -/
def enable (_id : Nat) (s : Table) : Table := s.updateDeleted none

/-- `disable($id)`, which does not use `$id`. -/
def disable (_id : Nat) (s : Table) : Table := s.updateDeleted (some 1)

/-- The ids of the videos. -/
def ids (s : Table) : List Nat := s.rows.map Video.id

/-- Is the video in the table, but hidden from those who search for videos (`where deleted is NULL`)? -/
def hidden (s : Table) (id : Nat) : Bool := s.rows.any fun row => row.id = id ∧ row.deleted ≠ none

end Table

/-! ## Calls -/

/-- A call that changes the table. -/
inductive Call where
  | addVideo (user_id title description : Str)
  | enable (id : Nat)
  | disable (id : Nat)

namespace Call

/-- One call. -/
def run (default : Option Nat) (s : Table) : Call → Table
  | addVideo user_id title description => (s.addVideo default user_id title description).1
  | enable id => s.enable id
  | disable id => s.disable id

/-- The video that is called for, and how it is to be: hidden or not. -/
def target : Call → Option (Nat × Bool)
  | addVideo _ _ _ => none
  | enable id => some (id, false)
  | disable id => some (id, true)

/-- What a call means for a video: nothing, unless the video is called for. -/
def decides (id : Nat) (call : Call) : Option Bool :=
  call.target.bind fun (id', hide) => if id' = id then some hide else none

end Call

/-- The calls one after the other. -/
def runCalls (default : Option Nat) (s : Table) (calls : List Call) : Table := calls.foldl (Call.run default) s

/-- What the last call for the video means for it. -/
def lastCall (id : Nat) (calls : List Call) : Option Bool := (calls.filterMap (Call.decides id)).getLast?

/-- **Videos are left to their own calls**: between any two moments of a run, the last call for a video decides whether
it is hidden, and if there is none, it stays as it was. -/
def OwnCalls (default : Option Nat) (s : Table) (calls : List Call) : Prop :=
  ∀ before after, before ++ after <+: calls → ∀ id ∈ (runCalls default s before).ids,
    (runCalls default s (before ++ after)).hidden id =
      (lastCall id after).getD ((runCalls default s before).hidden id)

/-- The call finds the other videos as it leaves them. -/
def Harmless (s : Table) (call : Call) : Prop :=
  ∀ id hide, call.target = some (id, hide) → ∀ other ∈ s.ids, other ≠ id → s.hidden other = hide

/-! ## One call -/

variable {default : Option Nat} {s : Table} {calls : List Call} {call : Call} {id : Nat}

theorem lt_of_mem_ids (h : id ∈ s.ids) : id < s.auto_increment := by
  obtain ⟨row, hrow, rfl⟩ := List.mem_map.mp h
  exact s.id_lt row hrow

/-- A new video is hidden if the database says so, and no other video is changed. -/
theorem hidden_addVideo {user_id title description : Str} :
    (s.addVideo default user_id title description).1.hidden id =
      if id = s.auto_increment then default.isSome else s.hidden id := by
  simp only [Table.addVideo, Table.hidden, List.any_append, List.any_cons, List.any_nil, Bool.or_false]
  by_cases h : id = s.auto_increment
  · subst h
    have hnone : s.rows.any (fun row => row.id = s.auto_increment ∧ row.deleted ≠ none) = false := by
      rw [List.any_eq_false]
      intro row hrow heq
      exact absurd (s.id_lt row hrow) (by simp_all)
    rw [hnone, if_pos rfl]
    cases default <;> simp
  · simp [h, Ne.symm h]

theorem hidden_updateDeleted {deleted : Option Nat} (h : id ∈ s.ids) :
    (s.updateDeleted deleted).hidden id = deleted.isSome := by
  obtain ⟨row, hrow, rfl⟩ := List.mem_map.mp h
  rw [Table.hidden, Table.updateDeleted, List.any_map]
  cases deleted with
  | none => simp
  | some n => exact List.any_eq_true.mpr ⟨row, hrow, by simp⟩

theorem mem_ids_run (default : Option Nat) (call : Call) (h : id ∈ s.ids) : id ∈ (call.run default s).ids := by
  obtain ⟨row, hrow, rfl⟩ := List.mem_map.mp h
  cases call with
  | addVideo user_id title description => exact List.mem_map.mpr ⟨row, List.mem_append_left _ hrow, rfl⟩
  | enable id => exact List.mem_map.mpr ⟨_, List.mem_map_of_mem hrow, rfl⟩
  | disable id => exact List.mem_map.mpr ⟨_, List.mem_map_of_mem hrow, rfl⟩

/-- A call with a target does the same to all videos. -/
theorem hidden_run_of_target {hide : Bool} {target : Nat} (htarget : call.target = some (target, hide))
    (h : id ∈ s.ids) : (call.run default s).hidden id = hide := by
  cases call with
  | addVideo user_id title description => cases htarget
  | enable id' =>
    obtain ⟨rfl, rfl⟩ := Prod.mk.inj (Option.some.inj htarget)
    exact hidden_updateDeleted h
  | disable id' =>
    obtain ⟨rfl, rfl⟩ := Prod.mk.inj (Option.some.inj htarget)
    exact hidden_updateDeleted h

/-- **One call**: a harmless one does to every video what it means for it. -/
theorem harmless_iff (default : Option Nat) : Harmless s call ↔
    ∀ id ∈ s.ids, (call.run default s).hidden id = (call.decides id).getD (s.hidden id) := by
  cases htarget : call.target with
  | none =>
    refine iff_of_true (fun id hide h => by simp [htarget] at h) fun id hid => ?_
    cases call with
    | addVideo user_id title description =>
      rw [Call.run, hidden_addVideo, if_neg (Nat.ne_of_lt (lt_of_mem_ids hid)), Call.decides, htarget]
      rfl
    | enable id' => cases htarget
    | disable id' => cases htarget
  | some target =>
    obtain ⟨target, hide⟩ := target
    have hdecides : ∀ id, call.decides id = if target = id then some hide else none := fun id => by
      rw [Call.decides, htarget, Option.bind_some]
    constructor
    · intro h id hid
      rw [hidden_run_of_target htarget hid, hdecides]
      split_ifs with heq
      · rfl
      · exact (h target hide htarget id hid (Ne.symm heq)).symm
    · intro h target' hide' htarget' other hother hne
      obtain ⟨rfl, rfl⟩ := Prod.mk.inj (Option.some.inj (htarget.symm.trans htarget'))
      have hcall := h other hother
      rw [hidden_run_of_target htarget hother, hdecides, if_neg hne.symm] at hcall
      exact hcall.symm

/-! ## All calls -/

theorem lastCall_cons (id : Nat) (call : Call) (calls : List Call) (hide : Bool) :
    (lastCall id (call :: calls)).getD hide = (lastCall id calls).getD ((call.decides id).getD hide) := by
  rw [lastCall, lastCall]
  cases hdecides : call.decides id with
  | none => rw [List.filterMap_cons_none hdecides, Option.getD_none]
  | some hide' => rw [List.filterMap_cons_some hdecides, List.getLast?_cons, Option.getD_some, Option.getD_some]

/-- Harmless calls leave every video to its own calls. -/
theorem hidden_runCalls (h : ∀ before call, before ++ [call] <+: calls → Harmless (runCalls default s before) call)
    (hid : id ∈ s.ids) : (runCalls default s calls).hidden id = (lastCall id calls).getD (s.hidden id) := by
  induction calls generalizing s with
  | nil => rfl
  | cons call calls ih =>
    have hfirst : (call.run default s).hidden id = (call.decides id).getD (s.hidden id) :=
      (harmless_iff default).mp (h [] call ⟨calls, rfl⟩) id hid
    have hrest := ih (fun before c hc => h (call :: before) c (List.cons_prefix_cons.mpr ⟨rfl, hc⟩))
      (mem_ids_run default call hid)
    rw [lastCall_cons, ← hfirst, ← hrest]
    rfl

/-- **When videos are left to their own calls**: every call of `enable` or `disable` finds the other videos already as
it leaves them. -/
theorem ownCalls_iff (default : Option Nat) (s : Table) (calls : List Call) :
    OwnCalls default s calls ↔
      ∀ before call, before ++ [call] <+: calls → Harmless (runCalls default s before) call := by
  have happend : ∀ before after,
      runCalls default s (before ++ after) = runCalls default (runCalls default s before) after :=
    fun before after => List.foldl_append ..
  constructor
  · intro h before call hprefix
    refine (harmless_iff default).mpr fun id hid => ?_
    have hcall := h before [call] hprefix id hid
    rwa [lastCall_cons, happend] at hcall
  · intro h before after hprefix id hid
    rw [happend]
    refine hidden_runCalls (fun earlier call hearlier => ?_) hid
    rw [← happend]
    refine h _ call (List.IsPrefix.trans ?_ hprefix)
    rw [List.append_assoc]
    exact (List.prefix_append_right_inj before).mpr hearlier

/-- An upload that is finished publishes the video of another user. -/
theorem not_ownCalls_upload : ¬∀ (default : Option Nat) (s : Table) (calls : List Call), OwnCalls default s calls := by
  intro h
  have hcalls := h none Table.empty [.addVideo [0x61] [] [], .disable 1, .addVideo [0x62] [] [], .enable 2]
  have hhidden := hcalls [.addVideo [0x61] [] [], .disable 1] [.addVideo [0x62] [] [], .enable 2] ⟨[], rfl⟩ 1 (by decide)
  exact absurd hhidden (by decide)

end LeftFelt.Videos
