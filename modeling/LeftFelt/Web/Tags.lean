import LeftFelt.Web.Escape
import LeftFelt.Lib.Segments
import LeftFelt.Lib.Standing
import Mathlib.Data.Finset.Max

/-!
# The tags of a video

`Videos` keeps the tags of the videos in the table `tags`, escaped, and reads those of a video as one string with commas
between them, which it takes apart without unescaping. The tags in the table are the current ones (`mem_runTags`): they
have been added and not been deleted since. What is read are exactly these tags, if there is one and if none of them has
a comma or a byte that is escaped (`getVideoTags_iff`).
-/

namespace LeftFelt.Videos

open Lib.Segments Lib.Standing Functions

/-! ## The table -/

/-- A row of `tags`. -/
structure TagRow where
  video_id : Nat
  tag : Str
  deriving DecidableEq

/-- `','`. -/
def comma : UInt8 := 0x2C

/-- The order in which `group_concat` puts the values of a group. -/
structure ConcatOrder where
  order : List Str → List Str
  perm : ∀ tags, (order tags).Perm tags

/-- `addVideoTag`, where `unique` says whether the table has a unique key, so that `insert` fails for a row that is
already there. -/
def addVideoTag (unique : Bool) (id : Nat) (tag : Str) (tags : List TagRow) : List TagRow × Bool :=
  let row : TagRow := ⟨id, escapeString tag⟩
  if unique ∧ row ∈ tags then (tags, false) else (tags ++ [row], true)

/-- `deleteVideoTag`. -/
def deleteVideoTag (id : Nat) (tag : Str) (tags : List TagRow) : List TagRow × Bool :=
  let tag := escapeString tag
  (tags.filter fun row => ¬(row.video_id = id ∧ row.tag = tag), true)

/-- `select group_concat(tag) ... group by video_id`: there is no row if the video has no tags. -/
def groupConcat (concat : ConcatOrder) (tags : List Str) : Option Str :=
  if tags = [] then none else some ([comma].intercalate (concat.order tags))

/-- The values of the column `tag` in the rows of a video. -/
def tagsOf (id : Nat) (tags : List TagRow) : List Str := (tags.filter (·.video_id = id)).map TagRow.tag

/-- `getVideoTags`. Without a row, `explode` is called with `null`, which is an empty string for it. -/
def getVideoTags (concat : ConcatOrder) (id : Nat) (tags : List TagRow) : List Str :=
  ((groupConcat concat (tagsOf id tags)).getD []).splitOn comma

/-! ## Calls -/

/-- A call that changes the tags of a video. -/
inductive TagCall where
  | addVideoTag (id : Nat) (tag : Str)
  | deleteVideoTag (id : Nat) (tag : Str)
  deriving DecidableEq

/-- One call. -/
def TagCall.run (unique : Bool) (tags : List TagRow) : TagCall → List TagRow
  | .addVideoTag id tag => (Videos.addVideoTag unique id tag tags).1
  | .deleteVideoTag id tag => (Videos.deleteVideoTag id tag tags).1

/-- The table after some calls, which is empty at first. -/
def runTags (unique : Bool) (calls : List TagCall) : List TagRow := calls.foldl (TagCall.run unique) []

/-- The tag has been added to the video and has not been deleted since. -/
def Current (calls : List TagCall) (id : Nat) (tag : Str) : Prop :=
  Stands (.addVideoTag id tag) (.deleteVideoTag id tag) calls

theorem runTags_concat (unique : Bool) (calls : List TagCall) (call : TagCall) :
    runTags unique (calls ++ [call]) = call.run unique (runTags unique calls) := List.foldl_concat ..

variable {unique : Bool} {tags : List TagRow} {calls : List TagCall} {id : Nat} {tag : Str}

theorem mem_addVideoTag {row : TagRow} :
    row ∈ (addVideoTag unique id tag tags).1 ↔ row = ⟨id, escapeString tag⟩ ∨ row ∈ tags := by
  rw [addVideoTag]
  split_ifs with h
  · exact ⟨Or.inr, fun hrow => hrow.elim (fun heq => heq ▸ h.2) fun hmem => hmem⟩
  · simp [or_comm]

theorem mem_deleteVideoTag {row : TagRow} :
    row ∈ (deleteVideoTag id tag tags).1 ↔ row ∈ tags ∧ row ≠ ⟨id, escapeString tag⟩ := by
  obtain ⟨row_id, row_tag⟩ := row
  simp [deleteVideoTag, imp_iff_not_or]

/-- All tags in the table are escaped. -/
theorem escaped_runTags {row : TagRow} (h : row ∈ runTags unique calls) : ∃ tag, row.tag = escapeString tag := by
  induction calls using List.reverseRecOn with
  | nil => cases h
  | append_singleton calls call ih =>
    rw [runTags_concat] at h
    cases call with
    | addVideoTag id tag =>
      rcases mem_addVideoTag.mp h with rfl | h
      · exact ⟨tag, rfl⟩
      · exact ih h
    | deleteVideoTag id tag => exact ih (mem_deleteVideoTag.mp h).1

/-- **A tag is in the table exactly if it is current.** -/
theorem mem_runTags : ⟨id, escapeString tag⟩ ∈ runTags unique calls ↔ Current calls id tag := by
  induction calls using List.reverseRecOn with
  | nil => exact iff_of_false List.not_mem_nil not_stands_nil
  | append_singleton calls call ih =>
    rw [Current, stands_concat, ← Current, ← ih, runTags_concat]
    cases call with
    | addVideoTag id' tag' =>
      rw [TagCall.run, mem_addVideoTag]
      simp [escapeString_injective.eq_iff, eq_comm]
    | deleteVideoTag id' tag' =>
      rw [TagCall.run, mem_deleteVideoTag]
      simp [escapeString_injective.eq_iff, eq_comm]

theorem mem_tagsOf : tag ∈ tagsOf id tags ↔ ⟨id, tag⟩ ∈ tags := by
  rw [tagsOf, List.mem_map]
  constructor
  · rintro ⟨⟨row_id, row_tag⟩, hrow, rfl⟩
    obtain ⟨hmem, hid⟩ := List.mem_filter.mp hrow
    rwa [← of_decide_eq_true hid]
  · exact fun h => ⟨⟨id, tag⟩, List.mem_filter.mpr ⟨h, by simp⟩, rfl⟩

/-- The tags that are read from the database are the current ones, escaped. -/
theorem mem_tagsOf_runTags : tag ∈ tagsOf id (runTags unique calls) ↔
    ∃ t, Current calls id t ∧ escapeString t = tag := by
  rw [mem_tagsOf]
  constructor
  · intro h
    obtain ⟨t, ht⟩ := escaped_runTags h
    obtain rfl : tag = escapeString t := ht
    exact ⟨t, mem_runTags.mp h, rfl⟩
  · rintro ⟨t, ht, rfl⟩
    exact mem_runTags.mpr ht

/-! ## Reading -/

theorem getVideoTags_of_empty {concat : ConcatOrder} (h : tagsOf id tags = []) :
    getVideoTags concat id tags = [[]] := by
  rw [getVideoTags, groupConcat, if_pos h]
  rfl

/-- Without commas the tags are taken apart as they were put together. -/
theorem getVideoTags_of_no_comma {concat : ConcatOrder} (hne : tagsOf id tags ≠ [])
    (h : ∀ tag ∈ tagsOf id tags, comma ∉ tag) : getVideoTags concat id tags = concat.order (tagsOf id tags) := by
  have hperm := concat.perm (tagsOf id tags)
  rw [getVideoTags, groupConcat, if_neg hne, Option.getD_some]
  exact List.splitOn_intercalate comma (fun tag ht => h tag (hperm.mem_iff.mp ht)) fun hnil =>
    hne (List.perm_nil.mp (hnil ▸ hperm.symm))

/-- **The round trip**: what is read are exactly the current tags. -/
def ReadsCurrent (concat : ConcatOrder) (unique : Bool) (calls : List TagCall) (id : Nat) : Prop :=
  ∀ tag, tag ∈ getVideoTags concat id (runTags unique calls) ↔ Current calls id tag

theorem comma_mem_escapeString : comma ∈ escapeString tag ↔ comma ∈ tag := mem_escapeString (by decide) tag

/-- A current tag that is not plain would be read as a longer one, which would be current then. -/
theorem plain_of_closed (h : ∀ tag, Current calls id tag → Current calls id (escapeString tag))
    (hcurrent : Current calls id tag) : Plain tag := by
  by_contra hplain
  let long := (tagsOf id (runTags false calls)).toFinset.filter (¬Plain ·)
  have hmem : ∀ {t}, Current calls id t → ¬Plain t → escapeString t ∈ long := fun ht hnot =>
    Finset.mem_filter.mpr ⟨List.mem_toFinset.mpr (mem_tagsOf_runTags.mpr ⟨_, ht, rfl⟩), not_plain_escapeString hnot⟩
  obtain ⟨longest, hlongest, hmax⟩ := long.exists_max_image List.length ⟨_, hmem hcurrent hplain⟩
  obtain ⟨hlisted, hnot⟩ := Finset.mem_filter.mp hlongest
  obtain ⟨t, ht, rfl⟩ := mem_tagsOf_runTags.mp (List.mem_toFinset.mp hlisted)
  exact absurd (hmax _ (hmem (h t ht) hnot)) (Nat.not_le.mpr (lt_length_escapeString hnot))

/-- **When the current tags are read**: there is one, and none of them has a comma or a byte that is escaped. -/
theorem getVideoTags_iff (concat : ConcatOrder) (unique : Bool) (calls : List TagCall) (id : Nat) :
    ReadsCurrent concat unique calls id ↔
      (∃ tag, Current calls id tag) ∧ ∀ tag, Current calls id tag → comma ∉ tag ∧ Plain tag := by
  by_cases hempty : tagsOf id (runTags unique calls) = []
  · -- without a tag an empty one is read
    have hnone : ∀ tag, ¬Current calls id tag := fun tag htag =>
      List.ne_nil_of_mem (mem_tagsOf_runTags.mpr ⟨tag, htag, rfl⟩) hempty
    refine iff_of_false (fun h => hnone [] ((h []).mp ?_)) fun h => h.1.elim hnone
    rw [getVideoTags_of_empty hempty]
    exact List.mem_singleton_self []
  · obtain ⟨_, hmem⟩ := List.exists_mem_of_ne_nil _ hempty
    obtain ⟨tag, htag, -⟩ := mem_tagsOf_runTags.mp hmem
    rw [and_iff_right ⟨tag, htag⟩]
    have hperm := concat.perm (tagsOf id (runTags unique calls))
    have hread : (∀ t, Current calls id t → comma ∉ t) →
        ∀ t, t ∈ getVideoTags concat id (runTags unique calls) ↔ ∃ t', Current calls id t' ∧ escapeString t' = t := by
      intro hcomma t
      rw [getVideoTags_of_no_comma hempty, hperm.mem_iff, mem_tagsOf_runTags]
      intro e he
      obtain ⟨t', ht', rfl⟩ := mem_tagsOf_runTags.mp he
      rw [comma_mem_escapeString]
      exact hcomma t' ht'
    constructor
    · intro h
      have hcomma : ∀ t, Current calls id t → comma ∉ t := fun t ht => not_mem_of_mem_splitOn ((h t).mpr ht)
      exact fun t ht => ⟨hcomma t ht, plain_of_closed (fun t ht => (h _).mp ((hread hcomma _).mpr ⟨t, ht, rfl⟩)) ht⟩
    · intro h t
      rw [hread fun t ht => (h t ht).1]
      refine ⟨fun ⟨t', ht', heq⟩ => ?_, fun ht => ⟨t, ht, escapeString_of_plain (h t ht).2⟩⟩
      rwa [← heq, escapeString_of_plain (h t' ht').2]

/-- A tag with a percent sign is read with what it has been escaped with. -/
theorem not_readsCurrent_percent : ¬∀ (concat : ConcatOrder) (unique : Bool) (calls : List TagCall) (id : Nat),
    ReadsCurrent concat unique calls id := by
  intro h
  have hread := h ⟨id, fun tags => .refl tags⟩ true [.addVideoTag 1 [percent]] 1 [percent]
  have hcurrent : Current [.addVideoTag 1 [percent]] 1 [percent] := ⟨[], [], rfl, List.not_mem_nil⟩
  exact absurd (hread.mpr hcurrent) (by decide)

end LeftFelt.Videos
