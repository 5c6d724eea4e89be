import LeftFelt.Base.Str
import LeftFelt.Lib.ReadModifyWrite
import Mathlib.Data.List.DropRight

/-!
# The comments of a video

The comments of a video are the children of the root of an XML file. `Comments::add` removes the first ones while there
are `COMMENTS_MAX` or more, appends the new one and saves the file: so the file keeps the last `COMMENTS_MAX` comments,
as long as one request comes after the other (`posted_file`).

`add` works on what `load` has read. Of requests that overlap, one saves a file without the comments that have been
saved since it has loaded: all comments are kept exactly if no two requests overlap (`keptAll_iff`).
-/

namespace LeftFelt.Thread

open Lib.ReadModifyWrite

/-! ## The document -/

/-- An element `comment`: its attributes and its text. -/
structure Comment where
  user_id : Str
  start : Str
  end_ : Str
  speed : Str
  comment : Str
  deriving DecidableEq

/-- The children of the root element. -/
abbrev Document := List Comment

/-- `COMMENTS_MAX`. -/
def commentsMax : Nat := 1000

/-- The loop that removes the first child while there are too many, for at most so many rounds. -/
def removeFirst : Nat → Document → Option Document
  | 0, _ => none
  | rounds + 1, comments =>
    if commentsMax ≤ comments.length then removeFirst rounds comments.tail else some comments

/-- What `add` makes of the document. The loop has a round for every child, and one more. -/
def append (comment : Comment) (comments : Document) : Option Document :=
  (removeFirst (comments.length + 1) comments).map (· ++ [comment])

/-! ## The methods -/

/-- The file of a video, and the document of an object of the class, which is `null` at first. -/
structure Comments where
  file : Option Document
  dom : Option Document

namespace Comments

/-- `new Comments()`, when there is no file. -/
def init : Comments := ⟨none, none⟩

/-- `load`. A file that is not there leaves the document as it is. -/
def load (s : Comments) : Comments := { s with dom := s.file.or s.dom }

/-- `$this->dom->save`. -/
def save (s : Comments) : Comments := { s with file := s.dom }

/-- `create`. -/
def create (s : Comments) : Comments := if s.file.isSome then s.load else { s with dom := some [] }.save

/-- `add`, which fails without a document. -/
def add (comment : Comment) (s : Comments) : Option Comments :=
  (s.dom.bind (append comment)).map fun dom => { s with dom := some dom }.save

/-- A comment, and whether it is added to a new object that has loaded the file, or to the object that is there. -/
structure Post where
  fresh : Bool
  comment : Comment

/-- One request. -/
def post (s : Comments) (p : Post) : Option Comments :=
  if p.fresh then ({ s with dom := none } : Comments).load.add p.comment else s.add p.comment

/-- The requests one after the other. -/
def posted (s : Comments) (posts : List Post) : Option Comments := posts.foldlM post s

end Comments

open Comments

/-! ## The loop -/

/-- The last elements of a list do not depend on what else stands in front of them. -/
theorem rtake_append_rtake {α : Type*} (l l' : List α) (n : Nat) : (l.rtake n ++ l').rtake n = (l ++ l').rtake n := by
  simp [List.rtake_eq_reverse_take_reverse, List.take_append, List.take_take]

theorem rtake_of_length_le {α : Type*} {l : List α} {n : Nat} (h : l.length ≤ n) : l.rtake n = l := by
  rw [List.rtake, Nat.sub_eq_zero_of_le h, List.drop_zero]

theorem length_rtake_le {α : Type*} (l : List α) (n : Nat) : (l.rtake n).length ≤ l.length := by simp [List.rtake]

/-- **The loop ends**: at most `COMMENTS_MAX - 1` children are left, the last ones. -/
theorem removeFirst_eq {rounds : Nat} {comments : Document} (h : comments.length < rounds) :
    removeFirst rounds comments = some (comments.rtake (commentsMax - 1)) := by
  induction rounds generalizing comments with
  | zero => exact absurd h (Nat.not_lt_zero _)
  | succ rounds ih =>
    rw [removeFirst]
    split_ifs with hmax
    · cases comments with
      | nil => exact absurd hmax (by decide)
      | cons c comments =>
        rw [List.length_cons] at h hmax
        have hpos : 0 < commentsMax := by decide
        have hdrop : comments.length + 1 - (commentsMax - 1) = comments.length - (commentsMax - 1) + 1 := by omega
        rw [List.tail_cons, ih (by omega), List.rtake, List.rtake, List.length_cons, hdrop, List.drop_succ_cons]
    · rw [rtake_of_length_le (by omega)]

theorem append_eq (comment : Comment) (comments : Document) :
    append comment comments = some ((comments ++ [comment]).rtake commentsMax) := by
  have hpos : commentsMax = commentsMax - 1 + 1 := by decide
  rw [append, removeFirst_eq (Nat.lt_succ_self _), Option.map_some, hpos, List.rtake_concat_succ, Nat.add_sub_cancel]

/-! ## One request after the other -/

/-- The file and the document are there, with the same comments. -/
def Saved (comments : Document) (s : Comments) : Prop := s = ⟨some comments, some comments⟩

theorem saved_post {comments : Document} {s : Comments} (hs : Saved comments s) (p : Post) :
    ∃ s', s.post p = some s' ∧ Saved ((comments ++ [p.comment]).rtake commentsMax) s' := by
  subst hs
  obtain ⟨fresh, comment⟩ := p
  refine ⟨_, ?_, rfl⟩
  cases fresh <;> simp [post, load, add, append_eq, save]

theorem saved_posted {comments : Document} {s : Comments} (hs : Saved comments s) (hmax : comments.length ≤ commentsMax)
    (posts : List Post) :
    ∃ s', s.posted posts = some s' ∧ Saved ((comments ++ posts.map Post.comment).rtake commentsMax) s' := by
  induction posts generalizing comments s with
  | nil =>
    refine ⟨s, rfl, ?_⟩
    rwa [List.map_nil, List.append_nil, rtake_of_length_le hmax]
  | cons p posts ih =>
    obtain ⟨s', hpost, hs'⟩ := saved_post hs p
    obtain ⟨s'', hposts, hs''⟩ := ih hs' (by simp [List.rtake]; omega)
    refine ⟨s'', by simp [posted, hpost, ← hposts], ?_⟩
    rwa [rtake_append_rtake, List.append_assoc, List.singleton_append, ← List.map_cons] at hs''

/-- **The file keeps the last comments**, in the order in which they have been posted, and the loop of every request
ends. -/
theorem posted_file (posts : List Post) : ∃ s, init.create.posted posts = some s ∧
    s.file = some ((posts.map Post.comment).drop (posts.length - min posts.length commentsMax)) := by
  have hempty : Saved [] init.create := rfl
  obtain ⟨s, hposts, hs⟩ := saved_posted hempty (Nat.zero_le _) posts
  have hdrop : posts.length - min posts.length commentsMax = posts.length - commentsMax := by omega
  refine ⟨s, hposts, ?_⟩
  rw [hs, List.nil_append, List.rtake, List.length_map, hdrop]

/-! ## Requests that overlap -/

variable {ι : Type*}

/-- The requests load the file, add their comments to what they have loaded and save it, in an order in which each
takes these three steps. -/
structure Interleaving (requests : List ι) where
  steps : List ι
  perm : steps.Perm (serial requests)

/-- What a request does to the document that it has loaded. -/
def addTo (comment : ι → Comment) (i : ι) (dom : Option Document) : Option Document := dom.bind (append (comment i))

/-- The three steps of a request, one behind the other, are the calls of `thread.php`. -/
theorem file_post (comment : ι → Comment) (i : ι) (s : Comments) :
    (s.post ⟨true, comment i⟩).bind Comments.file = addTo comment i s.file := by
  cases hfile : s.file with
  | none => simp [post, load, add, hfile, addTo]
  | some dom => simp [post, load, add, hfile, addTo, append_eq, save]

theorem foldl_addTo (comment : ι → Comment) (file : Document) {requests : List ι}
    (hmax : file.length + requests.length ≤ commentsMax) :
    requests.foldl (fun dom i => addTo comment i dom) (some file) = some (file ++ requests.map comment) := by
  induction requests generalizing file with
  | nil => simp
  | cons i requests ih =>
    rw [List.length_cons] at hmax
    have hlength : (file ++ [comment i]).length ≤ commentsMax := by simp; omega
    rw [List.foldl_cons, addTo, Option.bind_some, append_eq, rtake_of_length_le hlength, ih _ (by simp; omega),
      List.append_assoc, List.singleton_append, List.map_cons]

/-- How many comments there are. -/
def length (file : Option Document) : Nat := (file.getD []).length

theorem length_addTo_le (comment : ι → Comment) (i : ι) (dom : Option Document) :
    length (addTo comment i dom) ≤ length dom + 1 := by
  cases dom with
  | none => exact Nat.zero_le _
  | some dom =>
    have hle := length_rtake_le (dom ++ [comment i]) commentsMax
    rw [List.length_append, List.length_singleton] at hle
    rwa [addTo, Option.bind_some, append_eq, length, length, Option.getD_some, Option.getD_some]

variable [DecidableEq ι]

/-- The file after the requests, where `comment i` is what the request `i` adds. -/
def fileAfter (comment : ι → Comment) (file : Document) {requests : List ι} (order : Interleaving requests) :
    Option Document :=
  (run (addTo comment) (start (some file)) order.steps).value

/-- **All comments are kept**: the old ones and those of all requests. -/
def KeptAll (comment : ι → Comment) (file : Document) {requests : List ι} (order : Interleaving requests) : Prop :=
  ∃ comments, fileAfter comment file order = some comments ∧ comments.Perm (file ++ requests.map comment)

/-- **When all comments are kept**: one request runs after the other. -/
theorem keptAll_iff (comment : ι → Comment) (file : Document) {requests : List ι} (hnodup : requests.Nodup)
    (hmax : file.length + requests.length ≤ commentsMax) (order : Interleaving requests) :
    KeptAll comment file order ↔ ∃ requests', requests'.Perm requests ∧ order.steps = serial requests' := by
  constructor
  · rintro ⟨comments, hafter, hperm⟩
    refine serial_of_size (length_addTo_le comment) hnodup order.perm (v := some file) ?_
    have hlength := hperm.length_eq
    rw [List.length_append, List.length_map] at hlength
    rw [← fileAfter, hafter]
    exact Nat.le_of_eq hlength.symm
  · rintro ⟨requests', hperm, hsteps⟩
    refine ⟨file ++ requests'.map comment, ?_, (hperm.map comment).append_left file⟩
    rw [fileAfter, hsteps, run_serial (hperm.nodup_iff.mpr hnodup) fun _ _ => rfl]
    exact foldl_addTo comment file (hperm.length_eq ▸ hmax)

/-- The comments of two clients. -/
def twoClients (client : Bool) : Comment := ⟨[if client then 0x61 else 0x62], [], [], [], [0x21]⟩

theorem keptAll_twoClients :
    KeptAll twoClients [] (⟨serial [true, false], .refl _⟩ : Interleaving [true, false]) :=
  (keptAll_iff twoClients [] (by decide) (by decide) _).mpr ⟨_, .refl _, rfl⟩

/-- Two requests that load the file before one of them has saved it: the first comment is lost. -/
theorem not_keptAll_twoClients : ¬∀ (comment : Bool → Comment) (file : Document) (order : Interleaving [true, false]),
    file.length + 2 < commentsMax → KeptAll comment file order := by
  intro h
  obtain ⟨comments, hafter, hperm⟩ := h twoClients [] ⟨[true, false, true, true, false, false], by decide⟩ (by decide)
  have hlost : some comments = some [twoClients false] := hafter.symm
  rw [Option.some.inj hlost] at hperm
  exact absurd hperm.length_eq (by decide)

end LeftFelt.Thread
