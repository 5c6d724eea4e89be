import LeftFelt.Base.Str
import LeftFelt.Lib.Pages

/-!
# The images

`imageManagerModel` on the table `image_url`: an id of its own for every row, which the database counts up, and no two
rows with the same address. What the database holds for the same, and what fits into the column, is up to it.

A page is a window on the rows in the order of their ids. Rows only come at the end, so a reader who goes from page to
page while others add rows misses none that was there at the start, and meets none twice (`ImageCrawler.readPages_run`).
-/

namespace LeftFelt.Web

open scoped List

/-- The column `url`: which strings fit into it, and what they are compared by. -/
structure Column (κ : Type*) where
  fits : Str → Bool
  key : Str → κ

/-- A row of `image_url`. -/
structure ImageRow where
  id : Nat
  url : Str
  deriving DecidableEq

variable {κ : Type*}

/-- The table `image_url`, and the id that comes next. -/
structure ImageTable (c : Column κ) where
  rows : List ImageRow
  next : Nat
  ordered : rows.Pairwise fun r r' => r.id < r'.id
  below : ∀ r ∈ rows, r.id < next
  distinct : (rows.map fun r => c.key r.url).Nodup
  fit : ∀ r ∈ rows, c.fits r.url

variable {c : Column κ}

namespace ImageTable

/-- The table of `db_setting.php`. -/
def create (c : Column κ) : ImageTable c := ⟨[], 1, .nil, by simp, .nil, by simp⟩

/-- An address that is in the table, as the database compares them. -/
def Has (t : ImageTable c) (url : Str) : Prop := ∃ r ∈ t.rows, c.key r.url = c.key url

instance [DecidableEq κ] (t : ImageTable c) (url : Str) : Decidable (t.Has url) :=
  inferInstanceAs (Decidable (∃ r ∈ t.rows, c.key r.url = c.key url))

/-- A row at the end. -/
def push (t : ImageTable c) (url : Str) (hfits : c.fits url) (hnew : ¬t.Has url) : ImageTable c where
  rows := t.rows ++ [⟨t.next, url⟩]
  next := t.next + 1
  ordered := List.pairwise_append.2 ⟨t.ordered, List.pairwise_singleton _ _, fun r hr r' hr' => by
    rw [List.mem_singleton.1 hr']
    exact t.below r hr⟩
  below := fun r hr => by
    rcases List.mem_append.1 hr with hr | hr
    · exact (t.below r hr).trans (Nat.lt_succ_self _)
    · rw [List.mem_singleton.1 hr]
      exact Nat.lt_succ_self _
  distinct := by
    rw [List.map_append, List.map_singleton, ← List.concat_eq_append, List.nodup_concat]
    refine ⟨fun hmem => ?_, t.distinct⟩
    obtain ⟨r, hr, hkey⟩ := List.mem_map.1 hmem
    exact hnew ⟨r, hr, hkey⟩
  fit := fun r hr => by
    rcases List.mem_append.1 hr with hr | hr
    · exact t.fit r hr
    · rw [List.mem_singleton.1 hr]
      exact hfits

/-- Ids that a failed statement has used up. -/
def skip (t : ImageTable c) (n : Nat) : ImageTable c :=
  { t with next := t.next + n, below := fun r hr => (t.below r hr).trans_le (Nat.le_add_right _ _) }

end ImageTable

namespace imageManagerModel

/-- `set($url)`. The database may use up ids before it inserts the row, or when it does not. -/
def set [DecidableEq κ] (skipped : Nat) (url : Str) (t : ImageTable c) : ImageTable c × Bool :=
  let t := t.skip skipped
  if h : c.fits url ∧ ¬t.Has url then (t.push url h.1 h.2, true) else (t, false)

/-- `get($id)`. -/
def get (id : Nat) (t : ImageTable c) : Option ImageRow := t.rows.find? (·.id = id)

/-- `getCount()`. -/
def getCount (t : ImageTable c) : Nat := t.rows.length

/-- `$sort`. -/
inductive Order where
  | ASC
  | DESC
  deriving DecidableEq

/-- `getPage($page, $view, 'id', $sort)`: `null` if the offset is negative. -/
def getPage (page : Int) (view : Nat) (sort : Order) (t : ImageTable c) : Option (List ImageRow) :=
  let rows := match sort with
    | .ASC => t.rows
    | .DESC => t.rows.reverse
  if (page - 1) * view < 0 then none else some ((rows.drop ((page - 1) * view).toNat).take view)

variable [DecidableEq κ]

/-- What `set` makes of the rows. -/
theorem set_rows (skipped : Nat) (url : Str) (t : ImageTable c) :
    (set skipped url t).1.rows =
      if c.fits url ∧ ¬t.Has url then t.rows ++ [⟨t.next + skipped, url⟩] else t.rows := by
  have hhas : (t.skip skipped).Has url ↔ t.Has url := Iff.rfl
  unfold set
  by_cases h : c.fits url ∧ ¬t.Has url
  · rw [dif_pos (by rwa [hhas]), if_pos h]
    rfl
  · rw [dif_neg (by rwa [hhas]), if_neg h]
    rfl

/-- Rows come at the end only. -/
theorem rows_prefix_set (skipped : Nat) (url : Str) (t : ImageTable c) : t.rows <+: (set skipped url t).1.rows := by
  rw [set_rows]
  split
  · exact List.prefix_append _ _
  · exact List.prefix_rfl

/-- A string that fits is in the table afterwards. -/
theorem has_set (skipped : Nat) {url : Str} (hfits : c.fits url) (t : ImageTable c) : (set skipped url t).1.Has url := by
  unfold ImageTable.Has
  rw [set_rows]
  by_cases h : t.Has url
  · rw [if_neg (by simp [h])]
    exact h
  · rw [if_pos ⟨hfits, h⟩]
    exact ⟨_, List.mem_append_right _ List.mem_cons_self, rfl⟩

/-- A row that is new has the string. -/
theorem mem_set {skipped : Nat} {url : Str} {t : ImageTable c} {r : ImageRow} (h : r ∈ (set skipped url t).1.rows) :
    r ∈ t.rows ∨ r.url = url := by
  rw [set_rows] at h
  split at h
  · rcases List.mem_append.1 h with h | h
    · exact .inl h
    · exact .inr (by rw [List.mem_singleton.1 h])
  · exact .inl h

omit [DecidableEq κ] in
/-- What is in a table is in every one with more rows. -/
theorem has_of_prefix {t t' : ImageTable c} (h : t.rows <+: t'.rows) {url : Str} (hurl : t.Has url) : t'.Has url := by
  obtain ⟨r, hr, hkey⟩ := hurl
  exact ⟨r, h.subset hr, hkey⟩

end imageManagerModel

/-! ## Page by page -/

section Pages

open imageManagerModel Lib.Pages

/-- Pages are counted from 1. -/
theorem getPage_succ (page view : Nat) (t : ImageTable c) :
    getPage ((page + 1 : Nat) : Int) view .ASC t = some (Lib.Pages.page view page t.rows) := by
  have hoffset : (((page + 1 : Nat) : Int) - 1) * view = ((page * view : Nat) : Int) := by push_cast; ring
  rw [getPage, hoffset]
  simp only [if_neg (not_lt.2 (Int.natCast_nonneg (page * view))), Int.toNat_natCast, Lib.Pages.page]

/-- The pages from number `page` on, each read from the table as it is by then. -/
def readPages (view : Nat) : Nat → List (ImageTable c) → Option (List ImageRow)
  | _, [] => some []
  | page, t :: ts => do
    let rows ← getPage page view .ASC t
    let rest ← readPages view (page + 1) ts
    return rows ++ rest

theorem readPages_succ (view page : Nat) (ts : List (ImageTable c)) :
    readPages view (page + 1) ts = some (pages view page (ts.map ImageTable.rows)) := by
  induction ts generalizing page with
  | nil => rfl
  | cons t ts ih => rw [readPages, getPage_succ, ih]; rfl

end Pages

end LeftFelt.Web
