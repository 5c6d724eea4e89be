import LeftFelt.Base.UrlEncode
import LeftFelt.Lib.Ranks
import LeftFelt.Web.Tags
import Mathlib.Logic.Relation

/-!
# Lists of videos

The ranking and the searches show the videos that are not deleted, in the order of a number, some of them on each
page. The database may order equal numbers otherwise for every page. So a video is found on a page, whatever the
database does, exactly if the videos above it and those that are equal to it are all on this page or in front of it
(`found_iff`): in a ranking with equal numbers a video may be on two pages, or on none.

`getPages` offers the pages from five before to four behind the one that is shown. The links for them carry the page,
and the keyword of a search, but neither `view` nor `tag`. From a page without these two all pages with videos can be
reached by the links, and no others (`browse`). A page with its own `view` offers pages that are empty (`offers_empty`).
-/

namespace LeftFelt.Videos

open Lib Functions Str

/-! ## The queries -/

/-- A row of `videos`, with what the lists read of it. -/
structure VideoRow where
  id : Nat
  user_id : Str
  title : Str
  description : Str
  view : Nat
  comment_count : Nat
  created : Int
  deleted : Option Nat
  deriving DecidableEq

/-- The tables `videos`, with its primary key, and `tags`. -/
structure Library where
  videos : List VideoRow
  distinct : (videos.map VideoRow.id).Nodup
  tags : List TagRow

/-- What a list shows of a video: `VIDEOS_COLUMM` and the tags. -/
structure Listed where
  id : Nat
  user_id : Str
  title : Str
  description : Str
  view : Nat
  comment_count : Nat
  tags : List Str
  deriving DecidableEq

/-- A row of the result, whose tags `parseTags` takes apart. -/
def listed (concat : ConcatOrder) (tags : List TagRow) (v : VideoRow) : Listed :=
  ⟨v.id, v.user_id, v.title, v.description, v.view, v.comment_count, getVideoTags concat v.id tags⟩

/-- A query for a list: its condition, and the number after which it is ordered, the greatest one first. -/
structure Listing where
  condition : Library → VideoRow → Bool
  order_by : VideoRow → Int

/-- The query of `getRanking`. -/
def getRanking : Listing where
  condition _ v := v.deleted = none
  order_by v := v.view + v.comment_count

/-- The query of `userVideo($name)`, where `same` is `=`. -/
def userVideo (same : Str → Str → Bool) (name : Str) : Listing where
  condition _ v := v.deleted = none ∧ same v.user_id name
  order_by v := v.created

/-- `'%'`. -/
def percent : UInt8 := 0x25

/-- What `like` is given: the blanks and the ends stand for any text. -/
def pattern (keyword : Str) : Str :=
  percent :: (escapeString keyword).map (fun c => if c = space then percent else c) ++ [percent]

/-- The query of `searchVideo($keyword)`, where `like` is `like`. -/
def searchVideo (like : Str → Str → Bool) (keyword : Str) : Listing where
  condition _ v := v.deleted = none ∧ (like v.title (pattern keyword) ∨ like v.description (pattern keyword))
  order_by v := v.created

/-- The query of `searchTag($tag)`. -/
def searchTag (like : Str → Str → Bool) (tag : Str) : Listing where
  condition s v := v.deleted = none ∧ (s.tags.any fun row => row.video_id = v.id ∧ like row.tag (pattern tag))
  order_by v := v.created

namespace Listing

variable (q : Listing) (s : Library)

/-- The rows of the result without its limits. -/
def shown : List VideoRow := s.videos.filter (q.condition s)

/-- `getTotal()`. -/
def getTotal : Nat := (q.shown s).length

/-- The database has put the rows of the result into this order. -/
def Ordered (order : List VideoRow) : Prop := Ranks.Ranking q.order_by (q.shown s) order

end Listing

/-- The result with its limits: `limit $view offset ($page-1)*$view`. -/
def fetch (concat : ConcatOrder) (tags : List TagRow) (page view : Nat) (order : List VideoRow) : List Listed :=
  (Pages.page view (page - 1) order).map (listed concat tags)

/-- `getPages($page, $view, $total, $num)`. -/
def getPages (page : Int) (view total num : Nat) : List Int :=
  ((List.range num).map fun i : Nat => (i : Int) - (num / 2 : Nat) + page).filter fun p =>
    0 < p ∧ p ≤ (total + view - 1) / view

/-- The page that is asked for: the first one, if none is. -/
def pageNumber (page : Option Int) : Nat := if page.getD 0 ≤ 0 then 1 else (page.getD 0).toNat

/-- What `ranking.php`, `search.php` and `mypage.php` show. -/
structure ListPage where
  video_list : List Listed
  total : Nat
  pages : List Int

/-- The page of a list, for the parameters `page` and `view`. -/
def listPage (concat : ConcatOrder) (q : Listing) (s : Library) (order : List VideoRow) (page : Option Int)
    (view : Option Nat) : ListPage where
  video_list := fetch concat s.tags (pageNumber page) (view.getD 20) order
  total := q.getTotal s
  pages := getPages (pageNumber page) (view.getD 20) (q.getTotal s) 10

section Pages

variable {q : Listing} {s : Library} {concat : ConcatOrder} {v : VideoRow} {order : List VideoRow} {page view : Nat}

@[simp] theorem pageNumber_some {p : Int} (hp : 1 ≤ p) : (pageNumber (some p) : Int) = p := by
  simp [pageNumber]
  omega

theorem pageNumber_natCast (hpage : 1 ≤ page) : pageNumber (some page) = page := by
  simp [pageNumber]
  omega

/-! ## On which page a video is -/

theorem nodup_shown (q : Listing) (s : Library) : (q.shown s).Nodup := (List.Nodup.of_map _ s.distinct).filter _

/-- What is shown of two videos differs, in the id. -/
theorem listed_inj {w : VideoRow} (hv : v ∈ q.shown s) (hw : w ∈ q.shown s)
    (h : listed concat s.tags v = listed concat s.tags w) : v = w :=
  List.inj_on_of_nodup_map s.distinct (List.mem_of_mem_filter hv) (List.mem_of_mem_filter hw) (Listed.mk.inj h).1

theorem mem_page_subset {w : VideoRow} {n : Nat} (horder : q.Ordered s order) (hw : w ∈ Pages.page view n order) :
    w ∈ q.shown s :=
  horder.1.mem_iff.1 (List.mem_of_mem_drop (List.mem_of_mem_take hw))

theorem mem_fetch (hv : v ∈ q.shown s) (horder : q.Ordered s order) :
    listed concat s.tags v ∈ fetch concat s.tags page view order ↔ v ∈ Pages.page view (page - 1) order := by
  constructor
  · intro h
    obtain ⟨w, hw, hsame⟩ := List.mem_map.1 h
    rwa [listed_inj hv (mem_page_subset horder hw) hsame.symm]
  · exact List.mem_map_of_mem

/-- **When a video is found on a page**, in whichever order the database puts equal numbers: the videos with greater
numbers fill the pages in front of it, and those with smaller ones begin behind it. -/
theorem found_iff (concat : ConcatOrder) (hv : v ∈ q.shown s) (hpage : 1 ≤ page) :
    (∀ order, q.Ordered s order →
      listed concat s.tags v ∈ (listPage concat q s order (some page) (some view)).video_list) ↔
      (page - 1) * view ≤ (q.shown s).countP (q.order_by v < q.order_by ·) ∧
        (q.shown s).countP (q.order_by v ≤ q.order_by ·) ≤ page * view := by
  have hnext : page - 1 + 1 = page := Nat.sub_add_cancel hpage
  rw [← Ranks.above, ← Ranks.reach, ← congrArg (· * view) hnext, ← Ranks.mem_page_iff (nodup_shown q s) hv]
  refine forall₂_congr fun order horder => ?_
  rw [listPage, pageNumber_natCast hpage, Option.getD_some]
  exact mem_fetch hv horder

/-- Two videos of which one has been viewed, the other one commented. -/
def twoVideos : Library where
  videos := [⟨1, literal "ann", literal "a", [], 1, 0, 0, none⟩, ⟨2, literal "bob", literal "b", [], 0, 1, 0, none⟩]
  distinct := by decide
  tags := []

/-- The tags in the order of their rows. -/
def rowOrder : ConcatOrder := ⟨id, fun _ => .rfl⟩

/-- Neither of them is the first one. -/
theorem found_iff_two : ¬∀ order, getRanking.Ordered twoVideos order →
    listed rowOrder [] ⟨1, literal "ann", literal "a", [], 1, 0, 0, none⟩ ∈
      (listPage rowOrder getRanking twoVideos order (some (1 : Nat)) (some 1)).video_list := fun h =>
  absurd ((found_iff rowOrder (s := twoVideos) (by decide) le_rfl).1 h) (by decide)

/-! ## From page to page -/

/-- The last page with videos. -/
def lastPage (total view : Nat) : Nat := (total + view - 1) / view

/-- Which pages are offered. -/
theorem mem_getPages_iff {total : Nat} (hview : 1 ≤ view) {p p' : Int} : p' ∈ getPages p view total 10 ↔
    (p - 5 ≤ p' ∧ p' ≤ p + 4) ∧ 1 ≤ p' ∧ p' ≤ lastPage total view := by
  have hlast : ((lastPage total view : Nat) : Int) = (total + view - 1) / view := by
    rw [lastPage, Int.natCast_ediv]
    congr 1
    omega
  rw [getPages, hlast]
  simp only [List.mem_filter, List.mem_map, List.mem_range, decide_eq_true_eq]
  constructor
  · rintro ⟨⟨i, hi, rfl⟩, hpos, hle⟩
    exact ⟨⟨by omega, by omega⟩, by omega, hle⟩
  · rintro ⟨⟨hlow, hhigh⟩, hpos, hle⟩
    exact ⟨⟨(p' - p + 5).toNat, by omega, by omega⟩, by omega, hle⟩

theorem le_lastPage_iff {total : Nat} (hview : 1 ≤ view) (hpage : 1 ≤ page) :
    page ≤ lastPage total view ↔ (page - 1) * view < total := by
  rw [lastPage, Nat.le_div_iff_mul_le (by omega)]
  obtain ⟨n, rfl⟩ : ∃ n, page = n + 1 := ⟨page - 1, by omega⟩
  rw [Pages.succ_mul_view, Nat.add_sub_cancel]
  omega

end Pages

/-- What is listed: the ranking, what a search finds, by tags or by titles, or the videos of a user. -/
inductive Kind where
  | ranking
  | search (keyword : Str) (tag : Bool)
  | mypage (name : Str)
  deriving DecidableEq

/-- The query of a list. A search without a keyword finds nothing. -/
def Kind.query (same like : Str → Str → Bool) : Kind → Listing
  | .ranking => getRanking
  | .search [] _ => ⟨fun _ _ => false, fun _ => 0⟩
  | .search keyword true => searchTag like keyword
  | .search keyword false => searchVideo like keyword
  | .mypage name => userVideo same name

/-- A request for a page of a list. -/
structure Visit where
  kind : Kind
  page : Option Int
  view : Option Nat

/-- The videos, and how the database answers: its comparisons, and an order for every request, in which equal numbers
may stand otherwise each time. -/
structure Database where
  library : Library
  concat : ConcatOrder
  same : Str → Str → Bool
  like : Str → Str → Bool
  order : Visit → List VideoRow
  ordered : ∀ r : Visit, (r.kind.query same like).Ordered library (order r)

namespace Database

variable (d : Database)

/-- What `ranking.php`, `search.php` and `mypage.php` answer. -/
def answer (r : Visit) : ListPage :=
  listPage d.concat (r.kind.query d.same d.like) d.library (d.order r) r.page r.view

/-- How many videos there are in a list. -/
def total (kind : Kind) : Nat := (kind.query d.same d.like).getTotal d.library

end Database

/-- Letters, digits and what else stands for itself in an address and in a text of HTML. -/
def unreserved (c : UInt8) : Bool := isAlphabet c || isNumber c || (literal "-._").contains c

/-- The list that a link leads to: `ranking.php?page=`, `search.php?keyword=...&page=` or `mypage.php?&page=`. It is not
said whether the keyword is a tag, and the keyword is not encoded: only if it stands for itself, it is known what
arrives. -/
def Kind.linked : Kind → Option Kind
  | .search keyword _ => if keyword.all unreserved then some (.search keyword false) else none
  | kind => some kind

/-- The request that the link for the page `p` makes. -/
def Visit.follow (r : Visit) (p : Int) : Option Visit := r.kind.linked.map fun kind => ⟨kind, some p, none⟩

/-- The answer to `r` has a link that makes the request `r'`. -/
def Offers (d : Database) (r r' : Visit) : Prop := ∃ p ∈ (d.answer r).pages, r.follow p = some r'

section Browse

variable {d : Database} {kind : Kind}

/-- The last page that the links of a list lead to. -/
def Database.last (d : Database) (kind : Kind) : Nat := lastPage (d.total kind) 20

theorem offers_iff (hlinked : kind.linked = some kind) {p : Int} (hp : 1 ≤ p) {r : Visit} :
    Offers d ⟨kind, some p, none⟩ r ↔
      ∃ p' : Int, ((p - 5 ≤ p' ∧ p' ≤ p + 4) ∧ 1 ≤ p' ∧ p' ≤ d.last kind) ∧ r = ⟨kind, some p', none⟩ := by
  have hpages : (d.answer ⟨kind, some p, none⟩).pages = getPages p 20 (d.total kind) 10 := by
    rw [Database.answer, listPage, pageNumber_some hp]
    rfl
  simp only [Offers, hpages, Visit.follow, hlinked, Option.map_some, Option.some.injEq,
    mem_getPages_iff (show 1 ≤ 20 by decide)]
  exact exists_congr fun p' => and_congr_right fun _ => eq_comm

/-- From one page to another one that has videos, page by page. -/
theorem reach_page (hlinked : kind.linked = some kind) {p p' : Int} (hp : 1 ≤ p ∧ p ≤ d.last kind)
    (hp' : 1 ≤ p' ∧ p' ≤ d.last kind) :
    Relation.ReflTransGen (Offers d) ⟨kind, some p, none⟩ ⟨kind, some p', none⟩ := by
  obtain hle | hle := le_total p p'
  · induction p', hle using Int.leInduction with
    | base => exact .refl
    | succ n hn ih =>
      exact (ih ⟨by omega, by omega⟩).tail
        ((offers_iff hlinked (by omega)).2 ⟨n + 1, ⟨⟨by omega, by omega⟩, hp'⟩, rfl⟩)
  · induction p', hle using Int.leInductionDown with
    | base => exact .refl
    | pred n hn ih =>
      exact (ih ⟨by omega, by omega⟩).tail
        ((offers_iff hlinked (by omega)).2 ⟨n - 1, ⟨⟨by omega, by omega⟩, hp'⟩, rfl⟩)

/-- The links lead to pages with videos. -/
theorem page_of_reach (hlinked : kind.linked = some kind) {p : Int} {r : Visit} (hp : 1 ≤ p ∧ p ≤ d.last kind)
    (h : Relation.ReflTransGen (Offers d) ⟨kind, some p, none⟩ r) :
    ∃ p' : Int, (1 ≤ p' ∧ p' ≤ d.last kind) ∧ r = ⟨kind, some p', none⟩ := by
  induction h with
  | refl => exact ⟨p, hp, rfl⟩
  | tail _ hoffer ih =>
    obtain ⟨p', hp', rfl⟩ := ih
    obtain ⟨p'', hp'', rfl⟩ := (offers_iff hlinked hp'.1).1 hoffer
    exact ⟨p'', hp''.2, rfl⟩

/-- **From every page with videos the links lead to all of them**, and to no others, whatever the order of equal numbers
is each time; and if it is the same each time, the list is complete page by page. -/
theorem browse (d : Database) (hlinked : kind.linked = some kind) :
    (∀ (p : Int) (r : Visit), 1 ≤ p ∧ p ≤ d.last kind →
      (Relation.ReflTransGen (Offers d) ⟨kind, some p, none⟩ r ↔
        ∃ p' : Int, (1 ≤ p' ∧ p' ≤ d.last kind) ∧ r = ⟨kind, some p', none⟩)) ∧
    (∀ page : Nat, 1 ≤ page → ((d.answer ⟨kind, some page, none⟩).video_list ≠ [] ↔ page ≤ d.last kind)) ∧
    ∀ order, (∀ p, d.order ⟨kind, p, none⟩ = order) →
      ((List.range (d.last kind)).flatMap fun n => (d.answer ⟨kind, some (n + 1 : Nat), none⟩).video_list) =
        order.map (listed d.concat d.library.tags) := by
  have hlist {page : Nat} (hpage : 1 ≤ page) : (d.answer ⟨kind, some page, none⟩).video_list =
      (Pages.page 20 (page - 1) (d.order ⟨kind, some page, none⟩)).map (listed d.concat d.library.tags) := by
    rw [Database.answer, listPage, pageNumber_natCast hpage, Option.getD_none, fetch]
  have htotal (p : Option Int) : (d.order ⟨kind, p, none⟩).length = d.total kind :=
    (d.ordered ⟨kind, p, none⟩).1.length_eq
  refine ⟨fun p r hp => ⟨page_of_reach hlinked hp, ?_⟩, fun page hpage => ?_, fun order hsame => ?_⟩
  · rintro ⟨p', hp', rfl⟩
    exact reach_page hlinked hp hp'
  · rw [hlist hpage, ne_eq, List.map_eq_nil_iff, ← ne_eq, Pages.page_ne_nil_iff 20 (by decide), Database.last,
      le_lastPage_iff (by decide) hpage, htotal]
  · have hlength : order.length ≤ d.last kind * 20 := by
      rw [← hsame none, htotal]
      by_contra hshort
      have hnext : d.last kind + 1 ≤ d.last kind :=
        (le_lastPage_iff (by decide) (by omega)).2 (not_le.1 hshort)
      omega
    calc (List.range (d.last kind)).flatMap (fun n => (d.answer ⟨kind, some (n + 1 : Nat), none⟩).video_list)
        = (List.range (d.last kind)).flatMap fun n =>
            (Pages.page 20 n order).map (listed d.concat d.library.tags) :=
          List.flatMap_congr fun n _ => by rw [hlist (Nat.succ_pos n), hsame, Nat.succ_sub_one]
      _ = order.map (listed d.concat d.library.tags) := by
          rw [← List.map_flatMap, Pages.flatMap_page, List.take_of_length_le hlength]

/-- The videos in the order of the sort. -/
def sortedDatabase (library : Library) : Database where
  library := library
  concat := rowOrder
  same := (· == ·)
  like := (· == ·)
  order r := ((r.kind.query (· == ·) (· == ·)).shown library).insertionSort fun v w =>
    (r.kind.query (· == ·) (· == ·)).order_by w ≤ (r.kind.query (· == ·) (· == ·)).order_by v
  ordered _ := Ranks.ranking_insertionSort _ _

/-- Twenty-one videos. -/
def manyVideos : Library where
  videos := (List.range 21).map fun i => ⟨i, literal "ann", literal "a", [], i, 0, 0, none⟩
  distinct := by decide
  tags := []

/-- The second page of the ranking has a link to the first one. -/
theorem browse_many : Relation.ReflTransGen (Offers (sortedDatabase manyVideos)) ⟨.ranking, some 2, none⟩
    ⟨.ranking, some 1, none⟩ :=
  ((browse (sortedDatabase manyVideos) rfl).1 2 _ (by decide)).2 ⟨1, by decide, rfl⟩

/-- One video on a page: the first page has a link to the second one, which has twenty on a page and is empty. -/
theorem offers_empty : Offers (sortedDatabase twoVideos) ⟨.ranking, some 1, some 1⟩ ⟨.ranking, some 2, none⟩ ∧
    ((sortedDatabase twoVideos).answer ⟨.ranking, some 2, none⟩).video_list = [] :=
  ⟨⟨2, by decide, rfl⟩, by decide⟩

end Browse

end LeftFelt.Videos
