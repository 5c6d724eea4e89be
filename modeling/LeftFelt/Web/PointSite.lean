import LeftFelt.Lib.ReadThrough
import LeftFelt.Web.Cache

/-!
# Point sites

The table of point sites, and the pages that read it through the cache. A page looks for an answer under a key of its
question, asks the table if there is none, and keeps what it was told for five seconds; adding or deleting a site takes
nothing out of the cache. So pages show what the table has had, at most the five seconds and the time of one request ago
(`PointSiteModel.answer_run`), and a site that was deleted is shown by no page any longer after that time
(`PointSiteModel.deleted_run`), in whichever order the requests take their turns.

How the database compares names, which values fit into the columns and what it makes of `LIMIT` and `OFFSET` is up to it.
-/

namespace LeftFelt.Web

open Str Lib Segments

/-! ## The steps of a call -/

namespace CacheModel

section

variable (md5 : Str → Str) (serialize : List Mixed → Str) (invoke : List Method → Method → Mixed) (expire busy : Nat)

/-- `MemcacheModel` and the methods behind it, where the steps of a call are apart. -/
def calls : ReadThrough.Service (List Method) Method Str Mixed where
  key method := method.createKey md5 serialize
  read runs method := some (invoke runs method)
  found := Mixed.truthy
  kept := expire
  busy := busy

variable {md5 serialize invoke expire busy} {method : Method} {w : Cache}

/-- A call that finds its result has one step. -/
theorem calls_hit (h : (memcacheModel.get (method.createKey md5 serialize) w).truthy = true) :
    (calls md5 serialize invoke expire busy).look ⟨w.runs, w.store, fun _ => .idle⟩ method =
      some (memcacheModel.call md5 serialize invoke method expire w).2 := by
  rw [call_hit _ h]
  simp only [get, memcacheModel, Option.map_id, id_eq] at h ⊢
  cases hget : w.store.get (method.createKey md5 serialize) with
  | none => simp [hget, Mixed.truthy] at h
  | some v => simpa [ReadThrough.Service.look, calls, hget] using h

/-- A call that does not find it has three. -/
theorem calls_miss (hexpire : expire ≠ 0)
    (h : (memcacheModel.get (method.createKey md5 serialize) w).truthy = false) :
    (calls md5 serialize invoke expire busy).run [.ask 0 method, .fetch 0, .put 0] ⟨w.runs, w.store, fun _ => .idle⟩ =
      some ⟨w.runs, (memcacheModel.call md5 serialize invoke method expire w).1.store, fun _ => .idle⟩ := by
  have hlook : (calls md5 serialize invoke expire busy).look ⟨w.runs, w.store, fun _ => .idle⟩ method = none := by
    simp only [get, memcacheModel, Option.map_id, id_eq] at h
    cases hget : w.store.get (method.createKey md5 serialize) with
    | none => simp [ReadThrough.Service.look, calls, hget]
    | some v => simpa [ReadThrough.Service.look, calls, hget] using h
  rw [call_miss _ h]
  simp only [ReadThrough.Service.run, List.foldlM_cons, List.foldlM_nil, ReadThrough.Service.step, hlook]
  simp [ReadThrough.Service.turn, calls, CacheModel.set, CacheModel.deadline, hexpire]

end

end CacheModel

/-! ## Sites -/

/-- `PointSite`: a value is a string, or `null`. -/
structure PointSite where
  name : Option Str
  description : Option Str
  rate : Option Str
  to_webmoney : Option Str
  min_pay : Option Str
  exchange_place : Option Str
  how_to_get_point : Option Str
  register_info : Option Str
  register_link : Option Str
  banner_link : Option Str
  deriving DecidableEq

namespace PointSite

/-- `toArray()`. -/
def toArray (p : PointSite) : List (Str × Option Str) :=
  [(literal "name", p.name), (literal "description", p.description), (literal "rate", p.rate),
    (literal "to_webmoney", p.to_webmoney), (literal "min_pay", p.min_pay),
    (literal "exchange_place", p.exchange_place), (literal "how_to_get_point", p.how_to_get_point),
    (literal "register_info", p.register_info), (literal "register_link", p.register_link),
    (literal "banner_link", p.banner_link)]

/-- `$key_list`. -/
def key_list : List Str :=
  [literal "name", literal "description", literal "rate", literal "to_webmoney", literal "min_pay",
    literal "exchange_place", literal "how_to_get_point", literal "register_info", literal "register_link",
    literal "banner_link"]

/-- `require_key($key)`: the message of the exception, if there is one. -/
def require_key (map : List (Str × Option Str)) (key : Str) : Except Str Unit :=
  if map.any (·.1 = key) then .ok () else .error (key ++ literal " is not exists")

/-- `$point_site[$key]`. -/
def value (map : List (Str × Option Str)) (key : String) : Option Str := (map.lookup (literal key)).getD none

/-- `new PointSite($point_site)`. -/
def construct (map : List (Str × Option Str)) : Except Str PointSite := do
  key_list.forM (require_key map)
  return ⟨value map "name", value map "description", value map "rate", value map "to_webmoney", value map "min_pay",
    value map "exchange_place", value map "how_to_get_point", value map "register_info", value map "register_link",
    value map "banner_link"⟩

/-- A site is made again from its array. -/
theorem construct_toArray (p : PointSite) : construct p.toArray = .ok p := by
  rfl

theorem toArray_injective : Function.Injective toArray := fun p q h => by
  have hsame : construct p.toArray = construct q.toArray := congrArg construct h
  rw [construct_toArray, construct_toArray] at hsame
  exact Except.ok.inj hsame

theorem construct_nil : construct [] = .error (literal "name is not exists") := by
  rfl

end PointSite

/-! ## The table -/

/-- The columns of `point_site_table`: which values fit into them, and what names are compared by. -/
structure SiteColumns (κ : Type*) where
  fits : PointSite → Bool
  key : Str → κ

variable {κ : Type*}

/-- A row has the name, as the database compares them: `NULL` is the name of none. -/
def SiteColumns.Names (c : SiteColumns κ) (name : Option Str) (p : PointSite) : Prop :=
  name.isSome ∧ p.name.map c.key = name.map c.key

instance [DecidableEq κ] (c : SiteColumns κ) (name : Option Str) (p : PointSite) : Decidable (c.Names name p) :=
  inferInstanceAs (Decidable (_ ∧ _))

/-- The table: names are unique. -/
structure PointSiteTable (c : SiteColumns κ) where
  rows : List PointSite
  named : ∀ p ∈ rows, p.name.isSome
  distinct : (rows.map fun p => p.name.map c.key).Nodup
  fit : ∀ p ∈ rows, c.fits p

variable {c : SiteColumns κ}

namespace PointSiteTable

/-- A table without rows. -/
def empty (c : SiteColumns κ) : PointSiteTable c := ⟨[], by simp, .nil, by simp⟩

/-- A row at the end. -/
def push (t : PointSiteTable c) (p : PointSite) (hname : p.name.isSome) (hfits : c.fits p)
    (hnew : ∀ r ∈ t.rows, ¬c.Names p.name r) : PointSiteTable c where
  rows := t.rows ++ [p]
  named r hr := by
    rcases List.mem_append.1 hr with hr | hr
    · exact t.named r hr
    · rwa [List.mem_singleton.1 hr]
  distinct := by
    rw [List.map_append, List.map_singleton, ← List.concat_eq_append, List.nodup_concat]
    refine ⟨fun hmem => ?_, t.distinct⟩
    obtain ⟨r, hr, hkey⟩ := List.mem_map.1 hmem
    exact hnew r hr ⟨hname, hkey⟩
  fit r hr := by
    rcases List.mem_append.1 hr with hr | hr
    · exact t.fit r hr
    · rwa [List.mem_singleton.1 hr]

/-- Some of the rows. -/
def filter (keep : PointSite → Bool) (t : PointSiteTable c) : PointSiteTable c where
  rows := t.rows.filter keep
  named p hp := t.named p (List.mem_of_mem_filter hp)
  distinct := t.distinct.sublist (List.filter_sublist.map _)
  fit p hp := t.fit p (List.mem_of_mem_filter hp)

end PointSiteTable

namespace PointSiteModel

/-- No row has the name. -/
def Gone (name : Option Str) (t : PointSiteTable c) : Prop := ∀ r ∈ t.rows, ¬c.Names name r

theorem Gone.congr {name name' : Option Str} {t : PointSiteTable c} (h : Gone name t)
    (hsame : name'.map c.key = name.map c.key) : Gone name' t := by
  rintro r hr ⟨hsome, hkey⟩
  refine h r hr ⟨?_, hkey.trans hsame⟩
  rw [← Option.isSome_map (f := c.key), ← hsame, Option.isSome_map]
  exact hsome

variable [DecidableEq κ]

/-- `get($name)`. -/
def get (name : Option Str) (t : PointSiteTable c) : Except Str PointSite :=
  PointSite.construct (((t.rows.find? (c.Names name ·)).map PointSite.toArray).getD [])

/-- `getList($limit, $offset)`, where `page` is what the database makes of `LIMIT` and `OFFSET`. -/
def getList (page : Option Str → Option Str → List PointSite → List PointSite) (limit offset : Option Str)
    (t : PointSiteTable c) : List PointSite :=
  if limit.isSome ∨ offset.isSome then page limit offset t.rows else t.rows

/-- `set($point_site)`. -/
def set (p : PointSite) (t : PointSiteTable c) : PointSiteTable c × Bool :=
  if h : p.name.isSome ∧ c.fits p ∧ ∀ r ∈ t.rows, ¬c.Names p.name r then (t.push p h.1 h.2.1 h.2.2, true)
  else (t, false)

/-- `delete($name)`. -/
def delete (name : Option Str) (t : PointSiteTable c) : PointSiteTable c := t.filter fun p => ¬c.Names name p

/-- `truncate()`. -/
def truncate (_ : PointSiteTable c) : PointSiteTable c := .empty c

/-- There is a row with the name, or an exception. -/
theorem get_eq (name : Option Str) (t : PointSiteTable c) :
    get name t = ((t.rows.find? (c.Names name ·)).map .ok).getD (.error (literal "name is not exists")) := by
  unfold get
  cases t.rows.find? (c.Names name ·) with
  | none => exact PointSite.construct_nil
  | some p => exact PointSite.construct_toArray p

theorem get_gone {name : Option Str} {t : PointSiteTable c} (h : Gone name t) :
    get name t = .error (literal "name is not exists") := by
  have hnone : t.rows.find? (c.Names name ·) = none := List.find?_eq_none.2 fun r hr => by simpa using h r hr
  rw [get_eq, hnone]
  rfl

theorem gone_delete (name : Option Str) (t : PointSiteTable c) : Gone name (delete name t) := fun r hr => by
  simpa using List.of_mem_filter hr

theorem Gone.delete {name : Option Str} {t : PointSiteTable c} (h : Gone name t) (other : Option Str) :
    Gone name (delete other t) := fun r hr => h r (List.mem_of_mem_filter hr)

theorem Gone.set {name : Option Str} {t : PointSiteTable c} (h : Gone name t) {p : PointSite} (hp : ¬c.Names name p) :
    Gone name (set p t).1 := by
  unfold PointSiteModel.set
  split
  · intro r hr
    rcases List.mem_append.1 hr with hr | hr
    · exact h r hr
    · rwa [List.mem_singleton.1 hr]
  · exact h

/-! ## The pages -/

/-- What the pages ask: one site, or the list. -/
inductive Query where
  | get (name : Option Str)
  | getList (limit offset : Option Str)
  deriving DecidableEq

/-- The objects that are cached: a `PointSite`, or a `PointSiteList`. -/
inductive Cached where
  | site (p : PointSite)
  | list (l : List PointSite)
  deriving DecidableEq

/-- A parameter of a request. -/
def parametor : Option Str → Mixed
  | none => .null
  | some s => .string s

theorem get_nonempty : literal "get" ≠ [] := by decide

theorem get_plain : 0x3A ∉ literal "get" ∧ 0x3D ∉ literal "get" := by decide

/-- `new Method(array($this->point_site_model, 'get'), $name)`, and the one for `getList`. -/
def Query.method : Query → Method
  | .get name => ⟨.pair (.object ⟨⟨literal "PointSiteModel", by decide, by decide⟩, 0⟩)
      ⟨literal "get", get_nonempty, get_plain⟩, [parametor name]⟩
  | .getList limit offset => ⟨.pair (.object ⟨⟨literal "PointSiteModel", by decide, by decide⟩, 0⟩)
      ⟨literal "getList", by decide, by decide⟩, [parametor limit, parametor offset]⟩

/-- What a page hands on: the fields of a site, none if there was an exception, or the list of the sites. -/
inductive Attribute where
  | point_site (fields : List (Str × Option Str))
  | point_site_list (sites : List (List (Str × Option Str)))
  deriving DecidableEq

/-- `->toArray()`, and `array()` for an exception. -/
def handedOn : Option Cached → Attribute
  | some (.site p) => .point_site p.toArray
  | some (.list l) => .point_site_list (l.map PointSite.toArray)
  | none => .point_site []

/-- The sites on a page. -/
def Attribute.sites : Attribute → List (List (Str × Option Str))
  | .point_site fields => [fields]
  | .point_site_list sites => sites

/-- A site with the name is on the page. -/
def Attribute.Shows (c : SiteColumns κ) (name : Option Str) (shown : Attribute) : Prop :=
  ∃ p : PointSite, c.Names name p ∧ p.toArray ∈ shown.sites

section Service

variable (c) (md5 : Str → Str) (serialize : List Mixed → Str)
variable (page : Option Str → Option Str → List PointSite → List PointSite) (busy : Nat)

/-- `$config['cache_call_short']`. -/
def cache_call_short : Nat := 5

/-- What the model answers itself, unless it throws. -/
def read (t : PointSiteTable c) : Query → Option Cached
  | .get name => (get name t).toOption.map .site
  | .getList limit offset => some (.list (getList page limit offset t))

/-- The model behind `MemcacheModel`: an object is no `false`. -/
def service : ReadThrough.Service (PointSiteTable c) Query Str Cached where
  key q := q.method.createKey md5 serialize
  read := read c page
  found _ := true
  kept := cache_call_short
  busy := busy

end Service

/-- What happens: `addPointSiteAction`, `deletePointSiteAction`, the three steps of a call of `getPointSiteAction` or
`getPointSiteListAction`, the end of a process, the loss of an entry, and time. -/
inductive Event where
  | addPointSite (p : PointSite)
  | deletePointSite (name : Option Str)
  | truncate
  | get (process : Nat) (q : Query)
  | call (process : Nat)
  | set (process : Nat)
  | die (process : Nat)
  | evict (key : Str)
  | wait (seconds : Nat)
  deriving DecidableEq

/-- What an event does to the table and the cache. -/
def Event.effect : Event → ReadThrough.Event (PointSiteTable c) Query Str
  | .addPointSite p => .write fun t => (PointSiteModel.set p t).1
  | .deletePointSite name => .write (delete name)
  | .truncate => .write PointSiteModel.truncate
  | .get process q => .ask process q
  | .call process => .fetch process
  | .set process => .put process
  | .die process => .drop process
  | .evict key => .evict key
  | .wait seconds => .wait seconds

/-- The site: the table, the cache and the processes. -/
abbrev Site (c : SiteColumns κ) := ReadThrough.System (PointSiteTable c) Query Str Cached

section Runs

variable (md5 : Str → Str) (serialize : List Mixed → Str)
variable (page : Option Str → Option Str → List PointSite → List PointSite) (busy : Nat)

/-- At first the table and the cache are empty. -/
def start (c : SiteColumns κ) (now : Int) : Site c := ReadThrough.Service.start (.empty c) now

/-- The events one after the other: `none` if one cannot happen. -/
def run (events : List Event) (s : Site c) : Option (Site c) :=
  (service c md5 serialize page busy).run (events.map Event.effect) s

/-- The page that an event ends, and what it was asked. -/
def answer (s : Site c) (e : Event) : Option (Query × Attribute) :=
  ((service c md5 serialize page busy).answer s e.effect).map fun r => (r.1, handedOn r.2)

/-- What is asked in a run. -/
def asked (events : List Event) : Set Query := {q | ∃ process, .get process q ∈ events}

/-- Neither `md5` nor `serialize` makes one of what is asked. -/
structure Apart (events : List Event) : Prop where
  keys : ∀ q ∈ asked events, ∀ r ∈ asked events,
    q.method.createKey md5 serialize = r.method.createKey md5 serialize →
      q.method.keyText serialize = r.method.keyText serialize
  args : ∀ q ∈ asked events, ∀ r ∈ asked events, serialize q.method.args = serialize r.method.args →
    q.method.args = r.method.args

variable {md5 serialize page busy} {now : Int} {s s' : Site c} {events : List Event} {e : Event} {q : Query}
  {shown : Attribute}

theorem parametor_injective : Function.Injective parametor := by
  rintro (_ | s) (_ | t) h <;> cases h <;> rfl

/-- What is hashed tells the method and the arguments. -/
theorem keyText_cut {m m' : Method} (h : m.keyText serialize = m'.keyText serialize) :
    Method.methodKey m.method = Method.methodKey m'.method ∧ serialize m.args = serialize m'.args := by
  have htext : Method.methodKey m.method ++ 0x3D :: (0x3E :: serialize m.args) =
      Method.methodKey m'.method ++ 0x3D :: (0x3E :: serialize m'.args) := by
    simpa [Method.keyText, literal] using h
  obtain ⟨hmethod, hargs⟩ | ⟨x, hx, -⟩ | ⟨x, hx, -⟩ := append_cons_eq_append_cons htext
  · exact ⟨hmethod, (List.cons.inj hargs).2⟩
  · exact absurd (hx ▸ by simp) (Method.equals_not_mem_methodKey m'.method)
  · exact absurd (hx ▸ by simp) (Method.equals_not_mem_methodKey m.method)

theorem get_ne_getList {name limit offset : Option Str} :
    Method.methodKey (Query.get name).method.method ≠ Method.methodKey (Query.getList limit offset).method.method :=
  fun h => absurd (congrArg List.length h) (by simp [Query.method, Method.methodKey, literal])

/-- Questions with one key are one. -/
theorem Apart.injOn (h : Apart md5 serialize events) :
    (asked events).InjOn (service c md5 serialize page busy).key := by
  intro q hq r hr hkey
  obtain ⟨hmethod, hargs⟩ := keyText_cut (h.keys q hq r hr hkey)
  have hsame := h.args q hq r hr hargs
  cases q with
  | get name =>
    cases r with
    | get name' => exact congrArg Query.get (parametor_injective (List.cons.inj hsame).1)
    | getList limit offset => exact absurd hmethod get_ne_getList
  | getList limit offset =>
    cases r with
    | get name => exact absurd hmethod.symm get_ne_getList
    | getList limit' offset' =>
      obtain ⟨hlimit, hrest⟩ := List.cons.inj hsame
      rw [parametor_injective hlimit, parametor_injective (List.cons.inj hrest).1]

theorem asked_effect :
    ReadThrough.Service.asked (events.map (Event.effect : Event → ReadThrough.Event (PointSiteTable c) Query Str)) =
      asked events := by
  ext q
  constructor
  · rintro ⟨process, h⟩
    obtain ⟨e, he, heffect⟩ := List.mem_map.1 h
    cases e <;> cases heffect
    exact ⟨process, he⟩
  · rintro ⟨process, h⟩
    exact ⟨process, List.mem_map.2 ⟨_, h, rfl⟩⟩

theorem injOn_effect (h : Apart md5 serialize (events ++ [e])) : (ReadThrough.Service.asked
    (events.map Event.effect ++ [(e.effect : ReadThrough.Event (PointSiteTable c) _ _)])).InjOn
      (service c md5 serialize page busy).key := by
  rw [← List.map_singleton, ← List.map_append, asked_effect]
  exact h.injOn

theorem step_of_run (h : run md5 serialize page busy [e] s = some s') :
    (service c md5 serialize page busy).step s e.effect = some s' := by
  simpa [run, ReadThrough.Service.run] using h

/-- **What a page shows is right**, or was, not longer ago than an entry is kept and a request takes. -/
theorem answer_run (hrun : run md5 serialize page busy events (start c now) = some s)
    (hapart : Apart md5 serialize (events ++ [e])) (hstep : run md5 serialize page busy [e] s = some s')
    (hanswer : answer md5 serialize page busy s e = some (q, shown)) :
    ∃ before after s₁, events = before ++ after ∧ run md5 serialize page busy before (start c now) = some s₁ ∧
      handedOn (read c page s₁.source q) = shown ∧ s.store.now ≤ s₁.store.now + cache_call_short + busy := by
  obtain ⟨⟨q', a⟩, hlib, hshown⟩ := Option.map_eq_some_iff.mp hanswer
  cases hshown
  obtain ⟨before, after, s₁, hsplit, hbefore, hread, htime⟩ :=
    ReadThrough.Service.answer_of_run hrun (injOn_effect hapart) (step_of_run hstep) hlib
  obtain ⟨first, later, rfl, rfl, rfl⟩ := List.map_eq_append_iff.mp hsplit
  have hnow : s.store.now - cache_call_short - busy ≤ s₁.store.now := htime
  exact ⟨first, later, s₁, rfl, hbefore, congrArg handedOn hread, by omega⟩

/-- Names are the bytes. -/
def bytes : SiteColumns Str := ⟨fun _ => true, id⟩

/-- All rows, wherever the list is asked to begin. -/
def allRows (_ _ : Option Str) (rows : List PointSite) : List PointSite := rows

/-- The arguments, which are strings, one after the other. -/
def joined (args : List Mixed) : Str := (args.map (Mixed.toStr fun _ => [])).flatten

/-- A site with a name only. -/
def shop : PointSite := ⟨some (literal "shop"), none, none, none, none, none, none, none, none, none⟩

/-- The site is added and shown. -/
def shownOnce : List Event := [.addPointSite shop, .get 0 (.get shop.name), .call 0, .set 0]

theorem apart_one {events : List Event} {q : Query} (h : ∀ process r, .get process r ∈ events → r = q) :
    Apart id joined events where
  keys r hr r' hr' _ := by
    obtain ⟨p, hp⟩ := hr
    obtain ⟨p', hp'⟩ := hr'
    rw [h p r hp, h p' r' hp']
  args r hr r' hr' _ := by
    obtain ⟨p, hp⟩ := hr
    obtain ⟨p', hp'⟩ := hr'
    rw [h p r hp, h p' r' hp']

/-- Four seconds after it was deleted. -/
def deletedLate : List Event := shownOnce ++ [.deletePointSite shop.name, .wait 4]

theorem answer_run_shop : ∃ s, run id joined allRows 30 deletedLate (start bytes 0) = some s ∧
    ∃ before after s₁, deletedLate = before ++ after ∧ run id joined allRows 30 before (start bytes 0) = some s₁ ∧
      handedOn (read bytes allRows s₁.source (.get shop.name)) = .point_site shop.toArray ∧
      s.store.now ≤ s₁.store.now + cache_call_short + (30 : Nat) := by
  have hready : (run id joined allRows 30 deletedLate (start bytes 0)).any (fun s =>
      (run id joined allRows 30 [.get 1 (.get shop.name)] s).isSome && decide (answer id joined allRows 30 s
        (.get 1 (.get shop.name)) = some (.get shop.name, .point_site shop.toArray))) = true := by decide +kernel
  obtain ⟨s, hs, hready⟩ := (Option.any_eq_true _ _).1 hready
  rw [Bool.and_eq_true, decide_eq_true_eq] at hready
  obtain ⟨s', hs'⟩ := Option.isSome_iff_exists.1 hready.1
  have hasked : ∀ process q, .get process q ∈ deletedLate ++ [.get 1 (.get shop.name)] → q = .get shop.name := by
    intro process q hq
    simp only [deletedLate, shownOnce, List.cons_append, List.nil_append, List.mem_cons, reduceCtorEq, Event.get.injEq,
      List.not_mem_nil, or_false, false_or] at hq
    exact hq.elim And.right And.right
  exact ⟨s, hs, answer_run hs (apart_one hasked) hs' hready.2⟩

/-- A name that is not in the table comes into it with a site that is added. -/
theorem gone_step {name : Option Str} (hgone : Gone name s.source) (hadd : ∀ p, e = .addPointSite p → ¬c.Names name p)
    (hstep : (service c md5 serialize page busy).step s e.effect = some s') : Gone name s'.source := by
  cases e with
  | addPointSite p =>
    cases hstep
    exact hgone.set (hadd p rfl)
  | deletePointSite other =>
    cases hstep
    exact hgone.delete other
  | truncate =>
    cases hstep
    simp [Gone, PointSiteModel.truncate, PointSiteTable.empty]
  | _ => rwa [ReadThrough.Service.source_step hstep (fun f h => nomatch h)]

theorem gone_run {name : Option Str} (hgone : Gone name s.source)
    (hadd : ∀ p, .addPointSite p ∈ events → ¬c.Names name p)
    (hrun : run md5 serialize page busy events s = some s') : Gone name s'.source := by
  induction events generalizing s with
  | nil =>
    cases hrun
    exact hgone
  | cons e events ih =>
    rw [run, List.map_cons, ReadThrough.Service.run, List.foldlM_cons, Option.bind_eq_bind,
      Option.bind_eq_some_iff] at hrun
    obtain ⟨t, hstep, hrest⟩ := hrun
    refine ih (gone_step hgone (fun p he => hadd p (he ▸ List.mem_cons_self)) hstep)
      (fun p hp => hadd p (List.mem_cons_of_mem _ hp)) hrest

theorem read_gone {name : Option Str} {t : PointSiteTable c} (h : Gone name t) : read c page t (.get name) = none := by
  rw [read, get_gone h]
  rfl

/-- A page of a site, and a page of the list, which has rows of the table. -/
theorem not_shows {name : Option Str} {t : PointSiteTable c} (h : Gone name t)
    (hpage : ∀ limit offset rows, page limit offset rows ⊆ rows) (q : Query) :
    ¬(handedOn (read c page t q)).Shows c name := by
  rintro ⟨p, hname, hp⟩
  cases q with
  | get name' =>
    rw [read, get_eq] at hp
    cases hfind : t.rows.find? (c.Names name' ·) with
    | none => simp [hfind, handedOn, Attribute.sites, PointSite.toArray, Except.toOption] at hp
    | some r =>
      have hsame : p.toArray = r.toArray := by
        simpa [hfind, handedOn, Attribute.sites, Except.toOption] using hp
      exact h r (List.mem_of_find?_eq_some hfind) (PointSite.toArray_injective hsame ▸ hname)
  | getList limit offset =>
    obtain ⟨r, hr, hsame⟩ := List.mem_map.1 hp
    have hrow : r ∈ t.rows := by
      unfold getList at hr
      split at hr
      · exact hpage limit offset t.rows hr
      · exact hr
    exact h r hrow (PointSite.toArray_injective hsame ▸ hname)

/-- **A site that was deleted is not shown**, neither on its page nor in the list, after the time that an entry is kept
and a request takes, unless a site with its name is added. -/
theorem deleted_run {name : Option Str} {before later : List Event} {s₁ : Site c}
    (hpage : ∀ limit offset rows, page limit offset rows ⊆ rows)
    (hbefore : run md5 serialize page busy (before ++ [.deletePointSite name]) (start c now) = some s₁)
    (hlater : run md5 serialize page busy later s₁ = some s)
    (hadd : ∀ p, .addPointSite p ∈ later → ¬c.Names name p)
    (hlong : s₁.store.now + cache_call_short + busy < s.store.now)
    (hapart : Apart md5 serialize (before ++ [.deletePointSite name] ++ later ++ [e]))
    (hstep : run md5 serialize page busy [e] s = some s')
    (hanswer : answer md5 serialize page busy s e = some (q, shown)) :
    ¬shown.Shows c name ∧ ∀ name', q = .get name' → name'.map c.key = name.map c.key → shown = .point_site [] := by
  obtain ⟨⟨q, a⟩, hlib, hshown⟩ := Option.map_eq_some_iff.mp hanswer
  cases hshown
  have hgone : Gone name s₁.source := by
    rw [run, List.map_append, List.map_singleton, ReadThrough.Service.run_snoc, Option.bind_eq_some_iff] at hbefore
    obtain ⟨t, -, hdelete⟩ := hbefore
    cases hdelete
    exact gone_delete name t.source
  have hinj : (ReadThrough.Service.asked ((before ++ [Event.deletePointSite name] ++ later).map Event.effect ++
      [e.effect])).InjOn (service c md5 serialize page busy).key := injOn_effect hapart
  rw [List.map_append] at hinj
  obtain ⟨first, rest, t, hsplit, hfirst, hread, -⟩ :=
    ReadThrough.Service.answer_later hbefore hlater hlong hinj (step_of_run hstep) hlib
  obtain ⟨first, rest, rfl, rfl, rfl⟩ := List.map_eq_append_iff.mp hsplit
  have hstill : Gone name t.source := gone_run hgone (fun p hp => hadd p (List.mem_append_left _ hp)) hfirst
  subst hread
  refine ⟨not_shows hstill hpage q, ?_⟩
  rintro name' rfl hsame
  have hnone : read c page t.source (.get name') = none := read_gone (hstill.congr hsame)
  exact congrArg handedOn hnone

/-- Another site. -/
def bank : PointSite := { shop with name := some (literal "bank") }

/-- Two sites, and the list of them. -/
def listedOnce : List Event :=
  [.addPointSite shop, .addPointSite bank, .get 0 (.getList none none), .call 0, .set 0]

/-- Six seconds after one of them was deleted. -/
theorem deleted_run_shop : ∃ (s : Site bytes) (shown : Attribute),
    answer id joined allRows 0 s (.set 1) = some (.getList none none, shown) ∧ shown = .point_site_list [bank.toArray] ∧
      ¬shown.Shows bytes shop.name := by
  have hready : (run id joined allRows 0 (listedOnce ++ [.deletePointSite shop.name]) (start bytes 0)).any (fun s₁ =>
      (run id joined allRows 0 [.wait 6, .get 1 (.getList none none), .call 1] s₁).any fun s =>
        decide (s₁.store.now + cache_call_short + (0 : Nat) < s.store.now) &&
        (run id joined allRows 0 [.set 1] s).isSome && decide (answer id joined allRows 0 s
          (.set 1) = some (.getList none none, .point_site_list [bank.toArray]))) = true := by decide +kernel
  obtain ⟨s₁, hs₁, hready⟩ := (Option.any_eq_true _ _).1 hready
  obtain ⟨s, hs, hready⟩ := (Option.any_eq_true _ _).1 hready
  rw [Bool.and_eq_true, Bool.and_eq_true, decide_eq_true_eq, decide_eq_true_eq] at hready
  obtain ⟨⟨hlong, hcan⟩, hanswer⟩ := hready
  obtain ⟨s', hs'⟩ := Option.isSome_iff_exists.1 hcan
  have hasked : ∀ process q, .get process q ∈ listedOnce ++ [.deletePointSite shop.name] ++
      [.wait 6, .get 1 (.getList none none), .call 1] ++ [.set 1] → q = .getList none none := by
    intro process q hq
    simp only [listedOnce, List.cons_append, List.nil_append, List.mem_cons, reduceCtorEq, Event.get.injEq,
      List.not_mem_nil, or_false, false_or] at hq
    exact hq.elim And.right And.right
  exact ⟨s, _, hanswer, rfl, (deleted_run (fun _ _ rows => List.Subset.refl rows) hs₁ hs (by simp) hlong
    (apart_one hasked) hs' hanswer).1⟩

end Runs

end PointSiteModel

end LeftFelt.Web
