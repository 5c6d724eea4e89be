import LeftFelt.Lib.Expiring
import LeftFelt.Web.Method

/-!
# Cached calls

`CacheModel::call` looks for the result of a method under its key, and runs the method if what it finds is `false` to
PHP. So a result that is `false` itself, like `0`, `""` or an empty array, is never found: the method runs at every call
(`runsOnce_iff`). The models differ in what comes back for a value that was set: `MemcacheModel` gives the value itself,
`RedisModel` a string, which is the value only if that was a string (`transparent_redis_iff`).

What a method returns is a parameter, `invoke`, and may depend on everything that has been run before. For
`transparent_redis_iff` it does not; but methods with the same key may return different values.
-/

namespace LeftFelt.Web

open Str Lib Expiring

/-! ## The models -/

/-- A model of a cache, with what `get` gives for a value that was set. -/
structure CacheModel where
  stored : Mixed → Mixed

/-- `MemcacheModel`. -/
def memcacheModel : CacheModel := ⟨id⟩

/-- `RedisModel`: the server keeps strings. -/
def redisModel (other : Mixed → Str) : CacheModel := ⟨fun v => .string (v.toStr other)⟩

/-- The server, and the methods that have been run. -/
structure Cache where
  store : Expiring.Store Str Mixed
  runs : List Method

namespace CacheModel

variable (c : CacheModel)

/-- `get($key)`, which is `false` if there is no value. -/
def get (key : Str) (w : Cache) : Mixed := ((w.store.get key).map c.stored).getD (.bool false)

/-- When an entry expires, where 0 is never. -/
def deadline (now expire : Int) : Option Int := if expire ≠ 0 then some (now + expire) else none

/-- `set($key, $value, $expire)`. -/
def set (key : Str) (value : Mixed) (expire : Int) (w : Cache) : Cache :=
  { w with store := w.store.put key value (deadline w.store.now expire) }

theorem alive_deadline (now expire : Int) : alive now (deadline now expire) = true ↔ 0 ≤ expire := by
  by_cases hzero : expire = 0
  · simp [deadline, hzero, alive]
  · rw [deadline, if_pos hzero, alive, decide_eq_true_eq]
    omega

theorem entries_set_self (key : Str) (value : Mixed) (expire : Int) (w : Cache) :
    (set key value expire w).store.entries key = some (value, deadline w.store.now expire) := entries_put_self

/-- `delete($key)`. -/
def delete (key : Str) (w : Cache) : Cache := { w with store := w.store.erase key }

section

variable (md5 : Str → Str) (serialize : List Mixed → Str) (invoke : List Method → Method → Mixed)

/-- `call($method, $expire)`. -/
def call (method : Method) (expire : Int) (w : Cache) : Cache × Mixed :=
  let key := method.createKey md5 serialize
  let result := c.get key w
  if !result.truthy then
    let result := invoke w.runs method
    (set key result expire { w with runs := w.runs ++ [method] }, result)
  else (w, result)

/-- `call_delete($method)`. -/
def call_delete (method : Method) (w : Cache) : Cache := delete (method.createKey md5 serialize) w

/-! ## Histories -/

/-- What happens to a cache: calls, deletions, and time. -/
inductive Op where
  | call (method : Method) (expire : Int)
  | call_delete (method : Method)
  | wait (seconds : Nat)

/-- One operation. -/
def step (w : Cache) : Op → Cache
  | .call method expire => (c.call md5 serialize invoke method expire w).1
  | .call_delete method => call_delete md5 serialize method w
  | .wait seconds => { w with store := w.store.wait seconds }

/-- The operations one after the other. -/
def run (history : List Op) (w : Cache) : Cache := history.foldl (c.step md5 serialize invoke) w

/-! ## One call -/

variable {md5 serialize invoke}

theorem call_hit {method : Method} {w : Cache} (h : (c.get (method.createKey md5 serialize) w).truthy = true)
    (expire : Int) :
    c.call md5 serialize invoke method expire w = (w, c.get (method.createKey md5 serialize) w) := by
  simp [call, h]

theorem call_miss {method : Method} {w : Cache} (h : (c.get (method.createKey md5 serialize) w).truthy = false)
    (expire : Int) :
    c.call md5 serialize invoke method expire w =
      (set (method.createKey md5 serialize) (invoke w.runs method) expire { w with runs := w.runs ++ [method] },
        invoke w.runs method) := by
  simp [call, h]

variable {c}

theorem get_of_entry {key : Str} {w : Cache} {v : Mixed} {deadline : Option Int}
    (h : w.store.entries key = some (v, deadline)) (halive : alive w.store.now deadline = true) :
    c.get key w = c.stored v := by
  rw [get, Expiring.get_of_entry h halive, Option.map_some, Option.getD_some]

/-- A value that is not `false` stands in an entry. -/
theorem entry_of_get {key : Str} {w : Cache} (h : (c.get key w).truthy = true) :
    ∃ v deadline, w.store.entries key = some (v, deadline) ∧ c.get key w = c.stored v := by
  cases hget : w.store.get key with
  | none =>
    rw [get, hget] at h
    cases h
  | some v =>
    obtain ⟨deadline, hentry⟩ := Expiring.entry_of_get hget
    exact ⟨v, deadline, hentry, by rw [get, hget, Option.map_some, Option.getD_some]⟩

/-! ## An entry that is found -/

/-- Time does not go back. -/
theorem now_le_step (w : Cache) (op : Op) : w.store.now ≤ (c.step md5 serialize invoke w op).store.now := by
  cases op with
  | call method expire =>
    cases h : (c.get (method.createKey md5 serialize) w).truthy with
    | true => rw [step, call_hit c h]
    | false =>
      rw [step, call_miss c h]
      exact le_rfl
  | call_delete method => exact le_rfl
  | wait seconds => exact Int.le_add_of_nonneg_right (Int.natCast_nonneg seconds)

theorem now_le_run (history : List Op) (w : Cache) :
    w.store.now ≤ (c.run md5 serialize invoke history w).store.now := by
  induction history generalizing w with
  | nil => exact le_rfl
  | cons op history ih => exact (now_le_step w op).trans (ih _)

section Kept

variable {key : Str} {v : Mixed} {deadline : Option Int}

/-- **One operation keeps an entry** whose value is not `false`, before its deadline. -/
theorem entry_step {w : Cache} (hv : (c.stored v).truthy = true) (h : w.store.entries key = some (v, deadline))
    (halive : alive w.store.now deadline = true) {op : Op}
    (hop : ∀ m, op = .call_delete m → m.createKey md5 serialize ≠ key) :
    (c.step md5 serialize invoke w op).store.entries key = some (v, deadline) := by
  cases op with
  | call method expire =>
    cases hget : (c.get (method.createKey md5 serialize) w).truthy with
    | true => rwa [step, call_hit c hget]
    | false =>
      have hne : key ≠ method.createKey md5 serialize := by
        rintro rfl
        rw [get_of_entry h halive, hv] at hget
        cases hget
      rw [step, call_miss c hget]
      exact (entries_put_of_ne hne).trans h
  | call_delete method => exact (entries_erase_of_ne (hop method rfl).symm).trans h
  | wait seconds => exact h

/-- **So does a history** that ends before the deadline. -/
theorem entry_run {history : List Op} {w : Cache} (hv : (c.stored v).truthy = true)
    (h : w.store.entries key = some (v, deadline))
    (halive : alive (c.run md5 serialize invoke history w).store.now deadline = true)
    (hhistory : ∀ m, .call_delete m ∈ history → m.createKey md5 serialize ≠ key) :
    (c.run md5 serialize invoke history w).store.entries key = some (v, deadline) := by
  induction history generalizing w with
  | nil => exact h
  | cons op history ih =>
    have hnow : alive w.store.now deadline = true := alive_mono (now_le_run (op :: history) w) halive
    exact ih (entry_step hv h hnow fun m hm => hhistory m (hm ▸ List.mem_cons_self)) halive
      fun m hm => hhistory m (List.mem_cons_of_mem _ hm)

end Kept

variable (c md5 serialize invoke)

/-! ## One run for many calls -/

/-- **The law of the cache**: after a call, until the entry expires or is deleted, a call with the same key runs nothing
and returns what the first one has returned. -/
def RunsOnce (method : Method) (expire : Int) (w : Cache) : Prop :=
  let first := c.call md5 serialize invoke method expire w
  ∀ history, (∀ m, .call_delete m ∈ history → m.createKey md5 serialize ≠ method.createKey md5 serialize) →
    let later := c.run md5 serialize invoke history first.1
    (∀ entry, first.1.store.entries (method.createKey md5 serialize) = some entry →
      alive later.store.now entry.2 = true) →
    ∀ (m : Method) (expire' : Int), m.createKey md5 serialize = method.createKey md5 serialize →
      (c.call md5 serialize invoke m expire' later).1.runs = later.runs ∧
      (c.call md5 serialize invoke m expire' later).2 = first.2

variable {c md5 serialize invoke}

/-- A call that leaves an entry with a value that is not `false`, and returns that value. -/
theorem runsOnce_of_entry {method : Method} {expire : Int} {w w' : Cache} {v : Mixed} {deadline : Option Int}
    (hfirst : c.call md5 serialize invoke method expire w = (w', c.stored v)) (hv : (c.stored v).truthy = true)
    (hentry : w'.store.entries (method.createKey md5 serialize) = some (v, deadline)) :
    RunsOnce c md5 serialize invoke method expire w := by
  simp only [RunsOnce, hfirst]
  intro history hdelete halive m expire' hkey
  have hnow := halive _ hentry
  have hkept := entry_run hv hentry hnow hdelete
  have hget : c.get (m.createKey md5 serialize) (c.run md5 serialize invoke history w') = c.stored v := by
    rw [hkey]
    exact get_of_entry hkept hnow
  rw [call_hit c (hget ▸ hv), hget]
  exact ⟨rfl, rfl⟩

/-- A value that is `false` to PHP is not found by the very next call. -/
theorem not_runsOnce (hstored : ∀ v, c.stored v = v) {method : Method} {expire : Int} {w : Cache}
    (hcached : (c.get (method.createKey md5 serialize) w).truthy = false)
    (hvalue : (invoke w.runs method).truthy = false) (hexpire : 0 ≤ expire) :
    ¬RunsOnce c md5 serialize invoke method expire w := by
  have hentry := entries_set_self (method.createKey md5 serialize) (invoke w.runs method) expire
    { w with runs := w.runs ++ [method] }
  have halive := (alive_deadline w.store.now expire).mpr hexpire
  have hagain := (congrArg Mixed.truthy (get_of_entry (c := c) hentry halive)).trans
    ((congrArg Mixed.truthy (hstored _)).trans hvalue)
  simp only [RunsOnce, call_miss c hcached expire]
  intro honce
  obtain ⟨hruns, -⟩ := honce [] (by simp)
    (fun entry h => Option.some.inj (hentry.symm.trans h) ▸ halive) method 0 rfl
  rw [run, List.foldl_nil, call_miss c hagain] at hruns
  simp [set] at hruns

/-- **When a method is run once**: what is cached, or what the method returns, is not `false` to PHP, or the entry
expires at once. -/
theorem runsOnce_iff (hstored : ∀ v, c.stored v = v) (method : Method) (expire : Int) (w : Cache) :
    RunsOnce c md5 serialize invoke method expire w ↔
      (c.get (method.createKey md5 serialize) w).truthy = true ∨ (invoke w.runs method).truthy = true ∨ expire < 0 := by
  cases hcached : (c.get (method.createKey md5 serialize) w).truthy with
  | true =>
    refine iff_of_true ?_ (Or.inl rfl)
    obtain ⟨v, deadline, hentry, hget⟩ := entry_of_get hcached
    rw [hget] at hcached
    exact runsOnce_of_entry (hget ▸ call_hit c (hget.symm ▸ hcached) expire) hcached hentry
  | false =>
    have hfirst : c.call md5 serialize invoke method expire w = _ := call_miss c hcached expire
    have hentry := entries_set_self (method.createKey md5 serialize) (invoke w.runs method) expire
      { w with runs := w.runs ++ [method] }
    cases hvalue : (invoke w.runs method).truthy with
    | true =>
      refine iff_of_true ?_ (Or.inr (Or.inl rfl))
      refine runsOnce_of_entry (v := invoke w.runs method) ?_ ?_ hentry
      · rw [hfirst, hstored]
      · rw [hstored, hvalue]
    | false =>
      simp only [Bool.false_eq_true, false_or]
      constructor
      · intro honce
        by_contra hexpire
        exact not_runsOnce hstored hcached hvalue (not_lt.mp hexpire) honce
      · -- the entry is gone when it is made
        intro hexpire
        simp only [RunsOnce, hfirst]
        intro history hdelete halive
        have hlater := alive_mono (now_le_run history _) (halive _ hentry)
        exact absurd ((alive_deadline _ _).mp hlater) (not_le.mpr hexpire)

end

/-- `strlen`. -/
def strlen : Name := ⟨literal "strlen", by decide, by decide⟩

/-- `strtoupper`. -/
def strtoupper : Name := ⟨literal "strtoupper", by decide, by decide⟩

/-- A function, called with a string. -/
def onText (name : Name) (s : Str) : Method := ⟨.function name, [.string s]⟩

/-- No entries. -/
def emptyCache : Cache := ⟨⟨fun _ => none, 0⟩, []⟩

theorem runsOnce_strlen :
    RunsOnce memcacheModel (fun _ => literal "1aff8a4eb139978aed56f65699a1ebbf")
      (fun _ => literal "a:1:\x7bi:0;s:3:\"ann\";\x7d") (fun _ _ => .int 3) (onText strlen (literal "ann")) 60
      emptyCache :=
  (runsOnce_iff (fun _ => rfl) _ _ _).mpr (Or.inr (Or.inl rfl))

/-- The length of the empty string is never found. -/
theorem not_runsOnce_strlen :
    ¬∀ c : CacheModel, (∀ v, c.stored v = v) →
      ∀ md5 serialize invoke method expire w, RunsOnce c md5 serialize invoke method expire w := by
  intro h
  have honce := h memcacheModel (fun _ => rfl) (fun _ => literal "4e4b713dd9cddcd8e06c3b2968e81815")
    (fun _ => literal "a:1:\x7bi:0;s:0:\"\";\x7d") (fun _ _ => .int 0) (onText strlen []) 60 emptyCache
  exact not_runsOnce (fun _ => rfl) rfl rfl (by decide) honce

section Transparent

variable {c} {md5 : Str → Str} {serialize : List Mixed → Str} {value : Method → Mixed} {method : Method}

variable (c md5 serialize value method) in
/-- **A cache that does not show**, where each method returns its value whenever it is run: after any history from an
empty cache, a call returns what the method returns. -/
def Transparent : Prop :=
  ∀ (history : List Op) (now expire : Int),
    (c.call md5 serialize (fun _ => value) method expire
      (c.run md5 serialize (fun _ => value) history ⟨⟨fun _ => none, now⟩, []⟩)).2 = value method

variable (md5 serialize value) in
/-- Under every key stands what a method with this key returns. -/
def Holds (w : Cache) : Prop :=
  ∀ key entry, w.store.entries key = some entry → ∃ m : Method, m.createKey md5 serialize = key ∧ entry.1 = value m

theorem holds_step {w : Cache} (hw : Holds md5 serialize value w) (op : Op) :
    Holds md5 serialize value (c.step md5 serialize (fun _ => value) w op) := by
  intro key entry hentry
  cases op with
  | call m expire =>
    cases hget : (c.get (m.createKey md5 serialize) w).truthy with
    | true =>
      rw [step, call_hit c hget] at hentry
      exact hw key entry hentry
    | false =>
      rw [step, call_miss c hget] at hentry
      by_cases hkey : key = m.createKey md5 serialize
      · rw [hkey, entries_set_self, Option.some.injEq] at hentry
        exact ⟨m, hkey.symm, by rw [← hentry]⟩
      · exact hw key entry ((entries_put_of_ne hkey).symm.trans hentry)
  | call_delete m =>
    by_cases hkey : m.createKey md5 serialize = key
    · rw [step, call_delete, hkey, delete, entries_erase_self] at hentry
      cases hentry
    · exact hw key entry ((entries_erase_of_ne (Ne.symm hkey)).symm.trans hentry)
  | wait seconds => exact hw key entry hentry

theorem holds_run {w : Cache} (hw : Holds md5 serialize value w) (history : List Op) :
    Holds md5 serialize value (c.run md5 serialize (fun _ => value) history w) := by
  induction history generalizing w with
  | nil => exact hw
  | cons op history ih => exact ih (holds_step hw op)

/-- **When a cache does not show**: what comes back for the value of any method with the same key is `false` to PHP, or
the value of the method that is called. -/
theorem transparent_iff_stored :
    Transparent c md5 serialize value method ↔
      ∀ m : Method, m.createKey md5 serialize = method.createKey md5 serialize →
        (c.stored (value m)).truthy = true → c.stored (value m) = value method := by
  constructor
  · intro htransparent m hkey htruthy
    have hsecond := htransparent [.call m 0] 0 0
    have hmiss : (c.get (m.createKey md5 serialize) ⟨⟨fun _ => none, 0⟩, []⟩).truthy = false := rfl
    rw [run, List.foldl_cons, List.foldl_nil, step, call_miss c hmiss, hkey] at hsecond
    have hget := get_of_entry (c := c) (entries_set_self (method.createKey md5 serialize) (value m) 0
      ⟨⟨fun _ => none, 0⟩, [] ++ [m]⟩) rfl
    rwa [call_hit c (hget ▸ htruthy), hget] at hsecond
  · intro hstored history now expire
    have hholds : Holds md5 serialize value (c.run md5 serialize (fun _ => value) history ⟨⟨fun _ => none, now⟩, []⟩) :=
      holds_run (fun _ _ h => by cases h) history
    generalize c.run md5 serialize (fun _ => value) history ⟨⟨fun _ => none, now⟩, []⟩ = w at hholds
    cases hget : (c.get (method.createKey md5 serialize) w).truthy with
    | true =>
      obtain ⟨v, deadline, hentry, hvalue⟩ := entry_of_get hget
      obtain ⟨m, hkey, heq⟩ := hholds _ _ hentry
      obtain rfl : v = value m := heq
      rw [call_hit c hget, hvalue]
      exact hstored m hkey (hvalue ▸ hget)
    | false => rw [call_miss c hget]

/-- The decimal number is `false` for 0 only. -/
theorem truthy_toString (n : Int) : (Mixed.string (literal (toString n))).truthy = true ↔ n ≠ 0 := by
  have hdigits : ∀ m : Nat, literal m.repr = (Nat.toDigits 10 m).map fun c => c.toNat.toUInt8 := by
    intro m
    rw [literal, Nat.toList_repr]
  cases n with
  | ofNat m =>
    have htext : literal (toString (Int.ofNat m)) = (Nat.toDigits 10 m).map fun c => c.toNat.toUInt8 := hdigits m
    have hne : (Nat.toDigits 10 m).map (fun c => c.toNat.toUInt8) ≠ [] := by simp
    rw [Mixed.truthy, htext, decide_eq_true_eq]
    refine (and_iff_right hne).trans (not_congr ⟨fun hzero => ?_, fun hzero => ?_⟩)
    · -- a single digit
      have hlength := congrArg List.length hzero
      rw [List.length_map] at hlength
      have hlt : m < 10 := (Nat.length_toDigits_le_iff (by decide) (by decide)).mp hlength.le
      rw [Nat.toDigits_of_lt_base hlt] at hzero
      have hdigit : ∀ d < 10, [Nat.digitChar d].map (fun c => c.toNat.toUInt8) = literal "0" → d = 0 := by decide
      rw [hdigit m hlt hzero]
      rfl
    · cases hzero
      decide
  | negSucc m =>
    have hsign : (toString (Int.negSucc m)).toList = '-' :: (m + 1).repr.toList := String.toList_append
    have htext : literal (toString (Int.negSucc m)) = 0x2D :: literal (m + 1).repr := by
      rw [literal, hsign]
      rfl
    rw [Mixed.truthy, htext, decide_eq_true_eq]
    refine iff_of_true ⟨List.cons_ne_nil _ _, fun hzero => ?_⟩ (by simp)
    exact absurd (List.cons.inj hzero).1 (by decide)

/-- A value that comes back as `false` to PHP or as itself. -/
theorem kept_iff (other : Mixed → Str) {v : Mixed} (hv : v.IsPlain) :
    (((redisModel other).stored v).truthy = true → (redisModel other).stored v = v) ↔
      (∃ s, v = .string s) ∨ v = .null ∨ v = .bool false ∨ v = .int 0 := by
  cases v with
  | null => exact iff_of_true (fun h => by cases h) (by simp)
  | bool b =>
    cases b with
    | false => exact iff_of_true (fun h => by cases h) (by simp)
    | true => exact iff_of_false (fun h => by cases h rfl) (by simp)
  | int n =>
    have htruthy : ((redisModel other).stored (.int n)).truthy = true ↔ n ≠ 0 := truthy_toString n
    rw [htruthy]
    simp [redisModel]
  | string s => exact iff_of_true (fun _ => rfl) (Or.inl ⟨s, rfl⟩)
  | array entries => exact iff_of_false (fun h => by cases h rfl) (by simp)
  | float bits => exact absurd hv not_false
  | object o => exact absurd hv not_false

/-- **When Redis does not show**: the value is a string, or `null`, `false` or 0; and what the other methods with the
same key return is `""`, `"0"` or that string, as a string. -/
theorem transparent_redis_iff (other : Mixed → Str) (md5 : Str → Str) (serialize : List Mixed → Str)
    (value : Method → Mixed) (method : Method) (hv : (value method).IsPlain) :
    Transparent (redisModel other) md5 serialize value method ↔
      ((∃ s, value method = .string s) ∨ value method = .null ∨ value method = .bool false ∨ value method = .int 0) ∧
      ∀ m : Method, m ≠ method → m.createKey md5 serialize = method.createKey md5 serialize →
        (value m).toStr other = [] ∨ (value m).toStr other = literal "0" ∨
          value method = .string ((value m).toStr other) := by
  have hfalse (m : Method) : (((redisModel other).stored (value m)).truthy = true →
      (redisModel other).stored (value m) = value method) ↔
      (value m).toStr other = [] ∨ (value m).toStr other = literal "0" ∨
        value method = .string ((value m).toStr other) := by
    rw [redisModel, Mixed.truthy, decide_eq_true_eq, eq_comm (a := value method)]
    tauto
  rw [transparent_iff_stored, ← kept_iff other hv]
  constructor
  · exact fun h => ⟨h method rfl, fun m _ hkey => (hfalse m).mp (h m hkey)⟩
  · rintro ⟨hself, hothers⟩ m hkey
    by_cases hm : m = method
    · exact hm ▸ hself
    · exact (hfalse m).mpr (hothers m hm hkey)

theorem transparent_redis_strtoupper :
    Transparent (redisModel fun _ => []) (fun _ => literal "67f0afd69ab04ab4f897219dd3e265fc")
      (fun _ => literal "a:1:\x7bi:0;s:3:\"ann\";\x7d") (fun _ => .string (literal "ANN"))
      (onText strtoupper (literal "ann")) :=
  have hplain : (Mixed.string (literal "ANN")).IsPlain := trivial
  (transparent_redis_iff (fun _ => []) _ _ (fun _ => .string (literal "ANN")) _ hplain).mpr
    ⟨Or.inl ⟨literal "ANN", rfl⟩, fun _ _ _ => Or.inr (Or.inr rfl)⟩

/-- The length of `ann` comes back as a string. -/
theorem not_transparent_redis_strlen :
    ¬∀ (other : Mixed → Str) (value : Method → Mixed) (method : Method), (value method).IsPlain →
      ∀ md5 serialize, Transparent (redisModel other) md5 serialize value method := by
  intro h
  have htransparent := h (fun _ => []) (fun _ => .int 3) (onText strlen (literal "ann")) trivial
    (fun _ => literal "1aff8a4eb139978aed56f65699a1ebbf") (fun _ => literal "a:1:\x7bi:0;s:3:\"ann\";\x7d")
  have hstored := transparent_iff_stored.mp htransparent (onText strlen (literal "ann")) rfl
    ((truthy_toString 3).mpr (by decide))
  cases hstored

end Transparent

end CacheModel

end LeftFelt.Web
