import LeftFelt.Base.Http

/-!
# The path that is kept

Over any calls of `setHost`, `setPath`, `setURL` and `Request` the path and the base path consist of ordinary
segments, and of a slash at the end (`Rooted`), so no `..` is left in them (`run_rooted`).

But all segments can be taken away, and then nothing is left, not even the slash in front, unless the reference has an
empty segment: `Kept` says when something is left (`absolute_iff`).
-/

namespace LeftFelt

open Lib Segments Str

namespace Http

/-- A call of one of the public functions. -/
inductive Call where
  | setHost (host : Str)
  | setPath (path : Str)
  | setURL (URL : Str)
  | Request (URL method data : Str)

/-- What a call makes of the object. -/
def call (h : Http) : Call → Except Stop Http
  | .setHost host => h.setHost host
  | .setPath path => h.setPath path
  | .setURL URL => h.setURL URL
  | .Request URL method data => (h.Request URL method data).map Prod.fst

/-- The calls one after the other. -/
def run (h : Http) (calls : List Call) : Except Stop Http := calls.foldlM call h

/-! ## Ordinary segments -/

/-- An ordinary segment. -/
structure Ordinary (s : Str) : Prop where
  ne_nil : s ≠ []
  ne_dotdot : s ≠ dotdot
  slash_not_mem : slash ∉ s

/-- The base path consists of ordinary segments. -/
def Based (h : Http) : Prop := ∃ base, h.base_path = joined slash base ∧ ∀ s ∈ base, Ordinary s

/-- The path consists of ordinary segments, and perhaps of a slash at the end. -/
def Rooted (h : Http) : Prop :=
  ∃ segs, (∀ s ∈ segs, Ordinary s) ∧ (h.path = joined slash segs ∨ h.path = joined slash (segs ++ [[]]))

/-- Both paths. -/
structure Inv (h : Http) : Prop where
  based : h.Based
  rooted : h.Rooted

variable {h h' : Http} {path : Str}

theorem ordinary_stack (hbased : h.Based) : ∀ s ∈ h.stack path, Ordinary s := by
  obtain ⟨base, hbase, hord⟩ := hbased
  intro s hs
  unfold stack at hs
  split at hs
  · exact absurd hs List.not_mem_nil
  · rw [hbase, splitOn_joined fun s hs => (hord s hs).slash_not_mem, List.drop_one, List.tail_cons] at hs
    exact hord s hs

/-- The segments that are left are ordinary. -/
theorem ordinary_climb (hbased : h.Based) (path : Str) :
    ∀ s ∈ climb dotdot (h.stack path) ((segments path).takeWhile (· ≠ [])), Ordinary s := by
  intro s hs
  cases mem_climb hs with
  | inl hstack => exact ordinary_stack hbased s hstack
  | inr hseg =>
    have hmem := List.mem_takeWhile_imp hseg.1
    exact ⟨by simpa using hmem, hseg.2, not_mem_segments (List.takeWhile_subset _ hseg.1)⟩

/-- The path that is kept is rooted. -/
theorem keptPath_rooted (hbased : h.Based) (path : Str) : ∃ segs, (∀ s ∈ segs, Ordinary s) ∧
    (h.keptPath path = joined slash segs ∨ h.keptPath path = joined slash (segs ++ [[]])) := by
  refine ⟨_, ordinary_climb hbased path, ?_⟩
  unfold keptPath
  split
  · exact Or.inr (by rw [joined_append]; rfl)
  · exact Or.inl (List.append_nil _)

/-! ## One call -/

/-- The path that `setURL` resolves. -/
def reference (URL : Str) : Str :=
  match scheme URL with
  | some cut => pathOf cut.2
  | none => URL

/-- The path that a call resolves, if it does. -/
def Call.reference : Call → Option Str
  | .setHost _ => none
  | .setPath path => some path
  | .setURL URL => some (Http.reference URL)
  | .Request URL _ _ => some (Http.reference URL)

/-- A path behind a host is absolute. -/
theorem isAbsolute_pathOf (rest : Str) : isAbsolute (pathOf rest) := by
  have hcons : ∃ q, pathOf rest = slash :: q := by
    unfold pathOf
    split
    · rename_i hmem
      obtain ⟨u, v, rfl, hu⟩ := List.eq_append_cons_of_mem hmem
      exact ⟨v, by rw [frontSplit_append hu]⟩
    · exact ⟨[], rfl⟩
  obtain ⟨q, hq⟩ := hcons
  have hdrop : (slash :: q).dropWhile (· == space) = slash :: q := List.dropWhile_cons_of_neg (by decide)
  rw [hq, isAbsolute_iff, trim, hdrop]
  cases htrim : (slash :: q).rdropWhile (· == space) with
  | nil => exact absurd (List.rdropWhile_eq_nil_iff.1 htrim slash List.mem_cons_self) (by decide)
  | cons c t =>
    have hfront : c :: t <+: slash :: q := htrim ▸ List.rdropWhile_prefix _ _
    exact ⟨t, by rw [(List.cons_prefix_cons.1 hfront).1]⟩

theorem setPath_based (hbased : h.Based) (path : Str) : h.setPath path = .ok { h with path := h.keptPath path } := by
  obtain ⟨base, hbase, hord⟩ := hbased
  exact setPath_eq h path hbase fun s hs => (hord s hs).slash_not_mem

/-- `setURL` resolves its reference. -/
theorem setURL_based (hbased : h.Based) (URL : Str) :
    ∃ h', h.setURL URL = .ok h' ∧ h'.Based ∧ h'.path = h.keptPath (reference URL) := by
  have hgo : ∃ h', h.goTo URL = .ok h' ∧ h'.Based ∧ h'.path = h.keptPath (reference URL) := by
    unfold goTo reference
    cases hscheme : scheme URL with
    | none => exact ⟨_, setPath_based (h := { h with header := https }) hbased URL, hbased, rfl⟩
    | some cut =>
      have hnil : Based { h with header := cut.1, host := hostOf cut.2, base_path := [] } :=
        ⟨[], rfl, fun s hs => absurd hs List.not_mem_nil⟩
      refine ⟨_, setPath_based hnil (pathOf cut.2), hnil, ?_⟩
      show keptPath _ _ = _
      rw [keptPath, keptPath, stack, stack, if_pos (isAbsolute_pathOf cut.2), if_pos (isAbsolute_pathOf cut.2)]
  obtain ⟨h', hset, hbased', hpath⟩ := hgo
  exact ⟨{ h' with port := portOf h'.host }, by rw [setURL_eq, hset]; rfl, hbased', hpath⟩

/-- The text before the last slash of a path is a base path. -/
theorem based_endSplit (hrooted : h.Rooted) : Based { h with base_path := (h.path.endSplit slash).1 } := by
  obtain ⟨segs, hord, hpath⟩ := hrooted
  have hslash : ∀ s ∈ segs, slash ∉ s := fun s hs => (hord s hs).slash_not_mem
  cases hpath with
  | inl hpath =>
    refine ⟨segs.dropLast, ?_, fun s hs => hord s (List.dropLast_subset _ hs)⟩
    rw [hpath]
    exact endSplit_joined hslash
  | inr hpath =>
    refine ⟨segs, ?_, hord⟩
    have hslash' : ∀ s ∈ segs ++ [[]], slash ∉ s := by
      intro s hs
      cases List.mem_append.1 hs with
      | inl hs => exact hslash s hs
      | inr hs => rw [List.mem_singleton.1 hs]; exact List.not_mem_nil
    have hsplit := endSplit_joined hslash'
    rw [List.dropLast_concat] at hsplit
    rw [hpath]
    exact hsplit

/-- **One call**: it returns, the paths stay ordinary, and the path is the one that is kept, if one is resolved. -/
theorem call_inv (hinv : h.Inv) (c : Call) : ∃ h', h.call c = .ok h' ∧ h'.Inv ∧
    ∀ path, c.reference = some path → h'.path = h.keptPath path := by
  cases c with
  | setHost host =>
    refine ⟨_, setHost_eq h host, ⟨⟨[], rfl, fun s hs => absurd hs List.not_mem_nil⟩, hinv.rooted⟩,
      fun path hpath => ?_⟩
    cases hpath
  | setPath path =>
    refine ⟨_, setPath_based hinv.based path, ⟨hinv.based, keptPath_rooted hinv.based path⟩, fun path' hpath => ?_⟩
    cases hpath
    rfl
  | setURL URL =>
    obtain ⟨h', hset, hbased, hpath⟩ := setURL_based hinv.based URL
    refine ⟨h', hset, ⟨hbased, ?_⟩, fun path hpath' => ?_⟩
    · rw [Rooted, hpath]
      exact keptPath_rooted hinv.based _
    · cases hpath'
      exact hpath
  | Request URL method data =>
    obtain ⟨h', hset, hbased, hpath⟩ := setURL_based hinv.based URL
    have hrooted : h'.Rooted := by
      rw [Rooted, hpath]
      exact keptPath_rooted hinv.based _
    refine ⟨{ h' with base_path := (h'.path.endSplit slash).1 }, ?_, ⟨based_endSplit hrooted, hrooted⟩,
      fun path hpath' => ?_⟩
    · rw [call, Request, hset]
      rfl
    · cases hpath'
      exact hpath

theorem inv_new : new.Inv where
  based := ⟨[], rfl, fun _ hs => absurd hs List.not_mem_nil⟩
  rooted := ⟨[], fun _ hs => absurd hs List.not_mem_nil, Or.inl rfl⟩

/-! ## All calls -/

/-- **Every run** returns and keeps the invariant. -/
theorem run_inv (hinv : h.Inv) (calls : List Call) : ∃ h', h.run calls = .ok h' ∧ h'.Inv := by
  induction calls generalizing h with
  | nil => exact ⟨h, rfl, hinv⟩
  | cons c calls ih =>
    obtain ⟨h₁, hcall, hinv₁, -⟩ := call_inv hinv c
    obtain ⟨h', hrun, hinv'⟩ := ih hinv₁
    exact ⟨h', by rw [run, List.foldlM_cons, hcall]; exact hrun, hinv'⟩

/-- The last call of a run. -/
theorem run_concat {calls : List Call} (hrun : h.run calls = .ok h') (c : Call) : h.run (calls ++ [c]) = h'.call c := by
  rw [run] at hrun ⊢
  rw [List.foldlM_append, hrun]
  exact bind_pure (h'.call c)

/-- `..` is no segment of ordinary segments. -/
theorem dotdot_not_mem_splitOn {segs : List Str} (h : ∀ s ∈ segs, s = [] ∨ Ordinary s) :
    dotdot ∉ (joined slash segs).splitOn slash := by
  have hslash : ∀ s ∈ segs, slash ∉ s := by
    intro s hs
    cases h s hs with
    | inl hnil => rw [hnil]; exact List.not_mem_nil
    | inr hord => exact hord.slash_not_mem
  have hdots : dotdot ≠ [] := by decide
  rw [splitOn_joined hslash, List.mem_cons, not_or]
  refine ⟨hdots, fun hmem => ?_⟩
  cases h dotdot hmem with
  | inl hnil => exact hdots hnil
  | inr hord => exact hord.ne_dotdot rfl

/-- **No path climbs above the root**: every run of calls on a new object returns, and `..` is no segment of the path
or of the base path. -/
theorem run_rooted (calls : List Call) : ∃ h, new.run calls = .ok h ∧ dotdot ∉ h.path.splitOn slash ∧
    dotdot ∉ h.base_path.splitOn slash := by
  obtain ⟨h, hrun, ⟨base, hbase, hbaseord⟩, segs, hord, hpath⟩ := run_inv inv_new calls
  refine ⟨h, hrun, ?_, ?_⟩
  · cases hpath with
    | inl hpath =>
      rw [hpath]
      exact dotdot_not_mem_splitOn fun s hs => Or.inr (hord s hs)
    | inr hpath =>
      rw [hpath]
      refine dotdot_not_mem_splitOn fun s hs => ?_
      cases List.mem_append.1 hs with
      | inl hs => exact Or.inr (hord s hs)
      | inr hs => exact Or.inl (List.mem_singleton.1 hs)
  · rw [hbase]
    exact dotdot_not_mem_splitOn fun s hs => Or.inr (hbaseord s hs)

/-! ## The slash in front -/

/-- **Something is left** of a reference: it has an empty segment, or some tail of the segments that it is resolved on
and of its own has more ordinary ones than `..`. -/
def Kept (h : Http) (path : Str) : Prop :=
  [] ∈ segments path ∨ ∃ t, t <:+ h.stack path ++ segments path ∧ t.countP (· = dotdot) < t.countP (· ≠ dotdot)

theorem head?_joined {segs : List Str} : (joined slash segs).head? = some slash ↔ segs ≠ [] := by
  cases segs <;> simp

theorem head?_keptPath (hbased : h.Based) (path : Str) : (h.keptPath path).head? = some slash ↔ h.Kept path := by
  have hstack : dotdot ∉ h.stack path := fun hmem => (ordinary_stack hbased dotdot hmem).ne_dotdot rfl
  unfold keptPath Kept
  by_cases hnil : [] ∈ segments path
  · refine iff_of_true ?_ (Or.inl hnil)
    rw [if_pos hnil]
    cases climb dotdot (h.stack path) ((segments path).takeWhile (· ≠ [])) <;> simp
  · have htake : (segments path).takeWhile (· ≠ []) = segments path :=
      List.takeWhile_eq_self_iff.2 fun s hs => by simpa using ne_of_mem_of_not_mem hs hnil
    rw [if_neg hnil, List.append_nil, htake, head?_joined, climb_eq_climb_append hstack, climb_ne_nil,
      or_iff_right hnil]

/-- **When the path begins with a slash**: in every run, after each call that resolves a path, exactly if something is
left of it. -/
theorem absolute_iff (calls : List Call) :
    (∀ init c path, init ++ [c] <+: calls → c.reference = some path →
      ∃ h', new.run (init ++ [c]) = .ok h' ∧ h'.path.head? = some slash) ↔
    ∀ init c path, init ++ [c] <+: calls → c.reference = some path → ∃ h, new.run init = .ok h ∧ h.Kept path := by
  refine forall_congr' fun init => forall_congr' fun c => forall_congr' fun path => forall₂_congr fun _ hpath => ?_
  obtain ⟨h, hrun, hinv⟩ := run_inv inv_new init
  obtain ⟨h', hcall, -, hkept⟩ := call_inv hinv c
  rw [run_concat hrun c, hcall, hrun]
  have hiff := head?_keptPath hinv.based path
  rw [← hkept path hpath] at hiff
  constructor
  · rintro ⟨g, hg, hhead⟩
    cases hg
    exact ⟨h, rfl, hiff.1 hhead⟩
  · rintro ⟨g, hg, hleft⟩
    cases hg
    exact ⟨h', rfl, hiff.2 hleft⟩

/-- `setPath("/..")`: nothing is left. -/
theorem not_absolute_dotdot : ¬∃ h', new.run [.setPath (literal "/..")] = .ok h' ∧ h'.path.head? = some slash := by
  rintro ⟨h', hrun, hhead⟩
  have heq : new.run [.setPath (literal "/..")] = .ok new := by decide +kernel
  cases hrun.symm.trans heq
  exact absurd hhead (by decide)

/-! ## What is sent -/

/-- The text that is sent names the path of the object. -/
theorem Request_line {URL method data text : Str} (hsend : h.Request URL method data = .ok (h', text))
    (hmethod : method ∈ [literal "GET", literal "POST", literal "HEAD"]) :
    ∃ rest, text = method ++ (space :: (h'.path ++ rest)) := by
  have hget : literal "GET " = literal "GET" ++ [space] := by decide
  have hpost : literal "POST " = literal "POST" ++ [space] ∧ literal "POST" ≠ literal "GET" := by decide
  have hhead : literal "HEAD " = literal "HEAD" ++ [space] ∧ literal "HEAD" ≠ literal "GET" ∧
    literal "HEAD" ≠ literal "POST" := by decide
  rw [Request] at hsend
  cases hset : h.setURL URL with
  | error e =>
    rw [hset] at hsend
    cases hsend
  | ok g =>
    simp only [hset, bind, Except.bind, pure, Except.pure] at hsend
    simp only [List.mem_cons, List.not_mem_nil, or_false] at hmethod
    obtain rfl | rfl | rfl := hmethod
    · rw [if_pos rfl] at hsend
      cases hsend
      exact ⟨literal " HTTP/1.0\r\n\r\n", by rw [GET, hget]; simp⟩
    · rw [if_neg hpost.2, if_pos rfl] at hsend
      cases hsend
      rw [POST, hpost.1]
      simp only [List.append_assoc, List.cons_append]
      exact ⟨_, rfl⟩
    · rw [if_neg hhead.2.1, if_neg hhead.2.2, if_pos rfl] at hsend
      cases hsend
      exact ⟨literal " HTTP/1.0\r\n\r\n", by rw [HEAD, hhead.1]; simp⟩

end Http

end LeftFelt
