import LeftFelt.Base.Http

/-!
# References without `..`

A reference without `..` should be kept as a whole, behind the base path if it is relative. The loop of `setPath` takes
any empty segment for the end of the path, where it keeps the slash: so an inner empty segment, as in the address of a
page that has another address in its query, takes everything behind it away (`storesWhole_iff`).
-/

namespace LeftFelt

open Lib Segments Str

namespace Http

variable {h : Http} {thisPath path : Str}

/-- The loop on segments without `..`, whatever path there is. -/
theorem resolve_of_not_mem {fuel : Nat} {segs : List Str} (hsegs : ∀ s ∈ segs, slash ∉ s) (hup : dotdot ∉ segs)
    (hfuel : (joined slash segs).length ≤ fuel) :
    resolve fuel thisPath (joined slash segs) =
      .ok (thisPath ++ joined slash (segs.takeWhile (· ≠ [])), if [] ∈ segs then [slash] else []) := by
  induction segs generalizing fuel thisPath with
  | nil => cases fuel <;> simp [resolve]
  | cons s segs ih =>
    rw [joined_cons, List.length_cons, List.length_append] at hfuel
    rw [List.mem_cons, not_or] at hup
    cases fuel with
    | zero => exact absurd hfuel (Nat.not_succ_le_zero _)
    | succ fuel =>
      rw [joined_cons, resolve, if_pos (List.cons_ne_nil _ _)]
      simp only [List.drop_one, List.tail_cons, frontSplit_joined (hsegs s List.mem_cons_self)]
      rw [if_neg (Ne.symm hup.1)]
      by_cases hnil : s = []
      · rw [if_pos hnil, hnil]
        simp
      · rw [if_neg hnil, ih (fun s hs => hsegs s (List.mem_cons_of_mem _ hs)) hup.2 (by omega),
          List.takeWhile_cons_of_pos (by simpa using hnil)]
        simp [Ne.symm hnil]

/-- The loop puts no bytes in. -/
theorem length_resolve_le {fuel : Nat} {result : Str × Str} (hresult : resolve fuel thisPath path = .ok result) :
    (result.1 ++ result.2).length ≤ thisPath.length + path.length := by
  induction fuel generalizing thisPath path with
  | zero =>
    rw [resolve] at hresult
    split_ifs at hresult
    simp [← Except.ok.inj hresult]
  | succ fuel ih =>
    rw [resolve] at hresult
    split_ifs at hresult with hne
    · have hpos := List.length_pos_of_ne_nil hne
      have hcut := congrArg List.length (frontSplit_fst_append_snd (path.drop 1) slash)
      have hbase := (List.take_prefix ((thisPath.rfind slash).getD 0) thisPath).length_le
      rw [List.length_append, List.length_drop] at hcut
      dsimp only at hresult
      split_ifs at hresult
      · have hle := ih hresult
        rw [endSplit] at hle
        dsimp only at hle
        omega
      · rw [← Except.ok.inj hresult]
        simp only [List.length_append, List.length_singleton]
        omega
      · have hle := ih hresult
        simp only [List.length_append, List.length_singleton] at hle ⊢
        omega
    · simp [← Except.ok.inj hresult]

/-! ## One call -/

/-- What the loop of `setPath` starts with. -/
def origin (h : Http) (path : Str) : Str := if isAbsolute path then [] else h.base_path

theorem joined_segments (path : Str) :
    joined slash (segments path) = if isAbsolute path then path.trim space else slash :: path.trim space := by
  by_cases habs : isAbsolute path
  · obtain ⟨q, hq⟩ := isAbsolute_iff.1 habs
    rw [segments, if_pos habs, if_pos habs, joined_splitOn, hq]
    rfl
  · rw [segments, if_neg habs, if_neg habs, joined_splitOn]

/-- What the loop is run on. -/
theorem setPath_eq_resolve (h : Http) (path : Str) :
    h.setPath path = (resolve (joined slash (segments path)).length (h.origin path) (joined slash (segments path))).map
      fun result => { h with path := result.1 ++ result.2 } := by
  have hstart : (if (path.trim space).front ≠ [slash] then (h.base_path, [slash] ++ path.trim space) else
      ([], path.trim space)) = (h.origin path, joined slash (segments path)) := by
    rw [joined_segments, origin]
    by_cases habs : isAbsolute path
    · have hfront : (path.trim space).front = [slash] := by simpa [isAbsolute] using habs
      simp [habs, hfront]
    · have hfront : (path.trim space).front ≠ [slash] := by simpa [isAbsolute] using habs
      simp [habs, hfront]
  rw [setPath, endStrip_frontStrip]
  simp only [bind, Except.bind, hstart]
  cases resolve (joined slash (segments path)).length (h.origin path) (joined slash (segments path)) <;> rfl

/-- A path without `..` is kept up to the first empty segment. -/
theorem setPath_of_not_mem (h : Http) (hup : dotdot ∉ segments path) :
    h.setPath path = .ok { h with path := h.origin path ++ (joined slash ((segments path).takeWhile (· ≠ [])) ++
      (if [] ∈ segments path then [slash] else [])) } := by
  rw [setPath_eq_resolve, resolve_of_not_mem (fun s hs => not_mem_segments hs) hup le_rfl]
  simp [Except.map]

/-! ## The law -/

/-- What a reference stands for: itself, or it behind the base path. -/
def target (h : Http) (reference : Str) : Str :=
  if reference.head? = some slash then reference else h.base_path ++ [slash] ++ reference

/-- **The reference is kept as a whole.** -/
def StoresWhole (h : Http) (reference : Str) : Prop := h.setPath reference = .ok { h with path := h.target reference }

/-- What a reference must be like: without spaces at its ends, and without two slashes that touch. -/
structure Plain (reference : Str) : Prop where
  head : reference.head? ≠ some space
  last : reference.getLast? ≠ some space
  slashes : ¬[slash, slash] <:+: reference

variable {reference : Str}

theorem isAbsolute_iff_head? (htrim : reference.trim space = reference) :
    isAbsolute reference ↔ reference.head? = some slash := by
  rw [isAbsolute_iff, htrim]
  cases reference with
  | nil => simp
  | cons c q => simp

/-- The path that is resolved, and the reference. -/
theorem target_eq (h : Http) (htrim : reference.trim space = reference) :
    h.target reference = h.origin reference ++ joined slash (segments reference) := by
  rw [target, origin, joined_segments, htrim]
  by_cases habs : isAbsolute reference
  · simp [habs, (isAbsolute_iff_head? htrim).1 habs]
  · simp [habs, mt (isAbsolute_iff_head? htrim).2 habs]

/-- Two slashes touch in the path that is resolved if they do in the reference. -/
theorem infix_segments_iff (htrim : reference.trim space = reference) :
    [slash, slash] <:+: joined slash (segments reference) ↔ [slash, slash] <:+: reference := by
  rw [joined_segments, htrim]
  by_cases habs : isAbsolute reference
  · rw [if_pos habs]
  · rw [if_neg habs, List.infix_cons_iff, List.cons_prefix_cons]
    refine ⟨fun hsub => hsub.resolve_left fun hfront => ?_, Or.inr⟩
    obtain ⟨q, hq⟩ := hfront.2
    exact habs ((isAbsolute_iff_head? htrim).2 (by rw [← hq]; rfl))

theorem dotdot_not_mem_segments (htrim : reference.trim space = reference) (hup : dotdot ∉ reference.splitOn slash) :
    dotdot ∉ segments reference := by
  by_cases habs : isAbsolute reference
  · obtain ⟨q, hq⟩ := isAbsolute_iff.1 habs
    rw [htrim] at hq
    rw [hq, ← List.nil_append (slash :: q), List.splitOn_append_cons_self_of_not_mem List.not_mem_nil,
      List.mem_cons, not_or] at hup
    rw [segments, if_pos habs, htrim, hq]
    exact hup.2
  · rwa [segments, if_neg habs, htrim]

/-- A slash in front stays there. -/
theorem isAbsolute_of_head? (hhead : reference.head? = some slash) : isAbsolute reference := by
  obtain ⟨q, rfl⟩ : ∃ q, reference = slash :: q := by
    cases reference with
    | nil => cases hhead
    | cons c q => exact ⟨q, by rw [Option.some.inj hhead]⟩
  have hne : trim (slash :: q) space ≠ [] := by
    rw [trim, List.dropWhile_cons_of_neg (by decide), Ne, List.rdropWhile_eq_nil_iff]
    exact fun hall => absurd (hall slash List.mem_cons_self) (by decide)
  have hprefix : trim (slash :: q) space <+: slash :: q := by
    rw [trim, List.dropWhile_cons_of_neg (by decide)]
    exact List.rdropWhile_prefix _ _
  rw [isAbsolute_iff]
  obtain ⟨a, t, heq⟩ := List.exists_cons_of_ne_nil hne
  rw [heq] at hprefix ⊢
  exact ⟨t, by rw [(List.cons_prefix_cons.1 hprefix).1]⟩

/-- With a space at an end, the path that is kept is too short. -/
theorem trim_of_storesWhole (hwhole : h.StoresWhole reference) : reference.trim space = reference := by
  have hstored := hwhole
  rw [StoresWhole, setPath_eq_resolve] at hstored
  obtain ⟨result, hresult, heq⟩ : ∃ result, resolve (joined slash (segments reference)).length (h.origin reference)
      (joined slash (segments reference)) = .ok result ∧ result.1 ++ result.2 = h.target reference := by
    cases hresolve : resolve (joined slash (segments reference)).length (h.origin reference)
        (joined slash (segments reference)) with
    | error e =>
      rw [hresolve] at hstored
      cases hstored
    | ok result =>
      rw [hresolve] at hstored
      exact ⟨result, rfl, congrArg Http.path (Except.ok.inj hstored)⟩
  have hle := length_resolve_le hresult
  refine (infix_trim reference space).eq_of_length_le ?_
  rw [heq, target, origin, joined_segments] at hle
  by_cases hhead : reference.head? = some slash
  · simpa [hhead, isAbsolute_of_head? hhead] using hle
  · rw [if_neg hhead, List.length_append, List.length_append, List.length_singleton] at hle
    split_ifs at hle
    · rw [List.length_nil] at hle
      omega
    · rw [List.length_cons] at hle
      omega

/-- **A reference without `..` is kept as a whole iff it is plain.** -/
theorem storesWhole_iff (h : Http) (hup : dotdot ∉ reference.splitOn slash) :
    h.StoresWhole reference ↔ Plain reference := by
  constructor
  · intro hwhole
    have htrim := trim_of_storesWhole hwhole
    have hkept : h.origin reference ++ (joined slash ((segments reference).takeWhile (· ≠ [])) ++
        (if [] ∈ segments reference then [slash] else [])) = h.target reference := by
      rw [StoresWhole, setPath_of_not_mem h (dotdot_not_mem_segments htrim hup)] at hwhole
      exact congrArg Http.path (Except.ok.inj hwhole)
    rw [target_eq h htrim, List.append_cancel_left_eq] at hkept
    refine ⟨(trim_eq_self_iff.1 htrim).1, (trim_eq_self_iff.1 htrim).2, fun hslashes => ?_⟩
    have hnil := nil_mem_dropLast (fun s hs => not_mem_segments hs) ((infix_segments_iff htrim).2 hslashes)
    have hlt : (joined slash ((segments reference).takeWhile (· ≠ []))).length + 1 <
        (joined slash (segments reference)).length := length_joined_takeWhile_lt hnil
    rw [← hkept, List.length_append, if_pos (List.dropLast_subset _ hnil), List.length_singleton] at hlt
    exact absurd hlt (lt_irrefl _)
  · intro hplain
    have htrim := trim_eq_self hplain.head hplain.last
    have hnil : [] ∉ (segments reference).dropLast := fun hmem =>
      hplain.slashes ((infix_segments_iff htrim).1 (infix_of_nil_mem_dropLast hmem))
    rw [StoresWhole, setPath_of_not_mem h (dotdot_not_mem_segments htrim hup), joined_takeWhile hnil, target_eq h htrim]

/-- `/a` is kept. -/
theorem storesWhole_a : StoresWhole new (literal "/a") :=
  (storesWhole_iff new (by decide)).2 ⟨by decide, by decide, by decide⟩

/-- Of `/a//b` only `/a/` is kept, though it is absolute and has neither `..` nor spaces at its ends. -/
theorem not_storesWhole_slashes : ¬∀ (h : Http) (reference : Str), dotdot ∉ reference.splitOn slash →
    (reference.head? = some slash → reference.head? ≠ some space ∧ reference.getLast? ≠ some space) →
      h.StoresWhole reference := by
  intro hlaw
  have hwhole := hlaw new (literal "/a//b") (by decide) (by decide)
  revert hwhole
  rw [StoresWhole]
  decide

end Http

end LeftFelt
