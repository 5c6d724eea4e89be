import Mathlib.Algebra.BigOperators.Group.List.Basic
import Mathlib.Algebra.Order.Group.Unbundled.Abs
import Mathlib.Algebra.Order.Field.Basic
import Mathlib.Data.List.Dedup
import Mathlib.Data.List.Sort
import Mathlib.Data.Rat.Sqrt
import Mathlib.Algebra.Order.Field.Rat

/-!
# The labels of the clusters

`ClusterRepository::commit` compares the feature of a pattern with those that are stored. If there are rows within the
threshold, the pattern gets the label of one of them; if not, a new label, which is one more than the largest row id. No
label is larger than the largest row id (`Inv`), so the new one is not used (`labelled_run`).

Numbers are exact, and `sqrt` is a parameter. Where SQLite is free, in the order of rows with equal sums and in the row
that stands for a group, an `Engine` decides, which may be another one at every statement. A feature that is no number
makes the statement fail, and `commit` ignores the pattern.
-/

namespace LeftFelt.Cluster

/-! ## The table -/

/-- A row of the table. -/
structure Row (K : Type) where
  id : Int
  label : Int
  feature : K
  priority : Int
  deriving DecidableEq

/-- The table, with the last id that AUTOINCREMENT has given. -/
structure Table (K : Type) where
  rows : List (Row K)
  sequence : Int

/-- What the documentation of SQLite leaves open: the order of groups with equal sums, and the row of a group whose
other columns are returned. -/
structure Engine (K : Type) where
  arrange : List (Int × Int) → List (Int × Int)
  arrange_perm : ∀ groups, (arrange groups).Perm groups
  arrange_sorted : ∀ groups, (arrange groups).Pairwise fun a b => b.2 ≤ a.2
  bare : List (Row K) → Row K
  bare_mem : ∀ group ≠ [], bare group ∈ group

/-- A row of a result, as far as it is read. -/
structure Found where
  id : Int
  label : Int

namespace ClusterRepository

variable {K : Type}

/-- `sum(priority)` of a group. -/
def prioritySum (rows : List (Row K)) (label : Int) : Int :=
  ((rows.filter (·.label = label)).map Row.priority).sum

/-- The groups of rows with one label, with their sums. -/
def groups (rows : List (Row K)) : List (Int × Int) :=
  (rows.map Row.label).dedup.map fun label => (label, prioritySum rows label)

/-- `getRaisePriorityQuery(result)`. -/
def raisePriority (result : List Found) (t : Table K) : Table K :=
  { t with rows := t.rows.map fun r =>
      if r.id ∈ result.map Found.id then { r with priority := r.priority + 1 } else r }

/-- `SELECT max(rowid)`. -/
def maxRowid (t : Table K) : Option Int := (t.rows.map Row.id).max?

/-- `getAddClusterQuery(feature, label)`, where -1 stands for a new label. -/
def addCluster (feature : K) (label : Int) (t : Table K) : Table K where
  rows := t.rows ++
    [⟨t.sequence + 1, if label = -1 then ((maxRowid t).map (· + 1)).getD 0 else label, feature, 0⟩]
  sequence := t.sequence + 1

section Queries

variable [Field K] [LinearOrder K]

/-- `getTableName() WHERE abs(feature-(f)) < threshold`. -/
def within (rows : List (Row K)) (feature threshold : K) : List (Row K) :=
  rows.filter fun r => |r.feature - feature| < threshold

/-- `getSelectClusterQuery(feature, threshold)`. -/
def selectCluster (e : Engine K) (feature threshold : K) (t : Table K) : List Found :=
  let rows := within t.rows feature threshold
  ((e.arrange (groups rows)).take 3).map fun g => ⟨(e.bare (rows.filter (·.label = g.1))).id, g.1⟩

/-! ## Committing -/

variable (sqrt : K → K)

/-- A quotient, if it is a number. -/
def quotient (a b : K) : Option K := if b = 0 then none else some (a / b)

/-- `Math::cosSimilarity(vector1, vector2)`. -/
def cosSimilarity (vector1 vector2 : List K) : Option K :=
  let pairs := vector1.zip vector2
  let p_v1 := (pairs.map fun p => p.1 ^ 2).sum
  let p_v2 := (pairs.map fun p => p.2 ^ 2).sum
  let p_v1v2 := (pairs.map fun p => p.1 * p.2).sum
  quotient p_v1v2 (sqrt p_v1 * sqrt p_v2)

/-- The feature of a pattern. -/
def featureOf (pattern : List K) : Option K :=
  let origin := List.replicate pattern.length 1
  cosSimilarity sqrt origin pattern

/-- `commit`, for one pattern: a statement that fails throws, and the exception is ignored. -/
def commitPattern (e : Engine K) (threshold : K) (pattern : List K) (t : Table K) : Table K :=
  match featureOf sqrt pattern with
  | none => t
  | some feature =>
    match selectCluster e feature threshold t with
    | [] => addCluster feature (-1) t
    | found :: rest => addCluster feature found.label (raisePriority (found :: rest) t)

/-- `commit(pattern_list, threshold)`. -/
def commit (threshold : K) (pattern_list : List (Engine K × List K)) (t : Table K) : Table K :=
  pattern_list.foldl (fun t p => commitPattern sqrt p.1 threshold p.2 t) t

/-- Calls of `commit` one after the other, from an empty table. -/
def run (history : List (K × List (Engine K × List K))) : Table K :=
  history.foldl (fun t call => commit sqrt call.1 call.2 t) ⟨[], 0⟩

end Queries

/-! ## Features -/

section Features

theorem zip_origin {K : Type} [One K] (pattern : List K) :
    (List.replicate pattern.length (1 : K)).zip pattern = pattern.map fun x => (1, x) := by
  induction pattern with
  | nil => rfl
  | cons x pattern ih => rw [List.length_cons, List.replicate_succ, List.zip_cons_cons, ih, List.map_cons]

variable [Field K] [LinearOrder K]

theorem quotient_eq_none {a b : K} : quotient a b = none ↔ b = 0 := by
  by_cases h : b = 0 <;> simp [quotient, h]

variable [IsStrictOrderedRing K]

theorem sum_map_sq_nonneg (l : List K) : 0 ≤ (l.map (· ^ 2)).sum := by
  induction l with
  | nil => exact le_rfl
  | cons x l ih => exact add_nonneg (sq_nonneg x) ih

theorem sum_map_sq_eq_zero {l : List K} : (l.map (· ^ 2)).sum = 0 ↔ ∀ x ∈ l, x = 0 := by
  induction l with
  | nil => simp
  | cons x l ih =>
    rw [List.map_cons, List.sum_cons, add_eq_zero_iff_of_nonneg (sq_nonneg x) (sum_map_sq_nonneg l), ih,
      pow_eq_zero_iff two_ne_zero, List.forall_mem_cons]

variable {sqrt : K → K}

/-- **Which patterns have a feature**: those with a value that is not zero. -/
theorem featureOf_eq_none_iff (hsqrt : ∀ x, 0 ≤ x → (sqrt x = 0 ↔ x = 0)) {pattern : List K} :
    featureOf sqrt pattern = none ↔ ∀ x ∈ pattern, x = 0 := by
  have hones : ((pattern.map fun x => ((1 : K), x)).map fun p => p.1 ^ 2).sum = (pattern.length : K) := by
    rw [List.map_map]
    induction pattern with
    | nil => simp
    | cons x pattern ih => rw [List.map_cons, List.sum_cons, ih, List.length_cons]; simp [add_comm]
  have hsquares : ((pattern.map fun x => ((1 : K), x)).map fun p => p.2 ^ 2).sum = (pattern.map (· ^ 2)).sum := by
    rw [List.map_map]
    rfl
  have hzero : sqrt pattern.length * sqrt (pattern.map (· ^ 2)).sum = 0 ↔ ∀ x ∈ pattern, x = 0 := by
    rw [mul_eq_zero, hsqrt _ (Nat.cast_nonneg _), hsqrt _ (sum_map_sq_nonneg pattern), sum_map_sq_eq_zero]
    refine or_iff_right_of_imp fun hlength x hx => ?_
    rw [List.eq_nil_of_length_eq_zero (Nat.cast_eq_zero.mp hlength)] at hx
    cases hx
  unfold featureOf cosSimilarity
  simp only [zip_origin, hones, hsquares]
  exact quotient_eq_none.trans hzero

end Features

/-! ## Choosing a label -/

section Select

theorem mem_groups {rows : List (Row K)} {g : Int × Int} :
    g ∈ groups rows ↔ ∃ r ∈ rows, (r.label, prioritySum rows r.label) = g := by
  simp [groups]

variable [Field K] [LinearOrder K] {e : Engine K} {feature threshold : K} {t : Table K}

/-- Nothing is found if no row is within the threshold. -/
theorem selectCluster_eq_nil : selectCluster e feature threshold t = [] ↔ within t.rows feature threshold = [] := by
  have hperm := (e.arrange_perm (groups (within t.rows feature threshold))).length_eq
  have hgroups : groups (within t.rows feature threshold) = [] ↔ within t.rows feature threshold = [] := by
    simp [groups]
  rw [selectCluster, List.map_eq_nil_iff, List.take_eq_nil_iff, ← hgroups, ← List.length_eq_zero_iff, hperm,
    List.length_eq_zero_iff]
  simp

/-- **The first row that is found** has the label with the greatest sum. -/
theorem selectCluster_head {found : Found} {rest : List Found}
    (h : selectCluster e feature threshold t = found :: rest) :
    ∃ r ∈ within t.rows feature threshold, r.label = found.label ∧
      ∀ s ∈ within t.rows feature threshold, prioritySum (within t.rows feature threshold) s.label ≤
        prioritySum (within t.rows feature threshold) found.label := by
  have hsorted := e.arrange_sorted (groups (within t.rows feature threshold))
  have hmem : ∀ g, g ∈ e.arrange (groups (within t.rows feature threshold)) ↔
      ∃ r ∈ within t.rows feature threshold, (r.label, prioritySum (within t.rows feature threshold) r.label) = g :=
    fun g => (e.arrange_perm _).mem_iff.trans mem_groups
  rw [selectCluster] at h
  cases harrange : e.arrange (groups (within t.rows feature threshold)) with
  | nil =>
    rw [harrange] at h
    cases h
  | cons g gs =>
    rw [harrange] at h hsorted hmem
    have hlabel : g.1 = found.label := congrArg Found.label (List.cons.inj h).1
    obtain ⟨r, hr, hg⟩ := (hmem g).mp List.mem_cons_self
    refine ⟨r, hr, (congrArg Prod.fst hg).trans hlabel, fun s hs => ?_⟩
    have hsum : g.2 = prioritySum (within t.rows feature threshold) found.label := by rw [← hlabel, ← hg]
    rw [← hsum]
    obtain heq | htail := List.mem_cons.mp ((hmem _).mpr ⟨s, hs, rfl⟩)
    · exact (congrArg Prod.snd heq).le
    · exact (List.pairwise_cons.mp hsorted).1 _ htail

end Select

/-! ## Ids and labels -/

/-- No label is larger than the last id, which a row has. -/
structure Inv (t : Table K) : Prop where
  sequence_nonneg : 0 ≤ t.sequence
  id_le : ∀ r ∈ t.rows, r.id ≤ t.sequence
  label_nonneg : ∀ r ∈ t.rows, 0 ≤ r.label
  label_le : ∀ r ∈ t.rows, r.label ≤ t.sequence
  last : t.rows ≠ [] → ∃ r ∈ t.rows, r.id = t.sequence

theorem inv_empty : Inv (⟨[], 0⟩ : Table K) where
  sequence_nonneg := le_rfl
  id_le _ h := by cases h
  label_nonneg _ h := by cases h
  label_le _ h := by cases h
  last h := absurd rfl h

variable {t : Table K}

/-- What is told of the rows, apart from their priorities. -/
def content (rows : List (Row K)) : List (Int × Int × K) := rows.map fun r => (r.id, r.label, r.feature)

theorem content_raisePriority (result : List Found) (t : Table K) :
    content (raisePriority result t).rows = content t.rows := by
  rw [raisePriority, content, content, List.map_map]
  refine List.map_congr_left fun r _ => ?_
  by_cases h : r.id ∈ result.map Found.id
  · rw [Function.comp_apply, if_pos h]
  · rw [Function.comp_apply, if_neg h]

/-- The invariant is about the content. -/
theorem Inv.of_content (ht : Inv t) {t' : Table K} (hrows : content t'.rows = content t.rows)
    (hsequence : t'.sequence = t.sequence) : Inv t' := by
  have hmem : ∀ r' ∈ t'.rows, ∃ r ∈ t.rows, r.id = r'.id ∧ r.label = r'.label := by
    intro r' hr'
    have hr : (r'.id, r'.label, r'.feature) ∈ content t.rows := hrows ▸ List.mem_map_of_mem hr'
    obtain ⟨r, hr, heq⟩ := List.mem_map.mp hr
    exact ⟨r, hr, congrArg Prod.fst heq, congrArg (·.2.1) heq⟩
  refine ⟨hsequence ▸ ht.sequence_nonneg, fun r' hr' => ?_, fun r' hr' => ?_, fun r' hr' => ?_, fun hne => ?_⟩
  · obtain ⟨r, hr, hid, -⟩ := hmem r' hr'
    rw [← hid, hsequence]
    exact ht.id_le r hr
  · obtain ⟨r, hr, -, hlabel⟩ := hmem r' hr'
    exact hlabel ▸ ht.label_nonneg r hr
  · obtain ⟨r, hr, -, hlabel⟩ := hmem r' hr'
    rw [← hlabel, hsequence]
    exact ht.label_le r hr
  · have hne' : t.rows ≠ [] := by
      intro hnil
      rw [hnil] at hrows
      exact hne (List.map_eq_nil_iff.mp hrows)
    obtain ⟨r, hr, hid⟩ := ht.last hne'
    have hr' : (r.id, r.label, r.feature) ∈ content t'.rows := hrows ▸ List.mem_map_of_mem hr
    obtain ⟨r', hr', heq⟩ := List.mem_map.mp hr'
    exact ⟨r', hr', (congrArg Prod.fst heq).trans (hid.trans hsequence.symm)⟩

/-- The largest row id is the last one that has been given. -/
theorem maxRowid_eq (ht : Inv t) (hne : t.rows ≠ []) : maxRowid t = some t.sequence := by
  obtain ⟨r, hr, hid⟩ := ht.last hne
  refine List.max?_eq_some_iff.mpr ⟨hid ▸ List.mem_map_of_mem hr, fun i hi => ?_⟩
  obtain ⟨s, hs, rfl⟩ := List.mem_map.mp hi
  exact ht.id_le s hs

/-- A new row keeps the invariant. -/
theorem inv_add (ht : Inv t) {r : Row K} (hid : r.id = t.sequence + 1) (hnonneg : 0 ≤ r.label)
    (hle : r.label ≤ t.sequence + 1) : Inv (⟨t.rows ++ [r], t.sequence + 1⟩ : Table K) where
  sequence_nonneg := ht.sequence_nonneg.trans (Int.le_add_one le_rfl)
  id_le s hs := by
    obtain hs | hs := List.mem_append.mp hs
    · exact Int.le_add_one (ht.id_le s hs)
    · rw [List.mem_singleton.mp hs, hid]
  label_nonneg s hs := by
    obtain hs | hs := List.mem_append.mp hs
    · exact ht.label_nonneg s hs
    · rw [List.mem_singleton.mp hs]
      exact hnonneg
  label_le s hs := by
    obtain hs | hs := List.mem_append.mp hs
    · exact Int.le_add_one (ht.label_le s hs)
    · rw [List.mem_singleton.mp hs]
      exact hle
  last _ := ⟨r, List.mem_append_right _ List.mem_cons_self, hid⟩

/-- **A new label** is at most the new id, and no row has it. -/
theorem newLabel_spec (ht : Inv t) :
    let label := ((maxRowid t).map (· + 1)).getD 0
    (0 ≤ label ∧ label ≤ t.sequence + 1) ∧ ∀ r ∈ t.rows, r.label ≠ label := by
  have hnonneg := ht.sequence_nonneg
  by_cases hempty : t.rows = []
  · have hnone : maxRowid t = none := by rw [maxRowid, hempty]; rfl
    rw [hnone]
    refine ⟨⟨le_rfl, ?_⟩, fun r hr => ?_⟩
    · show 0 ≤ t.sequence + 1
      omega
    · rw [hempty] at hr
      cases hr
  · rw [maxRowid_eq ht hempty]
    refine ⟨⟨?_, le_rfl⟩, fun r hr => ?_⟩
    · show 0 ≤ t.sequence + 1
      omega
    · have hle := ht.label_le r hr
      show r.label ≠ t.sequence + 1
      omega

/-! ## Runs -/

section Runs

variable [Field K] [LinearOrder K] {sqrt : K → K} {e : Engine K} {threshold : K} {pattern : List K}

/-- The table is `t` with one more row, which has the feature, and a new label or the label of a row within the
threshold with the greatest sum. -/
def AddsRow (feature threshold : K) (t t' : Table K) : Prop :=
  let rows := within t.rows feature threshold
  ∃ old new, t'.rows = old ++ [new] ∧ content old = content t.rows ∧ new.feature = feature ∧
    (rows = [] → ∀ r ∈ t.rows, r.label ≠ new.label) ∧
    (rows ≠ [] → ∃ r ∈ rows, r.label = new.label ∧
      ∀ s ∈ rows, prioritySum rows s.label ≤ prioritySum rows new.label)

/-- **One pattern**: a feature adds one row, and the invariant is kept. -/
theorem commitPattern_spec (ht : Inv t) {feature : K} (hfeature : featureOf sqrt pattern = some feature) :
    AddsRow feature threshold t (commitPattern sqrt e threshold pattern t) ∧
      Inv (commitPattern sqrt e threshold pattern t) := by
  have hcommit : commitPattern sqrt e threshold pattern t = match selectCluster e feature threshold t with
      | [] => addCluster feature (-1) t
      | found :: rest => addCluster feature found.label (raisePriority (found :: rest) t) := by
    rw [commitPattern, hfeature]
  rw [hcommit]
  cases hselect : selectCluster e feature threshold t with
  | nil =>
    -- no cluster: the new label is one more than the largest row id
    obtain ⟨⟨hnonneg, hle⟩, hnew⟩ := newLabel_spec ht
    have hnil := selectCluster_eq_nil.mp hselect
    exact ⟨⟨t.rows, _, rfl, rfl, rfl, fun _ => hnew, fun hne => absurd hnil hne⟩, inv_add ht rfl hnonneg hle⟩
  | cons found rest =>
    obtain ⟨r, hr, hlabel, hmax⟩ := selectCluster_head hselect
    have hmem : r ∈ t.rows := List.mem_of_mem_filter hr
    have hnonneg : 0 ≤ found.label := hlabel ▸ ht.label_nonneg r hmem
    have hle : found.label ≤ t.sequence + 1 := hlabel ▸ Int.le_add_one (ht.label_le r hmem)
    have hraise : Inv (raisePriority (found :: rest) t) := ht.of_content (content_raisePriority _ t) rfl
    have hold : ¬found.label = -1 := by omega
    simp only [addCluster, if_neg hold]
    exact ⟨⟨_, _, rfl, content_raisePriority _ t, rfl, fun hnil => absurd hr (hnil ▸ List.not_mem_nil),
      fun _ => ⟨r, hr, hlabel, hmax⟩⟩, inv_add hraise rfl hnonneg hle⟩

theorem inv_commitPattern (ht : Inv t) : Inv (commitPattern sqrt e threshold pattern t) := by
  cases hfeature : featureOf sqrt pattern with
  | none => rwa [commitPattern, hfeature]
  | some feature => exact (commitPattern_spec ht hfeature).2

theorem inv_commit (ht : Inv t) (pattern_list : List (Engine K × List K)) :
    Inv (commit sqrt threshold pattern_list t) := by
  induction pattern_list generalizing t with
  | nil => exact ht
  | cons p pattern_list ih => exact ih (inv_commitPattern ht)

theorem inv_run (history : List (K × List (Engine K × List K))) : Inv (run sqrt history) := by
  suffices ∀ t, Inv t → Inv (history.foldl (fun t call => commit sqrt call.1 call.2 t) t) from this _ inv_empty
  induction history with
  | nil => exact fun t ht => ht
  | cons call history ih => exact fun t ht => ih _ (inv_commit ht call.2)

/-- One pattern more in the last call. -/
theorem run_pattern (sqrt : K → K) (history : List (K × List (Engine K × List K))) (threshold : K)
    (pattern_list : List (Engine K × List K)) (e : Engine K) (pattern : List K) :
    run sqrt (history ++ [(threshold, pattern_list ++ [(e, pattern)])]) =
      commitPattern sqrt e threshold pattern (run sqrt (history ++ [(threshold, pattern_list)])) := by
  simp only [run, commit, List.foldl_append, List.foldl_cons, List.foldl_nil]

end Runs

/-! ## Over the rationals -/

/-- Groups sorted by insertion, and the first row of a group. -/
def inserting : Engine ℚ where
  arrange := List.insertionSort fun a b => b.2 ≤ a.2
  arrange_perm := List.perm_insertionSort _
  arrange_sorted _ := List.pairwise_insertionSort _ _
  bare group := group.head?.getD ⟨0, 0, 0, 0⟩
  bare_mem group hne := by
    obtain ⟨r, group, rfl⟩ := List.exists_cons_of_ne_nil hne
    exact List.mem_cons_self

/-- Two patterns, with the features 1 and 1/2. -/
def corners : List (Engine ℚ × List ℚ) := [(inserting, [1, 1, 1, 1]), (inserting, [1, 1, 1, -1])]

theorem sqrt_eq_zero {x : ℚ} (hx : 0 ≤ x) : Rat.sqrt x = 0 ↔ x = 0 := by
  have hden : Nat.sqrt x.den ≠ 0 := (Nat.sqrt_pos.mpr x.den_pos).ne'
  rw [Rat.sqrt, Rat.mkRat_eq_zero hden, Int.sqrt, Int.natCast_eq_zero, Nat.sqrt_eq_zero, Int.toNat_eq_zero,
    (Rat.num_nonneg.mpr hx).ge_iff_eq', Rat.num_eq_zero]

end ClusterRepository

end LeftFelt.Cluster
