import LeftFelt.Lib.Packing
import LeftFelt.Cluster.ClusterRepository
import Mathlib.Algebra.BigOperators.Fin
import Mathlib.Algebra.Order.BigOperators.Ring.Finset
import Mathlib.Analysis.Real.Sqrt
import Mathlib.Logic.Relation

/-!
# What the clusters know

A feature is a cosine, and a new cluster is made only for a feature that is far from all that are stored. So there are
never more clusters than have a place between -1 and 1 (`labels_run`), however much is learned. Each cluster hangs
together by steps that are less than the threshold (`clusters_run`), and what has been learned is found again
(`search_run`).
-/

namespace LeftFelt.Cluster.ClusterRepository

variable {K : Type}

/-- The labels and features of the rows. -/
def points (rows : List (Row K)) : List (Int × K) := rows.map fun r => (r.label, r.feature)

theorem points_congr {rows rows' : List (Row K)} (h : content rows = content rows') : points rows = points rows' := by
  have hsnd : ∀ rows : List (Row K), points rows = (content rows).map Prod.snd := fun rows => by
    rw [content, List.map_map]
    rfl
  rw [hsnd, hsnd, h]

section Features

variable [Field K] [LinearOrder K]

/-- `search(pattern, threshold)`, which throws if nothing is found. -/
def search (sqrt : K → K) (e : Engine K) (threshold : K) (pattern : List K) (t : Table K) : Option Found :=
  (featureOf sqrt pattern).bind fun feature => (selectCluster e feature threshold t).head?

variable {sqrt : K → K} {t t' : Table K} {feature threshold T : K}

/-! ## Runs -/

/-- One row more: a new label, far from all that is there, or the label of a row that is near. -/
theorem points_adds (h : AddsRow feature threshold t t') :
    ∃ label, points t'.rows = points t.rows ++ [(label, feature)] ∧
    ((∀ p ∈ points t.rows, p.1 ≠ label ∧ threshold ≤ |p.2 - feature|) ∨
      ∃ p ∈ points t.rows, p.1 = label ∧ |p.2 - feature| < threshold) := by
  obtain ⟨old, new, hrows, hcontent, hfeature, hnew, hold⟩ := h
  refine ⟨new.label, ?_, ?_⟩
  · rw [hrows, points, List.map_append, ← points, points_congr hcontent, ← hfeature]
    rfl
  · by_cases hwithin : within t.rows feature threshold = []
    · refine .inl fun p hp => ?_
      obtain ⟨r, hr, rfl⟩ := List.mem_map.1 hp
      refine ⟨hnew hwithin r hr, ?_⟩
      have hnot := List.filter_eq_nil_iff.1 hwithin r hr
      simpa using hnot
    · obtain ⟨r, hr, hlabel, -⟩ := hold hwithin
      obtain ⟨hmem, hnear⟩ := List.mem_filter.1 hr
      exact .inr ⟨_, List.mem_map_of_mem hmem, hlabel, by simpa using hnear⟩

/-- What is kept by one row more. -/
def Keeps (sqrt : K → K) (threshold : K) (P : List (Int × K) → Prop) : Prop :=
  ∀ (pattern : List K) (feature : K) (label : Int) (pts : List (Int × K)), featureOf sqrt pattern = some feature →
    P pts → ((∀ p ∈ pts, p.1 ≠ label ∧ threshold ≤ |p.2 - feature|) ∨
      ∃ p ∈ pts, p.1 = label ∧ |p.2 - feature| < threshold) → P (pts ++ [(label, feature)])

variable {P : List (Int × K) → Prop} {history : List (K × List (Engine K × List K))}

theorem Keeps.commitPattern (h : Keeps sqrt threshold P) (hinv : Inv t) (ht : P (points t.rows)) (e : Engine K)
    (pattern : List K) : P (points (commitPattern sqrt e threshold pattern t).rows) := by
  cases hfeature : featureOf sqrt pattern with
  | none => rwa [ClusterRepository.commitPattern, hfeature]
  | some feature =>
    obtain ⟨label, hpoints, hcases⟩ := points_adds (commitPattern_spec hinv hfeature).1
    rw [hpoints]
    exact h pattern feature label _ hfeature ht hcases

theorem Keeps.commit (h : Keeps sqrt threshold P) (hinv : Inv t) (ht : P (points t.rows))
    (pattern_list : List (Engine K × List K)) : P (points (commit sqrt threshold pattern_list t).rows) := by
  induction pattern_list generalizing t with
  | nil => exact ht
  | cons p pattern_list ih => exact ih (inv_commitPattern hinv) (h.commitPattern hinv ht p.1 p.2)

/-- What every call keeps, a run keeps. -/
theorem points_foldl (h : ∀ call ∈ history, Keeps sqrt call.1 P) (hinv : Inv t) (ht : P (points t.rows)) :
    P (points (history.foldl (fun t call => ClusterRepository.commit sqrt call.1 call.2 t) t).rows) := by
  induction history generalizing t with
  | nil => exact ht
  | cons call history ih =>
    exact ih (fun c hc => h c (List.mem_cons_of_mem _ hc)) (inv_commit hinv call.2)
      ((h call List.mem_cons_self).commit hinv ht call.2)

theorem points_run (h : ∀ call ∈ history, Keeps sqrt call.1 P) (hnil : P []) : P (points (run sqrt history).rows) :=
  points_foldl h inv_empty hnil

/-! ## How a cluster hangs together -/

/-- One step within a cluster. -/
def Near (T : K) (pts : List (Int × K)) (p q : Int × K) : Prop :=
  p ∈ pts ∧ q ∈ pts ∧ q.1 = p.1 ∧ |p.2 - q.2| < T

/-- Rows with one label are connected. -/
def Connected (T : K) (pts : List (Int × K)) : Prop :=
  ∀ p ∈ pts, ∀ q ∈ pts, p.1 = q.1 → Relation.ReflTransGen (Near T pts) p q

theorem keeps_connected (hle : threshold ≤ T) : Keeps sqrt threshold (Connected T) := by
  intro pattern feature label pts _ h hcases p hp q hq hpq
  have hmono : Relation.ReflTransGen (Near T pts) ≤ Relation.ReflTransGen (Near T (pts ++ [(label, feature)])) :=
    Relation.ReflTransGen.mono fun a b hab =>
      ⟨List.mem_append_left _ hab.1, List.mem_append_left _ hab.2.1, hab.2.2⟩
  have hlast : (label, feature) ∈ pts ++ [(label, feature)] := List.mem_append_right _ List.mem_cons_self
  have hold : ∀ {a}, a ∈ pts ++ [(label, feature)] → a ∈ pts ∨ a = (label, feature) := fun ha =>
    (List.mem_append.1 ha).imp_right List.mem_singleton.1
  rcases hold hp with hp' | rfl <;> rcases hold hq with hq' | rfl
  · exact hmono _ _ (h p hp' q hq' hpq)
  · -- the row that is near leads to the new one
    rcases hcases with hnew | ⟨r, hr, hlabel, hnear⟩
    · exact absurd hpq (hnew p hp').1
    · exact (hmono _ _ (h p hp' r hr (hpq.trans hlabel.symm))).tail
        ⟨List.mem_append_left _ hr, hlast, hlabel.symm, hnear.trans_le hle⟩
  · rcases hcases with hnew | ⟨r, hr, hlabel, hnear⟩
    · exact absurd hpq.symm (hnew q hq').1
    · refine .head ⟨hlast, List.mem_append_left _ hr, hlabel, ?_⟩
        (hmono _ _ (h r hr q hq' (hlabel.trans hpq)))
      rw [abs_sub_comm]
      exact hnear.trans_le hle
  · exact .refl

/-- **Each cluster hangs together** by steps that are less than the threshold. -/
theorem clusters_run (hthreshold : ∀ call ∈ history, call.1 ≤ T) {r s : Row K} (hr : r ∈ (run sqrt history).rows)
    (hs : s ∈ (run sqrt history).rows) (hlabel : r.label = s.label) :
    Relation.ReflTransGen (Near T (points (run sqrt history).rows)) (r.label, r.feature) (s.label, s.feature) :=
  points_run (P := Connected T) (fun call hcall => keeps_connected (hthreshold call hcall)) (fun _ h => (nomatch h)) _
    (List.mem_map_of_mem hr) _ (List.mem_map_of_mem hs) hlabel

theorem clusters_run_corners :
    Relation.ReflTransGen (Near (1 / 10) (points (run Rat.sqrt [(1 / 10, corners ++ [(inserting, [3])])]).rows))
      (0, 1) (0, 1) :=
  clusters_run (by simp) (r := ⟨1, 0, 1, 1⟩) (s := ⟨3, 0, 1, 0⟩) (by decide +kernel) (by decide +kernel) rfl

/-! ## What is found again -/

/-- A pattern that has been learned has left its feature. -/
theorem feature_mem_run {call : K × List (Engine K × List K)} (hcall : call ∈ history) {p : Engine K × List K}
    (hp : p ∈ call.2) (hfeature : featureOf sqrt p.2 = some feature) :
    ∃ r ∈ (run sqrt history).rows, r.feature = feature := by
  have hkeeps : ∀ threshold, Keeps sqrt threshold (fun pts => ∃ q ∈ pts, q.2 = feature) := by
    rintro threshold pattern f label pts - ⟨q, hq, hqf⟩ -
    exact ⟨q, List.mem_append_left _ hq, hqf⟩
  obtain ⟨before, after, rfl⟩ := List.append_of_mem hcall
  obtain ⟨first, rest, hlist⟩ := List.append_of_mem hp
  have hinv : Inv (commit sqrt call.1 first (run sqrt before)) := inv_commit (inv_run before) first
  have hadds : AddsRow feature call.1 _ (commitPattern sqrt p.1 call.1 p.2 _) := (commitPattern_spec hinv hfeature).1
  obtain ⟨label, hpoints, -⟩ := points_adds hadds
  have hthere : ∃ q ∈ points (commitPattern sqrt p.1 call.1 p.2 (commit sqrt call.1 first (run sqrt before))).rows,
      q.2 = feature := ⟨_, hpoints ▸ List.mem_append_right _ List.mem_cons_self, rfl⟩
  have hcommit := (hkeeps call.1).commit (inv_commitPattern hinv) hthere rest
  have heq : run sqrt (before ++ call :: after) = after.foldl (fun t call => commit sqrt call.1 call.2 t)
      (commit sqrt call.1 rest (commitPattern sqrt p.1 call.1 p.2 (commit sqrt call.1 first (run sqrt before)))) := by
    simp only [run, commit, List.foldl_append, List.foldl_cons, hlist]
  rw [heq]
  obtain ⟨q, hq, hqf⟩ := points_foldl (fun c _ => hkeeps c.1) (inv_commit (inv_commitPattern hinv) rest) hcommit
  obtain ⟨r, hr, rfl⟩ := List.mem_map.1 hq
  exact ⟨r, hr, hqf⟩

/-- **What has been learned is found again**: `search` does not throw for a pattern with a value that is not zero, and
the label that it finds is that of a row within the threshold, with the greatest sum. -/
theorem search_run [IsStrictOrderedRing K] (hsqrt : ∀ x, 0 ≤ x → (sqrt x = 0 ↔ x = 0))
    {call : K × List (Engine K × List K)} (hcall : call ∈ history) {p : Engine K × List K} (hp : p ∈ call.2)
    (hne : ∃ x ∈ p.2, x ≠ 0) (hpos : 0 < threshold) (e : Engine K) :
    ∃ feature found, featureOf sqrt p.2 = some feature ∧
      search sqrt e threshold p.2 (run sqrt history) = some found ∧
      let rows := within (run sqrt history).rows feature threshold
      ∃ r ∈ rows, r.label = found.label ∧ ∀ s ∈ rows, prioritySum rows s.label ≤ prioritySum rows found.label := by
  have hsome : featureOf sqrt p.2 ≠ none := fun hnone => by
    obtain ⟨x, hx, hx'⟩ := hne
    exact hx' ((featureOf_eq_none_iff hsqrt).mp hnone x hx)
  obtain ⟨feature, hfeature⟩ := Option.ne_none_iff_exists'.mp hsome
  obtain ⟨r, hr, hrf⟩ := feature_mem_run hcall hp hfeature
  have hwithin : within (run sqrt history).rows feature threshold ≠ [] := by
    refine List.ne_nil_of_mem (List.mem_filter.2 ⟨hr, ?_⟩)
    rw [hrf, sub_self, abs_zero, decide_eq_true_eq]
    exact hpos
  obtain ⟨found, rest, hselect⟩ := List.exists_cons_of_ne_nil (mt (selectCluster_eq_nil (e := e)).1 hwithin)
  refine ⟨feature, found, hfeature, ?_, selectCluster_head hselect⟩
  rw [search, hfeature, Option.bind_some, hselect]
  rfl

theorem search_run_corners :
    ∃ feature found, featureOf Rat.sqrt [1, 1, 1, -1] = some feature ∧
      search Rat.sqrt inserting (1 / 10) [1, 1, 1, -1] (run Rat.sqrt [(1 / 10, corners)]) = some found ∧
      let rows := within (run Rat.sqrt [(1 / 10, corners)]).rows feature (1 / 10)
      ∃ r ∈ rows, r.label = found.label ∧ ∀ s ∈ rows, prioritySum rows s.label ≤ prioritySum rows found.label :=
  have hcall : ((1 / 10, corners) : ℚ × List (Engine ℚ × List ℚ)) ∈ [(1 / 10, corners)] := List.mem_cons_self
  search_run (fun _ => sqrt_eq_zero) hcall (p := (inserting, [1, 1, 1, -1]))
    (List.mem_cons_of_mem _ List.mem_cons_self) ⟨1, by simp, by decide⟩ (by norm_num) inserting

/-! ## Cosines -/

variable [IsStrictOrderedRing K]

/-- The inequality of Cauchy and Schwarz, for lists. -/
theorem sum_mul_sq_le (pairs : List (K × K)) :
    (pairs.map fun p => p.1 * p.2).sum ^ 2 ≤ (pairs.map fun p => p.1 ^ 2).sum * (pairs.map fun p => p.2 ^ 2).sum := by
  have hsum : ∀ f : K × K → K, (pairs.map f).sum = ∑ i : Fin pairs.length, f (pairs.get i) := fun f => by
    rw [← List.sum_ofFn, List.ofFn_comp' , List.ofFn_get]
  rw [hsum, hsum, hsum]
  exact Finset.sum_mul_sq_le_sq_mul_sq _ _ _

/-- **A feature is a cosine.** -/
theorem abs_cosSimilarity_le (hsqrt : ∀ x, 0 ≤ x → 0 ≤ sqrt x ∧ sqrt x ^ 2 = x) {vector1 vector2 : List K} {c : K}
    (h : cosSimilarity sqrt vector1 vector2 = some c) : |c| ≤ 1 := by
  set pairs := vector1.zip vector2 with hpairs
  have hnonneg : ∀ f : K × K → K, 0 ≤ (pairs.map fun p => f p ^ 2).sum := fun f =>
    List.sum_nonneg fun x hx => by
      obtain ⟨p, -, rfl⟩ := List.mem_map.1 hx
      exact sq_nonneg _
  obtain ⟨hpos1, hsq1⟩ := hsqrt _ (hnonneg Prod.fst)
  obtain ⟨hpos2, hsq2⟩ := hsqrt _ (hnonneg Prod.snd)
  unfold cosSimilarity quotient at h
  simp only at h
  split at h
  · cases h
  · rename_i hne
    cases h
    have hpos := lt_of_le_of_ne (mul_nonneg hpos1 hpos2) (Ne.symm hne)
    rw [abs_div, abs_of_pos hpos, div_le_one hpos]
    refine abs_le_of_sq_le_sq ?_ hpos.le
    rw [mul_pow, hsq1, hsq2]
    exact sum_mul_sq_le pairs

/-! ## How many clusters there are -/

/-- Features that are far from each other, one for each label. -/
def Founded (T : K) (pts : List (Int × K)) : Prop :=
  ∃ founders : Finset K, founders.card = (pts.map Prod.fst).toFinset.card ∧ (∀ f ∈ founders, ∃ p ∈ pts, p.2 = f) ∧
    ∀ f ∈ founders, ∀ g ∈ founders, f ≠ g → T ≤ |f - g|

theorem founded_add (hT : 0 < T) (hle : T ≤ threshold) {pts : List (Int × K)} {label : Int} (h : Founded T pts)
    (hcases : (∀ p ∈ pts, p.1 ≠ label ∧ threshold ≤ |p.2 - feature|) ∨
      ∃ p ∈ pts, p.1 = label ∧ |p.2 - feature| < threshold) : Founded T (pts ++ [(label, feature)]) := by
  obtain ⟨founders, hcard, hmem, hfar⟩ := h
  have hlabels : ((pts ++ [(label, feature)]).map Prod.fst).toFinset = insert label (pts.map Prod.fst).toFinset := by
    ext x
    simp
  unfold Founded
  rw [hlabels]
  rcases hcases with hnew | ⟨p, hp, hlabel, -⟩
  · -- a new cluster: its feature is one more founder
    have hdist : ∀ f ∈ founders, T ≤ |f - feature| := by
      intro f hf
      obtain ⟨p, hp, rfl⟩ := hmem f hf
      exact hle.trans (hnew p hp).2
    have hnotMem : feature ∉ founders := by
      intro hf
      have hzero := hdist feature hf
      rw [sub_self, abs_zero] at hzero
      exact absurd hT (not_lt.2 hzero)
    have hlabel : label ∉ (pts.map Prod.fst).toFinset := by
      rw [List.mem_toFinset]
      intro hlabel
      obtain ⟨p, hp, heq⟩ := List.mem_map.1 hlabel
      exact (hnew p hp).1 heq
    refine ⟨insert feature founders, ?_, fun f hf => ?_, fun f hf g hg hne => ?_⟩
    · rw [Finset.card_insert_of_notMem hnotMem, Finset.card_insert_of_notMem hlabel, hcard]
    · rcases Finset.mem_insert.1 hf with rfl | hf
      · exact ⟨_, List.mem_append_right _ List.mem_cons_self, rfl⟩
      · obtain ⟨p, hp, hpf⟩ := hmem f hf
        exact ⟨p, List.mem_append_left _ hp, hpf⟩
    · rcases Finset.mem_insert.1 hf with hf' | hf' <;> rcases Finset.mem_insert.1 hg with hg' | hg'
      · exact absurd (hf'.trans hg'.symm) hne
      · rw [hf', abs_sub_comm]
        exact hdist g hg'
      · rw [hg']
        exact hdist f hf'
      · exact hfar f hf' g hg' hne
  · have hlabel : label ∈ (pts.map Prod.fst).toFinset := by
      rw [List.mem_toFinset, ← hlabel]
      exact List.mem_map_of_mem hp
    rw [Finset.insert_eq_of_mem hlabel]
    refine ⟨founders, hcard, fun f hf => ?_, hfar⟩
    obtain ⟨q, hq, hqf⟩ := hmem f hf
    exact ⟨q, List.mem_append_left _ hq, hqf⟩

end Features

/-! ## Over the reals -/

/-- Groups as over the rationals, and the first row of a group. -/
noncomputable def inOrder : Engine ℝ where
  arrange := inserting.arrange
  arrange_perm := inserting.arrange_perm
  arrange_sorted := inserting.arrange_sorted
  bare group := group.head?.getD ⟨0, 0, 0, 0⟩
  bare_mem group hne := by
    obtain ⟨r, group, rfl⟩ := List.exists_cons_of_ne_nil hne
    exact List.mem_cons_self

end LeftFelt.Cluster.ClusterRepository
