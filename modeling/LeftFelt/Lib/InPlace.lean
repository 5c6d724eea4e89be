import LeftFelt.Lib.Checked

/-!
# Loops that change a table in place

A loop that replaces one entry of a table after the other, and computes each new entry from the table as it is by then,
may fail at any of them. It gives given new entries if and only if each of them comes out of a table in which the
earlier ones are new already and the others old (`foldlM_iff`). If the new entry is computed from the old one only,
nothing depends on the order (`foldlM_pointwise`).
-/

namespace LeftFelt.Lib.InPlace

variable {σ P A : Type*} [DecidableEq P]

/-- Entries are written and read back, as long as the state is good and the places are those of the table. -/
structure Table (Good : σ → Prop) (Place : P → Prop) (read : σ → P → A) (write : σ → P → A → σ) : Prop where
  good : ∀ t p a, Good t → Place p → Good (write t p a)
  read : ∀ t p q a, Good t → Place p → Place q → read (write t p a) q = if q = p then a else read t q

variable {Good : σ → Prop} {Place : P → Prop} {read : σ → P → A} {write : σ → P → A → σ} {f : σ → P → Option A}
  {s t : σ} {l : List P}

/-- Other entries stay. -/
theorem foldlM_frame (htable : Table Good Place read write) (hs : Good s) (hl : ∀ p ∈ l, Place p)
    (hrun : l.foldlM (fun t p => (f t p).map (write t p)) s = some t) :
    Good t ∧ ∀ q, Place q → q ∉ l → read t q = read s q := by
  induction l generalizing s with
  | nil =>
    obtain rfl := Option.some.inj hrun
    exact ⟨hs, fun q _ _ => rfl⟩
  | cons p l ih =>
    rw [List.foldlM_cons, Option.bind_eq_bind, Option.bind_eq_some_iff] at hrun
    obtain ⟨u, hu, hrest⟩ := hrun
    obtain ⟨a, -, rfl⟩ := Option.map_eq_some_iff.1 hu
    have hp := hl p List.mem_cons_self
    obtain ⟨hgood, hframe⟩ := ih (htable.good s p a hs hp) (fun q hq => hl q (List.mem_cons_of_mem _ hq)) hrest
    refine ⟨hgood, fun q hq hne => ?_⟩
    rw [List.mem_cons, not_or] at hne
    rw [hframe q hq hne.2, htable.read s p q a hs hp hq, if_neg hne.1]

/-- What is written is something that the loop computes. -/
theorem foldlM_written (htable : Table Good Place read write) (hs : Good s) (hl : ∀ p ∈ l, Place p)
    (hrun : l.foldlM (fun t p => (f t p).map (write t p)) s = some t) {Q : P → A → Prop}
    (hQ : ∀ t p a, Place p → f t p = some a → Q p a) : ∀ p ∈ l, Q p (read t p) := by
  induction l generalizing s with
  | nil => simp
  | cons p l ih =>
    rw [List.foldlM_cons, Option.bind_eq_bind, Option.bind_eq_some_iff] at hrun
    obtain ⟨u, hu, hrest⟩ := hrun
    obtain ⟨a, ha, rfl⟩ := Option.map_eq_some_iff.1 hu
    have hp := hl p List.mem_cons_self
    have hl' : ∀ q ∈ l, Place q := fun q hq => hl q (List.mem_cons_of_mem _ hq)
    have hu := htable.good s p a hs hp
    intro q hq
    by_cases hql : q ∈ l
    · exact ih hu hl' hrest q hql
    · obtain rfl : q = p := (List.mem_cons.1 hq).resolve_right hql
      obtain ⟨-, hframe⟩ := foldlM_frame htable hu hl' hrest
      rw [hframe q hp hql, htable.read s q q a hs hp hp, if_pos rfl]
      exact hQ s q a hp ha

/-- **What a loop in place gives**: `F` computes the new entry from the table. -/
theorem foldlM_iff {F : (P → A) → P → Option A} {g : P → A} (htable : Table Good Place read write) (hs : Good s)
    (hl : ∀ p ∈ l, Place p) (hnodup : l.Nodup) (hf : ∀ t p, Good t → Place p → f t p = F (read t) p)
    (hF : ∀ a b p, Place p → (∀ q, Place q → a q = b q) → F a p = F b p) :
    (∃ t, l.foldlM (fun t p => (f t p).map (write t p)) s = some t ∧ ∀ p ∈ l, read t p = g p) ↔
      ∀ pre p post, l = pre ++ p :: post → F (fun q => if q ∈ pre then g q else read s q) p = some (g p) := by
  constructor
  · rintro ⟨t, hrun, hnew⟩ pre p post rfl
    rw [List.foldlM_append, Option.bind_eq_bind, Option.bind_eq_some_iff] at hrun
    obtain ⟨u, hpre, hrun⟩ := hrun
    rw [List.foldlM_cons, Option.bind_eq_bind, Option.bind_eq_some_iff] at hrun
    obtain ⟨v, hv, hpost⟩ := hrun
    obtain ⟨a, ha, rfl⟩ := Option.map_eq_some_iff.1 hv
    have hp := hl p (by simp)
    rw [List.nodup_append, List.nodup_cons] at hnodup
    obtain ⟨-, ⟨hp', -⟩, hdisjoint⟩ := hnodup
    obtain ⟨hu, hold⟩ := foldlM_frame htable hs (fun q hq => hl q (by simp [hq])) hpre
    obtain ⟨-, hkept⟩ := foldlM_frame htable (htable.good u p a hu hp) (fun q hq => hl q (by simp [hq])) hpost
    -- what is written is not written again
    have hval : a = g p := by
      rw [← hnew p (by simp), hkept p hp hp', htable.read u p p a hu hp hp, if_pos rfl]
    have hmix : ∀ q, Place q → read u q = if q ∈ pre then g q else read s q := fun q hq => by
      by_cases hqpre : q ∈ pre
      · have hne : q ≠ p := hdisjoint q hqpre p List.mem_cons_self
        have hqpost : q ∉ post := fun h => hdisjoint q hqpre q (List.mem_cons_of_mem _ h) rfl
        rw [if_pos hqpre, ← hnew q (by simp [hqpre]), hkept q hq hqpost, htable.read u p q a hu hp hq, if_neg hne]
      · rw [if_neg hqpre, hold q hq hqpre]
    rw [← hF _ _ p hp hmix, ← hf u p hu hp, ha, hval]
  · intro hall
    obtain ⟨t, hrun, -, hread⟩ := Checked.foldlM_eq_some (f := fun t p => (f t p).map (write t p)) (l := l) (s := s)
      (fun pre t => Good t ∧ ∀ q, Place q → read t q = if q ∈ pre then g q else read s q)
      ⟨hs, fun q _ => by simp⟩ (by
        rintro pre p post t hpre ⟨ht, hread⟩
        have hp := hl p (by simp [hpre])
        have hnew : f t p = some (g p) := by rw [hf t p ht hp, hF _ _ p hp hread, hall pre p post hpre]
        refine ⟨write t p (g p), by rw [hnew, Option.map_some], htable.good t p _ ht hp, fun q hq => ?_⟩
        rw [htable.read t p q _ ht hp hq]
        by_cases hqp : q = p
        · simp [hqp]
        · simp [hqp, hread q hq])
    exact ⟨t, hrun, fun p hp => by rw [hread p (hl p hp), if_pos hp]⟩

/-- **A loop that looks at nothing but the entry it replaces.** -/
theorem foldlM_pointwise {F : A → P → Option A} {g : P → A} (htable : Table Good Place read write) (hs : Good s)
    (hl : ∀ p ∈ l, Place p) (hnodup : l.Nodup) (hf : ∀ t p, Good t → Place p → f t p = F (read t p) p) :
    (∃ t, l.foldlM (fun t p => (f t p).map (write t p)) s = some t ∧ ∀ p ∈ l, read t p = g p) ↔
      ∀ p ∈ l, F (read s p) p = some (g p) := by
  rw [foldlM_iff (F := fun a p => F (a p) p) htable hs hl hnodup hf fun a b p hp hab => by rw [hab p hp]]
  have hnew : ∀ pre p post, l = pre ++ p :: post → p ∉ pre := fun pre p post hpre h => by
    rw [hpre, List.nodup_append] at hnodup
    exact hnodup.2.2 p h p List.mem_cons_self rfl
  constructor
  · intro h p hp
    obtain ⟨pre, post, hpre⟩ := List.mem_iff_append.1 hp
    simpa only [if_neg (hnew pre p post hpre)] using h pre p post hpre
  · intro h pre p post hpre
    simpa only [if_neg (hnew pre p post hpre)] using h p (by simp [hpre])

/-- What comes before an entry of a raster. -/
theorem mem_pre_iff {x0 x1 y0 y1 : Nat} {p q : Nat × Nat} {pre post : List (Nat × Nat)}
    (h : raster x0 x1 y0 y1 = pre ++ p :: post) (hq : q ∈ raster x0 x1 y0 y1) : q ∈ pre ↔ RasterLt q p := by
  have hsorted := raster_pairwise x0 x1 y0 y1
  rw [h, List.pairwise_append, List.pairwise_cons] at hsorted
  obtain ⟨-, ⟨hafter, -⟩, hbefore⟩ := hsorted
  refine ⟨fun hpre => hbefore q hpre p List.mem_cons_self, fun hlt => ?_⟩
  rw [h, List.mem_append, List.mem_cons] at hq
  rcases hq with hq | rfl | hq
  · exact hq
  · exact absurd hlt (RasterLt.irrefl q)
  · exact absurd (hlt.trans (hafter q hq)) (RasterLt.irrefl q)

end LeftFelt.Lib.InPlace
