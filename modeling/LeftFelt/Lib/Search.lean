import Mathlib.Data.Set.Lattice
import Mathlib.Logic.Relation

/-!
# Searches

Workers take tasks from a common pool, find further tasks in each of them and hand these in. A task that has been taken
owes what is found in it, until somebody hands it in. Nothing remembers which tasks have been taken: a task may be
handed in and taken again.

`Sound` says that only what can be found from the seeds gets into the pool, and `Covers` that nothing that has been
found gets lost. Both are kept by every step (`Step.sound`, `Step.covers`), whatever the workers do in between, so that
a search which has come to rest has taken exactly the tasks that can be found (`taken_eq_found`).
-/

namespace LeftFelt.Lib.Search

variable {α : Type*} {next : α → α → Prop} {lossy : Prop}

/-- The tasks that are found from the seeds, one in the other. -/
def Found (next : α → α → Prop) (seeds : Set α) : Set α := {a | ∃ s ∈ seeds, Relation.ReflTransGen next s a}

section Found

variable {seeds : Set α} {a b : α}

theorem found_of_seed (h : a ∈ seeds) : a ∈ Found next seeds := ⟨a, h, .refl⟩

theorem found_of_next (h : a ∈ Found next seeds) (hb : next a b) : b ∈ Found next seeds := by
  obtain ⟨s, hs, hpath⟩ := h
  exact ⟨s, hs, hpath.tail hb⟩

/-- More seeds, more tasks. -/
theorem found_mono {seeds' : Set α} (h : seeds ⊆ seeds') : Found next seeds ⊆ Found next seeds' :=
  fun _ ⟨s, hs, hpath⟩ => ⟨s, h hs, hpath⟩

/-- A set that holds the seeds and is closed holds what is found. -/
theorem found_subset {A : Set α} (hseeds : seeds ⊆ A) (hnext : ∀ a ∈ A, ∀ b, next a b → b ∈ A) :
    Found next seeds ⊆ A := by
  rintro a ⟨s, hs, hpath⟩
  induction hpath with
  | refl => exact hseeds hs
  | tail _ hb ih => exact hnext _ ih _ hb

end Found

/-- A search: its seeds so far, the tasks that wait in the pool, those that are owed to it, and those that have been
taken. -/
@[ext]
structure State (α : Type*) where
  seeds : Set α
  waiting : Set α
  owed : Set α
  taken : Set α

/-- The tasks that the search has not lost. -/
def State.known (s : State α) : Set α := s.waiting ∪ s.owed ∪ s.taken

/-- Nothing waits and nothing is owed. -/
def State.AtRest (s : State α) : Prop := s.waiting = ∅ ∧ s.owed = ∅

/-- One step of a search. A `lossy` one drops tasks that nobody has taken. -/
inductive Step (next : α → α → Prop) (lossy : Prop) : State α → State α → Prop
  /-- A seed is put into the pool. -/
  | seed (s : State α) (a : α) :
      Step next lossy s { s with seeds := insert a s.seeds, waiting := insert a s.waiting }
  /-- A task that is owed is handed in. Somebody else may owe it as well. -/
  | handIn (s : State α) {a : α} {owed : Set α} (ha : a ∈ s.owed) (hsub : owed ⊆ s.owed)
      (hrest : s.owed ⊆ insert a owed) :
      Step next lossy s { s with waiting := insert a s.waiting, owed := owed }
  /-- A task is taken from the pool. -/
  | take (s : State α) {a : α} (ha : a ∈ s.waiting) :
      Step next lossy s
        { s with waiting := s.waiting \ {a}, owed := s.owed ∪ {b | next a b}, taken := insert a s.taken }
  /-- Tasks disappear from the pool. -/
  | drop (s : State α) {A : Set α} (h : A ⊆ s.taken ∨ lossy) :
      Step next lossy s { s with waiting := s.waiting \ A }

/-- Only what can be found gets into the search. -/
def Sound (next : α → α → Prop) (s : State α) : Prop := s.known ⊆ Found next s.seeds

/-- The seeds, and what is found in the tasks that have been taken, are not lost. -/
structure Covers (next : α → α → Prop) (s : State α) : Prop where
  seeds : s.seeds ⊆ s.known
  next : ∀ a ∈ s.taken, ∀ b, next a b → b ∈ s.known

variable {s t : State α}

/-- **Every step keeps the search sound.** -/
theorem Step.sound (h : Step next lossy s t) (hs : Sound next s) : Sound next t := by
  cases h with
  | seed a =>
    have hmono : Found next s.seeds ⊆ Found next (insert a s.seeds) := found_mono (Set.subset_insert a s.seeds)
    rintro b ((hb | hb) | hb)
    · obtain rfl | hb := hb
      · exact found_of_seed (Set.mem_insert b s.seeds)
      · exact hmono (hs (.inl (.inl hb)))
    · exact hmono (hs (.inl (.inr hb)))
    · exact hmono (hs (.inr hb))
  | handIn ha hsub hrest =>
    rintro b ((hb | hb) | hb)
    · obtain rfl | hb := hb
      · exact hs (.inl (.inr ha))
      · exact hs (.inl (.inl hb))
    · exact hs (.inl (.inr (hsub hb)))
    · exact hs (.inr hb)
  | take ha =>
    rintro b ((hb | hb | hb) | hb)
    · exact hs (.inl (.inl hb.1))
    · exact hs (.inl (.inr hb))
    · exact found_of_next (hs (.inl (.inl ha))) hb
    · obtain rfl | hb := hb
      · exact hs (.inl (.inl ha))
      · exact hs (.inr hb)
  | drop h =>
    rintro b ((hb | hb) | hb)
    · exact hs (.inl (.inl hb.1))
    · exact hs (.inl (.inr hb))
    · exact hs (.inr hb)

/-- No step that is not lossy loses a task. -/
theorem Step.known_subset (h : Step next lossy s t) (hkeep : ¬lossy) : s.known ⊆ t.known := by
  cases h with
  | seed a => exact Set.union_subset_union_left _ (Set.union_subset_union_left _ (Set.subset_insert a _))
  | handIn ha hsub hrest =>
    rintro b ((hb | hb) | hb)
    · exact .inl (.inl (.inr hb))
    · obtain rfl | hb := hrest hb
      · exact .inl (.inl (.inl rfl))
      · exact .inl (.inr hb)
    · exact .inr hb
  | @take a ha =>
    rintro b ((hb | hb) | hb)
    · by_cases hab : b = a
      · exact .inr (.inl hab)
      · exact .inl (.inl ⟨hb, hab⟩)
    · exact .inl (.inr (.inl hb))
    · exact .inr (.inr hb)
  | @drop A h =>
    rintro b ((hb | hb) | hb)
    · by_cases hab : b ∈ A
      · exact .inr (h.resolve_right hkeep hab)
      · exact .inl (.inl ⟨hb, hab⟩)
    · exact .inl (.inr hb)
    · exact .inr hb

/-- **A step that is not lossy keeps the search covered.** -/
theorem Step.covers (h : Step next lossy s t) (hkeep : ¬lossy) (hs : Covers next s) : Covers next t := by
  have hknown := h.known_subset hkeep
  cases h with
  | seed a => exact ⟨Set.insert_subset (.inl (.inl (.inl rfl))) (hs.seeds.trans hknown),
      fun a ha b hb => hknown (hs.next a ha b hb)⟩
  | handIn _ _ _ => exact ⟨hs.seeds.trans hknown, fun a ha b hb => hknown (hs.next a ha b hb)⟩
  | take _ =>
    refine ⟨hs.seeds.trans hknown, fun a ha b hb => ?_⟩
    obtain rfl | ha := ha
    · exact .inl (.inr (.inr hb))
    · exact hknown (hs.next a ha b hb)
  | drop _ => exact ⟨hs.seeds.trans hknown, fun a ha b hb => hknown (hs.next a ha b hb)⟩

/-- **A search at rest has taken exactly what can be found.** -/
theorem taken_eq_found (hsound : Sound next s) (hcovers : Covers next s) (hrest : s.AtRest) :
    s.taken = Found next s.seeds := by
  have hknown : s.known = s.taken := by
    rw [State.known, hrest.1, hrest.2, Set.union_self, Set.empty_union]
  refine Set.Subset.antisymm (hknown ▸ hsound) (found_subset (hknown ▸ hcovers.seeds) fun a ha b hb => ?_)
  exact hknown ▸ hcovers.next a ha b hb

/-- The search that has not begun. -/
def State.start : State α := ⟨∅, ∅, ∅, ∅⟩

theorem sound_start : Sound next (State.start : State α) := by
  rintro a ((h | h) | h) <;> exact h.elim

theorem covers_start : Covers next (State.start : State α) := ⟨fun _ h => h.elim, fun _ h => h.elim⟩

/-! ## Workers

What a search is owed is what its workers owe, each according to the state that it is in. -/

section Workers

variable {ι β : Type*} [DecidableEq ι] {owes : β → Set α} {worker : ι → β} {i : ι} {state : β} {a : α}

/-- The tasks that one of the workers owes. -/
def owedBy (owes : β → Set α) (worker : ι → β) : Set α := {a | ∃ i, a ∈ owes (worker i)}

omit [DecidableEq ι] in
/-- Workers that owe nothing. -/
theorem owedBy_eq_empty {owes : β → Set α} {worker : ι → β} (h : ∀ i, owes (worker i) = ∅) : owedBy owes worker = ∅ :=
  Set.eq_empty_of_forall_notMem fun _ ⟨i, ha⟩ => (h i ▸ ha : _ ∈ (∅ : Set α))

theorem owedBy_update_subset (h : owes state ⊆ owes (worker i)) :
    owedBy owes (Function.update worker i state) ⊆ owedBy owes worker := by
  rintro a ⟨j, ha⟩
  by_cases hj : j = i
  · rw [hj, Function.update_self] at ha
    exact ⟨i, h ha⟩
  · rw [Function.update_of_ne hj] at ha
    exact ⟨j, ha⟩

theorem owedBy_subset_update {A : Set α} (h : owes (worker i) ⊆ owes state ∪ A) :
    owedBy owes worker ⊆ owedBy owes (Function.update worker i state) ∪ A := by
  rintro a ⟨j, ha⟩
  by_cases hj : j = i
  · obtain ha | ha := h (hj ▸ ha)
    · exact .inl ⟨i, by rwa [Function.update_self]⟩
    · exact .inr ha
  · exact .inl ⟨j, by rwa [Function.update_of_ne hj]⟩

/-- A worker that goes on without a change in what it owes. -/
theorem owedBy_update_eq (h : owes state = owes (worker i)) :
    owedBy owes (Function.update worker i state) = owedBy owes worker := by
  refine Set.Subset.antisymm (owedBy_update_subset h.le) fun a ha => ?_
  exact (owedBy_subset_update (A := ∅) (h.ge.trans Set.subset_union_left) ha).resolve_right id

/-- A worker that has owed nothing. -/
theorem owedBy_update_idle (h : owes (worker i) = ∅) :
    owedBy owes (Function.update worker i state) = owedBy owes worker ∪ owes state := by
  refine Set.Subset.antisymm ?_ (Set.union_subset (fun a ha => ?_) fun a ha => ⟨i, by rwa [Function.update_self]⟩)
  · rintro a ⟨j, ha⟩
    by_cases hj : j = i
    · rw [hj, Function.update_self] at ha
      exact .inr ha
    · rw [Function.update_of_ne hj] at ha
      exact .inl ⟨j, ha⟩
  · have hsub : owes (worker i) ⊆ owes state ∪ ∅ := by rw [h]; exact Set.empty_subset _
    exact (owedBy_subset_update hsub ha).resolve_right id

/-- A worker that hands one task in. -/
theorem owedBy_update_insert (h : owes (worker i) = insert a (owes state)) :
    a ∈ owedBy owes worker ∧ owedBy owes (Function.update worker i state) ⊆ owedBy owes worker ∧
      owedBy owes worker ⊆ insert a (owedBy owes (Function.update worker i state)) := by
  refine ⟨⟨i, h ▸ Set.mem_insert a _⟩, owedBy_update_subset (h ▸ Set.subset_insert a _), fun b hb => ?_⟩
  have hsub : owes (worker i) ⊆ owes state ∪ {a} := by rw [h, Set.union_singleton]
  rcases owedBy_subset_update hsub hb with hb | hb
  · exact .inr hb
  · exact .inl hb

end Workers

end LeftFelt.Lib.Search
