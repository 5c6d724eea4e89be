import LeftFelt.Lib.Lone
import LeftFelt.Lib.Records

/-!
# Handing patterns over

`PatternRepository` is a queue of numbers. `push` adds the values of a vector one after the other, and `pull` takes as
many values as a pattern has, one after the other; but it stops when the queue is empty for a moment, and returns the
rest of the pattern as it was in memory. Calls of several threads may interleave at every single value.

If no two pushes and no two pulls mix their values, and no pull finds the queue empty, the patterns are handed over
whole and in order (`handedOver_run`).
-/

namespace LeftFelt.Cluster

open Lib Records

variable {ι κ V : Type}

/-! ## The repository -/

/-- A call of `push`, with the number of values that it has added. -/
structure Push (V : Type) where
  data_list : List V
  index : Nat

/-- The values that a push still has to add, once it has begun. -/
def Push.held : Option (Push V) → List V
  | some ⟨data_list, index + 1⟩ => data_list.drop (index + 1)
  | _ => []

/-- A call of `pull`: its pattern, the number of values that it has, and whether it has found the queue not empty. -/
structure Pull (V : Type) where
  pattern : List V
  index : Nat
  popping : Bool

/-- The values that a pull has. -/
def Pull.held : Option (Pull V) → List V
  | some p => p.pattern.take p.index
  | none => []

/-- The queue, the calls of every thread, the vectors whose push has begun and the patterns that have been returned. -/
structure PatternRepository (ι κ V : Type) where
  repository : List V
  pushers : ι → Option (Push V)
  pullers : κ → Option (Pull V)
  pushed : List (List V)
  pulled : List (List V)

/-- The steps: a call, or what a call does next. A pattern is built with the values that are in memory. -/
inductive Step (ι κ V : Type) where
  | push (i : ι) (data_list : List V)
  | pushNext (i : ι)
  | pull (k : κ) (memory : List V)
  | check (k : κ)
  | pop (k : κ)

namespace PatternRepository

/-- Nothing has been pushed. -/
def initial : PatternRepository ι κ V := ⟨[], fun _ => none, fun _ => none, [], []⟩

section Steps

variable [DecidableEq ι] [DecidableEq κ] (dimension_num : Nat)

/-- One step. -/
def step (s : PatternRepository ι κ V) : Step ι κ V → PatternRepository ι κ V
  | .push i data_list =>
    match s.pushers i with
    | some _ => s
    | none => { s with pushers := Function.update s.pushers i (some ⟨data_list, 0⟩) }
  | .pushNext i =>
    match s.pushers i with
    | none => s
    | some p =>
      match p.data_list[p.index]? with
      | none => { s with pushers := Function.update s.pushers i none }
      | some data =>
        { s with
          repository := s.repository ++ [data]
          pushers := Function.update s.pushers i (some ⟨p.data_list, p.index + 1⟩)
          pushed := if p.index = 0 then s.pushed ++ [p.data_list] else s.pushed }
  | .pull k memory =>
    match s.pullers k with
    | some _ => s
    | none => { s with pullers := Function.update s.pullers k (some ⟨memory, 0, false⟩) }
  | .check k =>
    match s.pullers k with
    | some ⟨pattern, index, false⟩ =>
      if s.repository ≠ [] ∧ index < dimension_num then
        { s with pullers := Function.update s.pullers k (some ⟨pattern, index, true⟩) }
      else { s with pullers := Function.update s.pullers k none, pulled := s.pulled ++ [pattern] }
    | _ => s
  | .pop k =>
    match s.pullers k, s.repository with
    | some ⟨pattern, index, true⟩, data :: repository =>
      { s with
        repository := repository
        pullers := Function.update s.pullers k (some ⟨pattern.set index data, index + 1, false⟩) }
    | some ⟨pattern, index, true⟩, [] =>
      { s with pullers := Function.update s.pullers k (some ⟨pattern, index + 1, false⟩) }
    | _, _ => s

/-- The steps one after the other. -/
def run (history : List (Step ι κ V)) (s : PatternRepository ι κ V) : PatternRepository ι κ V :=
  history.foldl (step dimension_num) s

end Steps

/-! ## What is asked of a run -/

section Runs

variable (dimension_num : Nat)

/-- Every vector has the size of a pattern. -/
def Sized (history : List (Step ι κ V)) : Prop :=
  (∀ i data_list, .push i data_list ∈ history → data_list.length = dimension_num) ∧
  ∀ k memory, .pull k memory ∈ history → memory.length = dimension_num

/-- **The patterns are handed over**: they are the first vectors that have been pushed, and when no call is on its way
the queue has exactly the others. -/
def HandedOver (s : PatternRepository ι κ V) : Prop :=
  s.pulled <+: s.pushed ∧
  ((∀ i, Push.held (s.pushers i) = []) → (∀ k, Pull.held (s.pullers k) = []) →
    s.repository = (s.pushed.drop s.pulled.length).flatten)

/-- A step that does not mix patterns: no other push is between its values, no other pull has values, and a pull that
wants values finds some. -/
def Careful (s : PatternRepository ι κ V) : Step ι κ V → Prop
  | .push _ _ | .pull _ _ => True
  | .pushNext i => ∀ p, s.pushers i = some p → p.index < p.data_list.length → ∀ j ≠ i, Push.held (s.pushers j) = []
  | .check k => ∀ p, s.pullers k = some p → p.popping = false → p.index < dimension_num → s.repository ≠ []
  | .pop k => ∀ p, s.pullers k = some p → p.popping = true →
    s.repository ≠ [] ∧ ∀ j ≠ k, Pull.held (s.pullers j) = []

/-- A run of such steps. -/
def CarefulRun [DecidableEq ι] [DecidableEq κ] : PatternRepository ι κ V → List (Step ι κ V) → Prop
  | _, [] => True
  | s, op :: history => Careful dimension_num s op ∧ CarefulRun (step dimension_num s op) history

end Runs

/-! ## What every step keeps -/

/-- What is in the queue stands between what a pull has taken and what a push still has to add. -/
structure Inv (dimension_num : Nat) (s : PatternRepository ι κ V) (taken rest : List V) : Prop where
  pushing : Lone (Push.held ∘ s.pushers) rest
  pulling : Lone (Pull.held ∘ s.pullers) taken
  data_list_length : ∀ i p, s.pushers i = some p → p.data_list.length = dimension_num
  pushed_length : ∀ v ∈ s.pushed, v.length = dimension_num
  pulled_length : ∀ v ∈ s.pulled, v.length = dimension_num
  pattern_length : ∀ k p, s.pullers k = some p → p.pattern.length = dimension_num
  index_le : ∀ k p, s.pullers k = some p → p.index + (if p.popping then 1 else 0) ≤ dimension_num
  values : s.pushed.flatten = s.pulled.flatten ++ (taken ++ (s.repository ++ rest))

theorem inv_initial (dimension_num : Nat) : Inv dimension_num (initial : PatternRepository ι κ V) [] [] where
  pushing := Lone.of_empty fun _ => rfl
  pulling := Lone.of_empty fun _ => rfl
  data_list_length _ _ h := by cases h
  pushed_length _ h := by cases h
  pulled_length _ h := by cases h
  pattern_length _ _ h := by cases h
  index_le _ _ h := by cases h
  values := rfl

variable {dimension_num : Nat} {s : PatternRepository ι κ V} {taken rest : List V}

/-- What the threads of an updated table satisfy. -/
theorem forall_update [DecidableEq ι] {T : Type} {threads : ι → Option T} {P : T → Prop}
    (h : ∀ i p, threads i = some p → P p) (i : ι) {t : Option T} (ht : ∀ p, t = some p → P p) (j : ι) (p : T)
    (hp : Function.update threads i t j = some p) : P p := by
  by_cases hj : j = i
  · rw [hj, Function.update_self] at hp
    exact ht p hp
  · rw [Function.update_of_ne hj] at hp
    exact h j p hp

section Push

variable [DecidableEq ι] (hs : Inv dimension_num s taken rest) {i : ι}
include hs

/-- A push begins. -/
theorem inv_push {data_list : List V} (hi : s.pushers i = none) (hlength : data_list.length = dimension_num) :
    Inv dimension_num { s with pushers := Function.update s.pushers i (some ⟨data_list, 0⟩) } taken rest := by
  have hheld : Push.held (s.pushers i) = [] := congrArg Push.held hi
  exact { hs with
    pushing := hs.pushing.update_same hheld
    data_list_length := forall_update hs.data_list_length i fun p hp => Option.some.inj hp ▸ hlength }

/-- A push returns. -/
theorem inv_return {p : Push V} (hi : s.pushers i = some p) (hend : p.data_list[p.index]? = none) :
    Inv dimension_num { s with pushers := Function.update s.pushers i none } taken rest := by
  have hheld : Push.held (some p) = [] := by
    obtain ⟨data_list, index⟩ := p
    cases index with
    | zero => rfl
    | succ index => exact List.drop_eq_nil_of_le (List.getElem?_eq_none_iff.mp hend)
  exact { hs with
    pushing := hs.pushing.update_same ((congrArg Push.held hi).trans hheld)
    data_list_length := forall_update hs.data_list_length i fun p hp => by cases hp }

/-- **A push adds a value.** -/
theorem inv_pushNext {p : Push V} {data : V} (hi : s.pushers i = some p) (hdata : p.data_list[p.index]? = some data)
    (hfree : ∀ j ≠ i, Push.held (s.pushers j) = []) :
    Inv dimension_num
      { s with
        repository := s.repository ++ [data]
        pushers := Function.update s.pushers i (some ⟨p.data_list, p.index + 1⟩)
        pushed := if p.index = 0 then s.pushed ++ [p.data_list] else s.pushed }
      taken (p.data_list.drop (p.index + 1)) := by
  have hlength := hs.data_list_length i p hi
  have hrest : Push.held (some p) = rest := hi ▸ hs.pushing.eq_of_free hfree
  obtain ⟨data_list, index⟩ := p
  have hdrop : data_list.drop index = data :: data_list.drop (index + 1) := by
    obtain ⟨hlt, rfl⟩ := List.getElem?_eq_some_iff.mp hdata
    exact List.drop_eq_getElem_cons hlt
  exact { hs with
    pushing := Lone.update hfree _
    data_list_length := forall_update hs.data_list_length i fun p hp => Option.some.inj hp ▸ hlength
    pushed_length := by
      intro v hv
      by_cases hzero : index = 0
      · rw [if_pos hzero, List.mem_append, List.mem_singleton] at hv
        obtain hv | rfl := hv
        · exact hs.pushed_length v hv
        · exact hlength
      · rw [if_neg hzero] at hv
        exact hs.pushed_length v hv
    values := by
      cases index with
      | zero =>
        have hempty : rest = [] := hrest.symm
        have hvalues := hs.values
        rw [hempty, List.append_nil] at hvalues
        rw [if_pos rfl, List.flatten_append, List.flatten_singleton, hvalues]
        have hall : data_list = data :: data_list.drop 1 := hdrop
        simpa using hall
      | succ index =>
        have hheld : data_list.drop (index + 1) = rest := hrest
        rw [if_neg (Nat.succ_ne_zero index), hs.values, ← hheld, hdrop]
        simp }

end Push

section Pull

variable [DecidableEq κ] (hs : Inv dimension_num s taken rest) {k : κ}
include hs

/-- A pull begins. -/
theorem inv_pull {memory : List V} (hk : s.pullers k = none) (hlength : memory.length = dimension_num) :
    Inv dimension_num { s with pullers := Function.update s.pullers k (some ⟨memory, 0, false⟩) } taken rest := by
  have hheld : Pull.held (s.pullers k) = [] := congrArg Pull.held hk
  exact { hs with
    pulling := hs.pulling.update_same hheld
    pattern_length := forall_update hs.pattern_length k fun p hp => Option.some.inj hp ▸ hlength
    index_le := forall_update hs.index_le k fun p hp => Option.some.inj hp ▸ Nat.zero_le _ }

/-- A pull finds the queue not empty. -/
theorem inv_check {pattern : List V} {index : Nat} (hk : s.pullers k = some ⟨pattern, index, false⟩)
    (hlt : index < dimension_num) :
    Inv dimension_num { s with pullers := Function.update s.pullers k (some ⟨pattern, index, true⟩) } taken rest := by
  have hheld : Pull.held (s.pullers k) = pattern.take index := congrArg Pull.held hk
  have hlength := hs.pattern_length k _ hk
  exact { hs with
    pulling := hs.pulling.update_same hheld
    pattern_length := forall_update hs.pattern_length k fun p hp => Option.some.inj hp ▸ hlength
    index_le := forall_update hs.index_le k fun p hp => Option.some.inj hp ▸ hlt }

/-- **A pull returns** a whole pattern. -/
theorem inv_pulled (hpos : 0 < dimension_num) {pattern : List V}
    (hk : s.pullers k = some ⟨pattern, dimension_num, false⟩) :
    Inv dimension_num
      { s with pullers := Function.update s.pullers k none, pulled := s.pulled ++ [pattern] } [] rest := by
  have hlength : pattern.length = dimension_num := hs.pattern_length k _ hk
  have hheld : (Pull.held ∘ s.pullers) k = pattern :=
    (congrArg Pull.held hk).trans (List.take_of_length_le (Nat.le_of_eq hlength))
  have hne : (Pull.held ∘ s.pullers) k ≠ [] := by
    rw [hheld]
    rintro rfl
    exact Nat.ne_of_lt hpos hlength
  have hfree : ∀ j ≠ k, Pull.held (s.pullers j) = [] := hs.pulling.free_of_ne_nil hne
  have htaken : pattern = taken := hheld.symm.trans (hs.pulling.eq_of_free hfree)
  exact { hs with
    pulling := Lone.update hfree _
    pattern_length := forall_update hs.pattern_length k fun p hp => by cases hp
    index_le := forall_update hs.index_le k fun p hp => by cases hp
    pulled_length := by
      intro v hv
      rw [List.mem_append, List.mem_singleton] at hv
      obtain hv | rfl := hv
      · exact hs.pulled_length v hv
      · exact hlength
    values := by
      rw [hs.values, htaken]
      simp }

/-- **A pull takes a value.** -/
theorem inv_pop {pattern : List V} {index : Nat} (hk : s.pullers k = some ⟨pattern, index, true⟩) {data : V}
    {repository : List V} (hrepository : s.repository = data :: repository)
    (hfree : ∀ j ≠ k, Pull.held (s.pullers j) = []) :
    Inv dimension_num
      { s with
        repository := repository
        pullers := Function.update s.pullers k (some ⟨pattern.set index data, index + 1, false⟩) }
      (pattern.take index ++ [data]) rest := by
  have htaken : pattern.take index = taken := (congrArg Pull.held hk).symm.trans (hs.pulling.eq_of_free hfree)
  have hlength : pattern.length = dimension_num := hs.pattern_length k _ hk
  have hle : index + 1 ≤ dimension_num := hs.index_le k _ hk
  have htake : (pattern.set index data).take (index + 1) = pattern.take index ++ [data] := by
    have hlt : index < (pattern.set index data).length := by
      rw [List.length_set, hlength]
      exact hle
    rw [List.take_succ_eq_append_getElem hlt, List.getElem_set_self, List.take_set_of_le (Nat.le_refl index)]
  exact { hs with
    pulling := by
      rw [← htake]
      exact Lone.update hfree _
    pattern_length := forall_update hs.pattern_length k fun p hp => by
      rw [← Option.some.inj hp]
      exact (List.length_set ..).trans hlength
    index_le := forall_update hs.index_le k fun p hp => Option.some.inj hp ▸ hle
    values := by
      rw [hs.values, hrepository, htaken]
      simp }

end Pull

theorem sized_mono {history history' : List (Step ι κ V)} (h : history' ⊆ history)
    (hsize : Sized dimension_num history) : Sized dimension_num history' :=
  ⟨fun i data_list hmem => hsize.1 i data_list (h hmem), fun k memory hmem => hsize.2 k memory (h hmem)⟩

/-- What the invariant says of the patterns. -/
theorem Inv.handedOver (hpos : 0 < dimension_num) (hs : Inv dimension_num s taken rest) : HandedOver s := by
  have hfront : s.pulled.flatten <+: s.pushed.flatten := ⟨_, hs.values.symm⟩
  have hpulled := prefix_of_flatten hpos hs.pulled_length hs.pushed_length hfront
  refine ⟨hpulled, fun hpushers hpullers => ?_⟩
  have htaken : taken = [] := hs.pulling.held_eq_nil hpullers
  have hrest : rest = [] := hs.pushing.held_eq_nil hpushers
  obtain ⟨others, hothers⟩ := hpulled
  have hvalues := hs.values
  rw [htaken, hrest, List.nil_append, List.append_nil, ← hothers, List.flatten_append] at hvalues
  rw [← hothers, List.drop_left, List.append_cancel_left hvalues]

section Run

variable [DecidableEq ι] [DecidableEq κ]

/-- **Every careful step keeps the invariant.** -/
theorem inv_step (hpos : 0 < dimension_num) (hs : Inv dimension_num s taken rest) {op : Step ι κ V}
    (hsize : Sized dimension_num [op])
    (hcareful : Careful dimension_num s op) :
    ∃ taken rest, Inv dimension_num (step dimension_num s op) taken rest := by
  cases op with
  | push i data_list =>
    cases hi : s.pushers i with
    | some p => exact ⟨taken, rest, by simpa only [step, hi] using hs⟩
    | none =>
      have hpush := inv_push hs hi (hsize.1 i data_list List.mem_cons_self)
      exact ⟨taken, rest, by simpa only [step, hi] using hpush⟩
  | pushNext i =>
    cases hi : s.pushers i with
    | none => exact ⟨taken, rest, by simpa only [step, hi] using hs⟩
    | some p =>
      cases hdata : p.data_list[p.index]? with
      | none => exact ⟨taken, rest, by simpa only [step, hi, hdata] using inv_return hs hi hdata⟩
      | some data =>
        obtain ⟨hlt, -⟩ := List.getElem?_eq_some_iff.mp hdata
        have hnext := inv_pushNext hs hi hdata (hcareful p hi hlt)
        exact ⟨taken, _, by simpa only [step, hi, hdata] using hnext⟩
  | pull k memory =>
    cases hk : s.pullers k with
    | some p => exact ⟨taken, rest, by simpa only [step, hk] using hs⟩
    | none =>
      exact ⟨taken, rest, by simpa only [step, hk] using inv_pull hs hk (hsize.2 k memory List.mem_cons_self)⟩
  | check k =>
    cases hk : s.pullers k with
    | none => exact ⟨taken, rest, by simpa only [step, hk] using hs⟩
    | some p =>
      obtain ⟨pattern, index, popping⟩ := p
      cases popping with
      | true => exact ⟨taken, rest, by simpa only [step, hk] using hs⟩
      | false =>
        by_cases hlt : index < dimension_num
        · have hfound : s.repository ≠ [] ∧ index < dimension_num := ⟨hcareful _ hk rfl hlt, hlt⟩
          exact ⟨taken, rest, by simpa only [step, hk, if_pos hfound] using inv_check hs hk hlt⟩
        · -- the pattern is whole
          obtain rfl : index = dimension_num := Nat.le_antisymm (hs.index_le k _ hk) (Nat.le_of_not_lt hlt)
          have hend : ¬(s.repository ≠ [] ∧ index < index) := fun h => hlt h.2
          exact ⟨[], rest, by simpa only [step, hk, if_neg hend] using inv_pulled hs hpos hk⟩
  | pop k =>
    cases hk : s.pullers k with
    | none => exact ⟨taken, rest, by simpa only [step, hk] using hs⟩
    | some p =>
      obtain ⟨pattern, index, popping⟩ := p
      cases popping with
      | false => exact ⟨taken, rest, by simpa only [step, hk] using hs⟩
      | true =>
        obtain ⟨hne, hfree⟩ := hcareful _ hk rfl
        obtain ⟨data, repository, hrepository⟩ := List.exists_cons_of_ne_nil hne
        exact ⟨_, rest, by simpa only [step, hk, hrepository] using inv_pop hs hk hrepository hfree⟩

theorem inv_run (hpos : 0 < dimension_num) {history : List (Step ι κ V)} (hs : Inv dimension_num s taken rest)
    (hsize : Sized dimension_num history) (hcareful : CarefulRun dimension_num s history) :
    ∃ taken rest, Inv dimension_num (run dimension_num history s) taken rest := by
  induction history generalizing s taken rest with
  | nil => exact ⟨taken, rest, hs⟩
  | cons op history ih =>
    obtain ⟨taken', rest', hs'⟩ := inv_step hpos hs (sized_mono (by simp) hsize) hcareful.1
    exact ih hs' (sized_mono (List.subset_cons_self op history) hsize) hcareful.2

/-- **Patterns are handed over** in every run of careful steps. -/
theorem handedOver_run (hpos : 0 < dimension_num) {history : List (Step ι κ V)} (hsize : Sized dimension_num history)
    (hcareful : CarefulRun dimension_num initial history) : HandedOver (run dimension_num history initial) := by
  obtain ⟨taken, rest, hinv⟩ := inv_run hpos (inv_initial dimension_num) hsize hcareful
  exact hinv.handedOver hpos

/-- A vector of two values that is pulled while it is pushed. -/
def overlapping : List (Step Unit Unit Int) :=
  [.push () [3, 4], .pull () [0, 0], .pushNext (), .check (), .pop (), .pushNext (), .pushNext (), .check (), .pop (),
    .check ()]

theorem handedOver_overlapping : HandedOver (run 2 overlapping initial) := by
  refine handedOver_run (by decide) ⟨?_, ?_⟩ ?_
  · intro i data_list hmem
    simp only [overlapping, List.mem_cons, Step.push.injEq, reduceCtorEq, or_false, List.not_mem_nil] at hmem
    rw [hmem.2]
    rfl
  · intro k memory hmem
    simp only [overlapping, List.mem_cons, Step.pull.injEq, reduceCtorEq, or_false, false_or, List.not_mem_nil] at hmem
    rw [hmem.2]
    rfl
  · simp [overlapping, CarefulRun, Careful, step, initial, Function.update]

/-- A pull before the first push returns a pattern that nobody has pushed. -/
theorem not_handedOver_empty :
    ¬∀ (dimension_num : Nat) (history : List (Step Unit Unit Int)), 0 < dimension_num → Sized dimension_num history →
      HandedOver (run dimension_num history initial) := by
  intro h
  have hsize : Sized 1 ([.pull () [7], .check ()] : List (Step Unit Unit Int)) := by
    constructor
    · intro i data_list hmem
      simp at hmem
    · intro k memory hmem
      simp only [List.mem_cons, Step.pull.injEq, reduceCtorEq, or_false, List.not_mem_nil] at hmem
      rw [hmem.2]
      rfl
  exact absurd (h 1 _ (by decide) hsize).1 (by decide)

end Run

end PatternRepository

end LeftFelt.Cluster
