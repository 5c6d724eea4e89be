import Mathlib.Logic.Function.Basic
import Mathlib.Data.List.Induction
import Mathlib.Data.List.Nodup
import Mathlib.Data.List.Perm.Basic

/-!
# Read, modify, write

Jobs share a value. Each one reads it, modifies what it has read, and writes that back, in three steps, and the steps of
different jobs come in any order. If the jobs run one after the other, all of them modify the value (`run_serial`). If
a job makes the value larger by one at most, the value can grow by the number of the jobs only if they run one after
the other (`serial_of_size`): a job that others overlap with takes back what they have written.
-/

namespace LeftFelt.Lib.ReadModifyWrite

variable {ι V : Type*}

/-- How far a job is, and what it has in memory. -/
inductive Phase (V : Type*) where
  | idle
  | read (v : V)
  | modified (v : V)
  | written

/-- The value, and how far each job is. -/
structure Shared (ι V : Type*) where
  value : V
  phase : ι → Phase V

/-- No job has begun. -/
def start (v : V) : Shared ι V := ⟨v, fun _ => .idle⟩

/-- The jobs one after the other, with their three steps each. -/
def serial (order : List ι) : List ι := order.flatMap fun i => [i, i, i]

theorem length_serial (order : List ι) : (serial order).length = 3 * order.length := by
  simp [serial, Nat.mul_comm]

variable [DecidableEq ι] (modify : ι → V → V)

/-- The next step of a job. -/
def step (s : Shared ι V) (i : ι) : Shared ι V :=
  match s.phase i with
  | .idle => { s with phase := Function.update s.phase i (.read s.value) }
  | .read v => { s with phase := Function.update s.phase i (.modified (modify i v)) }
  | .modified v => ⟨v, Function.update s.phase i .written⟩
  | .written => s

/-- The steps in some order. -/
def run (s : Shared ι V) (steps : List ι) : Shared ι V := steps.foldl (step modify) s

variable {modify} {s : Shared ι V} {i j : ι} {steps : List ι}

theorem run_append (s : Shared ι V) (steps steps' : List ι) :
    run modify s (steps ++ steps') = run modify (run modify s steps) steps' := List.foldl_append ..

theorem step_of_idle (h : s.phase i = .idle) :
    step modify s i = { s with phase := Function.update s.phase i (.read s.value) } := by simp only [step, h]

theorem step_of_read {v : V} (h : s.phase i = .read v) :
    step modify s i = { s with phase := Function.update s.phase i (.modified (modify i v)) } := by simp only [step, h]

theorem step_of_modified {v : V} (h : s.phase i = .modified v) :
    step modify s i = ⟨v, Function.update s.phase i .written⟩ := by simp only [step, h]

theorem step_of_written (h : s.phase i = .written) : step modify s i = s := by simp only [step, h]

/-- A step changes the phase of its own job only. -/
theorem phase_step_of_ne (h : j ≠ i) : (step modify s i).phase j = s.phase j := by
  cases hi : s.phase i with
  | idle => simp only [step_of_idle hi, Function.update_of_ne h]
  | read v => simp only [step_of_read hi, Function.update_of_ne h]
  | modified v => simp only [step_of_modified hi, Function.update_of_ne h]
  | written => rw [step_of_written hi]

theorem phase_run_of_not_mem (h : j ∉ steps) : (run modify s steps).phase j = s.phase j := by
  induction steps generalizing s with
  | nil => rfl
  | cons i steps ih =>
    rw [List.mem_cons, not_or] at h
    rw [run, List.foldl_cons, ← run, ih h.2, phase_step_of_ne h.1]

/-- The three steps of a job, with steps of other jobs between them: it writes what it has read, modified. -/
theorem value_run_between {A B C : List ι} (hidle : s.phase i = .idle) (hA : i ∉ A) (hB : i ∉ B) (hC : i ∉ C) :
    (run modify s (A ++ i :: (B ++ i :: (C ++ [i])))).value = modify i (run modify s A).value := by
  have hread : (step modify (run modify s A) i).phase i = .read (run modify s A).value := by
    simp only [step_of_idle ((phase_run_of_not_mem hA).trans hidle), Function.update_self]
  have hmodified : (run modify (step modify (run modify s A) i) B).phase i = .read (run modify s A).value :=
    (phase_run_of_not_mem hB).trans hread
  have hphase : (step modify (run modify (step modify (run modify s A) i) B) i).phase i =
      .modified (modify i (run modify s A).value) := by
    simp only [step_of_read hmodified, Function.update_self]
  have hwrite : (run modify (step modify (run modify (step modify (run modify s A) i) B) i) C).phase i =
      .modified (modify i (run modify s A).value) := (phase_run_of_not_mem hC).trans hphase
  simp only [run, List.foldl_append, List.foldl_cons, List.foldl_nil] at hwrite ⊢
  rw [step_of_modified hwrite]

/-! ## One after the other -/

/-- **Jobs one after the other all modify the value.** -/
theorem run_serial {order : List ι} (hnodup : order.Nodup) (hidle : ∀ i ∈ order, s.phase i = .idle) :
    (run modify s (serial order)).value = order.foldl (fun v i => modify i v) s.value := by
  induction order generalizing s with
  | nil => rfl
  | cons i order ih =>
    rw [List.nodup_cons] at hnodup
    rw [List.forall_mem_cons] at hidle
    have hvalue : (run modify s [i, i, i]).value = modify i s.value :=
      value_run_between (A := []) (B := []) (C := []) hidle.1 List.not_mem_nil List.not_mem_nil List.not_mem_nil
    have hcons : serial (i :: order) = [i, i, i] ++ serial order := rfl
    rw [hcons, run_append, ih hnodup.2, hvalue, List.foldl_cons]
    intro j hj
    have hne : j ∉ [i, i, i] := by simpa using ne_of_mem_of_not_mem hj hnodup.1
    rw [phase_run_of_not_mem hne, hidle.2 j hj]

/-! ## Overlapping -/

variable {size : V → Nat}

/-- What a job has in memory is not larger than the value can get with the step that writes it. -/
def Phase.Within (size : V → Nat) (bound : Nat) : Phase V → Prop
  | idle | written => True
  | read u => 3 * size u + 1 ≤ bound
  | modified u => 3 * size u ≤ bound + 1

theorem Phase.Within.succ {bound : Nat} {phase : Phase V} (h : phase.Within size bound) :
    phase.Within size (bound + 1) := by
  cases phase with
  | idle => trivial
  | read u => exact Nat.le_succ_of_le h
  | modified u => exact Nat.le_succ_of_le h
  | written => trivial

/-- The value gets larger by one in three steps at most. -/
structure Slow (size : V → Nat) (bound : Nat) (s : Shared ι V) : Prop where
  value : 3 * size s.value ≤ bound
  phase : ∀ i, (s.phase i).Within size bound

theorem Slow.step {bound : Nat} (hsize : ∀ i v, size (modify i v) ≤ size v + 1) (hs : Slow size bound s) (i : ι) :
    Slow size (bound + 1) (step modify s i) := by
  have hothers : ∀ {phase : Phase V}, phase.Within size (bound + 1) →
      ∀ j, (Function.update s.phase i phase j).Within size (bound + 1) := fun {phase} h =>
    (Function.forall_update_iff s.phase fun _ p => p.Within size (bound + 1)).mpr ⟨h, fun j _ => (hs.phase j).succ⟩
  have hvalue := hs.value
  have hphase := hs.phase i
  cases hi : s.phase i with
  | idle =>
    rw [step_of_idle hi]
    exact ⟨Nat.le_succ_of_le hvalue, hothers (Nat.succ_le_succ hvalue)⟩
  | read u =>
    rw [hi] at hphase
    rw [step_of_read hi]
    refine ⟨Nat.le_succ_of_le hvalue, hothers ?_⟩
    have hmodify := hsize i u
    simp only [Phase.Within] at hphase ⊢
    omega
  | modified u =>
    rw [hi] at hphase
    rw [step_of_modified hi]
    exact ⟨hphase, hothers trivial⟩
  | written =>
    rw [step_of_written hi]
    exact ⟨Nat.le_succ_of_le hvalue, fun j => (hs.phase j).succ⟩

theorem slow_run (hsize : ∀ i v, size (modify i v) ≤ size v + 1) (v : V) (steps : List ι) :
    Slow size (3 * size v + steps.length) (run modify (start v) steps) := by
  induction steps using List.reverseRecOn with
  | nil => exact ⟨Nat.le_refl _, fun _ => trivial⟩
  | append_singleton steps i ih =>
    rw [run_append, List.length_append]
    exact ih.step hsize i

theorem count_serial (order : List ι) : (serial order).count i = 3 * order.count i := by
  induction order with
  | nil => rfl
  | cons j order ih =>
    rw [serial, List.flatMap_cons, List.count_append, ← serial, ih, List.count_cons]
    by_cases h : j = i <;> simp [h]
    omega

/-- The steps of a job, and the steps between them, if the last step of all is its last one. -/
theorem exists_between {jobs : List ι} (hnodup : jobs.Nodup) (hi : i ∈ jobs)
    (hsteps : (steps ++ [i]).Perm (serial jobs)) :
    ∃ A B C, steps = A ++ i :: (B ++ i :: C) ∧ i ∉ A ∧ i ∉ B ∧ i ∉ C := by
  have hcount := hsteps.count_eq i
  rw [count_serial, List.count_eq_one_of_mem hnodup hi, List.count_append, List.count_singleton_self] at hcount
  obtain ⟨A, R, rfl, hA⟩ := List.eq_append_cons_of_mem (List.count_pos_iff.mp (show 0 < steps.count i by omega))
  rw [List.count_append, List.count_eq_zero_of_not_mem hA, List.count_cons_self] at hcount
  obtain ⟨B, C, rfl, hB⟩ := List.eq_append_cons_of_mem (List.count_pos_iff.mp (show 0 < R.count i by omega))
  rw [List.count_append, List.count_eq_zero_of_not_mem hB, List.count_cons_self] at hcount
  exact ⟨A, B, C, rfl, hA, hB, List.count_eq_zero.mp (by omega)⟩

/-- **What has grown by one for each job has been modified by one job after the other.** -/
theorem serial_of_size (hsize : ∀ i v, size (modify i v) ≤ size v + 1) {v : V} {jobs : List ι} (hnodup : jobs.Nodup)
    (hsteps : steps.Perm (serial jobs)) (hgrown : size v + jobs.length ≤ size (run modify (start v) steps).value) :
    ∃ order, order.Perm jobs ∧ steps = serial order := by
  induction hn : jobs.length generalizing jobs steps with
  | zero =>
    obtain rfl := List.eq_nil_of_length_eq_zero hn
    exact ⟨[], .nil, List.perm_nil.mp hsteps⟩
  | succ n ih =>
    have hlength := hsteps.length_eq
    rw [length_serial, hn] at hlength
    rcases List.eq_nil_or_concat' steps with rfl | ⟨steps, i, rfl⟩
    · simp at hlength
    have hi : i ∈ jobs := by
      have hmem := hsteps.mem_iff.mp (List.mem_concat_self)
      simpa [serial] using hmem
    obtain ⟨A, B, C, rfl, hA, hB, hC⟩ := exists_between hnodup hi hsteps
    -- the last job writes what there was before it had begun: all other jobs had written by then
    have hlast : (run modify (start v) (A ++ i :: (B ++ i :: C) ++ [i])).value =
        modify i (run modify (start v) A).value := by
      have hbetween : (run modify (start v) (A ++ i :: (B ++ i :: (C ++ [i])))).value =
          modify i (run modify (start v) A).value := value_run_between rfl hA hB hC
      simpa using hbetween
    have hslow := (slow_run hsize v A).value
    have hmodify := hsize i (run modify (start v) A).value
    rw [hlast, hn] at hgrown
    simp only [List.length_append, List.length_cons, List.length_nil] at hlength
    obtain rfl : B = [] := List.eq_nil_of_length_eq_zero (by omega)
    obtain rfl : C = [] := List.eq_nil_of_length_eq_zero (by omega)
    have herase : (jobs.erase i).length = n := by rw [List.length_erase_of_mem hi, hn, Nat.add_sub_cancel]
    have hothers : A.Perm (serial (jobs.erase i)) := by
      have hjobs : (serial jobs).Perm ([i, i, i] ++ serial (jobs.erase i)) := (List.perm_cons_erase hi).flatMap_right _
      have hfirst : ([i, i, i] ++ A).Perm (serial jobs) := List.perm_append_comm.trans (by simpa using hsteps)
      exact (List.perm_append_left_iff [i, i, i]).mp (hfirst.trans hjobs)
    obtain ⟨order, horder, rfl⟩ := ih (hnodup.erase i) hothers (by omega) herase
    refine ⟨order ++ [i], ?_, by simp [serial]⟩
    exact List.perm_append_comm.trans ((horder.cons i).trans (List.perm_cons_erase hi).symm)

end LeftFelt.Lib.ReadModifyWrite
