import LeftFelt.Lib.Loop
import Mathlib.Data.List.FinRange
import Mathlib.Data.UInt
import Mathlib.Logic.Function.Basic

/-!
# The keyboard

`Key::Update` samples the keyboard and counts, for every key, the samples in a row in which it is pressed, and those in
which it is released. It counts up to 2, and the count is 1 in the first sample of a row.

Both counts of a new `Key` are 0, so that the first sample begins a row even if nothing has changed: a key that has never
been pressed is released in the first sample as if it had been pressed before (`edges_iff`).
-/

namespace LeftFelt.Gui

/-- What `GetKeyboardState` fills in. -/
abbrev Sample := Fin 256 → UInt8

/-- `class Key`, with its static members. -/
structure Key where
  keystate : Sample
  down : Fin 256 → Int8
  up : Fin 256 → Int8

namespace Key

/-! ## The class -/

/-- `Key()`. -/
def init : Key := ⟨fun _ => 0, fun _ => 0, fun _ => 0⟩

/-- `State(key)`. -/
def state (k : Key) (key : Fin 256) : Bool := if key = 0x00 ∨ key = 0xFF then false else (k.keystate key &&& 0x80) != 0

/-- `UpState(key)`. -/
def upState (k : Key) (key : Fin 256) : Bool := k.up key == 1

/-- `DownState(key)`. -/
def downState (k : Key) (key : Fin 256) : Bool := k.down key == 1

/-- How a count goes on. -/
def next (n : Int8) : Int8 := if n = 0 then 1 else if n = 1 then 2 else n

/-- The loop of `Update`, at one key. -/
def count (k : Key) (i : Fin 256) : Key :=
  if k.state i then
    { k with
      down := Function.update k.down i (next (k.down i))
      up := Function.update k.up i 0 }
  else
    { k with
      up := Function.update k.up i (next (k.up i))
      down := Function.update k.down i 0 }

/-- `Update()`, where the keyboard gives `sample`. -/
def update (k : Key) (sample : Sample) : Key := (List.finRange 256).foldl count { k with keystate := sample }

/-- A new `Key` after these samples. -/
def after (samples : List Sample) : Key := samples.foldl update init

/-! ## One update -/

variable {k : Key} {key i : Fin 256} {sample : Sample}

/-- The key is pressed in the sample. -/
def Pressed (sample : Sample) (key : Fin 256) : Prop := sample key &&& 0x80 ≠ 0

instance : Decidable (Pressed sample key) := inferInstanceAs (Decidable (_ ≠ _))

theorem state_iff (h0 : key ≠ 0x00) (hFF : key ≠ 0xFF) : k.state key = true ↔ Pressed k.keystate key := by
  rw [state, if_neg (not_or.2 ⟨h0, hFF⟩), bne_iff_ne, Pressed]

theorem keystate_count (k : Key) (i : Fin 256) : (k.count i).keystate = k.keystate := by
  unfold count
  split <;> rfl

theorem state_count (k : Key) (i : Fin 256) : (k.count i).state key = k.state key := by
  rw [state, state, keystate_count]

theorem down_count (k : Key) (i : Fin 256) :
    (k.count i).down key = if key = i then (if k.state key then next (k.down key) else 0) else k.down key := by
  by_cases hi : key = i
  · subst hi
    unfold count
    split <;> simp [*]
  · unfold count
    split <;> simp [hi]

theorem up_count (k : Key) (i : Fin 256) :
    (k.count i).up key = if key = i then (if k.state key then 0 else next (k.up key)) else k.up key := by
  by_cases hi : key = i
  · subst hi
    unfold count
    split <;> simp [*]
  · unfold count
    split <;> simp [hi]

/-- The loop counts once at every key of the list. -/
theorem foldl_count {l : List (Fin 256)} (hl : l.Nodup) (k : Key) (key : Fin 256) :
    (l.foldl count k).down key = (if key ∈ l then (if k.state key then next (k.down key) else 0) else k.down key) ∧
      (l.foldl count k).up key = if key ∈ l then (if k.state key then 0 else next (k.up key)) else k.up key := by
  induction l generalizing k with
  | nil => simp
  | cons i l ih =>
    rw [List.nodup_cons] at hl
    obtain ⟨hdown, hup⟩ := ih hl.2 (k.count i)
    rw [List.foldl_cons, hdown, hup, state_count, down_count, up_count]
    by_cases hi : key = i
    · subst hi
      simp [hl.1]
    · simp [hi]

/-- **What an update does to the counts of a key.** -/
theorem counts_update (h0 : key ≠ 0x00) (hFF : key ≠ 0xFF) (k : Key) (sample : Sample) :
    (k.update sample).down key = (if Pressed sample key then next (k.down key) else 0) ∧
      (k.update sample).up key = if Pressed sample key then 0 else next (k.up key) := by
  obtain ⟨hdown, hup⟩ := foldl_count (List.nodup_finRange 256) { k with keystate := sample } key
  rw [update, hdown, hup, if_pos (List.mem_finRange key), if_pos (List.mem_finRange key)]
  simp only [state_iff h0 hFF, and_self]

/-! ## Runs -/

theorem next_eq_one {n : Int8} : next n = 1 ↔ n = 0 := by
  unfold next
  split
  · simp [*]
  · split <;> simp [*]

theorem next_ne_zero (n : Int8) : next n ≠ 0 := by
  unfold next
  split
  · decide
  · split
    · decide
    · assumption

/-- The key is pressed in the last of the samples. Before the first sample all keys are released. -/
def WasPressed (samples : List Sample) (key : Fin 256) : Prop := ∃ last ∈ samples.getLast?, Pressed last key

/-- What the counts of a key say about the samples. -/
structure Counts (key : Fin 256) (samples : List Sample) (k : Key) : Prop where
  down : k.down key = 0 ↔ ¬WasPressed samples key
  up : k.up key = 0 ↔ WasPressed samples key ∨ samples = []

variable {samples pre : List Sample} {now : Sample}

theorem after_concat (samples : List Sample) (now : Sample) : after (samples ++ [now]) = (after samples).update now :=
  List.foldl_concat ..

theorem wasPressed_concat : WasPressed (pre ++ [now]) key ↔ Pressed now key := by
  simp [WasPressed]

theorem not_wasPressed_nil : ¬WasPressed [] key := by
  simp [WasPressed]

theorem counts_init : Counts key [] init where
  down := iff_of_true rfl not_wasPressed_nil
  up := iff_of_true rfl (.inr rfl)

/-- Every update keeps them. -/
theorem Counts.step (h0 : key ≠ 0x00) (hFF : key ≠ 0xFF) (k : Key) (pre : List Sample) (now : Sample) :
    Counts key (pre ++ [now]) (k.update now) := by
  obtain ⟨hdown, hup⟩ := counts_update h0 hFF k now
  constructor
  · rw [hdown, wasPressed_concat]
    by_cases hnow : Pressed now key <;> simp [hnow, next_ne_zero]
  · rw [hup, wasPressed_concat]
    by_cases hnow : Pressed now key <;> simp [hnow, next_ne_zero]

theorem counts_after (h0 : key ≠ 0x00) (hFF : key ≠ 0xFF) (samples : List Sample) :
    Counts key samples (after samples) :=
  Lib.foldl_scan (Counts key) counts_init fun pre now _ k _ _ => Counts.step h0 hFF k pre now

/-- `DownState` after an update. -/
theorem downState_after (h0 : key ≠ 0x00) (hFF : key ≠ 0xFF) :
    (after (pre ++ [now])).downState key = true ↔ Pressed now key ∧ ¬WasPressed pre key := by
  rw [after_concat, downState, beq_iff_eq, (counts_update h0 hFF _ now).1, ← (counts_after h0 hFF pre).down]
  by_cases hnow : Pressed now key <;> simp [hnow, next_eq_one]

/-- `UpState` after an update. -/
theorem upState_after (h0 : key ≠ 0x00) (hFF : key ≠ 0xFF) :
    (after (pre ++ [now])).upState key = true ↔ ¬Pressed now key ∧ (WasPressed pre key ∨ pre = []) := by
  rw [after_concat, upState, beq_iff_eq, (counts_update h0 hFF _ now).2, ← (counts_after h0 hFF pre).up]
  by_cases hnow : Pressed now key <;> simp [hnow, next_eq_one]

/-- **The edges are seen**: after every update of the run, `DownState` and `UpState` compare its sample with the one
before. -/
def EdgesSeen (key : Fin 256) (samples : List Sample) : Prop :=
  ∀ pre now, pre ++ [now] <+: samples →
    ((after (pre ++ [now])).downState key = true ↔ Pressed now key ∧ ¬WasPressed pre key) ∧
      ((after (pre ++ [now])).upState key = true ↔ ¬Pressed now key ∧ WasPressed pre key)

/-- **When the edges are seen**: the key is pressed in the first sample. -/
theorem edges_iff (h0 : key ≠ 0x00) (hFF : key ≠ 0xFF) (samples : List Sample) :
    EdgesSeen key samples ↔ ∀ first ∈ samples.head?, Pressed first key := by
  constructor
  · intro h first hfirst
    have hprefix : [] ++ [first] <+: samples := by
      obtain ⟨rest, rfl⟩ := List.head?_eq_some_iff.1 hfirst
      exact ⟨rest, rfl⟩
    obtain ⟨-, hup⟩ := h [] first hprefix
    by_contra hreleased
    -- the first sample counts as a release
    exact not_wasPressed_nil (hup.1 ((upState_after h0 hFF).2 ⟨hreleased, .inr rfl⟩)).2
  · intro h pre now hprefix
    refine ⟨downState_after h0 hFF, (upState_after h0 hFF).trans (and_congr_right fun hreleased => ?_)⟩
    refine or_iff_left fun hpre => hreleased (h now ?_)
    obtain ⟨rest, hrest⟩ := hprefix
    rw [← hrest, hpre]
    rfl

/-- No key is pressed. -/
def released : Sample := fun _ => 0

/-- One key is pressed. -/
def pressing (key : Fin 256) : Sample := Function.update released key 0x80

theorem edges_pressed : EdgesSeen 0x5A [pressing 0x5A, released] := by
  refine (edges_iff (by decide) (by decide) _).2 fun first hfirst => ?_
  obtain rfl : pressing 0x5A = first := Option.some.inj hfirst
  decide

/-- A key that has never been pressed is released by the first update. -/
theorem not_edges_released :
    ¬∀ (key : Fin 256) (samples : List Sample), key ≠ 0x00 → key ≠ 0xFF → EdgesSeen key samples := by
  intro h
  obtain ⟨-, hup⟩ := h 0x5A [released] (by decide) (by decide) [] released (List.prefix_refl _)
  have hreleased : ¬Pressed released 0x5A := by decide
  exact not_wasPressed_nil (hup.1 ((upState_after (by decide) (by decide)).2 ⟨hreleased, .inr rfl⟩)).2

end Key

end LeftFelt.Gui
