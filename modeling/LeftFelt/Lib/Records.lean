import Mathlib.Data.List.Basic

/-!
# Records of one size

A buffer holds records of one size, one behind the other, and a loop reads it at every multiple of that size. If a
record is read right wherever it stands, the loop reads a buffer of records record by record (`scan_flatMap`). Where a
number of records is asked for, those that are cut off are not read (`readCells`).
-/

namespace LeftFelt.Lib.Records

variable {α β γ : Type*}

/-- What a loop over a buffer reads: a last record that is cut off counts as one. -/
def scan (size : Nat) (read : List β → Nat → List γ) (data : List β) : List γ :=
  (List.range ((data.length + (size - 1)) / size)).flatMap fun i => read data (i * size)

variable {size : Nat} {encode : α → List β} {read : List β → Nat → List γ} {out : α → List γ}

theorem length_flatMap_encode (hsize : ∀ a, (encode a).length = size) (as : List α) :
    (as.flatMap encode).length = as.length * size := by
  induction as with
  | nil => simp
  | cons a as ih => rw [List.flatMap_cons, List.length_append, hsize, ih, List.length_cons, Nat.succ_mul, Nat.add_comm]

/-- The records behind the first ones are read. -/
theorem flatMap_range_read (hsize : ∀ a, (encode a).length = size)
    (hread : ∀ a front back, read (front ++ (encode a ++ back)) front.length = out a) (front : List β) (as : List α) :
    ((List.range as.length).flatMap fun i => read (front ++ as.flatMap encode) (front.length + i * size)) =
      as.flatMap out := by
  induction as generalizing front with
  | nil => rfl
  | cons a as ih =>
    have hrest := ih (front ++ encode a)
    rw [List.length_append, hsize] at hrest
    rw [List.length_cons, List.range_succ_eq_map, List.flatMap_cons, List.flatMap_cons, List.flatMap_cons, Nat.zero_mul,
      Nat.add_zero, hread, ← hrest, List.flatMap_map]
    simp only [Nat.succ_eq_add_one, Nat.succ_mul, List.append_assoc, Nat.add_assoc, Nat.add_comm size]

/-- **A buffer of records is read record by record.** -/
theorem scan_flatMap (hpos : 0 < size) (hsize : ∀ a, (encode a).length = size)
    (hread : ∀ a front back, read (front ++ (encode a ++ back)) front.length = out a) (as : List α) :
    scan size read (as.flatMap encode) = as.flatMap out := by
  have hcount : (as.length * size + (size - 1)) / size = as.length := by
    rw [Nat.mul_comm, Nat.mul_add_div hpos, Nat.div_eq_of_lt (by omega), Nat.add_zero]
  have hrange := flatMap_range_read hsize hread [] as
  simp only [List.nil_append, List.length_nil, Nat.zero_add] at hrange
  rw [scan, length_flatMap_encode hsize, hcount, hrange]

/-- What `n` records are read as: the ones that are cut off are not read. -/
def readCells (size : Nat) (decode : List β → α) : Nat → List β → List (Option α)
  | 0, _ => []
  | n + 1, data =>
    (if size ≤ data.length then some (decode (data.take size)) else none) :: readCells size decode n (data.drop size)

@[simp] theorem length_readCells (size : Nat) (decode : List β → α) (n : Nat) (data : List β) :
    (readCells size decode n data).length = n := by
  induction n generalizing data with
  | zero => rfl
  | succ n ih => rw [readCells, List.length_cons, ih]

/-- **As many records as there are** are read back. -/
theorem readCells_flatMap {decode : List β → α} (hsize : ∀ a, (encode a).length = size)
    (hdecode : ∀ a, decode (encode a) = a) (as : List α) (rest : List β) :
    readCells size decode as.length (as.flatMap encode ++ rest) = as.map some := by
  induction as with
  | nil => rfl
  | cons a as ih =>
    have hle : size ≤ ((a :: as).flatMap encode ++ rest).length := by simp [hsize]
    rw [List.length_cons, readCells, if_pos hle, List.flatMap_cons, List.append_assoc, List.take_left' (hsize a),
      List.drop_left' (hsize a), ih, hdecode, List.map_cons]

/-- A list that is taken part by part. -/
theorem flatMap_range_take {l : List α} {n width : Nat} (h : l.length = n * width) :
    ((List.range n).flatMap fun i => (l.drop (i * width)).take width) = l := by
  induction n generalizing l with
  | zero => simpa using (List.eq_nil_of_length_eq_zero (h.trans (Nat.zero_mul _))).symm
  | succ n ih =>
    rw [Nat.succ_mul] at h
    have hrest := ih (l := l.drop width) (by rw [List.length_drop]; omega)
    rw [List.range_succ_eq_map, List.flatMap_cons, Nat.zero_mul, List.drop_zero, List.flatMap_map]
    simp only [List.drop_drop] at hrest
    simp only [Nat.succ_eq_add_one, Nat.succ_mul, Nat.add_comm _ width, hrest]
    exact List.take_append_drop width l

/-- **Lists of one size are told by their values**: if the values of some are the first ones of others, so are they. -/
theorem prefix_of_flatten {vs ws : List (List α)} (hpos : 0 < size) (hvs : ∀ v ∈ vs, v.length = size)
    (hws : ∀ w ∈ ws, w.length = size) (h : vs.flatten <+: ws.flatten) : vs <+: ws := by
  induction vs generalizing ws with
  | nil => exact List.nil_prefix
  | cons v vs ih =>
    rw [List.forall_mem_cons] at hvs
    cases ws with
    | nil =>
      have hlength := h.length_le
      rw [List.flatten_cons, List.length_append, hvs.1, List.flatten_nil, List.length_nil] at hlength
      omega
    | cons w ws =>
      rw [List.forall_mem_cons] at hws
      obtain ⟨t, ht⟩ := h
      rw [List.flatten_cons, List.flatten_cons, List.append_assoc] at ht
      obtain ⟨rfl, hrest⟩ := List.append_inj ht (hvs.1.trans hws.1.symm)
      exact List.cons_prefix_cons.mpr ⟨rfl, ih hvs.2 hws.2 ⟨t, hrest⟩⟩

end LeftFelt.Lib.Records
