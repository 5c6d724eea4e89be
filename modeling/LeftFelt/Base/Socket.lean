import LeftFelt.Base.Str
import LeftFelt.Lib.Pieces

/-!
# Receiving from a socket

`Socket::Recv` clears a buffer of `size` bytes, lets `recv` fill it and appends it to the data as a C string, until the
connection is closed. So of a chunk only what stands in front of its first NUL is appended, and the string does not end
inside of the buffer if the chunk fills it and has no NUL (`recvLoop_chunks`, `recvLoop_past`). Everything is received
exactly if no chunk has a NUL or fills the buffer (`recv_complete_iff`).
-/

namespace LeftFelt.Socket

open Lib.Pieces Str

/-! ## The buffer -/

/-- The bytes that one call of `recv` delivers. -/
structure Chunk (size : Nat) where
  bytes : Str
  nonempty : bytes ≠ []
  length_le : bytes.length ≤ size

/-- `recv_data`, after `memset` and `recv`. -/
def received (size : Nat) (bytes : Str) : Str := bytes ++ List.replicate (size - bytes.length) nul

/-! ## The loop -/

/-- What a call of `recv` gives: some bytes, 0 since the connection has been closed, or `SOCKET_ERROR`. -/
inductive Response (size : Nat) where
  | bytes (chunk : Chunk size)
  | closed
  | error

/-- How `Recv` ends: it returns, throws `"recieve error\n"`, reads past its buffer, or waits for ever. -/
inductive Ending where
  | returns
  | recieveError
  | pastBuffer
  | waits
  deriving DecidableEq

/-- What is in `data` when `Recv` ends. -/
structure Reception where
  data : Str
  ending : Ending
  deriving DecidableEq

/-- The loop of `Recv`. -/
def recvLoop (size : Nat) (recv_all_flag : Bool) : List (Response size) → Str → Reception
  | [], data => ⟨data, .waits⟩
  | .error :: _, data => ⟨data, .recieveError⟩
  | .closed :: _, data =>
    match cString (received size []) with
    | none => ⟨data, .pastBuffer⟩
    | some recv_data => ⟨data ++ recv_data, .returns⟩
  | .bytes chunk :: responses, data =>
    match cString (received size chunk.bytes) with
    | none => ⟨data, .pastBuffer⟩
    | some recv_data =>
      if recv_all_flag then recvLoop size recv_all_flag responses (data ++ recv_data)
      else ⟨data ++ recv_data, .returns⟩

/-- `Recv(data, size, recv_all_flag)`, where the responses are those of `recv`. -/
def recv (size : Nat) (recv_all_flag : Bool) (responses : List (Response size)) : Reception :=
  recvLoop size recv_all_flag responses []

/-! ## One chunk -/

/-- What stands in front of the first NUL. -/
def text (bytes : Str) : Str := bytes.takeWhile (· ≠ nul)

theorem length_text_le (bytes : Str) : (text bytes).length ≤ bytes.length := (List.takeWhile_sublist _).length_le

/-- The string ends inside of the buffer: there is room behind the chunk, or the chunk has a NUL. -/
def Ends (size : Nat) (bytes : Str) : Prop := bytes.length < size ∨ nul ∈ bytes

instance (size : Nat) (bytes : Str) : Decidable (Ends size bytes) := inferInstanceAs (Decidable (_ ∨ _))

/-- **A chunk is appended up to its first NUL.** -/
theorem cString_received (size : Nat) (bytes : Str) :
    cString (received size bytes) = if Ends size bytes then some (text bytes) else none := by
  have hmem : nul ∈ received size bytes ↔ Ends size bytes := by
    rw [received, List.mem_append, List.mem_replicate, Ends, or_comm]
    refine or_congr_left ⟨fun h => ?_, fun h => ⟨?_, rfl⟩⟩ <;> omega
  have htake : (received size bytes).takeWhile (· ≠ nul) = text bytes := by
    have hnone : (List.replicate (size - bytes.length) nul).takeWhile (· ≠ nul) = [] := by
      cases size - bytes.length <;> rfl
    rw [received, List.takeWhile_append, hnone, List.append_nil]
    split_ifs with hlength
    · exact ((List.takeWhile_prefix _).eq_of_length hlength).symm
    · rfl
  simp only [cString, hmem, htake]

/-! ## All chunks -/

variable {size : Nat}

/-- The responses when the chunks are delivered and the connection is closed. -/
def delivered (chunks : List (Chunk size)) : List (Response size) := chunks.map .bytes ++ [.closed]

theorem recvLoop_chunks (hsize : 0 < size) {chunks : List (Chunk size)} (hends : ∀ c ∈ chunks, Ends size c.bytes)
    (data : Str) :
    recvLoop size true (delivered chunks) data = ⟨data ++ chunks.flatMap fun c => text c.bytes, .returns⟩ := by
  induction chunks generalizing data with
  | nil =>
    have hempty : Ends size [] := Or.inl hsize
    rw [delivered, List.map_nil, List.nil_append, recvLoop, cString_received, if_pos hempty]
    rfl
  | cons c chunks ih =>
    rw [List.forall_mem_cons] at hends
    rw [delivered, List.map_cons, List.cons_append, recvLoop, cString_received, if_pos hends.1, List.flatMap_cons,
      ← List.append_assoc]
    exact ih hends.2 _

/-- A string that does not end inside of the buffer is read past it. -/
theorem recvLoop_past {chunks : List (Chunk size)} (hends : ¬(0 < size ∧ ∀ c ∈ chunks, Ends size c.bytes))
    (data : Str) : (recvLoop size true (delivered chunks) data).ending = .pastBuffer := by
  induction chunks generalizing data with
  | nil =>
    have hempty : ¬Ends size [] := fun h => hends ⟨h.resolve_right List.not_mem_nil, fun c hc => by cases hc⟩
    rw [delivered, List.map_nil, List.nil_append, recvLoop, cString_received, if_neg hempty]
  | cons c chunks ih =>
    rw [delivered, List.map_cons, List.cons_append, recvLoop, cString_received]
    by_cases hc : Ends size c.bytes
    · rw [if_pos hc]
      exact ih (fun h => hends ⟨h.1, List.forall_mem_cons.mpr ⟨hc, h.2⟩⟩) _
    · rw [if_neg hc]

/-- **Reception is complete**: the data are all the bytes of the chunks, and nothing is read past the buffer. -/
def Complete (chunks : List (Chunk size)) : Prop :=
  recv size true (delivered chunks) = ⟨chunks.flatMap Chunk.bytes, .returns⟩

/-- **When reception is complete**: no chunk has a NUL or fills the buffer, which is not empty. -/
theorem recv_complete_iff (size : Nat) (chunks : List (Chunk size)) :
    Complete chunks ↔ 0 < size ∧ ∀ c ∈ chunks, nul ∉ c.bytes ∧ c.bytes.length < size := by
  by_cases hends : 0 < size ∧ ∀ c ∈ chunks, Ends size c.bytes
  · obtain ⟨hsize, hends⟩ := hends
    have hpieces := flatMap_eq_flatMap_iff (l := chunks) fun c _ => length_text_le c.bytes
    rw [Complete, recv, recvLoop_chunks hsize hends, Reception.mk.injEq, and_iff_left rfl, List.nil_append]
    refine hpieces.trans ?_
    simp only [hsize, true_and, text, takeWhile_ne_nul]
    exact forall₂_congr fun c hc => (and_iff_left_of_imp (hends c hc).resolve_right).symm
  · refine iff_of_false (fun hcomplete => ?_) fun h => hends ⟨h.1, fun c hc => Or.inl (h.2 c hc).2⟩
    have hpast := recvLoop_past hends []
    rw [Complete, recv] at hcomplete
    rw [hcomplete] at hpast
    cases hpast

/-- A chunk with a NUL. -/
def binaryChunk : Chunk 4 := ⟨[0x61, nul, 0x62], by decide, by decide⟩

/-- What stands behind a NUL is lost. -/
theorem not_complete_binaryChunk : ¬∀ (size : Nat) (chunks : List (Chunk size)), 0 < size → Complete chunks := by
  intro h
  have hcomplete := h 4 [binaryChunk] (by decide)
  have hlost : recv 4 true (delivered [binaryChunk]) = ⟨[0x61], .returns⟩ := by decide
  rw [Complete, hlost] at hcomplete
  exact absurd hcomplete (by decide)

end LeftFelt.Socket
