import LeftFelt.Lib.Records
import Mathlib.Data.List.Induction
import Mathlib.Data.Nat.Bitwise

/-!
# The protocol of the paint program

A drawing is sent as commands of six bytes: a flag, the command and its state in one byte, and the two coordinates. The
commands wait in a buffer, which is sent from time to time. The receiver reads a buffer command by command: with the
commands that still wait behind it, it draws what has been drawn (`received_eq_drawn`).

What is read behind the end of a buffer is not a number.
-/

namespace LeftFelt.Web.Paint

open Lib Records

/-- `DATA_SIZE`. -/
def DATA_SIZE : Nat := 6

/-- `CommandList`. -/
def CommandList : List String := ["line", "rect", "circle"]

/-- `StatusList`. -/
def StatusList : List String := ["start", "move", "end"]

/-- `commState`. -/
def commState : List String := ["enter", "connected", "leave"]

/-! ## Sending -/

/-- `getIndex(list, value)`. -/
def getIndex (list : List String) (value : String) : Int :=
  if value ∈ list then list.idxOf value else -1

/-- `createCommand(command, state, x, y)`: a number is stored as its lowest byte. -/
def createCommand (command state : String) (x y : Nat) : List UInt8 :=
  let command := getIndex CommandList command
  let state := getIndex StatusList state
  [1, ((command * 2 ^ 4 + state) % 2 ^ 8).toNat.toUInt8, ((x &&& 0xff00) >>> 8).toUInt8, (x &&& 0x00ff).toUInt8,
    ((y &&& 0xff00) >>> 8).toUInt8, (y &&& 0x00ff).toUInt8]

/-- `Commands`: bytes, or the array without elements that stands there after they have been sent. -/
inductive Buffer where
  | uint8Array (bytes : List UInt8)
  | array
  deriving DecidableEq

namespace Buffer

/-- The elements. -/
def elements : Buffer → List UInt8
  | uint8Array bytes => bytes
  | array => []

/-- `Commands.buffer`, which an array does not have. -/
def buffer : Buffer → Option (List UInt8)
  | uint8Array bytes => some bytes
  | array => none

end Buffer

/-- The sender: the commands that wait, and the messages that have been sent. -/
structure Sender where
  Commands : Buffer
  sent : List (Option (List UInt8))

/-- `writeCommand(command)`. -/
def writeCommand (command : List UInt8) (s : Sender) : Sender :=
  { s with Commands := .uint8Array (s.Commands.elements ++ command) }

/-- `sendCommands()`. -/
def sendCommands (s : Sender) : Sender :=
  if s.Commands.elements.length = 0 then s
  else { Commands := .array, sent := s.sent ++ [s.Commands.buffer] }

/-! ## Receiving -/

/-- A call of `DrawReceiveData`. -/
structure Draw where
  command : Int
  state : Int
  x : Option Nat
  y : Option Nat
  deriving DecidableEq

/-- `(data[pos] << 8) + data[pos + 1]`: bytes behind the end count as zero for `<<`, and not as a number for `+`. -/
def coordinate (data : List UInt8) (pos : Nat) : Option Nat :=
  data[pos + 1]?.map fun low => ((data[pos]?.getD 0).toNat <<< 8) + low.toNat

/-- One round of the loop of `onmessage`. -/
def readCommand (data : List UInt8) (pos : Nat) : List Draw :=
  match data[pos]?.bind fun com => commState[com.toNat]? with
  | some "connected" =>
    let byte := (data[pos + 1]?.getD 0).toNat
    [⟨((byte &&& 0x00f0) >>> 4 : Nat), (byte &&& 0x000f : Nat), coordinate data (pos + 2), coordinate data (pos + 4)⟩]
  | _ => []

/-- `socket.onmessage`, for a message of bytes, or any other. -/
def onmessage (message : Option (List UInt8)) : List Draw := scan DATA_SIZE readCommand (message.getD [])

/-! ## One command -/

/-- A drawing event. -/
structure Event where
  command : String
  state : String
  x : Nat
  y : Nat
  command_mem : command ∈ CommandList
  state_mem : state ∈ StatusList
  x_lt : x < 65536
  y_lt : y < 65536

namespace Event

/-- Its bytes. -/
def bytes (e : Event) : List UInt8 := createCommand e.command e.state e.x e.y

/-- What is to be drawn for it. -/
def draw (e : Event) : Draw := ⟨getIndex CommandList e.command, getIndex StatusList e.state, some e.x, some e.y⟩

theorem length_bytes (e : Event) : e.bytes.length = DATA_SIZE := rfl

end Event

/-- The command and the state come out of their byte again. -/
theorem nibbles {command state : String} (hcommand : command ∈ CommandList) (hstate : state ∈ StatusList) :
    let byte := ((getIndex CommandList command * 2 ^ 4 + getIndex StatusList state) % 2 ^ 8).toNat.toUInt8.toNat
    ((byte &&& 0x00f0) >>> 4 : Nat) = getIndex CommandList command ∧
    (byte &&& 0x000f : Nat) = getIndex StatusList state := by
  have hall : ∀ command ∈ CommandList, ∀ state ∈ StatusList,
      let byte := ((getIndex CommandList command * 2 ^ 4 + getIndex StatusList state) % 2 ^ 8).toNat.toUInt8.toNat
      ((byte &&& 0x00f0) >>> 4 : Nat) = getIndex CommandList command ∧
      (byte &&& 0x000f : Nat) = getIndex StatusList state := by
    decide +kernel
  exact hall command hcommand state hstate

/-- A coordinate comes out of its two bytes again. -/
theorem coordinate_bytes {n : Nat} (h : n < 65536) :
    (((n &&& 0xff00) >>> 8).toUInt8.toNat <<< 8) + (n &&& 0x00ff).toUInt8.toNat = n := by
  have hlow : n &&& 0x00ff = n % 256 := Nat.and_two_pow_sub_one_eq_mod n 8
  have hhigh : (n &&& 0xff00) >>> 8 = n / 256 := by
    rw [Nat.shiftRight_and_distrib, Nat.shiftRight_eq_div_pow]
    have hmask := Nat.and_two_pow_sub_one_eq_mod (n / 2 ^ 8) 8
    exact hmask.trans (Nat.mod_eq_of_lt (by omega))
  have hbyte : ∀ m : Nat, m.toUInt8.toNat = m % 256 := fun m => UInt8.toNat_ofNat'
  rw [hlow, hhigh, hbyte, hbyte, Nat.shiftLeft_eq]
  omega

/-- **A command is read wherever it stands.** -/
theorem readCommand_bytes (e : Event) (front back : List UInt8) :
    readCommand (front ++ (e.bytes ++ back)) front.length = [e.draw] := by
  have hget : ∀ k, (front ++ (e.bytes ++ back))[front.length + k]? = (e.bytes ++ back)[k]? := fun k => by
    rw [List.getElem?_append_right (Nat.le_add_right _ _), Nat.add_sub_cancel_left]
  have hflag := hget 0
  have hx : coordinate (front ++ (e.bytes ++ back)) (front.length + 2) = some e.x := by
    rw [coordinate, hget 2, Nat.add_assoc, hget 3]
    exact congrArg some (coordinate_bytes e.x_lt)
  have hy : coordinate (front ++ (e.bytes ++ back)) (front.length + 4) = some e.y := by
    rw [coordinate, hget 4, Nat.add_assoc, hget 5]
    exact congrArg some (coordinate_bytes e.y_lt)
  obtain ⟨hcommand, hstate⟩ := nibbles e.command_mem e.state_mem
  rw [Nat.add_zero] at hflag
  have hconnected : ((e.bytes ++ back)[0]?.bind fun com => commState[com.toNat]?) = some "connected" := rfl
  rw [readCommand, hx, hy, hflag, hget 1, hconnected]
  exact congrArg₂ (fun command state => [(⟨command, state, some e.x, some e.y⟩ : Draw)]) hcommand hstate

/-- **A message is read command by command.** -/
theorem onmessage_bytes (es : List Event) : onmessage (some (es.flatMap Event.bytes)) = es.map Event.draw := by
  have hscan := scan_flatMap (by decide) Event.length_bytes readCommand_bytes es
  rw [onmessage, Option.getD_some, hscan, List.map_eq_flatMap]

/-! ## Histories -/

/-- What happens at the sender: a command is put into the buffer, or the buffer is sent. -/
inductive Op where
  | draw (e : Event)
  | send

/-- One operation. -/
def step (s : Sender) : Op → Sender
  | .draw e => writeCommand (createCommand e.command e.state e.x e.y) s
  | .send => sendCommands s

/-- The operations one after the other, from an empty buffer. -/
def run (history : List Op) : Sender := history.foldl step ⟨.uint8Array [], []⟩

theorem run_concat (history : List Op) (op : Op) : run (history ++ [op]) = step (run history) op := by
  rw [run, List.foldl_concat, run]

/-- The events that are drawn. -/
def events (history : List Op) : List Event := history.flatMap fun
  | .draw e => [e]
  | .send => []

/-- What the receiver draws for the messages. -/
def received (s : Sender) : List Draw := s.sent.flatMap onmessage

/-- Some events have been received, and some wait. -/
structure Represents (s : Sender) (received_events waiting : List Event) : Prop where
  received : received s = received_events.map Event.draw
  waiting : s.Commands.elements = waiting.flatMap Event.bytes

theorem represents_draw {s : Sender} {es es' : List Event} (h : Represents s es es') (e : Event) :
    Represents (step s (.draw e)) es (es' ++ [e]) where
  received := h.received
  waiting := by
    rw [List.flatMap_append, List.flatMap_singleton, ← h.waiting]
    rfl

theorem represents_send {s : Sender} {es es' : List Event} (h : Represents s es es') :
    Represents (step s .send) (es ++ es') [] := by
  rw [step, sendCommands]
  by_cases hempty : s.Commands.elements.length = 0
  · -- nothing waits, since every command has six bytes
    have hnone : es' = [] := by
      rw [h.waiting, length_flatMap_encode Event.length_bytes] at hempty
      exact List.eq_nil_of_length_eq_zero (by simpa [DATA_SIZE] using hempty)
    rw [if_pos hempty, hnone, List.append_nil]
    exact ⟨h.received, by rw [← hnone]; exact h.waiting⟩
  · have hbuffer : s.Commands.buffer = some s.Commands.elements := by
      cases hcommands : s.Commands with
      | uint8Array bytes => rfl
      | array =>
        rw [hcommands] at hempty
        exact absurd rfl hempty
    rw [if_neg hempty]
    refine ⟨?_, rfl⟩
    have hreceived := h.received
    rw [Paint.received] at hreceived ⊢
    rw [List.flatMap_append, List.flatMap_singleton, hreceived, hbuffer, h.waiting, onmessage_bytes, List.map_append]

/-- **Every history is represented.** -/
theorem exists_represents (history : List Op) :
    ∃ es es', Represents (run history) es es' ∧ es ++ es' = events history := by
  induction history using List.reverseRecOn with
  | nil => exact ⟨[], [], ⟨rfl, rfl⟩, rfl⟩
  | append_singleton history op ih =>
    obtain ⟨es, es', hrep, hevents⟩ := ih
    have happend : events (history ++ [op]) = events history ++ events [op] := List.flatMap_append
    rw [run_concat, happend, ← hevents]
    cases op with
    | draw e => exact ⟨es, es' ++ [e], represents_draw hrep e, (List.append_assoc _ _ _).symm⟩
    | send => exact ⟨es ++ es', [], represents_send hrep, rfl⟩

/-- **The paint protocol**: what has been received, with what still waits in the buffer, is what has been drawn; and
after one more `sendCommands` it has all been received. -/
theorem received_eq_drawn (history : List Op) :
    received (run history) ++ onmessage (some (run history).Commands.elements) = (events history).map Event.draw ∧
    received (run (history ++ [.send])) = (events history).map Event.draw := by
  obtain ⟨es, es', hrep, hevents⟩ := exists_represents history
  constructor
  · rw [hrep.received, hrep.waiting, onmessage_bytes, ← hevents, List.map_append]
  · rw [run_concat, (represents_send hrep).received, hevents]

end LeftFelt.Web.Paint
