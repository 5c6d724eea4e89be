import Mathlib.Data.List.Count
import Mathlib.Data.UInt

/-!
# Percent-encoding

A byte string in which some bytes stand for themselves, and `'%'` with two hexadecimal digits behind it stands for the
byte with these digits. `decode` reads such a string; `Encoded` says that a string is one. Then every `'%'` costs two
more bytes (`Encoded.length_eq`), which tells the lengths that an encoder must keep.
-/

namespace LeftFelt.Lib.PercentCode

/-- `'%'`. -/
def percent : UInt8 := 0x25

/-- The value of a hexadecimal digit, upper or lower case. -/
def hexValue (c : UInt8) : Option UInt8 :=
  if 0x30 ≤ c ∧ c ≤ 0x39 then some (c - 0x30)
  else if 0x41 ≤ c ∧ c ≤ 0x46 then some (c - 0x37)
  else if 0x61 ≤ c ∧ c ≤ 0x66 then some (c - 0x57)
  else none

/-- A hexadecimal digit. -/
def IsHex (c : UInt8) : Prop := (hexValue c).isSome

/-- Percent-decoding. A `'%'` without two digits behind it stands for itself. -/
def decode : List UInt8 → List UInt8
  | [] => []
  | [c] => [c]
  | [c, d] => [c, d]
  | c :: a :: b :: s =>
    if c = percent then
      match hexValue a, hexValue b with
      | some x, some y => (16 * x + y) :: decode s
      | _, _ => c :: decode (a :: b :: s)
    else c :: decode (a :: b :: s)

/-- The strings that an encoder may produce, where `plain` are the bytes that stand for themselves. -/
inductive Encoded (plain : UInt8 → Prop) : List UInt8 → Prop
  | nil : Encoded plain []
  | byte {c : UInt8} {s : List UInt8} : plain c → Encoded plain s → Encoded plain (c :: s)
  | escape {a b : UInt8} {s : List UInt8} :
      IsHex a → IsHex b → Encoded plain s → Encoded plain (percent :: a :: b :: s)

variable {plain : UInt8 → Prop} {a b c x y : UInt8} {s t : List UInt8}

/-- Any other byte than `'%'` stands for itself. -/
theorem decode_cons (hc : c ≠ percent) : ∀ s : List UInt8, decode (c :: s) = c :: decode s
  | [] => rfl
  | [_] => rfl
  | _ :: _ :: _ => by rw [decode, if_neg hc]

/-- A `'%'` with two digits. -/
theorem decode_escape (ha : hexValue a = some x) (hb : hexValue b = some y) (s : List UInt8) :
    decode (percent :: a :: b :: s) = (16 * x + y) :: decode s := by
  simp [decode, ha, hb]

theorem IsHex.ne_percent (h : IsHex c) : c ≠ percent := by
  rintro rfl
  have hnone : hexValue percent = none := by decide
  simp [IsHex, hnone] at h

/-- **Every `'%'` costs two more bytes.** -/
theorem Encoded.length_eq (hplain : ∀ c, plain c → c ≠ percent) (h : Encoded plain s) :
    s.length = (decode s).length + 2 * s.count percent := by
  induction h with
  | nil => rfl
  | @byte c s hc _ ih =>
    have hne := hplain c hc
    rw [decode_cons hne, List.count_cons_of_ne hne, List.length_cons, List.length_cons, ih]
    omega
  | @escape a b s ha hb _ ih =>
    obtain ⟨x, hx⟩ := Option.isSome_iff_exists.1 ha
    obtain ⟨y, hy⟩ := Option.isSome_iff_exists.1 hb
    rw [decode_escape hx hy, List.count_cons_self, List.count_cons_of_ne ha.ne_percent,
      List.count_cons_of_ne hb.ne_percent]
    simp only [List.length_cons, ih]
    omega

end LeftFelt.Lib.PercentCode
