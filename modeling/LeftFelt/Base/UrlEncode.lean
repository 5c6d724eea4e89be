import LeftFelt.Base.Str
import LeftFelt.Lib.PercentCode

/-!
# Percent-encoding of strings

`URLencode` writes the unreserved bytes as they are, and any other byte as `'%'` and its number in hexadecimal. The
stream is not told a width, so that a byte below `0x10` gets one digit only: then the next bytes of the text are read
as the second one, or the `'%'` does not begin an escape at all. `lossless_iff_tall` says that nothing else goes wrong.
-/

namespace LeftFelt.Str

open Lib.PercentCode

/-- `is_alphabet(index)`, of the byte there. -/
def isAlphabet (c : UInt8) : Bool := (0x61 ≤ c && c ≤ 0x7A) || (0x41 ≤ c && c ≤ 0x5A)

/-- `is_number(index)`. -/
def isNumber (c : UInt8) : Bool := 0x30 ≤ c && c ≤ 0x39

/-- `is_ascii(index)`: a letter, a digit, or one of `'.-*)(_`. -/
def isAscii (c : UInt8) : Bool := isAlphabet c || isNumber c || (literal "'.-*)(_").contains c

/-- What `ss << std::hex << (int)num` puts into the stream. -/
def hex (num : UInt8) : Str := (Nat.toDigits 16 num.toNat).map fun c => c.toNat.toUInt8

/-- `URLencode()`. -/
def urlEncode (s : Str) : Str :=
  s.foldl (fun result c => if isAscii c then result ++ [c] else result ++ [percent] ++ hex c) []

/-- What becomes of one byte. -/
def encodeByte (c : UInt8) : Str := if isAscii c then [c] else percent :: hex c

theorem urlEncode_eq (s : Str) : urlEncode s = s.flatMap encodeByte := by
  have hloop : ∀ result : Str, s.foldl (fun result c => if isAscii c then result ++ [c] else
      result ++ [percent] ++ hex c) result = result ++ s.flatMap encodeByte := by
    induction s with
    | nil => simp
    | cons c s ih =>
      intro result
      rw [List.foldl_cons, ih, List.flatMap_cons, encodeByte]
      split_ifs <;> simp
  exact hloop []

theorem urlEncode_cons (c : UInt8) (s : Str) : urlEncode (c :: s) = encodeByte c ++ urlEncode s := by
  simp only [urlEncode_eq, List.flatMap_cons]

theorem ne_percent_of_isAscii {c : UInt8} (h : isAscii c) : c ≠ percent := by
  rintro rfl
  exact absurd h (by decide)

/-! ## The digits -/

/-- A digit of the stream, as a byte. -/
def digit (n : Nat) : UInt8 := (Nat.digitChar n).toNat.toUInt8

theorem hexValue_digit : ∀ n < 16, hexValue (digit n) = some n.toUInt8 := by decide

theorem isHex_digit {n : Nat} (h : n < 16) : IsHex (digit n) := by
  rw [IsHex, hexValue_digit n h]
  rfl

/-- A byte below `0x10` has one digit. -/
theorem hex_short {c : UInt8} (h : c.toNat < 16) : hex c = [digit c.toNat] := by
  rw [hex, Nat.toDigits_of_lt_base h]
  rfl

/-- Any other byte has two. -/
theorem hex_tall {c : UInt8} (h : 16 ≤ c.toNat) : hex c = [digit (c.toNat / 16), digit (c.toNat % 16)] := by
  have hc : c.toNat / 16 < 16 := by have := c.toNat_lt; omega
  rw [hex, Nat.toDigits_of_base_le (by omega) h, Nat.toDigits_of_lt_base hc]
  rfl

/-! ## Tall bytes -/

/-- The string has no byte below `0x10`. -/
def Tall (s : Str) : Prop := ∀ c ∈ s, 16 ≤ c.toNat

theorem tall_cons {c : UInt8} {s : Str} : Tall (c :: s) ↔ 16 ≤ c.toNat ∧ Tall s := List.forall_mem_cons

theorem decode_encodeByte {c : UInt8} (hc : 16 ≤ c.toNat) (s : Str) : decode (encodeByte c ++ s) = c :: decode s := by
  rw [encodeByte]
  split_ifs with h
  · exact decode_cons (ne_percent_of_isAscii h) s
  · have hlt := c.toNat_lt
    have hvalue : 16 * (c.toNat / 16).toUInt8 + (c.toNat % 16).toUInt8 = c := by
      rw [← UInt8.toNat_inj]
      simp
      omega
    rw [hex_tall hc]
    exact (decode_escape (hexValue_digit _ (by omega)) (hexValue_digit _ (by omega)) s).trans (by rw [hvalue])

theorem encoded_encodeByte {c : UInt8} (hc : 16 ≤ c.toNat) {s : Str} (hs : Encoded (fun c => isAscii c) s) :
    Encoded (fun c => isAscii c) (encodeByte c ++ s) := by
  rw [encodeByte]
  split_ifs with h
  · exact .byte h hs
  · have hlt := c.toNat_lt
    rw [hex_tall hc]
    exact .escape (isHex_digit (by omega)) (isHex_digit (by omega)) hs

/-! ## Lengths -/

/-- How many bytes of the string are below `0x10`. -/
def shorts (s : Str) : Nat := s.countP fun c => c.toNat < 16

theorem tall_iff_shorts {s : Str} : Tall s ↔ shorts s = 0 := by
  simp [Tall, shorts, List.countP_eq_zero]

/-- No unreserved byte is below `0x10`. -/
theorem not_isAscii_of_lt {c : UInt8} (h : c.toNat < 16) : ¬isAscii c := by
  have hsmall : ∀ n < 16, ¬isAscii n.toUInt8 := by decide
  simpa using hsmall c.toNat h

theorem digit_ne_percent {n : Nat} (h : n < 16) : digit n ≠ percent := (isHex_digit h).ne_percent

/-- What one byte adds: itself, and a `'%'` and two digits, one less if it is below `0x10`. -/
theorem length_encodeByte (c : UInt8) :
    (encodeByte c).length + shorts [c] = 1 + 2 * (encodeByte c).count percent := by
  have hlt := c.toNat_lt
  rw [encodeByte, shorts, List.countP_singleton]
  by_cases hshort : c.toNat < 16
  · rw [if_neg (not_isAscii_of_lt hshort), hex_short hshort, List.count_cons_self,
      List.count_cons_of_ne (digit_ne_percent hshort)]
    simp [hshort]
  · by_cases h : isAscii c
    · simp [h, ne_percent_of_isAscii h, hshort]
    · rw [if_neg h, hex_tall (by omega), List.count_cons_self, List.count_cons_of_ne (digit_ne_percent (by omega)),
        List.count_cons_of_ne (digit_ne_percent (by omega))]
      simp [hshort]

theorem length_urlEncode (s : Str) :
    (urlEncode s).length + shorts s = s.length + 2 * (urlEncode s).count percent := by
  induction s with
  | nil => rfl
  | cons c s ih =>
    have hbyte := length_encodeByte c
    have hshorts : shorts (c :: s) = shorts [c] + shorts s := by
      rw [shorts, ← List.singleton_append, List.countP_append]
      rfl
    rw [urlEncode_cons, List.length_append, List.count_append, List.length_cons, hshorts]
    omega

/-! ## The law -/

/-- **The encoding of a string is lossless**: it has unreserved bytes and escapes of two digits only, and to decode it
gives the string back. -/
structure Lossless (s : Str) : Prop where
  encoded : Encoded (fun c => isAscii c) (urlEncode s)
  decoded : decode (urlEncode s) = s

theorem lossless_of_tall {s : Str} (h : Tall s) : Lossless s := by
  induction s with
  | nil => exact ⟨.nil, rfl⟩
  | cons c s ih =>
    obtain ⟨hc, hs⟩ := tall_cons.1 h
    obtain ⟨hencoded, hdecoded⟩ := ih hs
    refine ⟨?_, ?_⟩
    · rw [urlEncode_cons]
      exact encoded_encodeByte hc hencoded
    · rw [urlEncode_cons, decode_encodeByte hc, hdecoded]

/-- The lengths do not fit if a digit is missing. -/
theorem Lossless.tall {s : Str} (h : Lossless s) : Tall s := by
  have hlength := h.encoded.length_eq fun c hc => ne_percent_of_isAscii hc
  have hbytes := length_urlEncode s
  rw [h.decoded] at hlength
  rw [tall_iff_shorts]
  omega

/-- **A string is encoded without loss iff it has no byte below `0x10`**, and then it shares its encoding with no other
such string. -/
theorem lossless_iff_tall (s : Str) :
    (Lossless s ↔ Tall s) ∧ (Tall s → ∀ t, Tall t → urlEncode s = urlEncode t → s = t) := by
  refine ⟨⟨Lossless.tall, lossless_of_tall⟩, fun hs t ht heq => ?_⟩
  rw [← (lossless_of_tall hs).decoded, heq, (lossless_of_tall ht).decoded]

/-- A line feed becomes `%a`. -/
theorem not_lossless_lineFeed : ¬Lossless [0x0A] := by
  intro h
  have hdecoded := h.decoded
  revert hdecoded
  decide

end LeftFelt.Str
