import Mathlib.Algebra.Ring.Int.Defs

/-!
# Arithmetic in C

Values of the arithmetic types of C, and what `+`, `-`, `*` and `/` do with two of them: both are converted to a common
type, which is the type of the result. Where an integer division by zero or an overflow leaves the behaviour undefined,
there is no result. A `long` has 32 bits.

A result has the type `double` if one of the two values has it (`apply_double`), and no integer type smaller than `int`
(`apply_integer`).
-/

namespace LeftFelt.Lib.CArithmetic

/-- The signed integer types. -/
inductive IntType where
  | char
  | short
  | int
  | long
  deriving DecidableEq

/-- The arithmetic types. -/
inductive CType where
  | integer (t : IntType)
  | float
  | double
  deriving DecidableEq

namespace IntType

def bits : IntType → Nat
  | char => 8
  | short => 16
  | int => 32
  | long => 32

/-- The number is a value of the type. -/
def Fits (t : IntType) (n : Int) : Prop := -2 ^ (t.bits - 1) ≤ n ∧ n < 2 ^ (t.bits - 1)

instance (t : IntType) (n : Int) : Decidable (t.Fits n) := inferInstanceAs (Decidable (_ ∧ _))

/-- The common type of two integers, which are promoted to `int` at least. -/
def common (t u : IntType) : IntType := if t = long ∨ u = long then long else int

end IntType

/-- A value. -/
inductive Value where
  | integer (t : IntType) (n : Int)
  | float (x : Float32.Model)
  | double (x : Float.Model)
  deriving DecidableEq

/-- A `double`, rounded to a `float`. -/
def narrow (x : Float.Model) : Float32.Model :=
  .pack (match x.unpack with
    | .finite sign mantissa exponent _ => .round .binary32 sign mantissa exponent
    | y => y)

/-- A `float` as a `double`. -/
def widen (x : Float32.Model) : Float.Model :=
  .pack (match x.unpack with
    | .finite sign mantissa exponent _ => .round .binary64 sign mantissa exponent
    | y => y)

namespace Value

def type : Value → CType
  | integer t _ => .integer t
  | float _ => .float
  | double _ => .double

/-- `(double)v`. -/
def toDouble : Value → Float.Model
  | integer _ n => .ofInt n
  | float x => widen x
  | double x => x

/-- `(float)v`. -/
def toFloat : Value → Float32.Model
  | integer _ n => .ofInt n
  | float x => x
  | double x => narrow x

end Value

/-- `(T)x`: towards zero for an integer type, where a number that does not fit is not defined. -/
def cast (x : Float.Model) : CType → Value
  | .integer .char => .integer .char x.toInt8.toInt
  | .integer .short => .integer .short x.toInt16.toInt
  | .integer .int => .integer .int x.toInt32.toInt
  | .integer .long => .integer .long x.toInt32.toInt
  | .float => .float (narrow x)
  | .double => .double x

theorem type_cast (x : Float.Model) (t : CType) : (cast x t).type = t := by
  cases t with
  | integer t => cases t <;> rfl
  | float => rfl
  | double => rfl

/-! ## Operators -/

inductive Op where
  | plus
  | minus
  | times
  | div
  deriving DecidableEq

namespace Op

/-- On integers. A quotient is truncated. -/
def onInt (op : Op) (m n : Int) : Option Int :=
  match op with
  | plus => some (m + n)
  | minus => some (m - n)
  | times => some (m * n)
  | div => if n = 0 then none else some (m.tdiv n)

def onFloat (op : Op) (x y : Float32.Model) : Float32.Model :=
  match op with
  | plus => x + y
  | minus => x - y
  | times => x * y
  | div => x / y

def onDouble (op : Op) (x y : Float.Model) : Float.Model :=
  match op with
  | plus => x + y
  | minus => x - y
  | times => x * y
  | div => x / y

/-- `v op w`. -/
def apply (op : Op) (v w : Value) : Option Value :=
  match v, w with
  | .integer t m, .integer u n =>
    (op.onInt m n).bind fun r => if (t.common u).Fits r then some (.integer (t.common u) r) else none
  | v, w =>
    if v.type = .double ∨ w.type = .double then some (.double (op.onDouble v.toDouble w.toDouble))
    else some (.float (op.onFloat v.toFloat w.toFloat))

/-- **An operand of type `double` makes the result a `double`.** -/
theorem apply_double (op : Op) {v w : Value} (h : v.type = .double ∨ w.type = .double) :
    op.apply v w = some (.double (op.onDouble v.toDouble w.toDouble)) := by
  cases v <;> cases w <;> simp_all [apply, Value.type]

/-- **The result of two integers** has their common type. -/
theorem apply_integer {op : Op} {v w r : Value} {t u : IntType} (hv : v.type = .integer t) (hw : w.type = .integer u)
    (h : op.apply v w = some r) : r.type = .integer (t.common u) := by
  cases v with
  | float x => cases hv
  | double x => cases hv
  | integer t' m =>
    cases w with
    | float x => cases hw
    | double x => cases hw
    | integer u' n =>
      obtain rfl := CType.integer.inj hv
      obtain rfl := CType.integer.inj hw
      rw [apply, Option.bind_eq_some_iff] at h
      obtain ⟨r', -, hr⟩ := h
      split at hr
      · rw [← Option.some.inj hr]
        rfl
      · cases hr

end Op

end LeftFelt.Lib.CArithmetic
