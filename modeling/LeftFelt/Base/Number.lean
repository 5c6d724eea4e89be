import LeftFelt.Lib.CArithmetic

/-!
# Numbers with a type

A `Number` has a value, kept as a `double`, and the type that it has been made from. The templates of `NumberOperator`
combine it with a plain value in this type. `Number::operator` combines two numbers and looks at the type of the second
one, but not at that of the first, whose value stays a `double`: so the result always has the type `double`
(`type_operator`), and is never the same as that of the templates for two integers (`not_consistent`).

For a number without a type, all templates add (`template_unknown`).
-/

namespace LeftFelt

open Lib.CArithmetic

/-- `NumberOperator`: the value, and the type if it is one of the six. -/
structure Number where
  value : Float.Model
  type : Option CType
  deriving DecidableEq

namespace Number

/-- The constructors, which call `num << value`. -/
def ofValue (value : Value) : Number := ⟨value.toDouble, some value.type⟩

/-- What the chain of `isDouble`, ..., `isChar` reads the value as: `(T)num.value`. -/
def read (num : Number) : Option Value := num.type.map (cast num.value)

/-- `Number::operator+(num)`, and so on. -/
def operator (op : Op) (this num : Number) : Option Number :=
  (op.apply (.double this.value) (num.read.getD (.double num.value))).map ofValue

/-- The last branch of the templates, where the number has none of the types: `Num + value`, for every operator. -/
def lastBranch (num : Number) (value : Value) : Option Number := (Op.plus.apply (.double num.value) value).map ofValue

/-- The templates `operator+(num, value)`, and so on. -/
def template (op : Op) (num : Number) (value : Value) : Option Number :=
  match num.read with
  | some stored => (op.apply stored value).map ofValue
  | none => num.lastBranch value

/-- The templates `operator+(value, num)`, and so on. -/
def templateSwapped (op : Op) (value : Value) (num : Number) : Option Number :=
  match num.read with
  | some stored => (op.apply value stored).map ofValue
  | none => num.lastBranch value

variable {op : Op} {num r : Number} {value : Value}

/-- **The result of `Number::operator` is a `double`**, whatever has been combined. -/
theorem type_operator (op : Op) (this num : Number) :
    ∃ x, operator op this num = some ⟨x, some .double⟩ := by
  rw [operator, Op.apply_double op (Or.inl rfl)]
  exact ⟨_, rfl⟩

/-- The result of a template for two integers has their common type. -/
theorem type_template {t u : IntType} (hnum : num.type = some (.integer t)) (hvalue : value.type = .integer u)
    (h : template op num value = some r) : r.type = some (.integer (t.common u)) := by
  rw [template, read, hnum, Option.map_some, Option.map_eq_some_iff] at h
  obtain ⟨result, hresult, rfl⟩ := h
  exact congrArg some (Op.apply_integer (type_cast _ _) hvalue hresult)

/-- Without a type, every template adds. -/
theorem template_unknown (h : num.type = none) (op : Op) (value : Value) :
    template op num value = (Op.plus.apply (.double num.value) value).map ofValue ∧
      templateSwapped op value num = (Op.plus.apply (.double num.value) value).map ofValue := by
  simp only [template, templateSwapped, read, h, Option.map_none, lastBranch, and_self]

/-! ## The law -/

/-- An integer of one of the types. -/
structure Integer where
  type : IntType
  value : Int
  fits : type.Fits value

/-- The plain value. -/
def Integer.plain (a : Integer) : Value := .integer a.type a.value

/-- A number without a type that holds the integer. -/
def Integer.untyped (a : Integer) : Number := ⟨a.plain.toDouble, none⟩

/-- **The two ways of combining agree**: two numbers, or a number and a plain value; and for a number without a type the
templates do what the operator says. -/
structure Consistent (op : Op) (a b : Integer) : Prop where
  agree : ∃ r, operator op (ofValue a.plain) (ofValue b.plain) = some r ∧ template op (ofValue a.plain) b.plain = some r
  unknown : template op a.untyped b.plain = (op.apply (.double a.untyped.value) b.plain).map ofValue
  unknownSwapped : templateSwapped op b.plain a.untyped = (op.apply b.plain (.double a.untyped.value)).map ofValue

/-- **They never agree**: the types of the results are different. -/
theorem not_consistent (op : Op) (a b : Integer) : ¬Consistent op a b := by
  rintro ⟨⟨r, hoperator, htemplate⟩, -, -⟩
  obtain ⟨x, hx⟩ := type_operator op (ofValue a.plain) (ofValue b.plain)
  obtain rfl := Option.some.inj (hx.symm.trans hoperator)
  cases type_template (t := a.type) (u := b.type) rfl rfl htemplate

/-- `1 + 2` as two numbers and as a number and a plain value. -/
theorem not_consistent_onePlusTwo : ¬∀ (op : Op) (a b : Integer), (op = .div → b.value ≠ 0) → Consistent op a b := by
  intro h
  obtain ⟨⟨r, hoperator, htemplate⟩, -, -⟩ :=
    h .plus ⟨.int, 1, by decide⟩ ⟨.int, 2, by decide⟩ fun heq => nomatch heq
  have hint : r.type = some (.integer .int) := by
    rw [← Option.some.inj htemplate]
    rfl
  have hdouble : r.type = some .double := by
    rw [← Option.some.inj hoperator]
    rfl
  rw [hint] at hdouble
  cases hdouble

end Number

end LeftFelt
