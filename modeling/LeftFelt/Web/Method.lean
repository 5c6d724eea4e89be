import LeftFelt.Base.Str
import LeftFelt.Lib.Segments

/-!
# Methods that can be called

`Method` is something that `call_user_func_array` takes, with its arguments. Its key joins the class, the name and the
serialized arguments. So a key tells the arguments, the form of the callable, its name and the class of an object
(`createKey_agree`), but not which object of the class it is: two objects of one class share their keys
(`createKey_of_class`).

`md5`, `serialize` and the conversion of other values to strings are parameters.
-/

namespace LeftFelt.Web

open Str Lib Segments

/-! ## Values -/

/-- A name of the language: of a function, a method or a class. -/
structure Name where
  text : Str
  nonempty : text ≠ []
  plain : 0x3A ∉ text ∧ 0x3D ∉ text

@[ext] theorem Name.ext {a b : Name} (h : a.text = b.text) : a = b := by
  cases a
  cases b
  cases h
  rfl

/-- A name has no colon. -/
theorem Name.text_ne_append (name : Name) (s t : Str) : name.text ≠ s ++ 0x3A :: t := fun h =>
  name.plain.1 (h ▸ by simp)

/-- An object: its class, and which object of the class it is. -/
structure Object where
  class_name : Name
  handle : Nat

/-- The key of an entry of an array. -/
inductive ArrayKey where
  | int (n : Int)
  | string (s : Str)
  deriving DecidableEq

/-- A value of any type, where a number with a fraction is its 64 bits. -/
inductive Mixed where
  | null
  | bool (b : Bool)
  | int (n : Int)
  | float (bits : UInt64)
  | string (s : Str)
  | array (entries : List (ArrayKey × Mixed))
  | object (o : Object)

namespace Mixed

/-- `(bool)$value`: the two zeros are `false`, as are `""`, `"0"` and the empty array. -/
def truthy : Mixed → Bool
  | null => false
  | bool b => b
  | int n => n ≠ 0
  | float bits => bits ≠ 0 ∧ bits ≠ 0x8000000000000000
  | string s => s ≠ [] ∧ s ≠ literal "0"
  | array entries => !entries.isEmpty
  | object _ => true

/-- A boolean, an integer, a string, an array or `null`. -/
def IsPlain : Mixed → Prop
  | float _ | object _ => False
  | null | bool _ | int _ | string _ | array _ => True

/-- `(string)$value`. -/
def toStr (other : Mixed → Str) : Mixed → Str
  | null => []
  | bool b => if b then literal "1" else []
  | int n => literal (toString n)
  | string s => s
  | array _ => literal "Array"
  | v => other v

end Mixed

/-! ## Methods -/

/-- The first of the two parts of a pair. -/
inductive Target where
  | object (o : Object)
  | class_name (name : Name)

/-- What can be called: a function, `"class::name"`, or a pair. -/
inductive Callable where
  | function (name : Name)
  | static (class_name name : Name)
  | pair (target : Target) (name : Name)

/-- `Method`. -/
structure Method where
  method : Callable
  args : List Mixed

/-- `get_class($target)`: for anything but an object it is `false`, which stands for the empty string. -/
def get_class : Target → Str
  | .object o => o.class_name.text
  | .class_name _ => []

namespace Method

/-- The part of the key for the function. -/
def methodKey : Callable → Str
  | .pair target name => get_class target ++ 0x3A :: name.text
  | .function name => name.text
  | .static class_name name => class_name.text ++ 0x3A :: 0x3A :: name.text

/-- What is hashed for the key. -/
def keyText (serialize : List Mixed → Str) (m : Method) : Str :=
  methodKey m.method ++ literal "=>" ++ serialize m.args

/-- `createKey()`. -/
def createKey (md5 : Str → Str) (serialize : List Mixed → Str) (m : Method) : Str :=
  md5 (keyText serialize m)

/-! ## What a key tells -/

/-- Two callables of one form, with one name, and one class where the key has it. -/
def Agree : Callable → Callable → Prop
  | .function name, .function name' => name = name'
  | .static c name, .static c' name' => c = c' ∧ name = name'
  | .pair (.object o) name, .pair (.object o') name' => o.class_name = o'.class_name ∧ name = name'
  | .pair (.class_name _) name, .pair (.class_name _) name' => name = name'
  | _, _ => False

/-- The part for the function has no `=`. -/
theorem equals_not_mem_methodKey (c : Callable) : 0x3D ∉ methodKey c := by
  cases c with
  | function name => exact name.plain.2
  | static c name => simp [methodKey, c.plain.2, name.plain.2]
  | pair target name =>
    cases target with
    | object o => simp [methodKey, get_class, o.class_name.plain.2, name.plain.2]
    | class_name c => simp [methodKey, get_class, name.plain.2]

theorem colon_not_mem_get_class (target : Target) : 0x3A ∉ get_class target := by
  cases target with
  | object o => exact o.class_name.plain.1
  | class_name c => exact List.not_mem_nil

/-- Two texts are cut at the first colon. -/
theorem cut_at_colon {s s' t t' : Str} (hs : 0x3A ∉ s) (hs' : 0x3A ∉ s') (h : s ++ 0x3A :: t = s' ++ 0x3A :: t') :
    s = s' ∧ t = t' := by
  obtain hcut | ⟨x, rfl, -⟩ | ⟨x, rfl, -⟩ := append_cons_eq_append_cons h
  · exact hcut
  · simp at hs'
  · simp at hs

/-- A name does not begin with a colon, but what follows the first colon of `"class::name"` does. -/
theorem static_ne_pair (c name name' : Name) (target : Target) :
    methodKey (.static c name) ≠ methodKey (.pair target name') := fun h =>
  name'.text_ne_append [] name.text (cut_at_colon c.plain.1 (colon_not_mem_get_class target) h).2.symm

/-- **What the part for the function tells.** -/
theorem agree_of_methodKey_eq {c c' : Callable} (h : methodKey c = methodKey c') : Agree c c' := by
  cases c with
  | function name =>
    cases c' with
    | function name' => exact Name.ext h
    | static c' name' => exact absurd h (name.text_ne_append _ _)
    | pair target name' => exact absurd h (name.text_ne_append _ _)
  | static c name =>
    cases c' with
    | function name' => exact absurd h.symm (name'.text_ne_append _ _)
    | static c' name' =>
      obtain ⟨hclass, hname⟩ := cut_at_colon c.plain.1 c'.plain.1 h
      exact ⟨Name.ext hclass, Name.ext (List.cons.inj hname).2⟩
    | pair target name' => exact absurd h (static_ne_pair c name name' target)
  | pair target name =>
    cases c' with
    | function name' => exact absurd h.symm (name'.text_ne_append _ _)
    | static c' name' => exact absurd h.symm (static_ne_pair c' name' name target)
    | pair target' name' =>
      obtain ⟨hclass, hname⟩ := cut_at_colon (colon_not_mem_get_class target) (colon_not_mem_get_class target') h
      cases target with
      | object o =>
        cases target' with
        | object o' => exact ⟨Name.ext hclass, Name.ext hname⟩
        | class_name c' => exact absurd hclass o.class_name.nonempty
      | class_name c =>
        cases target' with
        | object o' => exact absurd hclass.symm o'.class_name.nonempty
        | class_name c' => exact Name.ext hname

/-- **What a key tells**: the arguments, the name, and the class of an object, if `md5` and `serialize` tell the two
methods apart. -/
theorem createKey_agree {md5 : Str → Str} {serialize : List Mixed → Str} {m m' : Method}
    (hmd5 : md5 (keyText serialize m) = md5 (keyText serialize m') → keyText serialize m = keyText serialize m')
    (hserialize : serialize m.args = serialize m'.args → m.args = m'.args)
    (h : createKey md5 serialize m = createKey md5 serialize m') :
    Agree m.method m'.method ∧ m.args = m'.args := by
  have htext : methodKey m.method ++ 0x3D :: (0x3E :: serialize m.args) =
      methodKey m'.method ++ 0x3D :: (0x3E :: serialize m'.args) := by
    simpa [keyText, literal] using hmd5 h
  obtain ⟨hmethod, hargs⟩ | ⟨x, hx, -⟩ | ⟨x, hx, -⟩ := append_cons_eq_append_cons htext
  · exact ⟨agree_of_methodKey_eq hmethod, hserialize (List.cons.inj hargs).2⟩
  · exact absurd (hx ▸ by simp) (equals_not_mem_methodKey m'.method)
  · exact absurd (hx ▸ by simp) (equals_not_mem_methodKey m.method)

/-- Two objects of one class have one key. -/
theorem createKey_of_class (md5 : Str → Str) (serialize : List Mixed → Str) {o o' : Object}
    (h : o.class_name = o'.class_name) (name : Name) (args : List Mixed) :
    createKey md5 serialize ⟨.pair (.object o) name, args⟩ =
      createKey md5 serialize ⟨.pair (.object o') name, args⟩ := by
  simp only [createKey, keyText, methodKey, get_class, h]

/-- `array($model, 'get')`, for one model or another. -/
def getOf (handle : Nat) : Method :=
  ⟨.pair (.object ⟨⟨literal "UserModel", by decide, by decide⟩, handle⟩) ⟨literal "get", by decide, by decide⟩,
    [.string (literal "ann")]⟩

theorem createKey_agree_getOf : Agree (getOf 0).method (getOf 1).method ∧ (getOf 0).args = (getOf 1).args :=
  @createKey_agree (fun _ => literal "a51283f3b5b953cc22129a0e666d7a39")
    (fun _ => literal "a:1:\x7bi:0;s:3:\"ann\";\x7d") _ _ (fun _ => rfl) (fun _ => rfl) rfl

/-- Two models with users of different tables have one key for their `get`. -/
theorem createKey_getOf : (∀ md5 serialize, createKey md5 serialize (getOf 0) = createKey md5 serialize (getOf 1)) ∧
    (getOf 0).method ≠ (getOf 1).method := by
  refine ⟨fun md5 serialize => createKey_of_class md5 serialize rfl _ _, ?_⟩
  simp [getOf]

end Method

end LeftFelt.Web
