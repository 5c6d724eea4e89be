import LeftFelt.Base.Str
import LeftFelt.Lib.OrderedMap

/-!
# Tags

The class `Tag`: a name, a text and properties, which `Create` prints in the order of their names. Names are compared
byte by byte, as `std::map<String, String>` compares them.
-/

namespace LeftFelt

open Lib Str

/-- `Tag`. -/
structure Tag where
  name : Str
  text : Str
  propertys : OrderedMap Str Str
  deriving DecidableEq

namespace Tag

/-- `Tag()`, and a tag after `clear()`. -/
def new : Tag := ⟨[], [], .empty⟩

/-- `setName(name)`. -/
def setName (tag : Tag) (name : Str) : Tag := { tag with name := name }

/-- `setProperty(property, value)`. -/
def setProperty (tag : Tag) (property value : Str) : Tag :=
  { tag with propertys := tag.propertys.insert property value }

/-- `setText(text)`: the text goes to a tag that is local to the function. -/
def setText (tag : Tag) (_ : Str) : Tag := tag

/-- `getText()`. -/
def getText (tag : Tag) : Str := tag.text

/-- `isStartTag()`. -/
def isStartTag (tag : Tag) : Bool := tag.name ≠ []

/-- `isEndTag()`. -/
def isEndTag (tag : Tag) : Bool :=
  let index := tag.name.idxOf slash
  index ≠ tag.name.length && tag.name.drop index ≠ []

/-- `isText()`. -/
def isText (tag : Tag) : Bool := !tag.isStartTag && !tag.isEndTag && tag.text ≠ []

/-- One property as `Create` prints it. -/
def printProperty (e : Str × Str) : Str := [space] ++ e.1 ++ [eq, quote] ++ e.2 ++ [quote]

/-- `Create()`. -/
def create (tag : Tag) : Str :=
  if tag.name ≠ [] then [lt] ++ tag.name ++ tag.propertys.entries.flatMap printProperty ++ [gt]
  else if tag.text ≠ [] then tag.text
  else []

/-- A property that can be printed: a name free of spaces, tabs, `=`, quotes and angle brackets, and a value free of
double quotes, tabs and angle brackets, neither of them empty. -/
structure PlainProperty (e : Str × Str) : Prop where
  name_ne_nil : e.1 ≠ []
  name : ∀ c ∈ [space, tab, eq, quote, apostrophe, lt, gt], c ∉ e.1
  value_ne_nil : e.2 ≠ []
  value : ∀ c ∈ [quote, tab, lt, gt], c ∉ e.2

/-- A tag that can be printed: a name free of spaces, tabs and angle brackets, and not empty. -/
structure Plain (tag : Tag) : Prop where
  name_ne_nil : tag.name ≠ []
  name : ∀ c ∈ [space, tab, lt, gt], c ∉ tag.name
  property : ∀ e ∈ tag.propertys.entries, PlainProperty e

/-- What stands between the angle brackets. -/
def body (tag : Tag) : Str := tag.name ++ tag.propertys.entries.flatMap printProperty

theorem create_of_plain {tag : Tag} (h : Plain tag) : tag.create = lt :: tag.body ++ [gt] := by
  simp [create, body, h.name_ne_nil]

/-- Tabs and angle brackets do not occur in a plain property. -/
theorem PlainProperty.not_mem_print {e : Str × Str} (h : PlainProperty e) {c : UInt8} (hc : c ∈ [tab, lt, gt]) :
    c ∉ printProperty e := by
  have hname : c ∉ e.1 := h.name c (by simp at hc ⊢; tauto)
  have hvalue : c ∉ e.2 := h.value c (by simp at hc ⊢; tauto)
  have hmarks : c ∉ [space, eq, quote] := by
    simp only [List.mem_cons, List.not_mem_nil, or_false] at hc
    rcases hc with rfl | rfl | rfl <;> decide
  simp only [printProperty, List.mem_append, List.mem_cons, List.not_mem_nil, or_false, not_or] at hmarks ⊢
  exact ⟨⟨⟨⟨hmarks.1, hname⟩, hmarks.2⟩, hvalue⟩, hmarks.2.2⟩

/-- Tabs and angle brackets do not occur between the angle brackets. -/
theorem Plain.not_mem_body {tag : Tag} (h : Plain tag) {c : UInt8} (hc : c ∈ [tab, lt, gt]) : c ∉ tag.body := by
  intro hmem
  rcases List.mem_append.1 hmem with hname | hmem
  · exact h.name c (List.mem_cons_of_mem _ hc) hname
  · obtain ⟨e, he, hce⟩ := List.mem_flatMap.1 hmem
    exact (h.property e he).not_mem_print hc hce

end Tag

end LeftFelt
