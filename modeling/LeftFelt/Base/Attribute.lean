import Mathlib.Algebra.BigOperators.Group.List.Basic
import LeftFelt.Base.XmlTotal

/-!
# The grammar of attributes

A list of attributes is written with spaces between them (`Written`): a bare name, or a name and a value in single or
double quotes. `setProperty` looks for a double quote in all of the source that is left, before it looks for a single
one, and strips runs of quotes, so it reads the list back exactly if `Readable` holds (`setProperty_iff`).

An attribute that is read wrongly stays wrong. Every round takes a name and a value out of the source, and what it has
taken is gone (`nextProperty_cases`), so the source has too few letters left to store all that is missing
(`sum_weight_le`).
-/

namespace LeftFelt

open Lib Str
open scoped List

namespace XML

/-! ## Attributes and how they are written -/

/-- The two kinds of quotes. -/
inductive Mark where
  | single
  | double
  deriving DecidableEq

def Mark.byte : Mark → UInt8
  | single => apostrophe
  | double => quote

/-- How the value of an attribute is given. -/
inductive Form where
  | bare
  | quoted (mark : Mark) (value : Str)
  deriving DecidableEq

/-- The value: a bare name has the empty one. -/
def Form.value : Form → Str
  | bare => []
  | quoted _ value => value

/-- What stands behind `=`. -/
def Form.marked : Form → Str
  | bare => []
  | quoted mark value => mark.byte :: (value ++ [mark.byte])

/-- An attribute: a name free of spaces, `=` and quotes, and a value free of the quotes it stands in. -/
structure Attribute where
  name : Str
  form : Form
  name_ne_nil : name ≠ []
  name_plain : ∀ c ∈ [space, eq, quote, apostrophe], c ∉ name
  value_plain : ∀ mark value, form = .quoted mark value → mark.byte ∉ value

/-- What is to be stored. -/
def Attribute.entry (a : Attribute) : Str × Str := (a.name, a.form.value)

/-- **The ways to write a list of attributes**, with spaces in front of each, around `=`, and `trailing` spaces at the
end. -/
inductive Written (trailing : Nat) : List Attribute → Str → Prop
  | nil : Written trailing [] (.replicate trailing space)
  | bare {a : Attribute} {attrs : List Attribute} {rest : Str} (gap : Nat) :
      a.form = .bare → (attrs ≠ [] → rest.head? = some space) → Written trailing attrs rest →
      Written trailing (a :: attrs) (.replicate gap space ++ (a.name ++ rest))
  | quoted {a : Attribute} {attrs : List Attribute} {rest : Str} {mark : Mark} {value : Str} (gap before after : Nat) :
      a.form = .quoted mark value → (attrs ≠ [] → rest.head? = some space) → Written trailing attrs rest →
      Written trailing (a :: attrs) (.replicate gap space ++ (a.name ++ (.replicate before space ++
        eq :: (.replicate after space ++ mark.byte :: (value ++ mark.byte :: rest)))))

/-- **What `setProperty` reads back**: no double quote stands in a single-quoted value or behind it, an empty value in
quotes only at the very end, and spaces at the end only behind a bare name. -/
structure Readable (attrs : List Attribute) (trailing : Nat) : Prop where
  single : ∀ a ∈ attrs, ∀ value, a.form = .quoted .single value → quote ∉ value
  behind : attrs.Pairwise fun a b => ∀ value, a.form = .quoted .single value → quote ∉ b.form.marked
  empty : ∀ a ∈ attrs.dropLast, ∀ mark value, a.form = .quoted mark value → value ≠ []
  trailing : trailing = 0 ∨ ∃ a, attrs.getLast? = some a ∧ a.form = .bare

/-- **Stores exactly the attributes**: `setProperty` returns the tag with the entries of the attributes, no others. -/
def Stores (fuel : Nat) (tag : Tag) (source : Str) (attrs : List Attribute) : Prop :=
  ∃ tag', setProperty fuel tag source = .ok tag' ∧ tag'.name = tag.name ∧ tag'.text = tag.text ∧
    ∀ e, e ∈ tag'.propertys.entries ↔ e ∈ attrs.map Attribute.entry

variable {a : Attribute} {attrs : List Attribute} {trailing : Nat} {source rest : Str} {mark : Mark} {value : Str}

theorem Mark.byte_ne (mark : Mark) : mark.byte ≠ eq ∧ mark.byte ≠ space := by cases mark <;> decide

theorem Attribute.name_free (a : Attribute) : space ∉ a.name ∧ eq ∉ a.name ∧ quote ∉ a.name := by
  have hplain := a.name_plain
  simp only [List.mem_cons, forall_eq_or_imp] at hplain
  exact ⟨hplain.1, hplain.2.1, hplain.2.2.1⟩

/-- A name does not begin with a space. -/
theorem Attribute.frontStrip_name (a : Attribute) (gap : Nat) (t : Str) :
    frontStrip (.replicate gap space ++ (a.name ++ t)) space = a.name ++ t := by
  rw [frontStrip_replicate_append, frontStrip_append a.name_ne_nil a.name_free.1]

/-! ## Readable lists -/

theorem readable_nil : Readable [] trailing ↔ trailing = 0 := by
  constructor
  · intro h
    cases h.trailing with
    | inl h => exact h
    | inr h => obtain ⟨a, ha, -⟩ := h; cases ha
  · intro h
    exact ⟨by simp, by simp, by simp, Or.inl h⟩

/-- A single bare name is always read. -/
theorem readable_bare_singleton (ha : a.form = .bare) : Readable [a] trailing :=
  ⟨by simp [ha], by simp, by simp, Or.inr ⟨a, rfl, ha⟩⟩

/-- A bare name in front makes no difference. -/
theorem readable_bare_cons (ha : a.form = .bare) (hne : attrs ≠ []) :
    Readable (a :: attrs) trailing ↔ Readable attrs trailing := by
  obtain ⟨b, bs, rfl⟩ := List.exists_cons_of_ne_nil hne
  constructor
  · intro h
    exact ⟨fun c hc => h.single c (List.mem_cons_of_mem _ hc), (List.pairwise_cons.1 h.behind).2,
      fun c hc => h.empty c (List.mem_cons_of_mem _ hc), by simpa using h.trailing⟩
  · intro h
    refine ⟨fun c hc => ?_, List.pairwise_cons.2 ⟨by simp [ha], h.behind⟩, fun c hc => ?_, by simpa using h.trailing⟩
    · cases List.mem_cons.1 hc with
      | inl heq => simp [heq, ha]
      | inr hc => exact h.single c hc
    · cases List.mem_cons.1 hc with
      | inl heq => simp [heq, ha]
      | inr hc => exact h.empty c hc

/-- No spaces may stand behind a quoted attribute. -/
theorem Readable.trailing_eq_zero (h : Readable [a] trailing) (ha : a.form = .quoted mark value) : trailing = 0 := by
  cases h.trailing with
  | inl h => exact h
  | inr h =>
    obtain ⟨b, hb, hbare⟩ := h
    rw [List.getLast?_singleton, Option.some.injEq] at hb
    rw [← hb, ha] at hbare
    cases hbare

/-- What a quoted attribute in front needs. -/
theorem readable_quoted_cons (ha : a.form = .quoted mark value) :
    Readable (a :: attrs) trailing ↔
      ((mark = .single → quote ∉ value ∧ ∀ b ∈ attrs, quote ∉ b.form.marked) ∧
        (value = [] → attrs = [] ∧ trailing = 0)) ∧ Readable attrs trailing := by
  constructor
  · intro h
    refine ⟨⟨fun hmark => ?_, fun hvalue => ?_⟩, ?_⟩
    · subst hmark
      exact ⟨h.single a List.mem_cons_self value ha,
        fun b hb => (List.pairwise_cons.1 h.behind).1 b hb value ha⟩
    · cases attrs with
      | nil => exact ⟨rfl, h.trailing_eq_zero ha⟩
      | cons b bs => exact absurd hvalue (h.empty a List.mem_cons_self mark value ha)
    · cases attrs with
      | nil => exact readable_nil.2 (h.trailing_eq_zero ha)
      | cons b bs =>
        exact ⟨fun c hc => h.single c (List.mem_cons_of_mem _ hc), (List.pairwise_cons.1 h.behind).2,
          fun c hc => h.empty c (List.mem_cons_of_mem _ hc), by simpa using h.trailing⟩
  · rintro ⟨⟨hsingle, hempty⟩, h⟩
    refine ⟨fun c hc v hv => ?_, List.pairwise_cons.2 ⟨fun b hb v hv => ?_, h.behind⟩, fun c hc m v hv => ?_, ?_⟩
    · cases List.mem_cons.1 hc with
      | inl heq =>
        rw [heq, ha, Form.quoted.injEq] at hv
        exact hv.2 ▸ (hsingle hv.1).1
      | inr hc => exact h.single c hc v hv
    · rw [ha, Form.quoted.injEq] at hv
      exact (hsingle hv.1).2 b hb
    · cases attrs with
      | nil => cases hc
      | cons b bs =>
        cases List.mem_cons.1 hc with
        | inl heq =>
          rw [heq, ha, Form.quoted.injEq] at hv
          exact fun hnil => absurd (hempty (hv.2.trans hnil)).1 (List.cons_ne_nil b bs)
        | inr hc => exact h.empty c hc m v hv
    · cases attrs with
      | nil => exact Or.inl (readable_nil.1 h)
      | cons b bs => simpa using h.trailing

/-! ## What is written -/

theorem Written.eq_nil_iff (h : Written trailing attrs source) : source = [] ↔ attrs = [] ∧ trailing = 0 := by
  cases h with
  | nil => simp
  | @bare a attrs rest gap ha hsep h => simp [a.name_ne_nil]
  | quoted gap before after ha hsep h => simp

/-- What follows an attribute begins with a space, if there is anything. -/
theorem Written.eq_nil_or_head? (h : Written trailing attrs rest) (hsep : attrs ≠ [] → rest.head? = some space) :
    rest = [] ∨ rest.head? = some space := by
  cases h with
  | nil => cases trailing <;> simp [List.replicate_succ]
  | bare gap ha hsep' h => exact Or.inr (hsep (List.cons_ne_nil _ _))
  | quoted gap before after ha hsep' h => exact Or.inr (hsep (List.cons_ne_nil _ _))

/-- Double quotes stand in the quoted values only. -/
theorem Written.quote_mem_iff (h : Written trailing attrs source) :
    quote ∈ source ↔ ∃ b ∈ attrs, quote ∈ b.form.marked := by
  have hspace := not_mem_replicate quote_ne_space
  induction h with
  | nil => simp [hspace]
  | @bare a attrs rest gap ha hsep h ih => simp [hspace, a.name_free.2.2, ih, ha, Form.marked]
  | @quoted a attrs rest mark value gap before after ha hsep h ih =>
    simp [hspace, a.name_free.2.2, ih, ha, Form.marked, quote_ne_eq, or_assoc]

/-- The bytes that are neither spaces, nor `=`, nor quotes. -/
def letters (s : Str) : Nat := s.countP fun c => c ∉ [space, eq, quote, apostrophe]

theorem letters_append (s t : Str) : letters (s ++ t) = letters s + letters t := List.countP_append

theorem letters_le_of_sublist {s t : Str} (h : s <+ t) : letters s ≤ letters t := h.countP_le

/-- `=` and the marks are none of them. -/
theorem letters_cons {c : UInt8} (hc : c = eq ∨ ∃ mark : Mark, c = mark.byte) (s : Str) :
    letters (c :: s) = letters s := by
  refine List.countP_cons_of_neg ?_
  obtain rfl | ⟨mark, rfl⟩ := hc
  · decide +kernel
  · cases mark <;> decide +kernel

theorem letters_replicate (n : Nat) : letters (.replicate n space) = 0 := by
  rw [letters, List.countP_eq_zero]
  intro c hc
  rw [List.eq_of_mem_replicate hc]
  decide +kernel

/-- A name has letters. -/
theorem Attribute.letters_name_pos (a : Attribute) : 0 < letters a.name := by
  obtain ⟨c, name, hname⟩ := List.exists_cons_of_ne_nil a.name_ne_nil
  have hc : c ∉ [space, eq, quote, apostrophe] := fun hmem => a.name_plain c hmem (hname ▸ List.mem_cons_self)
  rw [letters, List.countP_pos_iff]
  exact ⟨c, hname ▸ List.mem_cons_self, by simpa using hc⟩

/-- The letters of a property. -/
def weight (e : Str × Str) : Nat := letters e.1 + letters e.2

theorem Written.letters_eq (h : Written trailing attrs source) :
    letters source = ((attrs.map Attribute.entry).map weight).sum := by
  have hmark := fun mark : Mark => letters_cons (Or.inr ⟨mark, rfl⟩)
  have heq := letters_cons (Or.inl rfl)
  have hnil : letters [] = 0 := rfl
  induction h with
  | nil => rw [letters_replicate]; rfl
  | @bare a attrs rest gap ha hsep h ih =>
    simp only [letters_append, letters_replicate, ih, List.map_cons, List.sum_cons, weight, Attribute.entry, ha,
      Form.value, hnil]
    omega
  | @quoted a attrs rest mark value gap before after ha hsep h ih =>
    simp only [letters_append, letters_replicate, ih, List.map_cons, List.sum_cons, weight, Attribute.entry, ha,
      Form.value, hmark, heq]
    omega

/-! ## A value -/

/-- Where the value of a quoted attribute begins. -/
theorem frontStrip_value (mark : Mark) (after : Nat) (t : Str) :
    frontStrip (frontStrip (eq :: (.replicate after space ++ mark.byte :: t)) eq) space = mark.byte :: t := by
  have hhead : (List.replicate after space ++ mark.byte :: t).head? ≠ some eq := by
    cases after with
    | zero => exact fun h => mark.byte_ne.1 (Option.some.inj h)
    | succ n => exact fun h => eq_ne_space (Option.some.inj h).symm
  rw [frontStrip_cons_self, frontStrip_of_head? hhead, frontStrip_replicate_append,
    frontStrip_cons_of_ne t mark.byte_ne.2]

/-- If a double quote is left, the value ends before one, and the rest stands behind one. -/
theorem propertyValue_of_quote_mem {s t : Str} (ht : frontStrip (frontStrip s eq) space = t) (h : quote ∈ t) :
    quote ∉ (propertyValue s).1 ∧ (propertyValue s).2 <:+ (t.frontSplit quote).2 := by
  have hcut : (t.frontSplit quote).2 ≠ [] := fun hnil => frontSplit_snd_eq_nil.1 hnil h
  unfold propertyValue
  simp only [ht, hcut, if_false]
  exact ⟨not_mem_frontSplit _ _,
    (frontStrip_suffix _ quote).trans ((frontSplit_snd_suffix _ quote).trans (frontStrip_suffix _ quote))⟩

/-- A quoted value in front of `rest` is taken out by its own quotes. -/
theorem frontSplit_marked {c : UInt8} (hvalue : c ∉ value) (hne : value ≠ [])
    (hrest : rest = [] ∨ rest.head? = some space)
    (hc : c ≠ space) :
    ((frontStrip (c :: (value ++ c :: rest)) c).frontSplit c).1 = value ∧
      ((frontStrip (c :: (value ++ c :: rest)) c).frontSplit c).2.frontStrip c = rest := by
  have hhead : rest.head? ≠ some c := by
    cases hrest with
    | inl h => simp [h]
    | inr h => simpa [h] using hc.symm
  rw [frontStrip_cons_self, frontStrip_append hne hvalue, frontSplit_append hvalue, frontStrip_cons_self,
    frontStrip_of_head? hhead]
  exact ⟨rfl, rfl⟩

/-- A value that is read back: what is looked for in front of its closing quote is not there. -/
theorem propertyValue_quoted (hvalue : mark.byte ∉ value) (hrest : rest = [] ∨ rest.head? = some space)
    (hsingle : mark = .single → quote ∉ value ∧ quote ∉ rest) (hempty : value = [] → rest = []) (after : Nat) :
    propertyValue (eq :: (.replicate after space ++ mark.byte :: (value ++ mark.byte :: rest))) = (value, rest) := by
  have hstrip := frontStrip_value mark after (value ++ mark.byte :: rest)
  unfold propertyValue
  simp only [hstrip]
  by_cases hne : value = []
  · rw [hne, hempty hne]
    cases mark <;> decide
  · cases mark with
    | double =>
      obtain ⟨hfst, hsnd⟩ := frontSplit_marked hvalue hne hrest quote_ne_space
      simp only [Mark.byte, frontSplit_cons_self, List.cons_ne_nil, if_false] at hfst hsnd ⊢
      rw [hfst, hsnd]
    | single =>
      obtain ⟨hfst, hsnd⟩ := frontSplit_marked hvalue hne hrest apostrophe_ne_space
      have hquote : quote ∉ apostrophe :: (value ++ apostrophe :: rest) := by simp [quote_ne_apostrophe, hsingle rfl]
      simp only [Mark.byte, frontSplit_of_not_mem hquote, frontSplit_cons_self, List.cons_ne_nil, if_true, ne_eq,
        not_false_eq_true] at hfst hsnd ⊢
      rw [hfst, hsnd]

/-- An empty value in front of something takes bytes from what follows. -/
theorem propertyValue_empty (hrest : rest.head? = some space) (hsingle : mark = .single → quote ∉ rest) (after : Nat) :
    (propertyValue (eq :: (.replicate after space ++ mark.byte :: mark.byte :: rest))).1 ≠ [] := by
  have hstrip := frontStrip_value mark after (mark.byte :: rest)
  obtain ⟨t, rfl⟩ : ∃ t, rest = space :: t := by
    cases rest with
    | nil => cases hrest
    | cons c t => exact ⟨t, by rw [Option.some.inj hrest]⟩
  have hspace : ∀ c, c ≠ space →
      ((frontStrip (c :: c :: space :: t) c).frontSplit c).1 = space :: (frontSplit t c).1 := by
    intro c hc
    have hsplit := frontSplit_append_of_not_mem (s := [space]) (c := c) (by simpa using hc) t
    rw [frontStrip_cons_self, frontStrip_cons_self, frontStrip_cons_of_ne t hc.symm]
    exact congrArg Prod.fst hsplit
  unfold propertyValue
  simp only [hstrip]
  cases mark with
  | double =>
    simp only [Mark.byte, frontSplit_cons_self, List.cons_ne_nil, if_false, hspace quote quote_ne_space]
    exact List.cons_ne_nil _ _
  | single =>
    have hquote : quote ∉ apostrophe :: apostrophe :: space :: t := by
      rw [List.mem_cons, List.mem_cons, not_or, not_or]
      exact ⟨quote_ne_apostrophe, quote_ne_apostrophe, hsingle rfl⟩
    simp only [Mark.byte, frontSplit_of_not_mem hquote, frontSplit_cons_self, List.cons_ne_nil, if_true, ne_eq,
      not_false_eq_true, hspace apostrophe apostrophe_ne_space]

/-! ## One round -/

/-- No `=` stands in a name or in the spaces behind it. -/
theorem Attribute.eq_not_mem (a : Attribute) (n : Nat) : eq ∉ a.name ++ List.replicate n space := by
  rw [List.mem_append, not_or]
  exact ⟨a.name_free.2.1, not_mem_replicate eq_ne_space n⟩

/-- Spaces alone give a property without a name. -/
theorem nextProperty_spaces (tag : Tag) (n : Nat) :
    nextProperty tag (.replicate n space) = .ok (tag.setProperty [] [], []) := by
  have hstrip : frontStrip (.replicate n space) space = [] := by
    have := frontStrip_replicate_append n space []
    rwa [List.append_nil] at this
  rw [nextProperty, hstrip]
  rfl

/-- A bare name at the end is read with the spaces behind it. -/
theorem nextProperty_last (tag : Tag) (a : Attribute) (gap n : Nat) :
    nextProperty tag (.replicate gap space ++ (a.name ++ .replicate n space)) =
      .ok (tag.setProperty a.name [], []) := by
  obtain ⟨hspace, -, -⟩ := a.name_free
  have heq := a.eq_not_mem n
  have hlast : a.name.getLast? ≠ some space := fun h => hspace (List.mem_of_getLast? h)
  rw [nextProperty, a.frontStrip_name, frontSplit_of_not_mem heq, endStrip_append_replicate a.name_ne_nil hlast]
  simp only [bind, Except.bind, frontSplit_of_not_mem hspace, ne_eq, not_true_eq_false, if_false]
  rfl

/-- A bare name in front of others is read, and the spaces in front of the next `=` are gone. -/
theorem nextProperty_bare (tag : Tag) (a : Attribute) (gap n : Nat) {s t : Str}
    (hcut : (s ++ (.replicate n space ++ t)).frontSplit eq = (s ++ .replicate n space, t))
    (hhead : s.head? = some space)
    (hlast : s.getLast? ≠ some space) :
    nextProperty tag (.replicate gap space ++ (a.name ++ (s ++ (.replicate n space ++ t)))) =
      .ok (tag.setProperty a.name [], s ++ t) := by
  obtain ⟨hspace, heq, -⟩ := a.name_free
  obtain ⟨s, rfl⟩ : ∃ u, s = space :: u := by
    cases s with
    | nil => cases hhead
    | cons c u => exact ⟨u, by rw [Option.some.inj hhead]⟩
  have hne : a.name ++ space :: s ≠ [] := by simp
  have hlast' : (a.name ++ space :: s).getLast? ≠ some space := by
    rwa [List.getLast?_append_of_ne_nil _ (List.cons_ne_nil space s)]
  rw [nextProperty, a.frontStrip_name, frontSplit_append_of_not_mem heq, hcut]
  simp only [← List.append_assoc]
  rw [endStrip_append_replicate hne hlast']
  simp only [bind, Except.bind, frontSplit_append hspace, ne_eq, List.cons_ne_nil, not_false_eq_true, if_true]
  rfl

/-- A quoted attribute gives what `propertyValue` finds. -/
theorem nextProperty_quoted (tag : Tag) (a : Attribute) (gap before : Nat) (t : Str) :
    nextProperty tag (.replicate gap space ++ (a.name ++ (.replicate before space ++ eq :: t))) =
      .ok (tag.setProperty a.name (propertyValue (eq :: t)).1, (propertyValue (eq :: t)).2) := by
  obtain ⟨hspace, -, -⟩ := a.name_free
  have heq := a.eq_not_mem before
  have hlast : a.name.getLast? ≠ some space := fun h => hspace (List.mem_of_getLast? h)
  rw [nextProperty, a.frontStrip_name, ← List.append_assoc, frontSplit_append heq,
    endStrip_append_replicate a.name_ne_nil hlast]
  simp only [bind, Except.bind, frontSplit_of_not_mem hspace, ne_eq, not_true_eq_false, if_false, List.cons_ne_nil,
    not_false_eq_true, if_true]
  rfl

/-- **The spaces in front of the first `=`**, or at the end if there is none, can be left out. -/
theorem Written.settle (h : Written trailing attrs source) (hne : attrs ≠ []) :
    ∃ s n u trailing', source = s ++ (.replicate n space ++ u) ∧ source.frontSplit eq = (s ++ .replicate n space, u) ∧
      s ≠ [] ∧ s.getLast? ≠ some space ∧ Written trailing' attrs (s ++ u) ∧
      (Readable attrs trailing' ↔ Readable attrs trailing) := by
  have hplain : ∀ (a : Attribute) (n : Nat), eq ∉ List.replicate n space ++ a.name := by
    intro a n
    rw [List.mem_append, not_or]
    exact ⟨not_mem_replicate eq_ne_space n, a.name_free.2.1⟩
  have hcut : ∀ (a : Attribute) (n m : Nat), eq ∉ List.replicate n space ++ a.name ++ List.replicate m space := by
    intro a n m
    rw [List.mem_append, not_or]
    exact ⟨hplain a n, not_mem_replicate eq_ne_space m⟩
  have hlast : ∀ (a : Attribute) (n : Nat), (List.replicate n space ++ a.name).getLast? ≠ some space := by
    intro a n heq
    rw [List.getLast?_append_of_ne_nil _ a.name_ne_nil] at heq
    exact a.name_free.1 (List.mem_of_getLast? heq)
  induction h with
  | nil => exact absurd rfl hne
  | @bare a attrs rest gap ha hsep h ih =>
    by_cases hattrs : attrs = []
    · subst hattrs
      cases h with
      | nil =>
        refine ⟨.replicate gap space ++ a.name, trailing, [], 0, by simp, ?_, by simp [a.name_ne_nil], hlast a gap,
          ?_, ?_⟩
        · rw [← List.append_assoc, frontSplit_of_not_mem (hcut a gap trailing)]
        · simpa using Written.bare gap ha (absurd rfl) (Written.nil : Written 0 [] (.replicate 0 space))
        · exact iff_of_true (readable_bare_singleton ha) (readable_bare_singleton ha)
    · obtain ⟨s, n, u, trailing', rfl, hsplit, hs, hslast, hw, hiff⟩ := ih hattrs
      have hhead : (s ++ u).head? = some space := by
        have := hsep hattrs
        rw [List.head?_append_of_ne_nil s hs] at this ⊢
        exact this
      refine ⟨.replicate gap space ++ (a.name ++ s), n, u, trailing', by simp, ?_, by simp [a.name_ne_nil], ?_, ?_, ?_⟩
      · rw [← List.append_assoc, frontSplit_append_of_not_mem (hplain a gap), hsplit]
        simp
      · rwa [← List.append_assoc, List.getLast?_append_of_ne_nil _ hs]
      · simpa using Written.bare gap ha (fun _ => hhead) hw
      · rw [readable_bare_cons ha hattrs, readable_bare_cons ha hattrs, hiff]
  | @quoted a attrs rest mark value gap before after ha hsep h ih =>
    refine ⟨.replicate gap space ++ a.name, before,
      eq :: (.replicate after space ++ mark.byte :: (value ++ mark.byte :: rest)), trailing, by simp, ?_,
      by simp [a.name_ne_nil], hlast a gap, ?_, Iff.rfl⟩
    · rw [← List.append_assoc, ← List.append_assoc, frontSplit_append (hcut a gap before)]
    · simpa using Written.quoted gap 0 after ha hsep h

/-! ## All rounds -/

/-- **What has been taken is gone**: properties that are stored in the end and were not there before have no more
letters than the source. -/
theorem sum_weight_le {fuel : Nat} {tag tag' : Tag} (h : setProperty fuel tag source = .ok tag') {es : List (Str × Str)}
    (hnodup : es.Nodup) (hstored : ∀ e ∈ es, e ∈ tag'.propertys.entries) (hnew : ∀ e ∈ es, e ∉ tag.propertys.entries) :
    (es.map weight).sum ≤ letters source := by
  have hnil : ∀ {s : Str} {es : List (Str × Str)}, (∀ e ∈ es, e ∈ tag'.propertys.entries) →
      (∀ e ∈ es, e ∉ tag'.propertys.entries) → (es.map weight).sum ≤ letters s := by
    intro s es hstored hnew
    cases es with
    | nil => exact Nat.zero_le _
    | cons e es => exact absurd (hstored e List.mem_cons_self) (hnew e List.mem_cons_self)
  induction fuel generalizing tag source es with
  | zero =>
    rw [setProperty] at h
    split at h
    · cases h
    · cases h
      exact hnil hstored hnew
  | succ fuel ih =>
    rw [setProperty] at h
    split at h
    · rename_i hne
      obtain ⟨name, value, rest, hnext, -, hsub⟩ := nextProperty_cases tag hne
      rw [hnext] at h
      have hletters := letters_le_of_sublist hsub
      rw [letters_append, letters_append] at hletters
      -- the round stores one of the properties, or none of them
      have hle : ((es.erase (name, value)).map weight).sum ≤ letters rest := by
        refine ih h (hnodup.erase _) (fun e he => hstored e (List.mem_of_mem_erase he)) fun e he hmem => ?_
        rw [hnodup.mem_erase_iff] at he
        cases OrderedMap.mem_insert.1 hmem with
        | inl heq => exact he.1 heq
        | inr hold => exact hnew e he.2 hold.1
      by_cases hmem : (name, value) ∈ es
      · have hsum := ((List.perm_cons_erase hmem).map weight).sum_eq
        rw [List.map_cons, List.sum_cons] at hsum
        have hweight : weight (name, value) = letters name + letters value := rfl
        omega
      · rw [List.erase_of_not_mem hmem] at hle
        omega
    · cases h
      exact hnil hstored hnew

/-- `setProperty` adds the attributes to the tag, and nothing else. -/
def Adds (fuel : Nat) (tag : Tag) (source : Str) (attrs : List Attribute) : Prop :=
  ∃ tag', setProperty fuel tag source = .ok tag' ∧
    ∀ e, e ∈ tag'.propertys.entries ↔ e ∈ tag.propertys.entries ∨ e ∈ attrs.map Attribute.entry

section Rounds

variable {fuel : Nat} {tag tag' : Tag}

/-- A round that stores an attribute. -/
theorem adds_cons (hne : source ≠ [])
    (hnext : nextProperty tag source = .ok (tag.setProperty a.name a.form.value, rest))
    (hfresh : ∀ e ∈ tag.propertys.entries, e.1 ≠ a.name) :
    Adds (fuel + 1) tag source (a :: attrs) ↔ Adds fuel (tag.setProperty a.name a.form.value) rest attrs := by
  have hentries : ∀ e, (e ∈ (tag.setProperty a.name a.form.value).propertys.entries ∨ e ∈ attrs.map Attribute.entry) ↔
      (e ∈ tag.propertys.entries ∨ e ∈ (a :: attrs).map Attribute.entry) := by
    intro e
    have hset : e ∈ (tag.setProperty a.name a.form.value).propertys.entries ↔ e = a.entry ∨ e ∈ tag.propertys.entries :=
      OrderedMap.mem_insert.trans (or_congr_right ⟨And.left, fun h => ⟨h, hfresh e h⟩⟩)
    rw [hset, List.map_cons, List.mem_cons, or_assoc, or_left_comm]
  unfold Adds
  rw [setProperty, if_pos hne, hnext]
  simp only [hentries]
  rfl

/-- A round after which the source has too few letters for what is missing. -/
theorem not_adds (hne : source ≠ []) (hnext : nextProperty tag source = .ok (tag', rest)) {es : List (Str × Str)}
    (hnodup : es.Nodup) (hes : ∀ e ∈ es, e ∈ attrs.map Attribute.entry) (hnew : ∀ e ∈ es, e ∉ tag'.propertys.entries)
    (hshort : letters rest < (es.map weight).sum) : ¬Adds (fuel + 1) tag source attrs := by
  rintro ⟨t, ht, hentries⟩
  rw [setProperty, if_pos hne, hnext] at ht
  have hle : (es.map weight).sum ≤ letters rest :=
    sum_weight_le ht hnodup (fun e he => (hentries e).2 (Or.inr (hes e he))) hnew
  omega

theorem nodup_entries (h : (attrs.map Attribute.name).Nodup) : (attrs.map Attribute.entry).Nodup := by
  refine List.Nodup.of_map Prod.fst ?_
  rw [List.map_map]
  exact h

/-- A wrong value: then all attributes are still missing. -/
theorem not_adds_of_ne {gap before : Nat} {t : Str}
    (hw : Written trailing (a :: attrs) (.replicate gap space ++ (a.name ++ (.replicate before space ++ eq :: t))))
    (hnodup : ((a :: attrs).map Attribute.name).Nodup)
    (hfresh : ∀ e ∈ tag.propertys.entries, ∀ b ∈ a :: attrs, e.1 ≠ b.name)
    (hvalue : (propertyValue (eq :: t)).1 ≠ a.form.value) :
    ¬Adds (fuel + 1) tag (.replicate gap space ++ (a.name ++ (.replicate before space ++ eq :: t))) (a :: attrs) := by
  refine not_adds (by simp) (nextProperty_quoted tag a gap before t) (nodup_entries hnodup) (fun e he => he) ?_ ?_
  · intro e he hmem
    obtain ⟨b, hb, rfl⟩ := List.mem_map.1 he
    cases OrderedMap.mem_insert.1 hmem with
    | inl heq =>
      obtain ⟨hname, hval⟩ := Prod.mk.inj heq
      cases List.mem_cons.1 hb with
      | inl hba => exact hvalue (hba ▸ hval.symm)
      | inr hb => exact (List.nodup_cons.1 hnodup).1 (hname ▸ List.mem_map_of_mem hb)
    | inr hold => exact hfresh _ hold.1 b hb rfl
  · have hletters := hw.letters_eq
    have heq := letters_cons (Or.inl rfl) t
    have hsub := letters_le_of_sublist (propertyValue_sublist t)
    have hpos := a.letters_name_pos
    simp only [letters_append, letters_replicate, heq] at hletters hsub
    omega

/-- What is looked for is behind the name of the next attribute: then that name is gone. -/
theorem not_adds_of_short {gap before after : Nat} (hvalue : quote ∉ value) (hw : Written trailing attrs rest)
    (hquote : quote ∈ rest) (hnodup : ((a :: attrs).map Attribute.name).Nodup)
    (hfresh : ∀ e ∈ tag.propertys.entries, ∀ b ∈ a :: attrs, e.1 ≠ b.name) :
    ¬Adds (fuel + 1) tag (.replicate gap space ++ (a.name ++ (.replicate before space ++
      eq :: (.replicate after space ++ Mark.single.byte :: (value ++ Mark.single.byte :: rest))))) (a :: attrs) := by
  have hletters := hw.letters_eq
  have hnodup' := List.nodup_cons.1 hnodup
  have hstrip := frontStrip_value .single after (value ++ Mark.single.byte :: rest)
  have hrest := (propertyValue_of_quote_mem hstrip (by simp [hquote])).2
  refine not_adds (by simp) (nextProperty_quoted tag a gap before _) (nodup_entries hnodup'.2)
    (fun e he => List.mem_cons_of_mem _ he) ?_ ?_
  · intro e he hmem
    obtain ⟨b, hb, rfl⟩ := List.mem_map.1 he
    cases OrderedMap.mem_insert.1 hmem with
    | inl heq => exact hnodup'.1 ((Prod.mk.inj heq).1 ▸ List.mem_map_of_mem hb)
    | inr hold => exact hfresh _ hold.1 b (List.mem_cons_of_mem _ hb) rfl
  · obtain ⟨b, n, more, rfl⟩ : ∃ (b : Attribute) (n : Nat) (more : Str),
        rest = List.replicate n space ++ b.name ++ more := by
      cases hw with
      | nil => exact absurd hquote (not_mem_replicate quote_ne_space _)
      | bare n ha hsep h => exact ⟨_, n, _, (List.append_assoc _ _ _).symm⟩
      | quoted n before after ha hsep h => exact ⟨_, n, _, (List.append_assoc _ _ _).symm⟩
    have hfront : quote ∉ Mark.single.byte :: (value ++ Mark.single.byte :: (List.replicate n space ++ b.name)) := by
      simp [Mark.byte, quote_ne_apostrophe, hvalue, not_mem_replicate quote_ne_space, b.name_free.2.2]
    have hcut := frontSplit_append_of_not_mem hfront more
    have hsource : Mark.single.byte :: (value ++ Mark.single.byte :: (List.replicate n space ++ b.name)) ++ more =
        Mark.single.byte :: (value ++ Mark.single.byte :: (List.replicate n space ++ b.name ++ more)) := by simp
    rw [hsource] at hcut
    rw [hcut] at hrest
    have hle := letters_le_of_sublist (hrest.sublist.trans (frontSplit_snd_suffix more quote).sublist)
    have hpos := b.letters_name_pos
    simp only [letters_append, letters_replicate] at hletters
    omega

/-- **A quoted attribute that is read wrongly stays wrong.** -/
theorem not_adds_quoted {gap before after : Nat} (ha : a.form = .quoted mark value) (hw : Written trailing attrs rest)
    (hsep : attrs ≠ [] → rest.head? = some space) (hnodup : ((a :: attrs).map Attribute.name).Nodup)
    (hfresh : ∀ e ∈ tag.propertys.entries, ∀ b ∈ a :: attrs, e.1 ≠ b.name)
    (hbad : ¬((mark = .single → quote ∉ value ∧ quote ∉ rest) ∧ (value = [] → rest = []))) :
    ¬Adds (fuel + 1) tag (.replicate gap space ++ (a.name ++ (.replicate before space ++
      eq :: (.replicate after space ++ mark.byte :: (value ++ mark.byte :: rest))))) (a :: attrs) := by
  have hwritten := Written.quoted gap before after ha hsep hw
  have hstrip := frontStrip_value mark after (value ++ mark.byte :: rest)
  have hvalue : a.form.value = value := by rw [ha]; rfl
  by_cases hsingle : mark = .single → quote ∉ value ∧ quote ∉ rest
  · -- an empty value in front of something
    obtain ⟨hnil, hrest⟩ := Classical.not_imp.1 fun hempty => hbad ⟨hsingle, hempty⟩
    refine not_adds_of_ne hwritten hnodup hfresh ?_
    rw [hvalue, hnil]
    exact propertyValue_empty ((hw.eq_nil_or_head? hsep).resolve_left hrest) (fun hmark => (hsingle hmark).2) after
  · obtain ⟨rfl, hmem⟩ := Classical.not_imp.1 hsingle
    by_cases hquote : quote ∈ value
    · -- the value has a double quote, and what is read has none
      refine not_adds_of_ne hwritten hnodup hfresh fun heq => ?_
      have hnot := (propertyValue_of_quote_mem hstrip (by simp [hquote])).1
      rw [heq, hvalue] at hnot
      exact hnot hquote
    · exact not_adds_of_short hquote hw (not_not.1 fun hrest => hmem ⟨hquote, hrest⟩) hnodup hfresh

theorem setProperty_nil (fuel : Nat) (tag : Tag) : setProperty fuel tag [] = .ok tag := by
  cases fuel <;> rfl

/-- A tag that has been given an attribute has none of the names that follow. -/
theorem fresh_setProperty (hnodup : ((a :: attrs).map Attribute.name).Nodup)
    (hfresh : ∀ e ∈ tag.propertys.entries, e.1 ≠ [] ∧ ∀ b ∈ a :: attrs, e.1 ≠ b.name) (v : Str) :
    ∀ e ∈ (tag.setProperty a.name v).propertys.entries, e.1 ≠ [] ∧ ∀ b ∈ attrs, e.1 ≠ b.name := by
  intro e he
  cases OrderedMap.mem_insert.1 he with
  | inl heq =>
    rw [heq]
    exact ⟨a.name_ne_nil, fun b hb hname => (List.nodup_cons.1 hnodup).1 (List.mem_map.2 ⟨b, hb, hname.symm⟩)⟩
  | inr hold => exact ⟨(hfresh e hold.1).1, fun b hb => (hfresh e hold.1).2 b (List.mem_cons_of_mem _ hb)⟩

/-- Spaces alone add nothing, unless there are some: then they add a property without a name. -/
theorem adds_nil_iff (hfuel : trailing ≤ fuel) (hfresh : ∀ e ∈ tag.propertys.entries, e.1 ≠ []) :
    Adds fuel tag (.replicate trailing space) [] ↔ trailing = 0 := by
  cases trailing with
  | zero => exact iff_of_true ⟨tag, setProperty_nil fuel tag, by simp⟩ rfl
  | succ n =>
    cases fuel with
    | zero => exact absurd hfuel (Nat.not_succ_le_zero _)
    | succ fuel =>
      refine iff_of_false ?_ (Nat.succ_ne_zero n)
      rintro ⟨t, ht, hentries⟩
      rw [setProperty, if_pos (by simp), nextProperty_spaces] at ht
      have hset : t = tag.setProperty [] [] := Except.ok.inj (ht.symm.trans (setProperty_nil fuel _))
      have hmem : ([], []) ∈ t.propertys.entries := hset ▸ OrderedMap.mem_insert.2 (Or.inl rfl)
      exact hfresh _ (((hentries _).1 hmem).resolve_right List.not_mem_nil) rfl

/-- The attributes are added to a tag that has none of them exactly if they can be read back. -/
theorem adds_iff (hw : Written trailing attrs source) (hnodup : (attrs.map Attribute.name).Nodup)
    (hfuel : source.length ≤ fuel) (hfresh : ∀ e ∈ tag.propertys.entries, e.1 ≠ [] ∧ ∀ b ∈ attrs, e.1 ≠ b.name) :
    Adds fuel tag source attrs ↔ Readable attrs trailing := by
  induction attrs generalizing trailing source fuel tag with
  | nil =>
    cases hw with
    | nil =>
      rw [readable_nil]
      rw [List.length_replicate] at hfuel
      exact adds_nil_iff hfuel fun e he => (hfresh e he).1
  | cons a attrs ih =>
    have hname : ∀ e ∈ tag.propertys.entries, e.1 ≠ a.name := fun e he => (hfresh e he).2 a List.mem_cons_self
    have hnodup' := (List.nodup_cons.1 hnodup).2
    have hpos := List.length_pos_of_ne_nil a.name_ne_nil
    obtain ⟨fuel, rfl⟩ : ∃ n, fuel = n + 1 := by
      have hne : source.length ≠ 0 :=
        fun h => absurd (hw.eq_nil_iff.1 (List.length_eq_zero_iff.1 h)).1 (List.cons_ne_nil _ _)
      exact ⟨fuel - 1, by omega⟩
    cases hw with
    | @bare a attrs rest gap ha hsep h =>
      have hvalue : a.form.value = [] := by rw [ha]; rfl
      by_cases hattrs : attrs = []
      · subst hattrs
        cases h with
        | nil =>
          have hnext : nextProperty tag (.replicate gap space ++ (a.name ++ .replicate trailing space)) =
              .ok (tag.setProperty a.name a.form.value, []) := by
            rw [hvalue]
            exact nextProperty_last tag a gap trailing
          rw [adds_cons (by simp [a.name_ne_nil]) hnext hname]
          exact iff_of_true ⟨_, setProperty_nil fuel _, by simp⟩ (readable_bare_singleton ha)
      · obtain ⟨s, n, u, trailing', rfl, hcut, hs, hlast, hw', hiff⟩ := h.settle hattrs
        have hhead : s.head? = some space := by
          rw [← List.head?_append_of_ne_nil s hs]
          exact hsep hattrs
        have hnext : nextProperty tag (.replicate gap space ++ (a.name ++ (s ++ (.replicate n space ++ u)))) =
            .ok (tag.setProperty a.name a.form.value, s ++ u) := by
          rw [hvalue]
          exact nextProperty_bare tag a gap n hcut hhead hlast
        simp only [List.length_append] at hfuel
        rw [adds_cons (by simp [a.name_ne_nil]) hnext hname,
          ih hw' hnodup' (by rw [List.length_append]; omega) (fresh_setProperty hnodup hfresh _), hiff,
          readable_bare_cons ha hattrs]
    | @quoted a attrs rest mark value gap before after ha hsep h =>
      have hvalue : a.form.value = value := by rw [ha]; rfl
      have hquote : (∀ b ∈ attrs, quote ∉ b.form.marked) ↔ quote ∉ rest := by
        rw [h.quote_mem_iff]
        exact ⟨fun hnone hsome => hsome.elim fun b hb => hnone b hb.1 hb.2, fun hnone b hb hmem => hnone ⟨b, hb, hmem⟩⟩
      rw [readable_quoted_cons ha, hquote, ← h.eq_nil_iff]
      by_cases hgood : (mark = .single → quote ∉ value ∧ quote ∉ rest) ∧ (value = [] → rest = [])
      · have hnext : nextProperty tag (.replicate gap space ++ (a.name ++ (.replicate before space ++
            eq :: (.replicate after space ++ mark.byte :: (value ++ mark.byte :: rest))))) =
            .ok (tag.setProperty a.name a.form.value, rest) := by
          rw [nextProperty_quoted, propertyValue_quoted (a.value_plain mark value ha) (h.eq_nil_or_head? hsep) hgood.1
            hgood.2 after, hvalue]
        simp only [List.length_append, List.length_cons] at hfuel
        rw [adds_cons (by simp) hnext hname, ih h hnodup' (by omega) (fresh_setProperty hnodup hfresh _),
          and_iff_right hgood]
      · exact iff_of_false (not_adds_quoted ha h hsep hnodup (fun e he => (hfresh e he).2) hgood) fun h => hgood h.1

/-- Properties are all that is set. -/
theorem setProperty_frame (h : setProperty fuel tag source = .ok tag') :
    tag'.name = tag.name ∧ tag'.text = tag.text := by
  induction fuel generalizing tag source with
  | zero =>
    rw [setProperty] at h
    split at h
    · cases h
    · cases h
      exact ⟨rfl, rfl⟩
  | succ fuel ih =>
    rw [setProperty] at h
    split at h
    · rename_i hne
      obtain ⟨name, value, rest, hnext, -⟩ := nextProperty_cases tag hne
      rw [hnext] at h
      have hframe : tag'.name = (tag.setProperty name value).name ∧ tag'.text = (tag.setProperty name value).text :=
        ih h
      exact hframe
    · cases h
      exact ⟨rfl, rfl⟩

/-- **The grammar of attributes**: into a tag without properties `setProperty` stores exactly the attributes that are
written if and only if they can be read back. -/
theorem setProperty_iff (hw : Written trailing attrs source) (hnodup : (attrs.map Attribute.name).Nodup)
    (hfuel : source.length ≤ fuel) (htag : tag.propertys = .empty) :
    Stores fuel tag source attrs ↔ Readable attrs trailing := by
  have hnone : ∀ e, e ∉ tag.propertys.entries := by
    rw [htag]
    exact fun e => List.not_mem_nil
  have hadds : Adds fuel tag source attrs ↔ Readable attrs trailing :=
    adds_iff hw hnodup hfuel fun e he => absurd he (hnone e)
  rw [← hadds]
  constructor
  · rintro ⟨tag', hset, -, -, hentries⟩
    exact ⟨tag', hset, fun e => (hentries e).trans (or_iff_right (hnone e)).symm⟩
  · rintro ⟨tag', hset, hentries⟩
    obtain ⟨hname, htext⟩ := setProperty_frame hset
    exact ⟨tag', hset, hname, htext, fun e => (hentries e).trans (or_iff_right (hnone e))⟩

end Rounds

theorem plain_singleton {c d : UInt8} (hd : d ∉ [space, eq, quote, apostrophe])
    (h : c ∈ [space, eq, quote, apostrophe]) :
    c ∉ [d] := fun hmem => hd (List.mem_singleton.1 hmem ▸ h)

/-- `a='v'`. -/
def singleQuoted : Attribute where
  name := [0x61]
  form := .quoted .single [0x76]
  name_ne_nil := List.cons_ne_nil _ _
  name_plain _ := plain_singleton (by decide +kernel)
  value_plain := by
    rintro _ _ ⟨⟩
    decide

/-- `b="w"`. -/
def doubleQuoted : Attribute where
  name := [0x62]
  form := .quoted .double [0x77]
  name_ne_nil := List.cons_ne_nil _ _
  name_plain _ := plain_singleton (by decide +kernel)
  value_plain := by
    rintro _ _ ⟨⟩
    decide

/-- In `a='v' b="w"` the attribute in single quotes gets the value of the other one, which is not stored. -/
theorem not_stores_mixed : ∃ source, Written 0 [singleQuoted, doubleQuoted] source ∧
    ([singleQuoted, doubleQuoted].map Attribute.name).Nodup ∧ ¬Stores 100 .new source [singleQuoted, doubleQuoted] := by
  have hb : Written 0 [doubleQuoted] _ := .quoted 1 0 0 rfl (absurd rfl) .nil
  refine ⟨_, .quoted 0 0 0 rfl (fun _ => rfl) hb, by decide, ?_⟩
  rintro ⟨tag, htag, -, -, hentries⟩
  have hset : (Tag.new.setProperty [0x61] [0x77]) = tag := Except.ok.inj (Eq.trans (by decide +kernel) htag)
  have hmem := (hentries ([0x62], [0x77])).2 (by decide)
  rw [← hset] at hmem
  exact absurd hmem (by decide)

/-- The other way round they are read back: `b="w" a='v'`. -/
theorem setProperty_iff_mixed : ∃ source, Written 0 [doubleQuoted, singleQuoted] source ∧
    (Stores 100 .new source [doubleQuoted, singleQuoted] ↔ Readable [doubleQuoted, singleQuoted] 0) := by
  have ha : Written 0 [singleQuoted] _ := .quoted 1 0 0 rfl (absurd rfl) .nil
  exact ⟨_, .quoted 0 0 0 rfl (fun _ => rfl) ha,
    setProperty_iff (.quoted 0 0 0 rfl (fun _ => rfl) ha) (by decide) (by decide) rfl⟩

end XML

end LeftFelt
