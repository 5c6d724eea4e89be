import LeftFelt.Base.Tag

/-!
# Reading tags

The class `XML`: `Create` cuts a string into tags, `setTag` and `setProperty` read one tag.

`create_render` is the round trip: the tags that `Tag::Create` prints are read again, with their names and properties.
-/

namespace LeftFelt

open Lib Str

namespace XML

/-- The value of a property, and what follows it, where `source` begins with `=`. -/
def propertyValue (source : Str) : Str × Str :=
  let source := (source.frontStrip eq).frontStrip space
  let result := source.frontSplit quote
  if result.2 = [] then
    let result := source.frontSplit apostrophe
    if result.2 ≠ [] then
      -- in single quotes
      let result := (result.2.frontStrip apostrophe).frontSplit apostrophe
      (result.1, result.2.frontStrip apostrophe)
    else result
  else
    -- in double quotes
    let result := (result.2.frontStrip quote).frontSplit quote
    (result.1, result.2.frontStrip quote)

/-- The body of the loop of `setProperty`: the tag, and the source that is left. -/
def nextProperty (tag : Tag) (source : Str) : Except Stop (Tag × Str) := do
  let result := (source.frontStrip space).frontSplit eq
  let source := result.2
  let name ← result.1.endStrip space
  let result := name.frontSplit space
  if result.2 ≠ [] then
    return (tag.setProperty result.1 [], result.2 ++ source)
  let value := if source ≠ [] then propertyValue source else ([], source)
  return (tag.setProperty result.1 value.1, value.2)

/-- `setProperty(tag, source)`, at most `fuel` rounds of the loop. -/
def setProperty : Nat → Tag → Str → Except Stop Tag
  | 0, tag, source => if source ≠ [] then .error .outOfFuel else .ok tag
  | fuel + 1, tag, source =>
    if source ≠ [] then do
      let next ← nextProperty tag source
      setProperty fuel next.1 next.2
    else .ok tag

/-- `setTag(tag, source)`: `source` stands between the angle brackets. -/
def setTag (fuel : Nat) (tag : Tag) (source : Str) : Except Stop Tag :=
  let sourceList := (source.frontStrip space).frontSplit space
  setProperty fuel (tag.setName sourceList.1) sourceList.2

/-- The variables of `Create`. -/
structure Reader where
  tag : Tag
  data : Str
  tagList : List Tag

/-- The loop of `Create`, for one byte. -/
def readByte (fuel : Nat) (s : Reader) (c : UInt8) : Except Stop Reader :=
  if c = lt then
    if s.data ≠ [] then .ok ⟨.new, [], s.tagList ++ [s.tag.setText s.data]⟩ else .ok s
  else if c = gt then
    if s.data ≠ [] then do
      let tag ← setTag fuel s.tag s.data
      return ⟨.new, [], s.tagList ++ [tag]⟩
    else .ok s
  else .ok { s with data := s.data ++ [c] }

/-- `XML(source)`: the list of the tags. -/
def create (fuel : Nat) (source : Str) : Except Stop (List Tag) := do
  let source ← source.replace fuel [tab] [space]
  let s ← (source.frontStrip space).foldlM (readByte fuel) ⟨.new, [], []⟩
  return s.tagList

/-! ## One property -/

/-- What follows a property: nothing, or a space. -/
theorem frontStrip_rest {rest : Str} (h : rest.head? = none ∨ rest.head? = some space) :
    frontStrip (quote :: rest) quote = rest := by
  rw [frontStrip_cons_self]
  cases rest with
  | nil => rfl
  | cons c rest =>
    have hc : c = space := by simpa using h
    rw [frontStrip_cons_of_ne rest (by rw [hc]; decide)]

theorem propertyValue_eq {value rest : Str} (hne : value ≠ []) (hquote : quote ∉ value)
    (hrest : rest.head? = none ∨ rest.head? = some space) :
    propertyValue (eq :: quote :: (value ++ quote :: rest)) = (value, rest) := by
  have hstrip : frontStrip (eq :: quote :: (value ++ quote :: rest)) eq = quote :: (value ++ quote :: rest) := by
    rw [frontStrip_cons_self, frontStrip_cons_of_ne _ quote_ne_eq]
  have hspace : frontStrip (quote :: (value ++ quote :: rest)) space = quote :: (value ++ quote :: rest) :=
    frontStrip_cons_of_ne _ quote_ne_space
  have hopen : frontStrip (quote :: (value ++ quote :: rest)) quote = value ++ quote :: rest := by
    rw [frontStrip_cons_self, frontStrip_append hne hquote]
  unfold propertyValue
  simp only [hstrip, hspace, frontSplit_cons_self, List.cons_ne_nil, if_false, hopen, frontSplit_append hquote,
    frontStrip_rest hrest]

/-- **A property is read back.** -/
theorem nextProperty_print {e : Str × Str} (h : Tag.PlainProperty e) (tag : Tag) {rest : Str}
    (hrest : rest.head? = none ∨ rest.head? = some space) :
    nextProperty tag (Tag.printProperty e ++ rest) = .ok (tag.setProperty e.1 e.2, rest) := by
  have hspace : space ∉ e.1 := h.name space (by decide)
  have heq : eq ∉ e.1 := h.name eq (by decide)
  have hprint : Tag.printProperty e ++ rest = space :: (e.1 ++ eq :: quote :: (e.2 ++ quote :: rest)) := by
    simp [Tag.printProperty]
  have hstrip : frontStrip (space :: (e.1 ++ eq :: quote :: (e.2 ++ quote :: rest))) space =
      e.1 ++ eq :: quote :: (e.2 ++ quote :: rest) := by
    rw [frontStrip_cons_self, frontStrip_append h.name_ne_nil hspace]
  rw [hprint, nextProperty, hstrip, frontSplit_append heq, endStrip_of_not_mem hspace]
  simp only [bind, Except.bind, frontSplit_of_not_mem hspace, ne_eq, not_true_eq_false, if_false, List.cons_ne_nil,
    not_false_eq_true, if_true, propertyValue_eq h.value_ne_nil (h.value quote (by decide)) hrest]
  rfl

/-- What follows a property are more of them. -/
theorem head?_flatMap_print (es : List (Str × Str)) :
    (es.flatMap Tag.printProperty).head? = none ∨ (es.flatMap Tag.printProperty).head? = some space := by
  cases es with
  | nil => exact Or.inl rfl
  | cons e es => exact Or.inr rfl

/-- **The properties are read back** one after the other. -/
theorem setProperty_print {es : List (Str × Str)} (hes : ∀ e ∈ es, Tag.PlainProperty e) {fuel : Nat}
    (hfuel : es.length ≤ fuel) (tag : Tag) :
    setProperty fuel tag (es.flatMap Tag.printProperty) =
      .ok (es.foldl (fun tag e => tag.setProperty e.1 e.2) tag) := by
  induction es generalizing fuel tag with
  | nil => cases fuel <;> rfl
  | cons e es ih =>
    cases fuel with
    | zero => exact absurd hfuel (Nat.not_succ_le_zero _)
    | succ fuel =>
      have hnext := nextProperty_print (hes e List.mem_cons_self) tag (head?_flatMap_print es)
      have hne : Tag.printProperty e ++ es.flatMap Tag.printProperty ≠ [] := by simp [Tag.printProperty]
      rw [List.flatMap_cons, setProperty, if_pos hne, hnext]
      exact ih (fun e he => hes e (List.mem_cons_of_mem _ he)) (Nat.le_of_succ_le_succ hfuel) _

/-! ## One tag -/

/-- Properties that are set change nothing but the properties. -/
theorem foldl_setProperty (es : List (Str × Str)) (tag : Tag) :
    es.foldl (fun tag e => tag.setProperty e.1 e.2) tag =
      { tag with propertys := es.foldl (fun m e => m.insert e.1 e.2) tag.propertys } := by
  induction es generalizing tag with
  | nil => rfl
  | cons e es ih => rw [List.foldl_cons, ih]; rfl

/-- A tag without its text. -/
def withoutText (tag : Tag) : Tag := { tag with text := [] }

/-- **A tag is read back.** -/
theorem setTag_body {tag : Tag} (h : Tag.Plain tag) {fuel : Nat} (hfuel : tag.propertys.entries.length ≤ fuel) :
    setTag fuel .new tag.body = .ok (withoutText tag) := by
  have hspace : space ∉ tag.name := h.name space (by decide)
  have hsplit : frontSplit tag.body space = (tag.name, tag.propertys.entries.flatMap Tag.printProperty) := by
    unfold Tag.body
    cases hes : tag.propertys.entries with
    | nil => rw [List.flatMap_nil, List.append_nil, frontSplit_of_not_mem hspace]
    | cons e es => exact frontSplit_append hspace
  rw [setTag, Tag.body, frontStrip_append h.name_ne_nil hspace]
  rw [Tag.body] at hsplit
  rw [hsplit, setProperty_print h.property hfuel, foldl_setProperty]
  have hmap := OrderedMap.foldl_insert tag.propertys
  show Except.ok (Tag.mk tag.name [] (tag.propertys.entries.foldl (fun m e => m.insert e.1 e.2) OrderedMap.empty)) = _
  rw [hmap, withoutText]

/-- Bytes between angle brackets are collected. -/
theorem foldlM_readByte {data : Str} (hlt : lt ∉ data) (hgt : gt ∉ data) (fuel : Nat) (s : Reader) :
    data.foldlM (readByte fuel) s = .ok { s with data := s.data ++ data } := by
  induction data generalizing s with
  | nil => simp only [List.foldlM_nil, List.append_nil]; rfl
  | cons c data ih =>
    have hc : c ≠ lt ∧ c ≠ gt := ⟨(List.ne_of_not_mem_cons hlt).symm, (List.ne_of_not_mem_cons hgt).symm⟩
    rw [List.foldlM_cons, readByte, if_neg hc.1, if_neg hc.2]
    have hrest := ih (fun hmem => hlt (List.mem_cons_of_mem _ hmem)) (fun hmem => hgt (List.mem_cons_of_mem _ hmem))
      { s with data := s.data ++ [c] }
    rw [List.append_assoc] at hrest
    exact hrest

/-- A tag that is printed is read. -/
theorem foldlM_create {tag : Tag} (h : Tag.Plain tag) {fuel : Nat} (hfuel : tag.propertys.entries.length ≤ fuel)
    (tagList : List Tag) :
    tag.create.foldlM (readByte fuel) ⟨.new, [], tagList⟩ = .ok ⟨.new, [], tagList ++ [withoutText tag]⟩ := by
  have hbody : tag.body ≠ [] := by simp [Tag.body, h.name_ne_nil]
  have hcollect := foldlM_readByte (h.not_mem_body (c := lt) (by decide)) (h.not_mem_body (c := gt) (by decide)) fuel
    ⟨.new, [], tagList⟩
  rw [Tag.create_of_plain h, List.cons_append, List.foldlM_cons]
  show (tag.body ++ [gt]).foldlM (readByte fuel) ⟨.new, [], tagList⟩ = _
  rw [List.foldlM_append, hcollect]
  show [gt].foldlM (readByte fuel) ⟨.new, tag.body, tagList⟩ = _
  rw [List.foldlM_cons, readByte, if_neg gt_ne_lt, if_pos rfl, if_pos hbody, setTag_body h hfuel]
  rfl

/-! ## All tags -/

/-- The tags, printed one after the other. -/
def render (tags : List Tag) : Str := tags.flatMap Tag.create

theorem length_flatMap_print (es : List (Str × Str)) : es.length ≤ (es.flatMap Tag.printProperty).length := by
  induction es with
  | nil => exact Nat.le_refl _
  | cons e es ih =>
    rw [List.flatMap_cons, List.length_append, List.length_cons, Tag.printProperty]
    simp only [List.length_append, List.length_cons]
    omega

/-- A tag has no more properties than its print has bytes. -/
theorem length_entries_le {tags : List Tag} (htags : ∀ tag ∈ tags, Tag.Plain tag) {tag : Tag} (h : tag ∈ tags) :
    tag.propertys.entries.length ≤ (render tags).length := by
  have hsub : tag.create.Sublist (render tags) := List.sublist_flatten_of_mem (List.mem_map_of_mem h)
  have hentries := length_flatMap_print tag.propertys.entries
  refine le_trans ?_ hsub.length_le
  rw [Tag.create_of_plain (htags tag h), Tag.body]
  simp only [List.length_append, List.length_cons]
  omega

theorem foldlM_render {tags : List Tag} (htags : ∀ tag ∈ tags, Tag.Plain tag) {fuel : Nat}
    (hfuel : ∀ tag ∈ tags, tag.propertys.entries.length ≤ fuel) (tagList : List Tag) :
    (render tags).foldlM (readByte fuel) ⟨.new, [], tagList⟩ = .ok ⟨.new, [], tagList ++ tags.map withoutText⟩ := by
  induction tags generalizing tagList with
  | nil => rw [List.map_nil, List.append_nil]; rfl
  | cons tag tags ih =>
    have hread := foldlM_create (htags tag List.mem_cons_self) (hfuel tag List.mem_cons_self) tagList
    have hrest :=
      ih (fun tag h => htags tag (List.mem_cons_of_mem _ h)) (fun tag h => hfuel tag (List.mem_cons_of_mem _ h))
      (tagList ++ [withoutText tag])
    rw [List.append_assoc] at hrest
    rw [render, List.flatMap_cons, List.foldlM_append, hread]
    exact hrest

/-- **The round trip**: the tags that are printed are read again, in the same order, with the same names and
properties. -/
theorem create_render {tags : List Tag} (htags : ∀ tag ∈ tags, Tag.Plain tag) {fuel : Nat}
    (hfuel : (render tags).length < fuel) : create fuel (render tags) = .ok (tags.map withoutText) := by
  have htab : tab ∉ render tags := by
    intro hmem
    obtain ⟨tag, htag, hmem⟩ := List.mem_flatMap.1 hmem
    rw [Tag.create_of_plain (htags tag htag), List.mem_append, List.mem_cons] at hmem
    rcases hmem with (heq | hbody) | heq
    · exact absurd heq (by decide)
    · exact (htags tag htag).not_mem_body (by decide) hbody
    · exact absurd heq (by decide)
  have hstrip : frontStrip (render tags) space = render tags := by
    cases tags with
    | nil => rfl
    | cons tag tags =>
      rw [render, List.flatMap_cons, Tag.create_of_plain (htags tag List.mem_cons_self), List.append_assoc,
        List.cons_append]
      exact frontStrip_cons_of_ne _ lt_ne_space
  have hentries : ∀ tag ∈ tags, tag.propertys.entries.length ≤ fuel := fun tag h =>
    (length_entries_le htags h).trans hfuel.le
  have hread := foldlM_render htags hentries []
  rw [create, replace_of_not_mem (by omega) htab]
  show ((frontStrip (render tags) space).foldlM (readByte fuel) ⟨.new, [], []⟩ >>= fun s => pure s.tagList) = _
  rw [hstrip, hread]
  rfl

/-- `<a h="x=' y" k="=">`. -/
def anchor : Tag :=
  ((Tag.new.setName [0x61]).setProperty [0x6B] [eq]).setProperty [0x68] [0x78, eq, apostrophe, space, 0x79]

/-- The anchor is read back. -/
theorem create_render_anchor : create 100 (render [anchor, anchor]) = .ok [anchor, anchor] := by
  have hentries : anchor.propertys.entries = [([0x68], [0x78, eq, apostrophe, space, 0x79]), ([0x6B], [eq])] := by
    decide
  have hplain : Tag.Plain anchor := by
    refine ⟨by decide, by decide +kernel, fun e he => ?_⟩
    rw [hentries, List.mem_cons, List.mem_singleton] at he
    rcases he with rfl | rfl <;> exact ⟨by decide, by decide +kernel, by decide, by decide +kernel⟩
  exact create_render (by simpa using hplain) (by decide)

end XML

end LeftFelt
