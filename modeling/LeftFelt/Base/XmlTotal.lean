import LeftFelt.Base.Xml

/-!
# Reading ends

`XML(source)` returns on every string. One round of the loop of `setProperty` takes a name and a value out of the
source and leaves the rest (`nextProperty_cases`): the three are parts of the source that do not overlap, and the rest
is shorter. `EndStrip` is called on the text before `=` after `FrontStrip`, so it has another byte than a space, or
none at all.
-/

namespace LeftFelt

open Str
open scoped List

namespace XML

variable {source : Str} {tag : Tag}

/-! ## One property -/

/-- What a quoted value is made of, and what follows, are parts of the source. -/
theorem sublist_between (s : Str) (c : UInt8) :
    (((s.frontSplit c).2.frontStrip c).frontSplit c).1 ++
    (((s.frontSplit c).2.frontStrip c).frontSplit c).2.frontStrip c
      <+ s := by
  set t := (s.frontSplit c).2.frontStrip c
  have hstrip : t <+ s := ((frontStrip_suffix _ c).trans (frontSplit_snd_suffix s c)).sublist
  refine List.Sublist.trans ?_ hstrip
  nth_rewrite 3 [← frontSplit_fst_append_snd t c]
  exact List.Sublist.append_left (frontStrip_suffix _ c).sublist _

/-- The value and what follows are parts of the source behind `=`. -/
theorem propertyValue_sublist (source : Str) :
    (propertyValue (eq :: source)).1 ++ (propertyValue (eq :: source)).2 <+ source := by
  have hstrip : (frontStrip (eq :: source) eq).frontStrip space <+ source := by
    rw [frontStrip_cons_self]
    exact ((frontStrip_suffix _ space).trans (frontStrip_suffix source eq)).sublist
  refine List.Sublist.trans ?_ hstrip
  unfold propertyValue
  set s := (frontStrip (eq :: source) eq).frontStrip space
  by_cases hquote : (s.frontSplit quote).2 = []
  · by_cases happ : (s.frontSplit apostrophe).2 = []
    · simp only [hquote, happ, if_true, ne_eq, not_true_eq_false, if_false]
      rw [← happ, frontSplit_fst_append_snd]
    · simp only [hquote, happ, if_true, ne_eq, not_false_eq_true]
      exact sublist_between s apostrophe
  · simp only [hquote, if_false]
    exact sublist_between s quote

/-- Where `EndStrip` is called there is another byte than a space, or none at all. -/
theorem name_part (source : Str) :
    ((source.frontStrip space).frontSplit eq).1 = [] ∨
      ∃ c ∈ ((source.frontStrip space).frontSplit eq).1, c ≠ space := by
  cases hname : ((source.frontStrip space).frontSplit eq).1 with
  | nil => exact Or.inl rfl
  | cons c name =>
    have hhead := head?_frontStrip source space
    rw [← frontSplit_fst_append_snd (source.frontStrip space) eq, hname] at hhead
    exact Or.inr ⟨c, List.mem_cons_self, fun heq => hhead (congrArg some heq)⟩

/-- **One round of the loop** stores a property, and the rest of the source is shorter. -/
theorem nextProperty_cases (tag : Tag) (h : source ≠ []) :
    ∃ name value rest, nextProperty tag source = .ok (tag.setProperty name value, rest) ∧
      rest.length < source.length ∧ name ++ (value ++ rest) <+ source := by
  have hhead := head?_frontStrip source space
  have hsub : source.frontStrip space <+ source := (frontStrip_suffix source space).sublist
  obtain ⟨name, n, hpart, -, hstrip⟩ := exists_endStrip (name_part source)
  unfold nextProperty
  set s := source.frontStrip space
  have hsplit : name ++ List.replicate n space ++ (s.frontSplit eq).2 = s := by
    rw [← hpart, frontSplit_fst_append_snd]
  have hname : (name.frontSplit space).1 ++ (name.frontSplit space).2 = name := frontSplit_fst_append_snd name space
  have hlength : s.length = name.length + n + (s.frontSplit eq).2.length := by
    conv_lhs => rw [← hsplit, List.length_append, List.length_append, List.length_replicate]
  simp only [bind, Except.bind, hstrip]
  by_cases hbare : (name.frontSplit space).2 = []
  · simp only [hbare, ne_eq, not_true_eq_false, if_false]
    have hfst : (name.frontSplit space).1 = name := by
      rw [hbare, List.append_nil] at hname
      exact hname
    cases hrest : (s.frontSplit eq).2 with
    | nil =>
      simp only [not_true_eq_false, if_false]
      refine ⟨name, [], [], by rw [hfst]; rfl, List.length_pos_of_ne_nil h, ?_⟩
      rw [List.append_nil, List.append_nil]
      exact (List.sublist_append_left name _).trans ((List.sublist_append_left _ _).trans (hsplit ▸ hsub))
    | cons c rest =>
      have hc : c = eq := by
        rcases frontSplit_cases s eq with ⟨-, hcut⟩ | ⟨u, v, -, -, hcut⟩
        · rw [hcut] at hrest
          exact absurd hrest.symm (List.cons_ne_nil _ _)
        · rw [hcut] at hrest
          exact (List.cons.inj hrest).1.symm
      subst hc
      have hvalue := propertyValue_sublist rest
      have hle := hvalue.length_le
      rw [hrest, List.length_cons] at hlength
      rw [List.length_append] at hle
      simp only [List.cons_ne_nil, not_false_eq_true, if_true]
      refine ⟨name, _, _, by rw [hfst]; rfl, by have := hsub.length_le; omega, ?_⟩
      refine List.Sublist.trans ?_ (hsplit ▸ hsub)
      rw [List.append_assoc, hrest]
      exact ((hvalue.trans (List.sublist_cons_self eq rest)).trans (List.sublist_append_right _ _)).append_left name
  · have hne : (name.frontSplit space).1 ≠ [] := by
      intro hnil
      rcases frontSplit_cases name space with ⟨-, hcut⟩ | ⟨u, v, hv, -, hcut⟩
      · exact hbare (by rw [hcut])
      · rw [hcut] at hnil
        rw [← hsplit, hv, show u = [] from hnil] at hhead
        exact hhead rfl
    have hpos := List.length_pos_of_ne_nil hne
    have hlen := congrArg List.length hname
    rw [List.length_append] at hlen
    simp only [hbare, ne_eq, not_false_eq_true, if_true]
    refine ⟨(name.frontSplit space).1, [], _, rfl, ?_, ?_⟩
    · have := hsub.length_le
      rw [List.length_append]
      omega
    · refine List.Sublist.trans ?_ (hsplit ▸ hsub)
      rw [List.nil_append, ← List.append_assoc, hname]
      exact (List.sublist_append_left name _).append_right _

/-- **The loop ends**: every round shortens the source. -/
theorem setProperty_total {fuel : Nat} (hfuel : source.length ≤ fuel) (tag : Tag) :
    ∃ tag', setProperty fuel tag source = .ok tag' := by
  induction fuel generalizing source tag with
  | zero => exact ⟨tag, by rw [setProperty, if_neg (not_not_intro (List.length_eq_zero_iff.1 (Nat.le_zero.1 hfuel)))]⟩
  | succ fuel ih =>
    by_cases h : source = []
    · exact ⟨tag, by rw [setProperty, if_neg (not_not_intro h)]⟩
    · obtain ⟨name, value, rest, hnext, hlt, -⟩ := nextProperty_cases tag h
      obtain ⟨tag', htag'⟩ := ih (show rest.length ≤ fuel by omega) (tag.setProperty name value)
      refine ⟨tag', ?_⟩
      rw [setProperty, if_pos h, hnext]
      exact htag'

theorem setTag_total {fuel : Nat} (hfuel : source.length ≤ fuel) (tag : Tag) :
    ∃ tag', setTag fuel tag source = .ok tag' := by
  have hsub := (frontSplit_snd_suffix (source.frontStrip space) space).trans (frontStrip_suffix source space)
  exact setProperty_total (hsub.length_le.trans hfuel) _

/-! ## All tags -/

/-- One byte is read, and no more data than that is collected. -/
theorem readByte_total {fuel : Nat} {s : Reader} (hfuel : s.data.length ≤ fuel) (c : UInt8) :
    ∃ s', readByte fuel s c = .ok s' ∧ s'.data.length ≤ s.data.length + 1 := by
  unfold readByte
  split
  · split
    · exact ⟨_, rfl, Nat.zero_le _⟩
    · exact ⟨_, rfl, Nat.le_succ _⟩
  · split
    · split
      · obtain ⟨tag, htag⟩ := setTag_total hfuel s.tag
        exact ⟨⟨.new, [], s.tagList ++ [tag]⟩, by rw [htag]; rfl, Nat.zero_le _⟩
      · exact ⟨_, rfl, Nat.le_succ _⟩
    · exact ⟨_, rfl, (List.length_append).le⟩

theorem foldlM_total {fuel : Nat} (data : Str) (s : Reader) (hfuel : s.data.length + data.length ≤ fuel) :
    ∃ s', data.foldlM (readByte fuel) s = .ok s' := by
  induction data generalizing s with
  | nil => exact ⟨s, rfl⟩
  | cons c data ih =>
    rw [List.length_cons] at hfuel
    obtain ⟨t, hread, hle⟩ := readByte_total (show s.data.length ≤ fuel by omega) c
    obtain ⟨s', hs'⟩ := ih t (show t.data.length + data.length ≤ fuel by omega)
    refine ⟨s', ?_⟩
    rw [List.foldlM_cons, hread]
    exact hs'

/-- **Reading ends**: on every string the constructor returns, a round of the loop of `setProperty` shortens its
source, and `EndStrip` finds another byte than a space or an empty string. -/
theorem create_total (source : Str) :
    (∀ fuel, source.length < fuel → ∃ tags, create fuel source = .ok tags) ∧
    (∀ tag (rest : Str), rest ≠ [] → ∃ next, nextProperty tag rest = .ok next ∧ next.2.length < rest.length) ∧
    ∀ rest : Str, ((rest.frontStrip space).frontSplit eq).1 = [] ∨
      ∃ c ∈ ((rest.frontStrip space).frontSplit eq).1, c ≠ space := by
  refine ⟨fun fuel hfuel => ?_, fun tag rest hrest => ?_, name_part⟩
  · rw [create, replace_singleton tab space hfuel]
    set s : Str := source.map fun c => if c = tab then space else c with hs
    have hlength : (s.frontStrip space).length ≤ fuel := by
      have hstrip := (frontStrip_suffix s space).length_le
      have hmap : s.length = source.length := by rw [hs, List.length_map]
      omega
    obtain ⟨s', hs'⟩ := foldlM_total (s.frontStrip space) ⟨.new, [], []⟩
      (show 0 + (s.frontStrip space).length ≤ fuel by omega)
    exact ⟨s'.tagList, by simp only [bind, Except.bind, hs']; rfl⟩
  · obtain ⟨name, value, rest', hnext, hlt, -⟩ := nextProperty_cases tag hrest
    exact ⟨_, hnext, hlt⟩

end XML

end LeftFelt
