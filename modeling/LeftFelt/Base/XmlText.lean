import LeftFelt.Base.XmlTotal

/-!
# Text between tags

A run of bytes between `>` and the next `<` takes a place of its own in the list of the tags (`create_run`), but the
tag that is put there is empty, since `Tag::setText` writes to a tag of its own. So the text is kept only where there
is none (`keepsText_iff`).
-/

namespace LeftFelt

open Str

namespace XML

variable {fuel : Nat} {source : Str}

/-- A run of text: the bytes `r` between a `>` behind `p` and the next `<`, in front of `q`. -/
structure IsRun (source p r q : Str) : Prop where
  source_eq : source = p ++ gt :: (r ++ lt :: q)
  ne_nil : r ≠ []
  lt_not_mem : lt ∉ r
  gt_not_mem : gt ∉ r

/-- **Text is kept**: every run has an entry between those of the text before it and those of the text behind it,
which is a text, has the run as its text, and is printed as the run. -/
def KeepsText (fuel : Nat) (source : Str) : Prop :=
  ∀ p r q, IsRun source p r q → ∃ before entry after, create fuel (p ++ [gt]) = .ok before ∧
    create fuel (lt :: q) = .ok after ∧ create fuel source = .ok (before ++ entry :: after) ∧
    entry.isText ∧ entry.getText = r ∧ entry.create = r

/-! ## The loop in parts -/

/-- A byte is read in the same way whatever tags have been read. -/
theorem readByte_tagList (tags : List Tag) (s : Reader) (c : UInt8) :
    readByte fuel { s with tagList := tags ++ s.tagList } c =
      (readByte fuel s c).map fun s => { s with tagList := tags ++ s.tagList } := by
  unfold readByte
  split
  · split
    · simp [Except.map]
    · rfl
  · split
    · split
      · cases setTag fuel s.tag s.data <;> simp [Except.map, bind, Except.bind, pure, Except.pure]
      · rfl
    · rfl

theorem foldlM_tagList (tags : List Tag) (data : Str) (s : Reader) :
    data.foldlM (readByte fuel) { s with tagList := tags ++ s.tagList } =
      (data.foldlM (readByte fuel) s).map fun s => { s with tagList := tags ++ s.tagList } := by
  induction data generalizing s with
  | nil => rfl
  | cons c data ih =>
    rw [List.foldlM_cons, List.foldlM_cons, readByte_tagList]
    cases readByte fuel s c with
    | error e => rfl
    | ok t => exact ih t

/-- Between two bytes the tag is empty. -/
theorem readByte_new {s s' : Reader} {c : UInt8} (h : readByte fuel s c = .ok s') (hs : s.tag = .new) :
    s'.tag = .new := by
  unfold readByte at h
  split at h
  · split at h
    · cases h; rfl
    · cases h; exact hs
  · split at h
    · split at h
      · cases htag : setTag fuel s.tag s.data with
        | error e => rw [htag] at h; cases h
        | ok tag => rw [htag] at h; cases h; rfl
      · cases h; exact hs
    · cases h; exact hs

theorem foldlM_new {data : Str} {s s' : Reader} (h : data.foldlM (readByte fuel) s = .ok s') (hs : s.tag = .new) :
    s'.tag = .new := by
  induction data generalizing s with
  | nil => cases h; exact hs
  | cons c data ih =>
    rw [List.foldlM_cons] at h
    cases hread : readByte fuel s c with
    | error e => rw [hread] at h; cases h
    | ok t => rw [hread] at h; exact ih h (readByte_new hread hs)

/-- Behind a `>` nothing is collected. -/
theorem readByte_gt {s s' : Reader} (h : readByte fuel s gt = .ok s') : s'.data = [] := by
  rw [readByte, if_neg gt_ne_lt, if_pos rfl] at h
  split at h
  · cases htag : setTag fuel s.tag s.data with
    | error e => rw [htag] at h; cases h
    | ok tag => rw [htag] at h; cases h; rfl
  · rename_i hdata
    cases h
    exact not_not.1 hdata

/-- Behind a `>` the loop stands as at its beginning, but for the tags that have been read. -/
theorem foldlM_gt {data : Str} {s : Reader} (h : (data ++ [gt]).foldlM (readByte fuel) ⟨.new, [], []⟩ = .ok s) :
    s = ⟨.new, [], s.tagList⟩ := by
  have htag : s.tag = .new := foldlM_new h rfl
  rw [List.foldlM_append] at h
  cases hdata : data.foldlM (readByte fuel) ⟨.new, [], []⟩ with
  | error e => rw [hdata] at h; cases h
  | ok t =>
    rw [hdata] at h
    have hgt : readByte fuel t gt = .ok s := by
      rw [← h]
      exact (bind_pure (readByte fuel t gt)).symm
    rw [← htag, ← readByte_gt hgt]

/-- A run puts an empty tag to the list. -/
theorem foldlM_run {r : Str} (hne : r ≠ []) (hlt : lt ∉ r) (hgt : gt ∉ r) (tags : List Tag) (q : Str) :
    (r ++ lt :: q).foldlM (readByte fuel) ⟨.new, [], tags⟩ =
      (q.foldlM (readByte fuel) ⟨.new, [], []⟩).map fun s => { s with tagList := tags ++ .new :: s.tagList } := by
  have hrun := foldlM_readByte hlt hgt fuel ⟨.new, [], tags⟩
  have hread : readByte fuel ⟨.new, r, tags⟩ lt = .ok ⟨.new, [], tags ++ [.new]⟩ := by
    rw [readByte, if_pos rfl, if_pos hne, Tag.setText]
  have hrest := @foldlM_tagList fuel (tags ++ [.new]) q ⟨.new, [], []⟩
  simp only [List.append_nil, List.append_assoc, List.singleton_append] at hrest
  rw [List.foldlM_append, hrun, ← hrest]
  show (lt :: q).foldlM (readByte fuel) ⟨.new, r, tags⟩ = _
  rw [List.foldlM_cons, hread]
  rfl

/-! ## A run -/

/-- A source without tabs is read as it stands. -/
theorem create_of_not_mem (htab : tab ∉ source) (hfuel : source.length < fuel) :
    ∃ s, (source.frontStrip space).foldlM (readByte fuel) ⟨.new, [], []⟩ = .ok s ∧
      create fuel source = .ok s.tagList := by
  have hlength := (frontStrip_suffix source space).length_le
  obtain ⟨s, hs⟩ := foldlM_total (source.frontStrip space) ⟨.new, [], []⟩
    (show 0 + (source.frontStrip space).length ≤ fuel by omega)
  refine ⟨s, hs, ?_⟩
  rw [create, replace_of_not_mem (Nat.zero_lt_of_lt hfuel) htab]
  simp only [bind, Except.bind, hs]
  rfl

/-- **A run leaves an empty tag** between the entries of the text before it and of the text behind it. -/
theorem create_run {p r q : Str} (h : IsRun source p r q) (htab : tab ∉ source) (hfuel : source.length < fuel) :
    ∃ before after, create fuel (p ++ [gt]) = .ok before ∧ create fuel (lt :: q) = .ok after ∧
      create fuel source = .ok (before ++ .new :: after) := by
  obtain ⟨rfl, hne, hlt, hgt⟩ := h
  simp only [List.mem_append, List.mem_cons, not_or] at htab
  simp only [List.length_append, List.length_cons] at hfuel
  obtain ⟨s, hs, hbefore⟩ := @create_of_not_mem fuel (p ++ [gt]) (by simp [htab])
    (by simp only [List.length_append, List.length_singleton]; omega)
  obtain ⟨t, ht, hafter⟩ := @create_of_not_mem fuel (lt :: q) (by simp [htab])
    (by rw [List.length_cons]; omega)
  obtain ⟨u, hu, hall⟩ := @create_of_not_mem fuel (p ++ gt :: (r ++ lt :: q)) (by simp [htab])
    (by simp only [List.length_append, List.length_cons]; omega)
  have hq : q.foldlM (readByte fuel) ⟨.new, [], []⟩ = .ok t := by
    rw [frontStrip_cons_of_ne q lt_ne_space, List.foldlM_cons] at ht
    exact ht
  rw [frontStrip_append_cons (by decide)] at hs hu
  have hrest : (r ++ lt :: q).foldlM (readByte fuel) s = .ok { t with tagList := s.tagList ++ .new :: t.tagList } := by
    rw [foldlM_gt hs, foldlM_run hne hlt hgt, hq]
    rfl
  have hsplit : p.frontStrip space ++ gt :: (r ++ lt :: q) = p.frontStrip space ++ [gt] ++ (r ++ lt :: q) := by simp
  rw [hsplit, List.foldlM_append, hs] at hu
  have hall' : u = { t with tagList := s.tagList ++ .new :: t.tagList } := Except.ok.inj (hu.symm.trans hrest)
  exact ⟨s.tagList, t.tagList, hbefore, hafter, by rw [hall, hall']⟩

/-- An empty tag is no text. -/
theorem not_keepsText {p r q : Str} (h : IsRun source p r q) (htab : tab ∉ source) (hfuel : source.length < fuel) :
    ¬KeepsText fuel source := by
  intro hkeeps
  obtain ⟨before, entry, after, hbefore, hafter, hall, htext, -⟩ := hkeeps p r q h
  obtain ⟨before', after', hbefore', hafter', hall'⟩ := create_run h htab hfuel
  rw [hbefore] at hbefore'
  rw [hafter] at hafter'
  rw [hall, Except.ok.injEq] at hall'
  cases hbefore'
  cases hafter'
  have hentry : entry = .new := (List.cons.inj (List.append_cancel_left hall')).1
  rw [hentry] at htext
  exact absurd htext (by decide)

/-- **Text is kept only where there is none**: between no `>` and the next `<` stands a run of text. -/
theorem keepsText_iff (htab : tab ∉ source) (hfuel : source.length < fuel) :
    KeepsText fuel source ↔ ∀ p r q, ¬IsRun source p r q :=
  ⟨fun hkeeps _ _ _ h => not_keepsText h htab hfuel hkeeps, fun hnone p r q h => absurd h (hnone p r q)⟩

/-- `<a>x<b>`. -/
def markedText : Str := [lt, 0x61, gt, 0x78, lt, 0x62, gt]

/-- The text `x` is lost. -/
theorem not_keepsText_markedText : tab ∉ markedText ∧ ¬KeepsText 100 markedText :=
  ⟨by decide, not_keepsText (p := [lt, 0x61]) (r := [0x78]) (q := [0x62, gt]) ⟨rfl, by decide, by decide, by decide⟩
    (by decide) (by decide)⟩

/-- `<a><b>`, which has no text to keep. -/
def markedTags : Str := [lt, 0x61, gt, lt, 0x62, gt]

theorem keepsText_markedTags : KeepsText 100 markedTags := by
  refine (keepsText_iff (by decide) (by decide)).2 fun p r q h => ?_
  obtain ⟨c, r, rfl⟩ := List.exists_cons_of_ne_nil h.ne_nil
  have hsource := h.source_eq
  -- the first `>` ends the first tag, and what follows it is a `<`
  match p with
  | [] => exact absurd (List.cons.inj hsource).1 (by decide)
  | [_] => exact absurd (List.cons.inj (List.cons.inj hsource).2).1 (by decide)
  | [_, _] =>
    have hc : lt = c := (List.cons.inj (List.cons.inj (List.cons.inj (List.cons.inj hsource).2).2).2).1
    exact h.lt_not_mem (hc ▸ List.mem_cons_self)
  | [_, _, _] =>
    have hc : lt = gt := (List.cons.inj (List.cons.inj (List.cons.inj (List.cons.inj hsource).2).2).2).1
    exact absurd hc (by decide)
  | _ :: _ :: _ :: _ :: p =>
    have hlength := congrArg List.length hsource
    simp only [markedTags, List.cons_append, List.length_cons, List.length_append, List.length_nil] at hlength
    omega

end XML

end LeftFelt
