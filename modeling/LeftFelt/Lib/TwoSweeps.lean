import LeftFelt.Lib.Sweep

/-!
# Two sweeps

Two sweeps over the same scan, from no labels at all, with the links resolved after each. Below the cap equal labels
mean joined elements (`two_sweeps_sound`). The converse fails in general, since a label keeps only one of its links.

`complete_iff_oneEnd` says when it holds, in terms of the scan alone: paths that lead forward in it (`Flows`) give
every element its first label (`First`), the links of the first sweep (`Link`, `Root`), its second label (`Second`),
and the links of the second sweep (`Relink`, `End`). All of a connected part must end at the same label. Below the cap
that means that there is one label on it that is not linked any further (`oneEnd_iff_oneBottom`).

`gapless_iff` says when every label that is not linked any further is in use in the end: an element without neighbours
gets a new label from the second sweep, and its first one is left over.
-/

namespace LeftFelt.Lib

variable {P : Type*} {nbrs : P → List P} {cap : Nat} {pos : P → Nat} {l : List P} {s₁ s₂ : Labelling P}

/-! ## The picture -/

section Picture

variable (nbrs cap pos l)

/-- A path of neighbours leads from `p` to `q`, always forward in the scan. -/
abbrev Flows (p q : P) : Prop := PathIn (fun a b => b ∈ nbrs a ∧ pos a < pos b) {p | p ∈ l} p q

/-- No neighbour comes before `p`. -/
def Start (p : P) : Prop := p ∈ l ∧ ∀ q ∈ nbrs p, q ∈ l → pos p < pos q

/-- No neighbour is in the scan. -/
def Isolated (p : P) : Prop := p ∈ l ∧ ∀ q ∈ nbrs p, q ∉ l

/-- `s` is the start number `cap`. -/
def AtCap (s : P) : Prop := Start nbrs pos l s ∧ {s' | Start nbrs pos l s' ∧ pos s' < pos s}.ncard + 1 = cap

/-- The label of the start `s` is the first label of `p`: a start has its own; any other element has that of the
earliest start from which a forward path leads to it, or that of the start number `cap` if this is earlier. -/
def First (p s : P) : Prop :=
  Start nbrs pos l s ∧ (s = p ∨ ¬Start nbrs pos l p ∧ (Flows nbrs pos l s p ∨ AtCap nbrs cap pos l s) ∧
    ∀ s', Start nbrs pos l s' → Flows nbrs pos l s' p ∨ AtCap nbrs cap pos l s' → pos s ≤ pos s')

/-- An element with the first label `s` has a later neighbour with the first label `s'`. -/
def Meets (s s' : P) : Prop :=
  ∃ p ∈ l, ∃ q ∈ l, q ∈ nbrs p ∧ pos p < pos q ∧ First nbrs cap pos l p s ∧ First nbrs cap pos l q s'

variable (P) in
/-- `s'` is the earliest that `M` relates to `s`, or `s` itself. -/
def Earliest (pos : P → Nat) (M : P → P → Prop) (s s' : P) : Prop :=
  (s' = s ∨ M s s') ∧ ∀ s'', M s s'' → pos s' ≤ pos s''

variable (P) in
/-- Steps of `R` from `s` end at `r`. -/
def Ends (R : P → P → Prop) (s r : P) : Prop := Relation.ReflTransGen R s r ∧ R r r

/-- In the first sweep `s` is linked to `s'`. -/
abbrev Link : P → P → Prop := Earliest P pos (Meets nbrs cap pos l)

/-- The links from `s` end at `r`. -/
abbrev Root : P → P → Prop := Ends P (Link nbrs cap pos l)

/-- The first label of a later neighbour of `p` is linked to `r` in the end. -/
def Sees (p r : P) : Prop :=
  ∃ q ∈ l, q ∈ nbrs p ∧ pos p < pos q ∧ ∃ s, First nbrs cap pos l q s ∧ Root nbrs cap pos l s r

/-- `r` is the earliest that an element sees from which a forward path leads to `p`. -/
def Second (p r : P) : Prop :=
  (∃ a, Flows nbrs pos l a p ∧ Sees nbrs cap pos l a r) ∧
    ∀ a r', Flows nbrs pos l a p → Sees nbrs cap pos l a r' → pos r ≤ pos r'

/-- `r` is the second label of an earlier neighbour of `p`, or what `p` sees at a later one. -/
def Beside (p r : P) : Prop :=
  Sees nbrs cap pos l p r ∨ ∃ q ∈ l, q ∈ nbrs p ∧ pos q < pos p ∧ Second nbrs cap pos l q r

/-- An element with the second label `r'` has `r` beside it. -/
def Touches (r r' : P) : Prop := ∃ p ∈ l, Second nbrs cap pos l p r' ∧ Beside nbrs cap pos l p r

/-- In the second sweep `r` is linked to `r'`. -/
abbrev Relink : P → P → Prop := Earliest P pos (Touches nbrs cap pos l)

/-- `r` is not linked any further: no element with an earlier second label has it beside it. -/
def Bottom (r : P) : Prop := ∀ r', Touches nbrs cap pos l r r' → pos r ≤ pos r'

/-- The links from the second label of `p` end at `r`. -/
def End (p r : P) : Prop := ∃ s, Second nbrs cap pos l p s ∧ Ends P (Relink nbrs cap pos l) s r

/-- On every connected part there is at most one end. -/
def OneEnd : Prop := ∀ p q r r', ScanPath nbrs l p q → End nbrs cap pos l p r → End nbrs cap pos l q r' → r = r'

/-- On every connected part there is at most one bottom. -/
def OneBottom : Prop := ∀ p q r r', ScanPath nbrs l p q → Second nbrs cap pos l p r → Second nbrs cap pos l q r' →
  Bottom nbrs cap pos l r → Bottom nbrs cap pos l r' → r = r'

end Picture

/-- A bottom is linked to itself. -/
theorem relink_self {r : P} : Relink nbrs cap pos l r r ↔ Bottom nbrs cap pos l r :=
  ⟨fun h => h.2, fun h => ⟨Or.inl rfl, h⟩⟩

/-- An element without neighbours is joined to itself only. -/
theorem eq_of_isolated {p q : P} (hp : Isolated nbrs l p) (hpq : ScanPath nbrs l p q) : q = p := by
  refine hpq.induction (M := fun q => q = p) rfl ?_
  rintro a b - hab hb rfl
  exact absurd hb (hp.2 b hab)

/-! ## Elements that stand for labels

The elements in `G` stand for labels, in the same order.
-/

section Standing

variable {label : P → Nat} {link : Nat → Nat} {G : P → Prop}
  (hinj : ∀ s s', G s → G s' → label s = label s' → s = s')
include hinj

/-- The earliest element stands for the smallest label. -/
theorem earliest_iff (hpos : ∀ s s', G s → G s' → (label s ≤ label s' ↔ pos s ≤ pos s')) {M : P → P → Prop} {s s' : P}
    (hs : G s) (hmet : ∀ s'', M s s'' → G s'' ∧ link (label s) ≤ label s'' ∧ label s'' ≤ label s)
    (hattained : link (label s) = label s ∨ ∃ s'', M s s'' ∧ link (label s) = label s'') :
    Earliest P pos M s s' ↔ G s' ∧ label s' = link (label s) := by
  constructor
  · rintro ⟨hcase, hmin⟩
    have hs' : G s' ∧ link (label s) ≤ label s' ∧ label s' ≤ label s := by
      rcases hcase with rfl | hM
      · refine ⟨hs, ?_, Nat.le_refl _⟩
        rcases hattained with heq | ⟨s'', hM, heq⟩
        · exact heq.le
        · exact heq.trans_le (hmet s'' hM).2.2
      · exact hmet s' hM
    refine ⟨hs'.1, Nat.le_antisymm ?_ hs'.2.1⟩
    rcases hattained with heq | ⟨s'', hM, heq⟩
    · rw [heq]
      exact hs'.2.2
    · rw [heq]
      exact (hpos s' s'' hs'.1 (hmet s'' hM).1).2 (hmin s'' hM)
  · rintro ⟨hs', heq⟩
    refine ⟨?_, fun s'' hM => (hpos s' s'' hs' (hmet s'' hM).1).1 (heq.trans_le (hmet s'' hM).2.1)⟩
    rcases hattained with heq' | ⟨s'', hM, heq'⟩
    · exact Or.inl (hinj s' s hs' hs (heq.trans heq'))
    · rw [hinj s' s'' hs' (hmet s'' hM).1 (heq.trans heq')]
      exact Or.inr hM

/-- Steps end where the links do. -/
theorem ends_iff (hle : ∀ k, link k ≤ k) {R : P → P → Prop}
    (hR : ∀ s s', G s → (R s s' ↔ G s' ∧ label s' = link (label s)))
    (hex : ∀ s, G s → ∃ s', G s' ∧ label s' = link (label s)) {s r : P} (hs : G s) :
    Ends P R s r ↔ G r ∧ label r = root link (label s) := by
  -- a step keeps the end
  have hkeep : ∀ r, Relation.ReflTransGen R s r → G r ∧ root link (label r) = root link (label s) := by
    intro r hsr
    induction hsr with
    | refl => exact ⟨hs, rfl⟩
    | tail _ hstep ih =>
      obtain ⟨hG, heq⟩ := (hR _ _ ih.1).1 hstep
      refine ⟨hG, ?_⟩
      rw [heq, root_link hle, ih.2]
  -- and it can be reached
  have hreach : ∃ r, G r ∧ Relation.ReflTransGen R s r ∧ label r = root link (label s) := by
    refine root_induction (M := fun k => ∃ r, G r ∧ Relation.ReflTransGen R s r ∧ label r = k) ?_ ⟨s, hs, .refl, rfl⟩
    rintro k ⟨r, hr, hsr, rfl⟩
    obtain ⟨r', hr', heq⟩ := hex r hr
    exact ⟨r', hr', hsr.tail ((hR r r' hr).2 ⟨hr', heq⟩), heq⟩
  constructor
  · rintro ⟨hsr, hrr⟩
    obtain ⟨hr, heq⟩ := hkeep r hsr
    have hfix := ((hR r r hr).1 hrr).2
    exact ⟨hr, by rw [← heq, root_eq_self hfix.symm]⟩
  · rintro ⟨hr, heq⟩
    obtain ⟨r', hr', hsr', heq'⟩ := hreach
    obtain rfl : r' = r := hinj r' r hr' hr (by omega)
    refine ⟨hsr', (hR r' r' hr).2 ⟨hr, ?_⟩⟩
    rw [heq, link_root hle]

end Standing

/-! ## The first sweep -/

section First

variable (hl : Scan nbrs pos l) (h₁ : Swept nbrs cap pos unlabelled l s₁) (hcap : 0 < cap)
include hl h₁ hcap

theorem start_iff_fresh {p : P} : Start nbrs pos l p ↔ p ∈ l ∧ Fresh nbrs pos unlabelled s₁ p := by
  refine and_congr_right fun hp => forall₂_congr fun q hq => ?_
  unfold view
  split
  · rename_i hlt
    constructor
    · intro hstart
      exact h₁.outside (base_unlabelled l) fun hq' => absurd (hstart hq') (by omega)
    · intro hzero hq'
      exact absurd (h₁.label_pos (base_unlabelled l) hcap hq') (by omega)
  · rename_i hlt
    refine ⟨fun _ => rfl, fun _ hq' => ?_⟩
    have hne : pos p ≠ pos q := fun heq => by
      obtain rfl := hl.pos_inj hp hq' heq
      exact hl.irrefl p hp hq
    omega

/-- Starts are labelled in their order. -/
theorem label_le_iff (s s' : P) (hs : Start nbrs pos l s) (hs' : Start nbrs pos l s') :
    s₁.label s ≤ s₁.label s' ↔ pos s ≤ pos s' := by
  rw [start_iff_fresh hl h₁ hcap] at hs hs'
  rcases Nat.lt_trichotomy (pos s) (pos s') with hlt | heq | hlt
  · have := h₁.new_lt s hs.1 s' hs'.1 hs.2 hs'.2 hlt
    omega
  · rw [hl.pos_inj hs.1 hs'.1 heq]
    omega
  · have := h₁.new_lt s' hs'.1 s hs.1 hs'.2 hs.2 hlt
    omega

theorem start_eq (s s' : P) (hs : Start nbrs pos l s) (hs' : Start nbrs pos l s') (h : s₁.label s = s₁.label s') :
    s = s' := by
  have h₁' := (label_le_iff hl h₁ hcap s s' hs hs').1 h.le
  have h₂' := (label_le_iff hl h₁ hcap s' s hs' hs).1 h.ge
  exact hl.pos_inj hs.1 hs'.1 (by omega)

/-- Every label that is handed out is that of a start. -/
theorem exists_start_of_lt {r : Nat} (hr : 0 < r) (hlt : r < s₁.next) : ∃ s, Start nbrs pos l s ∧ s₁.label s = r := by
  obtain ⟨s, hs, hf, heq⟩ := h₁.handed r hr hlt
  exact ⟨s, (start_iff_fresh hl h₁ hcap).2 ⟨hs, hf⟩, heq⟩

/-- **The labels of the starts** are their numbers. -/
theorem label_start {s : P} (hs : Start nbrs pos l s) :
    s₁.label s = {s' | Start nbrs pos l s' ∧ pos s' < pos s}.ncard + 1 := by
  have hbase := base_unlabelled l
  have hspos := h₁.label_pos hbase hcap hs.1
  have hinj : Set.InjOn s₁.label {s' | Start nbrs pos l s' ∧ pos s' < pos s} := fun a ha b hb heq =>
    start_eq hl h₁ hcap a b ha.1 hb.1 heq
  have himage : s₁.label '' {s' | Start nbrs pos l s' ∧ pos s' < pos s} = Set.Ico 1 (s₁.label s) := by
    refine Set.Subset.antisymm ?_ ?_
    · rintro _ ⟨a, ⟨ha, hlt⟩, rfl⟩
      have hle := label_le_iff hl h₁ hcap s a hs ha
      have hapos := h₁.label_pos hbase hcap ha.1
      exact ⟨hapos, by omega⟩
    · rintro r ⟨hr, hlt⟩
      obtain ⟨a, ha, rfl⟩ := exists_start_of_lt hl h₁ hcap hr (hlt.trans (h₁.label_lt hbase s))
      have hle := label_le_iff hl h₁ hcap s a hs ha
      exact ⟨a, ⟨ha, by omega⟩, rfl⟩
  have hcard := hinj.ncard_image
  rw [himage, Set.ncard_eq_toFinset_card', Set.toFinset_Ico, Nat.card_Ico] at hcard
  omega

theorem atCap_iff {s : P} : AtCap nbrs cap pos l s ↔ Start nbrs pos l s ∧ s₁.label s = cap :=
  and_congr_right fun hs => by rw [label_start hl h₁ hcap hs]

/-- Only starts have labels above the cap. -/
theorem label_le_cap {p : P} (hp : p ∈ l) (hstart : ¬Start nbrs pos l p) : s₁.label p ≤ cap :=
  (h₁.visited p hp).le_cap fun hf => hstart ((start_iff_fresh hl h₁ hcap).2 ⟨hp, hf⟩)

/-- Forward the labels do not grow. -/
theorem label_le_of_flows {p q : P} (h : Flows nbrs pos l p q) : s₁.label q ≤ s₁.label p := by
  refine h.induction (M := fun q => s₁.label q ≤ s₁.label p) (Nat.le_refl _) ?_
  intro a b hpa hab hb ih
  have ha : a ∈ l := hpa.mem_right
  have hview : view pos unlabelled s₁ b a = s₁.label a := if_pos hab.2
  have hpos := h₁.label_pos (base_unlabelled l) hcap ha
  have hle := (h₁.visited b hb).le a (hl.symm a ha b hb hab.1) (by omega)
  omega

/-- Where the label of `p` comes from. -/
theorem exists_start {p : P} (hp : p ∈ l) : ∃ s, Start nbrs pos l s ∧ s₁.label s = s₁.label p ∧
    (s = p ∨ ¬Start nbrs pos l p ∧ (Flows nbrs pos l s p ∨ AtCap nbrs cap pos l s)) := by
  have hbase := base_unlabelled l
  induction hn : pos p using Nat.strong_induction_on generalizing p with
  | _ n ih =>
    subst hn
    by_cases hstart : Start nbrs pos l p
    · exact ⟨p, hstart, rfl, Or.inl rfl⟩
    · have hf : ¬Fresh nbrs pos unlabelled s₁ p := fun hf => hstart ((start_iff_fresh hl h₁ hcap).2 ⟨hp, hf⟩)
      rcases (h₁.visited p hp).eq hf with heq | ⟨q, hpq, hne, heq⟩
      · obtain ⟨s, hs, hlabel⟩ := exists_start_of_lt hl h₁ hcap hcap (heq ▸ h₁.label_lt hbase p)
        exact ⟨s, hs, hlabel.trans heq.symm, Or.inr ⟨hstart, Or.inr ((atCap_iff hl h₁ hcap).2 ⟨hs, hlabel⟩)⟩⟩
      · have hq := h₁.view_mem hbase hne
        unfold view at hne heq
        split at hne
        · rename_i hlt
          rw [if_pos hlt] at heq
          have hqp := hl.symm p hp q hq hpq
          obtain ⟨s, hs, hlabel, hsource⟩ := ih (pos q) hlt hq rfl
          refine ⟨s, hs, hlabel.trans heq.symm, Or.inr ⟨hstart, ?_⟩⟩
          rcases hsource with rfl | ⟨-, hflow | hatCap⟩
          · exact Or.inl (PathIn.single hq ⟨hqp, hlt⟩ hp)
          · exact Or.inl (hflow.tail ⟨hqp, hlt⟩ hp)
          · exact Or.inr hatCap
        · exact absurd rfl hne

/-- **First labels.** -/
theorem first_iff {p s : P} (hp : p ∈ l) :
    First nbrs cap pos l p s ↔ Start nbrs pos l s ∧ s₁.label s = s₁.label p := by
  obtain ⟨s₀, hs₀, hlabel, hsource⟩ := exists_start hl h₁ hcap hp
  refine and_congr_right fun hs => ⟨fun hfirst => ?_, fun heq => ?_⟩
  · rcases hfirst with rfl | ⟨hstart, hcase, hmin⟩
    · rfl
    · have hle : s₁.label p ≤ s₁.label s := by
        rcases hcase with hflow | hatCap
        · exact label_le_of_flows hl h₁ hcap hflow
        · rw [((atCap_iff hl h₁ hcap).1 hatCap).2]
          exact label_le_cap hl h₁ hcap hp hstart
      have hsource' := hsource.resolve_left fun h => hstart (h ▸ hs₀)
      have hle' := (label_le_iff hl h₁ hcap s s₀ hs hs₀).2 (hmin s₀ hs₀ hsource'.2)
      omega
  · obtain rfl : s₀ = s := start_eq hl h₁ hcap s₀ s hs₀ hs (by omega)
    refine hsource.imp id fun ⟨hstart, hcase⟩ => ⟨hstart, hcase, fun s' hs' hcase' => ?_⟩
    refine (label_le_iff hl h₁ hcap s₀ s' hs hs').1 ?_
    rcases hcase' with hflow | hatCap
    · have hle := label_le_of_flows hl h₁ hcap hflow
      omega
    · have hle := label_le_cap hl h₁ hcap hp hstart
      have heq' := ((atCap_iff hl h₁ hcap).1 hatCap).2
      omega

theorem exists_first {p : P} (hp : p ∈ l) : ∃ s, First nbrs cap pos l p s := by
  obtain ⟨s, hs, hlabel, -⟩ := exists_start hl h₁ hcap hp
  exact ⟨s, (first_iff hl h₁ hcap hp).2 ⟨hs, hlabel⟩⟩

/-- **Links.** -/
theorem link_iff (s s' : P) (hs : Start nbrs pos l s) :
    Link nbrs cap pos l s s' ↔ Start nbrs pos l s' ∧ s₁.label s' = s₁.link (s₁.label s) := by
  have hbase := base_unlabelled l
  have hview : ∀ {p q : P}, pos p < pos q → view pos unlabelled s₁ q p = s₁.label p := fun hlt => if_pos hlt
  refine earliest_iff (start_eq hl h₁ hcap) (label_le_iff hl h₁ hcap) hs ?_ ?_
  · rintro s'' ⟨p, hp, q, hq, hpq, hlt, hfp, hfq⟩
    rw [first_iff hl h₁ hcap hp] at hfp
    rw [first_iff hl h₁ hcap hq] at hfq
    have hpos := h₁.label_pos hbase hcap hp
    have hqp := hl.symm p hp q hq hpq
    have hlink := (h₁.visited q hq).link_le p hqp (by rw [hview hlt]; omega)
    have hle := (h₁.visited q hq).le p hqp (by rw [hview hlt]; omega)
    rw [hview hlt, ← hfp.2] at hlink hle
    exact ⟨hfq.1, by omega, by omega⟩
  · refine (h₁.link_eq (s₁.label s)).imp id ?_
    rintro ⟨q, hq, p, hqp, hne, heq, hlink⟩
    have hp := h₁.view_mem hbase hne
    have hlt : pos p < pos q := by
      by_contra hge
      exact hne (if_neg hge)
    rw [hview hlt] at heq
    obtain ⟨s'', hfirst⟩ := exists_first hl h₁ hcap hq
    exact ⟨s'', ⟨p, hp, q, hq, hl.symm q hq p hp hqp, hlt, (first_iff hl h₁ hcap hp).2 ⟨hs, heq.symm⟩, hfirst⟩,
      hlink.trans ((first_iff hl h₁ hcap hq).1 hfirst).2.symm⟩

theorem exists_link (s : P) (hs : Start nbrs pos l s) :
    ∃ s', Start nbrs pos l s' ∧ s₁.label s' = s₁.link (s₁.label s) := by
  rcases h₁.link_eq (s₁.label s) with heq | ⟨p, hp, -, -, -, -, heq⟩
  · exact ⟨s, hs, heq.symm⟩
  · obtain ⟨s', hs', hlabel, -⟩ := exists_start hl h₁ hcap hp
    exact ⟨s', hs', hlabel.trans heq.symm⟩

/-- **The ends of the links.** -/
theorem root_iff {s r : P} (hs : Start nbrs pos l s) :
    Root nbrs cap pos l s r ↔ Start nbrs pos l r ∧ s₁.label r = root s₁.link (s₁.label s) :=
  ends_iff (start_eq hl h₁ hcap) (h₁.link_le_self (base_unlabelled l)) (link_iff hl h₁ hcap) (exists_link hl h₁ hcap) hs

/-- The label that a later neighbour has after the first sweep. -/
theorem sees_iff {p r : P} : Sees nbrs cap pos l p r ↔
    Start nbrs pos l r ∧ ∃ q ∈ l, q ∈ nbrs p ∧ pos p < pos q ∧ (resolve s₁).label q = s₁.label r := by
  constructor
  · rintro ⟨q, hq, hpq, hlt, s, hfirst, hroot⟩
    obtain ⟨hs, hlabel⟩ := (first_iff hl h₁ hcap hq).1 hfirst
    obtain ⟨hr, heq⟩ := (root_iff hl h₁ hcap hs).1 hroot
    refine ⟨hr, q, hq, hpq, hlt, ?_⟩
    rw [heq, hlabel]
    rfl
  · rintro ⟨hr, q, hq, hpq, hlt, heq⟩
    obtain ⟨s, hfirst⟩ := exists_first hl h₁ hcap hq
    obtain ⟨hs, hlabel⟩ := (first_iff hl h₁ hcap hq).1 hfirst
    refine ⟨q, hq, hpq, hlt, s, hfirst, (root_iff hl h₁ hcap hs).2 ⟨hr, ?_⟩⟩
    rw [← heq, hlabel]
    rfl

/-- What is seen is not linked any further by the first sweep. -/
theorem link_of_sees {p r : P} (h : Sees nbrs cap pos l p r) : s₁.link (s₁.label r) = s₁.label r := by
  obtain ⟨-, q, -, -, -, heq⟩ := (sees_iff hl h₁ hcap).1 h
  rw [← heq]
  exact link_root (h₁.link_le_self (base_unlabelled l)) _

/-- After the first sweep an element has the label of a start. -/
theorem exists_start_resolve {p : P} (hp : p ∈ l) : ∃ r, Start nbrs pos l r ∧ (resolve s₁).label p = s₁.label r := by
  have hbase := base_unlabelled l
  have hlt : (resolve s₁).label p < s₁.next := (root_le (h₁.link_le_self hbase) _).trans_lt (h₁.label_lt hbase p)
  have hpos : 0 < (resolve s₁).label p := (h₁.base_resolve hbase hcap).link_pos _ (h₁.label_pos hbase hcap hp)
  obtain ⟨r, hr, heq⟩ := exists_start_of_lt hl h₁ hcap hpos hlt
  exact ⟨r, hr, heq.symm⟩

/-- Links lead below the cap, since they lead to labels that are not new. -/
theorem resolve_le_cap {p q : P} (hp : p ∈ l) (hq : q ∈ l) (hpq : q ∈ nbrs p) : (resolve s₁).label q ≤ cap := by
  have hbase := base_unlabelled l
  have hle := h₁.link_le_self hbase
  by_cases hstart : Start nbrs pos l q
  · have hlt := hstart.2 p (hl.symm p hp q hq hpq) hp
    have hview : view pos unlabelled s₁ p q = s₁.label q := if_pos hlt
    have hlink := (h₁.visited p hp).link_le q hpq (by have := h₁.label_pos hbase hcap hq; omega)
    have hcap' := label_le_cap hl h₁ hcap hp fun hp' => absurd (hp'.2 q hpq hq) (by omega)
    rw [hview] at hlink
    exact (root_le_link hle).trans (hlink.trans hcap')
  · exact (root_le hle _).trans (label_le_cap hl h₁ hcap hq hstart)

end First

/-! ## The second sweep -/

section Second

variable (hl : Scan nbrs pos l) (h₁ : Swept nbrs cap pos unlabelled l s₁) (h₂ : Swept nbrs cap pos (resolve s₁) l s₂)
  (hcap : 0 < cap)

include h₁ h₂ hcap in
/-- Elements that see no label in the second sweep are alone. -/
theorem isolated_iff_fresh {p : P} : Isolated nbrs l p ↔ p ∈ l ∧ Fresh nbrs pos (resolve s₁) s₂ p := by
  have hbase₁ := base_unlabelled l
  have hbase₂ := h₁.base_resolve hbase₁ hcap
  refine and_congr_right fun hp => forall₂_congr fun q hq => ?_
  constructor
  · intro hq'
    by_contra hne
    exact hq' (h₂.view_mem hbase₂ hne)
  · intro hzero hq'
    unfold view at hzero
    split at hzero
    · exact absurd (h₂.label_pos hbase₂ hcap hq') (by omega)
    · have hpos : 0 < (resolve s₁).label q := hbase₂.link_pos _ (h₁.label_pos hbase₁ hcap hq')
      omega

include h₁ h₂ hcap in
theorem not_fresh {p : P} (hp : p ∈ l) (hiso : ¬Isolated nbrs l p) : ¬Fresh nbrs pos (resolve s₁) s₂ p := fun hf =>
  hiso ((isolated_iff_fresh h₁ h₂ hcap).2 ⟨hp, hf⟩)

include hl h₁ hcap in
/-- Later neighbours are seen with their labels of the first sweep. -/
theorem sees_of_view {p q r : P} (hp : p ∈ l) (hq : q ∈ l) (hpq : q ∈ nbrs p) (hge : ¬pos q < pos p)
    (hr : Start nbrs pos l r) (heq : (resolve s₁).label q = s₁.label r) : Sees nbrs cap pos l p r := by
  have hne : pos p ≠ pos q := fun hpos => by
    obtain rfl := hl.pos_inj hp hq hpos
    exact hl.irrefl p hp hpq
  exact (sees_iff hl h₁ hcap).2 ⟨hr, q, hq, hpq, by omega, heq⟩

include h₁ h₂ in
/-- What the second sweep does not link any further, the first did not either. -/
theorem root_of_link {r : Nat} (hfix : s₂.link r = r) : root s₁.link r = r :=
  Nat.le_antisymm (root_le (h₁.link_le_self (base_unlabelled l)) r) (hfix.symm.trans_le (h₂.link_old r))

include hl h₁ h₂ hcap

/-- Labels that are seen are not above the cap, so that one of them is given on. -/
theorem exists_view {p : P} (hp : p ∈ l) (hiso : ¬Isolated nbrs l p) :
    ∃ q ∈ l, q ∈ nbrs p ∧ view pos (resolve s₁) s₂ p q ≠ 0 ∧ s₂.label p = view pos (resolve s₁) s₂ p q := by
  have hbase₂ := h₁.base_resolve (base_unlabelled l) hcap
  have hf := not_fresh h₁ h₂ hcap hp hiso
  rcases (h₂.visited p hp).eq hf with heq | ⟨q, hpq, hne, heq⟩
  · obtain ⟨q, hpq, hne⟩ := exists_view_of_not_fresh hf
    have hq := h₂.view_mem hbase₂ hne
    have hle := (h₂.visited p hp).le q hpq hne
    have hview : view pos (resolve s₁) s₂ p q ≤ cap := by
      unfold view
      split
      · have hiso' : ¬Isolated nbrs l q := fun h => h.2 p (hl.symm p hp q hq hpq) hp
        exact (h₂.visited q hq).le_cap (not_fresh h₁ h₂ hcap hq hiso')
      · exact resolve_le_cap hl h₁ hcap hp hq hpq
    exact ⟨q, hq, hpq, hne, by omega⟩
  · exact ⟨q, h₂.view_mem hbase₂ hne, hpq, hne, heq⟩

/-- Forward the second labels do not grow, from what is seen on. -/
theorem label_le_of_sees {a p r : P} (hap : Flows nbrs pos l a p) (hr : Sees nbrs cap pos l a r) :
    s₂.label p ≤ s₁.label r := by
  have hbase₂ := h₁.base_resolve (base_unlabelled l) hcap
  obtain ⟨hstart, b, hb, hab, hlt, heq⟩ := (sees_iff hl h₁ hcap).1 hr
  have hrpos := h₁.label_pos (base_unlabelled l) hcap hstart.1
  refine hap.induction (M := fun p => s₂.label p ≤ s₁.label r) ?_ ?_
  · have hview : view pos (resolve s₁) s₂ a b = s₁.label r := (if_neg (by omega)).trans heq
    have hle := (h₂.visited a hap.mem_left).le b hab (by omega)
    omega
  · intro c d hac hcd hd ih
    have hc : c ∈ l := hac.mem_right
    have hview : view pos (resolve s₁) s₂ d c = s₂.label c := if_pos hcd.2
    have hcpos := h₂.label_pos hbase₂ hcap hc
    have hle := (h₂.visited d hd).le c (hl.symm c hc d hd hcd.1) (by omega)
    omega

/-- Every second label that is not new was seen before, and came by a forward path. -/
theorem exists_sees {p : P} (hp : p ∈ l) (hiso : ¬Isolated nbrs l p) :
    ∃ a r, Flows nbrs pos l a p ∧ Sees nbrs cap pos l a r ∧ s₂.label p = s₁.label r := by
  induction hn : pos p using Nat.strong_induction_on generalizing p with
  | _ n ih =>
    subst hn
    obtain ⟨q, hq, hpq, -, heq⟩ := exists_view hl h₁ h₂ hcap hp hiso
    have hqp := hl.symm p hp q hq hpq
    unfold view at heq
    split at heq
    · rename_i hlt
      obtain ⟨a, r, haq, hr, hlabel⟩ := ih (pos q) hlt hq (fun h => h.2 p hqp hp) rfl
      exact ⟨a, r, haq.tail ⟨hqp, hlt⟩ hp, hr, heq.trans hlabel⟩
    · rename_i hge
      obtain ⟨r, hr, hlabel⟩ := exists_start_resolve hl h₁ hcap hq
      exact ⟨p, r, PathIn.refl hp, sees_of_view hl h₁ hcap hp hq hpq hge hr hlabel, heq.trans hlabel⟩

/-- **Second labels.** -/
theorem second_iff {p r : P} (hp : p ∈ l) :
    Second nbrs cap pos l p r ↔ Start nbrs pos l r ∧ s₂.label p = s₁.label r := by
  have hiso : s₂.label p < s₁.next → ¬Isolated nbrs l p := fun hlt hiso =>
    absurd ((h₂.visited p hp).new ((isolated_iff_fresh h₁ h₂ hcap).1 hiso).2).1 (Nat.not_le.2 hlt)
  constructor
  · rintro ⟨⟨a, hap, hr⟩, hmin⟩
    have hstart := ((sees_iff hl h₁ hcap).1 hr).1
    have hle := label_le_of_sees hl h₁ h₂ hcap hap hr
    obtain ⟨a', r', hap', hr', hlabel⟩ := exists_sees hl h₁ h₂ hcap hp
      (hiso (hle.trans_lt (h₁.label_lt (base_unlabelled l) r)))
    have hstart' := ((sees_iff hl h₁ hcap).1 hr').1
    have hle' := (label_le_iff hl h₁ hcap r r' hstart hstart').2 (hmin a' r' hap' hr')
    exact ⟨hstart, by omega⟩
  · rintro ⟨hstart, hlabel⟩
    obtain ⟨a, r', hap, hr', hlabel'⟩ := exists_sees hl h₁ h₂ hcap hp
      (hiso (hlabel.trans_lt (h₁.label_lt (base_unlabelled l) r)))
    have hstart' := ((sees_iff hl h₁ hcap).1 hr').1
    obtain rfl : r' = r := start_eq hl h₁ hcap r' r hstart' hstart (by omega)
    refine ⟨⟨a, hap, hr'⟩, fun b r'' hbp hr'' => ?_⟩
    have hstart'' := ((sees_iff hl h₁ hcap).1 hr'').1
    refine (label_le_iff hl h₁ hcap r' r'' hstart hstart'').1 ?_
    have hle := label_le_of_sees hl h₁ h₂ hcap hbp hr''
    omega

theorem exists_second {p : P} (hp : p ∈ l) (hiso : ¬Isolated nbrs l p) :
    ∃ r, Second nbrs cap pos l p r ∧ s₁.link (s₁.label r) = s₁.label r := by
  obtain ⟨a, r, -, hr, hlabel⟩ := exists_sees hl h₁ h₂ hcap hp hiso
  exact ⟨r, (second_iff hl h₁ h₂ hcap hp).2 ⟨((sees_iff hl h₁ hcap).1 hr).1, hlabel⟩, link_of_sees hl h₁ hcap hr⟩

/-- Seeing the label of `r` in the second sweep. -/
theorem beside_iff {p r : P} (hp : p ∈ l) (hr : Start nbrs pos l r) :
    Beside nbrs cap pos l p r ↔ ∃ q ∈ nbrs p, view pos (resolve s₁) s₂ p q = s₁.label r := by
  have hbase₂ := h₁.base_resolve (base_unlabelled l) hcap
  have hrpos := h₁.label_pos (base_unlabelled l) hcap hr.1
  constructor
  · rintro (hsees | ⟨q, hq, hpq, hlt, hsecond⟩)
    · obtain ⟨-, q, -, hpq, hlt, heq⟩ := (sees_iff hl h₁ hcap).1 hsees
      exact ⟨q, hpq, (if_neg (by omega)).trans heq⟩
    · exact ⟨q, hpq, (if_pos hlt).trans ((second_iff hl h₁ h₂ hcap hq).1 hsecond).2⟩
  · rintro ⟨q, hpq, heq⟩
    have hq : q ∈ l := h₂.view_mem hbase₂ (show view pos (resolve s₁) s₂ p q ≠ 0 by omega)
    unfold view at heq
    split at heq
    · rename_i hlt
      exact Or.inr ⟨q, hq, hpq, hlt, (second_iff hl h₁ h₂ hcap hq).2 ⟨hr, heq⟩⟩
    · rename_i hge
      exact Or.inl (sees_of_view hl h₁ hcap hp hq hpq hge hr heq)

/-- A start whose label is not linked any further by the first sweep. -/
def Kept (nbrs : P → List P) (pos : P → Nat) (l : List P) (s₁ : Labelling P) (r : P) : Prop :=
  Start nbrs pos l r ∧ s₁.link (s₁.label r) = s₁.label r

/-- **Links of the second sweep.** -/
theorem relink_iff (r r' : P) (hr : Kept nbrs pos l s₁ r) :
    Relink nbrs cap pos l r r' ↔ Kept nbrs pos l s₁ r' ∧ s₁.label r' = s₂.link (s₁.label r) := by
  have hrpos := h₁.label_pos (base_unlabelled l) hcap hr.1.1
  refine earliest_iff (fun s s' hs hs' => start_eq hl h₁ hcap s s' hs.1 hs'.1)
    (fun s s' hs hs' => label_le_iff hl h₁ hcap s s' hs.1 hs'.1) hr ?_ ?_
  · rintro r'' ⟨p, hp, hsecond, hbeside⟩
    obtain ⟨hr'', hlabel⟩ := (second_iff hl h₁ h₂ hcap hp).1 hsecond
    obtain ⟨⟨a, -, hsees⟩, -⟩ := hsecond
    obtain ⟨q, hpq, hview⟩ := (beside_iff hl h₁ h₂ hcap hp hr.1).1 hbeside
    have hlink := (h₂.visited p hp).link_le q hpq (by omega)
    have hle := (h₂.visited p hp).le q hpq (by omega)
    rw [hview, hlabel] at hlink hle
    exact ⟨⟨hr'', link_of_sees hl h₁ hcap hsees⟩, hlink, hle⟩
  · refine (h₂.link_eq (s₁.label r)).imp (fun heq => heq.trans (root_eq_self hr.2)) ?_
    rintro ⟨p, hp, q, hpq, hne, hview, hlink⟩
    have hiso : ¬Isolated nbrs l p := fun hiso => hne (((isolated_iff_fresh h₁ h₂ hcap).1 hiso).2 q hpq)
    obtain ⟨r'', hsecond, -⟩ := exists_second hl h₁ h₂ hcap hp hiso
    exact ⟨r'', ⟨p, hp, hsecond, (beside_iff hl h₁ h₂ hcap hp hr.1).2 ⟨q, hpq, hview⟩⟩,
      hlink.trans ((second_iff hl h₁ h₂ hcap hp).1 hsecond).2⟩

theorem exists_relink (r : P) (hr : Kept nbrs pos l s₁ r) :
    ∃ r', Kept nbrs pos l s₁ r' ∧ s₁.label r' = s₂.link (s₁.label r) := by
  rcases h₂.link_eq (s₁.label r) with heq | ⟨p, hp, q, hpq, hne, -, heq⟩
  · exact ⟨r, hr, (heq.trans (root_eq_self hr.2)).symm⟩
  · have hiso : ¬Isolated nbrs l p := fun hiso => hne (((isolated_iff_fresh h₁ h₂ hcap).1 hiso).2 q hpq)
    obtain ⟨r', hsecond, hfix⟩ := exists_second hl h₁ h₂ hcap hp hiso
    obtain ⟨hr', hlabel⟩ := (second_iff hl h₁ h₂ hcap hp).1 hsecond
    exact ⟨r', ⟨hr', hfix⟩, hlabel.symm.trans heq.symm⟩

/-- **The ends of the second links.** -/
theorem end_iff {p r : P} (hp : p ∈ l) (hiso : ¬Isolated nbrs l p) :
    End nbrs cap pos l p r ↔ Kept nbrs pos l s₁ r ∧ s₁.label r = (resolve s₂).label p := by
  have hle := h₂.link_le_self (h₁.base_resolve (base_unlabelled l) hcap)
  obtain ⟨s, hsecond, hfix⟩ := exists_second hl h₁ h₂ hcap hp hiso
  obtain ⟨hs, hlabel⟩ := (second_iff hl h₁ h₂ hcap hp).1 hsecond
  have hends := ends_iff (r := r) (fun a b ha hb => start_eq hl h₁ hcap a b ha.1 hb.1) hle (relink_iff hl h₁ h₂ hcap)
    (exists_relink hl h₁ h₂ hcap) (s := s) ⟨hs, hfix⟩
  rw [← hlabel] at hends
  refine Iff.trans ⟨?_, fun h => ⟨s, hsecond, h⟩⟩ hends
  rintro ⟨s', hsecond', h⟩
  obtain ⟨hs', hlabel'⟩ := (second_iff hl h₁ h₂ hcap hp).1 hsecond'
  obtain rfl := start_eq hl h₁ hcap s s' hs hs' (by omega)
  exact h

theorem exists_end {p : P} (hp : p ∈ l) (hiso : ¬Isolated nbrs l p) :
    ∃ r, End nbrs cap pos l p r ∧ s₁.label r = (resolve s₂).label p := by
  obtain ⟨s, hsecond, hfix⟩ := exists_second hl h₁ h₂ hcap hp hiso
  obtain ⟨hs, hlabel⟩ := (second_iff hl h₁ h₂ hcap hp).1 hsecond
  have hend : ∃ r, Kept nbrs pos l s₁ r ∧ s₁.label r = root s₂.link (s₂.label p) := by
    refine root_induction (M := fun k => ∃ r, Kept nbrs pos l s₁ r ∧ s₁.label r = k) ?_ ⟨s, ⟨hs, hfix⟩, hlabel.symm⟩
    rintro k ⟨r, hr, rfl⟩
    exact exists_relink hl h₁ h₂ hcap r hr
  obtain ⟨r, hr, heq⟩ := hend
  exact ⟨r, (end_iff hl h₁ h₂ hcap hp hiso).2 ⟨hr, heq⟩, heq⟩

theorem not_isolated_of_end {p r : P} (hp : p ∈ l) (hend : End nbrs cap pos l p r) : ¬Isolated nbrs l p := by
  intro hiso
  obtain ⟨s, hsecond, -⟩ := hend
  obtain ⟨-, hlabel⟩ := (second_iff hl h₁ h₂ hcap hp).1 hsecond
  have hnew := ((h₂.visited p hp).new ((isolated_iff_fresh h₁ h₂ hcap).1 hiso).2).1
  have hlt := h₁.label_lt (base_unlabelled l) s
  have hnext : (resolve s₁).next = s₁.next := rfl
  omega

/-! ## The results -/

/-- **Completeness of two sweeps**: joined elements have equal labels exactly if every connected part has one end. -/
theorem complete_iff_oneEnd :
    (∀ p q, ScanPath nbrs l p q → (resolve s₂).label p = (resolve s₂).label q) ↔ OneEnd nbrs cap pos l := by
  constructor
  · intro hcomplete p q r r' hpq hr hr'
    have heq := hcomplete p q hpq
    obtain ⟨hk, hlabel⟩ := (end_iff hl h₁ h₂ hcap hpq.mem_left (not_isolated_of_end hl h₁ h₂ hcap hpq.mem_left hr)).1 hr
    obtain ⟨hk', hlabel'⟩ := (end_iff hl h₁ h₂ hcap hpq.mem_right
      (not_isolated_of_end hl h₁ h₂ hcap hpq.mem_right hr')).1 hr'
    exact start_eq hl h₁ hcap r r' hk.1 hk'.1 (by omega)
  · intro hone p q hpq
    by_cases hiso : Isolated nbrs l p
    · rw [eq_of_isolated hiso hpq]
    have hiso' : ¬Isolated nbrs l q := fun h => by
      have heq := eq_of_isolated h (hl.path_symm hpq)
      exact hiso (heq ▸ h)
    obtain ⟨r, hr, hlabel⟩ := exists_end hl h₁ h₂ hcap hpq.mem_left hiso
    obtain ⟨r', hr', hlabel'⟩ := exists_end hl h₁ h₂ hcap hpq.mem_right hiso'
    rw [← hlabel, ← hlabel', hone p q r r' hpq hr hr']

/-- **Soundness of two sweeps** below the cap. -/
theorem two_sweeps_sound (hle : s₂.next ≤ cap) : Sound nbrs l (resolve s₂) := by
  have hsound₁ : Sound nbrs l (resolve s₁) :=
    h₁.sound_resolve (base_unlabelled l) (h₂.next_le.trans hle) hl fun _ _ hne => absurd rfl hne
  exact h₂.sound_resolve (h₁.base_resolve (base_unlabelled l) hcap) hle hl hsound₁

/-- **Ends and bottoms**: below the cap the links do not leave a connected part, so that it has one end if it has one
bottom. -/
theorem oneEnd_iff_oneBottom (hle : s₂.next ≤ cap) : OneEnd nbrs cap pos l ↔ OneBottom nbrs cap pos l := by
  have hbase₁ := base_unlabelled l
  have hsound₁ : Sound nbrs l (resolve s₁) :=
    h₁.sound_resolve hbase₁ (h₂.next_le.trans hle) hl fun _ _ hne => absurd rfl hne
  constructor
  · intro hone p q r r' hpq hr hr' hb hb'
    exact hone p q r r' hpq ⟨r, hr, .refl, relink_self.2 hb⟩ ⟨r', hr', .refl, relink_self.2 hb'⟩
  · intro hone p q r r' hpq hr hr'
    -- an end is a second label on the same part
    have hpart : ∀ {p r}, p ∈ l → End nbrs cap pos l p r → ∃ a, ScanPath nbrs l p a ∧ Second nbrs cap pos l a r := by
      intro p r hp hend
      obtain ⟨hk, hlabel⟩ := (end_iff hl h₁ h₂ hcap hp (not_isolated_of_end hl h₁ h₂ hcap hp hend)).1 hend
      obtain ⟨a, ha, hpa, hroot⟩ := h₂.root_sound (h₁.base_resolve hbase₁ hcap) hle hl hsound₁ hp
      exact ⟨a, hpa, (second_iff hl h₁ h₂ hcap ha).2 ⟨hk.1, (hlabel.trans hroot).symm⟩⟩
    obtain ⟨a, hpa, ha⟩ := hpart hpq.mem_left hr
    obtain ⟨b, hqb, hb⟩ := hpart hpq.mem_right hr'
    obtain ⟨-, -, -, hbottom⟩ := hr
    obtain ⟨-, -, -, hbottom'⟩ := hr'
    exact hone a b r r' ((hl.path_symm hpa).trans (hpq.trans hqb)) ha hb (relink_self.1 hbottom)
      (relink_self.1 hbottom')

/-- The first label of an isolated element, if no other element has it, is not linked any further and given up. -/
theorem given_up {p : P} (hp : Isolated nbrs l p) (hother : ∀ q ∈ l, s₁.label q = s₁.label p → q = p) :
    s₂.link (s₁.label p) = s₁.label p ∧ ∀ q ∈ l, (resolve s₂).label q ≠ s₁.label p := by
  have hbase₁ := base_unlabelled l
  have hbase₂ := h₁.base_resolve hbase₁ hcap
  have halone : ∀ a ∈ l, p ∉ nbrs a := fun a ha hap => hp.2 a (hl.symm a ha p hp.1 hap) ha
  -- no label is linked to the label of `p`, and it is not linked
  have hlink₁ : s₁.link (s₁.label p) = s₁.label p := by
    rcases h₁.link_eq (s₁.label p) with heq | ⟨a, ha, b, hab, hne, hview, -⟩
    · exact heq
    · have hb := h₁.view_mem hbase₁ hne
      unfold view at hview hne
      split at hview
      · exact absurd (hother b hb hview ▸ hab) (halone a ha)
      · rename_i hge
        exact absurd (if_neg hge) hne
  have hinto₁ : ∀ k, k ≠ s₁.label p → s₁.link k ≠ s₁.label p := by
    intro k hk heq
    rcases h₁.link_eq k with heq' | ⟨a, ha, b, hab, hne, -, heq'⟩
    · exact hk (heq'.symm.trans heq)
    · obtain rfl := hother a ha (heq'.symm.trans heq)
      exact hp.2 b hab (h₁.view_mem hbase₁ hne)
  have hroot₁ : ∀ k, k ≠ s₁.label p → root s₁.link k ≠ s₁.label p := fun k hk => root_induction hinto₁ hk
  have hlater : ∀ q ∈ l, (resolve s₁).label q = s₁.label p → q = p := by
    intro q hq heq
    refine hother q hq ?_
    by_contra hne
    exact hroot₁ _ hne heq
  -- the second sweep gives it to no element
  have hcarried : ∀ q ∈ l, s₂.label q ≠ s₁.label p := by
    intro q hq
    induction hn : pos q using Nat.strong_induction_on generalizing q with
    | _ n ih =>
      subst hn
      intro heq
      by_cases hiso : Isolated nbrs l q
      · have hnew := ((h₂.visited q hq).new ((isolated_iff_fresh h₁ h₂ hcap).1 hiso).2).1
        have hlt := h₁.label_lt hbase₁ p
        have hnext : (resolve s₁).next = s₁.next := rfl
        omega
      · obtain ⟨a, ha, hqa, -, hview⟩ := exists_view hl h₁ h₂ hcap hq hiso
        rw [heq] at hview
        unfold view at hview
        split at hview
        · rename_i hlt
          exact ih (pos a) hlt a ha rfl hview.symm
        · exact absurd (hlater a ha hview.symm ▸ hqa) (halone q hq)
  have hlink₂ : s₂.link (s₁.label p) = s₁.label p := by
    rcases h₂.link_eq (s₁.label p) with heq | ⟨a, ha, b, hab, hne, hview, -⟩
    · exact heq.trans (root_eq_self hlink₁)
    · have hb := h₂.view_mem hbase₂ hne
      unfold view at hview
      split at hview
      · exact absurd hview (hcarried b hb)
      · exact absurd (hlater b hb hview ▸ hab) (halone a ha)
  refine ⟨hlink₂, fun q hq => root_induction (M := fun k => k ≠ s₁.label p) (fun k hk => ?_) (hcarried q hq)⟩
  rcases h₂.link_eq k with heq | ⟨a, ha, -, -, -, -, heq⟩
  · rw [heq]
    exact hroot₁ k hk
  · rw [heq]
    exact hcarried a ha

/-- A label that is not linked any further is in use in the end, if the first sweep gave it on. -/
theorem in_use {q : P} (hq : q ∈ l) (hstart : ¬Start nbrs pos l q) (hfix : s₂.link (s₁.label q) = s₁.label q) :
    ∃ p ∈ l, (resolve s₂).label p = s₁.label q := by
  have hpos := h₁.label_pos (base_unlabelled l) hcap hq
  obtain ⟨a, hqa, ha, hlt⟩ : ∃ a ∈ nbrs q, a ∈ l ∧ ¬pos q < pos a := by
    by_contra hnone
    push Not at hnone
    exact hstart ⟨hq, hnone⟩
  -- an earlier neighbour sees the label in the second sweep
  have haq := hl.symm q hq a ha hqa
  have hview : view pos (resolve s₁) s₂ a q = s₁.label q := by
    have hge : ¬pos q < pos a := hlt
    exact (if_neg hge).trans (root_of_link h₁ h₂ hfix)
  have hle := (h₂.visited a ha).le q haq (by omega)
  have hlink := (h₂.visited a ha).link_le q haq (by omega)
  rw [hview] at hle hlink
  have heq : s₂.label a = s₁.label q := by omega
  exact ⟨a, ha, by
    show root s₂.link (s₂.label a) = s₁.label q
    rw [heq, root_eq_self hfix]⟩

/-- So is the label of a start, unless the start is isolated and no other element has it. -/
theorem in_use_start {p : P} (hp : Start nbrs pos l p)
    (hother : Isolated nbrs l p → ∃ q ∈ l, q ≠ p ∧ First nbrs cap pos l q p)
    (hfix : s₂.link (s₁.label p) = s₁.label p) : ∃ a ∈ l, (resolve s₂).label a = s₁.label p := by
  have hbase₁ := base_unlabelled l
  have hr := h₁.label_pos hbase₁ hcap hp.1
  -- another element has the label
  obtain ⟨q, hq, hne, heq⟩ : ∃ q ∈ l, q ≠ p ∧ s₁.label q = s₁.label p := by
    by_cases hiso : Isolated nbrs l p
    · obtain ⟨q, hq, hne, hfirst⟩ := hother hiso
      exact ⟨q, hq, hne, ((first_iff hl h₁ hcap hq).1 hfirst).2.symm⟩
    · obtain ⟨q, hpq, hq⟩ : ∃ q ∈ nbrs p, q ∈ l := by
        by_contra hnone
        push Not at hnone
        exact hiso ⟨hp.1, hnone⟩
      have hqp := hl.symm p hp.1 q hq hpq
      have hview : view pos unlabelled s₁ q p = s₁.label p := if_pos (hp.2 q hpq hq)
      have hle := (h₁.visited q hq).le p hqp (by omega)
      have hlink := (h₁.visited q hq).link_le p hqp (by omega)
      have hfix₁ := (root_eq_self_iff (h₁.link_le_self hbase₁)).1 (root_of_link h₁ h₂ hfix)
      rw [hview] at hle hlink
      refine ⟨q, hq, ?_, by omega⟩
      rintro rfl
      exact hl.irrefl q hq hpq
  obtain ⟨a, ha, hlabel⟩ :=
    in_use hl h₁ h₂ hcap hq (fun hq' => hne (start_eq hl h₁ hcap q p hq' hp heq)) (heq ▸ hfix)
  exact ⟨a, ha, hlabel.trans heq⟩

/-- **Labels that are given up**: every label that is not linked any further is in use in the end, exactly if the
first label of every element without neighbours is that of another element too. -/
theorem gapless_iff :
    (∀ r, 0 < r → r < s₂.next → s₂.link r = r → ∃ p ∈ l, (resolve s₂).label p = r) ↔
      ∀ p, Isolated nbrs l p → ∃ q ∈ l, q ≠ p ∧ First nbrs cap pos l q p := by
  have hbase₁ := base_unlabelled l
  constructor
  · intro hused p hp
    have hstart : Start nbrs pos l p := ⟨hp.1, fun q hq hmem => absurd hmem (hp.2 q hq)⟩
    by_contra hnone
    push Not at hnone
    obtain ⟨hfix, hcarried⟩ := given_up hl h₁ h₂ hcap hp fun q hq heq => by
      by_contra hne
      exact hnone q hq hne ((first_iff hl h₁ hcap hq).2 ⟨hstart, heq.symm⟩)
    obtain ⟨q, hq, heq⟩ :=
      hused (s₁.label p) (h₁.label_pos hbase₁ hcap hp.1) ((h₁.label_lt hbase₁ p).trans_le h₂.next_le)
      hfix
    exact hcarried q hq heq
  · intro hother r hr hlt hfix
    by_cases hlt₁ : r < s₁.next
    · obtain ⟨p, hp, rfl⟩ := exists_start_of_lt hl h₁ hcap hr hlt₁
      exact in_use_start hl h₁ h₂ hcap hp (hother p) hfix
    · obtain ⟨p, hp, -, rfl⟩ := h₂.handed r (Nat.not_lt.1 hlt₁) hlt
      exact ⟨p, hp, root_eq_self hfix⟩

end Second

end LeftFelt.Lib
