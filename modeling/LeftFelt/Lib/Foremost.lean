import LeftFelt.Lib.SweepNumbers

/-!
# Parts that come together

`complete_iff_oneEnd` follows the links of both sweeps. Two conditions on the scan itself are enough for it.

A start is foremost if nothing to which it leads is led to from an earlier start. Below the cap these are the starts
that the first sweep does not link (`foremost_iff`). Where two elements are next to each other that the first sweep has
left apart, the second one links the larger label (`not_bottom`), so that a connected part with at most two foremost
starts gets one label (`oneBottom_of_atMost`).

If no start meets two earlier ones, then no link is overwritten, and the first sweep alone puts every part together
(`complete_of_meetsOnce`), whatever the cap is.

A part with one label ends at its first element (`end_iff_head`), and below the cap its number counts the parts that
come before it in the scan (`count_label_head`).
-/

namespace LeftFelt.Lib

variable {P : Type*} {nbrs : P → List P} {cap : Nat} {pos : P → Nat} {l : List P} {s₁ s₂ : Labelling P}

section Picture

variable (nbrs cap pos l)

/-- Nothing to which `s` leads is led to from an earlier start. -/
def Foremost (s : P) : Prop := Start nbrs pos l s ∧
  ∀ s' p, Start nbrs pos l s' → Flows nbrs pos l s p → Flows nbrs pos l s' p → pos s ≤ pos s'

/-- On every connected part there are at most `k` foremost starts. -/
def AtMost (k : Nat) : Prop := ∀ p ∈ l, {s | Foremost nbrs pos l s ∧ ScanPath nbrs l p s}.ncard ≤ k

/-- No start meets two different earlier ones. -/
def MeetsOnce : Prop := ∀ s s₁ s₂, Meets nbrs cap pos l s s₁ → Meets nbrs cap pos l s s₂ → s₁ ≠ s → s₂ ≠ s → s₁ = s₂

/-- `r` is the first element of the part of `p`. -/
def Head (p r : P) : Prop := ScanPath nbrs l p r ∧ ∀ q, ScanPath nbrs l p q → pos r ≤ pos q

end Picture

/-- Of three foremost starts on one part two are the same, if there are at most two. -/
theorem AtMost.eq_of_three (h : AtMost nbrs pos l 2) {a b c : P} (ha : Foremost nbrs pos l a)
    (hb : Foremost nbrs pos l b) (hc : Foremost nbrs pos l c) (hab : ScanPath nbrs l a b) (hac : ScanPath nbrs l a c) :
    a = b ∨ a = c ∨ b = c := by
  by_contra hne
  push Not at hne
  have hfinite : {s | Foremost nbrs pos l s ∧ ScanPath nbrs l a s}.Finite :=
    (List.finite_toSet l).subset fun s hs => hs.1.1.1
  have hlt := (Set.two_lt_ncard_iff hfinite).2
    ⟨a, b, c, ⟨ha, PathIn.refl hab.mem_left⟩, ⟨hb, hab⟩, ⟨hc, hac⟩, hne.1, hne.2.1, hne.2.2⟩
  have hle := h a hab.mem_left
  omega

/-- Counting the foremost starts of all parts together. -/
theorem atMost_of_mem {starts : List P} (h : ∀ s, Foremost nbrs pos l s → s ∈ starts) :
    AtMost nbrs pos l starts.length := by
  classical
  intro p _
  calc {s | Foremost nbrs pos l s ∧ ScanPath nbrs l p s}.ncard ≤ {s | s ∈ starts}.ncard :=
        Set.ncard_le_ncard (fun s hs => h s hs.1) (List.finite_toSet starts)
    _ ≤ starts.length := by
        rw [← List.coe_toFinset, Set.ncard_coe_finset]
        exact List.toFinset_card_le _

/-- The first element of a part is a start. -/
theorem Head.start (hl : Scan nbrs pos l) {p r : P} (h : Head nbrs pos l p r) : Start nbrs pos l r := by
  refine ⟨h.1.mem_right, fun q hrq hq => ?_⟩
  have hle := h.2 q (h.1.tail hrq hq)
  have hne : pos r ≠ pos q := fun heq => by
    obtain rfl := hl.pos_inj h.1.mem_right hq heq
    exact hl.irrefl r hq hrq
  omega

theorem exists_head {p : P} (hp : p ∈ l) : ∃ r, Head nbrs pos l p r := by
  obtain ⟨r, hr, hmin⟩ := (measure pos).wf.has_min {q | ScanPath nbrs l p q} ⟨p, PathIn.refl hp⟩
  exact ⟨r, hr, fun q hq => Nat.not_lt.1 (hmin q hq)⟩

/-- It is the first of its part for each element of the part. -/
theorem Head.self {p r : P} (h : Head nbrs pos l p r) : Head nbrs pos l r r :=
  ⟨PathIn.refl h.1.mem_right, fun q hq => h.2 q (h.1.trans hq)⟩

/-! ## What the first sweep leaves apart -/

section First

variable (hl : Scan nbrs pos l) (h₁ : Swept nbrs cap pos unlabelled l s₁) (hcap : 0 < cap)
include hl h₁ hcap

/-- A later neighbour has no larger label. -/
theorem label_le_of_later {p q : P} (hp : p ∈ l) (hq : q ∈ l) (hpq : q ∈ nbrs p) (hlt : pos p < pos q) :
    s₁.label q ≤ s₁.label p :=
  label_le_of_flows hl h₁ hcap (PathIn.single hp ⟨hpq, hlt⟩ hq)

/-- Where the labels have met, the larger one is linked at least as far down. -/
theorem link_le_of_later {p q : P} (hp : p ∈ l) (hq : q ∈ l) (hpq : q ∈ nbrs p) (hlt : pos p < pos q) :
    s₁.link (s₁.label p) ≤ s₁.label q := by
  have hview : view pos unlabelled s₁ q p = s₁.label p := if_pos hlt
  have hpos := h₁.label_pos (base_unlabelled l) hcap hp
  have hlink := (h₁.visited q hq).link_le p (hl.symm p hp q hq hpq) (by omega)
  rwa [hview] at hlink

/-- Below the cap a first label comes by a forward path. -/
theorem flows_of_first (hle : s₁.next ≤ cap) {p s : P} (hp : p ∈ l) (h : First nbrs cap pos l p s) :
    Flows nbrs pos l s p := by
  rcases h.2 with rfl | ⟨-, hflow | hatCap, -⟩
  · exact PathIn.refl hp
  · exact hflow
  · have hlt := h₁.label_lt (base_unlabelled l) s
    have heq := ((atCap_iff hl h₁ hcap).1 hatCap).2
    omega

/-- What is not linked leads to its own label only. -/
theorem Kept.label_eq {s p : P} (hs : Kept nbrs pos l s₁ s) (hflow : Flows nbrs pos l s p) :
    s₁.label p = s₁.label s := by
  refine hflow.induction (M := fun p => s₁.label p = s₁.label s) rfl ?_
  intro a b hsa hab hb ih
  have ha := hsa.mem_right
  have hle := label_le_of_later hl h₁ hcap ha hb hab.1 hab.2
  have hlink := link_le_of_later hl h₁ hcap ha hb hab.1 hab.2
  rw [ih, hs.2] at hlink
  omega

/-- **Foremost starts** are those that the first sweep does not link. -/
theorem foremost_iff (hle : s₁.next ≤ cap) {s : P} : Foremost nbrs pos l s ↔ Kept nbrs pos l s₁ s := by
  constructor
  · intro hs
    refine ⟨hs.1, ?_⟩
    have hlink : Link nbrs cap pos l s s := by
      refine ⟨Or.inl rfl, ?_⟩
      rintro s' ⟨p, hp, q, hq, hpq, hlt, hfp, hfq⟩
      exact hs.2 s' q hfq.1 ((flows_of_first hl h₁ hcap hle hp hfp).tail ⟨hpq, hlt⟩ hq)
        (flows_of_first hl h₁ hcap hle hq hfq)
    exact ((link_iff hl h₁ hcap s s hs.1).1 hlink).2.symm
  · intro hs
    refine ⟨hs.1, fun s' p hs' hflow hflow' => (label_le_iff hl h₁ hcap s s' hs.1 hs').1 ?_⟩
    rw [← hs.label_eq hl h₁ hcap hflow]
    exact label_le_of_flows hl h₁ hcap hflow'

/-- Below the cap every element is joined to the start whose label it has after the first sweep. -/
theorem exists_kept (hle : s₁.next ≤ cap) {p : P} (hp : p ∈ l) :
    ∃ r, Kept nbrs pos l s₁ r ∧ (resolve s₁).label p = s₁.label r ∧ ScanPath nbrs l p r := by
  have hbase := base_unlabelled l
  have hsound : Sound nbrs l (resolve s₁) := h₁.sound_resolve hbase hle hl fun _ _ hne => absurd rfl hne
  obtain ⟨r, hr, heq⟩ := exists_start_resolve hl h₁ hcap hp
  have hkept : s₁.link (s₁.label r) = s₁.label r := by
    rw [← heq]
    exact link_root (h₁.link_le_self hbase) _
  have hpos := (h₁.base_resolve hbase hcap).link_pos _ (h₁.label_pos hbase hcap hp)
  exact ⟨r, ⟨hr, hkept⟩, heq, hsound p r hpos.ne' (heq.trans (root_eq_self hkept).symm)⟩

/-- Below the cap an element that is no start has its label from one before it. -/
theorem exists_before (hle : s₁.next ≤ cap) {p : P} (hp : p ∈ l) (hstart : ¬Start nbrs pos l p) :
    ∃ q ∈ l, q ∈ nbrs p ∧ pos q < pos p ∧ s₁.label q = s₁.label p := by
  have hbase := base_unlabelled l
  have hf : ¬Fresh nbrs pos unlabelled s₁ p := fun hf => hstart ((start_iff_fresh hl h₁ hcap).2 ⟨hp, hf⟩)
  rcases (h₁.visited p hp).eq hf with heq | ⟨q, hpq, hne, heq⟩
  · have hlt := h₁.label_lt hbase p
    omega
  · have hq := h₁.view_mem hbase hne
    unfold view at hne heq
    split at hne
    · rename_i hlt
      rw [if_pos hlt] at heq
      exact ⟨q, hq, hpq, hlt, heq.symm⟩
    · exact absurd rfl hne

/-- A start whose label another element has gives it on to a neighbour. -/
theorem exists_after (hle : s₁.next ≤ cap) {s p : P} (hs : Start nbrs pos l s) (hp : p ∈ l) (hne : p ≠ s)
    (hlabel : s₁.label p = s₁.label s) : ∃ q ∈ l, q ∈ nbrs s ∧ pos s < pos q ∧ s₁.label q = s₁.label s := by
  induction hn : pos p using Nat.strong_induction_on generalizing p with
  | _ n ih =>
    subst hn
    obtain ⟨q, hq, hpq, hlt, heq⟩ :=
      exists_before hl h₁ hcap hle hp fun hp' => hne (start_eq hl h₁ hcap p s hp' hs hlabel)
    by_cases hqs : q = s
    · subst hqs
      exact ⟨p, hp, hl.symm p hp q hq hpq, hlt, hlabel⟩
    · exact ih (pos q) hlt hq hqs (heq.trans hlabel) rfl

/-- The end of the label of `p` is seen from `p` or from just before it, if a later neighbour has another one. -/
theorem sees_own (hle : s₁.next ≤ cap) {p q r : P} (hp : p ∈ l) (hq : q ∈ l) (hpq : q ∈ nbrs p) (hlt : pos p < pos q)
    (hne : (resolve s₁).label q ≠ (resolve s₁).label p) (hr : Start nbrs pos l r)
    (heq : (resolve s₁).label p = s₁.label r) :
    Sees nbrs cap pos l p r ∨ ∃ a ∈ l, a ∈ nbrs p ∧ pos a < pos p ∧ Sees nbrs cap pos l a r := by
  have hbase := base_unlabelled l
  by_cases hstart : Start nbrs pos l p
  · -- the label of `p` is linked, and where it is linked a later neighbour of `p` has it, or what it is linked to
    refine Or.inl ((sees_iff hl h₁ hcap).2 ⟨hr, ?_⟩)
    have hlink := link_le_of_later hl h₁ hcap hp hq hpq hlt
    have hlabel := label_le_of_later hl h₁ hcap hp hq hpq hlt
    have hdiff : s₁.label q ≠ s₁.label p := fun h => hne (congrArg (root s₁.link) h)
    rcases h₁.link_eq (s₁.label p) with hfix | ⟨b, hb, a, hba, hane, hview, hto⟩
    · have hfix' : s₁.link (s₁.label p) = s₁.label p := hfix
      omega
    · have ha := h₁.view_mem hbase hane
      unfold view at hview hane
      split at hview
      · rename_i hab
        by_cases hap : a = p
        · subst hap
          refine ⟨b, hb, hl.symm b hb a ha hba, hab, ?_⟩
          rw [← heq]
          show root s₁.link (s₁.label b) = root s₁.link (s₁.label a)
          rw [← hto, root_link (h₁.link_le_self hbase)]
        · obtain ⟨c, hc, hpc, hpc', hsame⟩ := exists_after hl h₁ hcap hle hstart ha hap hview
          exact ⟨c, hc, hpc, hpc', (congrArg (root s₁.link) hsame).trans heq⟩
      · rename_i hge
        exact absurd (if_neg hge) hane
  · obtain ⟨a, ha, hpa, hlt', hsame⟩ := exists_before hl h₁ hcap hle hp hstart
    exact Or.inr ⟨a, ha, hpa, hlt', (sees_iff hl h₁ hcap).2
      ⟨hr, p, hp, hl.symm p hp a ha hpa, hlt', heq⟩⟩

/-- If no start meets two earlier ones, the first sweep puts an element and a later neighbour together. -/
theorem label_eq_of_later (hone : MeetsOnce nbrs cap pos l) {a b : P} (ha : a ∈ l) (hb : b ∈ l) (hab : b ∈ nbrs a)
    (hlt : pos a < pos b) : (resolve s₁).label a = (resolve s₁).label b := by
  obtain ⟨s, hs⟩ := exists_first hl h₁ hcap ha
  obtain ⟨s', hs'⟩ := exists_first hl h₁ hcap hb
  obtain ⟨hstart, hlabel⟩ := (first_iff hl h₁ hcap ha).1 hs
  obtain ⟨hstart', hlabel'⟩ := (first_iff hl h₁ hcap hb).1 hs'
  have hmeets : Meets nbrs cap pos l s s' := ⟨a, ha, b, hb, hab, hlt, hs, hs'⟩
  show root s₁.link (s₁.label a) = root s₁.link (s₁.label b)
  by_cases heq : s' = s
  · rw [← hlabel, ← hlabel', heq]
  · -- `s` is linked, and `s'` is all that it can be linked to
    obtain ⟨t, ht, hlink⟩ := exists_link hl h₁ hcap s hstart
    obtain ⟨hcase, hmin⟩ := (link_iff hl h₁ hcap s t hstart).2 ⟨ht, hlink⟩
    have hts : t ≠ s := by
      rintro rfl
      have hle := label_le_of_later hl h₁ hcap ha hb hab hlt
      have hle' := (label_le_iff hl h₁ hcap t s' ht hstart').2 (hmin s' hmeets)
      exact heq (start_eq hl h₁ hcap s' t hstart' ht (by omega))
    obtain rfl := hone s s' t hmeets (hcase.resolve_left hts) heq hts
    rw [← hlabel, ← hlabel', hlink, root_link (h₁.link_le_self (base_unlabelled l))]

/-- And so a whole part. -/
theorem label_eq_of_path (hone : MeetsOnce nbrs cap pos l) {a b : P} (hab : ScanPath nbrs l a b) :
    (resolve s₁).label a = (resolve s₁).label b := by
  refine hab.induction (M := fun b => (resolve s₁).label a = (resolve s₁).label b) rfl ?_
  intro c d hac hcd hd ih
  have hc := hac.mem_right
  rcases Nat.lt_trichotomy (pos c) (pos d) with hlt | heq | hlt
  · exact ih.trans (label_eq_of_later hl h₁ hcap hone hc hd hcd hlt)
  · exact ih.trans (by rw [hl.pos_inj hc hd heq])
  · exact ih.trans (label_eq_of_later hl h₁ hcap hone hd hc (hl.symm c hc d hd hcd) hlt).symm

end First

/-! ## What the second sweep puts together -/

section Second

variable (hl : Scan nbrs pos l) (h₁ : Swept nbrs cap pos unlabelled l s₁) (h₂ : Swept nbrs cap pos (resolve s₁) l s₂)
  (hcap : 0 < cap)
include hl h₁ h₂ hcap

/-- Of two that are seen from an element or from just before it, the later one is no bottom. -/
theorem not_bottom_of_seen {p r r' : P} (hp : p ∈ l)
    (hr : Sees nbrs cap pos l p r ∨ ∃ a ∈ l, a ∈ nbrs p ∧ pos a < pos p ∧ Sees nbrs cap pos l a r)
    (hr' : Sees nbrs cap pos l p r' ∨ ∃ a ∈ l, a ∈ nbrs p ∧ pos a < pos p ∧ Sees nbrs cap pos l a r')
    (hlt : pos r < pos r') : ¬Bottom nbrs cap pos l r' := by
  intro hbottom
  -- the second label of `p` is not after `r`
  obtain ⟨a, hap, har⟩ : ∃ a, Flows nbrs pos l a p ∧ Sees nbrs cap pos l a r := by
    rcases hr with hsees | ⟨a, ha, hpa, hlt', hsees⟩
    · exact ⟨p, PathIn.refl hp, hsees⟩
    · exact ⟨a, PathIn.single ha ⟨hl.symm p hp a ha hpa, hlt'⟩ hp, hsees⟩
  have hexists : ∀ {b x}, b ∈ l → Sees nbrs cap pos l b x → ∃ t, Second nbrs cap pos l b t := by
    rintro b x hb ⟨c, hc, hbc, -⟩
    obtain ⟨t, ht, -⟩ := exists_second hl h₁ h₂ hcap hb fun hiso => hiso.2 c hbc hc
    exact ⟨t, ht⟩
  obtain ⟨t, ht⟩ : ∃ t, Second nbrs cap pos l p t := by
    rcases hr with hsees | ⟨a, ha, hpa, -⟩
    · exact hexists hp hsees
    · obtain ⟨t, ht, -⟩ := exists_second hl h₁ h₂ hcap hp fun hiso => hiso.2 a hpa ha
      exact ⟨t, ht⟩
  have htr := ht.2 a r hap har
  -- so `r'` may not be beside it
  have hnot : ¬Beside nbrs cap pos l p r' := fun hbeside => by
    have hle := hbottom t ⟨p, hp, ht, hbeside⟩
    omega
  rcases hr' with hsees | ⟨b, hb, hpb, hlt', hsees⟩
  · exact hnot (Or.inl hsees)
  · obtain ⟨u, hu⟩ := hexists hb hsees
    have hle := hbottom u ⟨b, hb, hu, Or.inl hsees⟩
    have hge := hu.2 b r' (PathIn.refl hb) hsees
    obtain rfl : u = r' := hl.pos_inj ((second_iff hl h₁ h₂ hcap hb).1 hu).1.1
      ((sees_iff hl h₁ hcap).1 hsees).1.1 (by omega)
    exact hnot (Or.inr ⟨b, hb, hpb, hlt', hu⟩)

/-- **Neighbours with different labels**: the later one of them is no bottom. -/
theorem not_bottom (hle : s₁.next ≤ cap) {p q r r' : P} (hp : p ∈ l) (hq : q ∈ l) (hpq : q ∈ nbrs p)
    (hr : Start nbrs pos l r) (hr' : Start nbrs pos l r') (hpr : (resolve s₁).label p = s₁.label r)
    (hqr : (resolve s₁).label q = s₁.label r') (hne : r ≠ r') :
    ¬(Bottom nbrs cap pos l r ∧ Bottom nbrs cap pos l r') := by
  rintro ⟨hb, hb'⟩
  wlog hlt : pos p < pos q generalizing p q r r'
  · refine this hq hp (hl.symm p hp q hq hpq) hr' hr hqr hpr hne.symm hb' hb ?_
    have hpos : pos p ≠ pos q := fun h => by
      obtain rfl := hl.pos_inj hp hq h
      exact hl.irrefl p hp hpq
    omega
  have hdiff : (resolve s₁).label q ≠ (resolve s₁).label p := fun h =>
    hne (start_eq hl h₁ hcap r r' hr hr' (by omega))
  have hown := sees_own hl h₁ hcap hle hp hq hpq hlt hdiff hr hpr
  have hother : Sees nbrs cap pos l p r' := (sees_iff hl h₁ hcap).2 ⟨hr', q, hq, hpq, hlt, hqr⟩
  rcases Nat.lt_trichotomy (pos r) (pos r') with h | h | h
  · exact not_bottom_of_seen hl h₁ h₂ hcap hp hown (Or.inl hother) h hb'
  · exact hne (hl.pos_inj hr.1 hr'.1 h)
  · exact not_bottom_of_seen hl h₁ h₂ hcap hp (Or.inl hother) hown h hb

omit h₂ in
/-- Below the cap second labels are foremost starts on the same part. -/
theorem kept_of_second (hle : s₁.next ≤ cap) {p r : P} (h : Second nbrs cap pos l p r) :
    Kept nbrs pos l s₁ r ∧ ScanPath nbrs l p r := by
  obtain ⟨⟨a, hap, hsees⟩, -⟩ := h
  obtain ⟨hr, q, hq, haq, -, heq⟩ := (sees_iff hl h₁ hcap).1 hsees
  obtain ⟨r', hr', heq', hpath⟩ := exists_kept hl h₁ hcap hle hq
  obtain rfl := start_eq hl h₁ hcap r' r hr'.1 hr (heq'.symm.trans heq)
  have hpa : ScanPath nbrs l p a := hl.path_symm (hap.imp fun _ _ _ _ h => h.1)
  exact ⟨hr', (hpa.tail haq hq).trans hpath⟩

/-- **Two foremost starts** on a part are put together by the second sweep. -/
theorem oneBottom_of_atMost (hle : s₁.next ≤ cap) (htwo : AtMost nbrs pos l 2) : OneBottom nbrs cap pos l := by
  intro p q r r' hpq hr hr' hb hb'
  by_contra hne
  obtain ⟨hkept, hpr⟩ := kept_of_second hl h₁ hcap hle hr
  obtain ⟨hkept', hqr'⟩ := kept_of_second hl h₁ hcap hle hr'
  have hrr' : ScanPath nbrs l r r' := (hl.path_symm hpr).trans (hpq.trans hqr')
  -- along a path from one to the other, all elements have the label of the first one
  have hsame : (resolve s₁).label r' = s₁.label r := by
    refine hrr'.induction (M := fun x => (resolve s₁).label x = s₁.label r) (root_eq_self hkept.2) ?_
    intro x y hrx hxy hy hx
    obtain ⟨t, ht, hyt, hpath⟩ := exists_kept hl h₁ hcap hle hy
    have hforemost : ∀ {t}, Kept nbrs pos l s₁ t → Foremost nbrs pos l t := (foremost_iff hl h₁ hcap hle).2
    rcases htwo.eq_of_three (hforemost hkept) (hforemost hkept') (hforemost ht) hrr'
      ((hrx.tail hxy hy).trans hpath) with heq | rfl | rfl
    · exact absurd heq hne
    · exact hyt
    · exact absurd ⟨hb, hb'⟩ (not_bottom hl h₁ h₂ hcap hle hrx.mem_right hy hxy hkept.1 hkept'.1 hx hyt hne)
  have hown : (resolve s₁).label r' = s₁.label r' := root_eq_self hkept'.2
  exact hne (start_eq hl h₁ hcap r r' hkept.1 hkept'.1 (hsame.symm.trans hown))

/-- **Where no link is overwritten** every part gets one label. -/
theorem complete_of_meetsOnce (hone : MeetsOnce nbrs cap pos l) {p q : P} (hpq : ScanPath nbrs l p q) :
    (resolve s₂).label p = (resolve s₂).label q := by
  have hsame : ∀ {a b}, ScanPath nbrs l a b → (resolve s₁).label a = (resolve s₁).label b :=
    label_eq_of_path hl h₁ hcap hone
  -- the second sweep gives the part the label of the first one again
  have hsecond : ∀ {a}, a ∈ l → ¬Isolated nbrs l a → s₂.label a = (resolve s₁).label a := by
    intro a ha hiso
    obtain ⟨b, r, hba, hsees, hlabel⟩ := exists_sees hl h₁ h₂ hcap ha hiso
    obtain ⟨-, c, hc, hbc, -, heq⟩ := (sees_iff hl h₁ hcap).1 hsees
    have hab : ScanPath nbrs l a b := hl.path_symm (hba.imp fun _ _ _ _ h => h.1)
    rw [hlabel, ← heq, hsame (hab.tail hbc hc)]
  by_cases hiso : Isolated nbrs l p
  · rw [eq_of_isolated hiso hpq]
  · have hiso' : ¬Isolated nbrs l q := fun h => hiso (eq_of_isolated h (hl.path_symm hpq) ▸ h)
    show root s₂.link (s₂.label p) = root s₂.link (s₂.label q)
    rw [hsecond hpq.mem_left hiso, hsecond hpq.mem_right hiso', hsame hpq]

/-! ## Parts with one label -/

/-- The links from the first element of a part end at itself. -/
theorem end_head (hle : s₂.next ≤ cap) {r : P} (hr : Head nbrs pos l r r) (hiso : ¬Isolated nbrs l r) :
    End nbrs cap pos l r r := by
  have hbase := base_unlabelled l
  have hle₁ : s₁.next ≤ cap := h₂.next_le.trans hle
  have hmem := hr.1.mem_left
  have hstart := Head.start hl hr
  -- what is joined to it is not before it
  have hfirst : ∀ {a t}, ScanPath nbrs l r a → Start nbrs pos l t → ScanPath nbrs l a t →
      s₁.label r ≤ s₁.label t := fun ha ht hat =>
    (label_le_iff hl h₁ hcap r _ hstart ht).2 (hr.2 _ (ha.trans hat))
  -- it is seen from itself in the second sweep
  obtain ⟨q, hrq, hq⟩ : ∃ q ∈ nbrs r, q ∈ l := by
    by_contra hnone
    push Not at hnone
    exact hiso ⟨hmem, hnone⟩
  have hlt := hstart.2 q hrq hq
  obtain ⟨t, ht, hqt, hpath⟩ := exists_kept hl h₁ hcap hle₁ hq
  have hrt := hfirst (PathIn.single hmem hrq hq) ht.1 hpath
  have hqr := label_le_of_later hl h₁ hcap hmem hq hrq hlt
  have hroot : (resolve s₁).label q ≤ s₁.label q := root_le (h₁.link_le_self hbase) _
  have hsees : Sees nbrs cap pos l r r := (sees_iff hl h₁ hcap).2 ⟨hstart, q, hq, hrq, hlt, by omega⟩
  have hsecond := label_le_of_sees hl h₁ h₂ hcap (PathIn.refl hmem) hsees
  -- so its end, which is on the part, is not after it
  obtain ⟨e, hend, hlabel⟩ := exists_end hl h₁ h₂ hcap hmem hiso
  have hend_le : (resolve s₂).label r ≤ s₂.label r := root_le (h₂.link_le_self (h₁.base_resolve hbase hcap)) _
  have hsound : Sound nbrs l (resolve s₁) := h₁.sound_resolve hbase hle₁ hl fun _ _ hne => absurd rfl hne
  obtain ⟨a, ha, hra, hlink⟩ := h₂.root_sound (h₁.base_resolve hbase hcap) hle hl hsound hmem
  have hkept := ((end_iff hl h₁ h₂ hcap hmem hiso).1 hend).1
  obtain ⟨-, hae⟩ := kept_of_second hl h₁ hcap hle₁
    ((second_iff hl h₁ h₂ hcap ha).2 ⟨hkept.1, (hlabel.trans hlink).symm⟩)
  have hre := hfirst hra hkept.1 hae
  obtain rfl := start_eq hl h₁ hcap e r hkept.1 hstart (by omega)
  exact hend

/-- **Ends and first elements**: below the cap a part with one end ends at its first element. -/
theorem end_iff_head (hle : s₂.next ≤ cap) (hone : OneEnd nbrs cap pos l) {p r : P} (hp : p ∈ l)
    (hiso : ¬Isolated nbrs l p) : End nbrs cap pos l p r ↔ Head nbrs pos l p r := by
  -- the end at the first element is the only one
  have hends : ∀ {r}, Head nbrs pos l p r → End nbrs cap pos l p r := fun {r} hr => by
    have hiso' : ¬Isolated nbrs l r := fun h => hiso (eq_of_isolated h (hl.path_symm hr.1) ▸ h)
    obtain ⟨e, hend, -⟩ := exists_end hl h₁ h₂ hcap hp hiso
    rwa [hone p r e r hr.1 hend (end_head hl h₁ h₂ hcap hle hr.self hiso')] at hend
  refine ⟨fun hend => ?_, hends⟩
  obtain ⟨r', hr'⟩ : ∃ r, Head nbrs pos l p r := exists_head hp
  rwa [hone p p r r' (PathIn.refl hp) hend (hends hr')]

/-- The labels that are still there are those of the first elements of the parts. -/
theorem named_iff_head (hle : s₂.next ≤ cap) (hone : OneEnd nbrs cap pos l) {s : P} :
    Start nbrs pos l s ∧ Named nbrs cap pos l s ↔ Head nbrs pos l s s := by
  constructor
  · rintro ⟨hs, ⟨a, ha, hend⟩ | ⟨hiso, -⟩⟩
    · have hiso := not_isolated_of_end hl h₁ h₂ hcap ha hend
      exact ((end_iff_head hl h₁ h₂ hcap hle hone ha hiso).1 hend).self
    · exact ⟨PathIn.refl hs.1, fun q hq => by rw [eq_of_isolated hiso hq]⟩
  · intro hs
    refine ⟨Head.start hl hs, ?_⟩
    by_cases hiso : Isolated nbrs l s
    · refine Or.inr ⟨hiso, fun q hq hfirst => ?_⟩
      have hflow := flows_of_first hl h₁ hcap (h₂.next_le.trans hle) hq hfirst
      exact eq_of_isolated hiso (hflow.imp fun _ _ _ _ h => h.1)
    · exact Or.inl ⟨s, hs.1.mem_left, end_head hl h₁ h₂ hcap hle hs hiso⟩

/-- **The number of a part**: how many parts begin before it, and one more. -/
theorem count_label_head [DecidablePred fun k => s₂.link k = k] (hle : s₂.next ≤ cap) (hone : OneEnd nbrs cap pos l)
    {p r : P} (hr : Head nbrs pos l p r) (hiso : ¬Isolated nbrs l p) :
    Nat.count (fun k => s₂.link k = k) ((resolve s₂).label p) = {s | Head nbrs pos l s s ∧ pos s < pos r}.ncard + 1 := by
  have hp := hr.1.mem_left
  rw [count_label hl h₁ h₂ hcap hp ((end_iff_head hl h₁ h₂ hcap hle hone hp hiso).2 hr)]
  congr 2
  ext s
  show _ ∧ _ ∧ _ ↔ _ ∧ _
  rw [← and_assoc, named_iff_head hl h₁ h₂ hcap hle hone]

end Second

end LeftFelt.Lib
