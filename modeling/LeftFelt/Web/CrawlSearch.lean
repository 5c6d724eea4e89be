import LeftFelt.Lib.Search
import LeftFelt.Web.ImageCrawler

/-!
# The crawlers as a search

Every event is a step of a search (`refines`): to hand out an address is to take a task, and what a crawler has not
posted yet it owes. The second removal in `imageGetNextURL` may take away an address that has been registered again in
between. It has been taken out before, though (`Held`), so the search does not lose it.

`given_once` counts: an address is given to a crawler at most as often as it is registered.
-/

namespace LeftFelt.Web.ImageCrawler

open Str Lib Crawler

variable {κ ι : Type*} {c : Column κ}

/-! ## As a search -/

/-- The answer of `imageGetNextURL` when this address has been taken out of the set. -/
def reply (web : Web) (url : Str) : Str :=
  if truthy url then answer web (literal "success") url else answer web (literal "failure") []

/-- What a crawler is still going to post. -/
def pending (web : Web) : Client → Harvest
  | .popped url => harvestOf web (answer web (literal "success") url)
  | .answered response => harvestOf web response
  | .posting images links => ⟨images, links⟩

/-- What arrives of addresses that are posted. -/
def sent (urls : List Str) : Set Str := {v | ∃ u ∈ urls, posted (post u) = some v}

/-- The links that the page at an address makes the crawlers register. -/
def linksOf (web : Web) (url : Str) : Set Str := sent (harvestOf web (reply web url)).links

/-- The images. -/
def imagesOf (web : Web) (url : Str) : Set Str := sent (harvestOf web (reply web url)).images

/-- The address that the event registers from outside. -/
def Event.seed : Event ι → Option Str
  | .imageSetNextURL url => url
  | _ => none

/-- The address that the event registers. -/
def Event.registers : Event ι → Option Str
  | .imageSetNextURL url => url
  | .postLink _ url => some url
  | _ => none

/-- The address that the event takes out of the set for a crawler. -/
def Event.takes : Event ι → Option Str
  | .spop _ url => url
  | _ => none

/-- The address that the event gives to a crawler. For `""` and `"0"` the answer is a failure. -/
def Event.gives : Event ι → Option Str
  | .spop _ (some url) => if truthy url then some url else none
  | _ => none

/-- The image that the event adds from outside. -/
def Event.image : Event ι → Option Str
  | .addImageURL url _ => url
  | _ => none

/-- The addresses of the events, in their order. -/
def collected (f : Event ι → Option Str) (events : List (Event ι)) : List Str := events.filterMap f

/-- The links that a crawler owes. -/
def owesLinks (web : Web) (client : Client) : Set Str := sent (pending web client).links

/-- The images that a crawler owes. -/
def owesImages (web : Web) (client : Client) : Set Str := sent (pending web client).images

/-- The search that the crawlers carry out. -/
def view (web : Web) (events : List (Event ι)) (s : System c ι) : Search.State Str where
  seeds := {url | url ∈ collected Event.seed events}
  waiting := s.redis
  owed := Search.owedBy (owesLinks web) s.client
  taken := {url | url ∈ collected Event.takes events}

/-- Does the event take addresses out of the set that nobody gets? -/
def Event.Lossy : Event ι → Prop
  | .imageDelNextURL | .deleteLink _ => True
  | _ => False

/-- An address that is to be removed once more has been taken out. -/
def Held (events : List (Event ι)) (s : System c ι) : Prop :=
  ∀ i url, s.client i = .popped url → url ∈ collected Event.takes events ∧ truthy url

theorem sent_nil : sent [] = ∅ := by
  ext v
  simp [sent]

theorem sent_cons {u v : Str} (h : posted (post u) = some v) (urls : List Str) :
    sent (u :: urls) = insert v (sent urls) := by
  ext w
  simp [sent, h, eq_comm]

theorem harvestOf_failure (web : Web) : harvestOf web (answer web (literal "failure") []) = ⟨[], []⟩ := by
  obtain ⟨r, hr⟩ := request_total Http.new getNextURL (literal "GET") []
  rw [harvestOf, Crawler.crawl, hr]
  simp only [bind, Except.bind, readAnswer_failure]
  rfl

/-- One more event with an address. -/
theorem collected_append_some {f : Event ι → Option Str} {e : Event ι} {url : Str} (events : List (Event ι))
    (h : f e = some url) : {v | v ∈ collected f (events ++ [e])} = insert url {v | v ∈ collected f events} := by
  ext v
  simp [collected, List.filterMap_append, h, or_comm, eq_comm]

/-- One more event without one. -/
theorem collected_append_none {f : Event ι → Option Str} {e : Event ι} (events : List (Event ι)) (h : f e = none) :
    collected f (events ++ [e]) = collected f events := by
  simp [collected, List.filterMap_append, h]

/-- The search of crawlers that go on without registering or taking out an address. -/
theorem view_eq {web : Web} {events : List (Event ι)} {e : Event ι} (s' : System c ι) (hseed : e.seed = none)
    (htakes : e.takes = none) : view web (events ++ [e]) s' = view web events s' := by
  rw [view, collected_append_none _ hseed, collected_append_none _ htakes]
  rfl

theorem owesLinks_idle (web : Web) : owesLinks web .idle = ∅ := sent_nil

theorem owesLinks_failure (web : Web) : owesLinks web (.answered (answer web (literal "failure") [])) = ∅ := by
  rw [owesLinks, pending, harvestOf_failure]
  exact sent_nil

/-- What a crawler owes when an address has been taken out for it. -/
theorem pending_reply (web : Web) (url : Str) :
    pending web (if truthy url then .popped url else .answered (answer web (literal "failure") [])) =
      harvestOf web (reply web url) := by
  unfold reply
  split <;> rfl

variable [DecidableEq ι]

/-- A crawler goes on without handing in a link. -/
theorem view_setClient {web : Web} {events : List (Event ι)} {s : System c ι} {i : ι} {state : Client}
    (h : owesLinks web state = owesLinks web (s.client i)) :
    view web events (setClient i state s) = view web events s := by
  rw [view, setClient, Search.owedBy_update_eq h]
  rfl

variable [DecidableEq κ]

/-- **The crawlers carry out a search**: every event is a step of it, or none. -/
theorem refines {web : Web} {events : List (Event ι)} {e : Event ι} {s s' : System c ι} (hheld : Held events s)
    (h : step web s e = some s') :
    Relation.ReflGen (Search.Step (fun u v => v ∈ linksOf web u) e.Lossy) (view web events s)
      (view web (events ++ [e]) s') := by
  cases e with
  | imageSetNextURL url =>
    cases url with
    | none =>
      cases h
      rw [view_eq _ rfl rfl]
    | some url =>
      cases h
      have hview : view web (events ++ [.imageSetNextURL (some url)]) (sadd url s) =
          { view web events s with
            seeds := insert url (view web events s).seeds, waiting := insert url (s.redis : Set Str) } := by
        refine Search.State.ext (collected_append_some _ rfl) (Finset.coe_insert _ _) rfl ?_
        show {v | v ∈ collected Event.takes _} = _
        rw [collected_append_none _ rfl]
        rfl
      rw [hview]
      exact .single (.seed _ url)
  | addImageURL url skipped =>
    cases url with
    | none =>
      cases h
      rw [view_eq _ rfl rfl]
    | some url =>
      cases h
      rw [view_eq _ rfl rfl]
      exact .refl
  | imageDelNextURL =>
    cases h
    rw [view_eq _ rfl rfl]
    have hview : view web events { s with redis := ∅ } =
        { view web events s with waiting := (view web events s).waiting \ Set.univ } := by
      simp [view]
    rw [hview]
    exact .single (.drop _ (.inr trivial))
  | deleteLink url =>
    cases h
    rw [view_eq _ rfl rfl]
    have hview : view web events { s with redis := s.redis.erase url } =
        { view web events s with waiting := (view web events s).waiting \ {url} } := by
      simp [view]
    rw [hview]
    exact .single (.drop _ (.inr trivial))
  | spop i url =>
    cases url with
    | none =>
      simp only [step] at h
      split at h
      · rename_i hidle
        cases h
        rw [view_eq _ rfl rfl, view_setClient]
        rw [hidle.1, owesLinks_failure, owesLinks_idle]
      · cases h
    | some url =>
      simp only [step] at h
      split at h
      · rename_i hidle
        cases h
        have hnone : owesLinks web (s.client i) = ∅ := by rw [hidle.1, owesLinks_idle]
        set state : Client :=
          if truthy url then .popped url else .answered (answer web (literal "failure") []) with hstate
        have howes : owesLinks web state = linksOf web url := by rw [owesLinks, hstate, pending_reply, linksOf]
        have hview : view web (events ++ [.spop i (some url)])
            (setClient i state { s with redis := s.redis.erase url }) =
            { view web events s with
              waiting := (view web events s).waiting \ {url}
              owed := (view web events s).owed ∪ {v | v ∈ linksOf web url}
              taken := insert url (view web events s).taken } := by
          refine Search.State.ext ?_ (Finset.coe_erase _ _) ?_ (collected_append_some _ rfl)
          · rw [view, collected_append_none _ rfl]
            rfl
          · show Search.owedBy (owesLinks web) (Function.update s.client i state) = _
            rw [Search.owedBy_update_idle hnone, howes]
            rfl
        rw [hview]
        exact .single (.take _ hidle.2)
      · cases h
  | srem i =>
    simp only [step] at h
    split at h
    · rename_i url hclient
      cases h
      have hview : view web (events ++ [.srem i])
          (setClient i (.answered (answer web (literal "success") url)) { s with redis := s.redis.erase url }) =
          { view web events s with waiting := (view web events s).waiting \ {url} } := by
        rw [view_eq _ rfl rfl, view_setClient (by rw [hclient]; rfl)]
        simp [view]
      rw [hview]
      exact .single (.drop _ (.inl (Set.singleton_subset_iff.2 (hheld i url hclient).1)))
    · cases h
  | crawl i =>
    simp only [step] at h
    split at h
    · rename_i response hclient
      cases h
      rw [view_eq _ rfl rfl, view_setClient (by rw [hclient]; rfl)]
    · cases h
  | postImage i url skipped =>
    simp only [step] at h
    split at h
    · rename_i image images links hclient
      split at h
      · cases h
        rw [view_eq _ rfl rfl, view_setClient (by rw [addImage, hclient]; rfl)]
        exact .refl
      · cases h
    · cases h
  | postLink i url =>
    simp only [step] at h
    split at h
    · rename_i link links hclient
      split at h
      · rename_i hpost
        cases h
        have howes : owesLinks web (s.client i) = insert url (owesLinks web (.posting [] links)) := by
          rw [hclient]
          exact sent_cons hpost links
        obtain ⟨hmem, hsub, hrest⟩ := Search.owedBy_update_insert howes
        have hview : view web (events ++ [.postLink i url]) (setClient i (.posting [] links) (sadd url s)) =
            { view web events s with
              waiting := insert url (view web events s).waiting
              owed := Search.owedBy (owesLinks web) (Function.update s.client i (.posting [] links)) } := by
          rw [view_eq _ rfl rfl]
          exact Search.State.ext rfl (Finset.coe_insert _ _) rfl rfl
        rw [hview]
        exact .single (.handIn _ hmem hsub hrest)
      · cases h
    · cases h

/-! ## Addresses that are removed once more -/

variable {web : Web} {s s' : System c ι}

omit [DecidableEq κ] in
/-- A crawler goes on, and another one is to remove its address once more. -/
theorem held_setClient {events : List (Event ι)} {e : Event ι} {i : ι} {state : Client} (h : Held events s)
    (hstate : ∀ url, state = .popped url → url ∈ collected Event.takes (events ++ [e]) ∧ truthy url) :
    Held (events ++ [e]) (setClient i state s) := by
  intro j url hj
  rw [client_setClient] at hj
  split at hj
  · exact hstate url hj
  · obtain ⟨hmem, htruthy⟩ := h j url hj
    exact ⟨by rw [collected, List.filterMap_append]; exact List.mem_append_left _ hmem, htruthy⟩

omit [DecidableEq ι] [DecidableEq κ] in
theorem held_same {events : List (Event ι)} (e : Event ι) (h : Held events s) (hclient : s'.client = s.client) :
    Held (events ++ [e]) s' := by
  intro j url hj
  obtain ⟨hmem, htruthy⟩ := h j url (hclient ▸ hj)
  exact ⟨by rw [collected, List.filterMap_append]; exact List.mem_append_left _ hmem, htruthy⟩

omit [DecidableEq ι] [DecidableEq κ] in
theorem held_start (c : Column κ) : Held ([] : List (Event ι)) (start c ι) := by
  intro i url h
  cases h

theorem held_step {events : List (Event ι)} {e : Event ι} (h : Held events s) (hstep : step web s e = some s') :
    Held (events ++ [e]) s' := by
  cases e with
  | imageSetNextURL url => cases url <;> cases hstep <;> exact held_same _ h rfl
  | addImageURL url skipped => cases url <;> cases hstep <;> exact held_same _ h rfl
  | imageDelNextURL => cases hstep; exact held_same _ h rfl
  | deleteLink url => cases hstep; exact held_same _ h rfl
  | spop i url =>
    cases url with
    | none =>
      simp only [step] at hstep
      split at hstep
      · cases hstep
        exact held_setClient h (by simp)
      · cases hstep
    | some url =>
      simp only [step] at hstep
      split at hstep
      · cases hstep
        refine held_setClient (s := { s with redis := s.redis.erase url }) h fun v hv => ?_
        split at hv
        · rename_i htruthy
          cases hv
          exact ⟨by simp [collected, List.filterMap_append, Event.takes], htruthy⟩
        · cases hv
      · cases hstep
  | srem i =>
    simp only [step] at hstep
    split at hstep
    · rename_i url hclient
      cases hstep
      exact held_setClient (s := { s with redis := s.redis.erase url }) h (by simp)
    · cases hstep
  | crawl i =>
    simp only [step] at hstep
    split at hstep
    · cases hstep
      exact held_setClient h (by simp)
    · cases hstep
  | postImage i url skipped =>
    simp only [step] at hstep
    split at hstep
    · split at hstep
      · cases hstep
        exact held_setClient (s := addImage skipped url s) h (by simp)
      · cases hstep
    · cases hstep
  | postLink i url =>
    simp only [step] at hstep
    split at hstep
    · split at hstep
      · cases hstep
        exact held_setClient (s := sadd url s) h (by simp)
      · cases hstep
    · cases hstep

/-! ## The set -/

/-- **What an event does to the set**: it registers an address, takes one out for a crawler, or takes some away, which
have been taken out before if nothing is lost. -/
theorem redis_step {events : List (Event ι)} {e : Event ι} (hheld : Held events s) (hstep : step web s e = some s') :
    (∃ url, e.registers = some url ∧ e.takes = none ∧ s'.redis = insert url s.redis) ∨
    (∃ url, e.registers = none ∧ e.takes = some url ∧ url ∈ s.redis ∧ s'.redis = s.redis.erase url) ∨
    (e.registers = none ∧ e.takes = none ∧ s'.redis ⊆ s.redis ∧
      (¬e.Lossy → ∀ url ∈ s.redis, url ∈ s'.redis ∨ url ∈ collected Event.takes events)) := by
  cases e with
  | imageSetNextURL url =>
    cases url with
    | none => cases hstep; exact .inr (.inr ⟨rfl, rfl, subset_rfl, fun _ url h => .inl h⟩)
    | some url => cases hstep; exact .inl ⟨url, rfl, rfl, rfl⟩
  | addImageURL url skipped =>
    cases url <;> cases hstep <;> exact .inr (.inr ⟨rfl, rfl, subset_rfl, fun _ url h => .inl h⟩)
  | imageDelNextURL => cases hstep; exact .inr (.inr ⟨rfl, rfl, Finset.empty_subset _, fun h => absurd trivial h⟩)
  | deleteLink url => cases hstep; exact .inr (.inr ⟨rfl, rfl, Finset.erase_subset _ _, fun h => absurd trivial h⟩)
  | spop i url =>
    cases url with
    | none =>
      simp only [step] at hstep
      split at hstep
      · cases hstep
        exact .inr (.inr ⟨rfl, rfl, subset_rfl, fun _ url h => .inl h⟩)
      · cases hstep
    | some url =>
      simp only [step] at hstep
      split at hstep
      · rename_i hidle
        cases hstep
        exact .inr (.inl ⟨url, rfl, rfl, hidle.2, rfl⟩)
      · cases hstep
  | srem i =>
    simp only [step] at hstep
    split at hstep
    · rename_i url hclient
      cases hstep
      refine .inr (.inr ⟨rfl, rfl, Finset.erase_subset _ _, fun _ v hv => ?_⟩)
      by_cases hvu : v = url
      · exact .inr (hvu ▸ (hheld i url hclient).1)
      · exact .inl (Finset.mem_erase.2 ⟨hvu, hv⟩)
    · cases hstep
  | crawl i =>
    simp only [step] at hstep
    split at hstep
    · cases hstep
      exact .inr (.inr ⟨rfl, rfl, subset_rfl, fun _ url h => .inl h⟩)
    · cases hstep
  | postImage i url skipped =>
    simp only [step] at hstep
    split at hstep
    · split at hstep
      · cases hstep
        exact .inr (.inr ⟨rfl, rfl, subset_rfl, fun _ url h => .inl h⟩)
      · cases hstep
    · cases hstep
  | postLink i url =>
    simp only [step] at hstep
    split at hstep
    · split at hstep
      · cases hstep
        exact .inl ⟨url, rfl, rfl, rfl⟩
      · cases hstep
    · cases hstep

omit [DecidableEq ι] [DecidableEq κ] in
theorem count_collected_append (f : Event ι → Option Str) (events : List (Event ι)) (e : Event ι) (url : Str) :
    (collected f (events ++ [e])).count url = (collected f events).count url + if f e = some url then 1 else 0 := by
  cases h : f e with
  | none => simp [collected, List.filterMap_append, h]
  | some v =>
    by_cases hv : v = url
    · simp [collected, List.filterMap_append, h, hv]
    · simp [collected, List.filterMap_append, h, hv]

/-- How often an address has been taken out and registered, and where it is. -/
structure Counted (events : List (Event ι)) (s : System c ι) (url : Str) : Prop where
  count : (collected Event.takes events).count url + (if url ∈ s.redis then 1 else 0) ≤
    (collected Event.registers events).count url
  standing : (∀ e ∈ events, ¬e.Lossy) → url ∈ collected Event.registers events →
    url ∈ s.redis ∨ url ∈ collected Event.takes events

theorem counted_step {events : List (Event ι)} {e : Event ι} {url : Str} (hheld : Held events s)
    (h : Counted events s url) (hstep : step web s e = some s') : Counted (events ++ [e]) s' url := by
  have hold : (∀ e' ∈ events ++ [e], ¬e'.Lossy) → ∀ e' ∈ events, ¬e'.Lossy := fun hkeep e' he' =>
    hkeep e' (List.mem_append_left _ he')
  obtain ⟨v, hregister, htakes, hredis⟩ | ⟨v, hregister, htakes, hmem, hredis⟩ | ⟨hregister, htakes, hsub, hkeep⟩ :=
    redis_step hheld hstep
  · refine ⟨?_, fun hkeep => ?_⟩
    · have hcount := h.count
      rw [count_collected_append, count_collected_append, hregister, htakes, hredis]
      by_cases hv : v = url
      · simp only [hv, Finset.mem_insert_self, if_true, reduceCtorEq, if_false, Nat.add_zero]
        omega
      · have hne : ¬url = v := fun heq => hv heq.symm
        simpa [hv, hne] using hcount
    · rw [collected_append_none _ htakes, hredis, Finset.mem_insert]
      intro hmem
      by_cases hv : url = v
      · exact .inl (.inl hv)
      · have hmem' : url ∈ collected Event.registers events := by
          have hset := Set.ext_iff.1 (collected_append_some events hregister) url
          exact (hset.1 hmem).resolve_left hv
        exact (h.standing (hold hkeep) hmem').imp_left .inr
  · refine ⟨?_, fun hkeep => ?_⟩
    · have hcount := h.count
      rw [count_collected_append, count_collected_append, hregister, htakes, hredis]
      by_cases hv : v = url
      · subst hv
        simpa [hmem] using hcount
      · have hne : ¬url = v := fun heq => hv heq.symm
        simpa [hv, hne] using hcount
    · rw [collected_append_none _ hregister, hredis, Finset.mem_erase]
      intro hreg
      have hset := Set.ext_iff.1 (collected_append_some events htakes) url
      by_cases hv : url = v
      · exact .inr (hset.2 (.inl hv))
      · exact (h.standing (hold hkeep) hreg).imp (fun hin => ⟨hv, hin⟩) fun hin => hset.2 (.inr hin)
  · refine ⟨?_, fun hall => ?_⟩
    · have hcount := h.count
      rw [collected_append_none _ hregister, collected_append_none _ htakes]
      by_cases hin : url ∈ s'.redis
      · rw [if_pos hin]
        rwa [if_pos (hsub hin)] at hcount
      · rw [if_neg hin]
        omega
    · rw [collected_append_none _ hregister, collected_append_none _ htakes]
      intro hreg
      rcases h.standing (hold hall) hreg with hin | hin
      · exact hkeep (hall e (List.mem_append_right _ List.mem_cons_self)) url hin
      · exact .inr hin

omit [DecidableEq ι] [DecidableEq κ] in
/-- What is given has been taken out. -/
theorem collected_gives (events : List (Event ι)) :
    collected Event.gives events = (collected Event.takes events).filter truthy := by
  rw [collected, collected, List.filter_filterMap]
  refine List.filterMap_congr fun e _ => ?_
  cases e with
  | spop i url =>
    cases url with
    | none => rfl
    | some url => simp [Event.gives, Event.takes, Option.filter]
  | _ => rfl

omit [DecidableEq ι] [DecidableEq κ] in
theorem mem_gives {events : List (Event ι)} {url : Str} :
    url ∈ collected Event.gives events ↔ url ∈ collected Event.takes events ∧ truthy url := by
  rw [collected_gives, List.mem_filter]

/-- **An address is given to a crawler at most as often as it is registered**, in every run of any number of crawlers;
and what has been registered, and is neither `""` nor `"0"`, waits in the set or has been given, unless the set has been
emptied or links have been deleted from it. -/
theorem given_once {events : List (Event ι)} (hrun : run web (start c ι) events = some s) (url : Str) :
    (collected Event.gives events).count url + (if url ∈ s.redis then 1 else 0) ≤
      (collected Event.registers events).count url ∧
    ((∀ e ∈ events, ¬e.Lossy) → truthy url → url ∈ collected Event.registers events →
      url ∈ s.redis ∨ url ∈ collected Event.gives events) := by
  have hstart : Held ([] : List (Event ι)) (start c ι) ∧ Counted [] (start c ι) url := by
    refine ⟨held_start c, ⟨by simp [collected, start], fun _ hmem => ?_⟩⟩
    cases hmem
  have hkeeps : Held events s ∧ Counted events s url :=
    run_keeps (P := fun events s => Held events s ∧ Counted events s url) (l := [])
      (fun _ _ _ _ h hstep => ⟨held_step h.1 hstep, counted_step h.1 h.2 hstep⟩) hstart hrun
  refine ⟨?_, fun hkeep htruthy hmem => ?_⟩
  · have hcount := hkeeps.2.count
    have hle : (collected Event.gives events).count url ≤ (collected Event.takes events).count url := by
      rw [collected_gives]
      exact List.filter_sublist.count_le url
    omega
  · exact (hkeeps.2.standing hkeep hmem).imp_right fun htaken => mem_gives.2 ⟨htaken, htruthy⟩

theorem given_once_one : ∃ s, run onePage (start bytes Unit) oneRun = some s ∧
    (collected Event.gives oneRun).count home + (if home ∈ s.redis then 1 else 0) ≤
      (collected Event.registers oneRun).count home ∧
    ((∀ e ∈ oneRun, ¬e.Lossy) → truthy home → home ∈ collected Event.registers oneRun →
      home ∈ s.redis ∨ home ∈ collected Event.gives oneRun) := by
  obtain ⟨s, hs⟩ := Option.isSome_iff_exists.1 (by decide +kernel : (run onePage (start bytes Unit) oneRun).isSome)
  exact ⟨s, hs, given_once hs home⟩

end LeftFelt.Web.ImageCrawler
