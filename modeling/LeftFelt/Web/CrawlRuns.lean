import LeftFelt.Web.CrawlSearch

/-!
# What the crawlers find

A run of any number of crawlers, in any order of their events. They never leave what can be reached by links from the
addresses that have been registered from outside (`crawl_sound`); and once nothing is left to do they have been at all
of it, and the images are in the table (`crawl_at_rest`). A link is what a crawler reads from the answer with an address;
`linksOf_page` says when this is a link of the page there. The table only grows, so
that it can be read page by page meanwhile (`readPages_run`).
-/

namespace LeftFelt.Web.ImageCrawler

open Str Lib Crawler
open scoped List

variable {κ ι : Type*} {c : Column κ} {web : Web} {outside taken : Set Str} {s s' : System c ι}

/-! ## One page -/

theorem sent_map_urlEncode (f : Tag → Str) (tags : List Tag) :
    sent (tags.map fun tag => (f tag).urlEncode) = {v | ∃ tag ∈ tags, v = stored (f tag)} := by
  ext v
  simp only [sent, List.mem_map, Set.mem_ofPred_eq]
  constructor
  · rintro ⟨_, ⟨tag, htag, rfl⟩, hpost⟩
    rw [posted_urlEncode] at hpost
    exact ⟨tag, htag, (Option.some.inj hpost).symm⟩
  · rintro ⟨tag, htag, rfl⟩
    exact ⟨_, ⟨tag, htag, rfl⟩, posted_urlEncode _⟩

/-- **What a page makes the crawlers register**: for an address that can stand in single quotes they read the page that
is there, and register the references in its `a` tags and the images in its `img` tags, each resolved on the scheme, the
host and the directory of the page; unchanged, if they have no byte below `0x10`. -/
theorem linksOf_page (web : Web) {url : Str} (hplain : Quotable url) (htruthy : truthy url) : ∃ here there tags,
    Http.new.Request getNextURL (literal "GET") [] = .ok here ∧ here.1.Request url (literal "GET") [] = .ok there ∧
    parse (web.page there.1.host there.1.port there.2) = .ok tags ∧
    linksOf web url = {v | ∃ tag ∈ XML.getElementsByTagName tags (literal "a"),
      v = stored (resolved there.1 (tag.getProperty (literal "href")))} ∧
    imagesOf web url = {v | ∃ tag ∈ XML.getElementsByTagName tags (literal "img"),
      v = stored (resolved there.1 (tag.getProperty (literal "src")))} ∧
    ∀ v, Tall v → stored v = v := by
  obtain ⟨here, there, tags, hhere, hthere, htags, hcrawl⟩ := crawl_answer web hplain
  have hharvest : harvestOf web (reply web url) = harvested there.1 tags := by
    rw [reply, if_pos htruthy, harvestOf, hcrawl]
  refine ⟨here, there, tags, hhere, hthere, htags, ?_, ?_, fun v hv => stored_of_tall hv⟩
  · rw [linksOf, hharvest]
    exact sent_map_urlEncode _ _
  · rw [imagesOf, hharvest]
    exact sent_map_urlEncode _ _

theorem linksOf_page_home : ∃ here there tags,
    Http.new.Request getNextURL (literal "GET") [] = .ok here ∧ here.1.Request home (literal "GET") [] = .ok there ∧
    parse (onePage.page there.1.host there.1.port there.2) = .ok tags ∧
    linksOf onePage home = {v | ∃ tag ∈ XML.getElementsByTagName tags (literal "a"),
      v = stored (resolved there.1 (tag.getProperty (literal "href")))} ∧
    imagesOf onePage home = {v | ∃ tag ∈ XML.getElementsByTagName tags (literal "img"),
      v = stored (resolved there.1 (tag.getProperty (literal "src")))} ∧
    ∀ v, Tall v → stored v = v :=
  linksOf_page onePage ⟨by decide, by decide +kernel⟩ (by decide)

/-! ## The images -/

/-- **Where the images come from, and where they are**: every row has an address from outside or one that was found on
a page that has been taken out; and what was found there is in the table, if it fits, or still to be posted. -/
structure ImageInv (web : Web) (outside taken : Set Str) (s : System c ι) : Prop where
  rows : ∀ r ∈ s.images.rows, r.url ∈ outside ∨ ∃ u ∈ taken, r.url ∈ imagesOf web u
  owed : ∀ v ∈ Search.owedBy (owesImages web) s.client, ∃ u ∈ taken, v ∈ imagesOf web u
  kept : ∀ u ∈ taken, ∀ v ∈ imagesOf web u, c.fits v →
    s.images.Has v ∨ v ∈ Search.owedBy (owesImages web) s.client

/-- Nothing happens to the images. -/
theorem ImageInv.quiet (h : ImageInv web outside taken s) (himages : s'.images = s.images)
    (howed : Search.owedBy (owesImages web) s'.client = Search.owedBy (owesImages web) s.client) :
    ImageInv web outside taken s' := by
  refine ⟨?_, ?_, ?_⟩
  · rw [himages]
    exact h.rows
  · rw [howed]
    exact h.owed
  · rw [himages, howed]
    exact h.kept

/-- An address is taken out. -/
theorem ImageInv.takeOut (h : ImageInv web outside taken s) (u : Str) (himages : s'.images = s.images)
    (howed : Search.owedBy (owesImages web) s'.client = Search.owedBy (owesImages web) s.client ∪ imagesOf web u) :
    ImageInv web outside (insert u taken) s' := by
  refine ⟨?_, ?_, ?_⟩
  · rw [himages]
    exact fun r hr => (h.rows r hr).imp_right fun ⟨u', hu', hr⟩ => ⟨u', .inr hu', hr⟩
  · rw [howed]
    rintro v (hv | hv)
    · obtain ⟨u', hu', hv⟩ := h.owed v hv
      exact ⟨u', .inr hu', hv⟩
    · exact ⟨u, .inl rfl, hv⟩
  · rw [himages, howed]
    rintro u' (rfl | hu') v hv hfits
    · exact .inr (.inr hv)
    · exact (h.kept u' hu' v hv hfits).imp_right .inl

/-- What the events have added from outside and taken out. -/
def ImagesOk (web : Web) (events : List (Event ι)) (s : System c ι) : Prop :=
  ImageInv web {v | v ∈ collected Event.image events} {u | u ∈ collected Event.takes events} s

theorem imagesOk_append {events : List (Event ι)} {e : Event ι} (himage : e.image = none) (htakes : e.takes = none) :
    ImagesOk web (events ++ [e]) s ↔ ImagesOk web events s := by
  rw [ImagesOk, ImagesOk, collected_append_none _ himage, collected_append_none _ htakes]

theorem owesImages_idle (web : Web) : owesImages web .idle = ∅ := sent_nil

theorem owesImages_failure (web : Web) : owesImages web (.answered (answer web (literal "failure") [])) = ∅ := by
  rw [owesImages, pending, harvestOf_failure]
  exact sent_nil

/-- The link from one address to another. -/
abbrev Links (web : Web) (u v : Str) : Prop := v ∈ linksOf web u

/-- What holds after every run. -/
structure Inv (web : Web) (events : List (Event ι)) (s : System c ι) : Prop where
  held : Held events s
  sound : Search.Sound (Links web) (view web events s)
  covers : (∀ e ∈ events, ¬e.Lossy) → Search.Covers (Links web) (view web events s)
  images : ImagesOk web events s

/-- The crawlers that have not begun are a search that has not begun. -/
theorem view_start (web : Web) (c : Column κ) : view web [] (start c ι) = Search.State.start := by
  refine Search.State.ext ?_ ?_ (Search.owedBy_eq_empty fun _ => owesLinks_idle web) ?_
  · simp [view, collected, Search.State.start]
  · simp [view, start, Search.State.start]
  · simp [view, collected, Search.State.start]

theorem inv_start (web : Web) (c : Column κ) : Inv web [] (start c ι) where
  held := held_start c
  sound := by
    rw [view_start]
    exact Search.sound_start
  covers := fun _ => by
    rw [view_start]
    exact Search.covers_start
  images := by
    refine ⟨?_, ?_, ?_⟩
    · intro r hr
      cases hr
    · rintro v ⟨i, hv⟩
      exact ((owesImages_idle web ▸ hv : v ∈ (∅ : Set Str))).elim
    · intro u hu
      cases hu

/-- The addresses that can be reached by links from those that have been registered from outside. -/
def reachable (web : Web) (events : List (Event ι)) : Set Str :=
  Search.Found (Links web) {url | url ∈ collected Event.seed events}

/-- Nothing is left to do: the set is empty, and every crawler has finished. -/
def AtRest (s : System c ι) : Prop := s.redis = ∅ ∧ ∀ i, s.client i = .idle

/-! ## Runs -/

variable [DecidableEq ι] [DecidableEq κ]

omit [DecidableEq ι] in
/-- An address is added to the table. -/
theorem ImageInv.set (h : ImageInv web outside taken s) {v : Str} {outside' : Set Str} {skipped : Nat}
    (houtside : outside ⊆ outside') (hsource : v ∈ outside' ∨ ∃ u ∈ taken, v ∈ imagesOf web u)
    (himages : s'.images = (imageManagerModel.set skipped v s.images).1)
    (hsub : Search.owedBy (owesImages web) s'.client ⊆ Search.owedBy (owesImages web) s.client)
    (hrest : Search.owedBy (owesImages web) s.client ⊆ insert v (Search.owedBy (owesImages web) s'.client)) :
    ImageInv web outside' taken s' := by
  refine ⟨?_, fun w hw => h.owed w (hsub hw), ?_⟩
  · rw [himages]
    intro r hr
    rcases imageManagerModel.mem_set hr with hr | hr
    · exact (h.rows r hr).imp_left fun hr => houtside hr
    · exact hr ▸ hsource
  · rw [himages]
    intro u hu w hw hfits
    rcases h.kept u hu w hw hfits with hhas | howed
    · exact .inl (imageManagerModel.has_of_prefix (imageManagerModel.rows_prefix_set skipped v s.images) hhas)
    · obtain rfl | howed := hrest howed
      · exact .inl (imageManagerModel.has_set skipped hfits s.images)
      · exact .inr howed

/-- **Every event keeps the images.** -/
theorem imagesOk_step {events : List (Event ι)} {e : Event ι} (h : ImagesOk web events s)
    (hstep : step web s e = some s') : ImagesOk web (events ++ [e]) s' := by
  cases e with
  | imageSetNextURL url =>
    rw [imagesOk_append rfl rfl]
    cases url <;> cases hstep <;> exact h.quiet rfl rfl
  | addImageURL url skipped =>
    cases url with
    | none =>
      rw [imagesOk_append rfl rfl]
      cases hstep
      exact h
    | some url =>
      cases hstep
      have hset : ImageInv web (insert url {v | v ∈ collected Event.image events})
          {u | u ∈ collected Event.takes events} (addImage skipped url s) :=
        h.set (Set.subset_insert _ _) (.inl (Set.mem_insert _ _)) rfl le_rfl (Set.subset_insert _ _)
      rwa [ImagesOk, collected_append_some _ rfl, collected_append_none _ rfl]
  | imageDelNextURL =>
    rw [imagesOk_append rfl rfl]
    cases hstep
    exact h.quiet rfl rfl
  | deleteLink url =>
    rw [imagesOk_append rfl rfl]
    cases hstep
    exact h.quiet rfl rfl
  | spop i url =>
    cases url with
    | none =>
      rw [imagesOk_append rfl rfl]
      simp only [step] at hstep
      split at hstep
      · rename_i hidle
        cases hstep
        exact h.quiet rfl (Search.owedBy_update_eq (by rw [hidle.1, owesImages_failure, owesImages_idle]))
      · cases hstep
    | some url =>
      simp only [step] at hstep
      split at hstep
      · rename_i hidle
        cases hstep
        have hnone : owesImages web (s.client i) = ∅ := by rw [hidle.1, owesImages_idle]
        have hout : ImageInv web {v | v ∈ collected Event.image events}
            (insert url {u | u ∈ collected Event.takes events}) (setClient i
              (if truthy url then .popped url else .answered (answer web (literal "failure") []))
              { s with redis := s.redis.erase url }) := by
          refine h.takeOut url rfl ?_
          show Search.owedBy (owesImages web) (Function.update s.client i _) = _
          rw [Search.owedBy_update_idle hnone, owesImages, pending_reply]
          rfl
        rwa [ImagesOk, collected_append_none _ rfl, collected_append_some _ rfl]
      · cases hstep
  | srem i =>
    rw [imagesOk_append rfl rfl]
    simp only [step] at hstep
    split at hstep
    · rename_i url hclient
      cases hstep
      exact h.quiet rfl (Search.owedBy_update_eq (by rw [hclient]; rfl))
    · cases hstep
  | crawl i =>
    rw [imagesOk_append rfl rfl]
    simp only [step] at hstep
    split at hstep
    · rename_i response hclient
      cases hstep
      exact h.quiet rfl (Search.owedBy_update_eq (by rw [hclient]; rfl))
    · cases hstep
  | postImage i url skipped =>
    rw [imagesOk_append rfl rfl]
    simp only [step] at hstep
    split at hstep
    · rename_i image images links hclient
      split at hstep
      · rename_i hpost
        cases hstep
        have howes : owesImages web (s.client i) = insert url (owesImages web (.posting images links)) := by
          rw [hclient]
          exact sent_cons hpost images
        obtain ⟨hmem, hsub, hrest⟩ := Search.owedBy_update_insert howes
        exact h.set le_rfl (.inr (h.owed url hmem)) rfl hsub hrest
      · cases hstep
    · cases hstep
  | postLink i url =>
    rw [imagesOk_append rfl rfl]
    simp only [step] at hstep
    split at hstep
    · rename_i link links hclient
      split at hstep
      · cases hstep
        have howes : owesImages web (.posting [] links) = owesImages web (s.client i) := by rw [hclient]; rfl
        exact h.quiet rfl (Search.owedBy_update_eq howes)
      · cases hstep
    · cases hstep

theorem inv_step {events : List (Event ι)} {e : Event ι} (h : Inv web events s) (hstep : step web s e = some s') :
    Inv web (events ++ [e]) s' where
  held := held_step h.held hstep
  sound := by
    rcases Relation.reflGen_iff _ _ _ |>.1 (refines h.held hstep) with hview | hmove
    · rw [hview]
      exact h.sound
    · exact hmove.sound h.sound
  covers := by
    intro hkeep
    have hcovers := h.covers fun e' he' => hkeep e' (List.mem_append_left _ he')
    have hlossy : ¬e.Lossy := hkeep e (List.mem_append_right _ List.mem_cons_self)
    rcases Relation.reflGen_iff _ _ _ |>.1 (refines h.held hstep) with hview | hmove
    · rw [hview]
      exact hcovers
    · exact hmove.covers hlossy hcovers
  images := imagesOk_step h.images hstep

theorem inv_run {events : List (Event ι)} (hrun : run web (start c ι) events = some s) : Inv web events s :=
  run_keeps (l := []) (fun _ _ _ _ h hstep => inv_step h hstep) (inv_start web c) hrun

/-- The run of one crawler ends at rest. -/
theorem exists_oneRun : ∃ s, run onePage (start bytes Unit) oneRun = some s ∧ AtRest s := by
  obtain ⟨s, hs⟩ := Option.isSome_iff_exists.1
    (by decide +kernel : (run onePage (start bytes Unit) oneRun).isSome)
  refine ⟨s, hs, ?_, fun _ => ?_⟩
  · have hredis : (run onePage (start bytes Unit) oneRun).map System.redis = some ∅ := by decide +kernel
    rw [hs] at hredis
    exact Option.some.inj hredis
  · have hclient : (run onePage (start bytes Unit) oneRun).map (fun s => s.client ()) = some .idle := by decide +kernel
    rw [hs] at hclient
    exact Option.some.inj hclient

/-- **The crawlers stay on the web**: in every run the set holds, and the crawlers get, only addresses that can be
reached from the registered ones, and every image has been added from outside or found on a page that can be
reached. -/
theorem crawl_sound {events : List (Event ι)} (hrun : run web (start c ι) events = some s) :
    (∀ url ∈ s.redis, url ∈ reachable web events) ∧
    (∀ url ∈ collected Event.gives events, url ∈ reachable web events) ∧
    ∀ r ∈ s.images.rows, r.url ∈ collected Event.image events ∨ ∃ u ∈ reachable web events, r.url ∈ imagesOf web u := by
  have hinv := inv_run hrun
  have htakes : ∀ url ∈ collected Event.takes events, url ∈ reachable web events :=
    fun url hurl => hinv.sound (.inr hurl)
  refine ⟨fun url hurl => hinv.sound (.inl (.inl hurl)), fun url hurl => htakes url (mem_gives.1 hurl).1, fun r hr => ?_⟩
  exact (hinv.images.rows r hr).imp_right fun ⟨u, hu, hr⟩ => ⟨u, htakes u hu, hr⟩

theorem crawl_sound_one : ∃ s, run onePage (start bytes Unit) oneRun = some s ∧
    (∀ url ∈ s.redis, url ∈ reachable onePage oneRun) ∧
    (∀ url ∈ collected Event.gives oneRun, url ∈ reachable onePage oneRun) ∧
    ∀ r ∈ s.images.rows, r.url ∈ collected Event.image oneRun ∨
      ∃ u ∈ reachable onePage oneRun, r.url ∈ imagesOf onePage u := by
  obtain ⟨s, hs, -⟩ := exists_oneRun
  exact ⟨s, hs, crawl_sound hs⟩

/-- **The crawlers miss nothing**: when nothing is left to do, and nobody has emptied the set or deleted links from it,
the crawlers have got exactly the addresses that can be reached, other than `""` and `"0"`, and every image that is found
at one of them and fits is in the table, as the collation compares it. -/
theorem crawl_at_rest {events : List (Event ι)} (hrun : run web (start c ι) events = some s)
    (hkeep : ∀ e ∈ events, ¬e.Lossy) (hrest : AtRest s) :
    (∀ url, url ∈ collected Event.gives events ↔ url ∈ reachable web events ∧ truthy url) ∧
    ∀ u ∈ reachable web events, ∀ v ∈ imagesOf web u, c.fits v → s.images.Has v := by
  have hinv := inv_run hrun
  have howed : Search.owedBy (owesLinks web) s.client = ∅ :=
    Search.owedBy_eq_empty fun i => by rw [hrest.2 i, owesLinks_idle]
  have himages : Search.owedBy (owesImages web) s.client = ∅ :=
    Search.owedBy_eq_empty fun i => by rw [hrest.2 i, owesImages_idle]
  have hwaiting : (view web events s).waiting = ∅ := by rw [view, hrest.1, Finset.coe_empty]
  have htaken := Search.taken_eq_found hinv.sound (hinv.covers hkeep) ⟨hwaiting, howed⟩
  have htakes : ∀ url, url ∈ collected Event.takes events ↔ url ∈ reachable web events := fun url =>
    Set.ext_iff.1 htaken url
  refine ⟨fun url => by rw [mem_gives, htakes], fun u hu v hv hfits => ?_⟩
  rcases hinv.images.kept u ((htakes u).2 hu) v hv hfits with hhas | howes
  · exact hhas
  · rw [himages] at howes
    exact howes.elim

theorem crawl_at_rest_one : ∃ s, run onePage (start bytes Unit) oneRun = some s ∧
    (∀ url, url ∈ collected Event.gives oneRun ↔ url ∈ reachable onePage oneRun ∧ truthy url) ∧
    ∀ u ∈ reachable onePage oneRun, ∀ v ∈ imagesOf onePage u, bytes.fits v → s.images.Has v := by
  obtain ⟨s, hs, hrest⟩ := exists_oneRun
  exact ⟨s, hs, crawl_at_rest hs (by simp [oneRun, Event.Lossy]) hrest⟩

/-! ## The table, page by page -/

/-- No event takes a row away. -/
theorem rows_prefix_step {e : Event ι} (hstep : step web s e = some s') : s.images.rows <+: s'.images.rows := by
  have hset : ∀ (skipped : Nat) (url : Str), s.images.rows <+: (addImage skipped url s).images.rows := fun skipped url =>
    imageManagerModel.rows_prefix_set skipped url s.images
  cases e with
  | imageSetNextURL url => cases url <;> cases hstep <;> exact List.prefix_rfl
  | addImageURL url skipped =>
    cases url with
    | none => cases hstep; exact List.prefix_rfl
    | some url => cases hstep; exact hset skipped url
  | imageDelNextURL => cases hstep; exact List.prefix_rfl
  | deleteLink url => cases hstep; exact List.prefix_rfl
  | spop i url => cases url <;> simp only [step] at hstep <;> split at hstep <;> cases hstep <;> exact List.prefix_rfl
  | srem i => simp only [step] at hstep; split at hstep <;> cases hstep; exact List.prefix_rfl
  | crawl i => simp only [step] at hstep; split at hstep <;> cases hstep; exact List.prefix_rfl
  | postImage i url skipped =>
    simp only [step] at hstep
    split at hstep
    · split at hstep <;> cases hstep
      exact hset skipped url
    · cases hstep
  | postLink i url =>
    simp only [step] at hstep
    split at hstep
    · split at hstep <;> cases hstep
      exact List.prefix_rfl
    · cases hstep

theorem rows_prefix_run {events : List (Event ι)} (hrun : run web s events = some s') :
    s.images.rows <+: s'.images.rows :=
  run_keeps (P := fun _ t => s.images.rows <+: t.images.rows) (l := [])
    (fun _ _ _ _ h hstep => h.trans (rows_prefix_step hstep)) List.prefix_rfl hrun

/-- **Who reads the table page by page**, while the crawlers go on between the pages, meets the rows that were there at
the start in their order, as far as the pages go, and no row twice. -/
theorem readPages_run (view : Nat) (s : System c ι) (later : List (System c ι))
    (hruns : (s :: later).IsChain fun t t' => ∃ events, run web t events = some t') :
    ∃ rows, readPages view 1 ((s :: later).map System.images) = some rows ∧
      s.images.rows.take ((s :: later).length * view) <+: rows ∧ (rows.map ImageRow.id).Nodup := by
  set tables := (s :: later).map System.images with htables
  have hgrow : Lib.Pages.Growing (tables.map ImageTable.rows) := by
    rw [htables, List.map_map]
    exact (List.isChain_map _).2 (hruns.imp fun t t' ⟨events, hrun⟩ => rows_prefix_run hrun)
  obtain ⟨last, hlast⟩ : ∃ last, tables.getLast? = some last :=
    Option.isSome_iff_exists.1 (by simp [htables])
  have hsub : Lib.Pages.pages view 0 (tables.map ImageTable.rows) <+ last.rows.drop (0 * view) :=
    Lib.Pages.pages_sublist view hgrow (by rw [List.getLast?_map, hlast, Option.map_some])
  rw [Nat.zero_mul, List.drop_zero] at hsub
  refine ⟨_, readPages_succ view 0 tables, ?_, ?_⟩
  · have hprefix := Lib.Pages.prefix_pages view (n := 0) hgrow
    rw [Nat.zero_mul, List.drop_zero] at hprefix
    simpa [htables] using hprefix
  · refine ((last.ordered.sublist hsub).map ImageRow.id fun _ _ h => h).imp fun h => ?_
    exact Nat.ne_of_lt h

theorem readPages_run_one : ∃ s, run onePage (start bytes Unit) oneRun = some s ∧
    ∃ rows, readPages 20 1 ([start bytes Unit, s].map System.images) = some rows ∧
      (start bytes Unit).images.rows.take (2 * 20) <+: rows ∧ (rows.map ImageRow.id).Nodup := by
  obtain ⟨s, hs, -⟩ := exists_oneRun
  have hruns : [start bytes Unit, s].IsChain fun t t' => ∃ events, run onePage t events = some t' :=
    List.isChain_pair.2 ⟨oneRun, hs⟩
  exact ⟨s, hs, readPages_run 20 (start bytes Unit) [s] hruns⟩

end LeftFelt.Web.ImageCrawler
