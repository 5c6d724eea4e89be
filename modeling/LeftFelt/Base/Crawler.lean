import LeftFelt.Base.HttpPath
import LeftFelt.Base.UrlEncode
import LeftFelt.Base.XmlTotal

/-!
# One run of the crawler

The `main` of the crawler: it asks the API for an address, reads the page there, and collects the addresses of its
images and links, which it posts to the API afterwards. The web outside is a function from requests to responses.

The API puts an address into its answer as it is, between single quotes. `readAnswer_success` says when the crawler
reads it back, and `crawl_answer` that no page stops a run then.
-/

namespace LeftFelt

open Lib Str

/-- `getProperty(property)`. -/
def Tag.getProperty (tag : Tag) (property : Str) : Str := tag.propertys.getD property []

/-- `getElementsByTagName(tag_name)`, on the list that the constructor has made. -/
def XML.getElementsByTagName (tag_list : List Tag) (tag_name : Str) : List Tag :=
  tag_list.filter fun tag => tag.name = tag_name

namespace Crawler

/-- What answers the requests: the lines in front of the answers of the API, and the page that a host sends for the text
of a request. -/
structure Web where
  head : Str
  page : Str → Str → Str → Str
  plain : ∀ c ∈ [lt, gt], c ∉ head

/-- `XML(source)`, with rounds enough for its loops. -/
def parse (source : Str) : Except Stop (List Tag) := XML.create (source.length + 1) source

/-- `"http://test.dev-flet.net/~flet/image_crawler/api/imageGetNextURL.php"`. -/
def getNextURL : Str := literal "http://test.dev-flet.net/~flet/image_crawler/api/imageGetNextURL.php"

/-- The template of `imageGetNextURL`. -/
def template (status url : Str) : Str :=
  literal "<api status='" ++ status ++ literal "' url='" ++ url ++ literal "'/>\n"

/-- The answer of `imageGetNextURL`, with what stands in front of it. -/
def answer (web : Web) (status url : Str) : Str := web.head ++ template status url

/-- The address in the answer, if it says `success`. There has to be a tag `api`. -/
def readAnswer (response : Str) : Except Stop (Option Str) := do
  let tags ← parse response
  match XML.getElementsByTagName tags (literal "api") with
  | [] => .error .outOfRange
  | api :: _ =>
    return if api.getProperty (literal "status") = literal "success" then some (api.getProperty (literal "url"))
      else none

/-- Does it begin with a scheme? -/
def isAbsolutePath (url : Str) : Bool := url.find Http.http 0 = some 0 || url.find Http.https 0 = some 0

/-- The address that a property of a tag stands for, relative to the page, and the object afterwards. -/
def resolve (http : Http) (url : Str) : Except Stop (Http × Str) :=
  if isAbsolutePath url then .ok (http, url)
  else do
    let http ← http.setPath url
    return (http, http.getURL)

/-- The loop over the tags: the addresses, encoded. -/
def collect (property : Str) : List Tag → Http → Except Stop (Http × List Str)
  | [], http => .ok (http, [])
  | tag :: tags, http => do
    let url ← resolve http (tag.getProperty property)
    let rest ← collect property tags url.1
    return (rest.1, url.2.urlEncode :: rest.2)

/-- What a page is read for: `image_list` and `link_list`. -/
structure Harvest where
  images : List Str
  links : List Str
  deriving DecidableEq

/-- The tags of a page, when the object has been at its address. -/
def harvest (http : Http) (tags : List Tag) : Except Stop Harvest := do
  let images ← collect (literal "src") (XML.getElementsByTagName tags (literal "img")) http
  let links ← collect (literal "href") (XML.getElementsByTagName tags (literal "a")) images.1
  return ⟨images.2, links.2⟩

/-- The page at an address. -/
def visit (web : Web) (http : Http) (url : Str) : Except Stop Harvest := do
  let request ← http.Request url (literal "GET") []
  let tags ← parse (web.page request.1.host request.1.port request.2)
  harvest request.1 tags

/-- `main()`, from the answer of the API up to the posts: `none` if there is no address in the answer. -/
def crawl (web : Web) (response : Str) : Except Stop (Option Harvest) := do
  let request ← Http.new.Request getNextURL (literal "GET") []
  match ← readAnswer response with
  | none => return none
  | some url => return some (← visit web request.1 url)

/-! ## Every run ends -/

theorem parse_total (source : Str) : ∃ tags, parse source = .ok tags := by
  rw [parse, XML.create, replace_singleton tab space (Nat.lt_succ_self _)]
  set s : Str := source.map fun c => if c = tab then space else c with hs
  have hlength : (s.frontStrip space).length ≤ source.length + 1 := by
    have hstrip := (frontStrip_suffix s space).length_le
    have hmap : s.length = source.length := by rw [hs, List.length_map]
    omega
  obtain ⟨s', hs'⟩ := XML.foldlM_total (s.frontStrip space) ⟨.new, [], []⟩
    (show 0 + (s.frontStrip space).length ≤ source.length + 1 by omega)
  exact ⟨s'.tagList, by simp only [bind, Except.bind, hs']; rfl⟩

theorem request_total (http : Http) (url method data : Str) : ∃ r, http.Request url method data = .ok r := by
  obtain ⟨h, hset⟩ := http.setURL_total url
  exact ⟨_, by rw [Http.Request, hset]; rfl⟩

/-! ## The answer of the API -/

/-- A value in single quotes is read. -/
theorem propertyValue_single {value rest : Str} (hne : value ≠ []) (happ : apostrophe ∉ value)
    (hquote : quote ∉ value ++ apostrophe :: rest) (hrest : rest.head? ≠ some apostrophe) :
    XML.propertyValue (eq :: apostrophe :: (value ++ apostrophe :: rest)) = (value, rest) := by
  have hstrip : frontStrip (eq :: apostrophe :: (value ++ apostrophe :: rest)) eq =
      apostrophe :: (value ++ apostrophe :: rest) := by
    rw [frontStrip_cons_self, frontStrip_cons_of_ne _ (by decide)]
  have hspace : frontStrip (apostrophe :: (value ++ apostrophe :: rest)) space =
      apostrophe :: (value ++ apostrophe :: rest) := frontStrip_cons_of_ne _ apostrophe_ne_space
  have hnone : (frontSplit (apostrophe :: (value ++ apostrophe :: rest)) quote).2 = [] := by
    rw [frontSplit_snd_eq_nil, List.mem_cons, not_or]
    exact ⟨quote_ne_apostrophe, hquote⟩
  have hopen : frontStrip (apostrophe :: (value ++ apostrophe :: rest)) apostrophe = value ++ apostrophe :: rest := by
    rw [frontStrip_cons_self, frontStrip_append hne happ]
  have hclose : frontStrip (apostrophe :: rest) apostrophe = rest := by
    rw [frontStrip_cons_self, frontStrip_of_head? hrest]
  unfold XML.propertyValue
  simp only [hstrip, hspace, hnone, if_true, frontSplit_cons_self, ne_eq, List.cons_ne_nil, not_false_eq_true, hopen,
    frontSplit_append happ, hclose]

/-- A property in single quotes is read. -/
theorem nextProperty_single {name value : Str} (tag : Tag) (rest : Str) (hname : name ≠ []) (hspace : space ∉ name)
    (heq : eq ∉ name) (hne : value ≠ []) (happ : apostrophe ∉ value) (hquote : quote ∉ value ++ apostrophe :: rest)
    (hrest : rest.head? ≠ some apostrophe) :
    XML.nextProperty tag (space :: (name ++ eq :: apostrophe :: (value ++ apostrophe :: rest))) =
      .ok (tag.setProperty name value, rest) := by
  have hstrip : frontStrip (space :: (name ++ eq :: apostrophe :: (value ++ apostrophe :: rest))) space =
      name ++ eq :: apostrophe :: (value ++ apostrophe :: rest) := by
    rw [frontStrip_cons_self, frontStrip_append hname hspace]
  rw [XML.nextProperty, hstrip, frontSplit_append heq, endStrip_of_not_mem hspace]
  simp only [bind, Except.bind, frontSplit_of_not_mem hspace, ne_eq, not_true_eq_false, if_false, List.cons_ne_nil,
    not_false_eq_true, if_true, propertyValue_single hne happ hquote hrest]
  rfl

/-- A string that stands in single quotes unharmed: free of quotes, tabs and angle brackets, and not empty. -/
structure Quotable (s : Str) : Prop where
  ne_nil : s ≠ []
  free : ∀ c ∈ [apostrophe, quote, tab, lt, gt], c ∉ s

theorem quotable_success : Quotable (literal "success") := ⟨by decide, by decide +kernel⟩

/-- The properties of the tag `api`. -/
def attributes (status url : Str) : Str :=
  literal " status='" ++ status ++ literal "' url='" ++ url ++ literal "'/"

/-- The tag `api`. -/
def apiTag (status url : Str) : Tag :=
  (((Tag.new.setName (literal "api")).setProperty (literal "status") status).setProperty (literal "url") url).setProperty
    [slash] []

/-- **The properties are read back.** -/
theorem setProperty_attributes {status url : Str} (hstatus : Quotable status) (hurl : Quotable url) {fuel : Nat}
    (hfuel : 3 ≤ fuel) (tag : Tag) :
    XML.setProperty fuel tag (attributes status url) =
      .ok (((tag.setProperty (literal "status") status).setProperty (literal "url") url).setProperty [slash] []) := by
  obtain ⟨fuel, rfl⟩ : ∃ n, fuel = n + 3 := ⟨fuel - 3, by omega⟩
  set rest : Str := literal " url='" ++ url ++ literal "'/" with hrest
  have hsource : attributes status url =
      space :: (literal "status" ++ eq :: apostrophe :: (status ++ apostrophe :: rest)) := by
    simp [attributes, hrest, literal, space, eq, apostrophe]
  have hsecond : rest = space :: (literal "url" ++ eq :: apostrophe :: (url ++ apostrophe :: [slash])) := by
    simp [hrest, literal, space, eq, apostrophe, slash]
  have hquote : quote ∉ url ++ apostrophe :: [slash] := by
    rw [List.mem_append, not_or]
    exact ⟨hurl.free quote (by decide), by decide⟩
  have hquote' : quote ∉ status ++ apostrophe :: rest := by
    rw [hsecond]
    simp only [List.mem_append, List.mem_cons, not_or] at hquote ⊢
    exact ⟨hstatus.free quote (by decide), by decide, by decide, by decide, by decide, by decide, hquote⟩
  have hfirst := nextProperty_single tag rest (by decide) (by decide : space ∉ literal "status") (by decide)
    hstatus.ne_nil (hstatus.free apostrophe (by decide)) hquote' (by rw [hsecond, List.head?_cons]; decide)
  have hnext := nextProperty_single (tag.setProperty (literal "status") status) [slash] (by decide)
    (by decide : space ∉ literal "url") (by decide) hurl.ne_nil (hurl.free apostrophe (by decide)) hquote (by decide)
  rw [hsource, XML.setProperty, if_pos (List.cons_ne_nil _ _), hfirst]
  simp only [bind, Except.bind]
  rw [hsecond, XML.setProperty, if_pos (List.cons_ne_nil _ _), hnext]
  simp only [bind, Except.bind]
  rw [XML.setProperty, if_pos (List.cons_ne_nil _ _)]
  show XML.setProperty fuel _ [] = _
  cases fuel <;> rfl

/-- The tag is read back. -/
theorem setTag_attributes {status url : Str} (hstatus : Quotable status) (hurl : Quotable url) {fuel : Nat}
    (hfuel : 3 ≤ fuel) : XML.setTag fuel .new (literal "api" ++ attributes status url) = .ok (apiTag status url) := by
  have hsplit : frontSplit (literal "api" ++ attributes status url) space = (literal "api", attributes status url) := by
    have hcons : attributes status url = space :: (attributes status url).drop 1 := rfl
    rw [hcons]
    exact frontSplit_append (by decide)
  rw [XML.setTag, frontStrip_append (by decide) (by decide), hsplit]
  exact setProperty_attributes hstatus hurl hfuel _

/-- No angle bracket and no tab stands between the brackets of the tag. -/
theorem not_mem_attributes (status url : Str) (hstatus : ∀ c ∈ [tab, lt, gt], c ∉ status)
    (hurl : ∀ c ∈ [tab, lt, gt], c ∉ url) : ∀ c ∈ [tab, lt, gt], c ∉ literal "api" ++ attributes status url := by
  intro c hc
  have hmarks : ∀ d ∈ [tab, lt, gt],
      d ∉ literal "api" ∧ d ∉ literal " status='" ∧ d ∉ literal "' url='" ∧ d ∉ literal "'/" := by decide +kernel
  obtain ⟨h1, h2, h3, h4⟩ := hmarks c hc
  simp only [attributes, List.mem_append, not_or]
  exact ⟨h1, ⟨⟨⟨h2, hstatus c hc⟩, h3⟩, hurl c hc⟩, h4⟩

/-- What is in front of the answer becomes a tag without a name, or nothing. -/
theorem readByte_lt_head (fuel : Nat) (data : Str) : ∃ tagList : List Tag, (∀ tag ∈ tagList, tag.name = []) ∧
    XML.readByte fuel ⟨.new, data, []⟩ lt = .ok ⟨.new, [], tagList⟩ := by
  by_cases h : data = []
  · exact ⟨[], by simp, by rw [h]; rfl⟩
  · refine ⟨[.new], by simp [Tag.new], ?_⟩
    rw [XML.readByte, if_pos rfl, if_pos h]
    rfl

/-- **The answer is parsed**: it has one tag with a name. -/
theorem parse_answer (web : Web) {status url : Str}
    (hfree : ∀ c ∈ [tab, lt, gt], c ∉ literal "api" ++ attributes status url) {tag : Tag}
    (hset : ∀ fuel, 3 ≤ fuel → XML.setTag fuel .new (literal "api" ++ attributes status url) = .ok tag) :
    ∃ tagList : List Tag, (∀ tag ∈ tagList, tag.name = []) ∧ parse (answer web status url) = .ok (tagList ++ [tag]) := by
  set body : Str := literal "api" ++ attributes status url with hbody
  have htext : answer web status url = web.head ++ lt :: (body ++ gt :: [0x0A]) := by
    simp [answer, template, hbody, attributes, literal, lt, gt]
  set head : Str := (web.head.map fun c => if c = tab then space else c) with hhead
  have htabs : (answer web status url).map (fun c => if c = tab then space else c) =
      head ++ lt :: (body ++ gt :: [0x0A]) := by
    rw [htext, List.map_append, List.map_cons, List.map_append, map_replace_of_not_mem space (hfree tab (by decide))]
    rfl
  have hhead' : ∀ c ∈ [lt, gt], c ∉ head.frontStrip space := by
    intro c hc hmem
    obtain ⟨d, hd, hdc⟩ := List.mem_map.1 ((frontStrip_suffix head space).subset hmem)
    have hne : ∀ e ∈ [lt, gt], e ≠ space := by decide +kernel
    split at hdc
    · exact hne c hc hdc.symm
    · exact web.plain c hc (hdc ▸ hd)
  obtain ⟨tagList, hnames, hopen⟩ := readByte_lt_head ((answer web status url).length + 1) (head.frontStrip space)
  refine ⟨tagList, hnames, ?_⟩
  have hfuel : 3 ≤ (answer web status url).length + 1 := by
    rw [htext]
    simp only [List.length_append, List.length_cons]
    omega
  have hne : body ≠ [] := by simp [hbody, literal]
  rw [parse, XML.create, replace_singleton tab space (Nat.lt_succ_self _), htabs]
  simp only [bind, Except.bind]
  rw [frontStrip_append_cons lt_ne_space, List.foldlM_append,
    XML.foldlM_readByte (hhead' lt (by decide)) (hhead' gt (by decide))]
  simp only [bind, Except.bind, List.nil_append, List.foldlM_cons, hopen]
  rw [List.foldlM_append, XML.foldlM_readByte (hfree lt (by decide)) (hfree gt (by decide))]
  simp only [bind, Except.bind, List.nil_append, List.foldlM_cons, XML.readByte, if_neg gt_ne_lt, if_true, ne_eq, hne,
    not_false_eq_true, hset _ hfuel]
  rfl

theorem getElementsByTagName_append {tagList : List Tag} (h : ∀ tag ∈ tagList, tag.name = []) (tag : Tag) {name : Str}
    (hne : name ≠ []) (hname : tag.name = name) : XML.getElementsByTagName (tagList ++ [tag]) name = [tag] := by
  rw [XML.getElementsByTagName, List.filter_append, List.filter_eq_nil_iff.2, List.nil_append,
    List.filter_singleton]
  · simp [hname]
  · intro t ht
    simpa [h t ht] using hne.symm

/-- **The crawler reads the address that the API has given out**, if it can stand in single quotes. -/
theorem readAnswer_success (web : Web) {url : Str} (h : Quotable url) :
    readAnswer (answer web (literal "success") url) = .ok (some url) := by
  have hfree := not_mem_attributes (literal "success") url (by decide +kernel) fun c hc =>
    h.free c (List.mem_cons_of_mem _ (List.mem_cons_of_mem _ hc))
  obtain ⟨tagList, hnames, hparse⟩ := parse_answer web hfree fun fuel hfuel =>
    setTag_attributes quotable_success h hfuel
  have hget := getElementsByTagName_append hnames (apiTag (literal "success") url) (by decide : literal "api" ≠ []) rfl
  have hstatus : (apiTag (literal "success") url).getProperty (literal "status") = literal "success" := by
    simp only [apiTag, Tag.getProperty, Tag.setProperty, OrderedMap.getD_insert]
    rw [if_neg (by decide), if_neg (by decide), if_pos trivial]
  have hurl : (apiTag (literal "success") url).getProperty (literal "url") = url := by
    simp only [apiTag, Tag.getProperty, Tag.setProperty, OrderedMap.getD_insert]
    rw [if_neg (by decide), if_pos trivial]
  rw [readAnswer, hparse]
  simp only [bind, Except.bind, hget, hstatus, hurl, if_true]
  rfl

/-- The tag `api` without an address. -/
def failureTag : Tag :=
  ((Tag.new.setName (literal "api")).setProperty (literal "status") (literal "failure")).setProperty (literal "url")
    [slash]

theorem setTag_failure {fuel : Nat} (hfuel : 3 ≤ fuel) :
    XML.setTag fuel .new (literal "api" ++ attributes (literal "failure") []) = .ok failureTag := by
  obtain ⟨fuel, rfl⟩ : ∃ n, fuel = n + 3 := ⟨fuel - 3, by omega⟩
  rfl

/-- The crawler reads that there is no address. -/
theorem readAnswer_failure (web : Web) : readAnswer (answer web (literal "failure") []) = .ok none := by
  have hfree := not_mem_attributes (literal "failure") [] (by decide +kernel) (by decide +kernel)
  obtain ⟨tagList, hnames, hparse⟩ := parse_answer web hfree fun fuel hfuel => setTag_failure hfuel
  have hget := getElementsByTagName_append hnames failureTag (by decide : literal "api" ≠ []) rfl
  rw [readAnswer, hparse]
  simp only [bind, Except.bind, hget]
  rfl

/-! ## The harvest of a page -/

/-- The address that a reference on a page stands for, when the object has been there. -/
def resolved (http : Http) (url : Str) : Str :=
  if isAbsolutePath url then url else http.header ++ http.host ++ http.keptPath url

/-- The scheme, the host and the directory of a page do not depend on the references that have been resolved. -/
theorem resolve_eq {http : Http} (hbased : http.Based) (url : Str) :
    ∃ path, resolve http url = .ok ({ http with path := path }, resolved http url) := by
  unfold resolve resolved
  split
  · exact ⟨http.path, rfl⟩
  · exact ⟨http.keptPath url, by rw [Http.setPath_based hbased]; rfl⟩

/-- **The loop over the tags** resolves every reference by itself. -/
theorem collect_eq (http : Http) (hbased : http.Based) (property : Str) (tags : List Tag) :
    ∃ path, collect property tags http =
      .ok ({ http with path := path }, tags.map fun tag => (resolved http (tag.getProperty property)).urlEncode) := by
  induction tags generalizing http with
  | nil => exact ⟨http.path, rfl⟩
  | cons tag tags ih =>
    obtain ⟨path, hresolve⟩ := resolve_eq hbased (tag.getProperty property)
    obtain ⟨path', hcollect⟩ := ih { http with path := path } hbased
    exact ⟨path', by rw [collect, hresolve]; simp only [bind, Except.bind, hcollect]; rfl⟩

/-- The addresses that a page names, resolved and encoded, in the order of its tags. -/
def harvested (http : Http) (tags : List Tag) : Harvest where
  images := (XML.getElementsByTagName tags (literal "img")).map fun tag =>
    (resolved http (tag.getProperty (literal "src"))).urlEncode
  links := (XML.getElementsByTagName tags (literal "a")).map fun tag =>
    (resolved http (tag.getProperty (literal "href"))).urlEncode

theorem harvest_eq {http : Http} (hbased : http.Based) (tags : List Tag) :
    harvest http tags = .ok (harvested http tags) := by
  obtain ⟨path, himages⟩ := collect_eq http hbased (literal "src") (XML.getElementsByTagName tags (literal "img"))
  obtain ⟨path', hlinks⟩ := collect_eq { http with path := path } hbased (literal "href")
    (XML.getElementsByTagName tags (literal "a"))
  rw [harvest, himages]
  simp only [bind, Except.bind, hlinks]
  rfl

/-- A request leaves the object in a directory. -/
theorem request_eq {http : Http} (hinv : http.Inv) (url method data : Str) :
    ∃ r, http.Request url method data = .ok r ∧ r.1.Inv := by
  obtain ⟨r, hr⟩ := request_total http url method data
  obtain ⟨h', hcall, hinv', -⟩ := Http.call_inv hinv (.Request url method data)
  rw [Http.call, hr] at hcall
  cases hcall
  exact ⟨r, hr, hinv'⟩

/-- **A run at an address that can stand in single quotes** reads the page that is there, and ends with the addresses
that the page names. -/
theorem crawl_answer (web : Web) {url : Str} (h : Quotable url) : ∃ here there tags,
    Http.new.Request getNextURL (literal "GET") [] = .ok here ∧ here.1.Request url (literal "GET") [] = .ok there ∧
    parse (web.page there.1.host there.1.port there.2) = .ok tags ∧
    crawl web (answer web (literal "success") url) = .ok (some (harvested there.1 tags)) := by
  obtain ⟨here, hhere, hinv⟩ := request_eq Http.inv_new getNextURL (literal "GET") []
  obtain ⟨there, hthere, hinv'⟩ := request_eq hinv url (literal "GET") []
  obtain ⟨tags, htags⟩ := parse_total (web.page there.1.host there.1.port there.2)
  refine ⟨here, there, tags, hhere, hthere, htags, ?_⟩
  rw [crawl, hhere]
  simp only [bind, Except.bind, readAnswer_success web h, visit, hthere, htags, harvest_eq hinv'.based]
  rfl

end Crawler

end LeftFelt
