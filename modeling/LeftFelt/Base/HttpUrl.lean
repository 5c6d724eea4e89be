import LeftFelt.Base.Http

/-!
# Schemes and hosts

What `setURL` makes of a string. It looks for `http://` anywhere in it, and for `https://` if there is none, so the
host is the one that a link names only if no other scheme stands further behind (`setURL_host_iff`); and it leaves the
header at `https://` where it has found neither (`setURL_frame_iff`). On addresses without an inner scheme the parts
are cut apart and put together again (`getURL_setURL`).
-/

namespace LeftFelt

open Lib Segments Str

namespace Http

variable {URL pattern u rest : Str} {h h' : Http}

/-! ## The first scheme -/

/-- The first place of `pattern` is behind `u` and in front of `rest`. -/
structure FirstAt (URL pattern u rest : Str) : Prop where
  eq : URL = u ++ (pattern ++ rest)
  first : ∀ v w, URL = v ++ (pattern ++ w) → u.length ≤ v.length

theorem FirstAt.find (h : FirstAt URL pattern u rest) : URL.find pattern 0 = some u.length := by
  rw [find_eq_some]
  refine ⟨?_, Nat.zero_le _, ?_, fun j _ hj hfront => ?_⟩
  · rw [h.eq, List.drop_left]
    exact ⟨rest, rfl⟩
  · rw [h.eq, List.length_append]
    omega
  · obtain ⟨w, hw⟩ := hfront
    have hle : j ≤ URL.length := by
      rw [h.eq, List.length_append]
      omega
    have hfirst := h.first (URL.take j) w (by rw [hw, List.take_append_drop])
    rw [List.length_take_of_le hle] at hfirst
    omega

theorem FirstAt.drop (h : FirstAt URL pattern u rest) : URL.drop (u.length + pattern.length) = rest := by
  rw [h.eq, ← List.drop_drop, List.drop_left, List.drop_left]

theorem FirstAt.unique {u' rest' : Str} (h : FirstAt URL pattern u rest) (h' : FirstAt URL pattern u' rest') :
    u' = u ∧ rest' = rest := by
  have hlength : u'.length = u.length := Option.some.inj (h'.find.symm.trans h.find)
  obtain ⟨hu, htail⟩ := List.append_inj (h'.eq.symm.trans h.eq) hlength
  exact ⟨hu, List.append_cancel_left htail⟩

/-- A pattern that occurs has a first place. -/
theorem exists_firstAt (h : pattern <:+: URL) : ∃ u rest, FirstAt URL pattern u rest := by
  classical
  have hex : ∃ n, ∃ v w, URL = v ++ (pattern ++ w) ∧ v.length = n := by
    obtain ⟨v, w, hvw⟩ := h
    exact ⟨v.length, v, w, by rw [← hvw, List.append_assoc], rfl⟩
  obtain ⟨v, w, hvw, hlength⟩ := Nat.find_spec hex
  exact ⟨v, w, hvw, fun v' w' hvw' => hlength ▸ Nat.find_min' hex ⟨v', w', hvw', rfl⟩⟩

theorem find_of_absent (h : ¬pattern <:+: URL) : URL.find pattern 0 = none :=
  find_eq_none.2 fun i _ _ hfront => h (hfront.isInfix.trans (List.drop_suffix i URL).isInfix)

/-- The scheme that `setURL` finds stands behind `u`, and in front of `rest`. -/
def SchemeAt (URL u rest : Str) : Prop :=
  FirstAt URL http u rest ∨ ¬http <:+: URL ∧ FirstAt URL https u rest

theorem scheme_of_http (h : FirstAt URL http u rest) : scheme URL = some (http, rest) := by
  rw [scheme, h.find]
  simp only [h.drop]

theorem scheme_of_https (hhttp : ¬http <:+: URL) (h : FirstAt URL https u rest) : scheme URL = some (https, rest) := by
  rw [scheme, find_of_absent hhttp, h.find]
  simp only [Option.map_some, h.drop]

theorem scheme_of_neither (hhttp : ¬http <:+: URL) (hhttps : ¬https <:+: URL) : scheme URL = none := by
  rw [scheme, find_of_absent hhttp, find_of_absent hhttps]
  rfl

/-- The three kinds of strings. -/
theorem scheme_cases (URL : Str) :
    (∃ u rest, FirstAt URL http u rest ∧ scheme URL = some (http, rest)) ∨
    (∃ u rest, ¬http <:+: URL ∧ FirstAt URL https u rest ∧ scheme URL = some (https, rest)) ∨
    (¬http <:+: URL ∧ ¬https <:+: URL ∧ scheme URL = none) := by
  by_cases hhttp : http <:+: URL
  · obtain ⟨u, rest, h⟩ := exists_firstAt hhttp
    exact Or.inl ⟨u, rest, h, scheme_of_http h⟩
  · by_cases hhttps : https <:+: URL
    · obtain ⟨u, rest, h⟩ := exists_firstAt hhttps
      exact Or.inr (Or.inl ⟨u, rest, hhttp, h, scheme_of_https hhttp h⟩)
    · exact Or.inr (Or.inr ⟨hhttp, hhttps, scheme_of_neither hhttp hhttps⟩)

/-- What `setURL` leaves behind a scheme. -/
theorem setURL_of_scheme (h : Http) {header : Str} (hscheme : scheme URL = some (header, rest)) :
    ∃ path, h.setURL URL = .ok ⟨header, hostOf rest, path, portOf (hostOf rest), []⟩ := by
  obtain ⟨path, hpath⟩ := setPath_frame { h with header := header, host := hostOf rest, base_path := [] } (pathOf rest)
  refine ⟨path, ?_⟩
  rw [setURL_eq, goTo, hscheme]
  simp only [hpath]
  rfl

/-- What `setURL` leaves without a scheme. -/
theorem setURL_of_no_scheme (h : Http) (hscheme : scheme URL = none) :
    ∃ path, h.setURL URL = .ok { h with header := https, path := path, port := portOf h.host } := by
  obtain ⟨path, hpath⟩ := setPath_frame { h with header := https } URL
  refine ⟨path, ?_⟩
  rw [setURL_eq, goTo, hscheme]
  simp only [hpath]
  rfl

/-! ## The host -/

/-- The text up to the next slash, stripped. -/
def hostText (rest : Str) : Str := trim (rest.takeWhile (· ≠ slash)) space

theorem hostOf_eq (rest : Str) : hostOf rest = hostText rest := by
  rw [hostOf, frontSplit_fst_eq_takeWhile, hostText]

/-- **The host that a string names**: behind `http://` or `https://` at its front the text up to the next slash, and
otherwise the host that the object has. -/
structure HostExtracted (h h' : Http) (URL : Str) : Prop where
  absolute : ∀ scheme ∈ [http, https], ∀ rest, URL = scheme ++ rest → h'.host = hostText rest
  relative : (∀ scheme ∈ [http, https], ¬scheme <+: URL) → h'.host = h.host

/-- The host that is to be kept. -/
def namedHost (h : Http) (URL : Str) : Str :=
  if http <+: URL then hostText (URL.drop http.length)
  else if https <+: URL then hostText (URL.drop https.length)
  else h.host

theorem http_not_in_front (rest : Str) : ¬http <+: https ++ rest := by
  rintro ⟨w, hw⟩
  have htake := congrArg (List.take 5) hw
  rw [List.take_append_of_le_length (by decide), List.take_append_of_le_length (by decide)] at htake
  exact absurd htake (by decide)

theorem namedHost_http (h : Http) (rest : Str) : namedHost h (http ++ rest) = hostText rest := by
  rw [namedHost, if_pos (List.prefix_append http rest), List.drop_left]

theorem namedHost_https (h : Http) (rest : Str) : namedHost h (https ++ rest) = hostText rest := by
  rw [namedHost, if_neg (http_not_in_front rest), if_pos (List.prefix_append https rest), List.drop_left]

theorem namedHost_relative (h : Http) (hhttp : ¬http <+: URL) (hhttps : ¬https <+: URL) : namedHost h URL = h.host := by
  rw [namedHost, if_neg hhttp, if_neg hhttps]

theorem hostExtracted_iff : HostExtracted h h' URL ↔ h'.host = namedHost h URL := by
  constructor
  · intro hhost
    by_cases hhttp : http <+: URL
    · obtain ⟨rest, rfl⟩ := hhttp
      rw [namedHost_http]
      exact hhost.absolute http List.mem_cons_self rest rfl
    · by_cases hhttps : https <+: URL
      · obtain ⟨rest, rfl⟩ := hhttps
        rw [namedHost_https]
        exact hhost.absolute https (List.mem_cons_of_mem _ List.mem_cons_self) rest rfl
      · rw [namedHost_relative h hhttp hhttps]
        refine hhost.relative fun scheme hscheme => ?_
        cases List.mem_cons.1 hscheme with
        | inl heq => exact heq ▸ hhttp
        | inr hmem => exact List.mem_singleton.1 hmem ▸ hhttps
  · intro hhost
    refine ⟨fun scheme hscheme rest hURL => ?_, fun hnone => ?_⟩
    · cases List.mem_cons.1 hscheme with
      | inl heq => rw [hhost, hURL, heq, namedHost_http]
      | inr hmem => rw [hhost, hURL, List.mem_singleton.1 hmem, namedHost_https]
    · rw [hhost, namedHost_relative h (hnone http List.mem_cons_self)
        (hnone https (List.mem_cons_of_mem _ List.mem_cons_self))]

/-- The host behind the scheme that is found is the right one if that scheme stands at the front. -/
theorem namedHost_of_schemeAt (h : Http) (hscheme : SchemeAt URL [] rest) : hostText rest = namedHost h URL := by
  cases hscheme with
  | inl hfirst => rw [hfirst.eq, List.nil_append, namedHost_http]
  | inr hfirst => rw [hfirst.2.eq, List.nil_append, namedHost_https]

/-- Only one scheme is found. -/
theorem SchemeAt.unique {u' rest' : Str} (h : SchemeAt URL u rest) (h' : SchemeAt URL u' rest') :
    u' = u ∧ rest' = rest := by
  have hsub : ∀ {v w : Str}, FirstAt URL http v w → http <:+: URL := fun hfirst =>
    ⟨_, _, by rw [hfirst.eq, List.append_assoc]⟩
  cases h with
  | inl hfirst =>
    cases h' with
    | inl hfirst' => exact hfirst.unique hfirst'
    | inr hfirst' => exact absurd (hsub hfirst) hfirst'.1
  | inr hfirst =>
    cases h' with
    | inl hfirst' => exact absurd (hsub hfirst') hfirst.1
    | inr hfirst' => exact hfirst.2.unique hfirst'.2

/-- The host behind a scheme is kept whatever it is. -/
theorem setURL_host_of_schemeAt (h : Http) (hscheme : SchemeAt URL u rest) :
    (∃ h', h.setURL URL = .ok h' ∧ HostExtracted h h' URL) ↔ hostText rest = namedHost h URL := by
  obtain ⟨header, hcut⟩ : ∃ header, scheme URL = some (header, rest) := by
    cases hscheme with
    | inl hfirst => exact ⟨http, scheme_of_http hfirst⟩
    | inr hfirst => exact ⟨https, scheme_of_https hfirst.1 hfirst.2⟩
  obtain ⟨path, hpath⟩ := setURL_of_scheme h hcut
  simp only [hostExtracted_iff, hpath, ← hostOf_eq]
  constructor
  · rintro ⟨h', heq, hhost⟩
    cases heq
    exact hhost
  · intro hhost
    exact ⟨_, rfl, hhost⟩

/-- **Host extraction**: `setURL` keeps the host that the string names if and only if the scheme that it finds stands
at the front, or the same host stands behind it. -/
theorem setURL_host_iff (h : Http) (URL : Str) : (∃ h', h.setURL URL = .ok h' ∧ HostExtracted h h' URL) ↔
    ∀ u rest, SchemeAt URL u rest → u = [] ∨ hostText rest = namedHost h URL := by
  by_cases hscheme : ∃ u rest, SchemeAt URL u rest
  · obtain ⟨u, rest, hscheme⟩ := hscheme
    rw [setURL_host_of_schemeAt h hscheme]
    constructor
    · intro hhost u' rest' hscheme'
      exact Or.inr ((hscheme.unique hscheme').2 ▸ hhost)
    · intro hhost
      cases hhost u rest hscheme with
      | inl hnil => exact namedHost_of_schemeAt h (hnil ▸ hscheme)
      | inr hhost => exact hhost
  · refine iff_of_true ?_ fun u rest h => absurd ⟨u, rest, h⟩ hscheme
    obtain ⟨u, rest, hfirst, -⟩ | ⟨u, rest, hhttp, hfirst, -⟩ | ⟨hhttp, hhttps, hnone⟩ := scheme_cases URL
    · exact absurd ⟨u, rest, Or.inl hfirst⟩ hscheme
    · exact absurd ⟨u, rest, Or.inr ⟨hhttp, hfirst⟩⟩ hscheme
    · obtain ⟨path, hpath⟩ := setURL_of_no_scheme h hnone
      refine ⟨_, hpath, hostExtracted_iff.2 ?_⟩
      rw [namedHost_relative h (fun hfront => hhttp hfront.isInfix) (fun hfront => hhttps hfront.isInfix)]

/-- A scheme in the query: `https://a/?http://b`. -/
def queryURL : Str := literal "https://a/?http://b"

/-- The host is taken from the query. -/
theorem not_hostExtracted_query : ¬∃ h', new.setURL queryURL = .ok h' ∧ HostExtracted new h' queryURL := by
  rintro ⟨h', hset, hhost⟩
  have hset' : new.setURL queryURL = .ok ⟨http, literal "b", [slash], literal "80", []⟩ := by decide +kernel
  cases hset.symm.trans hset'
  have ha := hhost.absolute https (List.mem_cons_of_mem _ List.mem_cons_self) (literal "a/?http://b") (by decide)
  exact absurd ha (by decide +kernel)

/-! ## The header -/

/-- The addresses one after the other. -/
def setURLs (h : Http) (urls : List Str) : Except Stop Http := urls.foldlM setURL h

theorem setURL_header (hset : h.setURL URL = .ok h') : h'.header = https ↔ ¬http <:+: URL := by
  have hne : http ≠ https := by decide
  obtain ⟨u, rest, hfirst, hscheme⟩ | ⟨u, rest, hhttp, -, hscheme⟩ | ⟨hhttp, -, hscheme⟩ := scheme_cases URL
  · obtain ⟨path, hpath⟩ := setURL_of_scheme h hscheme
    cases hset.symm.trans hpath
    exact iff_of_false hne (not_not_intro ⟨u, rest, by rw [hfirst.eq, List.append_assoc]⟩)
  · obtain ⟨path, hpath⟩ := setURL_of_scheme h hscheme
    cases hset.symm.trans hpath
    exact iff_of_true rfl hhttp
  · obtain ⟨path, hpath⟩ := setURL_of_no_scheme h hscheme
    cases hset.symm.trans hpath
    exact iff_of_true rfl hhttp

theorem setURLs_total (h : Http) (urls : List Str) : ∃ h', h.setURLs urls = .ok h' := by
  induction urls generalizing h with
  | nil => exact ⟨h, rfl⟩
  | cons url urls ih =>
    obtain ⟨h₁, h₁set⟩ := setURL_total h url
    obtain ⟨h', h'set⟩ := ih h₁
    exact ⟨h', by rw [setURLs, List.foldlM_cons, h₁set]; exact h'set⟩

/-- The header after a sequence of addresses is that of the last one. -/
theorem setURLs_header {urls : List Str} (hset : new.setURLs urls = .ok h) :
    h.header = https ↔ ∃ url, urls.getLast? = some url ∧ ¬http <:+: url := by
  obtain rfl | ⟨init, url, rfl⟩ := List.eq_nil_or_concat' urls
  · cases hset
    exact iff_of_false (by decide) (by simp)
  · obtain ⟨h₁, h₁set⟩ := setURLs_total new init
    have hlast : h₁.setURL url = .ok h := by
      rw [setURLs, List.foldlM_append] at hset
      rw [setURLs] at h₁set
      rw [h₁set] at hset
      rw [← hset]
      exact (bind_pure (h₁.setURL url)).symm
    rw [setURL_header hlast]
    simp

/-- **A reference is resolved** with the scheme and the host kept: only the path changes, and the port is that of the
host. -/
structure Resolved (h h' : Http) : Prop where
  frame : ∃ path, h' = { h with path := path, port := portOf h.host }
  getURL : h.header ++ h.host <+: h'.getURL

/-- **The frame of a reference**: after any addresses, a reference without a scheme keeps the scheme and the host if
and only if the last address had no `http://` in it. -/
theorem setURL_frame_iff (urls : List Str) {ref : Str} (hhttp : ¬http <:+: ref) (hhttps : ¬https <:+: ref) :
    (∃ h h', new.setURLs urls = .ok h ∧ h.setURL ref = .ok h' ∧ Resolved h h') ↔
      ∃ url, urls.getLast? = some url ∧ ¬http <:+: url := by
  obtain ⟨h, hset⟩ := setURLs_total new urls
  obtain ⟨path, hpath⟩ := setURL_of_no_scheme h (scheme_of_neither hhttp hhttps)
  rw [← setURLs_header hset]
  constructor
  · rintro ⟨h₁, h₂, hset₁, hset₂, hresolved⟩
    cases hset.symm.trans hset₁
    cases hpath.symm.trans hset₂
    obtain ⟨p, hp⟩ := hresolved.frame
    exact (congrArg Http.header hp).symm
  · intro hheader
    refine ⟨h, _, hset, hpath, ⟨path, by rw [← hheader]⟩, ?_⟩
    rw [Http.getURL, hheader]
    exact List.prefix_append _ _

/-- `http://a/`, and then `b`. -/
theorem not_resolved_relative : ¬http <:+: literal "b" ∧ ¬https <:+: literal "b" ∧
    ¬∃ h h', new.setURLs [literal "http://a/"] = .ok h ∧ h.setURL (literal "b") = .ok h' ∧ Resolved h h' := by
  refine ⟨by decide +kernel, by decide +kernel, ?_⟩
  rintro ⟨h, h', hset, hset', hresolved⟩
  have heq : new.setURLs [literal "http://a/"] = .ok ⟨http, literal "a", [slash], literal "80", []⟩ := by decide +kernel
  cases hset.symm.trans heq
  have heq' : setURL ⟨http, literal "a", [slash], literal "80", []⟩ (literal "b") =
    .ok ⟨https, literal "a", literal "/b", literal "80", []⟩ := by decide +kernel
  cases hset'.symm.trans heq'
  obtain ⟨path, hpath⟩ := hresolved.frame
  have hheader : https = http := congrArg Http.header hpath
  exact absurd hheader (by decide)

/-- `https://a/`, and then `b`. -/
theorem setURL_frame_https :
    ∃ h h', new.setURLs [literal "https://a/"] = .ok h ∧ h.setURL (literal "b") = .ok h' ∧ Resolved h h' :=
  (setURL_frame_iff [literal "https://a/"] (by decide +kernel) (by decide +kernel)).2 ⟨_, rfl, by decide +kernel⟩

/-! ## The round trip -/

section RoundTrip

variable {authority p : Str}

/-- No other scheme can stand in such an address. -/
theorem http_absent (hslash : slash ∉ authority) (hempty : [] ∉ (p.splitOn slash).dropLast) :
    ¬http <:+: https ++ (authority ++ slash :: p) := by
  intro hsub
  have hsplit : https = 0x68 :: literal "ttps://" := by decide
  have htail : http <:+: authority ++ slash :: p := by
    rw [hsplit, List.cons_append] at hsub
    cases List.infix_cons_iff.1 hsub with
    | inl hfront =>
      rw [← List.cons_append, ← hsplit] at hfront
      exact absurd hfront (http_not_in_front _)
    | inr hsub =>
      have hhttp : http = 0x68 :: literal "ttp://" := by decide
      rw [hhttp] at hsub ⊢
      exact infix_of_not_mem (s := literal "ttps://") (by decide +kernel) hsub
  have hslashes : [slash, slash] <:+: http := ⟨literal "http:", [], by decide⟩
  have hjoined := infix_of_not_mem hslash (hslashes.trans htail)
  rw [← joined_splitOn slash p] at hjoined
  exact hempty (nil_mem_dropLast (fun s hs => not_mem_of_mem_splitOn hs) hjoined)

/-- **An address is cut apart**, whatever the object has held before. -/
theorem setURL_address (h : Http) {scheme : Str} (hscheme : scheme ∈ [http, https]) (hslash : slash ∉ authority)
    (hhead : authority.head? ≠ some space) (hlast : authority.getLast? ≠ some space)
    (hempty : [] ∉ (p.splitOn slash).dropLast) (hup : dotdot ∉ p.splitOn slash)
    (hspace : (slash :: p).getLast? ≠ some space) :
    h.setURL (scheme ++ (authority ++ slash :: p)) = .ok ⟨scheme, authority, slash :: p, portOf authority, []⟩ := by
  have hcut : Http.scheme (scheme ++ (authority ++ slash :: p)) = some (scheme, authority ++ slash :: p) := by
    have hfirst : FirstAt (scheme ++ (authority ++ slash :: p)) scheme [] (authority ++ slash :: p) :=
      ⟨rfl, fun v w _ => Nat.zero_le v.length⟩
    cases List.mem_cons.1 hscheme with
    | inl heq =>
      rw [heq] at hfirst ⊢
      exact scheme_of_http hfirst
    | inr hmem =>
      rw [List.mem_singleton.1 hmem] at hfirst ⊢
      exact scheme_of_https (http_absent hslash hempty) hfirst
  have hhost : hostOf (authority ++ slash :: p) = authority := by
    rw [hostOf, frontSplit_append hslash, trim_eq_self hhead hlast]
  have hpath : pathOf (authority ++ slash :: p) = slash :: p := by
    rw [pathOf, if_pos (List.mem_append_right _ List.mem_cons_self), frontSplit_append hslash]
  have htrim : trim (slash :: p) space = slash :: p := trim_eq_self (by simp; decide) hspace
  have habs : isAbsolute (slash :: p) := isAbsolute_iff.2 ⟨p, htrim⟩
  have hsegments : segments (slash :: p) = p.splitOn slash := by
    rw [segments, if_pos habs, htrim, List.drop_one, List.tail_cons]
  have hstack : ∀ h : Http, h.stack (slash :: p) = [] := fun h => if_pos habs
  have hup' : dotdot ∉ (p.splitOn slash).takeWhile (· ≠ []) := fun hmem => hup (List.takeWhile_subset _ hmem)
  have hset := @setPath_eq { h with header := scheme, host := authority, base_path := [] } (slash :: p) [] rfl
    (fun s hs => absurd hs List.not_mem_nil)
  rw [keptPath, hsegments, hstack, climb_of_not_mem hup', List.nil_append, joined_takeWhile hempty,
    joined_splitOn] at hset
  rw [setURL_eq, goTo, hcut]
  simp only [hhost, hpath, hset]
  rfl

/-- **The round trip**: such an address is given back by `getURL`, and to go there again changes nothing. -/
theorem getURL_setURL (h : Http) {scheme : Str} (hscheme : scheme ∈ [http, https]) (hslash : slash ∉ authority)
    (hhead : authority.head? ≠ some space) (hlast : authority.getLast? ≠ some space)
    (hempty : [] ∉ (p.splitOn slash).dropLast) (hup : dotdot ∉ p.splitOn slash)
    (hspace : (slash :: p).getLast? ≠ some space) :
    ∃ h', h.setURL (scheme ++ (authority ++ slash :: p)) = .ok h' ∧
      h'.getURL = scheme ++ (authority ++ slash :: p) ∧ h'.setURL h'.getURL = .ok h' := by
  have haddress := fun h => setURL_address h hscheme hslash hhead hlast hempty hup hspace
  have hget : getURL ⟨scheme, authority, slash :: p, portOf authority, []⟩ = scheme ++ (authority ++ slash :: p) :=
    List.append_assoc _ _ _
  exact ⟨_, haddress h, hget, by rw [hget]; exact haddress _⟩

/-- `https://a:8/b./c/`. -/
theorem getURL_setURL_port : ∃ h', new.setURL (https ++ (literal "a:8" ++ slash :: literal "b./c/")) = .ok h' ∧
    h'.getURL = https ++ (literal "a:8" ++ slash :: literal "b./c/") ∧ h'.setURL h'.getURL = .ok h' :=
  getURL_setURL new (List.mem_cons_of_mem _ List.mem_cons_self) (by decide +kernel) (by decide +kernel)
    (by decide +kernel) (by decide +kernel) (by decide +kernel) (by decide +kernel)

end RoundTrip

end Http

end LeftFelt
