import LeftFelt.Base.Str
import LeftFelt.Lib.Segments

/-!
# Addresses of requests

The class `Http` up to the text that it sends: `setHost`, `setPath`, `setPort` and `setURL` keep the parts of an
address, and `Request` goes to one and keeps where it was in `base_path`.

The loop of `setPath` ends, since every round takes a byte from the path (`resolve_joined` says where it ends): on the
segments of the path it is `climb`, up to the first empty segment.
-/

namespace LeftFelt

open Lib Segments Str

/-- `Http`, without the network. -/
structure Http where
  header : Str
  host : Str
  path : Str
  port : Str
  base_path : Str
  deriving DecidableEq

namespace Http

/-- `':'`. -/
def colon : UInt8 := 0x3A

/-- `"http://"`. -/
def http : Str := literal "http://"

/-- `"https://"`. -/
def https : Str := literal "https://"

/-- `".."`. -/
def dotdot : Str := literal ".."

/-- `Http()`. -/
def new : Http := ⟨http, [], [], [], []⟩

/-- `setHost(host)`. -/
def setHost (h : Http) (host : Str) : Except Stop Http := do
  let host ← (host.frontStrip space).endStrip space
  return { h with host := host, base_path := [] }

/-- The loop of `setPath`, on `this->path` and `path`, at most `fuel` rounds. -/
def resolve : Nat → Str → Str → Except Stop (Str × Str)
  | 0, thisPath, path => if path ≠ [] then .error .outOfFuel else .ok (thisPath, path)
  | fuel + 1, thisPath, path =>
    if path ≠ [] then
      let path : Str := path.drop 1
      let list := path.frontSplit slash
      if list.1 = dotdot then resolve fuel (thisPath.endSplit slash).1 list.2
      else if list.1 = [] then .ok (thisPath, [slash])
      else resolve fuel (thisPath ++ ([slash] ++ list.1)) list.2
    else .ok (thisPath, path)

/-- `setPath(path)`. The loop gets as many rounds as the path has bytes. -/
def setPath (h : Http) (path : Str) : Except Stop Http := do
  let path ← (path.frontStrip space).endStrip space
  let start := if path.front ≠ [slash] then (h.base_path, [slash] ++ path) else ([], path)
  let result ← resolve start.2.length start.1 start.2
  return { h with path := result.1 ++ result.2 }

/-- `setPort(port)`. -/
def setPort (h : Http) (port : Str) : Except Stop Http := do
  let port ← (port.frontStrip space).endStrip space
  return { h with port := port }

/-- The end of `setURL`: the port is taken from the host. -/
def portFromHost (h : Http) : Except Stop Http :=
  match h.host.find [colon] 0 with
  | none => h.setPort (literal "80")
  | some index => h.setPort (h.host.drop (index + 1))

/-- `setURL(URL)`. -/
def setURL (h : Http) (URL : Str) : Except Stop Http := do
  let h := { h with header := http }
  let index := URL.find h.header 0
  let (h, index) := if index = none then ({ h with header := https }, URL.find https 0) else (h, index)
  let h ← match index with
    | some index =>
      let URL : Str := URL.drop (index + h.header.length)
      match URL.find [slash] 0 with
      | none => do
        let h ← h.setHost URL
        h.setPath [slash]
      | some index => do
        let h ← h.setHost (URL.take index)
        h.setPath (URL.drop index)
    | none => h.setPath URL
  h.portFromHost

/-- `getURL()`. -/
def getURL (h : Http) : Str := h.header ++ h.host ++ h.path

/-- `GET(host, path)`. -/
def GET (_host path : Str) : Str := literal "GET " ++ path ++ literal " HTTP/1.0\r\n\r\n"

/-- `POST(host, path, data)`. -/
def POST (_host path data : Str) : Str :=
  literal "POST " ++ path ++ literal " HTTP/1.0\r\n" ++
    literal "Content-Type: application/x-www-form-urlencoded\r\n" ++
    literal "Content-Length:" ++ (Nat.toDigits 10 data.length).map (fun c => c.toNat.toUInt8) ++
    literal "\r\n\r\n" ++ data

/-- `HEAD(host, path)`. -/
def HEAD (_host path : Str) : Str := literal "HEAD " ++ path ++ literal " HTTP/1.0\r\n\r\n"

/-- `Request(URL, method, data)`: the object after it, and the text that is sent. -/
def Request (h : Http) (URL method data : Str) : Except Stop (Http × Str) := do
  let h ← h.setURL URL
  let h := { h with base_path := (h.path.endSplit slash).1 }
  let request :=
    if method = literal "GET" then GET h.host h.path
    else if method = literal "POST" then POST h.host h.path data
    else if method = literal "HEAD" then HEAD h.host h.path
    else []
  return (h, request)

/-! ## The loop of `setPath` -/

/-- `EndSplit` takes the last segment away. -/
theorem endSplit_joined {stack : List Str} (h : ∀ s ∈ stack, slash ∉ s) :
    (endSplit (joined slash stack) slash).1 = joined slash stack.dropLast := by
  rcases List.eq_nil_or_concat' stack with rfl | ⟨stack, s, rfl⟩
  · rfl
  · have hs : slash ∉ s := h s (List.mem_append_right _ List.mem_cons_self)
    rw [joined_append, joined_cons, joined_nil, List.append_nil, endSplit_append _ hs, List.dropLast_concat]

/-- A segment is cut off in front of the next one. -/
theorem frontSplit_joined {s : Str} (h : slash ∉ s) (segs : List Str) :
    frontSplit (s ++ joined slash segs) slash = (s, joined slash segs) := by
  cases segs with
  | nil => rw [joined_nil, List.append_nil, frontSplit_of_not_mem h]
  | cons t segs => exact frontSplit_append h

/-- **The loop climbs** up to the first empty segment, and leaves a slash if there is one. -/
theorem resolve_joined {fuel : Nat} {stack segs : List Str} (hstack : ∀ s ∈ stack, slash ∉ s)
    (hsegs : ∀ s ∈ segs, slash ∉ s)
    (hfuel : (joined slash segs).length ≤ fuel) :
    resolve fuel (joined slash stack) (joined slash segs) =
      .ok (joined slash (climb dotdot stack (segs.takeWhile (· ≠ []))), if [] ∈ segs then [slash] else []) := by
  induction segs generalizing fuel stack with
  | nil => cases fuel <;> simp [resolve]
  | cons s segs ih =>
    rw [joined_cons, List.length_cons, List.length_append] at hfuel
    cases fuel with
    | zero => exact absurd hfuel (Nat.not_succ_le_zero _)
    | succ fuel =>
      have hs := hsegs s List.mem_cons_self
      have hsegs' : ∀ s ∈ segs, slash ∉ s := fun s hs => hsegs s (List.mem_cons_of_mem _ hs)
      rw [joined_cons, resolve, if_pos (List.cons_ne_nil _ _)]
      simp only [List.drop_one, List.tail_cons, frontSplit_joined hs]
      by_cases hup : s = dotdot
      · have hdrop : ∀ s ∈ stack.dropLast, slash ∉ s := fun s hs => hstack s (List.dropLast_subset _ hs)
        have hne : s ≠ [] := by rw [hup]; decide
        rw [if_pos hup, endSplit_joined hstack, ih hdrop hsegs' (by omega),
          List.takeWhile_cons_of_pos (by simpa using hne), climb_cons, climbOne, if_pos hup]
        simp [hne.symm]
      · by_cases hnil : s = []
        · rw [if_neg hup, if_pos hnil, hnil]
          simp
        · have hpush : ∀ t ∈ stack ++ [s], slash ∉ t := by
            intro t ht
            cases List.mem_append.1 ht with
            | inl ht => exact hstack t ht
            | inr ht => exact List.mem_singleton.1 ht ▸ hs
          have hjoined : joined slash stack ++ ([slash] ++ s) = joined slash (stack ++ [s]) := by
            rw [joined_append, joined_cons, joined_nil, List.append_nil, List.singleton_append]
          rw [if_neg hup, if_neg hnil, hjoined, ih hpush hsegs' (by omega),
            List.takeWhile_cons_of_pos (by simpa using hnil), climb_cons, climbOne, if_neg hup]
          simp [Ne.symm hnil]

/-- The loop ends whatever path has been kept. -/
theorem resolve_total {fuel : Nat} (thisPath : Str) {path : Str} (hfuel : path.length ≤ fuel) :
    ∃ result, resolve fuel thisPath path = .ok result := by
  induction fuel generalizing thisPath path with
  | zero =>
    have hnil : path = [] := List.length_eq_zero_iff.1 (Nat.le_zero.1 hfuel)
    exact ⟨_, by rw [resolve, if_neg (not_not_intro hnil)]⟩
  | succ fuel ih =>
    by_cases hne : path = []
    · exact ⟨_, by rw [resolve, if_neg (not_not_intro hne)]⟩
    · have hsuffix := (frontSplit_snd_suffix (path.drop 1) slash).length_le
      have hpos := List.length_pos_of_ne_nil hne
      rw [List.length_drop] at hsuffix
      have hle : (frontSplit (path.drop 1) slash).2.length ≤ fuel := by omega
      rw [resolve, if_pos hne]
      dsimp only
      split
      · exact ih _ hle
      · split
        · exact ⟨_, rfl⟩
        · exact ih _ hle

/-! ## One call -/

/-- Does the path begin with a slash, when it is stripped? -/
def isAbsolute (path : Str) : Bool := (path.trim space).front = [slash]

/-- The segments of a path. -/
def segments (path : Str) : List Str :=
  (if isAbsolute path then (path.trim space).drop 1 else path.trim space).splitOn slash

/-- The segments that a path is resolved on. -/
def stack (h : Http) (path : Str) : List Str := if isAbsolute path then [] else (h.base_path.splitOn slash).drop 1

/-- The text before the first slash, stripped. -/
def hostOf (rest : Str) : Str := (rest.frontSplit slash).1.trim space

/-- The text from the first slash on, or a slash. -/
def pathOf (rest : Str) : Str := if slash ∈ rest then (rest.frontSplit slash).2 else [slash]

/-- The port in a host. -/
def portOf (host : Str) : Str :=
  match host.find [colon] 0 with
  | none => literal "80"
  | some index => trim (host.drop (index + 1)) space

/-- Where an address begins: what stands behind the first `http://`, or behind the first `https://` if there is none. -/
def scheme (URL : Str) : Option (Str × Str) :=
  match URL.find http 0 with
  | some index => some (http, URL.drop (index + http.length))
  | none => (URL.find https 0).map fun index => (https, URL.drop (index + https.length))

theorem setHost_eq (h : Http) (host : Str) :
    h.setHost host = .ok { h with host := host.trim space, base_path := [] } := by
  rw [setHost, endStrip_frontStrip]
  rfl

/-- `setPath` returns, and changes nothing but the path. -/
theorem setPath_frame (h : Http) (path : Str) : ∃ p, h.setPath path = .ok { h with path := p } := by
  rw [setPath, endStrip_frontStrip]
  simp only [bind, Except.bind]
  generalize (if (path.trim space).front ≠ [slash] then (h.base_path, [slash] ++ path.trim space) else
    ([], path.trim space)) = start
  obtain ⟨result, hresult⟩ := resolve_total start.1 (le_refl start.2.length)
  exact ⟨result.1 ++ result.2, by rw [hresult]; rfl⟩

theorem not_mem_segments {path s : Str} (h : s ∈ segments path) : slash ∉ s := not_mem_of_mem_splitOn h

/-- An absolute path begins with a slash, when it is stripped. -/
theorem isAbsolute_iff {path : Str} : isAbsolute path ↔ ∃ q, path.trim space = slash :: q := by
  rw [isAbsolute, decide_eq_true_iff, front]
  cases path.trim space with
  | nil => simp
  | cons c q => simp

/-- The path that is kept: the segments, climbed from where the path starts, up to the first empty one, which leaves a
slash at the end. -/
def keptPath (h : Http) (path : Str) : Str :=
  joined slash (climb dotdot (h.stack path) ((segments path).takeWhile (· ≠ []))) ++
    (if [] ∈ segments path then [slash] else [])

/-- **`setPath` keeps `keptPath`.** -/
theorem setPath_eq (h : Http) (path : Str) {base : List Str} (hbase : h.base_path = joined slash base)
    (hslash : ∀ s ∈ base, slash ∉ s) :
    h.setPath path = .ok { h with path := h.keptPath path } := by
  have hstart : (if (path.trim space).front ≠ [slash] then (h.base_path, [slash] ++ path.trim space) else
      ([], path.trim space)) = (joined slash (h.stack path), joined slash (segments path)) := by
    by_cases habs : isAbsolute path
    · obtain ⟨q, hq⟩ := isAbsolute_iff.1 habs
      rw [segments, stack, if_pos habs, if_pos habs, joined_splitOn, hq]
      rfl
    · have hfront : (path.trim space).front ≠ [slash] := by simpa [isAbsolute] using habs
      rw [segments, stack, if_neg habs, if_neg habs, if_pos hfront, joined_splitOn, hbase, splitOn_joined hslash]
      rfl
  have hstack : ∀ s ∈ h.stack path, slash ∉ s := by
    intro s hs
    unfold stack at hs
    split at hs
    · exact absurd hs List.not_mem_nil
    · exact not_mem_of_mem_splitOn (List.mem_of_mem_drop hs)
  rw [setPath, endStrip_frontStrip]
  simp only [bind, Except.bind, hstart, resolve_joined hstack (fun s hs => not_mem_segments hs) le_rfl]
  rfl

theorem portFromHost_eq (h : Http) : h.portFromHost = .ok { h with port := portOf h.host } := by
  unfold portFromHost portOf setPort
  cases h.host.find [colon] 0 with
  | none => rfl
  | some index =>
    simp only [endStrip_frontStrip]
    rfl

/-- Where `setURL` goes, before the port is taken from the host. -/
def goTo (h : Http) (URL : Str) : Except Stop Http :=
  match scheme URL with
  | some (header, rest) => setPath { h with header := header, host := hostOf rest, base_path := [] } (pathOf rest)
  | none => setPath { h with header := https } URL

/-- Where the host is cut off. -/
theorem find_slash (rest : Str) :
    (rest.find [slash] 0 = none ∧ hostOf rest = rest.trim space ∧ pathOf rest = [slash]) ∨
    ∃ index, rest.find [slash] 0 = some index ∧ hostOf rest = trim (rest.take index) space ∧
      pathOf rest = rest.drop index := by
  by_cases h : slash ∈ rest
  · obtain ⟨u, v, rfl, hu⟩ := List.eq_append_cons_of_mem h
    refine Or.inr ⟨u.length, find_singleton [] hu v, ?_, ?_⟩
    · rw [hostOf, frontSplit_append hu, List.take_left]
    · rw [pathOf, if_pos h, frontSplit_append hu, List.drop_left]
  · refine Or.inl ⟨find_singleton_eq_none [] h, ?_, ?_⟩
    · rw [hostOf, frontSplit_of_not_mem h]
    · rw [pathOf, if_neg h]

/-- **One address**: the scheme, the host and the path are cut apart, or the path is resolved. -/
theorem setURL_eq (h : Http) (URL : Str) :
    h.setURL URL = (h.goTo URL).map fun h => { h with port := portOf h.host } := by
  have hport : ∀ r : Except Stop Http, (r >>= portFromHost) = r.map fun h => { h with port := portOf h.host } := by
    intro r
    cases r with
    | error e => rfl
    | ok h => exact portFromHost_eq h
  rw [← hport]
  unfold setURL goTo scheme
  cases hhttp : URL.find http 0 with
  | some index =>
    simp only [hhttp]
    cases find_slash (URL.drop (index + http.length)) with
    | inl hnone =>
      obtain ⟨hfind, hhost, hpath⟩ := hnone
      simp [hfind, hhost, hpath, setHost_eq, bind, Except.bind]
    | inr hsome =>
      obtain ⟨i, hfind, hhost, hpath⟩ := hsome
      simp [hfind, hhost, hpath, setHost_eq, bind, Except.bind]
  | none =>
    cases hhttps : URL.find https 0 with
    | some index =>
      simp only [hhttp]
      cases find_slash (URL.drop (index + https.length)) with
      | inl hnone =>
        obtain ⟨hfind, hhost, hpath⟩ := hnone
        simp [hfind, hhost, hpath, setHost_eq, bind, Except.bind]
      | inr hsome =>
        obtain ⟨i, hfind, hhost, hpath⟩ := hsome
        simp [hfind, hhost, hpath, setHost_eq, bind, Except.bind]
    | none => simp [hhttp]

/-- `setURL` returns on every object and every string. -/
theorem setURL_total (h : Http) (URL : Str) : ∃ h', h.setURL URL = .ok h' := by
  have hgo : ∃ h', h.goTo URL = .ok h' := by
    unfold goTo
    cases scheme URL with
    | none =>
      obtain ⟨p, hp⟩ := setPath_frame { h with header := https } URL
      exact ⟨_, hp⟩
    | some cut =>
      obtain ⟨p, hp⟩ := setPath_frame { h with header := cut.1, host := hostOf cut.2, base_path := [] } (pathOf cut.2)
      exact ⟨_, hp⟩
  obtain ⟨h', hh'⟩ := hgo
  exact ⟨_, by rw [setURL_eq, hh']; rfl⟩

end Http

end LeftFelt
