import LeftFelt.Web.Controller
import LeftFelt.Web.Isolation

/-!
# The guard of the login

`loadUser` answers a request without a cookie with a redirection, and returns as it does for any other request. So
`dispatch` goes on to the action for every cookie, if no other filter in front of it throws (`action_mem_iff`).
-/

namespace LeftFelt.Web

open Str Lib Traced

variable {ω : Type}

/-- `loadUser` stops no request. -/
theorem loadUserFilter_returns (config : Config) (page : Page ω) :
    (exec (loadUserFilter.execute config) page).1 = .ok () := by
  have hget : exec (get : Component ω (Page ω)) page = (.ok page, page) := rfl
  unfold loadUserFilter.execute
  rw [exec_bind_ok hget]
  by_cases hsession : page.request.getCookie loadUserFilter.userSession (.text []) ≠ .text []
  · rw [if_pos hsession]
    rfl
  · rw [if_neg hsession]
    rfl

namespace Controller

/-! ## Filters one after the other -/

/-- A filter other than `loadUser` throws when its turn comes. -/
def OtherThrows (c : Controller ω) : List Str → Page ω → Prop
  | [], _ => False
  | name :: names, page =>
    (c.filterFile name ≠ c.loadUserFile ∧ (exec (c.runFilter name) page).1 ≠ .ok ()) ∨
    c.OtherThrows names (exec (c.runFilter name) page).2

variable (c : Controller ω)

theorem runFilter_loadUser {name : Str} (h : c.filterFile name = c.loadUserFile) (page : Page ω) :
    (exec (c.runFilter name) page).1 = .ok () := by
  have hbuilt : exec (c.getFilter name) page = (.ok (loadUserFilter.execute c.config), page) := by
    unfold getFilter
    rw [if_pos h]
    rfl
  unfold runFilter
  rw [exec_bind_ok hbuilt]
  exact loadUserFilter_returns c.config page

/-- **One filter of a list**: it stops the request, or the next ones follow. -/
theorem executeFilters_cons (name : Str) (names : List Str) (t : Trace Event (Page ω)) :
    (∃ e, (exec (c.runFilter name) t.state).1 = .error e ∧
      exec (c.executeFilters (name :: names)) t =
        (.error e, ⟨(exec (c.runFilter name) t.state).2, t.events ++ [.filter name]⟩)) ∨
    ((exec (c.runFilter name) t.state).1 = .ok () ∧
      exec (c.executeFilters (name :: names)) t =
        exec (c.executeFilters names) ⟨(exec (c.runFilter name) t.state).2, t.events ++ [.filter name]⟩) := by
  unfold executeFilters
  rw [List.forM_eq_forM, List.forM_cons]
  obtain ⟨e, t', hstop, heq⟩ | ⟨a, t', hreturn, heq⟩ := exec_bind_cases
    (do note (.filter name); part (c.runFilter name) : Run Stop Event (Page ω) Unit)
    (fun _ => forM names fun filter_name => do note (.filter filter_name); part (c.runFilter filter_name)) t
  · rw [exec_bind_ok (exec_note _ _), exec_part] at hstop
    obtain ⟨hresult, rfl⟩ := Prod.mk.inj hstop
    exact Or.inl ⟨e, hresult, heq⟩
  · rw [exec_bind_ok (exec_note _ _), exec_part] at hreturn
    obtain ⟨hresult, rfl⟩ := Prod.mk.inj hreturn
    exact Or.inr ⟨hresult, heq⟩

/-- The filters of a list all return if no other one than `loadUser` throws. -/
theorem executeFilters_returns_iff (names : List Str) (t : Trace Event (Page ω)) :
    (exec (c.executeFilters names) t).1 = .ok () ↔ ¬ c.OtherThrows names t.state := by
  induction names generalizing t with
  | nil => exact iff_of_true rfl (fun h => h)
  | cons name names ih =>
    obtain ⟨e, hstop, heq⟩ | ⟨hreturn, heq⟩ := executeFilters_cons c name names t
    · have hother : c.filterFile name ≠ c.loadUserFile := by
        intro hfile
        rw [runFilter_loadUser c hfile] at hstop
        cases hstop
      rw [heq]
      refine iff_of_false (fun h => by cases h) (not_not_intro (Or.inl ⟨hother, ?_⟩))
      rw [hstop]
      exact fun h => by cases h
    · rw [heq, ih]
      refine not_congr ⟨Or.inr, fun h => h.resolve_left fun hthrows => hthrows.2 hreturn⟩

/-- Filters note themselves only. -/
theorem executeFilters_events (names : List Str) (t : Trace Event (Page ω)) {event : Event}
    (hevent : event ∈ (exec (c.executeFilters names) t).2.events) :
    event ∈ t.events ∨ ∃ name, event = .filter name := by
  induction names generalizing t with
  | nil => exact Or.inl hevent
  | cons name names ih =>
    have hnoted : event ∈ t.events ++ [.filter name] ∨ ∃ name, event = .filter name := by
      obtain ⟨e, -, heq⟩ | ⟨-, heq⟩ := executeFilters_cons c name names t
      · rw [heq] at hevent
        exact Or.inl hevent
      · rw [heq] at hevent
        exact ih _ hevent
    cases hnoted with
    | inr hfilter => exact Or.inr hfilter
    | inl hmem =>
      rw [List.mem_append, List.mem_singleton] at hmem
      exact hmem.imp_right fun h => ⟨name, h⟩

theorem grows_executeFilters (names : List Str) : Grows (c.executeFilters names) :=
  grows_forM (fun _ => grows_bind (grows_note _) fun _ => grows_part _) names

/-! ## The action -/

/-- The action is noted before it runs, and stays noted. -/
theorem action_mem_mainProcess (class_name : Str) (action : Action ω) (t : Trace Event (Page ω)) :
    .action class_name ∈ (exec (c.mainProcess class_name action) t).2.events := by
  have hrest : ∀ view_name, Grows (do
      let post_filter ← part action.getPostFilter
      c.executeFilters post_filter
      let view ← part (c.getView (viewName class_name view_name))
      note (.view (viewName class_name view_name))
      part view : Run Stop Event (Page ω) (Option (Renderer ω))) := fun _ =>
    grows_bind (grows_part _) fun _ => grows_bind (grows_executeFilters c _) fun _ =>
      grows_bind (grows_part _) fun _ => grows_bind (grows_note _) fun _ => grows_part _
  have hgrow := grows_bind (grows_part action.execute) hrest
  unfold mainProcess
  rw [exec_bind_ok (exec_note _ _)]
  exact (hgrow _).subset (List.mem_append_right _ List.mem_cons_self)

theorem grows_render (renderer : Option (Renderer ω)) : Grows (c.render renderer) := by
  cases renderer with
  | none => exact grows_throw _
  | some renderer => exact grows_bind (grows_note _) fun _ => grows_part _

/-- The filters in front of an action: they stop the request, or the action is next. -/
theorem runAction_cases {class_name : Str} {action : Action ω} {names : List Str} {page page' : Page ω}
    (hname : class_name ≠ []) (hnames : exec (c.preFilters class_name) page = (.ok (action, names), page')) :
    (c.OtherThrows names page' ∧ ∀ event ∈ (exec (c.dispatch class_name) ⟨page, []⟩).2.events,
      ∃ name, event = .filter name) ∨
    (¬ c.OtherThrows names page' ∧ .action class_name ∈ (exec (c.dispatch class_name) ⟨page, []⟩).2.events) := by
  have hpart : exec (part (c.preFilters class_name) : Run Stop Event (Page ω) _) ⟨page, []⟩ =
      (.ok (action, names), ⟨page', []⟩) := by
    rw [exec_part, hnames]
  have hreturns := executeFilters_returns_iff c names ⟨page', []⟩
  have hdispatch : exec (c.dispatch class_name) ⟨page, []⟩ = exec (do
      c.executeFilters names
      let renderer ← c.mainProcess class_name action
      c.render renderer) ⟨page', []⟩ := by
    unfold dispatch
    rw [if_pos hname, exec_bind_ok hpart]
  rw [hdispatch]
  obtain ⟨e, t, hstop, heq⟩ | ⟨a, t, hreturn, heq⟩ := exec_bind_cases (c.executeFilters names)
    (fun _ => c.mainProcess class_name action >>= c.render) ⟨page', []⟩
  · refine Or.inl ⟨?_, fun event hevent => ?_⟩
    · rw [hstop] at hreturns
      by_contra hpass
      cases hreturns.mpr hpass
    · rw [heq] at hevent
      rw [← congrArg Prod.snd hstop] at hevent
      exact (executeFilters_events c names ⟨page', []⟩ hevent).resolve_left List.not_mem_nil
  · refine Or.inr ⟨?_, ?_⟩
    · rw [hreturn] at hreturns
      exact hreturns.mp rfl
    · rw [heq]
      have hmem := action_mem_mainProcess c class_name action t
      obtain ⟨e, t', hmain, hend⟩ | ⟨renderer, t', hmain, hend⟩ :=
        exec_bind_cases (c.mainProcess class_name action) c.render t
      · rw [hend]
        rwa [hmain] at hmem
      · rw [hend]
        rw [hmain] at hmem
        exact (grows_render c renderer t').subset hmem

/-- **The action runs** exactly if no other filter than `loadUser` throws in front of it: the cookie has no say. -/
theorem action_mem_iff {class_name : Str} {action : Action ω} {names : List Str} {page page' : Page ω}
    (hname : class_name ≠ []) (hnames : exec (c.preFilters class_name) page = (.ok (action, names), page')) :
    .action class_name ∈ (exec (c.dispatch class_name) ⟨page, []⟩).2.events ↔ ¬ c.OtherThrows names page' := by
  obtain ⟨hthrows, hfilters⟩ | ⟨hpass, hmem⟩ := runAction_cases c hname hnames
  · refine iff_of_false (fun hmem => ?_) (not_not_intro hthrows)
    obtain ⟨name, hevent⟩ := hfilters _ hmem
    cases hevent
  · exact iff_of_true hmem hpass

end Controller

/-! ## Tokens -/

/-- A token that `userAuth` has returned. -/
def Issued (sha1 : Str → Str) (history : List (Account.Call × (Nat → Bool))) (w : Account.Manager) (token : Str) :
    Prop :=
  ∃ before c fails after, history = before ++ (c, fails) :: after ∧
    (Account.call sha1 fails c (Account.run sha1 before w)).2 = .ok (.token (some token))

/-- The cookie of a request is such a token. -/
def HasToken (sha1 : Str → Str) (history : List (Account.Call × (Nat → Bool))) (w : Account.Manager)
    (request : Request) : Prop :=
  ∃ token, request.cookie loadUserFilter.userSession = some (.text token) ∧ Issued sha1 history w token

/-- Dispatching the request takes an action that lists `loadUser` among these filters. -/
def Guarded (c : Controller ω) (class_name : Str) (page : Page ω) (names : List Str) (page' : Page ω) : Prop :=
  class_name ≠ [] ∧ literal "loadUser" ∈ names ∧
    ∃ action, exec (c.preFilters class_name) page = (.ok (action, names), page')

/-- The guarded action runs for the cookies only that are tokens. -/
def LoginGuard (c : Controller ω) (class_name : Str) (page : Page ω) (hasToken : Request → Prop) : Prop :=
  ∀ names page', Guarded c class_name page names page' →
    .action class_name ∈ (exec (c.dispatch class_name) ⟨page, []⟩).2.events → hasToken page.request

/-- **The guard of the login**: it holds for a request exactly if its cookie is a token, or another filter throws in
front of the action. -/
theorem loginGuard_iff (sha1 : Str → Str) (history : List (Account.Call × (Nat → Bool))) (w : Account.Manager)
    (c : Controller ω) (class_name : Str) (page : Page ω) :
    LoginGuard c class_name page (HasToken sha1 history w) ↔
      ∀ names page', Guarded c class_name page names page' →
        HasToken sha1 history w page.request ∨ c.OtherThrows names page' := by
  refine forall_congr' fun names => forall_congr' fun page' => forall_congr' fun hguarded => ?_
  obtain ⟨hname, -, action, hnames⟩ := hguarded
  rw [c.action_mem_iff hname hnames, ← or_iff_not_imp_left]
  exact or_comm

/-! ## A page without a cookie -/

/-- `indexAction` of the tools, which lists `loadUser`. -/
def indexAction : Action Unit := ⟨pure [literal "loadUser"], pure [], pure none⟩

/-- `indexView` of the tools, whose renderer writes a template. -/
def indexView : Component Unit (Option (Renderer Unit)) := pure (some (pure () : Component Unit Unit))

/-- The controller of the tools, with the files of its first page. -/
def manageTools : Controller Unit where
  get_class := "Controller"
  config := ⟨literal "common", literal "manage_tools", literal "common/lib", literal "manage_tools/lib",
    literal "manage_tools", literal "http://www.leftfelt.net/~leftfelt/manage_tools",
    literal "http://www.leftfelt.net/~leftfelt/common/login.php"⟩
  files :=
    { file_exists := fun file =>
        file = literal "manage_tools/action/indexAction.class.php" ∨
          file = literal "manage_tools/view/indexView.class.php"
      filter := fun _ => throw .fatal
      action := fun file =>
        if file = literal "manage_tools/action/indexAction.class.php" then pure indexAction else throw .fatal
      view := fun file =>
        if file = literal "manage_tools/view/indexView.class.php" then pure indexView else throw .fatal }
  execute := (pure none : Component Unit (Option (Renderer Unit)))

/-- A request without cookies, before any header. -/
def noCookie : Page Unit := ⟨⟨fun _ => none⟩, [], ()⟩

/-- Nobody has a token, the request has no cookie, and the action runs behind the redirection. -/
theorem not_loginGuard_noCookie :
    ¬ LoginGuard manageTools (literal "index") noCookie (HasToken id [] Account.installed) ∧
    (exec (manageTools.dispatch (literal "index")) ⟨noCookie, []⟩).2.state.headers =
      [loadUserFilter.location manageTools.config] := by
  refine ⟨fun hguard => ?_, by decide +kernel⟩
  have hfile : manageTools.getDirectoryClassFileName manageTools.config.common_dir manageTools.config.base_dir
      (literal "action") (literal "index" ++ literal "Action") =
        literal "manage_tools/action/indexAction.class.php" := by
    decide +kernel
  have haction : manageTools.getAction (literal "index") = pure indexAction := by
    unfold Controller.getAction
    rw [hfile]
    simp only [manageTools, if_true]
  have hnames : exec (manageTools.preFilters (literal "index")) noCookie =
      (.ok (indexAction, [literal "loadUser"]), noCookie) := by
    unfold Controller.preFilters
    rw [haction]
    rfl
  have hguarded : Guarded manageTools (literal "index") noCookie [literal "loadUser"] noCookie :=
    ⟨by decide, List.mem_cons_self, indexAction, hnames⟩
  obtain ⟨token, hcookie, -⟩ := hguard _ _ hguarded (by decide +kernel)
  cases hcookie

end LeftFelt.Web
