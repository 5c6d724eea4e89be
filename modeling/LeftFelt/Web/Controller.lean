import LeftFelt.Base.Str
import LeftFelt.Lib.Traced

/-!
# Dispatching a request

`Controller::dispatch` with the filters around an action, and the one filter that there is, `loadUser`. The files of a
service are a parameter: its filters, actions and views are arbitrary computations on the page, which see and change
everything but the trace of what the controller has run.
-/

namespace LeftFelt.Web

open Str Lib Traced

/-! ## The page -/

/-- The value of a cookie, which can be an array too. -/
inductive Value where
  | text (value : Str)
  | array (values : List Str)
  deriving DecidableEq

/-- `Request`, as far as the controller and its filter read it. -/
structure Request where
  cookie : Str → Option Value

/-- `getCookie($name, $default)`. -/
def Request.getCookie (request : Request) (name : Str) (default : Value) : Value :=
  (request.cookie name).getD default

/-- What a request is answered with: the headers so far, and everything else that the classes of a service work on. -/
structure Page (ω : Type) where
  request : Request
  headers : List Str
  world : ω

/-- An exception, or an error that ends the script. -/
inductive Stop where
  | exception (message : String)
  | fatal
  deriving DecidableEq

variable {ω : Type}

/-- A method of a class of a service. -/
abbrev Component (ω α : Type) := ExceptT Stop (StateM (Page ω)) α

/-- `header($line)`. -/
def header (line : Str) : Component ω Unit := modify fun page => { page with headers := page.headers ++ [line] }

/-- The upper-case hexadecimal digit. -/
def hexDigit (n : Nat) : UInt8 := if n < 10 then 0x30 + n.toUInt8 else 0x41 + (n - 10).toUInt8

/-- Letters, digits, `-`, `_` and `.`. -/
def isUnreserved (c : UInt8) : Bool :=
  (0x30 ≤ c && c ≤ 0x39) || (0x41 ≤ c && c ≤ 0x5A) || (0x61 ≤ c && c ≤ 0x7A) || c ∈ [0x2D, 0x5F, 0x2E]

/-- `urlencode($s)`. -/
def urlencode (s : Str) : Str :=
  s.flatMap fun c =>
    if isUnreserved c then [c]
    else if c = space then [0x2B]
    else [0x25, hexDigit (c.toNat / 16), hexDigit (c.toNat % 16)]

/-! ## The classes -/

/-- The configuration of a service, as far as the controller and its filter read it. -/
structure Config where
  common_dir : Str
  base_dir : Str
  common_library_dir : Str
  library_dir : Str
  service_name : Str
  service_url : Str
  login_url : Str

/-- `Filter`: its `execute()`. -/
abbrev Filter (ω : Type) := Component ω Unit

/-- `Action`. -/
structure Action (ω : Type) where
  getPreFilter : Component ω (List Str)
  getPostFilter : Component ω (List Str)
  execute : Component ω (Option Str)

/-- `Renderer`: its `execute()`. -/
abbrev Renderer (ω : Type) := Component ω Unit

/-- `View`: its `execute()`, which returns a renderer, or something else. -/
abbrev View (ω : Type) := Component ω (Option (Renderer ω))

/-- The files of the classes: a file is loaded, and its class is built and initialised. -/
structure Files (ω : Type) where
  file_exists : Str → Bool
  filter : Str → Component ω (Filter ω)
  action : Str → Component ω (Action ω)
  view : Str → Component ω (View ω)

/-- `Controller`: `execute` is the method of a class that extends it. -/
structure Controller (ω : Type) where
  get_class : String
  config : Config
  files : Files ω
  execute : View ω

namespace loadUserFilter

/-- `'user_session'`. -/
def userSession : Str := literal "user_session"

/-- The line that leads to the page for a login. -/
def location (config : Config) : Str :=
  literal "Location: " ++ config.login_url ++ literal "?service_id=" ++ config.service_name ++ literal "&next_url=" ++
    urlencode config.service_url

/-- `execute()`. -/
def execute (config : Config) : Component ω Unit := do
  let user_session := (← get).request.getCookie userSession (.text [])
  if user_session ≠ .text [] then pure ()
  else header (location config)

end loadUserFilter

namespace Controller

/-- The file of a class in a directory. -/
def classFile (dir dir_name class_name : Str) : Str :=
  dir ++ slash :: dir_name ++ slash :: class_name ++ literal ".class.php"

/-- `getDirectoryClassFileName($default_dir, $base_dir, $dir_name, $class_name)`. -/
def getDirectoryClassFileName (c : Controller ω) (default_dir base_dir dir_name class_name : Str) : Str :=
  let default_class_file := classFile default_dir dir_name class_name
  let class_file := classFile base_dir dir_name class_name
  if c.files.file_exists class_file then class_file else default_class_file

/-- The file of a filter. -/
def filterFile (c : Controller ω) (class_name : Str) : Str :=
  c.getDirectoryClassFileName c.config.common_library_dir c.config.library_dir (literal "filter")
    (class_name ++ literal "Filter")

/-- The file of `loadUserFilter`. -/
def loadUserFile (c : Controller ω) : Str :=
  classFile c.config.common_library_dir (literal "filter") (literal "loadUserFilter")

/-- `getFilter($class_name)`. -/
def getFilter (c : Controller ω) (class_name : Str) : Component ω (Filter ω) :=
  if c.filterFile class_name = c.loadUserFile then pure (loadUserFilter.execute c.config)
  else c.files.filter (c.filterFile class_name)

/-- `getAction($class_name)`. -/
def getAction (c : Controller ω) (class_name : Str) : Component ω (Action ω) :=
  c.files.action (c.getDirectoryClassFileName c.config.common_dir c.config.base_dir (literal "action")
    (class_name ++ literal "Action"))

/-- `getView($class_name)`. -/
def getView (c : Controller ω) (class_name : Str) : Component ω (View ω) :=
  c.files.view (c.getDirectoryClassFileName c.config.common_dir c.config.base_dir (literal "view")
    (class_name ++ literal "View"))

/-! ## The controller -/

/-- What the controller runs. -/
inductive Event where
  | filter (class_name : Str)
  | action (class_name : Str)
  | view (class_name : Str)
  | controller
  | renderer
  deriving DecidableEq

/-- A filter: it is built and executed. -/
def runFilter (c : Controller ω) (class_name : Str) : Component ω Unit := do
  let filter ← c.getFilter class_name
  filter

/-- `executeFilters($filter_name_list)`. -/
def executeFilters (c : Controller ω) (filter_name_list : List Str) : Run Stop Event (Page ω) Unit :=
  filter_name_list.forM fun filter_name => do
    note (.filter filter_name)
    part (c.runFilter filter_name)

/-- The name of the view: what the action returns, or the name of the action for `null`, `""` and `"0"`. -/
def viewName (class_name : Str) : Option Str → Str
  | none => class_name
  | some view_name => if view_name = [] ∨ view_name = literal "0" then class_name else view_name

/-- The main part of `dispatch`: the action, the filters behind it, and its view. -/
def mainProcess (c : Controller ω) (class_name : Str) (action : Action ω) :
    Run Stop Event (Page ω) (Option (Renderer ω)) := do
  note (.action class_name)
  let view_name ← part action.execute
  let post_filter ← part action.getPostFilter
  c.executeFilters post_filter
  let view_name := viewName class_name view_name
  let view ← part (c.getView view_name)
  note (.view view_name)
  part view

/-- The end of `dispatch`: the renderer, which has to be there. -/
def render (c : Controller ω) : Option (Renderer ω) → Run Stop Event (Page ω) Unit
  | some renderer => do
    note .renderer
    part renderer
  | none => throw (.exception ("[core] [" ++ c.get_class ++ "]でRendererが指定されませんでした。"))

/-- The filters that `dispatch` takes before the action. -/
def preFilters (c : Controller ω) (class_name : Str) : Component ω (Action ω × List Str) := do
  let action ← c.getAction class_name
  let pre_filter ← action.getPreFilter
  pure (action, pre_filter)

/-- `dispatch($class_name)`. -/
def dispatch (c : Controller ω) (class_name : Str) : Run Stop Event (Page ω) Unit := do
  let renderer ←
    if class_name ≠ [] then do
      let action ← part (c.preFilters class_name)
      c.executeFilters action.2
      c.mainProcess class_name action.1
    else do
      note .controller
      part c.execute
  c.render renderer

end Controller

end LeftFelt.Web
