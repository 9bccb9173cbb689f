import Hadouken.Library.Patterns
import Hadouken.WebUi

/-!
# Routing of HTTP requests

The server strips the configured root from a requested path and looks for the
first of its patterns, in the order of their texts, that matches what is left.
A dot in a pattern is any character but an end of line.
-/

namespace Hadouken.Routing

open Patterns WebUi

/-- The handlers of requests. -/
inductive Handler where
  | api
  | gui
deriving DecidableEq

/-- The class of a dot. -/
def dot (c : Char) : Bool := c ≠ '\n' ∧ c ≠ '\r'

/-- `^/api[/]?$`. -/
def apiPattern : Pattern Char := literal "/api".toList ++ [⟨(· = '/'), .optional⟩]

/-- `^/gui.*$`. -/
def guiPattern : Pattern Char := literal "/gui".toList ++ [⟨dot, .many⟩]

/-- The map `request_handlers_`, in its order. -/
def requestHandlers : List (Pattern Char × Handler) := [(apiPattern, .api), (guiPattern, .gui)]

/-- `http_server::find_request_handler`. -/
def findRequestHandler (virtualPath : List Char) : Option Handler :=
  (requestHandlers.find? fun pair => isMatch pair.1 virtualPath).map Prod.snd

/-- What becomes of a request. -/
inductive Outcome where
  | movedPermanently (location : List Char)
  | notFound (message : List Char)
  | execute (handler : Handler) (virtualPath : List Char)
deriving DecidableEq

/-- `http_server::process_request`, up to the handler. -/
def processRequest (rootSetting path : List Char) : Outcome :=
  let root := configuredRoot rootSetting
  let missing : Outcome := .notFound ("404 - Could not find '".toList ++ path ++ "'".toList)
  if path = ['/'] then .movedPermanently (root ++ "gui/index.html".toList)
  else
    match virtualPathOf root path with
    | none => missing
    | some virtualPath =>
        match findRequestHandler virtualPath with
        | some handler => .execute handler virtualPath
        | none => missing

/-- The handler that is called, with the virtual path it gets. -/
def Outcome.call : Outcome → Option (Handler × List Char)
  | .execute handler virtualPath => some (handler, virtualPath)
  | _ => none

/-- The root with a slash added at each end where it is missing. -/
def slashed (root : List Char) : List Char :=
  (if root.head? = some '/' then [] else ['/']) ++ root ++
    (if root = [] ∨ root.getLast? = some '/' then [] else ['/'])

/-- The server's root is that. -/
theorem configuredRoot_eq (root : List Char) : configuredRoot root = slashed root := by
  unfold configuredRoot slashed
  cases root with
  | nil => decide
  | cons c rest =>
    by_cases leading : c = '/'
    · subst leading
      by_cases trailing : ('/' :: rest).getLast? = some '/' <;> simp [trailing]
    · have kept : ('/' :: c :: rest).getLast? = (c :: rest).getLast? := List.getLast?_cons_cons
      by_cases trailing : (c :: rest).getLast? = some '/' <;>
        simp [leading, trailing, kept]

/-- The root with its slashes is not empty. -/
theorem slashed_ne_nil (root : List Char) : slashed root ≠ [] := by
  unfold slashed
  cases root with
  | nil => simp
  | cons c rest => simp

/-- What is left of a path below the root, with one slash at its front. -/
theorem virtualPathOf_eq (root path : List Char) :
    (∃ rest, path = root ++ rest ∧
      virtualPathOf root path = some (if rest.head? = some '/' then rest else '/' :: rest)) ∨
    ((¬ ∃ rest, path = root ++ rest) ∧ virtualPathOf root path = none) := by
  unfold virtualPathOf
  by_cases below : root.isPrefixOf path = true
  · obtain ⟨rest, rfl⟩ := List.isPrefixOf_iff_prefix.mp below
    refine .inl ⟨rest, rfl, ?_⟩
    rw [if_pos below, List.drop_left]
  · refine .inr ⟨?_, if_neg below⟩
    rintro ⟨rest, rfl⟩
    exact below (List.isPrefixOf_iff_prefix.mpr (List.prefix_append root rest))

section Handlers

variable (virtualPath : List Char)

/-- The paths of the API. -/
theorem isMatch_api : isMatch apiPattern virtualPath = true ↔
    virtualPath = "/api".toList ∨ virtualPath = "/api/".toList := by
  rw [isMatch_iff, apiPattern, mem_literal_append]
  constructor
  · rintro ⟨rest, rfl, inside⟩
    rcases (mem_optional rest (· = '/')).mp inside with rfl | ⟨c, rfl, slash⟩
    · exact .inl rfl
    · obtain rfl : c = '/' := by simpa using slash
      exact .inr rfl
  · rintro (rfl | rfl)
    · exact ⟨[], rfl, (mem_optional [] _).mpr (.inl rfl)⟩
    · exact ⟨['/'], rfl, (mem_optional ['/'] _).mpr (.inr ⟨'/', rfl, by simp⟩)⟩

/-- The paths of the interface, which have no line end behind `/gui`. -/
theorem isMatch_gui : isMatch guiPattern virtualPath = true ↔
    ∃ suffix, virtualPath = "/gui".toList ++ suffix ∧ ∀ c ∈ suffix, dot c = true := by
  rw [isMatch_iff, guiPattern, mem_literal_append]
  simp only [mem_many]

/-- No path is for both handlers. -/
theorem not_isMatch_both (api : isMatch apiPattern virtualPath = true) :
    ¬ isMatch guiPattern virtualPath = true := by
  intro gui
  obtain ⟨suffix, same, _⟩ := (isMatch_gui virtualPath).mp gui
  rcases (isMatch_api virtualPath).mp api with rfl | rfl
  · simp at same
  · simp at same

/-- A handler is found where its pattern matches. -/
theorem findRequestHandler_eq_some (handler : Handler) :
    findRequestHandler virtualPath = some handler ↔
      isMatch (match handler with | .api => apiPattern | .gui => guiPattern) virtualPath = true := by
  have exclusive := not_isMatch_both virtualPath
  unfold findRequestHandler requestHandlers
  by_cases api : isMatch apiPattern virtualPath = true
  · have gui := exclusive api
    cases handler <;> simp [List.find?, api, gui]
  · by_cases gui : isMatch guiPattern virtualPath = true
    · cases handler <;> simp [List.find?, api, gui]
    · cases handler <;> simp [List.find?, api, gui]

end Handlers

/-- The path below the root, as a handler gets it. -/
def virtualPath (rest : List Char) : List Char :=
  if rest.head? = some '/' then rest else '/' :: rest

section Requests

variable (root path : List Char)

/-- A request for a path below the root that is not redirected. -/
theorem processRequest_below (rest : List Char) (below : path = slashed root ++ rest)
    (inner : path ≠ ['/']) : processRequest root path =
      match findRequestHandler (virtualPath rest) with
      | some handler => .execute handler (virtualPath rest)
      | none => .notFound ("404 - Could not find '".toList ++ path ++ "'".toList) := by
  simp only [processRequest, if_neg inner, configuredRoot_eq]
  rcases virtualPathOf_eq (slashed root) path with ⟨other, same, found⟩ | ⟨outside, _⟩
  · obtain rfl : rest = other := List.append_cancel_left (below.symm.trans same)
    rw [found, virtualPath]
  · exact absurd ⟨rest, below⟩ outside

/-- Other paths are not found. -/
theorem processRequest_outside (outside : ¬ ∃ rest, path = slashed root ++ rest)
    (inner : path ≠ ['/']) : processRequest root path =
      .notFound ("404 - Could not find '".toList ++ path ++ "'".toList) := by
  simp only [processRequest, if_neg inner, configuredRoot_eq]
  rcases virtualPathOf_eq (slashed root) path with ⟨rest, same, _⟩ | ⟨_, missing⟩
  · exact absurd ⟨rest, same⟩ outside
  · rw [missing]

/-- A handler is called exactly for the paths below the root that it matches. -/
theorem execute_iff (handler : Handler) (inner : path ≠ ['/']) :
    (∃ given, processRequest root path = .execute handler given) ↔
      ∃ rest, path = slashed root ++ rest ∧
        findRequestHandler (virtualPath rest) = some handler := by
  constructor
  · rintro ⟨given, called⟩
    by_cases below : ∃ rest, path = slashed root ++ rest
    · obtain ⟨rest, same⟩ := below
      refine ⟨rest, same, ?_⟩
      rw [processRequest_below root path rest same inner] at called
      cases found : findRequestHandler (virtualPath rest) with
      | none => rw [found] at called; cases called
      | some own => rw [found] at called; cases called; rfl
    · rw [processRequest_outside root path below inner] at called
      cases called
  · rintro ⟨rest, below, found⟩
    exact ⟨virtualPath rest, by rw [processRequest_below root path rest below inner, found]⟩

/-- A request that is neither redirected nor handled is answered with 404. -/
theorem notFound_of_call (inner : path ≠ ['/'])
    (unhandled : (processRequest root path).call = none) : processRequest root path =
      .notFound ("404 - Could not find '".toList ++ path ++ "'".toList) := by
  by_cases below : ∃ rest, path = slashed root ++ rest
  · obtain ⟨rest, same⟩ := below
    rw [processRequest_below root path rest same inner] at unhandled ⊢
    cases found : findRequestHandler (virtualPath rest) with
    | none => rfl
    | some handler => rw [found] at unhandled; cases unhandled
  · exact processRequest_outside root path below inner

/-- The texts below the root that are for the API. -/
theorem api_virtualPath (rest : List Char) :
    findRequestHandler (virtualPath rest) = some .api ↔
      rest ∈ ["api".toList, "api/".toList, "/api".toList, "/api/".toList] := by
  rw [findRequestHandler_eq_some]
  show isMatch apiPattern (virtualPath rest) = true ↔ _
  rw [isMatch_api, virtualPath]
  cases rest with
  | nil => decide
  | cons c more =>
    by_cases leading : c = '/'
    · subst leading
      simp
    · simp [leading]

/-- The texts below the root that are for the web interface. -/
theorem gui_virtualPath (rest : List Char) (plain : ∀ c ∈ rest, dot c = true) :
    findRequestHandler (virtualPath rest) = some .gui ↔
      ∃ suffix, rest = "gui".toList ++ suffix ∨ rest = "/gui".toList ++ suffix := by
  rw [findRequestHandler_eq_some]
  show isMatch guiPattern (virtualPath rest) = true ↔ _
  rw [isMatch_gui, virtualPath]
  by_cases leading : rest.head? = some '/'
  · rw [if_pos leading]
    constructor
    · rintro ⟨suffix, same, _⟩
      exact ⟨suffix, .inr same⟩
    · rintro ⟨suffix, rfl | rfl⟩
      · cases leading
      · exact ⟨suffix, rfl, fun c member => plain c (List.mem_append_right _ member)⟩
  · rw [if_neg leading]
    constructor
    · rintro ⟨suffix, same, _⟩
      exact ⟨suffix, .inl (List.cons.inj same).2⟩
    · rintro ⟨suffix, rfl | rfl⟩
      · exact ⟨suffix, rfl, fun c member => plain c (List.mem_append_right _ member)⟩
      · exact absurd rfl leading

end Requests

/-- Adding the slashes first makes no difference. -/
theorem slashed_variants (name : List Char) (nonempty : name ≠ [])
    (noLeading : name.head? ≠ some '/') (noTrailing : name.getLast? ≠ some '/') :
    ∀ other ∈ ['/' :: name, name ++ ['/'], '/' :: name ++ ['/']],
      slashed other = slashed name := by
  obtain ⟨c, rest, rfl⟩ := List.exists_cons_of_ne_nil nonempty
  have plain : slashed (c :: rest) = '/' :: (c :: rest) ++ ['/'] := by
    simp [slashed, noTrailing, show c ≠ '/' by simpa using noLeading]
  have kept : ('/' :: c :: rest).getLast? = (c :: rest).getLast? := List.getLast?_cons_cons
  have ended : (c :: (rest ++ ['/'])).getLast? = some '/' := by
    rw [← List.cons_append, List.getLast?_concat]
  intro other listed
  rw [plain]
  simp only [List.mem_cons, List.not_mem_nil, or_false] at listed
  rcases listed with rfl | rfl | rfl
  · simp [slashed, kept, noTrailing]
  · simp [slashed, show c ≠ '/' by simpa using noLeading, ended]
  · simp [slashed, ended]

/-- Requests are routed in one way under every root. -/
theorem routed_under_root (root path : List Char) (plain : ∀ c ∈ path, dot c = true) :
    (path = ['/'] → processRequest root path =
      .movedPermanently (slashed root ++ "gui/index.html".toList)) ∧
    (path ≠ ['/'] →
      ((∃ given, processRequest root path = .execute .api given) ↔
        ∃ rest ∈ ["api".toList, "api/".toList, "/api".toList, "/api/".toList],
          path = slashed root ++ rest) ∧
      ((∃ given, processRequest root path = .execute .gui given) ↔
        ∃ suffix, path = slashed root ++ "gui".toList ++ suffix ∨
          path = slashed root ++ "/gui".toList ++ suffix) ∧
      ((processRequest root path).call = none → processRequest root path =
        .notFound ("404 - Could not find '".toList ++ path ++ "'".toList))) ∧
    (∀ rest ≠ [], (processRequest root (slashed root ++ rest)).call =
      (processRequest ['/'] ('/' :: rest)).call) ∧
    ∀ name ≠ [], name.head? ≠ some '/' → name.getLast? ≠ some '/' →
      ∀ other ∈ ['/' :: name, name ++ ['/'], '/' :: name ++ ['/']],
        processRequest other = processRequest name := by
  refine ⟨?_, fun inner => ⟨?_, ?_, notFound_of_call root path inner⟩, ?_, ?_⟩
  · rintro rfl
    simp only [processRequest, if_true, configuredRoot_eq]
  · rw [execute_iff root path .api inner]
    constructor
    · rintro ⟨rest, below, found⟩
      exact ⟨rest, (api_virtualPath rest).mp found, below⟩
    · rintro ⟨rest, listed, below⟩
      exact ⟨rest, below, (api_virtualPath rest).mpr listed⟩
  · rw [execute_iff root path .gui inner]
    simp only [List.append_assoc]
    constructor
    · rintro ⟨rest, rfl, found⟩
      obtain ⟨suffix, same⟩ := (gui_virtualPath rest fun c member =>
        plain c (List.mem_append_right _ member)).mp found
      exact ⟨suffix, same.imp (congrArg _) (congrArg _)⟩
    · rintro ⟨suffix, below⟩
      have found := fun rest (same : path = slashed root ++ rest) => gui_virtualPath rest
        fun c member => plain c (by rw [same]; exact List.mem_append_right _ member)
      rcases below with same | same
      · exact ⟨_, same, (found _ same).mpr ⟨suffix, .inl rfl⟩⟩
      · exact ⟨_, same, (found _ same).mpr ⟨suffix, .inr rfl⟩⟩
  · intro rest nonempty
    have top : slashed ['/'] = ['/'] := by decide
    have longer : ∀ base : List Char, base ≠ [] → base ++ rest ≠ ['/'] := by
      intro base start same
      have lengths := congrArg List.length same
      have base_pos := List.length_pos_of_ne_nil start
      have rest_pos := List.length_pos_of_ne_nil nonempty
      simp only [List.length_append, List.length_cons, List.length_nil] at lengths
      omega
    rw [processRequest_below root _ rest rfl (longer _ (slashed_ne_nil root)),
      processRequest_below ['/'] ('/' :: rest) rest (by rw [top]; rfl) (longer ['/'] (by simp))]
    cases findRequestHandler (virtualPath rest) <;> rfl
  · intro name nonempty noLeading noTrailing other listed
    funext requested
    have same := slashed_variants name nonempty noLeading noTrailing other listed
    unfold processRequest
    simp only [configuredRoot_eq, same]

/-- The API of the example in the documentation. -/
theorem api_below_hadouken :
    ∃ given, processRequest "/hadouken".toList "/hadouken/api".toList = .execute .api given := by
  obtain ⟨_, routed, _⟩ := routed_under_root "/hadouken".toList "/hadouken/api".toList
    (by simp [dot])
  exact (routed (by decide)).1.mpr ⟨"api".toList, by decide, by decide⟩

/-- The handlers that are called answer as the web interface's model says. -/
theorem processRequest_webUi {γ : Type} (handler : GuiRequestHandler γ)
    (disk : List Char → Option γ) (root path : List Char) :
    WebUi.processRequest handler disk root path =
      match processRequest root path with
      | .movedPermanently location => .moved location
      | .notFound message => .notFound message
      | .execute .api _ => .api
      | .execute .gui given => handler.execute disk given := by
  have api : ∀ given, matchesApi given = isMatch apiPattern given := by
    intro given
    rw [Bool.eq_iff_iff, isMatch_api]
    simp [matchesApi]
  have gui : ∀ given, matchesGui given = isMatch guiPattern given := by
    intro given
    rw [Bool.eq_iff_iff, isMatch_gui, matchesGui, Bool.and_eq_true, List.isPrefixOf_iff_prefix,
      List.all_eq_true]
    constructor
    · rintro ⟨⟨suffix, rfl⟩, plain⟩
      exact ⟨suffix, rfl, plain⟩
    · rintro ⟨suffix, rfl, plain⟩
      exact ⟨List.prefix_append _ _, plain⟩
  simp only [WebUi.processRequest, processRequest, api, gui]
  by_cases top : path = ['/']
  · simp [top]
  · simp only [if_neg top]
    cases virtualPathOf (configuredRoot root) path with
    | none => rfl
    | some given =>
      have exclusive := not_isMatch_both given
      simp only [findRequestHandler, requestHandlers]
      by_cases first : isMatch apiPattern given = true
      · simp [List.find?, first]
      · by_cases second : isMatch guiPattern given = true
        · simp [List.find?, first, second]
        · simp [List.find?, first, second]

end Hadouken.Routing
