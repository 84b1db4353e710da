import LambdaExecutor.Engine.ReadBack

/-!
# The execution context

`Execute` moves strings of the native request and response into the environment,
and `~Context` assigns the response that it makes from the environment. What is
moved and what is copied differs from field to field: the values of headers and
query parameters are moved, names, methods, urls and bodies are copied.
-/

namespace LambdaExecutor.Http

def movedFrom (entries : List (String × String)) : List (String × String) :=
  entries.map fun entry => (entry.1, "")

def Request.consumed (request : Request) : Request :=
  { request with headers := movedFrom request.headers, query := movedFrom request.query }

def Response.consumed (response : Response) : Response :=
  { response with headers := movedFrom response.headers }

end LambdaExecutor.Http

namespace LambdaExecutor.Engine

open Lua Raii Raii.Code

structure ExecutionContext where
  request : Http.Request
  response : Http.Response

/-- One execution, as far as the context depends on it. -/
structure Invocation where
  ndebug : Bool
  deps : ModulesDeps
  /-- `UploadCode`, which throws for code that Lua does not load. -/
  upload : Except Exception Unit
  scriptEnd : ScriptEnd
  heap : Heap
  global : String → Value

/-- `shown` are the request tables that scripts were given, the latest one last. -/
structure Session where
  env : LuaEnvironment
  context : ExecutionContext
  shown : List LuaObject

def Session.start (context : ExecutionContext) : Session := { env := [], context, shown := [] }

def Session.createContext (s : Session) : Session :=
  { s with
    env := populateContext s.context.request s.context.response s.env
    context := { request := s.context.request.consumed, response := s.context.response.consumed } }

def Session.pushGlobals (s : Session) : Session :=
  { s with shown := s.shown ++ (s.env.at requestVariableName).toList }

def Session.exchange (s : Session) : Exchange := { env := s.env, response := none }

def Session.assign (e : Exchange) (s : Session) : Session :=
  { s with
    env := e.env
    context := { s.context with response := e.response.getD s.context.response } }

def Session.setEnv (env : LuaEnvironment) (s : Session) : Session := { s with env }

variable (T : ThirdParty)

def Invocation.primitives (x : Invocation) : Primitives Session where
  createMemoryChecker := pure ()
  destroyMemoryChecker := pure ()
  createLuaState := pure ()
  closeLuaState := pure ()
  uploadCode := ofExcept x.upload
  createLuaEnv := modify (Session.setEnv [])
  destroyLuaEnv := modify (Session.setEnv [])
  emplaceModules := modify fun s => s.setEnv (emplaceModules x.deps s.env)
  createTimeoutChecker := pure ()
  destroyTimeoutChecker := pure ()
  attachTimeoutChecker := pure ()
  removeUnsafeObjects := modify fun s => s.setEnv (removeUnsafeObjects x.ndebug s.env)
  createContext := modify Session.createContext
  destroyContext := zoom Session.exchange Session.assign (destroyContext T)
  pushGlobals := modify Session.pushGlobals
  popGlobals := do
    let env ← ofExcept (popGlobals T x.heap x.global (← read (·.env)))
    modify (Session.setEnv env)
  startTimeoutChecker := pure ()
  pcall := x.scriptEnd.pcall
  errorMessage := pure x.scriptEnd.message

/-- Executions of scripts one after another with one context, until the process is terminated. -/
def executeAll : List Invocation → Session → Session
  | [], s => s
  | x :: xs, s =>
    match execute (x.primitives T) s with
    | .terminated s => s
    | r => executeAll xs r.state

def Invocation.setup (x : Invocation) (context : ExecutionContext) : Setup where
  ndebug := x.ndebug
  deps := x.deps
  request := context.request
  response := context.response

def Invocation.entered (x : Invocation) (s : Session) : Session where
  env := (x.setup s.context).environment
  context := { request := s.context.request.consumed, response := s.context.response.consumed }
  shown := s.shown ++ [populateLuaRequestFrom s.context.request]

theorem environment_at_request (x : Setup) :
    x.environment.at requestVariableName = some (populateLuaRequestFrom x.request) := by
  have hnone : x.withoutContext.find? (·.1 = requestVariableName) = none := by
    apply List.find?_eq_none.mpr
    intro entry hmem he
    exact (context_names_new x).1 (List.mem_map.mpr ⟨entry, hmem, of_decide_eq_true he⟩)
  rw [environment_eq, LuaEnvironment.at, List.find?_append, hnone]
  rfl

theorem entered_eq (x : Invocation) (s : Session) :
    ((s.setEnv (removeUnsafeObjects x.ndebug
      (emplaceModules x.deps []))).createContext).pushGlobals = x.entered s := by
  have h := environment_at_request (x.setup s.context)
  simp only [Setup.environment, Invocation.setup] at h
  simp [Session.createContext, Session.pushGlobals, Session.setEnv, Invocation.entered, h,
    Setup.environment, Invocation.setup]

-- ---------------------------------------------------------------------------
-- The whole execution
-- ---------------------------------------------------------------------------

variable {T} {x : Invocation} {s : Session} {Q E : Session → Prop}

theorem wp_execute_failed {e : Exception} {E : Exception → Session → Prop}
    (hupload : x.upload = .ok ()) (hend : x.scriptEnd.exception = some e) :
    wp (execute (x.primitives T)) (fun _ => Q) E s ↔
      wp (destroyContext T) (fun _ r => E e ((Session.assign r (x.entered s)).setEnv []))
        (fun _ _ => False) (x.entered s).exchange := by
  obtain ⟨ndebug, deps, upload, scriptEnd, heap, global⟩ := x
  rw [← entered_eq]
  obtain rfl : upload = .ok () := hupload
  simp only [execute, Invocation.primitives, wp_scope, wp_bind, wp_pure, wp_modify, wp_ofExcept_ok,
    wp_executionGuard, wp_runScript, wp_zoom]
  cases scriptEnd with
  | ok => cases hend
  | errRun message =>
    obtain rfl : _ = e := Option.some.inj hend
    rfl
  | errMem =>
    obtain rfl : _ = e := Option.some.inj hend
    rfl
  | timeout =>
    obtain rfl : _ = e := Option.some.inj hend
    rfl

theorem wp_execute_ok (hupload : x.upload = .ok ()) (hend : x.scriptEnd = .ok) :
    wp (execute (x.primitives T)) (fun _ => Q) (fun _ => E) s ↔
      ∃ env, popGlobals T x.heap x.global (x.entered s).env = .ok env ∧
        wp (destroyContext T)
          (fun _ e => Q ((Session.assign e ((x.entered s).setEnv env)).setEnv []))
          (fun _ _ => False) { env := env, response := none } := by
  obtain ⟨ndebug, deps, upload, scriptEnd, heap, global⟩ := x
  rw [← entered_eq]
  obtain rfl : upload = .ok () := hupload
  obtain rfl : scriptEnd = .ok := hend
  simp only [execute, Invocation.primitives, wp_scope, wp_bind, wp_pure, wp_modify, wp_ofExcept_ok,
    wp_executionGuard, wp_runScript, wp_zoom, ScriptEnd.pcall, if_true, wp_read, wp_ofExcept]
  rfl

theorem wp_execute_not_uploaded {e : Exception} (hupload : x.upload = .error e) :
    wp (execute (x.primitives T)) (fun _ => Q) (fun _ => E) s ↔ E s := by
  obtain ⟨ndebug, deps, upload, scriptEnd, heap, global⟩ := x
  obtain rfl : upload = .error e := hupload
  simp only [execute, Invocation.primitives, wp_scope, wp_bind, wp_pure, wp_ofExcept_error]

end LambdaExecutor.Engine
