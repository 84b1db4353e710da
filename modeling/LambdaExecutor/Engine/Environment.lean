import LambdaExecutor.Lua.Value

/-!
# The environment of a script

The variables which `Executor::Execute` gives a script: the modules, a nil for
every unsafe object, and the incoming request and outgoing response. LuaCpp keeps
each as an object of its own; `PushGlobal` makes it the value of a global.
-/

namespace LambdaExecutor.Http

structure Message where
  headers : List (String × String)
  body : String
  deriving DecidableEq, Repr

structure Request extends Message where
  /-- The text which `ToString` gives for the method. -/
  method : String
  url : String
  query : List (String × String)
  deriving DecidableEq, Repr

structure Response extends Message where
  status : Int32
  deriving DecidableEq

def Message.default : Message := { headers := [], body := "" }

def Response.default : Response := { Message.default with status := 200 }

def Request.default : Request := { Message.default with method := "GET", url := "", query := [] }

end LambdaExecutor.Http

namespace LambdaExecutor.Engine

open Lua

inductive Key
  | string (s : String)
  | number (n : Number)
  deriving DecidableEq

def Key.toValue : Key → Value
  | .string s => .string s
  | .number n => .number n

/-- The classes under `LuaCpp::Engine::LuaType`. -/
inductive LuaObject
  | nil
  | boolean (b : Bool)
  | number (d : Double)
  | string (s : String)
  | table (fields : List (Key × LuaObject))
  | function (library name : String)
  | userdata (name : String)
  | thread (t : Nat)

abbrev Fields := List (Key × LuaObject)

def LuaObject.type : LuaObject → LuaType
  | .nil => .nil
  | .boolean _ => .boolean
  | .number _ => .number
  | .string _ => .string
  | .table _ => .table
  | .function .. => .function
  | .userdata _ => .userdata
  | .thread _ => .thread

def LuaObject.ofBytes (s : String) : LuaObject := .string (cString s)

abbrev LuaEnvironment := List (String × LuaObject)

/-- A variable which is there already is kept. -/
def LuaEnvironment.emplace (env : LuaEnvironment) (name : String) (object : LuaObject) :
    LuaEnvironment :=
  if env.any (·.1 = name) then env else env ++ [(name, object)]

/-- `at`, which throws for a name that is not there. -/
def LuaEnvironment.at (env : LuaEnvironment) (name : String) : Option LuaObject :=
  (env.find? (·.1 = name)).map Prod.snd

-- ---------------------------------------------------------------------------
-- The variables
-- ---------------------------------------------------------------------------

def httpClientVariableName : String := "miet_http_client"

def storageVariableName : String := "miet_kv_storage"

def requestVariableName : String := "miet_http_context_incoming_request"

def responseVariableName : String := "miet_http_context_outgoing_response"

structure ModulesDeps where
  httpClient : Bool
  projectStorage : Bool
  deriving DecidableEq, Repr

def emplaceModules (deps : ModulesDeps) (env : LuaEnvironment) : LuaEnvironment :=
  let env := if deps.httpClient
    then env.emplace httpClientVariableName (.userdata httpClientVariableName) else env
  if deps.projectStorage
    then env.emplace storageVariableName (.userdata storageVariableName) else env

def unsafeObjects (ndebug : Bool) : List String :=
  ["os", "io", "package", "load", "loadfile", "loadstring", "dofile", "getfenv", "setfenv"] ++
    if ndebug then ["print", "error", "debug"] else []

def removeUnsafeObjects (ndebug : Bool) (env : LuaEnvironment) : LuaEnvironment :=
  (unsafeObjects ndebug).foldl (fun env objectName => env.emplace objectName .nil) env

def stringTable (entries : List (String × String)) : LuaObject :=
  .table (entries.map fun entry => (.string entry.1, .string entry.2))

/-- The body is passed as a pointer to its characters. -/
def populateLuaMessageFrom (message : Http.Message) : Fields :=
  [(.string "headers", stringTable message.headers), (.string "body", .ofBytes message.body)]

def populateLuaRequestFrom (request : Http.Request) : LuaObject :=
  .table (populateLuaMessageFrom request.toMessage ++
    [(.string "method", .string request.method), (.string "url", .string request.url),
      (.string "query", stringTable request.query)])

theorem natAbs_int32_lt (i : Int32) : i.toInt.natAbs < 2 ^ 64 := by
  have hlow := i.le_toInt
  have hhigh := i.toInt_lt
  omega

def populateLuaResponseFrom (response : Http.Response) : LuaObject :=
  .table (populateLuaMessageFrom response.toMessage ++
    [(.string "status", .number (.finite (Binary64.roundInt response.status.toInt)
      (Binary64.isBinary64_roundInt (natAbs_int32_lt response.status))))])

def populateContext (request : Http.Request) (response : Http.Response) (env : LuaEnvironment) :
    LuaEnvironment :=
  (env.emplace requestVariableName (populateLuaRequestFrom request)).emplace responseVariableName
    (populateLuaResponseFrom response)

structure Setup where
  ndebug : Bool
  deps : ModulesDeps
  request : Http.Request
  response : Http.Response

def Setup.environment (x : Setup) : LuaEnvironment :=
  populateContext x.request x.response (removeUnsafeObjects x.ndebug (emplaceModules x.deps []))

def Setup.release : Setup where
  ndebug := true
  deps := { httpClient := true, projectStorage := true }
  request := .default
  response := .default

-- ---------------------------------------------------------------------------
-- The environment, written out
-- ---------------------------------------------------------------------------

def LuaEnvironment.names (env : LuaEnvironment) : List String := env.map Prod.fst

theorem names_cons (entry : String × LuaObject) (env : LuaEnvironment) :
    LuaEnvironment.names (entry :: env) = entry.1 :: env.names := rfl

theorem emplace_new {env : LuaEnvironment} {name : String} (object : LuaObject)
    (h : name ∉ env.names) : env.emplace name object = env ++ [(name, object)] := by
  refine if_neg fun hany => h ?_
  obtain ⟨entry, hmem, hname⟩ := List.any_eq_true.mp hany
  exact List.mem_map.mpr ⟨entry, hmem, of_decide_eq_true hname⟩

theorem emplace_nils (names : List String) (env : LuaEnvironment)
    (h : (env.names ++ names).Nodup) :
    names.foldl (fun env objectName => env.emplace objectName .nil) env =
      env ++ names.map fun name => (name, .nil) := by
  induction names generalizing env with
  | nil => simp
  | cons name names ih =>
    have hname : name ∉ env.names := fun hmem =>
      (List.nodup_append.mp h).2.2 _ hmem _ List.mem_cons_self rfl
    have hrest : (LuaEnvironment.names (env ++ [(name, .nil)]) ++ names).Nodup := by
      simpa [LuaEnvironment.names] using h
    rw [List.foldl_cons, emplace_new _ hname, ih _ hrest]
    simp

def Setup.modules (x : Setup) : LuaEnvironment :=
  (if x.deps.httpClient then [(httpClientVariableName, .userdata httpClientVariableName)]
    else []) ++
  if x.deps.projectStorage then [(storageVariableName, .userdata storageVariableName)] else []

def moduleNames (deps : ModulesDeps) : List String :=
  (if deps.httpClient then [httpClientVariableName] else []) ++
    if deps.projectStorage then [storageVariableName] else []

theorem names_modules (x : Setup) : x.modules.names = moduleNames x.deps := by
  simp only [Setup.modules, LuaEnvironment.names, moduleNames, List.map_append]
  congr 1 <;> split <;> rfl

theorem names_nodup (ndebug : Bool) (deps : ModulesDeps) :
    (moduleNames deps ++ unsafeObjects ndebug ++
      [requestVariableName, responseVariableName]).Nodup := by
  obtain ⟨httpClient, projectStorage⟩ := deps
  cases ndebug <;> cases httpClient <;> cases projectStorage <;> decide

def Setup.withoutContext (x : Setup) : LuaEnvironment :=
  x.modules ++ (unsafeObjects x.ndebug).map fun name => (name, .nil)

theorem names_withoutContext (x : Setup) :
    x.withoutContext.names = moduleNames x.deps ++ unsafeObjects x.ndebug := by
  rw [Setup.withoutContext, LuaEnvironment.names, List.map_append, ← LuaEnvironment.names,
    names_modules, List.map_map]
  exact congrArg _ (List.map_id _)

theorem context_names_new (x : Setup) :
    requestVariableName ∉ x.withoutContext.names ∧
      responseVariableName ∉ x.withoutContext.names := by
  rw [names_withoutContext]
  have hdisjoint := (List.nodup_append.mp (names_nodup x.ndebug x.deps)).2.2
  exact ⟨fun h => hdisjoint _ h _ (by decide) rfl, fun h => hdisjoint _ h _ (by decide) rfl⟩

theorem environment_eq (x : Setup) : x.environment =
    x.withoutContext ++ [(requestVariableName, populateLuaRequestFrom x.request),
      (responseVariableName, populateLuaResponseFrom x.response)] := by
  have hmodules : emplaceModules x.deps [] = x.modules := by
    unfold emplaceModules Setup.modules
    split <;> split <;> rfl
  have hunsafe : removeUnsafeObjects x.ndebug x.modules = x.withoutContext := by
    refine emplace_nils _ _ ?_
    rw [names_modules]
    exact (names_nodup x.ndebug x.deps).sublist (List.sublist_append_left _ _)
  obtain ⟨hrequest, hresponse⟩ := context_names_new x
  have hresponse' : responseVariableName ∉ LuaEnvironment.names
      (x.withoutContext ++ [(requestVariableName, populateLuaRequestFrom x.request)]) := by
    rw [LuaEnvironment.names, List.map_append]
    have hne : responseVariableName ∉ [requestVariableName] := by decide
    exact List.not_mem_append hresponse hne
  rw [Setup.environment, hmodules, hunsafe, populateContext, emplace_new _ hrequest,
    emplace_new _ hresponse', List.append_assoc]
  rfl

theorem environment_at_response (x : Setup) :
    x.environment.at responseVariableName = some (populateLuaResponseFrom x.response) := by
  have hnone : x.withoutContext.find? (·.1 = responseVariableName) = none := by
    refine List.find?_eq_none.mpr fun entry hmem he => (context_names_new x).2 ?_
    exact List.mem_map.mpr ⟨entry, hmem, of_decide_eq_true he⟩
  rw [environment_eq, LuaEnvironment.at, List.find?_append, hnone]
  rfl

end LambdaExecutor.Engine
