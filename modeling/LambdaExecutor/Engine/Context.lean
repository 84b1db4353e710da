import LambdaExecutor.Engine.Environment
import LambdaExecutor.Engine.Executor
import LambdaExecutor.Lua.StandardLibraries

/-!
# Reading the response back

`~ExecutionGuard` pops every variable of the environment from its global, and
`~Context` then makes the native response from the variable of the outgoing
response. Both are destructors, so an exception which leaves them ends the process.
-/

namespace LambdaExecutor.Engine

open Lua Raii Raii.Code

/-- What the destructors call of LuaCpp and of the HTTP library. -/
structure ThirdParty where
  /-- `PopGlobal` of a variable whose global has this value. -/
  popGlobal : Heap → Value → LuaObject → Except Exception LuaObject
  keyToString : Key → String
  toString : LuaObject → String
  /-- `getValue` of a key that is not there throws, or gives no object at all. -/
  missing : Key → Option Exception
  /-- `HeaderMap::emplace`, which throws when there are too many headers. -/
  emplaceHeader : List (String × String) → String → String →
    Except Exception (List (String × String))
  toHttpStatus : Double → Int32

structure ScriptResult where
  setup : Setup
  scriptEnd : ScriptEnd
  heap : Heap
  global : String → Value
  wellFormed : ∀ table ∈ heap, table.WellFormed

structure Exchange where
  env : LuaEnvironment
  /-- The response that `~Context` has set. -/
  response : Option Http.Response

def Exchange.init : Exchange := { env := [], response := none }

variable (T : ThirdParty)

def popGlobals (heap : Heap) (global : String → Value) :
    LuaEnvironment → Except Exception LuaEnvironment
  | [] => .ok []
  | (name, object) :: rest => do
    let popped ← T.popGlobal heap (global name) object
    return (name, popped) :: (← popGlobals heap global rest)

def LuaObject.asTable : LuaObject → Option Fields
  | .table fields => some fields
  | _ => none

def LuaObject.asNumber : LuaObject → Option Double
  | .number d => some d
  | _ => none

/-- `GetValueStrict` to the class that `cast` casts to. Only a variable has a name. -/
def getValueStrict {α : Type} (cast : LuaObject → Option α) (globalName : String)
    (value : LuaObject) : Except Exception α :=
  match cast value with
  | some result => .ok result
  | none => .error (.stdException
      ("Unexpected lua type of variable (name = '" ++ globalName ++ "')"))

def Fields.find (fields : Fields) (key : String) : Option LuaObject :=
  (List.find? (fun field => field.1 = .string key) fields).map Prod.snd

def getValue (fields : Fields) (key : String) : Code Exception Exchange LuaObject :=
  match fields.find key with
  | some value => pure value
  | none =>
    match T.missing (.string key) with
    | some e => raise e
    | none => terminate

def populateHeaders (luaHeaders : Fields) : Except Exception (List (String × String)) :=
  luaHeaders.foldlM
    (fun headers entry => T.emplaceHeader headers (T.keyToString entry.1) (T.toString entry.2)) []

def populateNativeResponseFrom (luaResponse : Fields) :
    Code Exception Exchange Http.Response := do
  let statusCode ← ofExcept
    (getValueStrict LuaObject.asNumber "" (← getValue T luaResponse "status"))
  let luaHeaders ← ofExcept
    (getValueStrict LuaObject.asTable "" (← getValue T luaResponse "headers"))
  let headers ← ofExcept (populateHeaders T luaHeaders)
  let body ← getValue T luaResponse "body"
  return { status := T.toHttpStatus statusCode, headers := headers, body := T.toString body }

/-- The body of `~Context`. -/
def destroyContext : Code Exception Exchange Unit := do
  match ← read (fun s => s.env.at responseVariableName) with
  | none => raise (.stdException "map::at")
  | some object =>
    let luaResponse ← ofExcept (getValueStrict LuaObject.asTable responseVariableName object)
    let response ← populateNativeResponseFrom T luaResponse
    modify fun s => { s with response := some response }

def ScriptResult.primitives (x : ScriptResult) : Primitives Exchange where
  createMemoryChecker := pure ()
  destroyMemoryChecker := pure ()
  createLuaState := pure ()
  closeLuaState := pure ()
  uploadCode := pure ()
  createLuaEnv := pure ()
  destroyLuaEnv := modify fun s => { s with env := [] }
  emplaceModules := modify fun s => { s with env := emplaceModules x.setup.deps s.env }
  createTimeoutChecker := pure ()
  destroyTimeoutChecker := pure ()
  attachTimeoutChecker := pure ()
  removeUnsafeObjects := modify fun s => { s with env := removeUnsafeObjects x.setup.ndebug s.env }
  createContext := modify fun s =>
    { s with env := populateContext x.setup.request x.setup.response s.env }
  destroyContext := destroyContext T
  pushGlobals := pure ()
  popGlobals := do
    let env ← ofExcept (popGlobals T x.heap x.global (← read (·.env)))
    modify fun s => { s with env := env }
  startTimeoutChecker := pure ()
  pcall := x.scriptEnd.pcall
  errorMessage := pure x.scriptEnd.message

/-- `Execute` returns with the response set, or throws an exception to its caller. -/
def ScriptResult.EndsCatchably (x : ScriptResult) : Prop :=
  wp (execute (x.primitives T)) (fun _ s => s.response.isSome) (fun _ _ => True) Exchange.init

end LambdaExecutor.Engine
