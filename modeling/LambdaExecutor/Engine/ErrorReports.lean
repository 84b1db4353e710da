import LambdaExecutor.Engine.FailedRun
import LambdaExecutor.Engine.Sandbox
import LambdaExecutor.Lua.State

/-!
# How the failures of scripts are reported

`Execute` reads the message of a failure from the first slot of the Lua stack. What
comes before the script leaves nothing there but the chunk, so the error value is in
this slot; a value that is no string and no number has no text, though, and `NULL`
makes another exception.
-/

namespace LambdaExecutor.Engine

open Lua Raii Raii.Code Http

/-- How `lua_pcall` fails. Lua itself makes the values of the last two. -/
inductive LuaError
  | run (value : Value)
  | memory
  | handler

def LuaError.status : LuaError → LuaStatus
  | .run _ => .errRun
  | .memory => .errMem
  | .handler => .errErr

def LuaError.value : LuaError → Value
  | .run value => value
  | .memory => .string "not enough memory"
  | .handler => .string "error in error handling"

/-- What `Execute` calls of Lua and of LuaCpp before the script, and for the message. -/
structure LuaApi where
  openLibs : LuaCode Unit
  version : String
  uploadCode : LuaCode Unit
  pushGlobal : String → LuaObject → LuaCode Unit
  /-- The string of a number, unless there is no memory for it. -/
  numberText : Number → Option String
  /-- What the `std::logic_error` says that `std::string` throws for `NULL`. -/
  nullText : String

variable (A : LuaApi)

def luaSetGlobal (name : String) : LuaCode Unit := modify fun L =>
  { stack := L.stack.tail
    heap := L.heap.rawset globalsRef (.string (cString name)) (L.stack.headD .nil) }

def LuaApi.createLuaState : LuaCode Unit := do
  modify fun _ => { stack := [], heap := [] }
  A.openLibs
  luaPushString A.version
  luaSetGlobal "_luacppversion"

def timeoutCheckerVariableName : String := "miet_execution_timeout_checker"

/-- What is in the registry is left out, so setting a field of it only pops. -/
def attachTimeoutChecker : LuaCode Unit := do
  luaPushString timeoutCheckerVariableName
  luaPush (.userdata "TimeoutCheckerBase*")
  luaPop 2

def LuaApi.pushGlobals : LuaEnvironment → LuaCode Unit
  | [] => pure ()
  | (name, object) :: rest => do
    A.pushGlobal name object
    LuaApi.pushGlobals rest

/-- `lua_pcall` of the chunk on the top, which ends in an error and leaves this heap. -/
def luaPCall (error : LuaError) (heap : Heap) : LuaCode LuaStatus := fun L =>
  .done error.status { stack := error.value :: L.stack.tail, heap := heap }

/-- `lua_tostring`, which gives `NULL` for other values; a number is converted in its slot. -/
def LuaApi.toString (idx : Int) : LuaCode ErrorMessage := fun L =>
  match L.at idx with
  | some (.string s) => .done (.text (cString s)) L
  | some (.number n) =>
    match A.numberText n with
    | some text => .done (.text (cString text)) (L.set idx (.string text))
    | none => .threw (.luaError "not enough memory") L
  | _ => .done (.null A.nullText) L

-- ---------------------------------------------------------------------------
-- A script that fails
-- ---------------------------------------------------------------------------

/-- The Lua state beside what `Session` follows. -/
structure Running where
  lua : LuaState
  session : Session

def Running.setLua (L : LuaState) (r : Running) : Running := { r with lua := L }

def Running.setSession (s : Session) (r : Running) : Running := { r with session := s }

/-- Outside `lua_pcall` an error of Lua aborts the process. -/
def unprotected {α : Type} (c : LuaCode α) : Code Exception LuaState α := fun L =>
  match c L with
  | .done a L => .done a L
  | .threw (.exception e) L => .threw e L
  | .threw (.luaError _) L | .terminated L => .terminated L

def onLua {α : Type} (c : LuaCode α) : Code Exception Running α :=
  zoom Running.lua Running.setLua (unprotected c)

def onSession {α : Type} (c : Code Exception Session α) : Code Exception Running α :=
  zoom Running.session Running.setSession c

structure FailedScript where
  ndebug : Bool
  deps : ModulesDeps
  heap : Heap
  error : LuaError

def LuaError.scriptEnd (message : ErrorMessage) : LuaError → ScriptEnd
  | .memory => .errMem
  | .run _ | .handler => .errRun message

/-- The same execution where the message is given; no global is read after a failure. -/
def FailedScript.invocation (x : FailedScript) (message : ErrorMessage) : Invocation where
  ndebug := x.ndebug
  deps := x.deps
  upload := .ok ()
  scriptEnd := x.error.scriptEnd message
  heap := x.heap
  global _ := .nil

def FailedScript.primitives (T : ThirdParty) (x : FailedScript) : Primitives Running :=
  let P := (x.invocation (.text "")).primitives T
  { createMemoryChecker := pure ()
    destroyMemoryChecker := pure ()
    createLuaState := onLua A.createLuaState
    closeLuaState := pure ()
    uploadCode := onLua A.uploadCode
    createLuaEnv := onSession P.createLuaEnv
    destroyLuaEnv := onSession P.destroyLuaEnv
    emplaceModules := onSession P.emplaceModules
    createTimeoutChecker := pure ()
    destroyTimeoutChecker := pure ()
    attachTimeoutChecker := onLua attachTimeoutChecker
    removeUnsafeObjects := onSession P.removeUnsafeObjects
    createContext := onSession P.createContext
    destroyContext := onSession P.destroyContext
    pushGlobals := do
      onSession P.pushGlobals
      onLua (A.pushGlobals (← read (·.session.env)))
    popGlobals := onSession P.popGlobals
    startTimeoutChecker := pure ()
    pcall := onLua (luaPCall x.error x.heap)
    errorMessage := onLua (A.toString 1) }

-- ---------------------------------------------------------------------------
-- What the stack holds
-- ---------------------------------------------------------------------------

variable {A} {T : ThirdParty} {x : FailedScript} {L L' : LuaState}

def LuaApi.Reads (A : LuaApi) (value : Value) (heap : Heap) (message : ErrorMessage) : Prop :=
  ∃ L, Returns (A.toString 1) { stack := [value], heap := heap } message L

def LuaApi.textOf (A : LuaApi) : Value → Option String
  | .string s => some s
  | .number n => A.numberText n
  | _ => none

variable {limit : Nat}

/-- A script that raises this value, as `assert(false, value)` does. -/
def raises (value : Value) : FailedScript where
  ndebug := true
  deps := { httpClient := true, projectStorage := true }
  heap := openLibs ++ [[(.string "code", .number (.integer 404))]]
  error := .run value

end LambdaExecutor.Engine
