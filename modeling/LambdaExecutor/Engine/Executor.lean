import LambdaExecutor.Exceptions
import LambdaExecutor.Library.Raii

/-!
# Executing a script

`Executor::Execute` with its six locals and the statements between them, over
the primitives that act on the Lua state, the environment and the context. What
a primitive does to which state is left open: the modules that use `execute`
each follow one concern (the memory, the native objects, the response).
-/

namespace LambdaExecutor.Engine

open Raii Raii.Code

inductive LuaStatus
  | ok
  | errRun
  | errMem
  | errErr
  deriving DecidableEq, Repr

inductive ErrorMessage
  | text (s : String)
  /-- `NULL`, with what the `std::logic_error` says that `std::string` throws for it. -/
  | null (what : String)
  deriving DecidableEq, Repr

inductive ScriptEnd
  | ok
  | errRun (message : ErrorMessage)
  | errMem
  /-- The hook throws. -/
  | timeout
  deriving DecidableEq, Repr

structure Primitives (σ : Type) where
  createMemoryChecker : Code Exception σ Unit
  destroyMemoryChecker : Code Exception σ Unit
  createLuaState : Code Exception σ Unit
  /-- `~LuaState`, that is `lua_close`. -/
  closeLuaState : Code Exception σ Unit
  uploadCode : Code Exception σ Unit
  createLuaEnv : Code Exception σ Unit
  destroyLuaEnv : Code Exception σ Unit
  emplaceModules : Code Exception σ Unit
  createTimeoutChecker : Code Exception σ Unit
  destroyTimeoutChecker : Code Exception σ Unit
  attachTimeoutChecker : Code Exception σ Unit
  removeUnsafeObjects : Code Exception σ Unit
  createContext : Code Exception σ Unit
  destroyContext : Code Exception σ Unit
  pushGlobals : Code Exception σ Unit
  popGlobals : Code Exception σ Unit
  startTimeoutChecker : Code Exception σ Unit
  pcall : Code Exception σ LuaStatus
  errorMessage : Code Exception σ ErrorMessage

variable {σ : Type}

def ScriptEnd.pcall : ScriptEnd → Code Exception σ LuaStatus
  | .ok => pure .ok
  | .errRun _ => pure .errRun
  | .errMem => pure .errMem
  | .timeout => raise (.executionTimeout "Execution timeout is expired")

def ScriptEnd.message : ScriptEnd → ErrorMessage
  | .errRun message => message
  | _ => .text "not enough memory"

def thrown (exception : String → Exception) : ErrorMessage → Exception
  | .text message => exception message
  | .null what => .stdException what

def ScriptEnd.exception : ScriptEnd → Option Exception
  | .ok => none
  | .errRun message => some (thrown .executionError message)
  | .errMem => some (.outOfMemoryLimit "not enough memory")
  | .timeout => some (.executionTimeout "Execution timeout is expired")

theorem ScriptEnd.exists_exception {scriptEnd : ScriptEnd} (hend : scriptEnd ≠ .ok) :
    ∃ e, scriptEnd.exception = some e := by
  cases scriptEnd with
  | ok => exact absurd rfl hend
  | errRun message => exact ⟨_, rfl⟩
  | errMem => exact ⟨_, rfl⟩
  | timeout => exact ⟨_, rfl⟩

/-- The life of an `ExecutionGuard`: its member `context` is constructed first
and destroyed last, also when the body of the constructor throws. -/
def executionGuard (P : Primitives σ) (body : Code Exception σ Unit) : Code Exception σ Unit :=
  scope P.createContext (fun _ => P.destroyContext) fun _ =>
    scope P.pushGlobals (fun uncaught => if uncaught then pure () else P.popGlobals) fun _ => body

def runScript (P : Primitives σ) : Code Exception σ Unit := do
  P.startTimeoutChecker
  let res ← P.pcall
  if res ≠ .ok then
    let errorMessage ← P.errorMessage
    if res = .errMem then
      raise (thrown .outOfMemoryLimit errorMessage)
    raise (thrown .executionError errorMessage)

def execute (P : Primitives σ) : Code Exception σ Unit :=
  scope P.createMemoryChecker (fun _ => P.destroyMemoryChecker) fun _ =>
    scope P.createLuaState (fun _ => P.closeLuaState) fun _ => do
      P.uploadCode
      scope P.createLuaEnv (fun _ => P.destroyLuaEnv) fun _ => do
        P.emplaceModules
        scope P.createTimeoutChecker (fun _ => P.destroyTimeoutChecker) fun _ => do
          P.attachTimeoutChecker
          P.removeUnsafeObjects
          executionGuard P (runScript P)

def LuaStatus.exception (res : LuaStatus) : ErrorMessage → Exception :=
  if res = .errMem then thrown .outOfMemoryLimit else thrown .executionError

theorem wp_runScript (P : Primitives σ) (Q : Unit → σ → Prop) (E : Exception → σ → Prop) :
    wp (runScript P) Q E = wp P.startTimeoutChecker (fun _ => wp P.pcall (fun res =>
      if res = .ok then Q () else wp P.errorMessage (fun message => E (res.exception message)) E) E)
      E := by
  simp only [runScript, wp_bind]
  congr
  funext _
  congr
  funext res
  cases res <;> simp [LuaStatus.exception]

theorem wp_executionGuard (P : Primitives σ) (body : Code Exception σ Unit)
    (Q : Unit → σ → Prop) (E : Exception → σ → Prop) :
    wp (executionGuard P body) Q E = wp P.createContext (fun _ => wp P.pushGlobals (fun _ =>
        wp body (fun _ => wp P.popGlobals (fun _ => wp P.destroyContext (fun _ => Q ())
          fun _ _ => False) fun _ _ => False)
          fun e => wp P.destroyContext (fun _ => E e) fun _ _ => False)
        fun e => wp P.destroyContext (fun _ => E e) fun _ _ => False) E := by
  simp [executionGuard]

end LambdaExecutor.Engine
