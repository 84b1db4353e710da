import LambdaExecutor.Engine.Transfer
import LambdaExecutor.Http.Json

/-!
# The handler of executions

`HandleRequestThrow` finds the script, makes the context of the request, executes
the script and answers with the response of the context as JSON. Every exception
on the way becomes an error of the HTTP server.
-/

namespace LambdaExecutor.Handlers

open Engine Formats Http Raii Raii.Code

/-- The exceptions that the server answers for. -/
inductive HandlerError
  | clientError (externalBody : String)
  | resourceNotFound (externalBody : Option String)
  | internalServerError
  | exception (e : Exception)
  deriving DecidableEq

structure ExecuteLambda where
  T : ThirdParty
  H : HttpLibrary
  J : JsonLibrary
  /-- `boost::lexical_cast` to an identifier. -/
  lexicalCast : String → Option UInt64
  /-- `Get` of the storage of scripts, with what will become of the script. -/
  get : UInt64 → Except Exception Invocation

namespace ExecuteLambda

variable (handler : ExecuteLambda)

def rethrowWithExternalMessage (error : String → HandlerError) (message : String) : HandlerError :=
  match handler.J.emplaceNocheck .null "message" (.string message) with
  | .ok json => error (handler.J.toString json)
  | .error e => .exception e

def getScriptById (id : String) : Except HandlerError Invocation :=
  match handler.lexicalCast id with
  | none => .error (handler.rethrowWithExternalMessage .clientError "Incorrect script ID")
  | some scriptId =>
    match handler.get scriptId with
    | .ok script => .ok script
    | .error (.notFoundScriptError what) =>
      .error (handler.rethrowWithExternalMessage (fun body => .resourceNotFound (some body)) what)
    | .error _ => .error .internalServerError

def buildExecutionContext (requestBody : String) : Except HandlerError ExecutionContext :=
  match handler.J.fromString requestBody >>= Request.fromJson handler.H with
  | .ok request => .ok { request, response := .default }
  | .error e => .error (handler.rethrowWithExternalMessage .clientError e.what)

/-- What `ExecuteScript` throws for an exception of the executor. -/
def executionFailure : Exception → HandlerError
  | .executionTimeout _ => .internalServerError
  | .outOfMemoryLimit _ => .internalServerError
  | .notFoundScriptError _ => .resourceNotFound none
  | _ => .internalServerError

def executeScript (script : Invocation) : Code HandlerError Session Unit :=
  mapError executionFailure (execute (script.primitives handler.T))

/-- The JSON that `HandleRequestThrow` prints. -/
def answer (script : Invocation) : Code HandlerError Session Json := do
  handler.executeScript script
  match (← read (·.context.response)).toJson handler.J with
  | .ok json => return json
  | .error _ => terminate -- `ToJson` is `noexcept`.

def handleRequestThrow (id requestBody : String) : Code HandlerError Session String := do
  let script ← ofExcept (handler.getScriptById id)
  let context ← ofExcept (handler.buildExecutionContext requestBody)
  modify fun _ => .start context
  return handler.J.toString (← handler.answer script)

end ExecuteLambda

end LambdaExecutor.Handlers
