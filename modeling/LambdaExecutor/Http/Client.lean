import LambdaExecutor.Http.Json
import LambdaExecutor.Library.Noninterference
import LambdaExecutor.Lua.Serializer

/-!
# The HTTP client of a script

`client:send` makes a request of its arguments, hands it to the HTTP client and
makes a table of the answer; `Client::Send` makes the native request. A string
that is passed on by a pointer to its characters ends at its first `NUL`.
-/

namespace LambdaExecutor.Http

open Lua Formats Raii Raii.Code

-- ---------------------------------------------------------------------------
-- Client::Send
-- ---------------------------------------------------------------------------

structure NativeRequest where
  data : String
  method : String
  url : String
  headers : List (String × String)
  deriving DecidableEq, Repr

/-- Only the first parameter is preceded by `&`. -/
def buildUrlWithQueryParams (request : Request) : String :=
  match request.query with
  | [] => request.url
  | (key, value) :: rest =>
    rest.foldl (fun url param => url ++ param.1 ++ "=" ++ param.2)
      (request.url ++ "?" ++ "&" ++ key ++ "=" ++ value)

def Client.nativeRequest (request : Request) : NativeRequest where
  data := cString request.body
  method := request.method
  url := buildUrlWithQueryParams request
  headers := request.headers

/-- `Client::Send`; the response of the native client has the fields of a `Response`. -/
def Client.send (perform : NativeRequest → Except Exception Response) (request : Request) :
    Except Exception Response := perform (Client.nativeRequest request)

-- ---------------------------------------------------------------------------
-- ClientMethod
-- ---------------------------------------------------------------------------

namespace ClientMethod

/-- What the client answers; a response may have no header map at all. -/
structure Reply where
  response : Response
  hasHeaders : Bool

section
variable (H : HttpLibrary) (J : JsonLibrary) (fuel : Nat) (numberText : Number → String)

/-- The loops of `PopulateQueryParams` and `PopulateHeaders`, over the table at index 6. -/
def populateEntries (error : String)
    (emplace : List (String × String) → String → String →
      Except Exception (List (String × String))) :
    Nat → List (String × String) → LuaCode (List (String × String))
  | 0, _ => terminate
  | fuel + 1, entries => do
    if ← luaNext 6 then
      let keyIsString ← luaIsString (-2)
      let valueIsString ← luaIsString (-1)
      if ¬ (keyIsString ∧ valueIsString) then luaLError error
      else
        let key ← luaConvertToString numberText (-2)
        let value ← luaConvertToString numberText (-1)
        let entries ← ofLibrary (emplace entries key value)
        luaPop 1
        populateEntries error emplace fuel entries
    else return entries

def populateQueryParams (luaType : LuaType) : LuaCode (List (String × String)) := do
  if luaType ≠ .table then luaLError "Expected a table type of query"
  else
    luaPushNil
    populateEntries numberText "Expected a string type of key and value for query parameter"
      emplaceQuery fuel []

def populateHeaders (luaType : LuaType) : LuaCode (List (String × String)) := do
  if luaType ≠ .table then luaLError "Expected a table type of headers"
  else
    luaPushNil
    populateEntries numberText "Expected a string type of key and value for headers"
      H.emplaceHeader fuel []

def populateBody (luaType : LuaType) : LuaCode String := do
  if luaType ≠ .string ∧ luaType ≠ .number ∧ luaType ≠ .table ∧ luaType ≠ .boolean then
    luaLError ("One of these types is expected for the body (string, number, table, boolean), " ++
      "actual = " ++ luaType.name)
  else
    tryCatch (Serializer.toString J fuel none) fun thrown =>
      match thrown with
      | .exception e => luaLError (cString e.what)
      | .luaError _ => raise thrown

/-- A field of the additional parameters, which are at index 5. -/
def populateField {α : Type} (name : String) (default : α) (populate : LuaType → LuaCode α) :
    LuaCode α := do
  luaPushString name
  let type ← luaGetTable 5
  if type ≠ .nil then populate type
  else return default

def populateAdditionalParams (request : Request) : LuaCode Request := do
  let query ← populateField "query" [] (populateQueryParams fuel numberText)
  luaSetTop 5
  let headers ← populateField "headers" [] (populateHeaders H fuel numberText)
  luaSetTop 5
  let body ← populateField "body" "" (populateBody J fuel)
  return { request with query, headers, body }

/-- `ClientMethod::Execute` up to the request, which is about to be sent. -/
def prepare : LuaCode Request := do
  let n ← luaGetTop
  if n ≠ 4 ∧ n ≠ 5 then
    luaLError ("Invalid arguments count (expected 2 or 3 (method, url, [params]), provided " ++
      toString ((n : Int) - 2) ++ ")")
  else if ¬ (← luaIsString 3) then luaLError "Expected a string type of 'method'"
  else if ¬ (← luaIsString 4) then luaLError "Expected a string type of 'url'"
  else
    let type ← luaType 5
    if n = 5 ∧ type ≠ .nil ∧ type ≠ .table then
      luaLError "Expected a table type of additional params"
    else
      let method ← luaConvertToString numberText 3
      let url ← luaConvertToString numberText 4
      let method ← ofLibrary (H.methodFromString method)
      let request := { Request.default with method, url }
      let request ← if n = 5 ∧ type ≠ .nil
        then populateAdditionalParams H J fuel numberText request
        else pure request
      luaClear
      return request

/-- The headers of `BuildLuaResponse`, one field each. -/
def setHeaders : List (String × String) → LuaCode Unit
  | [] => pure ()
  | (header, value) :: rest => do
    luaPushString value
    luaSetField (-2) header
    setHeaders rest

def buildLuaResponse (reply : Reply) : LuaCode Unit := do
  luaNewTable
  luaPushInteger reply.response.status.toInt64
  luaSetField (-2) "status"
  if reply.hasHeaders then
    luaNewTable
    setHeaders reply.response.headers
    luaSetField (-2) "headers"
  luaPushString reply.response.body
  luaSetField (-2) "body"

/-- `ClientMethod::Execute` from the answer of the client on. -/
def finish : Except Exception Reply → LuaCode Unit
  | .ok reply => do
    buildLuaResponse reply
    luaPushNil
  | .error e => do
    luaPushNil
    luaPushString e.what

/-- `ClientMethod::Execute`, next to the requests handed to the client. -/
def execute (send : Request → Except Exception Reply) :
    Code Thrown (LuaState × List Request) Unit := do
  let request ← onPrivate (prepare H J fuel numberText)
  onShared (modify fun sent => sent ++ [request])
  onPrivate (finish (send request))

end

end ClientMethod

end LambdaExecutor.Http
