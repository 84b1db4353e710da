import LambdaExecutor.Engine.Environment
import LambdaExecutor.Formats.Json

/-!
# Requests and responses as JSON

`Request::FromJson` reads the request that the handler is sent, `Response::ToJson`
prints the response that it answers with.
-/

namespace LambdaExecutor.Http

open Lua Formats

structure HttpLibrary where
  /-- Thrown for a value that is not of the type asked for. -/
  typeMismatch : Exception
  /-- Thrown for a member that is not there. -/
  memberMissing : String → Exception
  /-- `HttpMethodFromString`, with the text which `ToString` gives for the method. -/
  methodFromString : String → Except Exception String
  /-- `HeaderMap::emplace`, which throws when there are too many headers. -/
  emplaceHeader : List (String × String) → String → String →
    Except Exception (List (String × String))

variable (H : HttpLibrary)

/-- `operator[]`; `null` has no members. -/
def member (name : String) : Json → Except Exception (Option Json)
  | .object members => .ok ((members.find? (·.1 = name)).map Prod.snd)
  | .null => .ok none
  | _ => .error H.typeMismatch

/-- `As<std::string>()`. -/
def asString : Json → Except Exception String
  | .string s => .ok s
  | _ => .error H.typeMismatch

def stringMember (json : Json) (name : String) : Except Exception String := do
  match ← member H name json with
  | some value => asString H value
  | none => .error (H.memberMissing name)

/-- `As<std::string>(default)` of a member; `null` counts as missing. -/
def stringMemberOr (json : Json) (name : String) (default : String) : Except Exception String := do
  match ← member H name json with
  | none | some .null => .ok default
  | some value => asString H value

/-- What a loop from `begin()` to `end()` visits, with the names that `GetName()` gives. -/
def members : Json → Except Exception (List (String × Json))
  | .object members => .ok members
  | .null | .array [] => .ok []
  | _ => .error H.typeMismatch

/-- `unordered_map::emplace`, which keeps a key that is there already. -/
def emplaceQuery (query : List (String × String)) (key value : String) :
    Except Exception (List (String × String)) :=
  .ok (if query.any (·.1 = key) then query else query ++ [(key, value)])

def emplaceMembers (json : Json) (name : String)
    (emplace : List (String × String) → String → String →
      Except Exception (List (String × String))) :
    Except Exception (List (String × String)) := do
  match ← member H name json with
  | none => .ok []
  | some value =>
    (← members H value).foldlM
      (fun entries entry => do emplace entries entry.1 (← asString H entry.2)) []

def Message.fromJson (json : Json) : Except Exception Message := do
  let body ← stringMemberOr H json "body" ""
  let headers ← emplaceMembers H json "headers" H.emplaceHeader
  return { headers, body }

def Request.fromJson (json : Json) : Except Exception Request := do
  let message ← Message.fromJson H json
  let method ← H.methodFromString (← stringMember H json "method")
  let url ← stringMember H json "url"
  let query ← emplaceMembers H json "query" emplaceQuery
  return { message with method, url, query }

def ofUInt16 (n : UInt16) : Double :=
  .finite n.toNat (Binary64.IsBinary64.of_int n.toNat 0 (by have := n.toNat_lt; omega) (by omega)
    (by simp))

def Response.toJson (J : JsonLibrary) (response : Response) : Except Exception Json := do
  let builder ← J.emplaceNocheck .null "status"
    (.number (ofUInt16 (UInt16.ofBitVec (response.status.toBitVec.setWidth 16))))
  let headersBuilder ← response.headers.foldlM
    (fun builder entry => J.emplaceNocheck builder entry.1 (.string entry.2)) Json.null
  let builder ← match headersBuilder with
    | .null => .ok builder
    | headers => J.emplaceNocheck builder "headers" headers
  J.emplaceNocheck builder "body" (.string response.body)

theorem bind_ok {ε α β : Type} {x : Except ε α} {f : α → Except ε β} {b : β} :
    x >>= f = .ok b ↔ ∃ a, x = .ok a ∧ f a = .ok b := by
  cases x <;> simp [bind, Except.bind]

end LambdaExecutor.Http
