import LambdaExecutor.Handlers.Calls
import LambdaExecutor.Handlers.Delivery
import LambdaExecutor.Http.Replies

/-!
# What a caller learns of the lambda it calls

A script sends a table to the handler of another script and gets the answer of the
server as a table. Its status says what became of the call, and where the other script
answered, its body is the JSON of the response which that script left.
-/

namespace LambdaExecutor.Handlers

open Engine Lua Formats Http Http.ClientMethod Raii Raii.Code Emplace
open Serializer (on encodes_unique)

variable {handler : ExecuteLambda} {id : String} {h : Heap} {r : TableRef} {s : Session}
  {data : String} {e : HandlerError} {script : Invocation} {context : ExecutionContext}

-- ---------------------------------------------------------------------------
-- The handler
-- ---------------------------------------------------------------------------

theorem handleRequestThrow_of_no_script (hscript : handler.getScriptById id = .error e) :
    handler.handleRequestThrow id data s = .threw e s := by
  unfold ExecuteLambda.handleRequestThrow
  rw [hscript]
  rfl

theorem handleRequestThrow_of_no_context (hscript : handler.getScriptById id = .ok script)
    (hcontext : handler.buildExecutionContext data = .error e) :
    handler.handleRequestThrow id data s = .threw e s := by
  unfold ExecuteLambda.handleRequestThrow
  rw [hscript, hcontext]
  rfl

theorem handleRequestThrow_of_context (hscript : handler.getScriptById id = .ok script)
    (hcontext : handler.buildExecutionContext data = .ok context) :
    handler.handleRequestThrow id data s =
      (handler.answer script >>= fun json => pure (handler.J.toString json)) (.start context) := by
  unfold ExecuteLambda.handleRequestThrow
  rw [hscript, hcontext]
  rfl

theorem handleRequestThrow_of_failure (hscript : handler.getScriptById id = .ok script)
    (hcontext : handler.buildExecutionContext data = .ok context) {s' : Session}
    (hfails : handler.answer script (.start context) = .threw e s') :
    handler.handleRequestThrow id data s = .threw e s' := by
  rw [handleRequestThrow_of_context hscript hcontext]
  show Code.bind _ _ _ = _
  rw [Code.bind, hfails]

theorem handleRequestThrow_of_answer (hscript : handler.getScriptById id = .ok script)
    (hcontext : handler.buildExecutionContext data = .ok context) {json : Json} {s' : Session}
    (hanswers : handler.answer script (.start context) = .done json s') :
    handler.handleRequestThrow id data s = .done (handler.J.toString json) s' := by
  rw [handleRequestThrow_of_context hscript hcontext]
  show Code.bind _ _ _ = _
  rw [Code.bind, hanswers]
  rfl

def ExecuteLambda.errorBody (handler : ExecuteLambda) (message : String) : String :=
  handler.J.toString (.object [("message", .string message)])

theorem rethrowWithExternalMessage_eq (hJ : handler.J.Builds) (error : String → HandlerError)
    (message : String) : handler.rethrowWithExternalMessage error message =
      error (handler.errorBody message) := by
  unfold ExecuteLambda.rethrowWithExternalMessage
  rw [hJ.emplaceNocheck_null]
  rfl

theorem getScriptById_ok {n : UInt64} (hid : handler.lexicalCast id = some n)
    (hget : handler.get n = .ok script) : handler.getScriptById id = .ok script := by
  unfold ExecuteLambda.getScriptById
  rw [hid]
  simp only [hget]

-- ---------------------------------------------------------------------------
-- The server
-- ---------------------------------------------------------------------------

def HandlerError.status : HandlerError → Int32
  | .clientError _ => 400
  | .resourceNotFound _ => 404
  | .internalServerError | .exception _ => 500

def HandlerError.externalBody? : HandlerError → Option String
  | .clientError body => some body
  | .resourceNotFound body => body
  | .internalServerError | .exception _ => none

/-- The status of the server's answer, and its body where the handler gives one. -/
def served : Result HandlerError Session String → Option (Int32 × Option String)
  | .done text _ => some (200, some text)
  | .threw e _ => some (e.status, e.externalBody?)
  | .terminated _ => none

/-- The server answers the native request with what the handler makes of the script of the id. -/
def ExecuteLambda.Serves (handler : ExecuteLambda) (id : String) (native : NativeRequest)
    (perform : NativeRequest → Except Exception Response) : Prop :=
  ∀ s status body,
    served (handler.handleRequestThrow id native.data s) = some (status, body) →
      ∃ response, perform native = .ok response ∧ response.status = status ∧
        ∀ text, body = some text → response.body = text

/-- `Client::Send` gives every response a header map. -/
def transport (perform : NativeRequest → Except Exception Response) (request : Request) :
    Except Exception Reply :=
  (Client.send perform request).map fun response => { response, hasHeaders := true }

-- ---------------------------------------------------------------------------
-- The call
-- ---------------------------------------------------------------------------

/-- What becomes of a call with a table: the status, and the body where it is told. -/
inductive Outcome (handler : ExecuteLambda) (id : String) (h : Heap) (r : TableRef) :
    Int32 → Option String → Prop
  | incorrectId (hid : handler.lexicalCast id = none) :
    Outcome handler id h r 400 (some (handler.errorBody "Incorrect script ID"))
  | notFound {n : UInt64} {what : String} (hid : handler.lexicalCast id = some n)
    (hget : handler.get n = .error (.notFoundScriptError what)) :
    Outcome handler id h r 404 (some (handler.errorBody what))
  | notLoaded {n : UInt64} {e : Exception} (hid : handler.lexicalCast id = some n)
    (hget : handler.get n = .error e) (hother : ∀ what, e ≠ .notFoundScriptError what) :
    Outcome handler id h r 500 none
  | notRequest {n : UInt64} {script : Invocation} (hid : handler.lexicalCast id = some n)
    (hget : handler.get n = .ok script) (hnone : ∀ request, ¬ IsRequest handler.H h r request) :
    Outcome handler id h r 400 none
  | failed {n : UInt64} {script : Invocation} {request : Request} {e : HandlerError} {s : Session}
    (hid : handler.lexicalCast id = some n) (hget : handler.get n = .ok script)
    (hrequest : IsRequest handler.H h r request)
    (hfails : handler.answer script (.start { request, response := .default }) = .threw e s) :
    Outcome handler id h r e.status none
  | answered {n : UInt64} {script : Invocation} {request : Request} {json : Json} {s : Session}
    (hid : handler.lexicalCast id = some n) (hget : handler.get n = .ok script)
    (hrequest : IsRequest handler.H h r request)
    (hanswers : handler.answer script (.start { request, response := .default }) =
      .done json s) :
    Outcome handler id h r 200 (some (handler.J.toString json))

section Served

variable {j : Json} {sent : Request} {status : Int32} {body : Option String}
  (hJ : handler.J.Builds) (hj : Encodes h (.table r) j)
  (hfree : ∀ key v, (.string key, v) ∈ h.entries r → NulFree key)
  (hcarries : handler.Carries h r) (hdata : sent.body = handler.J.toString j)
include hJ hj hfree hcarries hdata

theorem served_of_outcome (houtcome : Outcome handler id h r status body) (s : Session) :
    ∃ answer, served (handler.handleRequestThrow id (Client.nativeRequest sent).data s) =
      some (status, answer) ∧ ∀ text, body = some text → answer = some text := by
  obtain ⟨hcontext, hnot⟩ := buildExecutionContext_of_body hJ hj hfree hcarries hdata
  cases houtcome with
  | incorrectId hid =>
    have hscript : handler.getScriptById id =
        .error (.clientError (handler.errorBody "Incorrect script ID")) := by
      simp only [ExecuteLambda.getScriptById, hid, rethrowWithExternalMessage_eq hJ]
    rw [handleRequestThrow_of_no_script hscript]
    exact ⟨_, rfl, fun _ h => h⟩
  | notFound hid hget =>
    next what =>
    have hscript : handler.getScriptById id =
        .error (.resourceNotFound (some (handler.errorBody what))) := by
      simp only [ExecuteLambda.getScriptById, hid, hget, rethrowWithExternalMessage_eq hJ]
    rw [handleRequestThrow_of_no_script hscript]
    exact ⟨_, rfl, fun _ h => h⟩
  | notLoaded hid hget hother =>
    next e =>
    have hscript : handler.getScriptById id = .error .internalServerError := by
      cases e with
      | notFoundScriptError what => exact absurd rfl (hother what)
      | _ => simp only [ExecuteLambda.getScriptById, hid, hget]
    rw [handleRequestThrow_of_no_script hscript]
    exact ⟨_, rfl, fun _ h => h⟩
  | notRequest hid hget hnone =>
    obtain ⟨message, hcontext⟩ := hnot hnone
    rw [handleRequestThrow_of_no_context (getScriptById_ok hid hget) hcontext]
    exact ⟨_, rfl, fun text h => by cases h⟩
  | failed hid hget hrequest hfails =>
    have hmade := (hcontext { request := _, response := .default }).mpr ⟨rfl, hrequest⟩
    rw [handleRequestThrow_of_failure (getScriptById_ok hid hget) hmade hfails]
    exact ⟨_, rfl, fun text h => by cases h⟩
  | answered hid hget hrequest hanswers =>
    have hmade := (hcontext { request := _, response := .default }).mpr ⟨rfl, hrequest⟩
    rw [handleRequestThrow_of_answer (getScriptById_ok hid hget) hmade hanswers]
    exact ⟨_, rfl, fun _ h => h⟩

end Served

/-- The caller gets a table which says what became of its call, when what it sent is served. -/
theorem caller_sees_outcome (handler : ExecuteLambda) (hJ : handler.J.Strict) {h : Heap}
    (hh : h.Lawful) {limit : Nat}
    (hheaders : Emplaces foldCase (some limit) handler.H.emplaceHeader)
    (numberText : Number → String) {id : String}
    {perform : NativeRequest → Except Exception Response} {p r : TableRef}
    {url method a b : Value} {request : Request} (before : List Request)
    (hstands : StandsFor handler.H handler.J limit numberText h [.table p, url, method, a, b]
      request)
    (hbody : h.rawget p (.string "body") = .table r)
    (hfree : ∀ key v, (.string key, v) ∈ h.entries r → NulFree key)
    (hcarries : handler.Carries h r) {status : Int32} {body : Option String}
    (houtcome : Outcome handler id h r status body) :
    ∃ sent, StandsFor handler.H handler.J limit numberText h [.table p, url, method, a, b] sent ∧
      (handler.Serves id (Client.nativeRequest sent) perform → ∃ n, ∀ fuel, n ≤ fuel → ∃ h',
        Returns (execute handler.H handler.J fuel numberText (transport perform))
          (on h [.table p, url, method, a, b], before) ()
          (on h' [.nil, .table h.length], before ++ [sent]) ∧
        h'.rawget h.length (.string "status") = .number (.integer status.toInt64) ∧
        ∀ text, body = some text →
          h'.rawget h.length (.string "body") = .string (cString text)) := by
  obtain ⟨sent, hsent, n, hn⟩ := returns_of_standsFor hJ hh hheaders hstands
  refine ⟨sent, hsent, fun hserves => ⟨n, fun fuel hfuel => ?_⟩⟩
  obtain ⟨j, hj, hdata⟩ :=
    body_of_standsFor hbody (standsForBody_of_returns_prepare hJ hh (hn n (Nat.le_refl n)))
  obtain ⟨answer, hserved, hanswer⟩ := served_of_outcome hJ.toBuilds hj hfree hcarries hdata
    houtcome (.start { request := .default, response := .default })
  obtain ⟨response, hperform, hstatus, htext⟩ := hserves _ status answer hserved
  have hsend : transport perform sent = .ok { response, hasHeaders := true } := by
    rw [transport, Client.send, hperform]
    rfl
  obtain ⟨L, hreturns, hresult⟩ : ∃ L,
      Returns (execute handler.H handler.J fuel numberText (transport perform))
        (on h [.table p, url, method, a, b], before) () (L, before ++ [sent]) ∧
        IsAnswer h (transport perform sent) L := returns_execute (hn fuel hfuel)
  rw [hsend] at hresult
  obtain ⟨h', rfl, hreply⟩ := hresult
  refine ⟨h', hreturns, hstatus ▸ hreply.status, fun text hsome => ?_⟩
  rw [hreply.body, htext text (hanswer text hsome)]

theorem served_any (s s' : Session) : served (handler.handleRequestThrow id data s) =
    served (handler.handleRequestThrow id data s') := by
  cases hscript : handler.getScriptById id with
  | error e =>
    rw [handleRequestThrow_of_no_script hscript, handleRequestThrow_of_no_script hscript]
    rfl
  | ok script =>
    cases hcontext : handler.buildExecutionContext data with
    | error e =>
      rw [handleRequestThrow_of_no_context hscript hcontext,
        handleRequestThrow_of_no_context hscript hcontext]
      rfl
    | ok context =>
      rw [handleRequestThrow_of_context hscript hcontext,
        handleRequestThrow_of_context hscript hcontext]

def noSession : Session := .start { request := .default, response := .default }

def ExecuteLambda.server (handler : ExecuteLambda) (id : String) (native : NativeRequest) :
    Except Exception Response :=
  match served (handler.handleRequestThrow id native.data noSession) with
  | some (status, body) => .ok { status, headers := [], body := body.getD "" }
  | none => .error (.stdException "Connection reset")

theorem server_serves (handler : ExecuteLambda) (id : String) (native : NativeRequest) :
    handler.Serves id native (handler.server id) := by
  intro s status body hserved
  rw [served_any s noSession] at hserved
  unfold ExecuteLambda.server
  rw [hserved]
  exact ⟨_, rfl, rfl, fun text hsome => by rw [hsome]; rfl⟩

def remoteText : String := "\x7b\"status\":201\x7d"

def remoteLibrary : JsonLibrary :=
  { callLibrary with
    toString := fun j =>
      match j with
      | .object ((name, _) :: _) => if name = "method" then callText else remoteText
      | _ => callLibrary.toString j }

theorem remoteLibrary_strict : remoteLibrary.Strict := ⟨⟨callLibrary_strict.ofDouble,
  callLibrary_strict.emplaceNocheck_null, callLibrary_strict.emplaceNocheck_object,
  callLibrary_strict.pushBack_null, callLibrary_strict.pushBack_array⟩,
  callLibrary_strict.ofDouble_error, callLibrary_strict.emplaceNocheck_array,
  callLibrary_strict.pushBack_object⟩

def remoteHandler : ExecuteLambda where
  T := withHeaderMaps 2
  H := smallHttp
  J := remoteLibrary
  lexicalCast id := if id = "5" then some 5 else none
  get _ := .ok (answering 201)

theorem remote_carries : remoteHandler.Carries callHeap 1 := by
  intro j hj
  obtain rfl := encodes_unique remoteLibrary_strict callHeap_lawful call_encodes hj
  exact ⟨by decide, rfl⟩

def responseText (J : JsonLibrary) : Result HandlerError Session Json → Option String
  | .done json _ => some (J.toString json)
  | _ => none

theorem exists_response : ∃ json s, remoteHandler.answer (answering 201)
    (.start { request := callRequest, response := .default }) = .done json s ∧
      remoteLibrary.toString json = remoteText := by
  have htext : responseText remoteLibrary (remoteHandler.answer (answering 201)
      (.start { request := callRequest, response := .default })) = some remoteText := by
    decide +kernel
  cases hresult : remoteHandler.answer (answering 201)
      (.start { request := callRequest, response := .default }) with
  | done json s =>
    rw [hresult] at htext
    exact ⟨json, s, rfl, Option.some.inj htext⟩
  | threw e s => simp [hresult, responseText] at htext
  | terminated s => simp [hresult, responseText] at htext

theorem call_standsFor :
    StandsFor smallHttp remoteLibrary 2 digit callHeap callArguments call := by
  refine ⟨⟨by decide, rfl, by decide⟩, .inr ⟨0, rfl, .inl ⟨by decide, rfl⟩, .inl ⟨by decide, rfl⟩,
    .inr ⟨callJson, ?_, rfl⟩⟩⟩
  exact call_encodes

theorem caller_gets_created : ∃ sent, StandsFor smallHttp remoteLibrary 2 digit callHeap
      callArguments sent ∧ ∃ n, ∀ fuel, n ≤ fuel → ∃ h',
    Returns (execute smallHttp remoteLibrary fuel digit (transport (remoteHandler.server "5")))
      (on callHeap callArguments, []) () (on h' [.nil, .table 2], [sent]) ∧
    h'.rawget 2 (.string "status") = .number (.integer 200) ∧
    h'.rawget 2 (.string "body") = .string remoteText := by
  obtain ⟨json, s, hresponse, htext⟩ := exists_response
  have houtcome : Outcome remoteHandler "5" callHeap 1 200 (some (remoteLibrary.toString json)) :=
    .answered rfl rfl call_isRequest hresponse
  obtain ⟨sent, hsent, hserved⟩ := caller_sees_outcome remoteHandler remoteLibrary_strict
    callHeap_lawful (emplaces_emplaceUpTo 2) digit [] call_standsFor rfl callHeap_free
    remote_carries houtcome
  obtain ⟨n, hn⟩ := hserved (server_serves remoteHandler "5" _)
  refine ⟨sent, hsent, n, fun fuel hfuel => ?_⟩
  obtain ⟨h', hreturns, hstatus, hbody⟩ := hn fuel hfuel
  exact ⟨h', hreturns, hstatus, (hbody remoteText (congrArg some htext)).trans (by decide)⟩

end LambdaExecutor.Handlers
