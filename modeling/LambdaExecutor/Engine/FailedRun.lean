import LambdaExecutor.Engine.Transfer

/-!
# A failed run keeps the response

When a script fails the globals are not popped, so the table from which
`~Context` makes the response is the one that was made of the response before.
-/

namespace LambdaExecutor.Http

/-- The names of headers are compared without regard to case. -/
def foldCase (name : String) : String := String.ofList (name.toList.map Char.toLower)

def foldedNames (headers : List (String × String)) : List String :=
  headers.map fun entry => foldCase entry.1

/-- What a `HeaderMap` holds: no name twice, and not more than `limit` headers. -/
structure IsHeaderMap (limit : Nat) (headers : List (String × String)) : Prop where
  nodup : (foldedNames headers).Nodup
  length_le : headers.length ≤ limit

/-- The same status, header map and body; the order of a header map does not count. -/
structure Response.Same (r r' : Response) : Prop where
  status : r.status = r'.status
  headers : r.headers.Perm r'.headers
  body : r.body = r'.body

theorem Response.Same.refl (r : Response) : r.Same r := ⟨rfl, .refl _, rfl⟩

end LambdaExecutor.Http

namespace LambdaExecutor.Engine

open Lua Raii Raii.Code Http

def statusNumber (status : Int32) : Double :=
  .finite (Binary64.roundInt status.toInt) (Binary64.isBinary64_roundInt (natAbs_int32_lt status))

/-- A field is read as it was set, and a header map takes up to `limit` headers. -/
structure ThirdParty.KeepsFields (T : ThirdParty) (limit : Nat) : Prop where
  keyToString : ∀ s, T.keyToString (.string s) = s
  toString : ∀ s, T.toString (.string s) = s
  toHttpStatus : ∀ status, T.toHttpStatus (statusNumber status) = status
  emplaceHeader : ∀ headers name value, foldCase name ∉ foldedNames headers →
    headers.length < limit →
      ∃ headers', T.emplaceHeader headers name value = .ok headers' ∧
        headers'.Perm ((name, value) :: headers)

variable {T : ThirdParty} {limit : Nat}

def ThirdParty.emplaceAll (T : ThirdParty) (entries headers : List (String × String)) :
    Except Exception (List (String × String)) :=
  entries.foldlM (fun headers entry => T.emplaceHeader headers entry.1 entry.2) headers

theorem emplaceAll_cons (entry : String × String) (entries headers : List (String × String)) :
    T.emplaceAll (entry :: entries) headers =
      T.emplaceHeader headers entry.1 entry.2 >>= T.emplaceAll entries := List.foldlM_cons

theorem populateHeaders_strings (hT : T.KeepsFields limit) (entries : List (String × String)) :
    populateHeaders T (entries.map fun entry => (.string entry.1, .string entry.2)) =
      T.emplaceAll entries [] := by
  simp only [populateHeaders, ThirdParty.emplaceAll, List.foldlM_map, hT.keyToString, hT.toString]

theorem emplaceAll_perm (hT : T.KeepsFields limit) (entries : List (String × String)) :
    ∀ headers, IsHeaderMap limit (entries ++ headers) →
      ∃ headers', T.emplaceAll entries headers = .ok headers' ∧
        headers'.Perm (entries ++ headers) := by
  induction entries with
  | nil => exact fun headers _ => ⟨headers, rfl, .refl _⟩
  | cons entry entries ih =>
    intro headers h
    obtain ⟨hnew, hrest⟩ := List.nodup_cons.mp h.nodup
    have hname : foldCase entry.1 ∉ foldedNames headers := by
      intro hmem
      apply hnew
      simpa [foldedNames] using Or.inr (List.mem_map.mp hmem)
    have hroom : headers.length < limit := by
      have := h.length_le
      simp only [List.cons_append, List.length_cons, List.length_append] at this
      omega
    obtain ⟨next, hnext, hperm⟩ := hT.emplaceHeader headers entry.1 entry.2 hname hroom
    have hmiddle : (entries ++ next).Perm (entry :: entries ++ headers) :=
      (hperm.append_left entries).trans List.perm_middle
    obtain ⟨headers', hall, hperm'⟩ := ih next
      ⟨(hmiddle.map _).nodup_iff.mpr h.nodup, hmiddle.length_eq.trans_le h.length_le⟩
    refine ⟨headers', ?_, hperm'.trans hmiddle⟩
    rw [emplaceAll_cons, hnext]
    exact hall

/-- Making the table of a response and reading it back are inverse, but for a body with a NUL. -/
theorem wp_destroyContext_of_headers (hT : T.KeepsFields limit) {response : Response}
    (hheaders : IsHeaderMap limit response.headers) {e : Exchange}
    (hat : e.env.at responseVariableName = some (populateLuaResponseFrom response)) :
    wp (destroyContext T) (fun _ e' => ∃ made, e'.response = some made ∧
      made.Same { response with body := cString response.body }) (fun _ _ => False) e := by
  obtain ⟨headers, hall, hperm⟩ := emplaceAll_perm hT response.headers [] (by simpa using hheaders)
  have hpopulate := (populateHeaders_strings hT response.headers).trans hall
  rw [wp_destroyContext]
  refine ⟨_, hat, ?_⟩
  rw [wp_populateNativeResponseFrom]
  refine ⟨_, rfl, _, rfl, headers, hpopulate, _, rfl, _, rfl, hT.toHttpStatus _, ?_, ?_⟩
  · simpa using hperm
  · exact hT.toString _

theorem wp_destroyContext_of_response (hT : T.KeepsFields limit) {response : Response}
    (hheaders : IsHeaderMap limit response.headers) (hbody : NulFree response.body)
    {e : Exchange} (hat : e.env.at responseVariableName = some (populateLuaResponseFrom response)) :
    wp (destroyContext T) (fun _ e' => ∃ made, e'.response = some made ∧ made.Same response)
      (fun _ _ => False) e := by
  have hmade := wp_destroyContext_of_headers hT hheaders hat
  rwa [cString_of_nulFree hbody] at hmade

theorem failed_run_keeps_response (hT : T.KeepsFields limit) (x : Invocation)
    (hend : x.scriptEnd ≠ .ok) (s : Session)
    (hheaders : IsHeaderMap limit s.context.response.headers)
    (hbody : NulFree s.context.response.body) :
    wp (execute (x.primitives T)) (fun _ _ => False)
      (fun _ s' => s'.context.response.Same s.context.response) s := by
  cases hupload : x.upload with
  | error e => exact (wp_execute_not_uploaded hupload).mpr (.refl _)
  | ok _ =>
    obtain ⟨e, he⟩ := ScriptEnd.exists_exception hend
    refine (wp_execute_failed hupload he).mpr ?_
    have hat := environment_at_response (x.setup s.context)
    refine wp_mono (wp_destroyContext_of_response hT hheaders hbody hat) ?_ fun _ _ h => h
    rintro _ e ⟨made, hmade, hsame⟩
    simpa [Session.assign, Session.setEnv, hmade] using hsame

-- ---------------------------------------------------------------------------
-- A header map to run
-- ---------------------------------------------------------------------------

def emplaceHeader (limit : Nat) (headers : List (String × String)) (name value : String) :
    Except Exception (List (String × String)) :=
  if foldCase name ∈ foldedNames headers then .ok headers
  else if headers.length < limit then .ok (headers ++ [(name, value)])
  else .error (.stdException "HeaderMap reached max capacity")

def withHeaderMaps (limit : Nat) : ThirdParty :=
  { luaCpp with emplaceHeader := emplaceHeader limit }

theorem roundInt_status (status : Int32) : Binary64.roundInt status.toInt = status.toInt := by
  have hlow := status.le_toInt
  have hhigh := status.toInt_lt
  exact Binary64.roundInt_of_isBinary64
    (.of_int status.toInt 0 (by omega) (by omega) (by simp))

theorem withHeaderMaps_keepsFields (limit : Nat) : (withHeaderMaps limit).KeepsFields limit where
  keyToString _ := rfl
  toString _ := rfl
  toHttpStatus status := by
    show Int32.ofInt (((Binary64.roundInt status.toInt : ℤ) : ℚ).num.tdiv _) = status
    rw [roundInt_status]
    simp
  emplaceHeader headers name value hnew hroom := by
    refine ⟨headers ++ [(name, value)], ?_, List.perm_append_singleton _ _⟩
    simp [withHeaderMaps, emplaceHeader, hnew, hroom]

def timedOut : Invocation where
  ndebug := true
  deps := { httpClient := true, projectStorage := true }
  upload := .ok ()
  scriptEnd := .timeout
  heap := (leaves created created_ne_nil).heap
  global := (leaves created created_ne_nil).global

def teapot : ExecutionContext where
  request := .default
  response := { status := 418, headers := [("X-My-Header", "some-value")],
                body := "short and stout" }

theorem timed_out_keeps_teapot :
    wp (execute (timedOut.primitives (withHeaderMaps 32768))) (fun _ _ => False)
      (fun _ s' => s'.context.response.Same teapot.response) (.start teapot) :=
  failed_run_keeps_response (withHeaderMaps_keepsFields 32768) timedOut nofun (.start teapot)
    ⟨by decide, by decide⟩ (by decide)

end LambdaExecutor.Engine
