import LambdaExecutor.Http.Client
import LambdaExecutor.Lua.ScriptCode

/-!
# The HTTP client while script code runs

`client:send` once more, with the script code which its calls of the C API run: the
finalizers of a collection and the metamethod `__index` of the parameters. Where none
runs, it is the method of the other model.
-/

namespace LambdaExecutor.Http.ClientMethod.Scripted

open Lua Formats Raii Raii.Code

section
variable (H : HttpLibrary) (J : JsonLibrary) (fuel : Nat) (numberText : Number → String)

def populateEntries (error : String)
    (emplace : List (String × String) → String → String →
      Except Exception (List (String × String))) :
    Nat → List (String × String) → ScriptedCode (List (String × String))
  | 0, _ => terminate
  | fuel + 1, entries => do
    if ← Scripted.luaNext 6 then
      let keyIsString ← onPrivate (luaIsString (-2))
      let valueIsString ← onPrivate (luaIsString (-1))
      if ¬ (keyIsString ∧ valueIsString) then Scripted.luaLError error
      else
        let key ← Scripted.luaConvertToString numberText (-2)
        let value ← Scripted.luaConvertToString numberText (-1)
        let entries ← onPrivate (ofLibrary (emplace entries key value))
        onPrivate (luaPop 1)
        populateEntries error emplace fuel entries
    else return entries

def populateQueryParams (luaType : LuaType) : ScriptedCode (List (String × String)) := do
  if luaType ≠ .table then Scripted.luaLError "Expected a table type of query"
  else
    onPrivate luaPushNil
    populateEntries numberText "Expected a string type of key and value for query parameter"
      emplaceQuery fuel []

def populateHeaders (luaType : LuaType) : ScriptedCode (List (String × String)) := do
  if luaType ≠ .table then Scripted.luaLError "Expected a table type of headers"
  else
    onPrivate luaPushNil
    populateEntries numberText "Expected a string type of key and value for headers"
      H.emplaceHeader fuel []

def populateBody (luaType : LuaType) : ScriptedCode String := do
  if luaType ≠ .string ∧ luaType ≠ .number ∧ luaType ≠ .table ∧ luaType ≠ .boolean then
    Scripted.luaLError
      ("One of these types is expected for the body (string, number, table, boolean), " ++
        "actual = " ++ luaType.name)
  else
    tryCatch (onPrivate (Serializer.toString J fuel none)) fun thrown =>
      match thrown with
      | .exception e => Scripted.luaLError (cString e.what)
      | .luaError _ => raise thrown

def populateField {α : Type} (name : String) (default : α)
    (populate : LuaType → ScriptedCode α) : ScriptedCode α := do
  Scripted.luaPushString name
  let type ← Scripted.luaGetTable 5
  if type ≠ .nil then populate type
  else return default

def populateAdditionalParams (request : Request) : ScriptedCode Request := do
  let query ← populateField "query" [] (populateQueryParams fuel numberText)
  onPrivate (luaSetTop 5)
  let headers ← populateField "headers" [] (populateHeaders H fuel numberText)
  onPrivate (luaSetTop 5)
  let body ← populateField "body" "" (populateBody J fuel)
  return { request with query, headers, body }

def prepare : ScriptedCode Request := do
  let n ← onPrivate luaGetTop
  if n ≠ 4 ∧ n ≠ 5 then
    Scripted.luaLError
      ("Invalid arguments count (expected 2 or 3 (method, url, [params]), provided " ++
        toString ((n : Int) - 2) ++ ")")
  else if ¬ (← onPrivate (luaIsString 3)) then
    Scripted.luaLError "Expected a string type of 'method'"
  else if ¬ (← onPrivate (luaIsString 4)) then
    Scripted.luaLError "Expected a string type of 'url'"
  else
    let type ← onPrivate (luaType 5)
    if n = 5 ∧ type ≠ .nil ∧ type ≠ .table then
      Scripted.luaLError "Expected a table type of additional params"
    else
      let method ← Scripted.luaConvertToString numberText 3
      let url ← Scripted.luaConvertToString numberText 4
      let method ← onPrivate (ofLibrary (H.methodFromString method))
      let request := { Request.default with method, url }
      let request ← if n = 5 ∧ type ≠ .nil
        then populateAdditionalParams H J fuel numberText request
        else pure request
      onPrivate luaClear
      return request

/-- `ClientMethod::Execute` from the answer of the client on. Script code which runs while the
results are made does not come by them. -/
def finish (answer : Except Exception Reply) : ScriptedCode Unit := do
  let _ ← scriptCode
  onPrivate (ClientMethod.finish answer)

def execute (send : Request → Except Exception Reply) : ScriptedCode Unit := do
  let request ← prepare H J fuel numberText
  finish (send request)

end

-- ---------------------------------------------------------------------------
-- No script code
-- ---------------------------------------------------------------------------

variable {H : HttpLibrary} {J : JsonLibrary} {fuel : Nat} {numberText : Number → String}

theorem quiet_populateEntries (error : String)
    (emplace : List (String × String) → String → String →
      Except Exception (List (String × String))) (entries : List (String × String)) :
    Quiet (populateEntries numberText error emplace fuel entries)
      (ClientMethod.populateEntries numberText error emplace fuel entries) := by
  induction fuel generalizing entries with
  | zero => exact fun _ => rfl
  | succ fuel ih =>
    refine (quiet_raising _).bind fun more => .ite ?_ (quiet_pure _)
    refine (quiet_onPrivate _).bind fun keyIsString => (quiet_onPrivate _).bind fun valueIsString =>
      .ite (quiet_raising _) ?_
    refine (quiet_luaConvertToString _ _).bind fun key =>
      (quiet_luaConvertToString _ _).bind fun value => ?_
    exact (quiet_onPrivate _).bind fun entries => (quiet_onPrivate _).bind fun _ => ih entries

theorem quiet_populateField {α : Type} {name : String} {default : α}
    {populate : LuaType → ScriptedCode α} {populate' : LuaType → LuaCode α}
    (h : ∀ type, Quiet (populate type) (populate' type)) :
    Quiet (populateField name default populate)
      (ClientMethod.populateField name default populate') :=
  (quiet_luaPushString _).bind fun _ => (quiet_luaGetTable _).bind fun type =>
    .ite (h type) (quiet_pure _)

theorem quiet_populateBody (luaType : LuaType) :
    Quiet (populateBody J fuel luaType) (ClientMethod.populateBody J fuel luaType) := by
  refine .ite (quiet_raising _) ((quiet_onPrivate _).tryCatch fun thrown => ?_)
  cases thrown with
  | exception e => exact quiet_raising _
  | luaError message => exact fun _ => rfl

theorem quiet_populateAdditionalParams (request : Request) :
    Quiet (populateAdditionalParams H J fuel numberText request)
      (ClientMethod.populateAdditionalParams H J fuel numberText request) := by
  have hquery : ∀ type, Quiet (populateQueryParams fuel numberText type)
      (ClientMethod.populateQueryParams fuel numberText type) := fun type =>
    .ite (quiet_raising _) ((quiet_onPrivate _).bind fun _ => quiet_populateEntries _ _ _)
  have hheaders : ∀ type, Quiet (populateHeaders H fuel numberText type)
      (ClientMethod.populateHeaders H fuel numberText type) := fun type =>
    .ite (quiet_raising _) ((quiet_onPrivate _).bind fun _ => quiet_populateEntries _ _ _)
  refine (quiet_populateField hquery).bind fun query => (quiet_onPrivate _).bind fun _ => ?_
  refine (quiet_populateField hheaders).bind fun headers => (quiet_onPrivate _).bind fun _ => ?_
  exact (quiet_populateField quiet_populateBody).bind fun body => quiet_pure _

theorem quiet_prepare :
    Quiet (prepare H J fuel numberText) (ClientMethod.prepare H J fuel numberText) := by
  refine (quiet_onPrivate _).bind fun n => .ite (quiet_raising _) ?_
  refine (quiet_onPrivate _).bind fun methodIsString => .ite (quiet_raising _) ?_
  refine (quiet_onPrivate _).bind fun urlIsString => .ite (quiet_raising _) ?_
  refine (quiet_onPrivate _).bind fun type => .ite (quiet_raising _) ?_
  refine (quiet_luaConvertToString _ _).bind fun method =>
    (quiet_luaConvertToString _ _).bind fun url => (quiet_onPrivate _).bind fun name => ?_
  have hcleared : ∀ request, Quiet
      (onPrivate luaClear >>= fun _ => (pure request : ScriptedCode Request))
      (luaClear >>= fun _ => pure request) :=
    fun request => (quiet_onPrivate _).bind fun _ => quiet_pure _
  exact .ite ((quiet_populateAdditionalParams _).bind hcleared) ((quiet_pure _).bind hcleared)

/-- Without script code the method does to Lua what it does in the other model. -/
theorem execute_quiet (send : Request → Except Exception Reply) (L : LuaState)
    (sent : List Request) :
    (execute H J fuel numberText send (L, [])).mapState Prod.fst =
      (ClientMethod.execute H J fuel numberText send (L, sent)).mapState Prod.fst := by
  have hquiet : Quiet (execute H J fuel numberText send)
      (ClientMethod.prepare H J fuel numberText >>= fun request =>
        ClientMethod.finish (send request)) :=
    quiet_prepare.bind fun request => fun _ => rfl
  rw [hquiet L]
  show ((Code.bind (ClientMethod.prepare H J fuel numberText) _ L).mapState _).mapState _ =
    (Code.bind (onPrivate (ClientMethod.prepare H J fuel numberText)) _ (L, sent)).mapState _
  unfold Code.bind onPrivate zoom
  cases hprepare : ClientMethod.prepare H J fuel numberText L with
  | done request L' =>
    show ((ClientMethod.finish (send request) L').mapState _).mapState _ =
      ((ClientMethod.finish (send request) L').mapState _).mapState _
    cases ClientMethod.finish (send request) L' <;> rfl
  | threw e L' => rfl
  | terminated L' => rfl

end LambdaExecutor.Http.ClientMethod.Scripted
