import LambdaExecutor.Kv.Storage
import LambdaExecutor.Lua.RoundTrip

/-!
# Projects are isolated

Calls of `storage:store` and `storage:get` by scripts of many projects run over one
table. A call touches the table in one statement, so a run is the list of the
calls in the order of their statements. What the calls of one project answer and
what they leave in the table does not depend on the calls of the other projects.
-/

namespace LambdaExecutor.Kv

open Raii Raii.Code Lua Scripts Formats Noninterference

-- ---------------------------------------------------------------------------
-- Calls
-- ---------------------------------------------------------------------------

/-- A script with the row it was fetched from; column `parent_project_id` is an `INT`. -/
structure FetchedScript where
  database : Database
  id : ScriptIdType
  projectId : Int32
  info : ScriptInfo
  row : (database.rows id.toInt).map ScriptRow.parentProjectId = some (some projectId.toInt)
  fetched : fetch database id = .ok info

/-- The script object, after `SetScriptId` and `SetProjectId`. -/
def FetchedScript.object (script : FetchedScript) : Script Unit where
  language := .lua
  projectId := some script.info.projectId
  scriptId := some script.id
  code := ()
  version := script.info.version

def storageOf (script : Script Unit) : Option Storage := script.projectId.map Storage.new

inductive Method
  | store
  | get
  deriving DecidableEq, Repr

structure Call where
  script : FetchedScript
  method : Method
  lua : LuaState

section
variable (pg : Postgres) (J : JsonLibrary) (fuel : Nat) (numberText : Number → String)

def Storage.call (storage : Storage) : Method → KvCode (Option StorageResult)
  | .store => do
    storage.storeMethod.execute pg J fuel numberText
    return none
  | .get => do
    let result ← storage.getMethod.execute pg numberText
    return some result

/-- The project id of a script that was loaded is initialised. -/
def Call.execute (call : Call) : KvCode (Option StorageResult) :=
  match storageOf call.script.object with
  | some storage => storage.call pg J fuel numberText call.method
  | none => terminate

/-- A call gives its caller what it returns or throws and the Lua state it leaves. -/
def Call.step (table : KvTable) (call : Call) :
    Result Thrown LuaState (Option StorageResult) × KvTable :=
  let r := call.execute pg J fuel numberText (call.lua, table)
  (r.mapState Prod.fst, r.state.2)

end

def view (p : Int32) (table : KvTable) (key : String) : Option String :=
  table.lookup (p.toInt, key)

-- ---------------------------------------------------------------------------
-- The project id on its way into the statements
-- ---------------------------------------------------------------------------

theorem toSigned_ofInt (p : Int32) : (toSigned (BitVec.ofInt 64 p.toInt)).toInt = p.toInt := by
  have hlow := p.le_toInt
  have hhigh := p.toInt_lt
  show (BitVec.ofInt 64 p.toInt).toInt = _
  rw [BitVec.toInt_ofInt]
  exact Int.bmod_eq_of_le (by omega) (by omega)

@[simp] theorem toSigned_toUnsigned (i : Int64) : toSigned (toUnsigned i) = i := rfl

theorem FetchedScript.info_projectId (script : FetchedScript) :
    (toSigned script.info.projectId).toInt = script.projectId.toInt := by
  obtain ⟨row, hrow, hproject⟩ := Option.map_eq_some_iff.mp script.row
  have h := script.fetched
  simp only [fetch, hrow, hproject, Except.ok.injEq] at h
  rw [← h]
  exact toSigned_ofInt script.projectId

-- ---------------------------------------------------------------------------
-- What the statements do
-- ---------------------------------------------------------------------------

variable {pg : Postgres} {J : JsonLibrary} {fuel : Nat} {numberText : Number → String}

theorem storeValue_eq (pg : Postgres) (projectId : ProjectIdType) (key value : String)
    (table : KvTable) : storeValue pg projectId key value table =
      match pg.column (toSigned projectId).toInt key value with
      | .ok column => .done () (table.insert ((toSigned projectId).toInt, column) value)
      | .error e => .threw e table := by
  show Code.bind (Code.bind (ofExcept _) _) _ table = _
  cases pg.column (toSigned projectId).toInt key value <;> rfl

theorem storeValue_cases (pg : Postgres) (projectId : ProjectIdType) (key value : String) :
    (∃ e, ∀ table, storeValue pg projectId key value table = .threw e table) ∨
    ∃ column, ∀ table, storeValue pg projectId key value table =
      .done () (table.insert ((toSigned projectId).toInt, column) value) := by
  simp only [storeValue_eq]
  cases pg.column (toSigned projectId).toInt key value with
  | error e => exact .inl ⟨e, fun table => rfl⟩
  | ok column => exact .inr ⟨column, fun table => rfl⟩

theorem getValue_attempt (pg : Postgres) (projectId : ProjectIdType) (key : String)
    (table : KvTable) : (attempt (getValue pg projectId key) : Code Thrown KvTable _) table =
      .done (pg.answer key (table.lookup ((toSigned projectId).toInt, key))) table := by
  have hget : getValue pg projectId key table =
      Code.bind (selectValues pg (toSigned projectId) key) _ table := rfl
  simp only [attempt, hget, Code.bind, selectValues, Postgres.answer]
  cases pg.text key with
  | error e => rfl
  | ok _ =>
    have hselect : (ofExcept (.ok ()) >>= fun _ => Code.read fun table =>
        Sql.selectWhere ((toSigned projectId).toInt, key) table : TableCode (List String)) table =
        .done (table.lookup ((toSigned projectId).toInt, key)).toList table := rfl
    simp only [hselect]
    cases table.lookup ((toSigned projectId).toInt, key) <;> rfl

-- ---------------------------------------------------------------------------
-- One call
-- ---------------------------------------------------------------------------

theorem view_insert_own (p : Int32) {table table' : KvTable} (column value : String)
    (h : view p table = view p table') : view p (table.insert (p.toInt, column) value) =
      view p (table'.insert (p.toInt, column) value) := by
  funext key
  by_cases hkey : key = column
  · subst hkey
    show AList.lookup _ _ = AList.lookup _ _
    rw [AList.lookup_insert, AList.lookup_insert]
  · have hne : (p.toInt, key) ≠ (p.toInt, column) := by simp [hkey]
    simpa [view, AList.lookup_insert_ne hne] using congrFun h key

theorem view_insert_other {p : Int32} {q : Int} (hq : q ≠ p.toInt) (table : KvTable)
    (column value : String) : view p (table.insert (q, column) value) = view p table := by
  funext key
  have hne : (p.toInt, key) ≠ (q, column) := by simp [Ne.symm hq]
  simp [view, AList.lookup_insert_ne hne]

theorem separates_storeValue (p : Int32) (projectId : ProjectIdType) (key value : String) :
    Separates ((toSigned projectId).toInt = p.toInt) (view p)
      (onShared (attempt (storeValue pg projectId key value)) : KvCode (Except Failure Unit)) := by
  rcases storeValue_cases pg projectId key value with ⟨e, hs⟩ | ⟨column, hs⟩
  · constructor
    · rintro -
      refine observes_onShared fun table table' ht => ?_
      simp [attempt, hs, Result.mapState, ht]
    · rintro -
      refine leavesView_onShared fun table => ?_
      simp [attempt, hs, Result.state]
  · constructor
    · intro h
      refine observes_onShared fun table table' ht => ?_
      simp [attempt, hs, Result.mapState, h, view_insert_own p column value ht]
    · intro h
      refine leavesView_onShared fun table => ?_
      simp [attempt, hs, Result.state, view_insert_other h]

theorem separates_getValue (p : Int32) (projectId : ProjectIdType) (key : String) :
    Separates ((toSigned projectId).toInt = p.toInt) (view p)
      (onShared (attempt (getValue pg projectId key)) : KvCode (Except Failure String)) := by
  constructor
  · intro h
    refine observes_onShared fun table table' ht => ?_
    have hkey : table.lookup (p.toInt, key) = table'.lookup (p.toInt, key) := congrFun ht key
    rw [getValue_attempt, getValue_attempt, h, hkey]
    exact congrArg (Result.done _) ht
  · rintro -
    refine leavesView_onShared fun table => ?_
    rw [getValue_attempt]
    rfl

theorem StoreMethod.separates (p : Int32) (method : StoreMethod) :
    Separates (method.projectId.toInt = p.toInt) (view p)
      (method.execute pg J fuel numberText) := by
  unfold StoreMethod.execute
  refine (separates_onPrivate _).bind fun n => .ite (separates_onPrivate _) ?_
  refine (separates_onPrivate _).bind fun isString => .ite (separates_onPrivate _) ?_
  refine (separates_onPrivate _).bind fun key => (separates_onPrivate _).bind fun value =>
    (separates_onPrivate _).bind fun _ => ?_
  refine (separates_storeValue p (toUnsigned method.projectId) key value).bind fun stored => ?_
  split <;> exact separates_onPrivate _

theorem GetMethod.separates (p : Int32) (method : GetMethod) :
    Separates (method.projectId.toInt = p.toInt) (view p) (method.execute pg numberText) := by
  unfold GetMethod.execute
  refine (separates_onPrivate _).bind fun n => .ite (separates_onPrivate _) ?_
  refine (separates_onPrivate _).bind fun isString => .ite (separates_onPrivate _) ?_
  refine (separates_onPrivate _).bind fun key => (separates_onPrivate _).bind fun _ => ?_
  refine (separates_getValue p (toUnsigned method.projectId) key).bind fun value => ?_
  exact (separates_onPrivate _).bind fun _ => separates_pure _

theorem Call.separates (p : Int32) (call : Call) :
    Separates (call.script.projectId = p) (view p) (call.execute pg J fuel numberText) := by
  have hp : call.script.projectId = p ↔
      (toSigned call.script.info.projectId).toInt = p.toInt := by
    rw [call.script.info_projectId]
    exact Int32.toInt_inj.symm
  rw [hp]
  show Separates _ _ ((Storage.new call.script.info.projectId).call _ _ _ _ call.method)
  cases call.method with
  | store => exact (StoreMethod.separates p _).bind fun _ => separates_pure _
  | get => exact (GetMethod.separates p _).bind fun _ => separates_pure _

-- ---------------------------------------------------------------------------
-- Runs
-- ---------------------------------------------------------------------------

theorem unwinds (p : Int32) : Unwinds (Call.step pg J fuel numberText)
    (fun call => call.script.projectId = p) (view p) where
  others table call h := (Call.separates p call).2 h (call.lua, table)
  own table table' call h ht := by
    have hobserves : Observes (view p) (call.execute pg J fuel numberText) :=
      (Call.separates p call).1 h
    have hr := hobserves call.lua table table' ht
    unfold Call.step
    cases hc : call.execute pg J fuel numberText (call.lua, table) <;>
      cases hc' : call.execute pg J fuel numberText (call.lua, table') <;>
      simp_all [Result.mapState, Result.state, Prod.ext_iff]

theorem projects_isolated (pg : Postgres) (J : JsonLibrary) (fuel : Nat)
    (numberText : Number → String) (p : Int32) {table table' : KvTable} {calls calls' : List Call}
    (htable : view p table = view p table')
    (hcalls : calls.filter (fun call => call.script.projectId = p) =
      calls'.filter fun call => call.script.projectId = p) :
    (run (Call.step pg J fuel numberText) table calls).1.filter
        (fun entry => entry.1.script.projectId = p) =
      (run (Call.step pg J fuel numberText) table' calls').1.filter
        (fun entry => entry.1.script.projectId = p) ∧
    view p (run (Call.step pg J fuel numberText) table calls).2 =
      view p (run (Call.step pg J fuel numberText) table' calls').2 :=
  noninterference (unwinds p) htable hcalls

def acceptAll : Postgres where
  text _ := .ok ()
  integer _ := .ok ()
  varchar := .ok
  isProject _ := .ok ()

def scriptOfProject (projectId : Int32) : FetchedScript where
  database := { rows := fun _ => some { parentProjectId := some projectId.toInt, sourceCode := "" },
                versions := fun _ => 0 }
  id := 7
  projectId := projectId
  info := { id := 7, projectId := BitVec.ofInt 64 projectId.toInt, sourceCode := "", version := 0 }
  row := rfl
  fetched := rfl

def storeCall (projectId : Int32) (key value : String) : Call where
  script := scriptOfProject projectId
  method := .store
  lua := { stack := [.string value, .string key, .userdata "miet_kv_storage",
                     .userdata "miet_kv_storage.store"], heap := [] }

def getCall (projectId : Int32) (key : String) : Call where
  script := scriptOfProject projectId
  method := .get
  lua := { stack := [.string key, .userdata "miet_kv_storage", .userdata "miet_kv_storage.get"],
           heap := [] }

theorem projects_isolated_same_key :
    (run (Call.step acceptAll textLibrary 1 fun _ => "") ∅
        [storeCall 1 "k" "v", storeCall 2 "k" "w", getCall 1 "k"]).1.filter
        (fun entry => entry.1.script.projectId = 1) =
      (run (Call.step acceptAll textLibrary 1 fun _ => "") ∅
        [storeCall 1 "k" "v", getCall 1 "k"]).1.filter
        (fun entry => entry.1.script.projectId = 1) ∧
    view 1 (run (Call.step acceptAll textLibrary 1 fun _ => "") ∅
        [storeCall 1 "k" "v", storeCall 2 "k" "w", getCall 1 "k"]).2 =
      view 1 (run (Call.step acceptAll textLibrary 1 fun _ => "") ∅
        [storeCall 1 "k" "v", getCall 1 "k"]).2 :=
  projects_isolated acceptAll textLibrary 1 (fun _ => "") 1 rfl rfl

example : view 1 (run (Call.step acceptAll textLibrary 1 fun _ => "") ∅
    [storeCall 1 "k" "v", storeCall 2 "k" "w"]).2 "k" = some "v" := by
  decide +kernel

end LambdaExecutor.Kv
