import LambdaExecutor.Kv.Isolation
import LambdaExecutor.Lua.ScriptCode

/-!
# The storage methods while script code runs

`storage:store`, `storage:get` and the casts once more, with the script code which
their calls of the C API run, next to a project storage of any behaviour. Where no
script code runs, they are the methods of the other model.
-/

namespace LambdaExecutor.Kv

open Raii Raii.Code Lua Scripts Formats

structure StorageBehaviour where
  store : ProjectIdType → String → String → Except Failure Unit
  get : ProjectIdType → String → Except Failure String

namespace Scripted

variable (B : StorageBehaviour) (J : JsonLibrary) (fuel : Nat) (numberText : Number → String)

def tellStored : Except Failure Unit → ScriptedCode Unit
  | .ok () => onPrivate luaPushNil
  | .error (.exception what) => Lua.Scripted.luaPushString what
  | .error .unknown => Lua.Scripted.luaPushString "Unknow store error"

def store (method : StoreMethod) : ScriptedCode Unit := do
  let n ← onPrivate luaGetTop
  if n ≠ 4 then
    Lua.Scripted.luaLError ("Invalid arguments count (expected 2 (key, value), provided " ++
      toString ((n : Int) - 2) ++ ")")
  else if ¬ (← onPrivate (luaIsString 3)) then
    Lua.Scripted.luaLError "Expected a string type of 'key'"
  else
    let key ← Lua.Scripted.luaConvertToString numberText 3
    let value ← onPrivate (Serializer.toString J fuel none)
    onPrivate luaClear
    tellStored (B.store (toUnsigned method.projectId) key value)

/-- `GetMethod::Execute`. `PushValue` takes memory for the object in Lua. -/
def get (method : GetMethod) : ScriptedCode StorageResult := do
  let n ← onPrivate luaGetTop
  if n ≠ 3 then
    Lua.Scripted.luaLError ("Invalid arguments count (expected 1 (key), provided " ++
      toString ((n : Int) - 2) ++ ")")
  else if ¬ (← onPrivate (luaIsString 3)) then
    Lua.Scripted.luaLError "Expected a string type of 'key'"
  else
    let key ← Lua.Scripted.luaConvertToString numberText (-1)
    onPrivate luaClear
    let value := B.get (toUnsigned method.projectId) key
    let _ ← scriptCode
    onPrivate (luaPush (.userdata "StorageResult"))
    return (fetched value).result

/-- Whether `FromString` takes memory: for a string, or for a table once its text is parsed. -/
def takesMemory : Deserializer.DataType → String → Bool
  | .string, _ => true
  | .number, _ | .boolean, _ => false
  | .table, text => (J.fromString text).toOption.isSome

/-- `ResultCastMethod::Execute`. Script code which runs while a table is filled does not come
by it. -/
def cast (result : StorageResult) (type : Deserializer.DataType) : ScriptedCode Unit := do
  let n ← onPrivate luaGetTop
  if n ≠ 2 then
    Lua.Scripted.luaLError ("Invalid arguments count (expected 0, provided " ++
      toString ((n : Int) - 2) ++ ")")
  else
    onPrivate luaClear
    if result.isError then
      onPrivate luaPushNil
      Lua.Scripted.luaPushString result.value
    else
      tryCatch
        (do
          if takesMemory J type result.value then
            let _ ← scriptCode
          onPrivate (Deserializer.fromString J fuel type result.value)
          onPrivate luaPushNil)
        fun thrown =>
          match thrown with
          | .exception e => do
            onPrivate luaPushNil
            Lua.Scripted.luaPushString e.what
          | .luaError _ => raise thrown

-- ---------------------------------------------------------------------------
-- No script code
-- ---------------------------------------------------------------------------

variable {B J fuel numberText}

def answer {α : Type} (c : TableCode α) (table : KvTable) : Except Failure α :=
  match c table with
  | .done a _ => .ok a
  | .threw e _ => .error e
  | .terminated _ => .error .unknown

def overTable (pg : Postgres) (table : KvTable) : StorageBehaviour where
  store projectId key value := answer (storeValue pg projectId key value) table
  get projectId key := answer (getValue pg projectId key) table

/-- Without script code, the code does to Lua what the other does over the table. -/
def Tracks {α : Type} (table : KvTable) (c : ScriptedCode α) (d : KvCode α) : Prop :=
  ∀ L, (c (L, [])).mapState Prod.fst = (d (L, table)).mapState Prod.fst

section
variable {α β : Type} {table : KvTable}

theorem Tracks.bind {c : ScriptedCode α} {c' : LuaCode α} {f : α → ScriptedCode β}
    {g : α → KvCode β} (hc : Quiet c c') (hf : ∀ a, Tracks table (f a) (g a)) :
    Tracks table (c >>= f) (onPrivate c' >>= g) := by
  intro L
  show (Code.bind c f (L, [])).mapState _ = (Code.bind (onPrivate c') g (L, table)).mapState _
  unfold Code.bind onPrivate zoom
  rw [hc L]
  cases hr : c' L with
  | done a L' => exact hf a L'
  | threw e L' => rfl
  | terminated L' => rfl

theorem Tracks.ite {p : Prop} [Decidable p] {c c' : ScriptedCode α} {d d' : KvCode α}
    (hc : Tracks table c d) (hc' : Tracks table c' d') :
    Tracks table (if p then c else c') (if p then d else d') := by
  split
  · exact hc
  · exact hc'

theorem tracks_of_quiet {c : ScriptedCode α} {c' : LuaCode α} (hc : Quiet c c') :
    Tracks table c (onPrivate c') := by
  intro L
  unfold onPrivate zoom
  rw [hc L]
  cases c' L <;> rfl

end

theorem store_tracks (pg : Postgres) (table : KvTable) (method : StoreMethod) :
    Tracks table (store (overTable pg table) J fuel numberText method)
      (method.execute pg J fuel numberText) := by
  refine .bind (quiet_onPrivate _) fun n => .ite (tracks_of_quiet (quiet_raising _)) ?_
  refine .bind (quiet_onPrivate _) fun isString => .ite (tracks_of_quiet (quiet_raising _)) ?_
  refine .bind (quiet_luaConvertToString _ _) fun key => .bind (quiet_onPrivate _) fun value =>
    .bind (quiet_onPrivate _) fun _ L => ?_
  obtain ⟨e, hstore⟩ | ⟨column, hstore⟩ :=
    storeValue_cases pg (toUnsigned method.projectId) key value
  · have hanswer : (overTable pg table).store (toUnsigned method.projectId) key value =
        .error e := by
      simp [overTable, answer, hstore]
    have hstored : Returns (attempt (storeValue pg (toUnsigned method.projectId) key value) :
        Code Thrown KvTable (Except Failure Unit)) table (.error e) table := by
      simp [Returns, attempt, hstore]
    rw [hanswer, (hstored.onShared L).bind_apply]
    cases e <;> rfl
  · have hanswer : (overTable pg table).store (toUnsigned method.projectId) key value = .ok () := by
      simp [overTable, answer, hstore]
    have hstored : Returns (attempt (storeValue pg (toUnsigned method.projectId) key value) :
        Code Thrown KvTable (Except Failure Unit)) table (.ok ())
        (table.insert ((toSigned (toUnsigned method.projectId)).toInt, column) value) := by
      simp only [Returns, attempt, hstore]
    rw [hanswer, (hstored.onShared L).bind_apply]
    rfl

theorem get_tracks (pg : Postgres) (table : KvTable) (method : GetMethod) :
    Tracks table (get (overTable pg table) numberText method) (method.execute pg numberText) := by
  refine .bind (quiet_onPrivate _) fun n => .ite (tracks_of_quiet (quiet_raising _)) ?_
  refine .bind (quiet_onPrivate _) fun isString => .ite (tracks_of_quiet (quiet_raising _)) ?_
  refine .bind (quiet_luaConvertToString _ _) fun key => .bind (quiet_onPrivate _) fun _ L => ?_
  have hvalue : Returns (attempt (getValue pg (toUnsigned method.projectId) key) :
      Code Thrown KvTable (Except Failure String)) table
      ((overTable pg table).get (toUnsigned method.projectId) key) table := by
    have hget := getValue_attempt pg (toUnsigned method.projectId) key table
    unfold attempt at hget
    simp only [Returns, attempt, overTable, answer]
    cases hresult : getValue pg (toUnsigned method.projectId) key table <;> simp_all
  rw [(hvalue.onShared L).bind_apply]
  rfl

theorem cast_quiet (result : StorageResult) (type : Deserializer.DataType) :
    Quiet (cast J fuel result type) (result.cast J fuel type) := by
  refine (quiet_onPrivate _).bind fun n => .ite (quiet_raising _) ?_
  refine (quiet_onPrivate _).bind fun _ => .ite ?_ (.tryCatch ?_ fun thrown => ?_)
  · exact (quiet_onPrivate _).bind fun _ => quiet_luaPushString _
  · have hpush : Quiet (onPrivate (Deserializer.fromString J fuel type result.value) >>= fun _ =>
        onPrivate luaPushNil) (Deserializer.fromString J fuel type result.value >>= fun _ =>
          luaPushNil) := (quiet_onPrivate _).bind fun _ => quiet_onPrivate _
    split
    · exact hpush.scriptCode_bind
    · exact hpush
  · cases thrown with
    | exception e => exact (quiet_onPrivate _).bind fun _ => quiet_luaPushString _
    | luaError message => exact fun _ => rfl

end Scripted

end LambdaExecutor.Kv
