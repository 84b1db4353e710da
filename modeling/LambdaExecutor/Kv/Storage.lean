import LambdaExecutor.Kv.Results
import LambdaExecutor.Library.Noninterference
import LambdaExecutor.Library.Sql
import LambdaExecutor.Lua.Serializer
import LambdaExecutor.Scripts.Storage

/-!
# The key-value storage of a project

Table `projects_kv_storage`, `project::Storage`, which reads and writes it, and the
methods `storage:store` and `storage:get` of a script. The project id of the
script is converted on the way: `std::size_t` in the script, `std::int64_t` in the
method, `std::size_t` again in `project::Storage` and `Bigint` in the statement.
-/

namespace LambdaExecutor.Kv

open Raii Raii.Code Lua Scripts Formats

-- ---------------------------------------------------------------------------
-- The table
-- ---------------------------------------------------------------------------

/-- An exception, which `catch (const std::exception&)` sees or only `catch (...)`. -/
inductive Failure
  | exception (what : String)
  | unknown
  deriving DecidableEq, Repr

/-- What PostgreSQL makes of the parameters of a statement: it may refuse a text
which is not in its encoding, a number out of the range of `INT`, a text too long
for `VARCHAR(255)` (blanks too many are cut off instead), and the id of a project
that does not exist. -/
structure Postgres where
  text : String → Except Failure Unit
  integer : Int → Except Failure Unit
  varchar : String → Except Failure String
  isProject : Int → Except Failure Unit

/-- `projects_kv_storage`, with primary key (project_id, key). -/
abbrev KvTable := Sql.Table (Int × String) String

abbrev TableCode (α : Type) := Code Failure KvTable α

/-- What a new row gets in column `key`, unless the row is refused. -/
def Postgres.column (pg : Postgres) (projectId : Int) (key value : String) :
    Except Failure String := do
  pg.text key
  pg.text value
  pg.integer projectId
  let column ← pg.varchar key
  pg.isProject projectId
  return column

section
variable (pg : Postgres)

/-- The `INSERT` of `Storage::Store`, with the number of rows affected. -/
def insertValue (projectId : Int64) (key value : String) : TableCode Nat := do
  let column ← ofExcept (pg.column projectId.toInt key value)
  fun table =>
    let (affected, table) := Sql.insertOrUpdate (projectId.toInt, column) value table
    .done affected table

/-- The `SELECT` of `Storage::Get`, with the values of the rows. -/
def selectValues (projectId : Int64) (key : String) : TableCode (List String) := do
  ofExcept (pg.text key)
  read fun table => Sql.selectWhere (projectId.toInt, key) table

-- ---------------------------------------------------------------------------
-- project::Storage
-- ---------------------------------------------------------------------------

/-- `static_cast` of a `std::size_t` to a signed number of 64 bits. -/
def toSigned (projectId : ProjectIdType) : Int64 := Int64.ofBitVec projectId

def toUnsigned (projectId : Int64) : ProjectIdType := projectId.toBitVec

/-- `project::Storage::Store`. -/
def storeValue (projectId : ProjectIdType) (key value : String) : TableCode Unit := do
  let rowsAffected ← insertValue pg (toSigned projectId) key value
  if rowsAffected ≠ 1 then
    raise (.exception ("Can't store value (key = " ++ key ++ ")"))

def Postgres.answer (pg : Postgres) (key : String) (row : Option String) : Except Failure String :=
  match pg.text key with
  | .error e => .error e
  | .ok _ =>
    match row with
    | some value => .ok value
    | none => .error (.exception ("No value with such key (key = " ++ key ++ ")"))

/-- `project::Storage::Get`. -/
def getValue (projectId : ProjectIdType) (key : String) : TableCode String := do
  match ← selectValues pg (toSigned projectId) key with
  | [value] => return value
  | _ => raise (.exception ("No value with such key (key = " ++ key ++ ")"))

-- ---------------------------------------------------------------------------
-- The methods
-- ---------------------------------------------------------------------------

structure StoreMethod where
  projectId : Int64

structure GetMethod where
  projectId : Int64

structure Storage where
  storeMethod : StoreMethod
  getMethod : GetMethod

def Storage.new (projectId : ProjectIdType) : Storage where
  storeMethod := { projectId := toSigned projectId }
  getMethod := { projectId := toSigned projectId }

/-- A method works on the Lua state of its execution and on the table. -/
abbrev KvCode (α : Type) := Code Thrown (LuaState × KvTable) α

variable (J : JsonLibrary) (fuel : Nat) (numberText : Number → String)

def StoreMethod.execute (method : StoreMethod) : KvCode Unit := do
  let n ← onPrivate luaGetTop
  if n ≠ 4 then
    onPrivate (luaLError ("Invalid arguments count (expected 2 (key, value), provided " ++
      toString ((n : Int) - 2) ++ ")"))
  else if ¬ (← onPrivate (luaIsString 3)) then
    onPrivate (luaLError "Expected a string type of 'key'")
  else
    let key ← onPrivate (luaConvertToString numberText 3)
    let value ← onPrivate (Serializer.toString J fuel none)
    onPrivate luaClear
    match ← onShared (attempt (storeValue pg (toUnsigned method.projectId) key value)) with
    | .ok () => onPrivate luaPushNil
    | .error (.exception what) => onPrivate (luaPushString what)
    | .error .unknown => onPrivate (luaPushString "Unknow store error")

/-- `ResultCastMethod::Execute` of the cast to a type. -/
def StorageResult.cast (result : StorageResult) (type : Deserializer.DataType) : LuaCode Unit := do
  let n ← luaGetTop
  if n ≠ 2 then
    luaLError ("Invalid arguments count (expected 0, provided " ++ toString ((n : Int) - 2) ++ ")")
  else
    luaClear
    if result.isError then
      luaPushNil
      luaPushString result.value
    else
      tryCatch
        (do
          Deserializer.fromString J fuel type result.value
          luaPushNil)
        fun thrown =>
          match thrown with
          | .exception e => do
            luaPushNil
            luaPushString e.what
          | .luaError _ => raise thrown

/-- What the project storage did, as `GetMethod::Execute` tells it apart. -/
def fetched : Except Failure String → Fetched
  | .ok value => .value value
  | .error (.exception what) => .exception what
  | .error .unknown => .unknown

/-- `GetMethod::Execute`. The object of the result is pushed by its address. -/
def GetMethod.execute (method : GetMethod) : KvCode StorageResult := do
  let n ← onPrivate luaGetTop
  if n ≠ 3 then
    onPrivate (luaLError ("Invalid arguments count (expected 1 (key), provided " ++
      toString ((n : Int) - 2) ++ ")"))
  else if ¬ (← onPrivate (luaIsString 3)) then
    onPrivate (luaLError "Expected a string type of 'key'")
  else
    let key ← onPrivate (luaConvertToString numberText (-1))
    onPrivate luaClear
    let value ← onShared (attempt (getValue pg (toUnsigned method.projectId) key))
    onPrivate (luaPush (.userdata "StorageResult"))
    return (fetched value).result

end

end LambdaExecutor.Kv
