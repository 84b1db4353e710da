import LambdaExecutor.Engine.Context
import LambdaExecutor.Http.ClientLaws
import LambdaExecutor.Kv.Isolation

/-!
# Byte strings that cross the border to Lua

Every string crosses the border by a pointer to its characters at some point, so it
comes out cut at its first `NUL`. Strings without `NUL` cross unchanged, and keys
that differ before a `NUL` stay apart.
-/

namespace LambdaExecutor.Engine

open Lua Formats Raii Raii.Code Kv Scripts

-- ---------------------------------------------------------------------------
-- A value stored and read
-- ---------------------------------------------------------------------------

variable {pg : Postgres} {J : JsonLibrary} {numberText : Number → String} {heap : Heap}
  {self function : Value}

/-- The Lua state in which a method is called with its arguments, the last one first. -/
def calledWith (heap : Heap) (self function : Value) (arguments : List Value) : LuaState where
  stack := arguments ++ [self, function]
  heap := heap

def storedTable (pg : Postgres) (projectId : Int) (key b : String) (table : KvTable) : KvTable :=
  match pg.column projectId key b with
  | .ok column => table.insert (projectId, column) b
  | .error _ => table

section
variable {L : LuaState} {i : Int} {key : String} (hat : L.at i = some (.string key))
include hat

theorem returns_key : Returns (luaConvertToString numberText i) L (cString key) L := by
  simp [Returns, luaConvertToString, hat]

theorem returns_isString : Returns (luaIsString i) L true L := by
  simp [Returns, luaIsString, Code.read, hat]

end

def storeAnswer : Except Failure Unit → Value
  | .ok () => .nil
  | .error (.exception what) => .string (cString what)
  | .error .unknown => .string (cString "Unknow store error")

theorem returns_store (method : StoreMethod) (fuel : Nat) (key b : String) {table table' : KvTable}
    {stored : Except Failure Unit} (hstored : Returns (attempt (storeValue pg
      (toUnsigned method.projectId) (cString key) (cString b)) : Code Thrown KvTable _) table
        stored table') :
    Returns (method.execute pg J (fuel + 1) numberText)
      (calledWith heap self function [.string b, .string key], table) ()
      ({ stack := [storeAnswer stored], heap := heap }, table') := by
  have hat : (calledWith heap self function [.string b, .string key]).at 3 =
      some (.string key) := rfl
  have hvalue : Returns (Serializer.toString J (fuel + 1) none)
      (calledWith heap self function [.string b, .string key]) (cString b) _ :=
    Http.ClientMethod.toString_string rfl
  unfold StoreMethod.execute
  refine Returns.bind (Returns.onPrivate (c := luaGetTop) rfl table) ?_
  refine Returns.bind ((returns_isString hat).onPrivate table) ?_
  refine Returns.bind ((returns_key hat).onPrivate table) ?_
  refine Returns.bind (hvalue.onPrivate table) ?_
  refine Returns.bind (Returns.onPrivate (c := luaClear) rfl table) ?_
  refine Returns.bind (hstored.onShared _) ?_
  rcases stored with (what | _) | ⟨⟩ <;> rfl

theorem returns_get (method : GetMethod) (key : String) (table : KvTable) :
    Returns (method.execute pg numberText) (calledWith heap self function [.string key], table)
      (fetched (pg.answer (cString key)
        (table.lookup (method.projectId.toInt, cString key)))).result
      ({ stack := [.userdata "StorageResult"], heap := heap }, table) := by
  have hat : (calledWith heap self function [.string key]).at 3 = some (.string key) := rfl
  have hget : Returns (attempt (Kv.getValue pg (toUnsigned method.projectId) (cString key)) :
      Code Thrown KvTable _) table
      (pg.answer (cString key) (table.lookup (method.projectId.toInt, cString key))) table :=
    getValue_attempt ..
  unfold GetMethod.execute
  refine Returns.bind (Returns.onPrivate (c := luaGetTop) rfl table) ?_
  refine Returns.bind ((returns_isString hat).onPrivate table) ?_
  refine Returns.bind (Returns.onPrivate (returns_key (i := -1) rfl) table) ?_
  refine Returns.bind (Returns.onPrivate (c := luaClear) rfl table) ?_
  refine Returns.bind (hget.onShared _) ?_
  exact Returns.bind (Returns.onPrivate (c := luaPush _) rfl table) (.pure _ _)

def castAnswer (result : StorageResult) : List Value :=
  if result.isError then [.string (cString result.value), .nil]
  else [.nil, .string (cString result.value)]

theorem returns_cast (fuel : Nat) (result : StorageResult) :
    Returns (result.cast J (fuel + 1) .string) (calledWith heap self function []) ()
      { stack := castAnswer result, heap := heap } := by
  obtain ⟨value, isError⟩ := result
  cases isError <;> rfl

-- ---------------------------------------------------------------------------
-- The five crossings
-- ---------------------------------------------------------------------------

variable {projectId : ProjectIdType} {b key other : String}

end LambdaExecutor.Engine
