import LambdaExecutor.Formats.Json
import LambdaExecutor.Lua.State

/-!
# Deserializing a Lua value

`Deserializer` pushes the value of a text. A value inside a table is printed and
read again on its own, so the recursion is not on the JSON value but on texts;
`fuel` bounds its depth.
-/

namespace LambdaExecutor.Lua.Deserializer

open Raii Raii.Code Formats

/-- `utils::Type`. -/
inductive DataType
  | string
  | number
  | boolean
  | table
  deriving DecidableEq, Repr

theorem natAbs_toNat_lt (i : UInt64) : (i.toNat : Int).natAbs < 2 ^ 64 := i.toNat_lt

def ofSize (i : UInt64) : Double :=
  .finite (Binary64.roundInt i.toNat) (Binary64.isBinary64_roundInt (natAbs_toNat_lt i))

def pushString (value : String) : LuaCode Unit := luaPushString value

def pushNumber (J : JsonLibrary) (value : String) : LuaCode Unit := do
  luaPushNumber (← ofLibrary (J.lexicalCast value))

def pushBoolean (value : String) : LuaCode Unit := luaPushBoolean (value = "true")

def getType : Json → LuaCode DataType
  | .bool _ => pure .boolean
  | .number _ => pure .number
  | .string _ => pure .string
  | .object _ | .array _ => pure .table
  | .null => throwRuntimeError "Unexpected json value type"

/-- The text which `PushValue` passes on. -/
def valueText (J : JsonLibrary) : Json → String
  | .string s => s
  | value => J.toString value

section Tables

variable (fromString : DataType → String → LuaCode Unit)

def pushValue (J : JsonLibrary) (value : Json) : LuaCode Unit := do
  let type ← getType value
  catchAll (fromString type (valueText J value)) (luaPop 2)

def pushMembers (J : JsonLibrary) : List (String × Json) → LuaCode Unit
  | [] => pure ()
  | (key, value) :: members => do
    luaPushString key
    pushValue fromString J value
    luaSetTable (-3)
    pushMembers J members

def pushItems (J : JsonLibrary) (i : UInt64) : List Json → LuaCode Unit
  | [] => pure ()
  | value :: items => do
    luaPushNumber (ofSize i)
    pushValue fromString J value
    luaSetTable (-3)
    pushItems J (i + 1) items

def pushTable (J : JsonLibrary) (value : String) : LuaCode Unit := do
  let json ← ofLibrary (J.fromString value)
  luaNewTable
  match json with
  | .object members => pushMembers fromString J members
  | .array items => pushItems fromString J 1 items
  | _ => do
    luaPop 1
    throwRuntimeError "Value is not a table"

end Tables

/-- `Deserializer::FromString`. -/
def fromString (J : JsonLibrary) : Nat → DataType → String → LuaCode Unit
  | 0, _, _ => terminate
  | _ + 1, .string, value => pushString value
  | _ + 1, .number, value => pushNumber J value
  | _ + 1, .boolean, value => pushBoolean value
  | fuel + 1, .table, value => pushTable (fromString J fuel) J value

end LambdaExecutor.Lua.Deserializer
