import LambdaExecutor.Formats.Json
import LambdaExecutor.Lua.State

/-!
# Serializing a Lua value

`Serializer` walks the value on the stack and builds a JSON value. `fuel` bounds
the calls and the steps of the loops: code that needs more of it does not return.
-/

namespace LambdaExecutor.Lua.Serializer

open Raii Raii.Code Formats

/-- `idx.value_or(top)`. -/
def valueOr (idx : Option Nat) (top : Int) : Int := (idx.map Int.ofNat).getD top

def luaStringToValue (idx : Option Nat) : LuaCode Json := do
  return .string (← luaToString (valueOr idx (-1)))

def luaNumberToValue (J : JsonLibrary) (idx : Option Nat) : LuaCode Json := do
  ofLibrary (J.ofDouble (← luaToNumber (valueOr idx (-1))))

def luaBooleanToValue (idx : Option Nat) : LuaCode Json := do
  return .bool (← luaToBoolean (valueOr idx (-1)))

def typeError (type : LuaType) : String :=
  "Can't serialize lua object with such type (type = " ++ type.name ++ ")"

def keyTypeError (type : LuaType) : String :=
  "The table key must have a string or number type (actual type = " ++ type.name ++ ")"

mutual
def toValue (J : JsonLibrary) : Nat → Option Nat → LuaCode Json
  | 0, _ => terminate
  | fuel + 1, idx => do
    let type ← luaType (valueOr idx (-1))
    match type with
    | .string => luaStringToValue idx
    | .number => luaNumberToValue J idx
    | .boolean => luaBooleanToValue idx
    | .table => do
      luaPushNil
      tableLoop J fuel idx .null
    | _ => throwRuntimeError (typeError type)
/-- The loop of `LuaTableToValue`, from the call of `lua_next` on. -/
def tableLoop (J : JsonLibrary) : Nat → Option Nat → Json → LuaCode Json
  | 0, _, _ => terminate
  | fuel + 1, idx, builder => do
    if ← luaNext (valueOr idx (-2)) then
      let type ← luaType (-2)
      if type ≠ .string ∧ type ≠ .number then
        luaPop 3
        throwRuntimeError (keyTypeError type)
      else do
        let value ← catchAll (toValue J fuel none) (luaPop 3)
        let builder ← if type = .string
          then do ofLibrary (J.emplaceNocheck builder (← luaToString (-2)) value)
          else ofLibrary (J.pushBack builder value)
        luaPop 1
        tableLoop J fuel idx builder
    else return builder
end

/-- `Serializer::ToString`. The text of a string is the string itself. -/
def toString (J : JsonLibrary) (fuel : Nat) (idx : Option Nat) : LuaCode String := do
  match ← toValue J fuel idx with
  | .string s => return s
  | value => return J.toString value

end LambdaExecutor.Lua.Serializer
