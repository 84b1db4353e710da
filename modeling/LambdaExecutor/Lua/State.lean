import LambdaExecutor.Exceptions
import LambdaExecutor.Library.Raii
import LambdaExecutor.Lua.StandardLibraries

/-!
# The Lua stack

The functions of the Lua C API which the serializer and the deserializer call.
The top of the stack is the head of the list. A negative index counts from the
top, a positive one from the bottom.
-/

namespace LambdaExecutor.Lua

open Raii Raii.Code

structure LuaState where
  stack : List Value
  heap : Heap

/-- A C++ exception, or an error which Lua raises. -/
inductive Thrown
  | exception (e : Exception)
  | luaError (message : String)
  deriving DecidableEq, Repr

/-- An error of Lua has been raised, which a script can catch. -/
def Raised (thrown : Thrown) : Prop := ∃ message, thrown = .luaError message

abbrev LuaCode (α : Type) := Code Thrown LuaState α

def throwRuntimeError {α : Type} (what : String) : LuaCode α :=
  raise (.exception (.stdException what))

def ofLibrary {α : Type} (result : Except Exception α) : LuaCode α :=
  ofExcept (result.mapError .exception)

/-- `catch (...)` with a rethrow at its end; an error of Lua is no C++ exception. -/
def catchAll {α : Type} (body : LuaCode α) (cleanup : LuaCode Unit) : LuaCode α :=
  tryCatch body fun thrown =>
    match thrown with
    | .exception _ => do
      cleanup
      raise thrown
    | .luaError _ => raise thrown

def LuaState.at (L : LuaState) : Int → Option Value
  | .negSucc n => L.stack[n]?
  | .ofNat n => if n = 0 then none else L.stack.reverse[n - 1]?

def LuaState.set (L : LuaState) (idx : Int) (v : Value) : LuaState :=
  match idx with
  | .negSucc n => { L with stack := L.stack.set n v }
  | .ofNat n => { L with stack := L.stack.set (L.stack.length - n) v }

def luaGetTop : LuaCode Nat := read fun L => L.stack.length

/-- `lua_settop` with 0. -/
def luaClear : LuaCode Unit := modify fun L => { L with stack := [] }

def luaSetTop (n : Nat) : LuaCode Unit := modify fun L =>
  { L with stack := L.stack.drop (L.stack.length - n) }

def luaLError {α : Type} (message : String) : LuaCode α := raise (.luaError message)

def luaType (idx : Int) : LuaCode LuaType := read fun L => ((L.at idx).map Value.type).getD .none

/-- `lua_tostring` of a string, as the callee reads it through the pointer. -/
def luaToString (idx : Int) : LuaCode String := read fun L =>
  match L.at idx with
  | some (.string s) => cString s
  | _ => ""

/-- `lua_isstring`, which is true of numbers as well. -/
def luaIsString (idx : Int) : LuaCode Bool := read fun L =>
  match L.at idx with
  | some (.string _) | some (.number _) => true
  | _ => false

/-- `lua_tostring` of a value that may be a number, which becomes the string `text`
gives for it, also on the stack. -/
def luaConvertToString (text : Number → String) (idx : Int) : LuaCode String := fun L =>
  match L.at idx with
  | some (.string s) => .done (cString s) L
  | some (.number n) => .done (cString (text n)) (L.set idx (.string (text n)))
  | _ => .done "" L

/-- `lua_tonumber`, which gives 0 for what is no number. -/
def luaToNumber (idx : Int) : LuaCode Double := read fun L =>
  match L.at idx with
  | some (.number n) => n.toDouble
  | _ => Double.ofInt64 0

def luaToBoolean (idx : Int) : LuaCode Bool := read fun L =>
  ((L.at idx).map Value.toBoolean).getD false

def luaPush (v : Value) : LuaCode Unit := modify fun L => { L with stack := v :: L.stack }

def luaPop (n : Nat) : LuaCode Unit := modify fun L => { L with stack := L.stack.drop n }

def luaPushNil : LuaCode Unit := luaPush .nil

def luaPushString (s : String) : LuaCode Unit := luaPush (.string (cString s))

def luaPushNumber (d : Double) : LuaCode Unit := luaPush (.number (.float d))

def luaPushInteger (i : Int64) : LuaCode Unit := luaPush (.number (.integer i))

def luaPushBoolean (b : Bool) : LuaCode Unit := luaPush (.boolean b)

def luaNewTable : LuaCode Unit := modify fun L =>
  { stack := .table L.heap.length :: L.stack, heap := L.heap ++ [[]] }

/-- The entry after a key, or the first one after nil; `none` for a key that is not there. -/
def Table.next (t : Table) (k : Value) : Option (Option (Value × Value)) :=
  if k = .nil then some t.head?
  else
    match t.dropWhile (·.1 ≠ k) with
    | [] => none
    | _ :: rest => some rest.head?

/-- `lua_gettable` of a table without a metatable: the key on the top is replaced by the field. -/
def luaGetTable (idx : Int) : LuaCode LuaType := fun L =>
  match L.stack, L.at idx with
  | key :: rest, some (.table t) =>
    .done (L.heap.rawget t key).type { L with stack := L.heap.rawget t key :: rest }
  | _, _ => .threw (.luaError "attempt to index a value") L

def luaSetField (idx : Int) (key : String) : LuaCode Unit := fun L =>
  match L.stack, L.at idx with
  | value :: rest, some (.table t) =>
    .done () { stack := rest, heap := L.heap.rawset t (.string (cString key)) value }
  | _, _ => .threw (.luaError "attempt to index a value") L

def luaNextOn (t : Table) (k : Value) (rest : List Value) : LuaCode Bool := fun L =>
  match t.next k with
  | some (some (key, value)) => .done true { L with stack := value :: key :: rest }
  | some none => .done false { L with stack := rest }
  | none => .threw (.luaError "invalid key to 'next'") L

/-- `lua_next`: the key is popped, and the next entry pushed if there is one. -/
def luaNext (idx : Int) : LuaCode Bool := fun L =>
  match L.stack, L.at idx with
  | k :: rest, some (.table t) => luaNextOn (L.heap[t]?.getD []) k.toKey rest L
  | _, _ => .threw (.luaError "table expected") L

def luaSetTable (idx : Int) : LuaCode Unit := fun L =>
  match L.stack, L.at idx with
  | value :: key :: rest, some (.table t) =>
    if key = .nil then .threw (.luaError "index is nil") L
    else if key = .number (.float .nan) then .threw (.luaError "index is NaN") L
    else .done () { stack := rest, heap := L.heap.rawset t key value }
  | _, _ => .threw (.luaError "attempt to index a value") L

end LambdaExecutor.Lua
