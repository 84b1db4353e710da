import LambdaExecutor.Engine.Environment
import LambdaExecutor.Lua.StandardLibraries

/-!
# What a script can reach

A script reads and writes globals, reads fields of values that it has obtained
and calls `require`. The values which these steps yield are followed from the
state that `CreateLuaState` and `ExecutionGuard` leave.
-/

namespace LambdaExecutor.Engine.Sandbox

open Lua

-- ---------------------------------------------------------------------------
-- The globals
-- ---------------------------------------------------------------------------

mutual
/-- `PushValue`: a table is made anew, with its fields. -/
def push (h : Heap) : LuaObject → Value × Heap
  | .nil => (.nil, h)
  | .boolean b => (.boolean b, h)
  | .number d => (.number (.float d), h)
  | .string s => (.string s, h)
  | .table fields => (.table h.length, pushFields (h ++ [[]]) h.length fields)
  | .function library name => (.function library name, h)
  | .userdata name => (.userdata name, h)
  | .thread t => (.thread t, h)
def pushFields (h : Heap) (t : TableRef) : List (Key × LuaObject) → Heap
  | [] => h
  | (key, object) :: rest =>
    pushFields ((push h object).2.rawset t key.toValue (push h object).1) t rest
end

def pushGlobal (h : Heap) (name : String) (object : LuaObject) : Heap :=
  (push h object).2.rawset globalsRef (.string name) (push h object).1

def createLuaState (version : String) : Heap :=
  openLibs.rawset globalsRef (.string "_luacppversion") (.string version)

def pushGlobals (h : Heap) (env : LuaEnvironment) : Heap :=
  env.foldl (fun h entry => pushGlobal h entry.1 entry.2) h

-- ---------------------------------------------------------------------------
-- The steps of a script
-- ---------------------------------------------------------------------------

inductive Constant
  | nil
  | boolean (b : Bool)
  | number (n : Number)
  | string (s : String)
  deriving DecidableEq

def Constant.toValue : Constant → Value
  | .nil => .nil
  | .boolean b => .boolean b
  | .number n => .number n
  | .string s => .string s

/-- A value which the script writes down or has obtained. -/
inductive Source
  | constant (c : Constant)
  | held (i : Nat)
  deriving DecidableEq

inductive Step
  | readGlobal (name : String)
  | writeGlobal (name : String) (value : Source)
  | readField (object : Nat) (key : Source)
  | require (name : String)
  deriving DecidableEq

/-- The heap, and the values which the steps have yielded in their order. -/
structure State where
  heap : Heap
  held : List Value

def State.value (s : State) : Source → Option Value
  | .constant c => some c.toValue
  | .held i => s.held[i]?

def State.hold (s : State) (v : Value) : State := { s with held := s.held ++ [v] }

def nativeField (object : String) (key : Value) : Value :=
  if object = httpClientVariableName ∧ key = .string "send" then
    .userdata "miet_http_client.send"
  else if object = storageVariableName ∧ key = .string "store" then
    .userdata "miet_kv_storage.store"
  else if object = storageVariableName ∧ key = .string "get" then
    .userdata "miet_kv_storage.get"
  else .nil

/-- The field of a value, or `none` for a value that cannot be indexed. A string
has the fields of the string library. -/
def field (h : Heap) (key : Value) : Value → Option Value
  | .table t => some (h.rawget t key)
  | .string _ => some (h.rawget stringRef key)
  | .userdata name => some (nativeField name key)
  | _ => none

/-- What the searchers find under a name: the value that the module's code returns. -/
abbrev Searchers := String → Option LuaObject

/-- The built-in function. A module which is not loaded yet is searched for and
its value kept; a module without a value counts as `true`. -/
def require (search : Searchers) (name : String) (h : Heap) : Option (Value × Heap) :=
  if (h.rawget loadedRef (.string name)).toBoolean then
    some (h.rawget loadedRef (.string name), h)
  else
    (search name).map fun module =>
      let pushed := push h module
      let value := if pushed.1 = .nil then .boolean true else pushed.1
      (value, pushed.2.rawset loadedRef (.string name) value)

/-- A step which fails leaves the state as it is. -/
def step (search : Searchers) (s : State) : Step → State
  | .readGlobal name => s.hold (s.heap.rawget globalsRef (.string name))
  | .writeGlobal name value =>
    match s.value value with
    | some v => { s with heap := s.heap.rawset globalsRef (.string name) v }
    | none => s
  | .readField object key =>
    match s.held[object]?, s.value key with
    | some v, some k =>
      match field s.heap k v with
      | some field => s.hold field
      | none => s
    | _, _ => s
  | .require name =>
    match require search name s.heap with
    | some (v, h) => { heap := h, held := s.held ++ [v] }
    | none => s

def State.init (version : String) (x : Setup) : State :=
  { heap := pushGlobals (createLuaState version) x.environment, held := [] }

def run (search : Searchers) (script : List Step) (s : State) : State :=
  script.foldl (step search) s

-- ---------------------------------------------------------------------------
-- The values to be kept from the script
-- ---------------------------------------------------------------------------

def unsafeLibraries (ndebug : Bool) : List (String × TableRef) :=
  [("os", osRef), ("io", ioRef), ("package", packageRef)] ++
    if ndebug then [("debug", debugRef)] else []

def loaders : List Value :=
  [.function "_G" "load", .function "_G" "loadfile", .function "_G" "dofile"]

def unsafeValues (ndebug : Bool) : List Value :=
  (unsafeLibraries ndebug).map (fun library => .table library.2) ++ loaders

def State.Safe (ndebug : Bool) (s : State) : Prop :=
  ∀ v ∈ s.held, v ∉ unsafeValues ndebug

end LambdaExecutor.Engine.Sandbox
