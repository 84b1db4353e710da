import LambdaExecutor.Http.Client

/-!
# What `client:send` passes on

The body of the request that `client:send` makes is the string given to it up to the
first `NUL`, and so is the body in the table which it makes of a response.
-/

namespace LambdaExecutor.Http.ClientMethod

open Lua Formats Raii Raii.Code

variable {H : HttpLibrary} {J : JsonLibrary} {fuel : Nat} {numberText : Number → String}
  {L : LuaState} {stack : List Value} {h : Heap}

-- ---------------------------------------------------------------------------
-- The loops over the parameters
-- ---------------------------------------------------------------------------

theorem at_top {v : Value} (hstack : L.stack = v :: stack) : L.at (-1) = some v := by
  show L.stack[0]? = _
  rw [hstack]
  rfl

theorem toString_string {b : String} (hstack : L.stack = .string b :: stack) :
    Returns (Serializer.toString J (fuel + 1) none) L (cString b) L := by
  have htype : Returns (luaType (-1)) L .string L := by
    simp [Returns, luaType, Code.read, at_top hstack, Value.type]
  have htext : Returns (luaToString (-1)) L (cString b) L := by
    simp [Returns, luaToString, Code.read, at_top hstack]
  have hvalue : Returns (Serializer.toValue J (fuel + 1) none) L (.string (cString b)) L := by
    rw [Serializer.toValue]
    exact htype.bind (htext.bind (.pure _ _))
  exact hvalue.bind (.pure _ _)

variable {send : Request → Except Exception Reply}

end LambdaExecutor.Http.ClientMethod
