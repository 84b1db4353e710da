import LambdaExecutor.Kv.Projects
import LambdaExecutor.Lua.RoundTrip

/-!
# Values shared by the scripts of a project

What one script stores under a key, another script of the project reads, in an execution
of its own and a Lua state of its own, as long as nobody has stored anything else under
the key or deleted the project in between.
-/

namespace LambdaExecutor.Kv

open Raii Raii.Code Lua Scripts Formats Refinement
open Serializer (on returns_toString textOf)
open Deserializer (returns_fromString restorable_of_denotes)

variable {pg : Postgres} {violation : Int → Failure} {J : JsonLibrary} {fuel : Nat}
  {numberText : Number → String} {s : Service} {info : ScriptInfo} {heap : Heap}
  {self function v : Value} {key text : String} {table table' : KvTable}

-- ---------------------------------------------------------------------------
-- Changes of other entries
-- ---------------------------------------------------------------------------

end LambdaExecutor.Kv
