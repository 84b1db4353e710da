/-!
# Exceptions

The exception types of `exceptions.hpp`, and `stdException` for every other
exception derived from `std::exception`, each with the text of its `what()`.
-/

namespace LambdaExecutor

inductive Exception
  | notFoundScriptError (what : String)
  | compilationError (what : String)
  | executionError (what : String)
  | executionTimeout (what : String)
  | outOfMemoryLimit (what : String)
  | stdException (what : String)
  deriving DecidableEq, Repr

def Exception.what : Exception → String
  | .notFoundScriptError what | .compilationError what | .executionError what
  | .executionTimeout what | .outOfMemoryLimit what | .stdException what => what

end LambdaExecutor
