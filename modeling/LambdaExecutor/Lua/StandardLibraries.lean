import LambdaExecutor.Lua.Value

/-!
# The standard libraries

The heap after `luaL_openlibs`. Every library is the value of a global and of an
entry of `package.loaded`. A function is named by its library and its name in it.
-/

namespace LambdaExecutor.Lua

def globalsRef : TableRef := 0
def packageRef : TableRef := 1
def loadedRef : TableRef := 2
def preloadRef : TableRef := 3
def searchersRef : TableRef := 4
def coroutineRef : TableRef := 5
def tableRef : TableRef := 6
def ioRef : TableRef := 7
def osRef : TableRef := 8
def stringRef : TableRef := 9
def mathRef : TableRef := 10
def utf8Ref : TableRef := 11
def debugRef : TableRef := 12

/-- The entries of `package.loaded`. -/
def loadedLibraries : List (String × TableRef) :=
  [("_G", globalsRef), ("package", packageRef), ("coroutine", coroutineRef), ("table", tableRef),
    ("io", ioRef), ("os", osRef), ("string", stringRef), ("math", mathRef), ("utf8", utf8Ref),
    ("debug", debugRef)]

def libraryEntries (libraries : List (String × TableRef)) : Table :=
  libraries.map fun entry => (.string entry.1, .table entry.2)

def functions (library : String) (names : List String) : Table :=
  names.map fun name => (.string name, .function library name)

def baseFunctions : List String :=
  ["assert", "collectgarbage", "dofile", "error", "getmetatable", "ipairs", "loadfile", "load",
    "next", "pairs", "pcall", "print", "warn", "rawequal", "rawlen", "rawget", "rawset", "select",
    "setmetatable", "tonumber", "tostring", "type", "xpcall", "require"]

theorem isBinary64_pi : Binary64.IsBinary64 (884279719003555 / 281474976710656) :=
  ⟨884279719003555, -48, by norm_num, by norm_num, by norm_num, by norm_num⟩

/-- The tables in the order of their references. -/
def openLibs : Heap :=
  [functions "_G" baseFunctions ++ ((.string "_VERSION", .string "Lua 5.4") ::
      libraryEntries loadedLibraries : Table),
    functions "package" ["loadlib", "searchpath"] ++
      ([(.string "config", .string "/\n;\n?\n!\n-\n"), (.string "path", .string "./?.lua"),
        (.string "cpath", .string "./?.so"), (.string "loaded", .table loadedRef),
        (.string "preload", .table preloadRef),
        (.string "searchers", .table searchersRef)] : Table),
    libraryEntries loadedLibraries,
    [],
    [(.number (.integer 1), .function "package" "searcher_preload"),
      (.number (.integer 2), .function "package" "searcher_Lua"),
      (.number (.integer 3), .function "package" "searcher_C"),
      (.number (.integer 4), .function "package" "searcher_Croot")],
    functions "coroutine" ["create", "isyieldable", "resume", "running", "status", "wrap", "yield",
      "close"],
    functions "table" ["concat", "insert", "pack", "unpack", "remove", "move", "sort"],
    functions "io" ["close", "flush", "input", "lines", "open", "output", "popen", "read",
      "tmpfile", "type", "write"] ++
      ([(.string "stdin", .userdata "stdin"), (.string "stdout", .userdata "stdout"),
        (.string "stderr", .userdata "stderr")] : Table),
    functions "os" ["clock", "date", "difftime", "execute", "exit", "getenv", "remove", "rename",
      "setlocale", "time", "tmpname"],
    functions "string" ["byte", "char", "dump", "find", "format", "gmatch", "gsub", "len", "lower",
      "match", "rep", "reverse", "sub", "upper", "pack", "packsize", "unpack"],
    functions "math" ["abs", "ceil", "floor", "max", "min", "fmod", "modf", "log", "exp", "sqrt",
      "sin", "cos", "tan", "asin", "acos", "atan", "tointeger", "type", "ult", "random",
      "randomseed"] ++
      ([(.string "pi", .number (.float (.finite _ isBinary64_pi))),
        (.string "huge", .number (.float (.infinity false))),
        (.string "maxinteger", .number (.integer Int64.maxValue)),
        (.string "mininteger", .number (.integer Int64.minValue))] : Table),
    functions "utf8" ["offset", "codepoint", "char", "len", "codes"] ++
      ([(.string "charpattern", .string "[\x00-\x7F\xC2-\xFD][\x80-\xBF]*")] : Table),
    functions "debug" ["debug", "getuservalue", "gethook", "getinfo", "getlocal", "getregistry",
      "getmetatable", "getupvalue", "upvaluejoin", "upvalueid", "setuservalue", "sethook",
      "setlocal", "setmetatable", "setupvalue", "traceback", "setcstacklimit"]]

namespace Heap

def rawget (h : Heap) (t : TableRef) (k : Value) : Value :=
  match h[t]? with
  | some entries => entries.get k.toKey
  | none => .nil

/-- A missing table is left out. -/
def rawset (h : Heap) (t : TableRef) (k v : Value) : Heap :=
  h.modify t fun table => table.set k.toKey v

@[simp] theorem length_rawset (h : Heap) (t : TableRef) (k v : Value) :
    (h.rawset t k v).length = h.length := List.length_modify ..

theorem getElem?_rawset (h : Heap) (t u : TableRef) (k v : Value) :
    (h.rawset t k v)[u]? = if t = u then h[u]?.map (·.set k.toKey v) else h[u]? := by
  rw [rawset, List.getElem?_modify]
  split <;> simp

theorem rawget_rawset_self {h : Heap} {t : TableRef} {k v : Value} (ht : t < h.length)
    (hv : v ≠ .nil) : (h.rawset t k v).rawget t k = v := by
  unfold rawget
  rw [getElem?_rawset, if_pos rfl, List.getElem?_eq_getElem ht]
  exact Table.get_set_self hv

theorem rawget_mem {h : Heap} {t : TableRef} {k : Value} (hne : h.rawget t k ≠ .nil) :
    ∃ entries, h[t]? = some entries ∧ (k.toKey, h.rawget t k) ∈ entries := by
  unfold rawget at hne ⊢
  split at hne
  next entries ht => exact ⟨entries, ht, by simpa [ht] using Table.get_mem.resolve_left hne⟩
  next => exact absurd rfl hne

end Heap

end LambdaExecutor.Lua
