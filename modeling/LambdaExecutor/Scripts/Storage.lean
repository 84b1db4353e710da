import LambdaExecutor.Exceptions
import LambdaExecutor.Library.EvictingMap
import Mathlib.Data.List.Basic

/-!
# The scripts storage

`ScriptsStorage` loads scripts from the database through a fetcher and a
compiler and keeps compiled scripts in an LRU map. Scripts are shared objects:
the map and the callers hold pointers (`ScriptPtr`, an index into `objects`),
and the ids of a script are filled in after it was created.

The compiler and the LRU map are not part of the repository: the compiler is a
function `compile`, the map any `EvictingMap`. The operations are written over
the primitive steps of `Store`, which the interleaving machine of
`Scripts.Machine` shares.
-/

namespace LambdaExecutor.Scripts

inductive ScriptLanguage
  | stub
  | lua
  | js
  deriving DecidableEq, Repr

abbrev ScriptIdType := BitVec 64
abbrev ProjectIdType := BitVec 64

-- ---------------------------------------------------------------------------
-- The database and the fetcher
-- ---------------------------------------------------------------------------

/-- The columns of a row of `scripts` that the fetcher reads. Column
`parent_project_id` may be `NULL`. -/
structure ScriptRow where
  parentProjectId : Option Int
  sourceCode : String
  deriving DecidableEq, Repr

/-- Table `scripts`, by the `id` column. `versions` counts the changes of a
row; the code never sees it. -/
structure Database where
  rows : Int → Option ScriptRow
  versions : Int → Nat

def Database.change (db : Database) (id : Int) (row : Option ScriptRow) : Database where
  rows other := if other = id then row else db.rows other
  versions other := if other = id then db.versions id + 1 else db.versions other

theorem Database.versions_le_change (db : Database) (id other : Int) (row : Option ScriptRow) :
    db.versions other ≤ (db.change id row).versions other := by
  by_cases h : other = id
  · simp [Database.change, h]
  · simp [Database.change, h]

/-- `fetchers::ScriptInfo`, with the version of the row it was read from. -/
structure ScriptInfo where
  id : ScriptIdType
  projectId : ProjectIdType
  sourceCode : String
  version : Nat
  deriving DecidableEq, Repr

/-- `DBScriptsFetcher::Fetch`. The id is cast to the signed `Bigint`; reading a
`NULL` project id as a `Bigint` throws. -/
def fetch (db : Database) (id : ScriptIdType) : Except Exception ScriptInfo :=
  match db.rows id.toInt with
  | none =>
    .error (.notFoundScriptError ("No script with such id (id = " ++ toString id.toNat ++ ")"))
  | some row =>
    match row.parentProjectId with
    | none => .error (.stdException "NULL value for a non-nullable field")
    | some projectId =>
      .ok { id, projectId := BitVec.ofInt 64 projectId, sourceCode := row.sourceCode,
            version := db.versions id.toInt }

theorem fetch_version {db : Database} {id : ScriptIdType} {info : ScriptInfo}
    (h : fetch db id = .ok info) : info.version = db.versions id.toInt := by
  unfold fetch at h
  split at h
  · cases h
  · split at h <;> cases h
    rfl

-- ---------------------------------------------------------------------------
-- Script objects and the cache
-- ---------------------------------------------------------------------------

/-- `ScriptBase` and the compiled code. Both ids are uninitialised until they
are set. `version` is that of the row the source was read from. -/
structure Script (Code : Type) where
  language : ScriptLanguage
  projectId : Option ProjectIdType
  scriptId : Option ScriptIdType
  code : Code
  version : Nat
  deriving DecidableEq, Repr

abbrev ScriptPtr := Nat

section
variable {Code : Type} {M : EvictingMap ScriptIdType ScriptPtr}

/-- All script objects ever created, and the map `scripts_`. -/
structure Store (Code : Type) (M : EvictingMap ScriptIdType ScriptPtr) where
  objects : List (Script Code)
  cache : M.State

def Store.new : Store Code M := { objects := [], cache := M.empty }

def Store.cached (st : Store Code M) (id : ScriptIdType) : Option ScriptPtr :=
  M.contents st.cache id

def Store.create (st : Store Code M) (code : Code) (version : Nat) : ScriptPtr × Store Code M :=
  (st.objects.length,
    { st with objects := st.objects ++
      [{ language := .lua, projectId := none, scriptId := none, code, version }] })

def Store.setScriptId (st : Store Code M) (script : ScriptPtr) (id : ScriptIdType) : Store Code M :=
  { st with objects := st.objects.modify script fun object => { object with scriptId := some id } }

def Store.setProjectId (st : Store Code M) (script : ScriptPtr) (id : ProjectIdType) :
    Store Code M :=
  { st with objects := st.objects.modify script fun object => { object with projectId := some id } }

/-- `lock->Get(scriptId)`. -/
def Store.lookup (st : Store Code M) (id : ScriptIdType) : Option ScriptPtr × Store Code M :=
  ((M.get st.cache id).1, { st with cache := (M.get st.cache id).2 })

/-- `lock->Put(scriptId, script)`. -/
def Store.put (st : Store Code M) (id : ScriptIdType) (script : ScriptPtr) : Store Code M :=
  { st with cache := M.put st.cache id script }

@[simp] theorem Store.cached_new (id : ScriptIdType) :
    (Store.new : Store Code M).cached id = none := M.contents_empty id

@[simp] theorem Store.lookup_value (st : Store Code M) (id : ScriptIdType) :
    (st.lookup id).1 = st.cached id := M.get_value st.cache id

@[simp] theorem Store.cached_lookup (st : Store Code M) (id : ScriptIdType) :
    (st.lookup id).2.cached = st.cached := M.get_contents st.cache id

@[simp] theorem Store.objects_lookup (st : Store Code M) (id : ScriptIdType) :
    (st.lookup id).2.objects = st.objects := rfl

@[simp] theorem Store.objects_put (st : Store Code M) (id : ScriptIdType) (script : ScriptPtr) :
    (st.put id script).objects = st.objects := rfl

theorem Store.cached_put (st : Store Code M) {id other : ScriptIdType} {script p : ScriptPtr}
    (h : (st.put id script).cached other = some p) :
    (other = id ∧ p = script) ∨ (other ≠ id ∧ st.cached other = some p) := M.put_cases h

theorem Store.create_get (st : Store Code M) (code : Code) (version : Nat) :
    (st.create code version).2.objects[(st.create code version).1]? =
      some { language := .lua, projectId := none, scriptId := none, code, version } := by
  simp [Store.create]

theorem Store.create_get_of_lt (st : Store Code M) (code : Code) (version : Nat) {p : ScriptPtr}
    (hp : p < st.objects.length) :
    (st.create code version).2.objects[p]? = st.objects[p]? := by
  simp [Store.create, List.getElem?_append_left hp]

theorem Store.setScriptId_get (st : Store Code M) (script : ScriptPtr) (id : ScriptIdType) :
    (st.setScriptId script id).objects[script]? =
      st.objects[script]?.map fun object => { object with scriptId := some id } := by
  simp [Store.setScriptId]

theorem Store.setScriptId_get_ne (st : Store Code M) {script p : ScriptPtr} (id : ScriptIdType)
    (h : p ≠ script) : (st.setScriptId script id).objects[p]? = st.objects[p]? := by
  simp [Store.setScriptId, Ne.symm h]

theorem Store.setProjectId_get (st : Store Code M) (script : ScriptPtr) (id : ProjectIdType) :
    (st.setProjectId script id).objects[script]? =
      st.objects[script]?.map fun object => { object with projectId := some id } := by
  simp [Store.setProjectId]

theorem Store.setProjectId_get_ne (st : Store Code M) {script p : ScriptPtr} (id : ProjectIdType)
    (h : p ≠ script) : (st.setProjectId script id).objects[p]? = st.objects[p]? := by
  simp [Store.setProjectId, Ne.symm h]

-- ---------------------------------------------------------------------------
-- Get and Refresh
-- ---------------------------------------------------------------------------

variable (compile : String → Except Exception Code)

/-- The four statements which `Get` (twice) and `Refresh` share: fetch, compile,
set the script id, set the project id. -/
def load (db : Database) (st : Store Code M) (id : ScriptIdType) :
    Except Exception ScriptPtr × Store Code M :=
  match fetch db id with
  | .error e => (.error e, st)
  | .ok info =>
    match compile info.sourceCode with
    | .error e => (.error e, st)
    | .ok code =>
      let (script, st) := st.create code info.version
      (.ok script, (st.setScriptId script id).setProjectId script info.projectId)

def get (useCache : Bool) (db : Database) (st : Store Code M) (id : ScriptIdType) :
    Except Exception ScriptPtr × Store Code M :=
  if useCache then
    match st.lookup id with
    | (some cachedScript, st) => (.ok cachedScript, st)
    | (none, st) =>
      match load compile db st id with
      | (.error e, st) => (.error e, st)
      | (.ok script, st) => (.ok script, st.put id script)
  else load compile db st id

/-- `ScriptsStorage::Refresh`. It does not look at `useCache_`. -/
def refresh (db : Database) (st : Store Code M) (id : ScriptIdType) :
    Except Exception Unit × Store Code M :=
  match load compile db st id with
  | (.error e, st) => (.error e, st)
  | (.ok script, st) => (.ok (), st.put id script)

end

end LambdaExecutor.Scripts
