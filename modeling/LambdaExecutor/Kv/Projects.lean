import LambdaExecutor.Database.Schema
import LambdaExecutor.Engine.ByteStrings
import LambdaExecutor.Library.Refinement

/-!
# The storage of projects that come and go

Instances fetch scripts and keep them in their caches, so a script may be executed when
its project is long gone. Whatever statements, fetches and calls of the storage follow
one another, a get answers with what the scripts of its project have last stored since
the project was inserted.
-/

namespace LambdaExecutor.Kv

open Raii Raii.Code Lua Scripts Formats Noninterference Refinement Database

-- ---------------------------------------------------------------------------
-- The arguments of a store
-- ---------------------------------------------------------------------------

/-- `StoreMethod::Execute` up to its statement, with the key and the text to be stored. -/
def storeArguments (J : JsonLibrary) (fuel : Nat) (numberText : Number → String) :
    LuaCode (String × String) := do
  let n ← luaGetTop
  if n ≠ 4 then
    luaLError ("Invalid arguments count (expected 2 (key, value), provided " ++
      toString ((n : Int) - 2) ++ ")")
  else if ¬ (← luaIsString 3) then
    luaLError "Expected a string type of 'key'"
  else
    let key ← luaConvertToString numberText 3
    let value ← Serializer.toString J fuel none
    luaClear
    return (key, value)

def tellStored : Except Failure Unit → KvCode Unit
  | .ok () => onPrivate luaPushNil
  | .error (.exception what) => onPrivate (luaPushString what)
  | .error .unknown => onPrivate (luaPushString "Unknow store error")

variable {pg : Postgres} {J : JsonLibrary} {fuel : Nat} {numberText : Number → String}

theorem store_eq (method : StoreMethod) : method.execute pg J fuel numberText =
    onPrivate (storeArguments J fuel numberText) >>= fun arguments =>
      onShared (attempt (storeValue pg (toUnsigned method.projectId) arguments.1 arguments.2)) >>=
        tellStored := by
  unfold StoreMethod.execute storeArguments
  rw [onPrivate_bind, bind_assoc]
  congr 1
  funext n
  by_cases hn : n ≠ 4
  · simp only [if_pos hn]
    rfl
  · simp only [if_neg hn, onPrivate_bind, bind_assoc]
    congr 1
    funext isString
    by_cases hstring : ¬ isString = true
    · simp only [if_pos hstring]
      rfl
    · simp only [if_neg hstring, onPrivate_bind, bind_assoc]
      congr 1

theorem returns_attempt_store (pg : Postgres) (projectId : Int64) (key value : String)
    (table : KvTable) : Returns
      (attempt (storeValue pg (toUnsigned projectId) key value) : Code Thrown KvTable _) table
      ((pg.column projectId.toInt key value).map fun _ => ())
      (Engine.storedTable pg projectId.toInt key value table) := by
  unfold Returns attempt Engine.storedTable
  rw [storeValue_eq, toSigned_toUnsigned]
  cases pg.column projectId.toInt key value <;> rfl

theorem tellStored_state (stored : Except Failure Unit) (s : LuaState × KvTable) :
    (tellStored stored s).state.2 = s.2 := by
  obtain (what | _) | ⟨⟩ := stored <;> rfl

theorem store_state (method : StoreMethod) (lua : LuaState) (table : KvTable) :
    (method.execute pg J fuel numberText (lua, table)).state.2 =
      match storeArguments J fuel numberText lua with
      | .done (key, value) _ => Engine.storedTable pg method.projectId.toInt key value table
      | .threw .. | .terminated _ => table := by
  rw [store_eq]
  cases harguments : storeArguments J fuel numberText lua with
  | done arguments lua' =>
    have hprivate : Returns (onPrivate (storeArguments J fuel numberText) : KvCode _)
        (lua, table) arguments (lua', table) := Returns.onPrivate harguments table
    have hshared := (returns_attempt_store pg method.projectId arguments.1 arguments.2
      table).onShared lua'
    rw [hprivate.bind_apply, hshared.bind_apply, tellStored_state]
  | threw e lua' =>
    have hprivate : Throws (onPrivate (storeArguments J fuel numberText) : KvCode _)
        (lua, table) e (lua', table) := by
      simp [Throws, onPrivate, zoom, harguments, Result.mapState]
    rw [hprivate.bind]
    rfl
  | terminated lua' =>
    show (Code.bind (onPrivate _) _ _).state.2 = table
    simp [Code.bind, onPrivate, zoom, harguments, Result.mapState, Result.state]

theorem get_state (method : GetMethod) (lua : LuaState) (table : KvTable) :
    (method.execute pg numberText (lua, table)).state.2 = table := by
  have hleaves : Separates False id (method.execute pg numberText) := by
    unfold GetMethod.execute
    refine (separates_onPrivate _).bind fun n => .ite (separates_onPrivate _) ?_
    refine (separates_onPrivate _).bind fun isString => .ite (separates_onPrivate _) ?_
    refine (separates_onPrivate _).bind fun key => (separates_onPrivate _).bind fun _ => ?_
    refine Separates.bind ⟨False.elim, fun _ => leavesView_onShared fun table => ?_⟩ fun value => ?_
    · rw [getValue_attempt]
      rfl
    · exact (separates_onPrivate _).bind fun _ => separates_pure _
  exact hleaves.2 not_false (lua, table)

-- ---------------------------------------------------------------------------
-- The service
-- ---------------------------------------------------------------------------

/-- PostgreSQL with the foreign key of `projects_kv_storage` as the tables stand. -/
def Postgres.over (pg : Postgres) (violation : Int → Failure) (t : Tables) : Postgres :=
  { pg with isProject := fun p => if p ∈ t.projects then .ok () else .error (violation p) }

/-- The database, and the scripts that any instance has fetched and may still execute. -/
structure Service where
  tables : Tables
  loaded : List ScriptInfo

def Service.init : Service := { tables := .empty, loaded := [] }

inductive Event
  | statement (st : Statement)
  | fetch (id : ScriptIdType)
  | call (script : Nat) (method : Method) (lua : LuaState)

/-- The project that the storage of the script works for. -/
def projectOf (info : ScriptInfo) : Int := (toSigned info.projectId).toInt

section
variable (pg : Postgres) (violation : Int → Failure) (J : JsonLibrary) (fuel : Nat)
  (numberText : Number → String)

def Service.call (s : Service) (info : ScriptInfo) (method : Method) (lua : LuaState) :
    Result Thrown (LuaState × KvTable) (Option StorageResult) :=
  (Storage.new info.projectId).call (pg.over violation s.tables) J fuel numberText method
    (lua, s.tables.kvStorage)

/-- A statement or a fetch that fails changes nothing. -/
def Service.step (s : Service) : Event → Option Service
  | .statement st => some { s with tables := (s.tables.execute st).getD s.tables }
  | .fetch id =>
    match fetch s.tables.database id with
    | .ok info => some { s with loaded := s.loaded ++ [info] }
    | .error _ => some s
  | .call i method lua => (s.loaded[i]?).map fun info => { s with
      tables := { s.tables with
        kvStorage := (s.call pg violation J fuel numberText info method lua).state.2 } }

inductive Change
  | stored (project : Int) (key value : String)
  | deleted (project : Int → Bool)

def Service.stored (s : Service) (info : ScriptInfo) (lua : LuaState) : Option Change :=
  match storeArguments J fuel numberText lua with
  | .done (key, value) _ =>
    match (pg.over violation s.tables).column (projectOf info) key value with
    | .ok column => some (.stored (projectOf info) column value)
    | .error _ => none
  | .threw .. | .terminated _ => none

def Service.change (s : Service) : Event → Option Change
  | .statement (.deleteUser id) => some (.deleted (s.tables.isProjectOf id))
  | .statement (.deleteProject id) => some (.deleted fun other => other = id)
  | .call i .store lua => do s.stored pg violation J fuel numberText (← s.loaded[i]?) lua
  | .call _ .get _ | .fetch _ | .statement _ => none

/-- The changes of a run, the last one first. -/
def history (events : List Event) : List Change :=
  (effects (Service.step pg violation J fuel numberText)
    (Service.change pg violation J fuel numberText) .init events).reverse

end

/-- What was stored last under a key since the project was last deleted. -/
def latest (project : Int) (key : String) : List Change → Option String
  | [] => none
  | .stored p k value :: earlier =>
    if p = project ∧ k = key then some value else latest project key earlier
  | .deleted gone :: earlier => if gone project then none else latest project key earlier

-- ---------------------------------------------------------------------------
-- What a step does
-- ---------------------------------------------------------------------------

variable {violation : Int → Failure} {s next : Service} {t t' : Tables}

theorem lookup_cascade (gone : Int → Bool) (p : Int) (key : String) (table : KvTable) :
    (Sql.cascade kvProject gone table).lookup (p, key) =
      if gone p then none else table.lookup (p, key) := by
  refine Option.ext fun value => Sql.lookup_deleteRows_eq_some.trans ?_
  cases hgone : gone p <;> simp [kvProject, hgone]

theorem project_of_column {project : Int} {key value column : String}
    (h : (pg.over violation t).column project key value = .ok column) : project ∈ t.projects := by
  simp only [Postgres.column, Http.bind_ok] at h
  obtain ⟨-, -, -, -, -, -, column', -, project', hproject, -⟩ := h
  simp only [Postgres.over] at hproject
  split at hproject
  · assumption
  · cases hproject

theorem lookup_storedTable_over (project : Int) (key value : String) (p : Int) (k : String) :
    (Engine.storedTable (pg.over violation t) project key value t.kvStorage).lookup (p, k) =
      match (pg.over violation t).column project key value with
      | .ok column => if project = p ∧ column = k then some value else t.kvStorage.lookup (p, k)
      | .error _ => t.kvStorage.lookup (p, k) := by
  unfold Engine.storedTable
  cases (pg.over violation t).column project key value with
  | error e => rfl
  | ok column =>
    by_cases hk : (p, k) = (project, column)
    · obtain ⟨rfl, rfl⟩ := Prod.mk.inj hk
      simp [AList.lookup_insert]
    · rw [AList.lookup_insert_ne hk]
      refine (if_neg fun hsame => hk ?_).symm
      rw [hsame.1, hsame.2]

theorem storedTable_valid (h : t.Valid) (project : Int) (key value : String) :
    Tables.Valid { t with
      kvStorage := Engine.storedTable (pg.over violation t) project key value t.kvStorage } := by
  unfold Engine.storedTable
  cases hcolumn : (pg.over violation t).column project key value with
  | error e => exact h
  | ok column =>
    refine { h with kvProjects := h.kvProjects.insert (Sql.fitsReference_iff.mpr fun p hp => ?_) }
    obtain rfl := Option.some.inj hp
    exact project_of_column hcolumn

-- ---------------------------------------------------------------------------
-- Runs
-- ---------------------------------------------------------------------------

/-- The constraints hold, and the entries are what the changes have left, the last one first. -/
structure Service.Ok (s : Service) (changes : List Change) : Prop where
  valid : s.tables.Valid
  latest : ∀ p key, s.tables.kvStorage.lookup (p, key) = latest p key changes

theorem Service.ok_init : Service.Ok .init [] where
  valid := Tables.valid_empty
  latest _ _ := rfl

variable {changes : List Change}

theorem Service.Ok.statement (h : s.Ok changes) {st : Statement} {t : Tables}
    (hexecute : s.tables.execute st = some t) : Service.Ok { s with tables := t }
      ((s.change pg violation J fuel numberText (.statement st)).toList ++ changes) := by
  refine ⟨h.valid.execute hexecute, fun p key => ?_⟩
  cases st with
  | deleteUser id | deleteProject id =>
    obtain rfl := Option.some.inj hexecute
    simp only [Service.change, Option.toList_some, List.singleton_append, Kv.latest, ← h.latest]
    exact lookup_cascade _ p key _
  | deleteScript id =>
    obtain rfl := Option.some.inj hexecute
    exact h.latest p key
  | insertUser id row | updateUser id row | insertProject id row | updateProject id row
  | insertScript id row | updateScript id row =>
    obtain ⟨table, -, rfl⟩ := Option.map_eq_some_iff.mp hexecute
    exact h.latest p key

theorem Service.call_store (info : ScriptInfo) (lua : LuaState) :
    (s.call pg violation J fuel numberText info .store lua).state.2 =
      match storeArguments J fuel numberText lua with
      | .done (key, value) _ => Engine.storedTable (pg.over violation s.tables) (projectOf info)
          key value s.tables.kvStorage
      | .threw .. | .terminated _ => s.tables.kvStorage :=
  (congrArg Prod.snd (state_bind_pure _ _ _)).trans (store_state _ lua s.tables.kvStorage)

theorem Service.Ok.store (h : s.Ok changes) (info : ScriptInfo) (lua : LuaState) :
    Service.Ok { s with tables := { s.tables with
      kvStorage := (s.call pg violation J fuel numberText info .store lua).state.2 } }
        ((s.stored pg violation J fuel numberText info lua).toList ++ changes) := by
  rw [Service.call_store]
  unfold Service.stored
  cases storeArguments J fuel numberText lua with
  | threw e lua' | terminated lua' => exact h
  | done arguments lua' =>
    obtain ⟨key, value⟩ := arguments
    refine ⟨storedTable_valid h.valid _ _ _, fun p k => ?_⟩
    refine (lookup_storedTable_over (projectOf info) key value p k).trans ?_
    dsimp only
    cases (pg.over violation s.tables).column (projectOf info) key value with
    | error e => exact h.latest p k
    | ok column =>
      rw [h.latest]
      rfl

theorem Service.call_get (info : ScriptInfo) (lua : LuaState) :
    (s.call pg violation J fuel numberText info .get lua).state.2 = s.tables.kvStorage :=
  (congrArg Prod.snd (state_bind_pure _ _ _)).trans (get_state _ lua _)

theorem Service.Ok.step (h : s.Ok changes) {e : Event}
    (hstep : s.step pg violation J fuel numberText e = some next) :
    next.Ok ((s.change pg violation J fuel numberText e).toList ++ changes) := by
  cases e with
  | statement st =>
    obtain rfl := Option.some.inj hstep
    cases hexecute : s.tables.execute st with
    | some t => exact h.statement hexecute
    | none =>
      cases st with
      | deleteUser id | deleteProject id | deleteScript id => cases hexecute
      | _ => exact h
  | fetch id =>
    have htables : next.tables = s.tables := by
      simp only [Service.step] at hstep
      split at hstep <;> obtain rfl := Option.some.inj hstep <;> rfl
    exact ⟨htables ▸ h.valid, htables ▸ h.latest⟩
  | call i method lua =>
    obtain ⟨info, hinfo, rfl⟩ := Option.map_eq_some_iff.mp hstep
    cases method with
    | store =>
      simp only [Service.change, hinfo]
      exact h.store info lua
    | get =>
      rw [Service.call_get]
      exact h

theorem ok_of_run {events : List Event}
    (hrun : Steps.run (Service.step pg violation J fuel numberText) .init events = some s) :
    s.Ok (history pg violation J fuel numberText events) := by
  refine effects_invariant (fun s done => s.Ok done.reverse) (fun s done e next h hstep => ?_)
    Service.ok_init hrun
  have hnext := h.step hstep
  cases hchange : s.change pg violation J fuel numberText e with
  | none => simpa [hchange] using hnext
  | some change => simpa [hchange] using hnext

-- ---------------------------------------------------------------------------
-- The constraints
-- ---------------------------------------------------------------------------

theorem toSigned_ofInt_of_isInt {p : Int} (h : isInt p) :
    (toSigned (BitVec.ofInt 64 p)).toInt = p := by
  simp only [isInt, Bool.and_eq_true, decide_eq_true_eq] at h
  show (BitVec.ofInt 64 p).toInt = p
  rw [BitVec.toInt_ofInt]
  exact Int.bmod_eq_of_le (by omega) (by omega)

theorem project_of_fetch (h : t.Valid) {id : ScriptIdType} {info : ScriptInfo}
    (hfetch : fetch t.database id = .ok info) : ∃ row, t.scripts.lookup id.toInt = some row ∧
      row.parentProjectId = some (projectOf info) ∧ projectOf info ∈ t.projects := by
  cases hrow : t.scripts.lookup id.toInt with
  | none => simp [fetch, Tables.database, hrow] at hfetch
  | some row =>
    cases hparent : row.parentProjectId with
    | none => simp [fetch, Tables.database, hrow, hparent] at hfetch
    | some p =>
      simp only [fetch, Tables.database, hrow, hparent, Option.map_some, Except.ok.injEq] at hfetch
      have hmem : p ∈ t.projects := h.parents id.toInt row p hrow hparent
      have hproject : projectOf info = p := by
        rw [projectOf, ← hfetch]
        exact toSigned_ofInt_of_isInt (h.projectIds p hmem)
      rw [hproject]
      exact ⟨row, rfl, hparent, hmem⟩

/-- Whatever statements and calls come in whatever order, every row refers to rows that
exist, unique columns are unique, and a fetched script works for the project of its row. -/
theorem constraints_kept (pg : Postgres) (violation : Int → Failure) (J : JsonLibrary) (fuel : Nat)
    (numberText : Number → String) (events : List Event) (s : Service)
    (hrun : Steps.run (Service.step pg violation J fuel numberText) .init events = some s) :
    s.tables.Valid ∧ ∀ id info, fetch s.tables.database id = .ok info →
      ∃ row, s.tables.scripts.lookup id.toInt = some row ∧
        row.parentProjectId = some (projectOf info) ∧ projectOf info ∈ s.tables.projects :=
  have hvalid := (ok_of_run hrun).valid
  ⟨hvalid, fun _ _ => project_of_fetch hvalid⟩

def missing (_ : Int) : Failure := .exception "no such project"

def storesTwice : List Event :=
  [.statement (.insertUser 1 { login := "owner", moneyBalance := 0 }),
   .statement (.insertProject 5 { name := "project", ownerId := 1 }),
   .statement (.insertScript 7 { path := "/", parentProjectId := some 5, sourceCode := "" }),
   .fetch 7,
   .call 0 .store (Engine.calledWith [] .nil .nil [.string "v", .string "k"]),
   .call 0 .store (Engine.calledWith [] .nil .nil [.string "w", .string "k"])]

def runEvents (events : List Event) : Option Service :=
  Steps.run (Service.step acceptAll missing textLibrary 1 fun _ => "") .init events

def storesThenDeleted : List Event := storesTwice ++ [.statement (.deleteUser 1)]

/-- The user is deleted, and with the user go the project, the script and the entry. -/
theorem constraints_kept_deleteUser : ∃ s, runEvents storesThenDeleted = some s ∧
    s.tables.Valid ∧ 5 ∉ s.tables.projects ∧ s.tables.kvStorage.lookup (5, "k") = none := by
  have hend : (runEvents storesThenDeleted).map (fun s =>
      (decide (5 ∈ s.tables.projects), s.tables.kvStorage.lookup (5, "k"))) =
        some (false, none) := by
    decide +kernel
  obtain ⟨s, hrun, hs⟩ := Option.map_eq_some_iff.mp hend
  obtain ⟨hproject, hentry⟩ := Prod.mk.inj hs
  exact ⟨s, hrun, (constraints_kept acceptAll missing textLibrary 1 (fun _ => "") _ s hrun).1,
    of_decide_eq_false hproject, hentry⟩

-- ---------------------------------------------------------------------------
-- What a get answers
-- ---------------------------------------------------------------------------

theorem get_returns_latest (pg : Postgres) (violation : Int → Failure) (J : JsonLibrary)
    (fuel : Nat) (numberText : Number → String) (events : List Event) (s : Service)
    (hrun : Steps.run (Service.step pg violation J fuel numberText) .init events = some s)
    (info : ScriptInfo) (heap : Heap) (self function : Value) (key : String) :
    Returns ((Storage.new info.projectId).getMethod.execute (pg.over violation s.tables) numberText)
      (Engine.calledWith heap self function [.string key], s.tables.kvStorage)
      (fetched (pg.answer (cString key) (latest (projectOf info) (cString key)
        (history pg violation J fuel numberText events)))).result
      ({ stack := [.userdata "StorageResult"], heap := heap }, s.tables.kvStorage) := by
  rw [← (ok_of_run hrun).latest]
  exact Engine.returns_get _ key _

def fetchedSeven : ScriptInfo := { id := 7, projectId := 5, sourceCode := "", version := 0 }

theorem get_returns_second : ∃ s, runEvents storesTwice = some s ∧
    Returns ((Storage.new 5).getMethod.execute (acceptAll.over missing s.tables) fun _ => "")
      (Engine.calledWith [] .nil .nil [.string "k"], s.tables.kvStorage)
      { value := "w", isError := false }
      ({ stack := [.userdata "StorageResult"], heap := [] }, s.tables.kvStorage) := by
  obtain ⟨s, hrun⟩ := Option.isSome_iff_exists.mp
    (show (runEvents storesTwice).isSome = true by decide +kernel)
  have hlatest : latest (projectOf fetchedSeven) (cString "k")
      (history acceptAll missing textLibrary 1 (fun _ => "") storesTwice) = some "w" := by
    decide +kernel
  have hget := get_returns_latest acceptAll missing textLibrary 1 (fun _ => "") storesTwice s hrun
    fetchedSeven [] .nil .nil "k"
  rw [hlatest] at hget
  exact ⟨s, hrun, hget⟩

theorem isError_answer_none (pg : Postgres) (key : String) :
    (fetched (pg.answer key none)).result.isError := by
  unfold Postgres.answer
  cases pg.text key with
  | error e => cases e <;> rfl
  | ok _ => rfl

theorem column_error_of_gone {t : Tables} {p : Int} (hgone : p ∉ t.projects) (key value : String) :
    ∃ e, (pg.over violation t).column p key value = .error e := by
  cases hcolumn : (pg.over violation t).column p key value with
  | error e => exact ⟨e, rfl⟩
  | ok column => exact absurd (project_of_column hcolumn) hgone

theorem lookup_none_of_gone {t : Tables} (h : t.Valid) {p : Int} (hgone : p ∉ t.projects)
    (key : String) : t.kvStorage.lookup (p, key) = none := by
  by_contra hsome
  obtain ⟨value, hvalue⟩ := Option.ne_none_iff_exists'.mp hsome
  exact hgone (h.kvProjects _ value _ hvalue rfl)

/-- Scripts of a project that is gone find nothing and store nothing. -/
theorem gone_project_left_alone (pg : Postgres) (violation : Int → Failure) (J : JsonLibrary)
    (fuel : Nat) (numberText : Number → String) (events : List Event) (s : Service)
    (hrun : Steps.run (Service.step pg violation J (fuel + 1) numberText) .init events = some s)
    (info : ScriptInfo) (hgone : projectOf info ∉ s.tables.projects) :
    (∀ method lua, (s.call pg violation J (fuel + 1) numberText info method lua).state.2 =
      s.tables.kvStorage) ∧
    (∀ heap self function key b, ∃ e, Returns
      ((Storage.new info.projectId).storeMethod.execute (pg.over violation s.tables) J (fuel + 1)
        numberText)
      (Engine.calledWith heap self function [.string b, .string key], s.tables.kvStorage) ()
      ({ stack := [Engine.storeAnswer (.error e)], heap := heap }, s.tables.kvStorage)) ∧
    ∀ heap self function key, ∃ result, result.isError ∧ Returns
      ((Storage.new info.projectId).getMethod.execute (pg.over violation s.tables) numberText)
      (Engine.calledWith heap self function [.string key], s.tables.kvStorage) result
      ({ stack := [.userdata "StorageResult"], heap := heap }, s.tables.kvStorage) := by
  have hrefused : ∀ key value, ∃ e,
      (pg.over violation s.tables).column (projectOf info) key value = .error e :=
    column_error_of_gone hgone
  have hkept : ∀ key value, Engine.storedTable (pg.over violation s.tables) (projectOf info) key
      value s.tables.kvStorage = s.tables.kvStorage := by
    intro key value
    obtain ⟨e, he⟩ := hrefused key value
    simp [Engine.storedTable, he]
  refine ⟨fun method lua => ?_, fun heap self function key b => ?_,
    fun heap self function key => ?_⟩
  · cases method with
    | get => exact Service.call_get info lua
    | store =>
      refine (Service.call_store info lua).trans ?_
      split
      · exact hkept _ _
      · rfl
      · rfl
  · obtain ⟨e, he⟩ := hrefused (cString key) (cString b)
    have hstored : Returns (attempt (storeValue (pg.over violation s.tables)
        (toUnsigned (toSigned info.projectId)) (cString key) (cString b)) : Code Thrown KvTable _)
        s.tables.kvStorage (((pg.over violation s.tables).column (projectOf info) (cString key)
          (cString b)).map fun _ => ()) (Engine.storedTable (pg.over violation s.tables)
          (projectOf info) (cString key) (cString b) s.tables.kvStorage) :=
      returns_attempt_store _ (toSigned info.projectId) _ _ _
    rw [he, hkept] at hstored
    exact ⟨e, Engine.returns_store _ fuel key b hstored⟩
  · refine ⟨_, ?_, Engine.returns_get _ key _⟩
    have hnone :
        s.tables.kvStorage.lookup ((toSigned info.projectId).toInt, cString key) = none :=
      lookup_none_of_gone (ok_of_run hrun).valid hgone _
    show (fetched (Postgres.answer _ _ (s.tables.kvStorage.lookup
      ((toSigned info.projectId).toInt, cString key)))).result.isError = true
    rw [hnone]
    exact isError_answer_none _ _

theorem gone_project_five : ∃ s, runEvents storesThenDeleted = some s ∧ fetchedSeven ∈ s.loaded ∧
    ∀ method lua, (s.call acceptAll missing textLibrary 1 (fun _ => "") fetchedSeven method
      lua).state.2 = s.tables.kvStorage := by
  have hend : (runEvents storesThenDeleted).map (fun s =>
      (decide (projectOf fetchedSeven ∈ s.tables.projects), s.loaded)) =
        some (false, [fetchedSeven]) := by
    decide +kernel
  obtain ⟨s, hrun, hs⟩ := Option.map_eq_some_iff.mp hend
  obtain ⟨hproject, hloaded⟩ := Prod.mk.inj hs
  exact ⟨s, hrun, hloaded ▸ List.mem_singleton_self _, (gone_project_left_alone acceptAll missing
    textLibrary 0 (fun _ => "") _ s hrun fetchedSeven (of_decide_eq_false hproject)).1⟩

end LambdaExecutor.Kv
