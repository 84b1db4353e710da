import LambdaExecutor.Engine.Context

/-!
# Which responses can be read back

An exception in the read-back is thrown by a destructor. So a script that ends
normally ends the process, unless every global can be popped and the response
has a numeric status, a table of headers and a body.
-/

namespace LambdaExecutor.Engine

open Lua Raii Raii.Code

def ScriptResult.field (x : ScriptResult) (key : String) : Value :=
  match x.global responseVariableName with
  | .table t => x.heap.rawget t (.string key)
  | _ => .nil

/-- The table read back holds the final field values with their Lua types. -/
def ThirdParty.ReadsBack (T : ThirdParty) : Prop :=
  ∀ (x : ScriptResult) (old : Fields) (popped : LuaObject),
    T.popGlobal x.heap (x.global responseVariableName) (.table old) = .ok popped →
      ∃ fields : Fields, popped = .table fields ∧ ∀ key ∈ ["status", "headers", "body"],
        (fields.find key).map LuaObject.type =
          if x.field key = .nil then none else some (x.field key).type

variable (T : ThirdParty)

/-- What the destructors can make a response from. -/
structure ScriptResult.ResponseFits (x : ScriptResult) : Prop where
  popped : ∀ entry ∈ x.setup.environment,
    ∃ popped, T.popGlobal x.heap (x.global entry.1) entry.2 = .ok popped
  status : (x.field "status").type = .number
  headers : (x.field "headers").type = .table
  body : x.field "body" ≠ .nil
  accepted : ∀ fields luaHeaders : Fields, T.popGlobal x.heap (x.global responseVariableName)
      (populateLuaResponseFrom x.setup.response) = .ok (.table fields) →
    fields.find "headers" = some (.table luaHeaders) →
      ∃ headers, populateHeaders T luaHeaders = .ok headers

-- ---------------------------------------------------------------------------
-- Popping the globals
-- ---------------------------------------------------------------------------

variable {T} {heap : Heap} {global : String → Value}

theorem popGlobals_cons (entry : String × LuaObject) (rest env' : LuaEnvironment) :
    popGlobals T heap global (entry :: rest) = .ok env' ↔
      ∃ popped restPopped, T.popGlobal heap (global entry.1) entry.2 = .ok popped ∧
        popGlobals T heap global rest = .ok restPopped ∧
        env' = (entry.1, popped) :: restPopped := by
  obtain ⟨name, object⟩ := entry
  simp only [popGlobals]
  cases T.popGlobal heap (global name) object with
  | error e => simp [bind, Except.bind]
  | ok popped =>
    cases popGlobals T heap global rest with
    | error e => simp [bind, Except.bind]
    | ok restPopped => simp [bind, Except.bind, pure, Except.pure, eq_comm]

theorem popGlobals_isOk (env : LuaEnvironment) :
    (∃ env', popGlobals T heap global env = .ok env') ↔
      ∀ entry ∈ env, ∃ popped, T.popGlobal heap (global entry.1) entry.2 = .ok popped := by
  induction env with
  | nil => exact iff_of_true ⟨[], rfl⟩ fun _ hmem => absurd hmem List.not_mem_nil
  | cons entry rest ih =>
    rw [List.forall_mem_cons, ← ih]
    constructor
    · rintro ⟨env', h⟩
      obtain ⟨popped, restPopped, hpop, hrest, -⟩ := (popGlobals_cons entry rest env').mp h
      exact ⟨⟨popped, hpop⟩, restPopped, hrest⟩
    · rintro ⟨⟨popped, hpop⟩, restPopped, hrest⟩
      exact ⟨_, (popGlobals_cons entry rest _).mpr ⟨popped, restPopped, hpop, hrest, rfl⟩⟩

theorem popGlobals_at {env env' : LuaEnvironment} (h : popGlobals T heap global env = .ok env')
    {name : String} {object : LuaObject} (hat : env.at name = some object) :
    ∃ popped, T.popGlobal heap (global name) object = .ok popped ∧ env'.at name = some popped := by
  induction env generalizing env' with
  | nil => exact nomatch hat
  | cons entry rest ih =>
    obtain ⟨popped, restPopped, hpop, hrest, rfl⟩ := (popGlobals_cons entry rest env').mp h
    by_cases hname : entry.1 = name
    · have hobject : entry.2 = object := by
        simpa [LuaEnvironment.at, hname] using hat
      subst hname hobject
      exact ⟨popped, hpop, by simp [LuaEnvironment.at]⟩
    · have hat' : LuaEnvironment.at rest name = some object := by
        simpa [LuaEnvironment.at, hname] using hat
      obtain ⟨popped', hpop', hat''⟩ := ih hrest hat'
      refine ⟨popped', hpop', ?_⟩
      simpa [LuaEnvironment.at, hname] using hat''

-- ---------------------------------------------------------------------------
-- The destructors
-- ---------------------------------------------------------------------------

variable {Q : LuaObject → Exchange → Prop} {s : Exchange}

theorem wp_getValue (fields : Fields) (key : String) :
    wp (getValue T fields key) Q (fun _ _ => False) s ↔
      ∃ value, fields.find key = some value ∧ Q value s := by
  unfold getValue
  cases fields.find key with
  | some value => simp
  | none => cases T.missing (.string key) <;> simp

theorem getValueStrict_ok {α : Type} (cast : LuaObject → Option α) (globalName : String)
    (value : LuaObject) (result : α) :
    getValueStrict cast globalName value = .ok result ↔ cast value = some result := by
  unfold getValueStrict
  cases cast value <;> simp

theorem asTable_eq_some {value : LuaObject} {fields : Fields} :
    value.asTable = some fields ↔ value = .table fields := by
  cases value <;> simp [LuaObject.asTable]

theorem asNumber_eq_some {value : LuaObject} {d : Double} :
    value.asNumber = some d ↔ value = .number d := by
  cases value <;> simp [LuaObject.asNumber]

theorem wp_populateNativeResponseFrom (fields : Fields) (Q : Http.Response → Exchange → Prop) :
    wp (populateNativeResponseFrom T fields) Q (fun _ _ => False) s ↔
      ∃ d, fields.find "status" = some (.number d) ∧
      ∃ luaHeaders, fields.find "headers" = some (.table luaHeaders) ∧
      ∃ headers, populateHeaders T luaHeaders = .ok headers ∧
      ∃ body, fields.find "body" = some body ∧
        Q { status := T.toHttpStatus d, headers := headers, body := T.toString body } s := by
  simp only [populateNativeResponseFrom, wp_bind, wp_getValue, wp_ofExcept, getValueStrict_ok,
    asNumber_eq_some, asTable_eq_some, wp_pure]
  constructor
  · rintro ⟨_, hstatus, d, rfl, _, hheaders, luaHeaders, rfl, hrest⟩
    exact ⟨d, hstatus, luaHeaders, hheaders, hrest⟩
  · rintro ⟨d, hstatus, luaHeaders, hheaders, hrest⟩
    exact ⟨_, hstatus, d, rfl, _, hheaders, luaHeaders, rfl, hrest⟩

theorem wp_destroyContext (Q : Unit → Exchange → Prop) :
    wp (destroyContext T) Q (fun _ _ => False) s ↔
      ∃ fields, s.env.at responseVariableName = some (.table fields) ∧
        wp (populateNativeResponseFrom T fields)
          (fun response s => Q () { s with response := some response }) (fun _ _ => False) s := by
  simp only [destroyContext, wp_bind, wp_read]
  cases s.env.at responseVariableName with
  | none => simp
  | some object => simp [wp_ofExcept, getValueStrict_ok, asTable_eq_some]

-- ---------------------------------------------------------------------------
-- The whole execution
-- ---------------------------------------------------------------------------

theorem LuaObject.type_eq_number {object : LuaObject} :
    object.type = .number ↔ ∃ d, object = .number d := by
  cases object <;> simp [LuaObject.type]

theorem LuaObject.type_eq_table {object : LuaObject} :
    object.type = .table ↔ ∃ fields, object = .table fields := by
  cases object <;> simp [LuaObject.type]

theorem endsCatchably_of_ok {x : ScriptResult} (hend : x.scriptEnd = .ok) :
    x.EndsCatchably T ↔ ∃ env, popGlobals T x.heap x.global x.setup.environment = .ok env ∧
      wp (destroyContext T) (fun _ s => s.response.isSome) (fun _ _ => False)
        { env := env, response := none } := by
  simp only [ScriptResult.EndsCatchably, execute, ScriptResult.primitives, wp_scope, wp_bind,
    wp_pure, wp_modify, wp_executionGuard, wp_runScript, hend, ScriptEnd.pcall, if_true, wp_read,
    wp_ofExcept]
  rfl

theorem endsCatchably_of_failed {x : ScriptResult} (hend : x.scriptEnd ≠ .ok) :
    x.EndsCatchably T ↔ wp (destroyContext T) (fun _ _ => True) (fun _ _ => False)
        { env := x.setup.environment, response := none } := by
  obtain ⟨setup, scriptEnd, heap, global, hheap⟩ := x
  simp only [ScriptResult.EndsCatchably, execute, ScriptResult.primitives, wp_scope, wp_bind,
    wp_pure, wp_modify, wp_executionGuard, wp_runScript]
  cases scriptEnd with
  | ok => exact absurd rfl hend
  | errRun message => rfl
  | errMem => rfl
  | timeout => rfl

/-- A failed script leaves the response as it was, so only its own headers matter. -/
theorem failed_endsCatchably_iff {x : ScriptResult} (hend : x.scriptEnd ≠ .ok) :
    x.EndsCatchably T ↔ ∃ headers, populateHeaders T (x.setup.response.headers.map fun entry =>
      (.string entry.1, .string entry.2)) = .ok headers := by
  rw [endsCatchably_of_failed hend, wp_destroyContext]
  simp only [environment_at_response, wp_populateNativeResponseFrom]
  constructor
  · rintro ⟨fields, hfields, _, -, luaHeaders, hheaders, headers, haccepted, -⟩
    obtain rfl := LuaObject.table.inj (Option.some.inj hfields)
    obtain rfl := LuaObject.table.inj (Option.some.inj hheaders)
    exact ⟨headers, haccepted⟩
  · rintro ⟨headers, haccepted⟩
    exact ⟨_, rfl, _, rfl, _, rfl, headers, haccepted, _, rfl, trivial⟩

section Types

variable {fields : Fields} {key : String} {v : Value}
  (h : (fields.find key).map LuaObject.type = if v = .nil then none else some v.type)
include h

theorem find_of_type {t : LuaType} (ht : v.type = t) (hne : t ≠ .nil) :
    ∃ object, fields.find key = some object ∧ object.type = t := by
  have hv : v ≠ .nil := by
    rintro rfl
    exact hne ht.symm
  rw [if_neg hv] at h
  obtain ⟨object, hfind, htype⟩ := Option.map_eq_some_iff.mp h
  exact ⟨object, hfind, htype.trans ht⟩

theorem type_of_find {object : LuaObject} (hfind : fields.find key = some object) :
    v ≠ .nil ∧ v.type = object.type := by
  rw [hfind] at h
  split at h
  · exact nomatch h
  next hne => exact ⟨hne, (Option.some.inj h).symm⟩

end Types

theorem type_ne_nil {v : Value} (h : v ≠ .nil) : v.type ≠ .nil := by
  cases v <;> simp_all [Value.type]

/-- An execution whose script ends normally returns with the response set, or
throws to its caller, exactly when the response that the script leaves fits. -/
theorem endsCatchably_iff_responseFits (hT : T.ReadsBack) (x : ScriptResult)
    (hend : x.scriptEnd = .ok) : x.EndsCatchably T ↔ x.ResponseFits T := by
  rw [endsCatchably_of_ok hend]
  simp only [wp_destroyContext, wp_populateNativeResponseFrom]
  constructor
  · rintro ⟨env, hpop, fields, hat, d, hstatus, luaHeaders, hheaders, headers, haccepted, body,
      hbody, -⟩
    obtain ⟨popped, hresponse, hat'⟩ := popGlobals_at hpop (environment_at_response x.setup)
    obtain rfl : popped = .table fields := Option.some.inj (hat'.symm.trans hat)
    obtain ⟨fields', hfields, htypes⟩ := hT x _ _ hresponse
    obtain rfl := LuaObject.table.inj hfields
    refine ⟨(popGlobals_isOk _).mp ⟨env, hpop⟩, ?_, ?_, ?_, ?_⟩
    · exact (type_of_find (htypes "status" (by simp)) hstatus).2
    · exact (type_of_find (htypes "headers" (by simp)) hheaders).2
    · exact (type_of_find (htypes "body" (by simp)) hbody).1
    · intro fields' luaHeaders' hresponse' hheaders'
      obtain rfl := LuaObject.table.inj (Except.ok.inj (hresponse.symm.trans hresponse'))
      obtain rfl := LuaObject.table.inj (Option.some.inj (hheaders.symm.trans hheaders'))
      exact ⟨headers, haccepted⟩
  · intro h
    obtain ⟨env, hpop⟩ := (popGlobals_isOk _).mpr h.popped
    obtain ⟨popped, hresponse, hat⟩ := popGlobals_at hpop (environment_at_response x.setup)
    obtain ⟨fields, rfl, htypes⟩ := hT x _ _ hresponse
    obtain ⟨status, hstatus, hnumber⟩ := find_of_type (htypes "status" (by simp)) h.status nofun
    obtain ⟨table, htable, hheaders⟩ := find_of_type (htypes "headers" (by simp)) h.headers nofun
    obtain ⟨body, hbody, -⟩ :=
      find_of_type (htypes "body" (by simp)) rfl (type_ne_nil h.body)
    obtain ⟨d, rfl⟩ := LuaObject.type_eq_number.mp hnumber
    obtain ⟨luaHeaders, rfl⟩ := LuaObject.type_eq_table.mp hheaders
    obtain ⟨headers, haccepted⟩ := h.accepted fields luaHeaders hresponse htable
    exact ⟨env, hpop, fields, hat, d, hstatus, luaHeaders, htable, headers, haccepted, body, hbody,
      rfl⟩

-- ---------------------------------------------------------------------------
-- A LuaCpp to run
-- ---------------------------------------------------------------------------

def readKey : Value → Except Exception Key
  | .string s => .ok (.string s)
  | .number n => .ok (.number n)
  | _ => .error (.stdException "Unexpected key type")

def readEntries (read : Value → Except Exception LuaObject) : Table → Except Exception Fields
  | [] => .ok []
  | (key, value) :: rest => do
    let key ← readKey key
    let object ← read value
    return (key, object) :: (← readEntries read rest)

def readValue (h : Heap) : Nat → Value → Except Exception LuaObject
  | _, .nil => .ok .nil
  | _, .boolean b => .ok (.boolean b)
  | _, .number n => .ok (.number n.toDouble)
  | _, .string s => .ok (.string s)
  | _, .function library name => .ok (.function library name)
  | _, .userdata name => .ok (.userdata name)
  | _, .thread t => .ok (.thread t)
  | 0, .table _ => .error (.stdException "stack overflow")
  | depth + 1, .table t => (readEntries (readValue h depth) (h[t]?.getD [])).map .table

def luaCpp : ThirdParty where
  popGlobal h v
    | .nil => if v = .nil then .ok .nil else .error (.stdException "The value is not LUA_TNIL")
    | .table _ =>
      match v with
      | .table t => readValue h (h.length + 1) (.table t)
      | _ => .error (.stdException "The value is not LUA_TTABLE")
    | object => .ok object
  keyToString
    | .string s => s
    | .number _ => "number"
  toString
    | .string s => s
    | object => object.type.name
  missing _ := some (.stdException "map::at")
  emplaceHeader headers header value := .ok (headers ++ [(header, value)])
  toHttpStatus
    | .finite q _ => Int32.ofInt (q.num.tdiv q.den)
    | _ => 0

theorem readValue_type {h : Heap} {depth : Nat} {v : Value} {object : LuaObject}
    (hread : readValue h depth v = .ok object) : object.type = v.type := by
  cases v with
  | table t =>
    cases depth with
    | zero => exact nomatch hread
    | succ depth =>
      unfold readValue at hread
      cases hentries : readEntries (readValue h depth) (h[t]?.getD []) with
      | error e => exact absurd (hentries ▸ hread) nofun
      | ok fields =>
        rw [hentries] at hread
        obtain rfl := Except.ok.inj hread
        rfl
  | _ =>
    simp only [readValue] at hread
    obtain rfl := Except.ok.inj hread
    rfl

theorem readKey_eq_string {k : Value} {key : Key} {s : String} (h : readKey k = .ok key) :
    key = .string s ↔ k = .string s := by
  cases k <;> simp_all [readKey, eq_comm]

theorem readEntries_find {read : Value → Except Exception LuaObject}
    (hread : ∀ v object, read v = .ok object → object.type = v.type) {entries : Table}
    (hentries : ∀ entry ∈ entries, entry.2 ≠ .nil) {fields : Fields}
    (h : readEntries read entries = .ok fields) (key : String) :
    (fields.find key).map LuaObject.type =
      if entries.get (.string key) = .nil then none else some (entries.get (.string key)).type := by
  induction entries generalizing fields with
  | nil =>
    obtain rfl := Except.ok.inj h
    rfl
  | cons entry rest ih =>
    obtain ⟨k, v⟩ := entry
    rw [List.forall_mem_cons] at hentries
    simp only [readEntries] at h
    cases hk : readKey k with
    | error e => exact absurd (hk ▸ h) nofun
    | ok k' =>
      cases hv : read v with
      | error e => simp [hk, hv, bind, Except.bind] at h
      | ok object =>
        cases hrest : readEntries read rest with
        | error e => simp [hk, hv, hrest, bind, Except.bind] at h
        | ok fields' =>
          simp only [hk, hv, hrest, bind, Except.bind, pure, Except.pure, Except.ok.injEq] at h
          subst h
          by_cases hkey : k = .string key
          · have hk' := (readKey_eq_string hk (s := key)).mpr hkey
            simp [Fields.find, Table.get_cons, hk', hkey, hentries.1, hread v object hv]
          · have hk' := mt (readKey_eq_string hk (s := key)).mp hkey
            simpa [Fields.find, Table.get_cons, hk', hkey] using ih hentries.2 hrest

theorem luaCpp_readsBack : luaCpp.ReadsBack := by
  intro x old popped hpop
  dsimp only [luaCpp] at hpop
  cases hglobal : x.global responseVariableName with
  | table t =>
    rw [hglobal] at hpop
    dsimp only [readValue] at hpop
    cases hentries : readEntries (readValue x.heap x.heap.length) (x.heap[t]?.getD []) with
    | error e => exact absurd (hentries ▸ hpop) nofun
    | ok fields =>
      rw [hentries] at hpop
      refine ⟨fields, (Except.ok.inj hpop).symm, fun key _ => ?_⟩
      have hfield : x.field key = Table.get (x.heap[t]?.getD []) (.string key) := by
        rw [ScriptResult.field, hglobal]
        dsimp only [Heap.rawget, Value.toKey]
        cases x.heap[t]? <;> rfl
      rw [hfield]
      refine readEntries_find (fun v object => readValue_type) ?_ hentries key
      cases ht : x.heap[t]? with
      | none => exact fun _ hmem => absurd hmem List.not_mem_nil
      | some entries => exact (x.wellFormed entries (List.mem_of_getElem? ht)).2
  | _ => simp [hglobal] at hpop

theorem luaCpp_accepts (luaHeaders : Fields) :
    ∃ headers, populateHeaders luaCpp luaHeaders = .ok headers := by
  have hall : ∀ headers, ∃ result, luaHeaders.foldlM (fun headers entry =>
      luaCpp.emplaceHeader headers (luaCpp.keyToString entry.1) (luaCpp.toString entry.2)) headers =
        .ok result := by
    induction luaHeaders with
    | nil => exact fun headers => ⟨headers, rfl⟩
    | cons entry rest ih => exact fun headers => ih _
  exact hall []

def leaves (status : Value) (hstatus : status ≠ .nil) : ScriptResult where
  setup := .release
  scriptEnd := .ok
  heap := [[(.string "status", status), (.string "headers", .table 1),
    (.string "body", .string "Hi")], [], []]
  global name :=
    if name = responseVariableName then .table 0
    else if name = requestVariableName then .table 2
    else if name ∈ [httpClientVariableName, storageVariableName] then .userdata name
    else .nil
  wellFormed := by
    have hempty : Table.WellFormed [] := ⟨List.nodup_nil, fun _ hmem => nomatch hmem⟩
    refine List.forall_mem_cons.mpr ⟨⟨by simp, ?_⟩, by simp [hempty]⟩
    simp [hstatus]

def created : Value := .number (.integer 201)

theorem created_ne_nil : created ≠ .nil := nofun

theorem endsCatchably_created : (leaves created nofun).EndsCatchably luaCpp := by
  have hpopped : (popGlobals luaCpp (leaves created nofun).heap (leaves created nofun).global
      Setup.release.environment).toOption.isSome := by decide +kernel
  refine (endsCatchably_iff_responseFits luaCpp_readsBack (leaves created nofun) rfl).mpr
    ⟨(popGlobals_isOk _).mp ?_, rfl, rfl, nofun, fun _ luaHeaders _ _ =>
      luaCpp_accepts luaHeaders⟩
  cases hresult : popGlobals luaCpp (leaves created nofun).heap (leaves created nofun).global
      Setup.release.environment with
  | ok env => exact ⟨env, hresult⟩
  | error e => exact absurd (hresult ▸ hpopped) nofun

/-- A status which is a string ends the process. -/
theorem string_status_terminates :
    (execute ((leaves (.string "abc") nofun).primitives luaCpp) .init).isTerminated ∧
      ¬ (leaves (.string "abc") nofun).EndsCatchably luaCpp := by
  have hterminated :
      (execute ((leaves (.string "abc") nofun).primitives luaCpp) .init).isTerminated := by
    decide +kernel
  exact ⟨hterminated, not_wp_of_isTerminated hterminated⟩

end LambdaExecutor.Engine
