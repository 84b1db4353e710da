import LambdaExecutor.Library.Steps
import LambdaExecutor.Scripts.Storage

/-!
# Interleavings of Get and Refresh

Any number of calls run at once. A call takes one primitive step at a time: the
locked section around the lookup, `Fetch`, `Compile`, the two setters, the
locked section around `Put`, and the return. Between two steps of a call every
other call may step and the database may change. `Pc` names what the call does
next; `log` is the history the properties speak about and no step reads it.
-/

namespace LambdaExecutor.Scripts

inductive Operation
  | get
  | refresh
  deriving DecidableEq, Repr

inductive Pc
  | begin
  | fetch
  | compile (info : ScriptInfo)
  | setScriptId (script : ScriptPtr) (info : ScriptInfo)
  | setProjectId (script : ScriptPtr) (info : ScriptInfo)
  | put (script : ScriptPtr)
  | finish (script : ScriptPtr)
  | returned (script : ScriptPtr)
  | threw (e : Exception)
  deriving DecidableEq

abbrev CallId := Nat

structure Call where
  op : Operation
  scriptId : ScriptIdType
  pc : Pc

inductive Obs (Code : Type)
  | fetched (call : CallId) (id : ScriptIdType) (info : ScriptInfo)
  | stored (call : CallId) (op : Operation) (id : ScriptIdType) (script : Script Code)
  | returned (call : CallId) (op : Operation) (id : ScriptIdType) (script : Script Code)
  deriving DecidableEq

inductive Label
  | start (call : CallId) (op : Operation) (id : ScriptIdType)
  /-- The next step of a call; `fault` is an exception that `Fetch` or `Compile`
  throws for reasons of their own, such as a lost connection. -/
  | advance (call : CallId) (fault : Option Exception)
  | change (id : Int) (row : Option ScriptRow)

section
variable {Code : Type} {M : EvictingMap ScriptIdType ScriptPtr}

structure State (Code : Type) (M : EvictingMap ScriptIdType ScriptPtr) where
  db : Database
  store : Store Code M
  calls : CallId → Option Call
  log : List (Obs Code)

def State.init (db : Database) : State Code M :=
  { db, store := Store.new, calls := fun _ => none, log := [] }

def State.setPc (s : State Code M) (c : CallId) (call : Call) (pc : Pc) : State Code M :=
  { s with calls := fun other => if other = c then some { call with pc } else s.calls other }

def State.withStore (s : State Code M) (store : Store Code M) : State Code M := { s with store }

def State.record (s : State Code M) (obs : Obs Code) : State Code M :=
  { s with log := obs :: s.log }

@[simp] theorem State.setPc_db (s : State Code M) (c : CallId) (call : Call) (pc : Pc) :
    (s.setPc c call pc).db = s.db := rfl
@[simp] theorem State.setPc_store (s : State Code M) (c : CallId) (call : Call) (pc : Pc) :
    (s.setPc c call pc).store = s.store := rfl
@[simp] theorem State.setPc_log (s : State Code M) (c : CallId) (call : Call) (pc : Pc) :
    (s.setPc c call pc).log = s.log := rfl
@[simp] theorem State.withStore_db (s : State Code M) (store : Store Code M) :
    (s.withStore store).db = s.db := rfl
@[simp] theorem State.withStore_store (s : State Code M) (store : Store Code M) :
    (s.withStore store).store = store := rfl
@[simp] theorem State.withStore_calls (s : State Code M) (store : Store Code M) :
    (s.withStore store).calls = s.calls := rfl
@[simp] theorem State.withStore_log (s : State Code M) (store : Store Code M) :
    (s.withStore store).log = s.log := rfl
@[simp] theorem State.record_db (s : State Code M) (obs : Obs Code) :
    (s.record obs).db = s.db := rfl
@[simp] theorem State.record_store (s : State Code M) (obs : Obs Code) :
    (s.record obs).store = s.store := rfl
@[simp] theorem State.record_calls (s : State Code M) (obs : Obs Code) :
    (s.record obs).calls = s.calls := rfl
@[simp] theorem State.record_log (s : State Code M) (obs : Obs Code) :
    (s.record obs).log = obs :: s.log := rfl

theorem State.setPc_calls (s : State Code M) (c other : CallId) (call : Call) (pc : Pc) :
    (s.setPc c call pc).calls other =
      if other = c then some { call with pc } else s.calls other := rfl

@[simp] theorem State.setPc_calls_self (s : State Code M) (c : CallId) (call : Call) (pc : Pc) :
    (s.setPc c call pc).calls c = some { call with pc } := by
  simp [State.setPc_calls]

theorem State.setPc_calls_ne (s : State Code M) {c other : CallId} (call : Call) (pc : Pc)
    (h : other ≠ c) : (s.setPc c call pc).calls other = s.calls other := by
  simp [State.setPc_calls, h]

variable (compile : String → Except Exception Code) (useCache : Bool)

def advance (s : State Code M) (c : CallId) (call : Call) (fault : Option Exception) :
    Option (State Code M) :=
  match call.pc, fault with
  | .begin, none =>
    match call.op, useCache with
    | .get, true =>
      match s.store.lookup call.scriptId with
      | (some script, store) => some ((s.withStore store).setPc c call (.finish script))
      | (none, store) => some ((s.withStore store).setPc c call .fetch)
    | _, _ => some (s.setPc c call .fetch)
  | .fetch, some e => some (s.setPc c call (.threw e))
  | .fetch, none =>
    match fetch s.db call.scriptId with
    | .error e => some (s.setPc c call (.threw e))
    | .ok info =>
      some ((s.setPc c call (.compile info)).record (.fetched c call.scriptId info))
  | .compile _, some e => some (s.setPc c call (.threw e))
  | .compile info, none =>
    match compile info.sourceCode with
    | .error e => some (s.setPc c call (.threw e))
    | .ok code =>
      let (script, store) := s.store.create code info.version
      some ((s.withStore store).setPc c call (.setScriptId script info))
  | .setScriptId script info, none =>
    some ((s.withStore (s.store.setScriptId script call.scriptId)).setPc c call
      (.setProjectId script info))
  | .setProjectId script info, none =>
    -- Without the cache `Get` returns here; `Refresh` puts the script in any case.
    let next := if call.op = .get ∧ useCache = false then .finish script else .put script
    some ((s.withStore (s.store.setProjectId script info.projectId)).setPc c call next)
  | .put script, none =>
    (s.store.objects[script]?).map fun object =>
      ((s.withStore (s.store.put call.scriptId script)).setPc c call (.finish script)).record
        (.stored c call.op call.scriptId object)
  | .finish script, none =>
    (s.store.objects[script]?).map fun object =>
      (s.setPc c call (.returned script)).record (.returned c call.op call.scriptId object)
  | _, _ => none

def step (s : State Code M) : Label → Option (State Code M)
  | .start c op id =>
    match s.calls c with
    | some _ => none
    | none => some (s.setPc c { op, scriptId := id, pc := .begin } .begin)
  | .advance c fault =>
    match s.calls c with
    | some call => advance compile useCache s c call fault
    | none => none
  | .change id row => some { s with db := s.db.change id row }

inductive Moves (s : State Code M) (c : CallId) (call : Call) : State Code M → Prop
  | hit {script} (hpc : call.pc = .begin) (hop : call.op = .get) (hcache : useCache = true)
      (hfound : s.store.cached call.scriptId = some script) :
      Moves s c call
        ((s.withStore (s.store.lookup call.scriptId).2).setPc c call (.finish script))
  | miss (hpc : call.pc = .begin) (hfound : s.store.cached call.scriptId = none) :
      Moves s c call ((s.withStore (s.store.lookup call.scriptId).2).setPc c call .fetch)
  | skip (hpc : call.pc = .begin) : Moves s c call (s.setPc c call .fetch)
  | throws (e : Exception) (hpc : call.pc = .fetch ∨ ∃ info, call.pc = .compile info) :
      Moves s c call (s.setPc c call (.threw e))
  | fetched {info} (hpc : call.pc = .fetch) (hinfo : fetch s.db call.scriptId = .ok info) :
      Moves s c call ((s.setPc c call (.compile info)).record (.fetched c call.scriptId info))
  | compiled {info code} (hpc : call.pc = .compile info)
      (hcode : compile info.sourceCode = .ok code) :
      Moves s c call ((s.withStore (s.store.create code info.version).2).setPc c call
        (.setScriptId (s.store.create code info.version).1 info))
  | scriptIdSet {script info} (hpc : call.pc = .setScriptId script info) :
      Moves s c call ((s.withStore (s.store.setScriptId script call.scriptId)).setPc c call
        (.setProjectId script info))
  | projectIdSet {script info} (next : Pc) (hpc : call.pc = .setProjectId script info)
      (hnext : next = .finish script ∧ call.op = .get ∨ next = .put script) :
      Moves s c call ((s.withStore (s.store.setProjectId script info.projectId)).setPc c call next)
  | stored {script object} (hpc : call.pc = .put script)
      (hobject : s.store.objects[script]? = some object) :
      Moves s c call
        (((s.withStore (s.store.put call.scriptId script)).setPc c call (.finish script)).record
          (.stored c call.op call.scriptId object))
  | returned {script object} (hpc : call.pc = .finish script)
      (hobject : s.store.objects[script]? = some object) :
      Moves s c call ((s.setPc c call (.returned script)).record
        (.returned c call.op call.scriptId object))

variable {compile useCache}

theorem advance_moves {s next : State Code M} {c : CallId} {call : Call} {fault : Option Exception}
    (h : advance compile useCache s c call fault = some next) :
    Moves compile useCache s c call next := by
  unfold advance at h
  split at h
  next hpc =>
    split at h
    next hop =>
      have hv := s.store.lookup_value call.scriptId
      split at h
      next script store hl =>
        obtain rfl : (s.store.lookup call.scriptId).2 = store := by rw [hl]
        rw [hl] at hv
        cases h
        exact .hit hpc hop rfl hv.symm
      next store hl =>
        obtain rfl : (s.store.lookup call.scriptId).2 = store := by rw [hl]
        rw [hl] at hv
        cases h
        exact .miss hpc hv.symm
    next =>
      cases h
      exact .skip hpc
  next e hpc =>
    cases h
    exact .throws e (.inl hpc)
  next hpc =>
    split at h <;> rename_i hf <;> cases h
    · exact .throws _ (.inl hpc)
    · exact .fetched hpc hf
  next info e hpc =>
    cases h
    exact .throws e (.inr ⟨info, hpc⟩)
  next info hpc =>
    split at h <;> rename_i hc <;> cases h
    · exact .throws _ (.inr ⟨info, hpc⟩)
    · exact .compiled hpc hc
  next hpc =>
    cases h
    exact .scriptIdSet hpc
  next hpc =>
    cases h
    refine .projectIdSet _ hpc ?_
    split
    next hop => exact .inl ⟨rfl, hop.1⟩
    next => exact .inr rfl
  next hpc =>
    obtain ⟨object, ho, rfl⟩ := Option.map_eq_some_iff.mp h
    exact .stored hpc ho
  next hpc =>
    obtain ⟨object, ho, rfl⟩ := Option.map_eq_some_iff.mp h
    exact .returned hpc ho
  next => cases h

theorem Moves.calls {s next : State Code M} {c : CallId} {call : Call}
    (hm : Moves compile useCache s c call next) :
    ∃ pc, next.calls = (s.setPc c call pc).calls := by
  cases hm <;> exact ⟨_, rfl⟩

theorem Moves.cached {s next : State Code M} {c : CallId} {call : Call}
    (hm : Moves compile useCache s c call next) (hput : ∀ script, call.pc ≠ .put script) :
    next.store.cached = s.store.cached := by
  cases hm with
  | hit => exact s.store.cached_lookup call.scriptId
  | miss => exact s.store.cached_lookup call.scriptId
  | stored hpc => exact absurd hpc (hput _)
  | _ => rfl

theorem Moves.db {s next : State Code M} {c : CallId} {call : Call}
    (hm : Moves compile useCache s c call next) : next.db = s.db := by
  cases hm <;> rfl

section
variable {s next : State Code M} {c c' : CallId} {call : Call} {op : Operation}
  {id : ScriptIdType} {info : ScriptInfo} {object : Script Code}

theorem Moves.log_fetched (hm : Moves compile useCache s c call next)
    (h : .fetched c' id info ∈ next.log) :
    .fetched c' id info ∈ s.log ∨ fetch s.db id = .ok info := by
  cases hm with
  | fetched hpc hinfo =>
    rcases List.mem_cons.mp h with he | hold
    · cases he
      exact .inr hinfo
    · exact .inl hold
  | stored | returned => exact .inl ((List.mem_cons.mp h).resolve_left nofun)
  | _ => exact .inl h

theorem Moves.log_stored (hm : Moves compile useCache s c call next)
    (h : .stored c' op id object ∈ next.log) :
    .stored c' op id object ∈ s.log ∨ (c' = c ∧ op = call.op ∧ id = call.scriptId ∧
      ∃ script, call.pc = .put script ∧ s.store.objects[script]? = some object) := by
  cases hm with
  | @stored script _ hpc hobject =>
    rcases List.mem_cons.mp h with he | hold
    · cases he
      exact .inr ⟨rfl, rfl, rfl, script, hpc, hobject⟩
    · exact .inl hold
  | fetched | returned => exact .inl ((List.mem_cons.mp h).resolve_left nofun)
  | _ => exact .inl h

theorem Moves.log_returned (hm : Moves compile useCache s c call next)
    (h : .returned c' op id object ∈ next.log) :
    .returned c' op id object ∈ s.log ∨ (c' = c ∧ op = call.op ∧ id = call.scriptId ∧
      ∃ script, call.pc = .finish script ∧ s.store.objects[script]? = some object) := by
  cases hm with
  | @returned script _ hpc hobject =>
    rcases List.mem_cons.mp h with he | hold
    · cases he
      exact .inr ⟨rfl, rfl, rfl, script, hpc, hobject⟩
    · exact .inl hold
  | fetched | stored => exact .inl ((List.mem_cons.mp h).resolve_left nofun)
  | _ => exact .inl h

end

theorem Moves.log_mono {s next : State Code M} {c : CallId} {call : Call} {obs : Obs Code}
    (hm : Moves compile useCache s c call next) (h : obs ∈ s.log) : obs ∈ next.log := by
  cases hm with
  | fetched => exact List.mem_cons_of_mem _ h
  | stored => exact List.mem_cons_of_mem _ h
  | returned => exact List.mem_cons_of_mem _ h
  | _ => exact h

theorem Moves.cached_cases {s next : State Code M} {c : CallId} {call : Call} {id : ScriptIdType}
    {p : ScriptPtr} (hm : Moves compile useCache s c call next)
    (h : next.store.cached id = some p) :
    (id = call.scriptId ∧ call.pc = .put p) ∨
      (s.store.cached id = some p ∧ ∀ script, call.pc = .put script → id ≠ call.scriptId) := by
  cases hm with
  | hit hpc =>
    exact .inr ⟨congrFun (s.store.cached_lookup call.scriptId) id ▸ h, by simp [hpc]⟩
  | miss hpc =>
    exact .inr ⟨congrFun (s.store.cached_lookup call.scriptId) id ▸ h, by simp [hpc]⟩
  | throws e hpc =>
    refine .inr ⟨h, fun script hput => ?_⟩
    rcases hpc with hpc | ⟨info, hpc⟩ <;> simp [hpc] at hput
  | stored hpc =>
    rcases s.store.cached_put h with ⟨rfl, rfl⟩ | ⟨hne, hold⟩
    · exact .inl ⟨rfl, hpc⟩
    · exact .inr ⟨hold, fun _ _ => hne⟩
  | _ => exact .inr ⟨h, by simp_all⟩

theorem step_cases {s next : State Code M} {label : Label}
    (h : step compile useCache s label = some next) :
    (∃ c op id, label = .start c op id ∧ s.calls c = none ∧
      next = s.setPc c { op, scriptId := id, pc := .begin } .begin) ∨
    (∃ c fault call, label = .advance c fault ∧ s.calls c = some call ∧
      Moves compile useCache s c call next) ∨
    (∃ id row, label = .change id row ∧ next = { s with db := s.db.change id row }) := by
  cases label with
  | start c op id =>
    cases hc : s.calls c with
    | some call => simp [step, hc] at h
    | none => exact .inl ⟨c, op, id, rfl, hc, by simpa [step, hc] using h.symm⟩
  | advance c fault =>
    cases hc : s.calls c with
    | none => simp [step, hc] at h
    | some call =>
      exact .inr (.inl ⟨c, fault, call, rfl, hc, advance_moves (by simpa [step, hc] using h)⟩)
  | change id row => exact .inr (.inr ⟨id, row, rfl, (Option.some.inj h).symm⟩)

end

end LambdaExecutor.Scripts
