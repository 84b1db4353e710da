import LambdaExecutor.Scripts.Integrity

/-!
# Calls that step alone

A `Get` or a `Refresh` all of whose steps follow one another, with no step of
another call and no database change in between, ends with what `get` and
`refresh` give. So the sequential functions are the interleaving machine on the
runs that do not interleave.
-/

namespace LambdaExecutor.Scripts

section
variable {Code : Type} {M : EvictingMap ScriptIdType ScriptPtr}
variable {compile : String → Except Exception Code} {useCache : Bool}

variable (compile useCache) in
/-- Some number of steps of call `c`, and no other step, take `s` to `final`. -/
def Alone (c : CallId) (s final : State Code M) : Prop :=
  (∃ n, Steps.run (step compile useCache) s (List.replicate n (.advance c none)) = some final) ∧
    final.db = s.db

theorem Alone.refl (s : State Code M) (c : CallId) : Alone compile useCache c s s :=
  ⟨⟨0, rfl⟩, rfl⟩

theorem Alone.step {s next final : State Code M} {c : CallId} {call : Call}
    (hc : s.calls c = some call) (hn : advance compile useCache s c call none = some next)
    (hdb : next.db = s.db) (h : Alone compile useCache c next final) :
    Alone compile useCache c s final := by
  obtain ⟨⟨n, hr⟩, hfinal⟩ := h
  have hstep : Scripts.step compile useCache s (.advance c none) = some next := by
    simpa [Scripts.step, hc] using hn
  exact ⟨⟨n + 1, Steps.run_cons_some.mpr ⟨next, hstep, hr⟩⟩, hfinal.trans hdb⟩

/-- By itself call `c` goes from `s` to `pc`, and leaves `store`. -/
def Ends (compile : String → Except Exception Code) (useCache : Bool) (s : State Code M)
    (c : CallId) (call : Call) (store : Store Code M) (pc : Pc) : Prop :=
  ∃ final, Alone compile useCache c s final ∧ final.calls c = some { call with pc } ∧
    final.store = store

theorem Ends.step {s : State Code M} (next : State Code M) {c : CallId} {call : Call} (pc' : Pc)
    {pc : Pc} {store : Store Code M} (hc : s.calls c = some call)
    (hn : advance compile useCache s c call none = some next) (hdb : next.db = s.db)
    (h : Ends compile useCache next c { call with pc := pc' } store pc) :
    Ends compile useCache s c call store pc := by
  obtain ⟨final, halone, hcall, hstore⟩ := h
  exact ⟨final, halone.step hc hn hdb, hcall, hstore⟩

theorem Ends.of_step {s : State Code M} (next : State Code M) {c : CallId} {call : Call} {pc : Pc}
    (hc : s.calls c = some call) (hn : advance compile useCache s c call none = some next)
    (hdb : next.db = s.db) (hcall : next.calls c = some { call with pc }) :
    Ends compile useCache s c call next.store pc :=
  ⟨next, .step hc hn hdb (.refl next c), hcall, rfl⟩

-- ---------------------------------------------------------------------------
-- The statements of a call
-- ---------------------------------------------------------------------------

section
variable {s : State Code M} {c : CallId} {call : Call} {script : ScriptPtr} {info : ScriptInfo}

theorem advance_begin (hpc : call.pc = .begin) : advance compile useCache s c call none =
    match call.op, useCache with
    | .get, true =>
      match s.store.lookup call.scriptId with
      | (some script, store) => some ((s.withStore store).setPc c call (.finish script))
      | (none, store) => some ((s.withStore store).setPc c call .fetch)
    | _, _ => some (s.setPc c call .fetch) := by
  unfold advance
  rewrite [hpc]
  rfl

theorem advance_fetch (hpc : call.pc = .fetch) : advance compile useCache s c call none =
    match fetch s.db call.scriptId with
    | .error e => some (s.setPc c call (.threw e))
    | .ok info =>
      some ((s.setPc c call (.compile info)).record (.fetched c call.scriptId info)) := by
  unfold advance
  rewrite [hpc]
  rfl

theorem advance_compile (hpc : call.pc = .compile info) : advance compile useCache s c call none =
    match compile info.sourceCode with
    | .error e => some (s.setPc c call (.threw e))
    | .ok code => some ((s.withStore (s.store.create code info.version).2).setPc c call
        (.setScriptId (s.store.create code info.version).1 info)) := by
  unfold advance
  rewrite [hpc]
  rfl

theorem advance_setScriptId (hpc : call.pc = .setScriptId script info) :
    advance compile useCache s c call none =
      some ((s.withStore (s.store.setScriptId script call.scriptId)).setPc c call
        (.setProjectId script info)) := by
  unfold advance
  rewrite [hpc]
  rfl

theorem advance_setProjectId (hpc : call.pc = .setProjectId script info) :
    advance compile useCache s c call none =
      some ((s.withStore (s.store.setProjectId script info.projectId)).setPc c call
        (if call.op = .get ∧ useCache = false then .finish script else .put script)) := by
  unfold advance
  rewrite [hpc]
  rfl

theorem advance_put {object : Script Code} (hpc : call.pc = .put script)
    (ho : s.store.objects[script]? = some object) : advance compile useCache s c call none =
      some (((s.withStore (s.store.put call.scriptId script)).setPc c call (.finish script)).record
        (.stored c call.op call.scriptId object)) := by
  unfold advance
  rw [hpc]
  show Option.map _ (s.store.objects[script]?) = _
  rw [ho]
  rfl

theorem advance_finish {object : Script Code} (hpc : call.pc = .finish script)
    (ho : s.store.objects[script]? = some object) : advance compile useCache s c call none =
      some ((s.setPc c call (.returned script)).record
        (.returned c call.op call.scriptId object)) := by
  unfold advance
  rw [hpc]
  show Option.map _ (s.store.objects[script]?) = _
  rw [ho]
  rfl

end

-- ---------------------------------------------------------------------------
-- Calls
-- ---------------------------------------------------------------------------

theorem finish_alone {s : State Code M} {c : CallId} {call : Call} {script : ScriptPtr}
    {object : Script Code} (hc : s.calls c = some call) (hpc : call.pc = .finish script)
    (ho : s.store.objects[script]? = some object) :
    Ends compile useCache s c call s.store (.returned script) :=
  .of_step ((s.setPc c call (.returned script)).record
    (.returned c call.op call.scriptId object)) hc (advance_finish hpc ho) rfl (by simp)

theorem put_alone {s : State Code M} {c : CallId} {call : Call} {script : ScriptPtr}
    {object : Script Code} (hc : s.calls c = some call) (hpc : call.pc = .put script)
    (ho : s.store.objects[script]? = some object) :
    Ends compile useCache s c call (s.store.put call.scriptId script) (.returned script) :=
  .step (((s.withStore (s.store.put call.scriptId script)).setPc c call (.finish script)).record
    (.stored c call.op call.scriptId object)) (.finish script) hc (advance_put hpc ho) rfl
    (finish_alone (by simp) rfl ho)

/-- Where a call leaves a script it has built: `Get` without the cache puts nothing. -/
def Operation.keep (op : Operation) (useCache : Bool) (store : Store Code M) (id : ScriptIdType)
    (script : ScriptPtr) : Store Code M :=
  if op = .get ∧ useCache = false then store else store.put id script

theorem setProjectId_alone {s : State Code M} {c : CallId} {call : Call} {script : ScriptPtr}
    {info : ScriptInfo} {object : Script Code} (hc : s.calls c = some call)
    (hpc : call.pc = .setProjectId script info) (ho : s.store.objects[script]? = some object) :
    Ends compile useCache s c call
      (call.op.keep useCache (s.store.setProjectId script info.projectId) call.scriptId script)
      (.returned script) := by
  have hobject := (s.store.setProjectId_get script info.projectId).trans (congrArg _ ho)
  by_cases hkeep : call.op = .get ∧ useCache = false
  · rw [Operation.keep, if_pos hkeep]
    exact .step ((s.withStore (s.store.setProjectId script info.projectId)).setPc c call
      (.finish script)) (.finish script) hc (by rw [advance_setProjectId hpc, if_pos hkeep]) rfl
      (finish_alone (by simp) rfl hobject)
  · rw [Operation.keep, if_neg hkeep]
    exact .step ((s.withStore (s.store.setProjectId script info.projectId)).setPc c call
      (.put script)) (.put script) hc (by rw [advance_setProjectId hpc, if_neg hkeep]) rfl
      (put_alone (by simp) rfl hobject)

theorem setScriptId_alone {s : State Code M} {c : CallId} {call : Call} {script : ScriptPtr}
    {info : ScriptInfo} {object : Script Code} (hc : s.calls c = some call)
    (hpc : call.pc = .setScriptId script info) (ho : s.store.objects[script]? = some object) :
    Ends compile useCache s c call
      (call.op.keep useCache ((s.store.setScriptId script call.scriptId).setProjectId script
        info.projectId) call.scriptId script) (.returned script) :=
  .step ((s.withStore (s.store.setScriptId script call.scriptId)).setPc c call
    (.setProjectId script info)) (.setProjectId script info) hc (advance_setScriptId hpc) rfl
    (setProjectId_alone (by simp) rfl ((s.store.setScriptId_get script _).trans (congrArg _ ho)))

variable (compile useCache)

theorem load_alone {s : State Code M} {c : CallId} {call : Call} (hc : s.calls c = some call)
    (hpc : call.pc = .fetch) :
    match load compile s.db s.store call.scriptId with
    | (.error e, store) => Ends compile useCache s c call store (.threw e)
    | (.ok script, store) => Ends compile useCache s c call
        (call.op.keep useCache store call.scriptId script) (.returned script) := by
  unfold load
  cases hf : fetch s.db call.scriptId with
  | error e =>
    exact .of_step (s.setPc c call (.threw e)) hc (by rw [advance_fetch hpc, hf]) rfl (by simp)
  | ok info =>
    let fetched := (s.setPc c call (.compile info)).record (.fetched c call.scriptId info)
    have hfetched : advance compile useCache s c call none = some fetched := by
      rw [advance_fetch hpc, hf]
    cases hcode : compile info.sourceCode with
    | error e =>
      simp only [hcode]
      exact .step fetched (.compile info) hc hfetched rfl
        (.of_step (fetched.setPc c { call with pc := .compile info } (.threw e))
          (by simp [fetched]) (by rw [advance_compile rfl, hcode]) rfl (by simp))
    | ok code =>
      simp only [hcode]
      exact .step fetched (.compile info) hc hfetched rfl
        (.step ((fetched.withStore (s.store.create code info.version).2).setPc c
          { call with pc := .compile info }
          (.setScriptId (s.store.create code info.version).1 info))
          (.setScriptId (s.store.create code info.version).1 info) (by simp [fetched])
          (by rw [advance_compile rfl, hcode]; rfl) rfl
          (setScriptId_alone (by simp) rfl (s.store.create_get code info.version)))

theorem Ends.of_load {s : State Code M} (next : State Code M) {c : CallId} {call : Call}
    (hc : s.calls c = some call)
    (hn : advance compile useCache s c call none = some (next.setPc c call .fetch))
    (hdb : next.db = s.db) :
    match load compile s.db next.store call.scriptId with
    | (.error e, store) => Ends compile useCache s c call store (.threw e)
    | (.ok script, store) => Ends compile useCache s c call
        (call.op.keep useCache store call.scriptId script) (.returned script) := by
  have hload := load_alone compile useCache
    (next.setPc_calls_self c call .fetch) rfl
  rw [State.setPc_db, State.setPc_store, hdb] at hload
  split <;> rename_i hl <;> rw [hl] at hload <;> exact .step _ .fetch hc hn hdb hload

variable {compile useCache}

theorem get_alone {s : State Code M} {c : CallId} {call : Call} (h : Integrity compile s)
    (hc : s.calls c = some call) (hop : call.op = .get) (hpc : call.pc = .begin) :
    match get compile useCache s.db s.store call.scriptId with
    | (.error e, store) => Ends compile useCache s c call store (.threw e)
    | (.ok script, store) => Ends compile useCache s c call store (.returned script) := by
  unfold get
  cases useCache with
  | false =>
    have hload := Ends.of_load compile false s hc
      (by rw [advance_begin hpc, hop]) rfl
    simpa [Operation.keep, hop] using hload
  | true =>
    cases hl : s.store.lookup call.scriptId with
    | mk found store =>
      have hfound : s.store.cached call.scriptId = found := by rw [← Store.lookup_value, hl]
      cases found with
      | some script =>
        obtain ⟨object, ho, -⟩ := h.entries call.scriptId script hfound
        have hstore : store.objects = s.store.objects := by
          rw [show store = (s.store.lookup call.scriptId).2 by rw [hl], Store.objects_lookup]
        exact .step ((s.withStore store).setPc c call (.finish script)) (.finish script) hc
          (by rw [advance_begin hpc, hop, hl]) rfl
          (finish_alone (by simp) rfl (by simpa [hstore] using ho))
      | none =>
        have hload := Ends.of_load compile true (s.withStore store) hc
          (by rw [advance_begin hpc, hop, hl]) rfl
        simp only [if_true]
        simp only [State.withStore_store] at hload
        cases hl : load compile s.db store call.scriptId with
        | mk result store' =>
          rw [hl] at hload
          cases result <;> simpa [Operation.keep] using hload

theorem refresh_alone {s : State Code M} {c : CallId} {call : Call} (hc : s.calls c = some call)
    (hop : call.op = .refresh) (hpc : call.pc = .begin) :
    match refresh compile s.db s.store call.scriptId with
    | (.error e, store) => Ends compile useCache s c call store (.threw e)
    | (.ok _, store) => ∃ script, Ends compile useCache s c call store (.returned script) := by
  have hload := Ends.of_load compile useCache s hc
    (by rw [advance_begin hpc, hop]) rfl
  unfold refresh
  cases hl : load compile s.db s.store call.scriptId with
  | mk result store =>
    rw [hl] at hload
    cases result with
    | error e => exact hload
    | ok script => exact ⟨script, by simpa [Operation.keep, hop] using hload⟩

end

end LambdaExecutor.Scripts
