import LambdaExecutor.Scripts.Machine

/-!
# Cache integrity

In every reachable state an entry cached under an id is a script whose script
id is that id and whose code and project id come from one single `Fetch` of it;
so is every script a call returns. The argument is one of ownership: a script
object whose ids are still being filled in belongs to one call, and no other
call and no entry of the map points to it.
-/

namespace LambdaExecutor.Scripts

def Pc.script : Pc → Option ScriptPtr
  | .setScriptId script _ | .setProjectId script _ => some script
  | .put script | .finish script | .returned script => some script
  | _ => none

/-- The script object whose ids the call is still filling in. -/
def Pc.building : Pc → Option ScriptPtr
  | .setScriptId script _ | .setProjectId script _ => some script
  | _ => none

theorem Pc.script_of_building {pc : Pc} {p : ScriptPtr} (h : pc.building = some p) :
    pc.script = some p := by
  cases pc <;> simp_all [Pc.building, Pc.script]

section
variable {Code : Type} {M : EvictingMap ScriptIdType ScriptPtr}
variable (compile : String → Except Exception Code)

/-- The object carries the code, project id and version of one fetch of `id`. -/
def FromFetch (log : List (Obs Code)) (id : ScriptIdType) (object : Script Code) : Prop :=
  ∃ c info, .fetched c id info ∈ log ∧ compile info.sourceCode = .ok object.code ∧
    object.projectId = some info.projectId ∧ object.version = info.version

def Built (log : List (Obs Code)) (id : ScriptIdType) (object : Script Code) : Prop :=
  object.scriptId = some id ∧ FromFetch compile log id object

def State.Holds (s : State Code M) (id : ScriptIdType) (p : ScriptPtr) : Prop :=
  ∃ object, s.store.objects[p]? = some object ∧ Built compile s.log id object

/-- What a call has achieved when it is about to do what `pc` says. -/
def CallOk (s : State Code M) (c : CallId) (id : ScriptIdType) : Pc → Prop
  | .compile info => .fetched c id info ∈ s.log
  | .setScriptId p info => .fetched c id info ∈ s.log ∧ ∃ object,
      s.store.objects[p]? = some object ∧ compile info.sourceCode = .ok object.code ∧
        object.version = info.version
  | .setProjectId p info => .fetched c id info ∈ s.log ∧ ∃ object,
      s.store.objects[p]? = some object ∧ compile info.sourceCode = .ok object.code ∧
        object.version = info.version ∧ object.scriptId = some id
  | .put p | .finish p | .returned p => s.Holds compile id p
  | _ => True

structure Integrity (s : State Code M) : Prop where
  entries : ∀ id p, s.store.cached id = some p → s.Holds compile id p
  calls : ∀ c call, s.calls c = some call → CallOk compile s c call.scriptId call.pc
  unshared : ∀ c call p, s.calls c = some call → call.pc.building = some p →
    (∀ id, s.store.cached id ≠ some p) ∧
      ∀ other call', other ≠ c → s.calls other = some call' → call'.pc.script ≠ some p

/-- `next` is `s` after call `c` moved on to `pc`, and only the object that `c`
is building and the entry that `c` puts are new. -/
structure Update (s next : State Code M) (c : CallId) (call : Call) (pc : Pc) : Prop where
  calls : next.calls = (s.setPc c call pc).calls
  log : ∀ obs ∈ s.log, obs ∈ next.log
  objects : ∀ p object, call.pc.building ≠ some p → s.store.objects[p]? = some object →
    next.store.objects[p]? = some object
  cached : ∀ id p, next.store.cached id = some p →
    s.store.cached id = some p ∨ id = call.scriptId ∧ call.pc = .put p
  script : ∀ p, pc.script = some p → call.pc.script = some p ∨ p = s.store.objects.length ∨
    ∃ id, s.store.cached id = some p
  building : ∀ p, pc.building = some p → call.pc.building = some p ∨ p = s.store.objects.length

variable {compile}

theorem Built.mono {log log' : List (Obs Code)} {id : ScriptIdType} {object : Script Code}
    (h : Built compile log id object) (hlog : ∀ obs ∈ log, obs ∈ log') :
    Built compile log' id object := by
  obtain ⟨hid, c, info, hfetched, hrest⟩ := h
  exact ⟨hid, c, info, hlog _ hfetched, hrest⟩

theorem State.Holds.lt {s : State Code M} {id : ScriptIdType} {p : ScriptPtr}
    (h : s.Holds compile id p) : p < s.store.objects.length := by
  obtain ⟨object, ho, -⟩ := h
  exact (List.getElem?_eq_some_iff.mp ho).1

theorem CallOk.lt {s : State Code M} {c : CallId} {id : ScriptIdType} {pc : Pc} {p : ScriptPtr}
    (h : CallOk compile s c id pc) (hp : pc.script = some p) : p < s.store.objects.length := by
  cases pc with
  | setScriptId q info =>
    cases hp
    obtain ⟨-, object, ho, -⟩ := h
    exact (List.getElem?_eq_some_iff.mp ho).1
  | setProjectId q info =>
    cases hp
    obtain ⟨-, object, ho, -⟩ := h
    exact (List.getElem?_eq_some_iff.mp ho).1
  | put q => cases hp; exact State.Holds.lt h
  | finish q => cases hp; exact State.Holds.lt h
  | returned q => cases hp; exact State.Holds.lt h
  | _ => cases hp

theorem Update.holds {s next : State Code M} {c : CallId} {call : Call} {pc : Pc}
    (hu : Update s next c call pc) {id : ScriptIdType} {p : ScriptPtr}
    (hp : call.pc.building ≠ some p) (h : s.Holds compile id p) : next.Holds compile id p := by
  obtain ⟨object, ho, hb⟩ := h
  exact ⟨object, hu.objects p object hp ho, hb.mono hu.log⟩

theorem Update.callOk {s next : State Code M} {c other : CallId} {call : Call} {pc pc' : Pc}
    (hu : Update s next c call pc) {id : ScriptIdType}
    (hp : ∀ p, pc'.script = some p → call.pc.building ≠ some p)
    (h : CallOk compile s other id pc') : CallOk compile next other id pc' := by
  cases pc' with
  | compile info => exact hu.log _ h
  | setScriptId p info =>
    obtain ⟨hf, object, ho, hrest⟩ := h
    exact ⟨hu.log _ hf, object, hu.objects p object (hp p rfl) ho, hrest⟩
  | setProjectId p info =>
    obtain ⟨hf, object, ho, hrest⟩ := h
    exact ⟨hu.log _ hf, object, hu.objects p object (hp p rfl) ho, hrest⟩
  | put p => exact hu.holds (hp p rfl) h
  | finish p => exact hu.holds (hp p rfl) h
  | returned p => exact hu.holds (hp p rfl) h
  | _ => trivial

theorem Integrity.fresh {s : State Code M} (h : Integrity compile s) :
    (∀ id, s.store.cached id ≠ some s.store.objects.length) ∧
      ∀ c call, s.calls c = some call → call.pc.script ≠ some s.store.objects.length :=
  ⟨fun id hp => Nat.lt_irrefl _ (h.entries id _ hp).lt,
    fun c call hc hp => Nat.lt_irrefl _ ((h.calls c call hc).lt hp)⟩

theorem Integrity.update {s next : State Code M} {c : CallId} {call : Call} {pc : Pc}
    (h : Integrity compile s) (hc : s.calls c = some call) (hu : Update s next c call pc)
    (hok : CallOk compile next c call.scriptId pc) : Integrity compile next := by
  have hself : next.calls c = some { call with pc } := by simp [hu.calls]
  have hother : ∀ other, other ≠ c → next.calls other = s.calls other := fun other hne => by
    rw [hu.calls, State.setPc_calls_ne _ _ _ hne]
  obtain ⟨hfresh, hfreshCalls⟩ := h.fresh
  refine ⟨?_, ?_, ?_⟩
  · intro id p hp
    rcases hu.cached id p hp with hold | ⟨rfl, hput⟩
    · exact hu.holds (fun hb => (h.unshared c call p hc hb).1 id hold) (h.entries id p hold)
    · have hcall := h.calls c call hc
      rw [hput] at hcall
      exact hu.holds (by simp [hput, Pc.building]) hcall
  · intro other call' hcall'
    by_cases hne : other = c
    · subst hne
      cases hself.symm.trans hcall'
      exact hok
    · rw [hother other hne] at hcall'
      refine hu.callOk (fun p hp hb => ?_) (h.calls other call' hcall')
      exact (h.unshared c call p hc hb).2 other call' hne hcall' hp
  · intro other call' p hcall' hb
    by_cases hne : other = c
    · subst hne
      cases hself.symm.trans hcall'
      -- The object is the one the call was building, or it was created just now.
      rcases hu.building p hb with hold | rfl
      · refine ⟨fun id hp => ?_, fun other' call'' hne' hcall'' => ?_⟩
        · rcases hu.cached id p hp with hcached | ⟨-, hput⟩
          · exact (h.unshared other call p hc hold).1 id hcached
          · simp [hput, Pc.building] at hold
        · rw [hother other' hne'] at hcall''
          exact (h.unshared other call p hc hold).2 other' call'' hne' hcall''
      · refine ⟨fun id hp => ?_, fun other' call'' hne' hcall'' hp => ?_⟩
        · rcases hu.cached id _ hp with hcached | ⟨-, hput⟩
          · exact hfresh id hcached
          · exact hfreshCalls other call hc (by simp [hput, Pc.script])
        · rw [hother other' hne'] at hcall''
          exact hfreshCalls other' call'' hcall'' hp
    · rw [hother other hne] at hcall'
      obtain ⟨hcached, hcalls⟩ := h.unshared other call' p hcall' hb
      have hpc : call.pc.script ≠ some p := hcalls c call (Ne.symm hne) hc
      refine ⟨fun id hp => ?_, fun other' call'' hne' hcall'' hp => ?_⟩
      · rcases hu.cached id p hp with hold | ⟨-, hput⟩
        · exact hcached id hold
        · exact hpc (by simp [hput, Pc.script])
      · by_cases he : other' = c
        · subst he
          cases hself.symm.trans hcall''
          rcases hu.script p hp with hold | rfl | ⟨id, hold⟩
          · exact hpc hold
          · exact hfreshCalls other call' hcall' (Pc.script_of_building hb)
          · exact hcached id hold
        · rw [hother other' he] at hcall''
          exact hcalls other' call'' hne' hcall'' hp

-- ---------------------------------------------------------------------------
-- Steps and runs
-- ---------------------------------------------------------------------------

variable {useCache : Bool}

theorem Update.quiet {s next : State Code M} {c : CallId} {call : Call} {pc : Pc}
    (hcalls : next.calls = (s.setPc c call pc).calls) (hlog : ∀ obs ∈ s.log, obs ∈ next.log)
    (hobjects : next.store.objects = s.store.objects)
    (hcached : next.store.cached = s.store.cached)
    (hscript : ∀ p, pc.script = some p →
      call.pc.script = some p ∨ ∃ id, s.store.cached id = some p)
    (hbuilding : pc.building = none) : Update s next c call pc where
  calls := hcalls
  log := hlog
  objects p object _ ho := by rw [hobjects]; exact ho
  cached id p hp := .inl (by rw [hcached] at hp; exact hp)
  script p hp := (hscript p hp).imp_right .inr
  building p hp := by rw [hbuilding] at hp; cases hp

theorem Integrity.moves {s next : State Code M} {c : CallId} {call : Call}
    (h : Integrity compile s) (hc : s.calls c = some call)
    (hm : Moves compile useCache s c call next) : Integrity compile next := by
  have hcall := h.calls c call hc
  cases hm with
  | hit hpc hop hcache hfound =>
    refine h.update hc
      (.quiet rfl (fun _ ho => ho) rfl (s.store.cached_lookup call.scriptId) ?_ rfl)
      (h.entries _ _ hfound)
    intro p hp
    cases hp
    exact .inr ⟨_, hfound⟩
  | miss hpc hfound =>
    exact h.update hc (.quiet rfl (fun _ ho => ho) rfl (s.store.cached_lookup call.scriptId)
      (fun p hp => by cases hp) rfl) trivial
  | skip hpc =>
    exact h.update hc (.quiet rfl (fun _ ho => ho) rfl rfl (fun p hp => by cases hp) rfl) trivial
  | throws e hpc =>
    exact h.update hc (.quiet rfl (fun _ ho => ho) rfl rfl (fun p hp => by cases hp) rfl) trivial
  | fetched hpc hinfo =>
    exact h.update hc (.quiet rfl (fun _ ho => List.mem_cons_of_mem _ ho) rfl rfl
      (fun p hp => by cases hp) rfl) List.mem_cons_self
  | @compiled info code hpc hcode =>
    rw [hpc] at hcall
    refine h.update hc ⟨rfl, fun _ ho => ho, ?_, ?_, ?_, ?_⟩
      ⟨hcall, _, s.store.create_get code info.version, hcode, rfl⟩
    · intro p object _ ho
      have hp := (List.getElem?_eq_some_iff.mp ho).1
      exact (s.store.create_get_of_lt code info.version hp).trans ho
    · exact fun id p hp => .inl hp
    · intro p hp
      cases hp
      exact .inr (.inl rfl)
    · intro p hp
      cases hp
      exact .inr rfl
  | @scriptIdSet script info hpc =>
    rw [hpc] at hcall
    obtain ⟨hfetched, object, ho, hcode, hversion⟩ := hcall
    refine h.update hc ⟨rfl, fun _ ho => ho, ?_, ?_, ?_, ?_⟩
      ⟨hfetched, { object with scriptId := some call.scriptId }, ?_, hcode, hversion, rfl⟩
    · intro p other hp hother
      have hne : p ≠ script := fun he => hp (by rw [hpc, he]; rfl)
      exact (s.store.setScriptId_get_ne call.scriptId hne).trans hother
    · exact fun id p hp => .inl hp
    · exact fun p hp => .inl (by rw [hpc]; exact hp)
    · exact fun p hp => .inl (by rw [hpc]; exact hp)
    · exact (s.store.setScriptId_get script call.scriptId).trans (by rw [ho]; rfl)
  | @projectIdSet script info pc hpc hnext =>
    rw [hpc] at hcall
    obtain ⟨hfetched, object, ho, hcode, hversion, hid⟩ := hcall
    have hscript : pc.script = some script ∧ pc.building = none := by
      rcases hnext with ⟨rfl, -⟩ | rfl <;> exact ⟨rfl, rfl⟩
    have hholds : (s.withStore (s.store.setProjectId script info.projectId)).Holds compile
        call.scriptId script :=
      ⟨{ object with projectId := some info.projectId },
        (s.store.setProjectId_get script info.projectId).trans (by rw [ho]; rfl),
        hid, c, info, hfetched, hcode, rfl, hversion⟩
    refine h.update hc ⟨rfl, fun _ ho => ho, ?_, ?_, ?_, ?_⟩ ?_
    · intro p other hp hother
      have hne : p ≠ script := fun he => hp (by rw [hpc, he]; rfl)
      exact (s.store.setProjectId_get_ne info.projectId hne).trans hother
    · exact fun id p hp => .inl hp
    · exact fun p hp => .inl (by rw [hpc]; exact hscript.1.symm.trans hp)
    · exact fun p hp => by rw [hscript.2] at hp; cases hp
    · rcases hnext with ⟨rfl, -⟩ | rfl <;> exact hholds
  | @stored script object hpc hobject =>
    rw [hpc] at hcall
    refine h.update hc
      ⟨rfl, fun _ ho => List.mem_cons_of_mem _ ho, fun _ _ _ ho => ho, ?_, ?_, ?_⟩ ?_
    · intro id p hp
      rcases s.store.cached_put hp with ⟨rfl, rfl⟩ | ⟨-, hold⟩
      · exact .inr ⟨rfl, hpc⟩
      · exact .inl hold
    · exact fun p hp => .inl (by rw [hpc]; exact hp)
    · exact fun p hp => by cases hp
    · obtain ⟨found, hfound, hb⟩ := hcall
      exact ⟨found, hfound, hb.mono fun _ ho => List.mem_cons_of_mem _ ho⟩
  | @returned script object hpc hobject =>
    rw [hpc] at hcall
    refine h.update hc (.quiet rfl (fun _ ho => List.mem_cons_of_mem _ ho) rfl rfl
      (fun p hp => .inl (by rw [hpc]; exact hp)) rfl) ?_
    obtain ⟨found, hfound, hb⟩ := hcall
    exact ⟨found, hfound, hb.mono fun _ ho => List.mem_cons_of_mem _ ho⟩

theorem Integrity.start {s : State Code M} {c : CallId} {call : Call} (h : Integrity compile s)
    (hc : s.calls c = none) : Integrity compile (s.setPc c call .begin) := by
  have hold : ∀ other call', (s.setPc c call .begin).calls other = some call' →
      call'.pc = .begin ∨ s.calls other = some call' := by
    intro other call' hcall'
    by_cases hne : other = c
    · subst hne
      cases (State.setPc_calls_self s other call .begin).symm.trans hcall'
      exact .inl rfl
    · exact .inr (by rwa [State.setPc_calls_ne _ _ _ hne] at hcall')
  refine ⟨h.entries, ?_, ?_⟩
  · intro other call' hcall'
    rcases hold other call' hcall' with hpc | hcall'
    · rw [hpc]
      trivial
    · exact h.calls other call' hcall'
  · intro other call' p hcall' hb
    rcases hold other call' hcall' with hpc | hcall'
    · simp [hpc, Pc.building] at hb
    · obtain ⟨hcached, hcalls⟩ := h.unshared other call' p hcall' hb
      refine ⟨hcached, fun other' call'' hne hcall'' hp => ?_⟩
      rcases hold other' call'' hcall'' with hpc | hcall''
      · simp [hpc, Pc.script] at hp
      · exact hcalls other' call'' hne hcall'' hp

theorem Integrity.init (db : Database) : Integrity compile (State.init db : State Code M) where
  entries id p hp := by simp [State.init] at hp
  calls c call hc := by cases hc
  unshared c call p hc := by cases hc

theorem Integrity.step {s next : State Code M} {label : Label} (h : Integrity compile s)
    (hs : step compile useCache s label = some next) : Integrity compile next := by
  rcases step_cases hs with ⟨c, op, id, rfl, hc, rfl⟩ | ⟨c, fault, call, rfl, hc, hm⟩ |
    ⟨id, row, rfl, rfl⟩
  · exact h.start hc
  · exact h.moves hc hm
  · exact ⟨h.entries, h.calls, h.unshared⟩

theorem Integrity.run {s final : State Code M} {labels : List Label} (h : Integrity compile s)
    (hr : Steps.run (Scripts.step compile useCache) s labels = some final) :
    Integrity compile final :=
  Steps.run_invariant (Integrity compile) (fun _ _ _ hi hs => hi.step hs) h hr

-- ---------------------------------------------------------------------------
-- Fetches and failures in a run
-- ---------------------------------------------------------------------------

def Pc.Stored : Pc → Prop
  | .finish _ | .returned _ => True
  | _ => False

theorem step_stored {s next : State Code M} {label : Label} {c : CallId}
    (h : ∃ call, s.calls c = some call ∧ call.pc.Stored)
    (hs : Scripts.step compile useCache s label = some next) :
    ∃ call, next.calls c = some call ∧ call.pc.Stored := by
  obtain ⟨call, hc, hstored⟩ := h
  rcases step_cases hs with ⟨other, op, id, rfl, hnone, rfl⟩ |
    ⟨other, fault, call', rfl, hother, hm⟩ | ⟨id, row, rfl, rfl⟩
  · have hne : c ≠ other := fun he => by simp [← he, hc] at hnone
    exact ⟨call, by rw [State.setPc_calls_ne _ _ _ hne, hc], hstored⟩
  · by_cases hne : c = other
    · subst hne
      cases hc.symm.trans hother
      cases hm with
      | @returned script => exact ⟨_, State.setPc_calls_self _ _ _ (.returned script), trivial⟩
      | throws e hpc => rcases hpc with hpc | ⟨info, hpc⟩ <;> simp [hpc, Pc.Stored] at hstored
      | _ => simp_all [Pc.Stored]
    · obtain ⟨pc, hcalls⟩ := hm.calls
      exact ⟨call, by rw [hcalls, State.setPc_calls_ne _ _ _ hne, hc], hstored⟩
  · exact ⟨call, hc, hstored⟩

theorem cached_of_threw {mid next final : State Code M} {c : CallId} {fault : Option Exception}
    {after : List Label} (hs : Scripts.step compile useCache mid (.advance c fault) = some next)
    (hr : Steps.run (Scripts.step compile useCache) next after = some final)
    {call : Call} {e : Exception} (hc : final.calls c = some call) (hthrew : call.pc = .threw e) :
    next.store.cached = mid.store.cached := by
  rcases step_cases hs with ⟨_, _, _, hl, -⟩ | ⟨_, _, before, hl, hbefore, hm⟩ | ⟨_, _, hl, -⟩ <;>
    cases hl
  refine hm.cached fun script hput => ?_
  have hstored : ∃ call, next.calls c = some call ∧ call.pc.Stored := by
    cases hm with
    | @stored script => exact ⟨_, State.setPc_calls_self _ _ _ (.finish script), trivial⟩
    | throws e hpc => rcases hpc with hpc | ⟨info, hpc⟩ <;> simp [hpc] at hput
    | _ => simp_all
  obtain ⟨call', hc', hstored'⟩ :=
    Steps.run_invariant (fun s => ∃ call, s.calls c = some call ∧ call.pc.Stored)
      (fun _ _ _ h hs => step_stored h hs) hstored hr
  cases hc.symm.trans hc'
  simp [hthrew, Pc.Stored] at hstored'

/-- `info` is what `Fetch(id)` gives on the database of a state the run passes. -/
def FetchedIn (compile : String → Except Exception Code) (useCache : Bool) (s : State Code M)
    (labels : List Label) (id : ScriptIdType) (info : ScriptInfo) : Prop :=
  ∃ before after mid, labels = before ++ after ∧
    Steps.run (Scripts.step compile useCache) s before = some mid ∧ fetch mid.db id = .ok info

theorem fetched_in {s final : State Code M} {labels : List Label} {c : CallId} {id : ScriptIdType}
    {info : ScriptInfo} (hs : .fetched c id info ∉ s.log)
    (hr : Steps.run (Scripts.step compile useCache) s labels = some final)
    (hf : .fetched c id info ∈ final.log) : FetchedIn compile useCache s labels id info := by
  obtain ⟨before, label, after, mid, next, rfl, hbefore, hstep, hmid, hnext⟩ :=
    Steps.exists_step_of_run (P := fun s => .fetched c id info ∈ s.log) hs hr hf
  refine ⟨before, label :: after, mid, rfl, hbefore, ?_⟩
  rcases step_cases hstep with ⟨_, _, _, -, -, rfl⟩ | ⟨_, _, call, -, -, hm⟩ | ⟨_, _, -, rfl⟩
  · exact absurd hnext hmid
  · exact (hm.log_fetched hnext).resolve_left hmid
  · exact absurd hnext hmid

end

-- ---------------------------------------------------------------------------
-- The cache of a storage
-- ---------------------------------------------------------------------------

section
variable {Code : Type} (compile : String → Except Exception Code)
variable (lruMap : Nat → EvictingMap ScriptIdType ScriptPtr) (maxCacheSize : Nat)

/-- A script object with the given script id, whose code and project id come
from one `Fetch` of that id in the run. -/
def ScriptOf (db : Database) (labels : List Label)
    (s : State Code (lruMap maxCacheSize)) (id : ScriptIdType) (p : ScriptPtr) : Prop :=
  ∃ object info, s.store.objects[p]? = some object ∧ object.scriptId = some id ∧
    FetchedIn compile (maxCacheSize != 0) (State.init db : State Code (lruMap maxCacheSize))
      labels id info ∧
    compile info.sourceCode = .ok object.code ∧ object.projectId = some info.projectId

/-- In every interleaving of calls, failures, evictions and database changes:
every entry and every returned script is a script of its id, and a call that
threw changed no entry. -/
theorem cache_integrity (db : Database) (labels : List Label)
    (s : State Code (lruMap maxCacheSize))
    (hr : Steps.run (step compile (maxCacheSize != 0)) (State.init db) labels = some s) :
    (∀ id p, s.store.cached id = some p → ScriptOf compile lruMap maxCacheSize db labels s id p) ∧
    (∀ c call p, s.calls c = some call → call.pc = .returned p →
      ScriptOf compile lruMap maxCacheSize db labels s call.scriptId p) ∧
    (∀ c call e, s.calls c = some call → call.pc = .threw e →
      ∀ before fault after (mid next : State Code (lruMap maxCacheSize)),
        labels = before ++ .advance c fault :: after →
        Steps.run (step compile (maxCacheSize != 0)) (State.init db) before = some mid →
        step compile (maxCacheSize != 0) mid (.advance c fault) = some next →
        next.store.cached = mid.store.cached) := by
  have h : Integrity compile s := (Integrity.init db).run hr
  have hscript : ∀ id p, s.Holds compile id p →
      ScriptOf compile lruMap maxCacheSize db labels s id p := by
    rintro id p ⟨object, ho, hid, c, info, hfetched, hcode, hproject, -⟩
    exact ⟨object, info, ho, hid, fetched_in (List.not_mem_nil) hr hfetched, hcode, hproject⟩
  refine ⟨fun id p hp => hscript id p (h.entries id p hp), ?_, ?_⟩
  · intro c call p hc hpc
    have hcall := h.calls c call hc
    rw [hpc] at hcall
    exact hscript call.scriptId p hcall
  · rintro c call e hc hthrew before fault after mid next rfl hbefore hstep
    obtain ⟨mid', hmid', hrest⟩ := Steps.run_append_some.mp hr
    cases hbefore.symm.trans hmid'
    obtain ⟨next', hnext', hafter⟩ := Steps.run_cons_some.mp hrest
    cases hstep.symm.trans hnext'
    exact cached_of_threw hstep hafter hc hthrew

end

/-- `Compile` of the stub engine, which keeps the source as the code. -/
def stubCompile (code : String) : Except Exception String := .ok code

def oneScript : Database where
  rows id :=
    if id = 1 then some { parentProjectId := some 1, sourceCode := "local a = 5" } else none
  versions _ := 0

def builtScript (code : String) (version : Nat) : Script String :=
  { language := .lua, projectId := some 1, scriptId := some 1, code, version }

def missingGet (c : CallId) (id : ScriptIdType) : List Label :=
  .start c .get id :: List.replicate 7 (.advance c none)

abbrev OneEntry := State String (EvictingMap.lru ScriptIdType ScriptPtr 1)

theorem cache_integrity_missing_get :
    ∃ s : OneEntry, Steps.run (step stubCompile true) (State.init oneScript) (missingGet 0 1) =
        some s ∧
      ScriptOf stubCompile (EvictingMap.lru ScriptIdType ScriptPtr) 1 oneScript (missingGet 0 1)
        s 1 0 :=
  ⟨_, rfl, (cache_integrity stubCompile (EvictingMap.lru ScriptIdType ScriptPtr) 1 oneScript
    (missingGet 0 1) _ rfl).1 1 0 rfl⟩

end LambdaExecutor.Scripts
