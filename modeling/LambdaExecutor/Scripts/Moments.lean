import LambdaExecutor.Scripts.Transparency

/-!
# Reads at one moment

A `Refresh`, and a `Get` without the cache, give the script of the row as it was at one
moment of the call, in every interleaving with other calls and changes of the table.
-/

namespace LambdaExecutor.Scripts

section
variable {Code : Type} {M : EvictingMap ScriptIdType ScriptPtr}

-- ---------------------------------------------------------------------------
-- Calls that fetch for themselves
-- ---------------------------------------------------------------------------

/-- The operation never answers from the cache. -/
def Operation.Fetches (useCache : Bool) (op : Operation) : Prop := op = .refresh ∨ useCache = false

def ScriptInfo.script (info : ScriptInfo) (id : ScriptIdType) (code : Code) : Script Code where
  language := .lua
  projectId := some info.projectId
  scriptId := some id
  code
  version := info.version

variable (compile : String → Except Exception Code)

/-- The object is the script of what the call itself has fetched. -/
def OwnScript (log : List (Obs Code)) (c : CallId) (id : ScriptIdType) (object : Script Code) :
    Prop :=
  ∃ info code, .fetched c id info ∈ log ∧ compile info.sourceCode = .ok code ∧
    object = info.script id code

def OwnOk (s : State Code M) (c : CallId) (id : ScriptIdType) : Pc → Prop
  | .compile info => .fetched c id info ∈ s.log
  | .setScriptId p info => .fetched c id info ∈ s.log ∧ ∃ code,
      compile info.sourceCode = .ok code ∧ s.store.objects[p]? = some
        { info.script id code with projectId := none, scriptId := none }
  | .setProjectId p info => .fetched c id info ∈ s.log ∧ ∃ code,
      compile info.sourceCode = .ok code ∧ s.store.objects[p]? = some
        { info.script id code with projectId := none }
  | .put p | .finish p | .returned p => ∃ object, s.store.objects[p]? = some object ∧
      OwnScript compile s.log c id object
  | _ => True

structure OwnReads (useCache : Bool) (s : State Code M) : Prop where
  calls : ∀ c call, s.calls c = some call → call.op.Fetches useCache →
    OwnOk compile s c call.scriptId call.pc
  returned : ∀ c op id object, .returned c op id object ∈ s.log → op.Fetches useCache →
    OwnScript compile s.log c id object
  ended : ∀ c op id object, .returned c op id object ∈ s.log →
    ∃ call p, s.calls c = some call ∧ call.pc = .returned p

variable {compile}

theorem OwnScript.mono {log log' : List (Obs Code)} {c : CallId} {id : ScriptIdType}
    {object : Script Code} (h : OwnScript compile log c id object)
    (hlog : ∀ obs ∈ log, obs ∈ log') : OwnScript compile log' c id object := by
  obtain ⟨info, code, hfetched, hrest⟩ := h
  exact ⟨info, code, hlog _ hfetched, hrest⟩

variable {useCache : Bool} {s next : State Code M} {c other : CallId} {call : Call}
  {id : ScriptIdType} {pc : Pc}

theorem Moves.objects (hm : Moves compile useCache s c call next) {p : ScriptPtr}
    {object : Script Code} (hp : call.pc.building ≠ some p)
    (ho : s.store.objects[p]? = some object) : next.store.objects[p]? = some object := by
  cases hm with
  | @compiled info code hpc hcode =>
    have hlt := (List.getElem?_eq_some_iff.mp ho).1
    exact (s.store.create_get_of_lt code info.version hlt).trans ho
  | @scriptIdSet script info hpc =>
    have hne : p ≠ script := fun he => hp (by rw [hpc, he]; rfl)
    exact (s.store.setScriptId_get_ne call.scriptId hne).trans ho
  | @projectIdSet script info next hpc hnext =>
    have hne : p ≠ script := fun he => hp (by rw [hpc, he]; rfl)
    exact (s.store.setProjectId_get_ne info.projectId hne).trans ho
  | _ => exact ho

theorem OwnOk.keep (hm : Moves compile useCache s c call next)
    (hp : ∀ p, pc.script = some p → call.pc.building ≠ some p)
    (h : OwnOk compile s other id pc) : OwnOk compile next other id pc := by
  have hlog : ∀ obs ∈ s.log, obs ∈ next.log := fun _ => hm.log_mono
  cases pc with
  | compile info => exact hlog _ h
  | setScriptId p info =>
    obtain ⟨hf, code, hcode, ho⟩ := h
    exact ⟨hlog _ hf, code, hcode, hm.objects (hp p rfl) ho⟩
  | setProjectId p info =>
    obtain ⟨hf, code, hcode, ho⟩ := h
    exact ⟨hlog _ hf, code, hcode, hm.objects (hp p rfl) ho⟩
  | put p | finish p | returned p =>
    obtain ⟨object, ho, hown⟩ := h
    exact ⟨object, hm.objects (hp p rfl) ho, hown.mono hlog⟩
  | _ => trivial

theorem OwnOk.advance (hm : Moves compile useCache s c call next)
    (hown : call.op.Fetches useCache) (h : OwnOk compile s c call.scriptId call.pc) :
    ∃ pc, next.calls = (s.setPc c call pc).calls ∧ OwnOk compile next c call.scriptId pc := by
  cases hm with
  | hit hpc hop hcache hfound => rcases hown with hop' | hcache' <;> simp_all
  | miss hpc hfound => exact ⟨.fetch, rfl, trivial⟩
  | skip hpc => exact ⟨.fetch, rfl, trivial⟩
  | throws e hpc => exact ⟨.threw e, rfl, trivial⟩
  | @fetched info hpc hinfo => exact ⟨.compile info, rfl, List.mem_cons_self⟩
  | @compiled info code hpc hcode =>
    rw [hpc] at h
    exact ⟨_, rfl, h, code, hcode, s.store.create_get code info.version⟩
  | @scriptIdSet script info hpc =>
    rw [hpc] at h
    obtain ⟨hf, code, hcode, ho⟩ := h
    refine ⟨_, rfl, hf, code, hcode, ?_⟩
    exact (s.store.setScriptId_get script call.scriptId).trans (by rw [ho]; rfl)
  | @projectIdSet script info pc hpc hnext =>
    rw [hpc] at h
    obtain ⟨hf, code, hcode, ho⟩ := h
    have hdone : ∃ object, (s.store.setProjectId script info.projectId).objects[script]? =
        some object ∧ OwnScript compile s.log c call.scriptId object :=
      ⟨info.script call.scriptId code,
        (s.store.setProjectId_get script info.projectId).trans (by rw [ho]; rfl),
        info, code, hf, hcode, rfl⟩
    refine ⟨pc, rfl, ?_⟩
    rcases hnext with ⟨rfl, -⟩ | rfl <;> exact hdone
  | @stored script object hpc hobject =>
    rw [hpc] at h
    obtain ⟨found, hfound, hscript⟩ := h
    exact ⟨.finish script, rfl, found, hfound, hscript.mono fun _ => List.mem_cons_of_mem _⟩
  | @returned script object hpc hobject =>
    rw [hpc] at h
    obtain ⟨found, hfound, hscript⟩ := h
    exact ⟨.returned script, rfl, found, hfound, hscript.mono fun _ => List.mem_cons_of_mem _⟩

theorem Moves.not_returned (hm : Moves compile useCache s c call next) (p : ScriptPtr) :
    call.pc ≠ .returned p := by
  cases hm with
  | throws e hpc => rcases hpc with hpc | ⟨info, hpc⟩ <;> simp [hpc]
  | _ => simp_all

theorem Moves.finished (hm : Moves compile useCache s c call next) {p : ScriptPtr}
    (hpc : call.pc = .finish p) : next.calls c = some { call with pc := .returned p } := by
  cases hm with
  | @returned script object hfinish hobject =>
    obtain rfl := Pc.finish.inj (hfinish.symm.trans hpc)
    exact State.setPc_calls_self s c call (.returned script)
  | throws e hthrows => rcases hthrows with hthrows | ⟨info, hthrows⟩ <;> simp_all
  | _ => simp_all

theorem OwnReads.moves (h : OwnReads compile useCache s) (hi : Integrity compile s)
    (hc : s.calls c = some call) (hm : Moves compile useCache s c call next) :
    OwnReads compile useCache next := by
  obtain ⟨pc, hcalls⟩ := hm.calls
  have hother : ∀ other, other ≠ c → next.calls other = s.calls other := fun other hne => by
    rw [hcalls, State.setPc_calls_ne _ _ _ hne]
  refine ⟨fun other call' hcall' hown => ?_, fun other op id object hmem hown => ?_,
    fun other op id object hmem => ?_⟩
  · by_cases hne : other = c
    · subst hne
      have hop : call'.op = call.op ∧ call'.scriptId = call.scriptId := by
        rw [hcalls, State.setPc_calls_self] at hcall'
        obtain rfl := Option.some.inj hcall'
        exact ⟨rfl, rfl⟩
      rw [hop.1] at hown
      obtain ⟨pc', hcalls', hok⟩ := OwnOk.advance hm hown (h.calls other call hc hown)
      rw [hcalls', State.setPc_calls_self] at hcall'
      obtain rfl := Option.some.inj hcall'
      exact hok
    · rw [hother other hne] at hcall'
      refine OwnOk.keep hm (fun p hp hb => ?_) (h.calls other call' hcall' hown)
      exact (hi.unshared c call p hc hb).2 other call' hne hcall' hp
  · rcases hm.log_returned hmem with hold | ⟨rfl, rfl, rfl, script, hpc, hobject⟩
    · exact (h.returned other op id object hold hown).mono fun _ => hm.log_mono
    · have hcall := h.calls other call hc hown
      rw [hpc] at hcall
      obtain ⟨found, hfound, hscript⟩ := hcall
      obtain rfl := Option.some.inj (hfound.symm.trans hobject)
      exact hscript.mono fun _ => hm.log_mono
  · rcases hm.log_returned hmem with hold | ⟨rfl, -, -, script, hpc, -⟩
    · obtain ⟨call', p, hcall', hpc⟩ := h.ended other op id object hold
      by_cases hne : other = c
      · subst hne
        cases hc.symm.trans hcall'
        exact absurd hpc (hm.not_returned p)
      · exact ⟨call', p, (hother other hne).trans hcall', hpc⟩
    · exact ⟨_, script, hm.finished hpc, rfl⟩

theorem OwnReads.start (h : OwnReads compile useCache s) (hc : s.calls c = none) (call : Call) :
    OwnReads compile useCache (s.setPc c call .begin) := by
  refine ⟨fun other call' hcall' hown => ?_, h.returned, fun other op id object hmem => ?_⟩
  · by_cases hne : other = c
    · subst hne
      rw [State.setPc_calls_self] at hcall'
      obtain rfl := Option.some.inj hcall'
      trivial
    · rw [State.setPc_calls_ne _ _ _ hne] at hcall'
      exact h.calls other call' hcall' hown
  · obtain ⟨call', p, hcall', hpc⟩ := h.ended other op id object hmem
    have hne : other ≠ c := fun he => by simp [← he, hcall'] at hc
    exact ⟨call', p, by rwa [State.setPc_calls_ne _ _ _ hne], hpc⟩

theorem OwnReads.step {label : Label} (h : OwnReads compile useCache s) (hi : Integrity compile s)
    (hs : step compile useCache s label = some next) : OwnReads compile useCache next := by
  rcases step_cases hs with ⟨c, op, id, rfl, hc, rfl⟩ | ⟨c, fault, call, rfl, hc, hm⟩ |
    ⟨id, row, rfl, rfl⟩
  · exact h.start hc _
  · exact h.moves hi hc hm
  · exact ⟨h.calls, h.returned, h.ended⟩

theorem OwnReads.init (db : Database) :
    OwnReads compile useCache (State.init db : State Code M) where
  calls c call hc := by cases hc
  returned c op id object hmem := absurd hmem List.not_mem_nil
  ended c op id object hmem := absurd hmem List.not_mem_nil

theorem OwnReads.run {final : State Code M} {labels : List Label}
    (h : OwnReads compile useCache s) (hi : Integrity compile s)
    (hr : Steps.run (Scripts.step compile useCache) s labels = some final) :
    OwnReads compile useCache final :=
  (Steps.run_invariant (fun s => Integrity compile s ∧ OwnReads compile useCache s)
    (fun _ _ _ hinv hs => ⟨hinv.1.step hs, hinv.2.step hinv.1 hs⟩) ⟨hi, h⟩ hr).2

-- ---------------------------------------------------------------------------
-- The moment of the read
-- ---------------------------------------------------------------------------

theorem Moves.fetched_cases {info : ScriptInfo} (hm : Moves compile useCache s c call next)
    (hold : .fetched other id info ∉ s.log) (h : .fetched other id info ∈ next.log) :
    other = c ∧ call.pc = .fetch ∧ fetch s.db id = .ok info := by
  cases hm with
  | fetched hpc hinfo =>
    rcases List.mem_cons.mp h with he | hmem
    · cases he
      exact ⟨rfl, hpc, hinfo⟩
    · exact absurd hmem hold
  | stored | returned => exact absurd ((List.mem_cons.mp h).resolve_left (by simp)) hold
  | _ => exact absurd h hold

theorem currentScript_eq_ok {db : Database} {info : ScriptInfo} {code : Code}
    (hinfo : fetch db id = .ok info) (hcode : compile info.sourceCode = .ok code) :
    currentScript compile db id = .ok (info.script id code) := by
  simp [currentScript, hinfo, hcode, bind, Except.bind, pure, Except.pure, ScriptInfo.script]

end

section
variable {Code : Type} (compile : String → Except Exception Code)
variable (lruMap : Nat → EvictingMap ScriptIdType ScriptPtr) (maxCacheSize : Nat)

/-- What a `Refresh` returns, and what a `Get` returns without the cache, is the script that the
database had at a moment when the call had started and had not returned. -/
theorem read_at_one_moment (db : Database) (labels : List Label)
    (final : State Code (lruMap maxCacheSize)) (c : CallId) (op : Operation) (id : ScriptIdType)
    (script : Script Code) (hop : op = .refresh ∨ maxCacheSize = 0)
    (hr : Steps.run (step compile (maxCacheSize != 0)) (State.init db) labels = some final)
    (hreturned : .returned c op id script ∈ final.log) :
    ∃ before after, ∃ mid : State Code (lruMap maxCacheSize), labels = before ++ after ∧
      Steps.run (step compile (maxCacheSize != 0)) (State.init db) before = some mid ∧
      (∃ call, mid.calls c = some call) ∧
      (∀ op' id' script', .returned c op' id' script' ∉ mid.log) ∧
      currentScript compile mid.db id = .ok script := by
  have hfetches : op.Fetches (maxCacheSize != 0) := hop.imp_right fun hzero => by simp [hzero]
  have hfinal : OwnReads compile (maxCacheSize != 0) final :=
    (OwnReads.init db).run (Integrity.init db) hr
  obtain ⟨info, code, hfetched, hcode, rfl⟩ := hfinal.returned c op id script hreturned hfetches
  have hstart : ¬ .fetched c id info ∈ (State.init db : State Code (lruMap maxCacheSize)).log :=
    List.not_mem_nil
  obtain ⟨before, label, after, mid, next, rfl, hbefore, hstep, hmid, hnext⟩ :=
    Steps.exists_step_of_run (P := fun s => .fetched c id info ∈ s.log) hstart hr hfetched
  have hreads : OwnReads compile (maxCacheSize != 0) mid :=
    (OwnReads.init db).run (Integrity.init db) hbefore
  rcases step_cases hstep with ⟨_, _, _, -, -, rfl⟩ | ⟨_, _, call, -, hc, hm⟩ | ⟨_, _, -, rfl⟩
  · exact absurd hnext hmid
  · obtain ⟨rfl, hpc, hinfo⟩ := hm.fetched_cases hmid hnext
    refine ⟨before, label :: after, mid, rfl, hbefore, ⟨call, hc⟩, fun op' id' script' hmem => ?_,
      currentScript_eq_ok hinfo hcode⟩
    obtain ⟨call', p, hcall', hpc'⟩ := hreads.ended c op' id' script' hmem
    cases hc.symm.trans hcall'
    cases hpc.symm.trans hpc'
  · exact absurd hnext hmid

end

/-- The row changes after it has been fetched, and before the script is returned. -/
def overtakenGet : List Label :=
  ([.start 0 .get 1, .advance 0 none, .advance 0 none,
    .change 1 (some { parentProjectId := some 1, sourceCode := "local a = 6" })] : List Label) ++
  (List.replicate 4 (.advance 0 none) : List Label)

theorem overtaken_get_reads_once :
    ∃ before after, ∃ mid : State String (EvictingMap.lru ScriptIdType ScriptPtr 0),
      overtakenGet = before ++ after ∧
      Steps.run (step stubCompile false) (State.init oneScript) before = some mid ∧
      (∃ call, mid.calls 0 = some call) ∧
      (∀ op id script, .returned 0 op id script ∉ mid.log) ∧
      currentScript stubCompile mid.db 1 = .ok (builtScript "local a = 5" 0) :=
  read_at_one_moment stubCompile (EvictingMap.lru ScriptIdType ScriptPtr) 0 oneScript overtakenGet
    _ 0 .get 1 _ (.inr rfl) rfl List.mem_cons_self

end LambdaExecutor.Scripts
