import LambdaExecutor.Scripts.Transparency

/-!
# Sequential histories are serial runs

The interleaving machine also has the runs in which every call ends before the next one starts.
They are the sequential histories of `get`, `refresh` and changes of the table: each history has
one such run, and the run leaves the same table and the same storage and gives every caller what
the history gives him.
-/

namespace LambdaExecutor.Scripts

def Pc.result : Pc → Option (Except Exception ScriptPtr)
  | .returned script => some (.ok script)
  | .threw e => some (.error e)
  | _ => none

/-- The labels with which call `c` serves a request, with no other label in between. -/
inductive Serves (c : CallId) : Request → List Label → Prop
  | get (id : ScriptIdType) (n : Nat) :
      Serves c (.get id) (.start c .get id :: List.replicate n (.advance c none))
  | refresh (id : ScriptIdType) (n : Nat) :
      Serves c (.refresh id) (.start c .refresh id :: List.replicate n (.advance c none))
  | change (k : Int) (row : Option ScriptRow) : Serves c (.change k row) [.change k row]

/-- The requests are served one after the other, by the calls from `c` on. -/
inductive Serial : CallId → List Request → List Label → Prop
  | nil (c : CallId) : Serial c [] []
  | cons {c : CallId} {request : Request} {rest : List Request} {labels more : List Label}
      (hfirst : Serves c request labels) (hrest : Serial (c + 1) rest more) :
      Serial c (request :: rest) (labels ++ more)

section
variable {Code : Type} {M : EvictingMap ScriptIdType ScriptPtr}
variable (compile : String → Except Exception Code) (useCache : Bool)

def State.Ended (s : State Code M) : Prop :=
  ∀ c call, s.calls c = some call → call.pc.result.isSome

def Agrees (s : Served Code M) (ended : Option Call) : Request → Prop
  | .get id => ∃ call, ended = some call ∧
      call.pc.result = some (get compile useCache s.db s.store id).1
  | .refresh id => ∃ call, ended = some call ∧
      call.pc.result.map (Except.map fun _ => ()) = some (refresh compile s.db s.store id).1
  | .change _ _ => ended = none

/-- The calls from `c` on have ended with what the history gives from `s` on. -/
def Answered (calls : CallId → Option Call) : CallId → Served Code M → List Request → Prop
  | _, _, [] => True
  | c, s, request :: rest => Agrees compile useCache s (calls c) request ∧
      ∀ next, serve compile useCache s request = some next → Answered calls (c + 1) next rest

variable {compile useCache} {s next final : State Code M} {served after : Served Code M}
  {c : CallId} {call : Call} {request : Request} {labels : List Label}

-- ---------------------------------------------------------------------------
-- Calls that others do not touch
-- ---------------------------------------------------------------------------

def Label.Of (c : CallId) : Label → Prop
  | .start other _ _ => other = c
  | .advance other _ => other = c
  | .change _ _ => False

theorem step_calls {label : Label} (hs : step compile useCache s label = some next)
    (h : ¬ label.Of c) : next.calls c = s.calls c := by
  rcases step_cases hs with ⟨other, op, id, rfl, -, rfl⟩ | ⟨other, fault, call, rfl, -, hm⟩ |
    ⟨id, row, rfl, rfl⟩
  · exact s.setPc_calls_ne _ _ (Ne.symm h)
  · obtain ⟨pc, hcalls⟩ := hm.calls
    rw [hcalls, s.setPc_calls_ne call pc (Ne.symm h)]
  · rfl

theorem run_calls (hr : Steps.run (step compile useCache) s labels = some final)
    (h : ∀ label ∈ labels, ¬ label.Of c) : final.calls c = s.calls c :=
  Steps.run_invariant_along (fun mid : State Code M => mid.calls c = s.calls c)
    (fun _ _ _ hmid hof hs => (step_calls hs hof.2).trans hmid) rfl
    ((Steps.along_true s labels).and_labels h) hr

theorem Serves.not_of {other : CallId} (h : Serves c request labels) (hne : other ≠ c) :
    ∀ label ∈ labels, ¬ label.Of other := by
  intro label hmem hof
  cases h with
  | get id n | refresh id n =>
    rcases List.mem_cons.mp hmem with rfl | hmem
    · exact hne hof.symm
    · obtain ⟨-, rfl⟩ := List.mem_replicate.mp hmem
      exact hne hof.symm
  | change k row =>
    obtain rfl := List.mem_singleton.mp hmem
    exact hof

theorem Serial.not_of {other : CallId} {history : List Request} (h : Serial c history labels)
    (hlt : other < c) : ∀ label ∈ labels, ¬ label.Of other := by
  induction h with
  | nil => exact fun label hmem => absurd hmem List.not_mem_nil
  | cons hfirst _ ih =>
    intro label hmem
    rcases List.mem_append.mp hmem with hmem | hmem
    · exact hfirst.not_of (Nat.ne_of_lt hlt) label hmem
    · exact ih (Nat.lt_succ_of_lt hlt) label hmem

-- ---------------------------------------------------------------------------
-- Every history has a serial run
-- ---------------------------------------------------------------------------

theorem served_of_ends {op : Operation} {id : ScriptIdType} {store : Store Code M} {pc : Pc}
    (hdb : s.db = served.db) (hfree : s.calls c = none)
    (hserves : ∀ n, Serves c request (.start c op id :: List.replicate n (.advance c none)))
    (hagrees : ∀ call : Call, call.pc = pc → Agrees compile useCache served (some call) request)
    (h : Ends compile useCache (s.setPc c { op, scriptId := id, pc := .begin } .begin) c
      { op, scriptId := id, pc := .begin } store pc) :
    ∃ labels final, Serves c request labels ∧
      Steps.run (step compile useCache) s labels = some final ∧ final.db = served.db ∧
      final.store = store ∧ Agrees compile useCache served (final.calls c) request := by
  obtain ⟨final, ⟨⟨n, hrun⟩, hfinal⟩, hcall, hstore⟩ := h
  have hstart : step compile useCache s (.start c op id) =
      some (s.setPc c { op, scriptId := id, pc := .begin } .begin) := by simp [step, hfree]
  refine ⟨_, final, hserves n, Steps.run_cons_some.mpr ⟨_, hstart, hrun⟩, hfinal.trans hdb,
    hstore, ?_⟩
  rw [hcall]
  exact hagrees _ rfl

theorem served_by_call (h : Integrity compile s) (hdb : s.db = served.db)
    (hstore : s.store = served.store) (hfree : s.calls c = none)
    (hn : serve compile useCache served request = some after) :
    ∃ labels final, Serves c request labels ∧
      Steps.run (step compile useCache) s labels = some final ∧ final.db = after.db ∧
      final.store = after.store ∧ Agrees compile useCache served (final.calls c) request := by
  cases request with
  | get id =>
    obtain rfl := Option.some.inj hn
    let call : Call := { op := .get, scriptId := id, pc := .begin }
    have hends := @get_alone _ _ compile useCache _ c call (h.start hfree)
      (s.setPc_calls_self c call .begin) rfl rfl
    simp only [State.setPc_db, State.setPc_store, hdb, hstore] at hends
    cases hget : get compile useCache served.db served.store id with
    | mk result store =>
      rw [hget] at hends
      cases result with
      | error e =>
        exact served_of_ends hdb hfree (.get id)
          (fun call hpc => ⟨call, rfl, by rw [hpc, hget]; rfl⟩) hends
      | ok script =>
        exact served_of_ends hdb hfree (.get id)
          (fun call hpc => ⟨call, rfl, by rw [hpc, hget]; rfl⟩) hends
  | refresh id =>
    obtain rfl := Option.some.inj hn
    let call : Call := { op := .refresh, scriptId := id, pc := .begin }
    have hends := @refresh_alone _ _ compile useCache _ c call
      (s.setPc_calls_self c call .begin) rfl rfl
    simp only [State.setPc_db, State.setPc_store, hdb, hstore] at hends
    cases hrefresh : refresh compile served.db served.store id with
    | mk result store =>
      rw [hrefresh] at hends
      cases result with
      | error e =>
        exact served_of_ends hdb hfree (.refresh id)
          (fun call hpc => ⟨call, rfl, by rw [hpc, hrefresh]; rfl⟩) hends
      | ok done =>
        obtain ⟨script, hends⟩ := hends
        exact served_of_ends hdb hfree (.refresh id)
          (fun call hpc => ⟨call, rfl, by rw [hpc, hrefresh]; rfl⟩) hends
  | change k row =>
    obtain rfl := Option.some.inj hn
    exact ⟨[.change k row], { s with db := s.db.change k row }, .change k row, rfl,
      congrArg (Database.change · k row) hdb, hstore, hfree⟩

theorem Agrees.ended (h : Agrees compile useCache served (s.calls c) request)
    (hcall : s.calls c = some call) : call.pc.result.isSome := by
  cases request with
  | get id =>
    obtain ⟨other, hother, hresult⟩ := h
    obtain rfl := Option.some.inj (hcall.symm.trans hother)
    simp [hresult]
  | refresh id =>
    obtain ⟨other, hother, hresult⟩ := h
    obtain rfl := Option.some.inj (hcall.symm.trans hother)
    obtain ⟨result, hresult, -⟩ := Option.map_eq_some_iff.mp hresult
    simp [hresult]
  | change k row => cases hcall.symm.trans h

theorem exists_serial_run {history : List Request} {last : Served Code M}
    (hi : Integrity compile s) (hdb : s.db = served.db) (hstore : s.store = served.store)
    (hfree : ∀ other, c ≤ other → s.calls other = none) (hended : s.Ended)
    (hr : Steps.run (serve compile useCache) served history = some last) :
    ∃ labels final, Serial c history labels ∧
      Steps.run (step compile useCache) s labels = some final ∧ final.Ended ∧
      final.db = last.db ∧ final.store = last.store ∧
      Answered compile useCache final.calls c served history := by
  induction history generalizing c s served with
  | nil =>
    obtain rfl := Option.some.inj hr
    exact ⟨[], s, .nil c, rfl, hended, hdb, hstore, trivial⟩
  | cons request rest ih =>
    obtain ⟨after, hserve, hrest⟩ := Steps.run_cons_some.mp hr
    obtain ⟨labels, mid, hfirst, hrun, hmidDb, hmidStore, hagrees⟩ :=
      served_by_call hi hdb hstore (hfree c (Nat.le_refl c)) hserve
    have hkept : ∀ other, other ≠ c → mid.calls other = s.calls other := fun other hne =>
      run_calls hrun (hfirst.not_of hne)
    have hmidFree : ∀ other, c + 1 ≤ other → mid.calls other = none := fun other hle =>
      (hkept other (Nat.ne_of_gt hle)).trans (hfree other (Nat.le_of_lt hle))
    have hmidEnded : mid.Ended := by
      intro other call hcall
      by_cases hsame : other = c
      · subst hsame
        exact hagrees.ended hcall
      · exact hended other call ((hkept other hsame).symm.trans hcall)
    obtain ⟨more, final, hserial, hfinal, hfinalEnded, hfinalDb, hfinalStore, hanswered⟩ :=
      ih (hi.run hrun) hmidDb hmidStore hmidFree hmidEnded hrest
    refine ⟨labels ++ more, final, .cons hfirst hserial,
      Steps.run_append_some.mpr ⟨mid, hrun, hfinal⟩, hfinalEnded, hfinalDb, hfinalStore, ?_,
      fun next hnext => ?_⟩
    · rw [run_calls hfinal (hserial.not_of (Nat.lt_succ_self c))]
      exact hagrees
    · obtain rfl := Option.some.inj (hserve.symm.trans hnext)
      exact hanswered

-- ---------------------------------------------------------------------------
-- And only one
-- ---------------------------------------------------------------------------

theorem advance_of_result {fault : Option Exception} (h : call.pc.result.isSome) :
    advance compile useCache s c call fault = none := by
  cases hpc : call.pc with
  | returned | threw => simp [advance, hpc]
  | _ => simp [hpc, Pc.result] at h

theorem no_run_of_ended {n : Nat} (hcall : s.calls c = some call) (h : call.pc.result.isSome)
    (hr : Steps.run (step compile useCache) s (List.replicate n (.advance c none)) = some final) :
    n = 0 := by
  cases n with
  | zero => rfl
  | succ n =>
    obtain ⟨next, hs, -⟩ := Steps.run_cons_some.mp hr
    simp [step, hcall, advance_of_result h] at hs

theorem steps_le {n m : Nat} {final' : State Code M} (hcall : final.calls c = some call)
    (hended : call.pc.result.isSome)
    (hr : Steps.run (step compile useCache) s (List.replicate n (.advance c none)) = some final)
    (hr' : Steps.run (step compile useCache) s (List.replicate m (.advance c none)) =
      some final') : m ≤ n := by
  rcases Nat.le_total m n with hle | hle
  · exact hle
  · obtain ⟨k, rfl⟩ := Nat.exists_eq_add_of_le hle
    rw [← List.replicate_append_replicate] at hr'
    obtain ⟨mid, hmid, hrest⟩ := Steps.run_append_some.mp hr'
    obtain rfl := Option.some.inj (hr.symm.trans hmid)
    obtain rfl := no_run_of_ended hcall hended hrest
    exact Nat.le_refl n

theorem calls_of_run (hr : Steps.run (step compile useCache) s labels = some final)
    (hcall : (s.calls c).isSome) : (final.calls c).isSome := by
  refine Steps.run_invariant (fun mid : State Code M => (mid.calls c).isSome)
    (fun mid label next hmid hs => ?_) hcall hr
  by_cases hof : label.Of c
  · cases label with
    | start other op id =>
      obtain rfl : other = c := hof
      obtain ⟨call, hcall⟩ := Option.isSome_iff_exists.mp hmid
      simp [step, hcall] at hs
    | advance other fault =>
      obtain rfl : other = c := hof
      obtain ⟨call, hcall⟩ := Option.isSome_iff_exists.mp hmid
      have hadvance : advance compile useCache mid other call fault = some next := by
        simpa [step, hcall] using hs
      obtain ⟨pc, hcalls⟩ := (advance_moves hadvance).calls
      rw [hcalls, mid.setPc_calls_self]
      rfl
    | change k row => exact hof.elim
  · rw [step_calls hs hof]
    exact hmid

theorem steps_unique {op : Operation} {id : ScriptIdType} {n m : Nat} {final' : State Code M}
    (hended : ∀ call, final.calls c = some call → call.pc.result.isSome)
    (hended' : ∀ call, final'.calls c = some call → call.pc.result.isSome)
    (hr : Steps.run (step compile useCache) s
      (.start c op id :: List.replicate n (.advance c none)) = some final)
    (hr' : Steps.run (step compile useCache) s
      (.start c op id :: List.replicate m (.advance c none)) = some final') : n = m := by
  obtain ⟨started, hstart, hrun⟩ := Steps.run_cons_some.mp hr
  obtain ⟨started', hstart', hrun'⟩ := Steps.run_cons_some.mp hr'
  obtain rfl := Option.some.inj (hstart.symm.trans hstart')
  have hstarted : (started.calls c).isSome := by
    rcases step_cases hstart with ⟨other, op, id, heq, -, rfl⟩ | ⟨other, fault, call, heq, -⟩ |
      ⟨k, row, heq, -⟩
    · cases heq
      simp
    · cases heq
    · cases heq
  obtain ⟨call, hcall⟩ := Option.isSome_iff_exists.mp (calls_of_run hrun hstarted)
  obtain ⟨call', hcall'⟩ := Option.isSome_iff_exists.mp (calls_of_run hrun' hstarted)
  exact Nat.le_antisymm (steps_le hcall' (hended' call' hcall') hrun' hrun)
    (steps_le hcall (hended call hcall) hrun hrun')

theorem Serves.unique {labels' : List Label} {final' : State Code M}
    (h : Serves c request labels) (h' : Serves c request labels')
    (hended : ∀ call, final.calls c = some call → call.pc.result.isSome)
    (hended' : ∀ call, final'.calls c = some call → call.pc.result.isSome)
    (hr : Steps.run (step compile useCache) s labels = some final)
    (hr' : Steps.run (step compile useCache) s labels' = some final') : labels = labels' := by
  cases h with
  | get id n =>
    cases h' with
    | get id m => rw [steps_unique hended hended' hr hr']
  | refresh id n =>
    cases h' with
    | refresh id m => rw [steps_unique hended hended' hr hr']
  | change k row =>
    cases h' with
    | change k row => rfl

/-- Two serial runs of a history in which all calls have ended are the same. -/
theorem Serial.unique {history : List Request} {labels' : List Label} {final' : State Code M}
    (h : Serial c history labels) (h' : Serial c history labels')
    (hended : final.Ended) (hended' : final'.Ended)
    (hr : Steps.run (step compile useCache) s labels = some final)
    (hr' : Steps.run (step compile useCache) s labels' = some final') : labels = labels' := by
  induction h generalizing s labels' with
  | nil =>
    cases h'
    rfl
  | @cons c request rest first more hfirst hrest ih =>
    cases h' with
    | @cons _ _ _ first' more' hfirst' hrest' =>
      obtain ⟨mid, hmid, hmore⟩ := Steps.run_append_some.mp hr
      obtain ⟨mid', hmid', hmore'⟩ := Steps.run_append_some.mp hr'
      -- The later calls leave this one as it was, so it had ended before they started.
      have hcalls := run_calls hmore (hrest.not_of (Nat.lt_succ_self c))
      have hcalls' := run_calls hmore' (hrest'.not_of (Nat.lt_succ_self c))
      obtain rfl := hfirst.unique hfirst'
        (fun call hcall => hended c call (hcalls.trans hcall))
        (fun call hcall => hended' c call (hcalls'.trans hcall)) hmid hmid'
      obtain rfl := Option.some.inj (hmid.symm.trans hmid')
      rw [ih hrest' hmore hmore']

end

section
variable {Code : Type} (compile : String → Except Exception Code)
variable (lruMap : Nat → EvictingMap ScriptIdType ScriptPtr) (maxCacheSize : Nat)

/-- Every history of requests is the serial run of the interleaving machine for it: the run
exists, and where its calls have ended it left the same table and storage and gave the same
answers. -/
theorem history_is_serial_run (db : Database) (history : List Request)
    (s : Served Code (lruMap maxCacheSize))
    (hr : Steps.run (serve compile (maxCacheSize != 0)) (Served.init db) history = some s) :
    (∃ labels final, Serial 0 history labels ∧
      Steps.run (step compile (maxCacheSize != 0))
        (State.init db : State Code (lruMap maxCacheSize)) labels = some final ∧ final.Ended) ∧
    ∀ labels final, Serial 0 history labels →
      Steps.run (step compile (maxCacheSize != 0))
        (State.init db : State Code (lruMap maxCacheSize)) labels = some final → final.Ended →
      final.db = s.db ∧ final.store = s.store ∧
        Answered compile (maxCacheSize != 0) final.calls 0
          (Served.init db : Served Code (lruMap maxCacheSize)) history := by
  have hinit : (State.init db : State Code (lruMap maxCacheSize)).Ended :=
    fun c call hcall => by cases hcall
  obtain ⟨labels, final, hserial, hrun, hended, hdb, hstore, hanswered⟩ :=
    exists_serial_run (Integrity.init db) rfl rfl (fun _ _ => rfl) hinit hr
  refine ⟨⟨labels, final, hserial, hrun, hended⟩, fun labels' final' hserial' hrun' hended' => ?_⟩
  obtain rfl := hserial.unique hserial' hended hended' hrun hrun'
  obtain rfl := Option.some.inj (hrun.symm.trans hrun')
  exact ⟨hdb, hstore, hanswered⟩

end

theorem updatedScript_is_serial_run :
    ∃ (labels : List Label) (final : OneEntry)
        (s : Served String (EvictingMap.lru ScriptIdType ScriptPtr 1)) (get refresh : Call),
      Serial 0 updatedScript labels ∧
      Steps.run (step stubCompile true) (State.init oneScript) labels = some final ∧
      Steps.run (serve stubCompile true) (Served.init oneScript) updatedScript = some s ∧
      final.store = s.store ∧ final.calls 0 = some get ∧ get.pc.result = some (.ok 0) ∧
      final.calls 2 = some refresh ∧
      refresh.pc.result.map (Except.map fun _ => ()) = some (.ok ()) := by
  obtain ⟨⟨labels, final, hserial, hrun, hended⟩, hall⟩ :=
    history_is_serial_run stubCompile (EvictingMap.lru ScriptIdType ScriptPtr) 1 oneScript
      updatedScript _ rfl
  obtain ⟨-, hstore, ⟨get, hget, hgot⟩, hrest⟩ := hall labels final hserial hrun hended
  obtain ⟨-, hrest⟩ := hrest _ rfl
  obtain ⟨⟨refresh, hrefresh, hdone⟩, -⟩ := hrest _ rfl
  exact ⟨labels, final, _, get, refresh, hserial, hrun, rfl, hstore, hget, hgot, hrefresh, hdone⟩

end LambdaExecutor.Scripts
