import LambdaExecutor.Scripts.Integrity

/-!
# Refreshed scripts stay fresh

`Get` and `Refresh` write back what they fetched some time ago, so a slow call
can replace the entry of a newer `Refresh`. A run in which no call does that
(`NotStale`) loses no refresh: once a `Refresh` of an id has returned, every
`Get` of the id that starts afterwards returns a version at least as new.
-/

namespace LambdaExecutor.Scripts

section
variable {Code : Type} {M : EvictingMap ScriptIdType ScriptPtr}
variable {compile : String → Except Exception Code} {useCache : Bool}

def State.versionOf (s : State Code M) (p : ScriptPtr) : Option Nat :=
  s.store.objects[p]?.map Script.version

/-- No step puts a script older than one that a `Refresh` of its id has put. -/
def NotStale (s : State Code M) : Label → Prop
  | .advance c _ => ∀ call script object, s.calls c = some call → call.pc = .put script →
      s.store.objects[script]? = some object →
      ∀ r newer, .stored r .refresh call.scriptId newer ∈ s.log → newer.version ≤ object.version
  | _ => True

def Pc.putting : Pc → Option ScriptPtr
  | .put script => some script
  | _ => none

def Obs.refreshed (id : ScriptIdType) : Obs Code → Option (Script Code)
  | .stored _ .refresh other script => if other = id then some script else none
  | _ => none

theorem notStale_advance {s : State Code M} {c : CallId} {fault : Option Exception} :
    (∀ call ∈ s.calls c, ∀ script ∈ call.pc.putting, ∀ object ∈ s.store.objects[script]?,
      ∀ obs ∈ s.log, ∀ newer ∈ obs.refreshed call.scriptId, newer.version ≤ object.version) ↔
    NotStale s (.advance c fault) := by
  constructor
  · intro h call script object hc hpc ho r newer hmem
    exact h call hc script (by simp [hpc, Pc.putting]) object ho _ hmem newer
      (by simp [Obs.refreshed])
  · intro h call hc script hscript object ho obs hobs newer hnewer
    have hpc : call.pc = .put script := by
      cases hpc : call.pc <;> simp_all [Pc.putting]
    cases obs with
    | stored r op id script' =>
      cases op with
      | get => cases hnewer
      | refresh =>
        simp only [Obs.refreshed, Option.mem_def, Option.ite_none_right_eq_some,
          Option.some.injEq] at hnewer
        obtain ⟨rfl, rfl⟩ := hnewer
        exact h call script object hc hpc ho r script' hobs
    | _ => cases hnewer

instance (s : State Code M) : ∀ label, Decidable (NotStale s label)
  | .start .. => isTrue trivial
  | .advance .. => decidable_of_iff _ notStale_advance
  | .change .. => isTrue trivial

structure Fresh (s : State Code M) : Prop where
  fetched : ∀ c id info, .fetched c id info ∈ s.log → info.version ≤ s.db.versions id.toInt
  stored : ∀ c op id object, .stored c op id object ∈ s.log →
    object.version ≤ s.db.versions id.toInt
  finished : ∀ c call p, s.calls c = some call → call.op = .refresh → call.pc = .finish p →
    ∃ object, s.versionOf p = some object.version ∧
      .stored c .refresh call.scriptId object ∈ s.log
  returned : ∀ c id object, .returned c .refresh id object ∈ s.log →
    ∃ old, .stored c .refresh id old ∈ s.log ∧ object.version = old.version
  entries : ∀ id p version r newer, s.store.cached id = some p → s.versionOf p = some version →
    .stored r .refresh id newer ∈ s.log → newer.version ≤ version

theorem Moves.versionOf {s next : State Code M} {c : CallId} {call : Call} {p : ScriptPtr}
    {version : Nat} (hm : Moves compile useCache s c call next)
    (h : s.versionOf p = some version) : next.versionOf p = some version := by
  obtain ⟨object, ho, rfl⟩ := Option.map_eq_some_iff.mp h
  cases hm with
  | @compiled info code =>
    have hget := s.store.create_get_of_lt code info.version (List.getElem?_eq_some_iff.mp ho).1
    exact congrArg (Option.map Script.version) (hget.trans ho)
  | @scriptIdSet script =>
    by_cases hp : p = script
    · subst hp
      exact (congrArg (Option.map Script.version) (s.store.setScriptId_get p call.scriptId)).trans
        (by rw [ho]; rfl)
    · exact (congrArg (Option.map Script.version)
        (s.store.setScriptId_get_ne call.scriptId hp)).trans h
  | @projectIdSet script info =>
    by_cases hp : p = script
    · subst hp
      exact (congrArg (Option.map Script.version) (s.store.setProjectId_get p info.projectId)).trans
        (by rw [ho]; rfl)
    · exact (congrArg (Option.map Script.version)
        (s.store.setProjectId_get_ne info.projectId hp)).trans h
  | _ => exact h

theorem State.Holds.versionOf {s : State Code M} {id : ScriptIdType} {p : ScriptPtr}
    (h : s.Holds compile id p) : ∃ version, s.versionOf p = some version := by
  obtain ⟨object, ho, -⟩ := h
  exact ⟨object.version, by simp [State.versionOf, ho]⟩

theorem Moves.finish {s next : State Code M} {c : CallId} {call call' : Call} {p : ScriptPtr}
    (hm : Moves compile useCache s c call next) (hc : next.calls c = some call')
    (hop : call'.op = .refresh) (hpc : call'.pc = .finish p) :
    ∃ object, s.versionOf p = some object.version ∧
      .stored c .refresh call'.scriptId object ∈ next.log := by
  obtain ⟨pc, hcalls⟩ := hm.calls
  cases hm with
  | @stored script object hput hobject =>
    cases (State.setPc_calls_self _ c call (.finish script)).symm.trans hc
    cases hpc
    exact ⟨object, by simp [State.versionOf, hobject], by simp [← hop]⟩
  | @hit script _ hget =>
    cases (State.setPc_calls_self _ c call (.finish script)).symm.trans hc
    simp [hget] at hop
  | @projectIdSet script info later _ hlater =>
    cases (State.setPc_calls_self _ c call later).symm.trans hc
    rcases hlater with ⟨-, hget⟩ | rfl
    · simp [hget] at hop
    · cases hpc
  | _ =>
    cases (State.setPc_calls_self _ c call _).symm.trans hc
    cases hpc

theorem Fresh.moves {s next : State Code M} {c : CallId} {fault : Option Exception} {call : Call}
    (h : Fresh s) (hi : Integrity compile s) (hc : s.calls c = some call)
    (hok : NotStale s (.advance c fault)) (hm : Moves compile useCache s c call next) :
    Fresh next := by
  have hcall := hi.calls c call hc
  refine ⟨?_, ?_, ?_, ?_, ?_⟩
  · intro c' id info hmem
    rw [hm.db]
    rcases hm.log_fetched hmem with hold | hinfo
    · exact h.fetched c' id info hold
    · exact Nat.le_of_eq (fetch_version hinfo)
  · intro c' op id object hmem
    rw [hm.db]
    rcases hm.log_stored hmem with hold | ⟨rfl, rfl, rfl, script, hpc, ho⟩
    · exact h.stored c' op id object hold
    · rw [hpc] at hcall
      obtain ⟨found, hfound, -, c', info, hfetched, -, -, hversion⟩ := hcall
      cases ho.symm.trans hfound
      rw [hversion]
      exact h.fetched c' _ info hfetched
  · intro other call' p hc' hop hpc
    by_cases hne : other = c
    · subst hne
      obtain ⟨object, hversion, hstored⟩ := hm.finish hc' hop hpc
      exact ⟨object, hm.versionOf hversion, hstored⟩
    · obtain ⟨pc, hcalls⟩ := hm.calls
      rw [hcalls, State.setPc_calls_ne _ _ _ hne] at hc'
      obtain ⟨object, hversion, hstored⟩ := h.finished other call' p hc' hop hpc
      exact ⟨object, hm.versionOf hversion, hm.log_mono hstored⟩
  · intro c' id object hmem
    rcases hm.log_returned hmem with hold | ⟨rfl, hop, rfl, script, hpc, ho⟩
    · obtain ⟨old, hstored, hversion⟩ := h.returned c' id object hold
      exact ⟨old, hm.log_mono hstored, hversion⟩
    · obtain ⟨old, hversion, hstored⟩ := h.finished c' call script hc hop.symm hpc
      refine ⟨old, hm.log_mono hstored, ?_⟩
      simpa [State.versionOf, ho] using hversion
  · intro id p version r newer hcached hversion hmem
    rcases hm.cached_cases hcached with ⟨rfl, hpc⟩ | ⟨hold, hput⟩
    · -- The entry is the script the call puts, which is not stale.
      rw [hpc] at hcall
      obtain ⟨object, ho, -⟩ := hcall
      have hv : s.versionOf p = some object.version := by simp [State.versionOf, ho]
      cases (hm.versionOf hv).symm.trans hversion
      rcases hm.log_stored hmem with hstored | ⟨-, -, -, script, hpc', ho'⟩
      · exact hok call p object hc hpc ho r newer hstored
      · cases hpc.symm.trans hpc'
        cases ho.symm.trans ho'
        exact Nat.le_refl _
    · obtain ⟨v, hv⟩ := (hi.entries id p hold).versionOf
      cases (hm.versionOf hv).symm.trans hversion
      rcases hm.log_stored hmem with hstored | ⟨-, -, hid, script, hpc, -⟩
      · exact h.entries id p version r newer hold hv hstored
      · exact absurd hid (hput script hpc)

theorem Fresh.step {s next : State Code M} {label : Label} (h : Fresh s)
    (hi : Integrity compile s) (hok : NotStale s label)
    (hs : Scripts.step compile useCache s label = some next) : Fresh next := by
  rcases step_cases hs with ⟨c, op, id, rfl, hc, rfl⟩ | ⟨c, fault, call, rfl, hc, hm⟩ |
    ⟨changed, row, rfl, rfl⟩
  · refine ⟨h.fetched, h.stored, fun other call p hcall hop hpc => ?_, h.returned, h.entries⟩
    by_cases hne : other = c
    · subst hne
      cases (State.setPc_calls_self _ other _ .begin).symm.trans hcall
      cases hpc
    · rw [State.setPc_calls_ne _ _ _ hne] at hcall
      exact h.finished other call p hcall hop hpc
  · exact h.moves hi hc hok hm
  · have hle := fun id => s.db.versions_le_change changed id row
    exact ⟨fun c id info hm => Nat.le_trans (h.fetched c id info hm) (hle _),
      fun c op id object hm => Nat.le_trans (h.stored c op id object hm) (hle _),
      h.finished, h.returned, h.entries⟩

theorem Fresh.init (db : Database) : Fresh (State.init db : State Code M) where
  fetched c id info hm := absurd hm List.not_mem_nil
  stored c op id object hm := absurd hm List.not_mem_nil
  finished c call p hc := by cases hc
  returned c id object hm := absurd hm List.not_mem_nil
  entries id p version r newer _ _ hm := absurd hm List.not_mem_nil

-- ---------------------------------------------------------------------------
-- A Get which starts after a Refresh has returned
-- ---------------------------------------------------------------------------

def AtLeast (s : State Code M) (version : Nat) : Pc → Prop
  | .compile info | .setScriptId _ info | .setProjectId _ info => version ≤ info.version
  | .put p | .finish p | .returned p => ∃ v, s.versionOf p = some v ∧ version ≤ v
  | _ => True

structure GetAtLeast (g : CallId) (id : ScriptIdType) (version : Nat) (s : State Code M) :
    Prop where
  put : ∃ r newer, .stored r .refresh id newer ∈ s.log ∧ version ≤ newer.version
  call : ∃ call, s.calls g = some call ∧ call.scriptId = id ∧ AtLeast s version call.pc
  returned : ∀ object, .returned g .get id object ∈ s.log → version ≤ object.version

theorem AtLeast.keep {s next : State Code M} {version : Nat} {pc : Pc}
    (hversion : ∀ p v, s.versionOf p = some v → next.versionOf p = some v)
    (h : AtLeast s version pc) : AtLeast next version pc := by
  cases pc with
  | put p =>
    obtain ⟨v, hv, hle⟩ := h
    exact ⟨v, hversion p v hv, hle⟩
  | finish p =>
    obtain ⟨v, hv, hle⟩ := h
    exact ⟨v, hversion p v hv, hle⟩
  | returned p =>
    obtain ⟨v, hv, hle⟩ := h
    exact ⟨v, hversion p v hv, hle⟩
  | _ => exact h

/-- The steps of the call itself: a hit finds a fresh entry, a fetch reads the
current row, and the other steps keep what the call holds. -/
theorem GetAtLeast.moves {s next : State Code M} {g : CallId} {version : Nat} {call : Call}
    (h : GetAtLeast g call.scriptId version s) (hi : Integrity compile s) (hf : Fresh s)
    (hc : s.calls g = some call) (hm : Moves compile useCache s g call next) :
    ∃ pc, next.calls g = some { call with pc } ∧ AtLeast next version pc := by
  obtain ⟨r, newer, hput, hnewer⟩ := h.put
  obtain ⟨found, hfound, -, hold⟩ := h.call
  cases hc.symm.trans hfound
  have hcall := hi.calls g call hc
  cases hm with
  | @hit script hpc hop hcache hcached =>
    refine ⟨_, State.setPc_calls_self _ g call (.finish script), ?_⟩
    obtain ⟨v, hv⟩ := (hi.entries _ _ hcached).versionOf
    exact ⟨v, hv, Nat.le_trans hnewer (hf.entries _ _ v r newer hcached hv hput)⟩
  | miss => exact ⟨_, State.setPc_calls_self _ g call .fetch, trivial⟩
  | skip => exact ⟨_, State.setPc_calls_self _ g call .fetch, trivial⟩
  | throws e => exact ⟨_, State.setPc_calls_self _ g call (.threw e), trivial⟩
  | @fetched info hpc hinfo =>
    refine ⟨_, State.setPc_calls_self _ g call (.compile info), ?_⟩
    exact Nat.le_trans hnewer (fetch_version hinfo ▸ hf.stored r _ _ newer hput)
  | @compiled info code hpc =>
    rw [hpc] at hold
    exact ⟨_, State.setPc_calls_self _ g call (.setScriptId _ info), hold⟩
  | @scriptIdSet script info hpc =>
    rw [hpc] at hold
    exact ⟨_, State.setPc_calls_self _ g call (.setProjectId script info), hold⟩
  | @projectIdSet script info pc hpc hpc' =>
    refine ⟨_, State.setPc_calls_self _ g call pc, ?_⟩
    rw [hpc] at hold hcall
    obtain ⟨-, object, ho, -, hversion, -⟩ := hcall
    have hv : s.versionOf script = some info.version := by simp [State.versionOf, ho, hversion]
    have hnext := Moves.versionOf (.projectIdSet pc hpc hpc' :
      Moves compile useCache s g call _) hv
    rcases hpc' with ⟨rfl, -⟩ | rfl <;> exact ⟨info.version, hnext, hold⟩
  | @stored script object hpc =>
    rw [hpc] at hold
    exact ⟨_, State.setPc_calls_self _ g call (.finish script), hold⟩
  | @returned script object hpc =>
    rw [hpc] at hold
    exact ⟨_, State.setPc_calls_self _ g call (.returned script), hold⟩

theorem GetAtLeast.step {s next : State Code M} {label : Label} {g : CallId} {id : ScriptIdType}
    {version : Nat} (h : GetAtLeast g id version s) (hi : Integrity compile s) (hf : Fresh s)
    (hs : Scripts.step compile useCache s label = some next) : GetAtLeast g id version next := by
  obtain ⟨call, hg, hid, hold⟩ := h.call
  obtain ⟨r, newer, hput, hnewer⟩ := h.put
  rcases step_cases hs with ⟨c, op, id', rfl, hnone, rfl⟩ | ⟨c, fault, moved, rfl, hc, hm⟩ |
    ⟨changed, row, rfl, rfl⟩
  · have hne : g ≠ c := fun he => by simp [← he, hg] at hnone
    refine ⟨h.put, ⟨call, ?_, hid, hold⟩, h.returned⟩
    rw [State.setPc_calls_ne _ _ _ hne, hg]
  · refine ⟨⟨r, newer, hm.log_mono hput, hnewer⟩, ?_, ?_⟩
    · by_cases hne : g = c
      · subst hne hid
        cases hg.symm.trans hc
        obtain ⟨pc, hpc, hnew⟩ := h.moves hi hf hc hm
        exact ⟨_, hpc, rfl, hnew⟩
      · obtain ⟨pc, hcalls⟩ := hm.calls
        refine ⟨call, ?_, hid, hold.keep fun _ _ => hm.versionOf⟩
        rw [hcalls, State.setPc_calls_ne _ _ _ hne, hg]
    · intro object hmem
      rcases hm.log_returned hmem with hlog | ⟨rfl, -, -, script, hpc, ho⟩
      · exact h.returned object hlog
      · cases hg.symm.trans hc
        rw [hpc] at hold
        obtain ⟨v, hv, hle⟩ := hold
        simp only [State.versionOf, ho, Option.map_some, Option.some.injEq] at hv
        exact hv ▸ hle
  · exact ⟨h.put, ⟨call, hg, hid, hold⟩, h.returned⟩

theorem Fresh.run {s final : State Code M} {labels : List Label} (h : Fresh s)
    (hi : Integrity compile s)
    (hok : Steps.Along (Scripts.step compile useCache) NotStale s labels)
    (hr : Steps.run (Scripts.step compile useCache) s labels = some final) :
    Integrity compile final ∧ Fresh final :=
  Steps.run_invariant_along (fun s => Integrity compile s ∧ Fresh s)
    (fun _ _ _ hinv hns hs => ⟨hinv.1.step hs, hinv.2.step hinv.1 hns hs⟩) ⟨hi, h⟩ hok hr

theorem log_of_not_started {s : State Code M} {labels : List Label} {db : Database} {g : CallId}
    {op : Operation} {id : ScriptIdType} {object : Script Code}
    (hr : Steps.run (Scripts.step compile useCache) (State.init db) labels = some s)
    (hg : s.calls g = none) : .returned g op id object ∉ s.log := by
  have hinv : ∀ c op id object, .returned c op id object ∈ s.log → s.calls c ≠ none := by
    refine Steps.run_invariant (fun s => ∀ c op id object, .returned c op id object ∈ s.log →
      s.calls c ≠ none) (fun mid label next h hs => ?_) ?_ hr
    · intro c op id object hmem
      rcases step_cases hs with ⟨c', _, _, -, -, rfl⟩ | ⟨c', _, call, -, hc, hm⟩ | ⟨_, _, -, rfl⟩
      · have := h c op id object hmem
        by_cases hne : c = c'
        · simp [hne]
        · rwa [State.setPc_calls_ne _ _ _ hne]
      · obtain ⟨pc, hcalls⟩ := hm.calls
        by_cases hne : c = c'
        · simp [hcalls, hne]
        · rw [hcalls, State.setPc_calls_ne _ _ _ hne]
          rcases hm.log_returned hmem with hold | ⟨hcall, -⟩
          · exact h c op id object hold
          · exact absurd hcall hne
      · exact h c op id object hmem
    · exact fun c op id object hmem => absurd hmem List.not_mem_nil
  exact fun hmem => hinv g op id object hmem hg

end

section
variable {Code : Type} (compile : String → Except Exception Code)
variable (lruMap : Nat → EvictingMap ScriptIdType ScriptPtr) (maxCacheSize : Nat)

/-- In a run whose steps are not stale, a `Get` that starts after a `Refresh`
of the same id has returned gives a version at least as new. -/
theorem refresh_kept (db : Database) (before after : List Label)
    (mid final : State Code (lruMap maxCacheSize)) (r g : CallId) (id : ScriptIdType)
    (refreshed got : Script Code)
    (hok : Steps.Along (step compile (maxCacheSize != 0)) NotStale
      (State.init db : State Code (lruMap maxCacheSize)) (before ++ .start g .get id :: after))
    (hbefore : Steps.run (step compile (maxCacheSize != 0)) (State.init db) before = some mid)
    (hafter : Steps.run (step compile (maxCacheSize != 0)) mid (.start g .get id :: after) =
      some final)
    (hr : .returned r .refresh id refreshed ∈ mid.log)
    (hg : .returned g .get id got ∈ final.log) : refreshed.version ≤ got.version := by
  obtain ⟨hokBefore, hokAfter⟩ := hok.append hbefore
  obtain ⟨hi, hf⟩ := (Fresh.init db).run (Integrity.init db) hokBefore hbefore
  obtain ⟨next, hstart, hrest⟩ := Steps.run_cons_some.mp hafter
  obtain ⟨old, hstored, hversion⟩ := hf.returned r id refreshed hr
  have hnone : mid.calls g = none := by
    rcases step_cases hstart with ⟨_, _, _, hl, hnone, -⟩ | ⟨_, _, _, hl, -⟩ | ⟨_, _, hl, -⟩ <;>
      cases hl
    exact hnone
  have hlog : ∀ object, .returned g .get id object ∉ mid.log := fun _ =>
    log_of_not_started hbefore hnone
  have hnext : GetAtLeast g id refreshed.version next := by
    simp only [step, hnone, Option.some.injEq] at hstart
    subst hstart
    refine ⟨⟨r, old, hstored, Nat.le_of_eq hversion⟩,
      ⟨_, State.setPc_calls_self _ _ _ .begin, rfl, trivial⟩, fun object hmem => ?_⟩
    exact absurd hmem (hlog object)
  have hall := Steps.run_invariant_along
    (fun s => (Integrity compile s ∧ Fresh s) ∧ GetAtLeast g id refreshed.version s)
    (fun _ _ _ hinv hns hs => ⟨⟨hinv.1.1.step hs, hinv.1.2.step hinv.1.1 hns hs⟩,
      hinv.2.step hinv.1.1 hinv.1.2 hs⟩)
    ⟨⟨hi.step hstart, hf.step hi hokAfter.1 hstart⟩, hnext⟩ (hokAfter.2 next hstart) hrest
  exact hall.2.returned got hg

end

theorem refresh_kept_on_hit :
    ∃ (mid final : OneEntry) (refreshed got : Script String),
      Steps.run (step stubCompile true) (State.init oneScript)
        (.start 0 .refresh 1 :: List.replicate 7 (.advance 0 none)) = some mid ∧
      Steps.run (step stubCompile true) mid
        (.start 1 .get 1 :: List.replicate 2 (.advance 1 none)) = some final ∧
      .returned 0 .refresh 1 refreshed ∈ mid.log ∧ .returned 1 .get 1 got ∈ final.log ∧
      refreshed.version ≤ got.version :=
  ⟨_, _, _, _, rfl, rfl, List.mem_cons_self, List.mem_cons_self,
    refresh_kept stubCompile (EvictingMap.lru ScriptIdType ScriptPtr) 1
      oneScript (.start 0 .refresh 1 :: List.replicate 7 (.advance 0 none))
      (List.replicate 2 (.advance 1 none)) _ _ 0 1 1 _ _ (by decide) rfl rfl
      List.mem_cons_self List.mem_cons_self⟩

/-- Call 0 fetches, then the row changes and call 1 refreshes it, then call 0
puts the script it has fetched. -/
def slowGet : List Label :=
  ([.start 0 .get 1, .advance 0 none, .advance 0 none,
    .change 1 (some { parentProjectId := some 1, sourceCode := "local a = 6" })] : List Label) ++
  (.start 1 .refresh 1 :: List.replicate 7 (.advance 1 none) : List Label) ++
  (List.replicate 5 (.advance 0 none) : List Label)

/-- The refreshed version 1 is lost: call 2 starts afterwards and gets version 0. -/
theorem slow_get_loses_refresh :
    ∃ (mid final : OneEntry) (refreshed got : Script String),
      Steps.run (step stubCompile true) (State.init oneScript) slowGet = some mid ∧
      Steps.run (step stubCompile true) mid
        (.start 2 .get 1 :: List.replicate 2 (.advance 2 none)) = some final ∧
      .returned 1 .refresh 1 refreshed ∈ mid.log ∧ .returned 2 .get 1 got ∈ final.log ∧
      got.version < refreshed.version := by
  refine ⟨_, _, builtScript "local a = 6" 1, builtScript "local a = 5" 0, rfl, rfl, ?_, ?_, ?_⟩
  · exact List.mem_cons_of_mem _ (List.mem_cons_of_mem _ List.mem_cons_self)
  · exact List.mem_cons_self
  · decide

end LambdaExecutor.Scripts
