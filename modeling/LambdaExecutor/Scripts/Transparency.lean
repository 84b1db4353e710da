import LambdaExecutor.Scripts.Sequential

/-!
# The refreshed cache is transparent

Sequential histories of `Get`, `Refresh` and changes of the table. When every
change of a script is followed by a `Refresh` of it before the next `Get`, and
no `Refresh` finds the script gone while the cache still has it, every `Get`
gives what it would give without the cache.
-/

namespace LambdaExecutor.Scripts

section
variable {Code : Type} {M : EvictingMap ScriptIdType ScriptPtr}
variable (compile : String → Except Exception Code)

-- ---------------------------------------------------------------------------
-- What the database holds for an id
-- ---------------------------------------------------------------------------

def currentScript (db : Database) (id : ScriptIdType) : Except Exception (Script Code) := do
  let info ← fetch db id
  let code ← compile info.sourceCode
  return { language := .lua, projectId := some info.projectId, scriptId := some id, code,
           version := info.version }

theorem Store.modify_create (st : Store Code M) (code : Code) (version : Nat)
    (f g : Script Code → Script Code) :
    (((st.create code version).2.objects.modify st.objects.length f).modify st.objects.length g) =
      st.objects ++ [g (f { language := .lua, projectId := none, scriptId := none, code,
                            version })] := by
  apply List.ext_getElem?
  intro i
  rcases Nat.lt_trichotomy i st.objects.length with hi | rfl | hi
  · simp [Store.create, List.getElem?_append_left hi, Nat.ne_of_gt hi]
  · simp [Store.create]
  · rw [List.getElem?_eq_none (by simp [Store.create]; omega),
      List.getElem?_eq_none (by simp; omega)]

theorem load_cases (db : Database) (st : Store Code M) (id : ScriptIdType) :
    (∃ e, load compile db st id = (.error e, st) ∧ currentScript compile db id = .error e) ∨
    (∃ object st', load compile db st id = (.ok st.objects.length, st') ∧
      currentScript compile db id = .ok object ∧ st'.objects = st.objects ++ [object] ∧
      st'.cached = st.cached) := by
  unfold load currentScript
  cases hf : fetch db id with
  | error e => exact .inl ⟨e, rfl, rfl⟩
  | ok info =>
    cases hc : compile info.sourceCode with
    | error e => exact .inl ⟨e, by simp [hc], by simp [hc, bind, Except.bind]⟩
    | ok code =>
      let st' := ((st.create code info.version).2.setScriptId st.objects.length id).setProjectId
        st.objects.length info.projectId
      have hobjects := st.modify_create code info.version
        (fun object => { object with scriptId := some id })
        (fun object => { object with projectId := some info.projectId })
      refine .inr ⟨_, st', by simp only [hc]; rfl, ?_, hobjects, rfl⟩
      simp only [hc, bind, Except.bind, pure, Except.pure]

variable {compile}

theorem currentScript_change {db : Database} {id : ScriptIdType} {k : Int}
    (row : Option ScriptRow) (h : id.toInt ≠ k) :
    currentScript compile (db.change k row) id = currentScript compile db id := by
  have hfetch : fetch (db.change k row) id = fetch db id := by simp [fetch, Database.change, h]
  simp [currentScript, hfetch]

/-- Only a missing or unreadable row makes the current script of a database
fail whose sources compile. -/
def Compilable (compile : String → Except Exception Code) (row : ScriptRow) : Prop :=
  ∃ code, compile row.sourceCode = .ok code

def Database.Compilable (compile : String → Except Exception Code) (db : Database) : Prop :=
  ∀ k row, db.rows k = some row → Scripts.Compilable compile row

theorem fetch_of_currentScript {db : Database} (hdb : db.Compilable compile) {id : ScriptIdType}
    {e : Exception} (h : currentScript compile db id = .error e) : fetch db id = .error e := by
  cases hf : fetch db id with
  | error e' => simpa [currentScript, hf, bind, Except.bind] using h
  | ok info =>
    exfalso
    unfold fetch at hf
    split at hf
    · cases hf
    next row hrow =>
      obtain ⟨code, hcode⟩ := hdb _ row hrow
      split at hf <;> cases hf
      simp_all [currentScript, fetch, bind, Except.bind, pure, Except.pure]

-- ---------------------------------------------------------------------------
-- Sequential histories
-- ---------------------------------------------------------------------------

inductive Request
  | get (id : ScriptIdType)
  | refresh (id : ScriptIdType)
  | change (id : Int) (row : Option ScriptRow)

structure Served (Code : Type) (M : EvictingMap ScriptIdType ScriptPtr) where
  db : Database
  store : Store Code M

def Served.init (db : Database) : Served Code M := { db, store := Store.new }

/-- Every request can be served; one that throws may still change the store. -/
def serve (compile : String → Except Exception Code) (useCache : Bool) (s : Served Code M) :
    Request → Option (Served Code M)
  | .get id => some { s with store := (get compile useCache s.db s.store id).2 }
  | .refresh id => some { s with store := (refresh compile s.db s.store id).2 }
  | .change id row => some { s with db := s.db.change id row }

def answer (compile : String → Except Exception Code) (useCache : Bool) (s : Served Code M)
    (id : ScriptIdType) : Except Exception (Option (Script Code)) :=
  match get compile useCache s.db s.store id with
  | (.error e, _) => .error e
  | (.ok script, store) => .ok store.objects[script]?

/-- Every changed script is refreshed before the next `Get` of it; `dirty` are
the ids which are still to be refreshed. -/
def Followed : List Int → List Request → Prop
  | _, [] => True
  | dirty, .get id :: rest => id.toInt ∉ dirty ∧ Followed dirty rest
  | dirty, .refresh id :: rest => Followed (dirty.filter (· ≠ id.toInt)) rest
  | dirty, .change id _ :: rest => Followed (id :: dirty) rest

instance Followed.decidable : ∀ dirty requests, Decidable (Followed dirty requests)
  | _, [] => isTrue trivial
  | dirty, .get id :: rest =>
    have := Followed.decidable dirty rest
    inferInstanceAs (Decidable (id.toInt ∉ dirty ∧ Followed dirty rest))
  | dirty, .refresh id :: rest => Followed.decidable (dirty.filter (· ≠ id.toInt)) rest
  | dirty, .change id _ :: rest => Followed.decidable (id :: dirty) rest

def Request.Compilable (compile : String → Except Exception Code) : Request → Prop
  | .change _ (some row) => Scripts.Compilable compile row
  | _ => True

/-- A `Refresh` whose `Fetch` fails finds no entry to leave behind. -/
def NotGone (s : Served Code M) : Request → Prop
  | .refresh id => (fetch s.db id).isOk ∨ s.store.cached id = none
  | _ => True

instance NotGone.decidable (s : Served Code M) : ∀ request, Decidable (NotGone s request)
  | .get _ => isTrue trivial
  | .refresh id => inferInstanceAs (Decidable ((fetch s.db id).isOk ∨ s.store.cached id = none))
  | .change _ _ => isTrue trivial

/-- Outside `dirty` the cache holds what the database holds. -/
structure Synced (compile : String → Except Exception Code) (dirty : List Int)
    (s : Served Code M) : Prop where
  compilable : s.db.Compilable compile
  entries : ∀ id p, s.store.cached id = some p → id.toInt ∉ dirty → ∃ object,
    s.store.objects[p]? = some object ∧ currentScript compile s.db id = .ok object

theorem Synced.init {db : Database} (hdb : db.Compilable compile) (dirty : List Int) :
    Synced compile dirty (Served.init db : Served Code M) :=
  ⟨hdb, fun id p hp => by cases (Store.cached_new id).symm.trans hp⟩

theorem Synced.put {dirty dirty' : List Int} {s : Served Code M} {store : Store Code M}
    {id : ScriptIdType} {object : Script Code} (h : Synced compile dirty s)
    (hobject : currentScript compile s.db id = .ok object)
    (hobjects : store.objects = s.store.objects ++ [object])
    (hcached : store.cached = s.store.cached)
    (hdirty : ∀ k ∈ dirty, k ≠ id.toInt → k ∈ dirty') :
    Synced compile dirty' { s with store := store.put id s.store.objects.length } := by
  refine ⟨h.compilable, fun other p hp hclean => ?_⟩
  rcases store.cached_put hp with ⟨rfl, rfl⟩ | ⟨hne, hold⟩
  · exact ⟨object, by simp [hobjects], hobject⟩
  · have hk : other.toInt ∉ dirty := fun hmem =>
      hclean (hdirty _ hmem fun heq => hne (BitVec.eq_of_toInt_eq heq))
    rw [hcached] at hold
    obtain ⟨found, hfound, hcurrent⟩ := h.entries other p hold hk
    refine ⟨found, ?_, hcurrent⟩
    rw [Store.objects_put, hobjects,
      List.getElem?_append_left (List.getElem?_eq_some_iff.mp hfound).1, hfound]

theorem Synced.get {dirty : List Int} {s : Served Code M} {id : ScriptIdType} {useCache : Bool}
    (h : Synced compile dirty s) :
    Synced compile dirty { s with store := (Scripts.get compile useCache s.db s.store id).2 } := by
  cases useCache with
  | false =>
    rcases load_cases compile s.db s.store id with
      ⟨e, hload, -⟩ | ⟨object, st', hload, -, hobjects, hcached⟩
    · simpa [Scripts.get, hload] using h
    · refine ⟨h.compilable, fun other p hp hclean => ?_⟩
      simp only [Scripts.get, hload, Bool.false_eq_true, if_false] at hp ⊢
      obtain ⟨found, hfound, hcurrent⟩ := h.entries other p (hcached ▸ hp) hclean
      refine ⟨found, ?_, hcurrent⟩
      rw [hobjects, List.getElem?_append_left (List.getElem?_eq_some_iff.mp hfound).1, hfound]
  | true =>
    cases hl : s.store.lookup id with
    | mk found store =>
      have hlookup : Synced compile dirty { s with store } := by
        refine ⟨h.compilable, fun other p hp hclean => ?_⟩
        rw [show store = (s.store.lookup id).2 by rw [hl]] at hp ⊢
        exact h.entries other p (by rwa [Store.cached_lookup] at hp) hclean
      cases found with
      | some script => simpa [Scripts.get, hl] using hlookup
      | none =>
        rcases load_cases compile s.db store id with
          ⟨e, hload, -⟩ | ⟨object, st', hload, hobject, hobjects, hcached⟩
        · simpa [Scripts.get, hl, hload] using hlookup
        · simpa [Scripts.get, hl, hload] using
            hlookup.put hobject hobjects hcached fun k hk _ => hk

theorem Synced.refresh {dirty : List Int} {s : Served Code M} {id : ScriptIdType}
    (h : Synced compile dirty s) (hok : NotGone s (.refresh id)) :
    Synced compile (dirty.filter (· ≠ id.toInt))
      { s with store := (Scripts.refresh compile s.db s.store id).2 } := by
  rcases load_cases compile s.db s.store id with
    ⟨e, hload, hcurrent⟩ | ⟨object, st', hload, hobject, hobjects, hcached⟩
  · refine ⟨h.compilable, fun other p hp hclean => ?_⟩
    simp only [Scripts.refresh, hload] at hp ⊢
    by_cases hk : other.toInt ∈ dirty
    · have heq : other = id := by
        by_contra hne
        refine hclean (List.mem_filter.mpr ⟨hk, ?_⟩)
        simpa using fun heq => hne (BitVec.eq_of_toInt_eq heq)
      subst heq
      have hgone := fetch_of_currentScript h.compilable hcurrent
      rcases hok with hfetched | hnone
      · simp [hgone, Except.isOk, Except.toBool] at hfetched
      · cases hnone.symm.trans hp
    · exact h.entries other p hp hk
  · simp only [Scripts.refresh, hload]
    refine h.put hobject hobjects hcached fun k hk hne => ?_
    exact List.mem_filter.mpr ⟨hk, by simpa using hne⟩

theorem Synced.change {dirty : List Int} {s : Served Code M} {k : Int} {row : Option ScriptRow}
    (h : Synced compile dirty s) (hrow : (Request.change k row).Compilable compile) :
    Synced compile (k :: dirty) { s with db := s.db.change k row } := by
  refine ⟨fun other found hfound => ?_, fun id p hp hclean => ?_⟩
  · by_cases hk : other = k
    · simp only [Database.change, hk, if_true] at hfound
      subst hfound
      exact hrow
    · simp only [Database.change, hk, if_false] at hfound
      exact h.compilable other found hfound
  · obtain ⟨hk, hmem⟩ := not_or.mp (mt List.mem_cons.mpr hclean)
    obtain ⟨object, ho, hcurrent⟩ := h.entries id p hp hmem
    exact ⟨object, ho, (currentScript_change row hk).trans hcurrent⟩

theorem Synced.answer {dirty : List Int} {s : Served Code M} {id : ScriptIdType} {useCache : Bool}
    (h : Synced compile dirty s) (hclean : id.toInt ∉ dirty) :
    Scripts.answer compile useCache s id = (currentScript compile s.db id).map some := by
  have huncached : ∀ st : Store Code M, (match load compile s.db st id with
      | (.error e, _) => Except.error e
      | (.ok script, store) => .ok store.objects[script]?) =
        (currentScript compile s.db id).map some := by
    intro st
    rcases load_cases compile s.db st id with
      ⟨e, hload, hcurrent⟩ | ⟨object, st', hload, hcurrent, ho, -⟩
    · simp [hload, hcurrent, Except.map]
    · simp [hload, hcurrent, ho, Except.map]
  cases useCache with
  | false => simpa [Scripts.answer, Scripts.get] using huncached s.store
  | true =>
    cases hl : s.store.lookup id with
    | mk found store =>
      have hfound : s.store.cached id = found := by rw [← Store.lookup_value, hl]
      have hobjects : store.objects = s.store.objects := by
        rw [show store = (s.store.lookup id).2 by rw [hl], Store.objects_lookup]
      cases found with
      | some script =>
        obtain ⟨object, ho, hcurrent⟩ := h.entries id script hfound hclean
        simp [Scripts.answer, Scripts.get, hl, hobjects, hcurrent, ho, Except.map]
      | none =>
        rw [← huncached store]
        simp only [Scripts.answer, Scripts.get, hl, if_true]
        cases load compile s.db store id with
        | mk result st' => cases result <;> rfl

theorem Synced.run {dirty : List Int} {s final : Served Code M} {history : List Request}
    {id : ScriptIdType} {useCache : Bool} (h : Synced compile dirty s)
    (hfollowed : Followed dirty (history ++ [.get id]))
    (hcompilable : ∀ request ∈ history, request.Compilable compile)
    (hok : Steps.Along (serve compile useCache) NotGone s history)
    (hr : Steps.run (serve compile useCache) s history = some final) :
    ∃ dirty, Synced compile dirty final ∧ id.toInt ∉ dirty := by
  induction history generalizing dirty s with
  | nil =>
    cases hr
    exact ⟨dirty, h, hfollowed.1⟩
  | cons request rest ih =>
    obtain ⟨next, hnext, hrest⟩ := Steps.run_cons_some.mp hr
    have hrestOk := hok.2 next hnext
    have hrestCompilable := fun other hmem => hcompilable other (List.mem_cons_of_mem request hmem)
    cases request with
    | get other =>
      cases hnext
      exact ih h.get hfollowed.2 hrestCompilable hrestOk hrest
    | refresh other =>
      cases hnext
      exact ih (h.refresh hok.1) hfollowed hrestCompilable hrestOk hrest
    | change k row =>
      cases hnext
      exact ih (h.change (hcompilable _ List.mem_cons_self)) hfollowed hrestCompilable hrestOk hrest

/-- A `Refresh` that finds the script gone leaves its entry, and the next `Get`
still runs it. -/
theorem gone_script_answered {s next : Served Code M} {id : ScriptIdType} {p : ScriptPtr}
    {object : Script Code} {e : Exception} (hp : s.store.cached id = some p)
    (ho : s.store.objects[p]? = some object) (hgone : fetch s.db id = .error e)
    (hn : serve compile true s (.refresh id) = some next) :
    answer compile true next id = .ok (some object) ∧ answer compile false next id = .error e := by
  have hsame : next = s := by simpa [serve, Scripts.refresh, load, hgone] using hn.symm
  subst hsame
  refine ⟨?_, by simp [answer, Scripts.get, load, hgone]⟩
  cases hl : next.store.lookup id with
  | mk found store =>
    have hfound : next.store.cached id = found := by rw [← Store.lookup_value, hl]
    have hobjects : store.objects = next.store.objects := by
      rw [show store = (next.store.lookup id).2 by rw [hl], Store.objects_lookup]
    obtain rfl : some p = found := hp.symm.trans hfound
    simp [answer, Scripts.get, hl, hobjects, ho]

end

section
variable {Code : Type} (compile : String → Except Exception Code)
variable (lruMap : Nat → EvictingMap ScriptIdType ScriptPtr) (maxCacheSize : Nat)

/-- With every change refreshed and no `Refresh` finding a cached script gone,
a `Get` gives what it gives without the cache: the current script of its id. -/
theorem cache_transparent (db : Database) (hdb : db.Compilable compile) (history : List Request)
    (id : ScriptIdType) (s : Served Code (lruMap maxCacheSize))
    (hfollowed : Followed [] (history ++ [.get id]))
    (hcompilable : ∀ request ∈ history, request.Compilable compile)
    (hok : Steps.Along (serve compile (maxCacheSize != 0)) NotGone
      (Served.init db : Served Code (lruMap maxCacheSize)) history)
    (hr : Steps.run (serve compile (maxCacheSize != 0)) (Served.init db) history = some s) :
    answer compile (maxCacheSize != 0) s id = answer compile false s id ∧
      answer compile false s id = (currentScript compile s.db id).map some := by
  obtain ⟨dirty, hsynced, hclean⟩ :=
    (Synced.init hdb []).run hfollowed hcompilable hok hr
  exact ⟨(hsynced.answer hclean).trans (hsynced.answer hclean).symm, hsynced.answer hclean⟩

end

def updatedScript : List Request :=
  [.get 1, .change 1 (some { parentProjectId := some 1, sourceCode := "local a = 6" }), .refresh 1]

def deletedScript : List Request := [.get 1, .change 1 none, .refresh 1]

theorem stubCompile_compilable (db : Database) : db.Compilable stubCompile :=
  fun _ row _ => ⟨row.sourceCode, rfl⟩

theorem stubCompile_request (request : Request) : request.Compilable stubCompile := by
  rcases request with _ | _ | ⟨_, _ | row⟩
  · trivial
  · trivial
  · trivial
  · exact ⟨row.sourceCode, rfl⟩

theorem cache_transparent_updated :
    ∃ s : Served String (EvictingMap.lru ScriptIdType ScriptPtr 1),
      Steps.run (serve stubCompile true) (Served.init oneScript) updatedScript = some s ∧
      answer stubCompile true s 1 = answer stubCompile false s 1 :=
  ⟨_, rfl, (cache_transparent stubCompile (EvictingMap.lru ScriptIdType ScriptPtr) 1 oneScript
    (stubCompile_compilable _) updatedScript 1 _ (by decide) (fun request _ =>
      stubCompile_request request) (by decide) rfl).1⟩

/-- The deleted script is still run, the database says that there is none. -/
theorem deleted_script_still_answered :
    Followed [] (deletedScript ++ [.get 1]) ∧
    (∀ request ∈ deletedScript, request.Compilable stubCompile) ∧
    ∃ s : Served String (EvictingMap.lru ScriptIdType ScriptPtr 1),
      Steps.run (serve stubCompile true) (Served.init oneScript) deletedScript = some s ∧
      answer stubCompile true s 1 = .ok (some (builtScript "local a = 5" 0)) ∧
      answer stubCompile false s 1 =
        .error (.notFoundScriptError "No script with such id (id = 1)") :=
  ⟨by decide, fun request _ => stubCompile_request request, _, rfl, rfl, rfl⟩

end LambdaExecutor.Scripts
