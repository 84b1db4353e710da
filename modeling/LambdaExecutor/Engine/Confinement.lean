import LambdaExecutor.Engine.Sandbox

/-!
# Confinement

Hidden are the unsafe values and the tables of `package`, through which they could
be reached. No table that a script can reach has an entry with a hidden value,
and `package.loaded` has one under the names of the unsafe libraries alone: so
`require` is the only way to them, and only under these names.
-/

namespace LambdaExecutor.Engine.Sandbox

open Lua

def hiddenValues (ndebug : Bool) : List Value :=
  unsafeValues ndebug ++ [.table loadedRef, .table preloadRef, .table searchersRef]

theorem hidden_of_unsafeValue {ndebug : Bool} {v : Value} (h : v ∈ unsafeValues ndebug) :
    v ∈ hiddenValues ndebug := List.mem_append_left _ h

theorem table_hidden_le {ndebug : Bool} {t : TableRef} (h : .table t ∈ hiddenValues ndebug) :
    t ≤ debugRef := by
  have hall : ∀ v ∈ hiddenValues ndebug, ∀ u, v = .table u → u ≤ debugRef := by
    cases ndebug <;> simp [hiddenValues, unsafeValues, unsafeLibraries, loaders, packageRef,
      loadedRef, preloadRef, searchersRef, ioRef, osRef, debugRef]
  exact hall _ h t rfl

theorem constant_not_hidden {ndebug : Bool} (c : Constant) : c.toValue ∉ hiddenValues ndebug := by
  cases c <;> cases ndebug <;>
    simp [hiddenValues, unsafeValues, unsafeLibraries, loaders, Constant.toValue]

theorem userdata_not_hidden {ndebug : Bool} (name : String) :
    .userdata name ∉ hiddenValues ndebug := by
  cases ndebug <;> simp [hiddenValues, unsafeValues, unsafeLibraries, loaders]

/-- Outside `package`, only globals under the given names have hidden values. -/
def Hides (ndebug : Bool) (names : List String) (h : Heap) : Prop :=
  ∀ t entries, h[t]? = some entries → .table t ∉ hiddenValues ndebug →
    ∀ entry ∈ entries, entry.2 ∈ hiddenValues ndebug →
      t = globalsRef ∧ ∃ name ∈ names, entry.1 = .string name

/-- `package.loaded` has the unsafe libraries under their names and nothing else that is hidden. -/
def LoadedKept (ndebug : Bool) (h : Heap) : Prop :=
  ∃ entries, h[loadedRef]? = some entries ∧
    (∀ library ∈ unsafeLibraries ndebug, entries.get (.string library.1) = .table library.2) ∧
    ∀ entry ∈ entries, entry.2 ∈ hiddenValues ndebug →
      ∃ library ∈ unsafeLibraries ndebug, entry.1 = .string library.1

structure HeapConfined (ndebug : Bool) (names : List String) (h : Heap) : Prop where
  hides : Hides ndebug names h
  loaded : LoadedKept ndebug h
  libraries : debugRef < h.length

variable {ndebug : Bool} {names : List String} {h : Heap}

-- ---------------------------------------------------------------------------
-- What keeps a heap confined
-- ---------------------------------------------------------------------------

theorem Hides.rawset (hh : Hides ndebug names h) {v : Value} (hv : v ∉ hiddenValues ndebug)
    (t : TableRef) (k : Value) : Hides ndebug names (h.rawset t k v) := by
  intro u entries hu hvisible entry hmem hhidden
  rw [Heap.getElem?_rawset] at hu
  split at hu
  next =>
    obtain ⟨old, hold, rfl⟩ := Option.map_eq_some_iff.mp hu
    obtain ⟨rfl, -⟩ | ⟨hmem, -⟩ := Table.mem_set hmem
    · exact absurd hhidden hv
    · exact hh u old hold hvisible entry hmem hhidden
  next => exact hh u entries hu hvisible entry hmem hhidden

theorem Hides.rawset_global (hh : Hides ndebug names h) {v : Value}
    (hv : v ∉ hiddenValues ndebug) (name : String) :
    Hides ndebug (names.filter (· ≠ name)) (h.rawset globalsRef (.string name) v) := by
  intro u entries hu hvisible entry hmem hhidden
  rw [Heap.getElem?_rawset] at hu
  split at hu
  next =>
    obtain ⟨old, hold, rfl⟩ := Option.map_eq_some_iff.mp hu
    obtain ⟨rfl, -⟩ | ⟨hmem, hne⟩ := Table.mem_set hmem
    · exact absurd hhidden hv
    · obtain ⟨hglobals, other, hother, hkey⟩ := hh u old hold hvisible entry hmem hhidden
      have hdiffers : other ≠ name := fun he => hne (by rw [hkey, he]; rfl)
      exact ⟨hglobals, other, List.mem_filter.mpr ⟨hother, decide_eq_true hdiffers⟩, hkey⟩
  next hu' =>
    obtain ⟨hglobals, -⟩ := hh u entries hu hvisible entry hmem hhidden
    exact absurd hglobals.symm hu'

theorem HeapConfined.rawset (hh : HeapConfined ndebug names h) {v : Value}
    (hv : v ∉ hiddenValues ndebug) {t : TableRef} (ht : t ≠ loadedRef) (k : Value) :
    HeapConfined ndebug names (h.rawset t k v) where
  hides := hh.hides.rawset hv t k
  loaded := by
    unfold LoadedKept
    rw [Heap.getElem?_rawset, if_neg ht]
    exact hh.loaded
  libraries := by
    rw [Heap.length_rawset]
    exact hh.libraries

theorem HeapConfined.rawset_global (hh : HeapConfined ndebug names h) {v : Value}
    (hv : v ∉ hiddenValues ndebug) (name : String) :
    HeapConfined ndebug (names.filter (· ≠ name)) (h.rawset globalsRef (.string name) v) :=
  { hh.rawset hv (by decide) (.string name) with hides := hh.hides.rawset_global hv name }

theorem HeapConfined.rawset_loaded (hh : HeapConfined ndebug names h) {v : Value}
    (hv : v ∉ hiddenValues ndebug) {name : String}
    (hname : name ∉ (unsafeLibraries ndebug).map Prod.fst) :
    HeapConfined ndebug names (h.rawset loadedRef (.string name) v) where
  hides := hh.hides.rawset hv loadedRef (.string name)
  loaded := by
    obtain ⟨entries, hentries, hget, honly⟩ := hh.loaded
    refine ⟨entries.set (.string name) v, ?_, ?_, ?_⟩
    · rw [Heap.getElem?_rawset, if_pos rfl, hentries]
      rfl
    · intro library hlibrary
      have hne : Value.string name ≠ .string library.1 := fun he =>
        hname (List.mem_map.mpr ⟨library, hlibrary, (Value.string.inj he).symm⟩)
      rw [Table.get_set_ne v hne, hget library hlibrary]
    · intro entry hmem hhidden
      obtain ⟨rfl, -⟩ | ⟨hmem, -⟩ := Table.mem_set hmem
      · exact absurd hhidden hv
      · exact honly entry hmem hhidden
  libraries := by
    rw [Heap.length_rawset]
    exact hh.libraries

theorem HeapConfined.newTable (hh : HeapConfined ndebug names h) :
    HeapConfined ndebug names (h ++ [[]]) where
  hides := by
    intro t entries ht hvisible entry hmem hhidden
    rw [List.getElem?_append] at ht
    split at ht
    next => exact hh.hides t entries ht hvisible entry hmem hhidden
    next =>
      rw [List.mem_singleton.mp (List.mem_of_getElem? ht)] at hmem
      exact absurd hmem List.not_mem_nil
  loaded := by
    obtain ⟨entries, hentries, hrest⟩ := hh.loaded
    have hlt : loadedRef < h.length := Nat.lt_trans (by decide) hh.libraries
    exact ⟨entries, by rw [List.getElem?_append_left hlt, hentries], hrest⟩
  libraries := by
    rw [List.length_append]
    exact Nat.lt_add_right _ hh.libraries

-- ---------------------------------------------------------------------------
-- Pushing objects
-- ---------------------------------------------------------------------------

mutual
def NoLoader : LuaObject → Prop
  | .function library name => .function library name ∉ loaders
  | .table fields => NoLoaders fields
  | _ => True
def NoLoaders : Fields → Prop
  | [] => True
  | (_, object) :: rest => NoLoader object ∧ NoLoaders rest
end

theorem function_not_hidden {library name : String}
    (h : .function library name ∉ loaders) : .function library name ∉ hiddenValues ndebug := by
  cases ndebug <;> simpa [hiddenValues, unsafeValues, unsafeLibraries, loaders] using h

mutual
theorem HeapConfined.push {h : Heap} (hh : HeapConfined ndebug names h) :
    (object : LuaObject) → NoLoader object →
      HeapConfined ndebug names (push h object).2 ∧ (push h object).1 ∉ hiddenValues ndebug
  | .nil, _ => ⟨hh, constant_not_hidden .nil⟩
  | .boolean b, _ => ⟨hh, constant_not_hidden (.boolean b)⟩
  | .number d, _ => ⟨hh, constant_not_hidden (.number (.float d))⟩
  | .string s, _ => ⟨hh, constant_not_hidden (.string s)⟩
  | .function _ _, hobject => ⟨hh, function_not_hidden hobject⟩
  | .userdata name, _ => ⟨hh, userdata_not_hidden name⟩
  | .thread t, _ => ⟨hh, by cases ndebug <;>
      simp [Sandbox.push, hiddenValues, unsafeValues, unsafeLibraries, loaders]⟩
  | .table fields, hobject => by
    -- The reference is new, so it is none of the hidden tables.
    have hnew : debugRef < h.length := hh.libraries
    refine ⟨hh.newTable.pushFields h.length ?_ fields hobject, fun hhidden => ?_⟩
    · exact Nat.ne_of_gt (Nat.lt_trans (by decide) hnew)
    · exact absurd (table_hidden_le hhidden) (Nat.not_le.mpr hnew)
theorem HeapConfined.pushFields {h : Heap} (hh : HeapConfined ndebug names h) (t : TableRef)
    (ht : t ≠ loadedRef) : (fields : Fields) → NoLoaders fields →
      HeapConfined ndebug names (pushFields h t fields)
  | [], _ => hh
  | (key, object) :: rest, hfields =>
    have hpush := hh.push object hfields.1
    (hpush.1.rawset hpush.2 ht key.toValue).pushFields t ht rest hfields.2
end

theorem HeapConfined.pushGlobals {h : Heap} {names : List String}
    (hh : HeapConfined ndebug names h) (env : LuaEnvironment)
    (henv : ∀ entry ∈ env, NoLoader entry.2) :
    HeapConfined ndebug (names.filter (· ∉ env.names)) (pushGlobals h env) := by
  induction env generalizing h names with
  | nil => simpa [LuaEnvironment.names, Sandbox.pushGlobals] using hh
  | cons entry rest ih =>
    have hpush := hh.push entry.2 (henv entry List.mem_cons_self)
    have hrest := ih (hpush.1.rawset_global hpush.2 entry.1) fun other hmem =>
      henv other (List.mem_cons_of_mem _ hmem)
    have hfilter : (names.filter (· ≠ entry.1)).filter (· ∉ LuaEnvironment.names rest) =
        names.filter (· ∉ LuaEnvironment.names (entry :: rest)) := by
      rw [List.filter_filter]
      refine List.filter_congr fun name _ => ?_
      rw [← Bool.decide_and, decide_eq_decide, names_cons, List.mem_cons, not_or, and_comm]
    rwa [hfilter] at hrest

-- ---------------------------------------------------------------------------
-- The state that the script starts in
-- ---------------------------------------------------------------------------

theorem noLoaders_append (fields rest : Fields) :
    NoLoaders (fields ++ rest) ↔ NoLoaders fields ∧ NoLoaders rest := by
  induction fields with
  | nil => simp [NoLoaders]
  | cons field fields ih => simp [NoLoaders, ih, and_assoc]

theorem noLoader_stringTable (entries : List (String × String)) :
    NoLoader (stringTable entries) := by
  unfold stringTable NoLoader
  induction entries with
  | nil => trivial
  | cons entry rest ih => exact ⟨trivial, ih⟩

theorem noLoaders_message (message : Http.Message) :
    NoLoaders (populateLuaMessageFrom message) :=
  ⟨noLoader_stringTable _, trivial, trivial⟩

theorem noLoader_environment (x : Setup) : ∀ entry ∈ x.environment, NoLoader entry.2 := by
  intro entry hmem
  simp only [environment_eq, Setup.withoutContext, Setup.modules, List.mem_append,
    List.mem_map, List.mem_cons, List.not_mem_nil, or_false] at hmem
  rcases hmem with ((hclient | hstorage) | ⟨name, -, rfl⟩) | rfl | rfl
  · split at hclient
    · rw [List.mem_singleton.mp hclient]
      trivial
    · exact absurd hclient List.not_mem_nil
  · split at hstorage
    · rw [List.mem_singleton.mp hstorage]
      trivial
    · exact absurd hstorage List.not_mem_nil
  · trivial
  · exact (noLoaders_append _ _).mpr
      ⟨noLoaders_message _, trivial, trivial, noLoader_stringTable _, trivial⟩
  · exact (noLoaders_append _ _).mpr ⟨noLoaders_message _, trivial, trivial⟩

theorem openLibs_confined (ndebug : Bool) :
    HeapConfined ndebug (unsafeObjects ndebug) openLibs where
  hides := by
    have hall : ∀ table ∈ openLibs.zipIdx, .table table.2 ∉ hiddenValues ndebug →
        ∀ entry ∈ table.1, entry.2 ∈ hiddenValues ndebug →
          table.2 = globalsRef ∧ ∃ name ∈ unsafeObjects ndebug, entry.1 = .string name := by
      cases ndebug <;> decide +kernel
    intro t entries ht
    exact hall (entries, t) (List.mem_zipIdx_iff_getElem?.mpr ht)
  loaded := ⟨libraryEntries loadedLibraries, rfl, by cases ndebug <;> decide +kernel,
    by cases ndebug <;> decide +kernel⟩
  libraries := by decide

theorem HeapConfined.init (version : String) (x : Setup) :
    HeapConfined x.ndebug [] (State.init version x).heap := by
  have hversion : Value.string version ∉ hiddenValues x.ndebug := constant_not_hidden (.string _)
  have hcreated : HeapConfined x.ndebug (unsafeObjects x.ndebug) (createLuaState version) :=
    (openLibs_confined x.ndebug).rawset hversion (by decide) _
  have hpushed := hcreated.pushGlobals x.environment (noLoader_environment x)
  have hnone : (unsafeObjects x.ndebug).filter (· ∉ x.environment.names) = [] := by
    refine List.filter_eq_nil_iff.mpr fun name hname => ?_
    have hmem : name ∈ x.environment.names := by
      rw [environment_eq, LuaEnvironment.names, List.map_append, ← LuaEnvironment.names,
        names_withoutContext]
      exact List.mem_append_left _ (List.mem_append_right _ hname)
    simp [hmem]
  rwa [hnone] at hpushed

-- ---------------------------------------------------------------------------
-- The script
-- ---------------------------------------------------------------------------

/-- Nothing hidden has been yielded and nothing that can be reached leads to it. -/
structure Confined (ndebug : Bool) (s : State) : Prop where
  held : ∀ v ∈ s.held, v ∉ hiddenValues ndebug
  heap : HeapConfined ndebug [] s.heap

def Step.RequiresUnsafe (ndebug : Bool) : Step → Prop
  | .require name => name ∈ (unsafeLibraries ndebug).map Prod.fst
  | _ => False

variable {s : State} {search : Searchers}

theorem HeapConfined.rawget (hh : HeapConfined ndebug [] h) {t : TableRef}
    (ht : .table t ∉ hiddenValues ndebug) (k : Value) :
    h.rawget t k ∉ hiddenValues ndebug := by
  intro hhidden
  have hne : h.rawget t k ≠ .nil := fun hnil =>
    constant_not_hidden .nil (hnil ▸ hhidden : Value.nil ∈ hiddenValues ndebug)
  obtain ⟨entries, hentries, hmem⟩ := Heap.rawget_mem hne
  obtain ⟨-, name, hname, -⟩ := hh.hides t entries hentries ht _ hmem hhidden
  exact absurd hname List.not_mem_nil

theorem HeapConfined.field (hh : HeapConfined ndebug [] h) {v : Value}
    (hv : v ∉ hiddenValues ndebug) {k result : Value} (hresult : field h k v = some result) :
    result ∉ hiddenValues ndebug := by
  cases v with
  | table t =>
    obtain rfl := Option.some.inj hresult
    exact hh.rawget hv k
  | string s =>
    obtain rfl := Option.some.inj hresult
    exact hh.rawget (by cases ndebug <;> decide +kernel) k
  | userdata name =>
    obtain rfl := Option.some.inj hresult
    unfold nativeField
    split
    · exact userdata_not_hidden _
    · split
      · exact userdata_not_hidden _
      · split
        · exact userdata_not_hidden _
        · exact constant_not_hidden .nil
  | nil | boolean b | number n | function library name | thread t => exact nomatch hresult

theorem HeapConfined.require (hh : HeapConfined ndebug [] h)
    (hsearch : ∀ name module, search name = some module → NoLoader module) {name : String}
    (hname : name ∉ (unsafeLibraries ndebug).map Prod.fst) {v : Value} {h' : Heap}
    (hrequire : require search name h = some (v, h')) :
    HeapConfined ndebug [] h' ∧ v ∉ hiddenValues ndebug := by
  unfold Sandbox.require at hrequire
  split at hrequire
  next =>
    obtain ⟨rfl, rfl⟩ := Prod.mk.inj (Option.some.inj hrequire)
    refine ⟨hh, fun hhidden => ?_⟩
    have hne : h.rawget loadedRef (.string name) ≠ .nil := fun hnil =>
      constant_not_hidden .nil (hnil ▸ hhidden : Value.nil ∈ hiddenValues ndebug)
    obtain ⟨entries, hentries, hmem⟩ := Heap.rawget_mem hne
    obtain ⟨loaded, hloaded, -, honly⟩ := hh.loaded
    obtain rfl := Option.some.inj (hentries.symm.trans hloaded)
    obtain ⟨library, hlibrary, hkey⟩ := honly _ hmem hhidden
    exact hname (List.mem_map.mpr ⟨library, hlibrary, (Value.string.inj hkey).symm⟩)
  next =>
    obtain ⟨module, hfound, hresult⟩ := Option.map_eq_some_iff.mp hrequire
    obtain ⟨rfl, rfl⟩ := Prod.mk.inj hresult
    have hpush := hh.push module (hsearch name module hfound)
    have hvalue : (if (Sandbox.push h module).1 = .nil then .boolean true
        else (Sandbox.push h module).1) ∉ hiddenValues ndebug := by
      split
      · exact constant_not_hidden (.boolean true)
      · exact hpush.2
    exact ⟨hpush.1.rawset_loaded hvalue hname, hvalue⟩

theorem Confined.hold (hs : Confined ndebug s) {v : Value} (hv : v ∉ hiddenValues ndebug) :
    Confined ndebug (s.hold v) where
  held := by
    intro u hu
    obtain hold | hlast := List.mem_append.mp hu
    · exact hs.held u hold
    · rwa [List.mem_singleton.mp hlast]
  heap := hs.heap

theorem Confined.value (hs : Confined ndebug s) {source : Source} {v : Value}
    (hv : s.value source = some v) : v ∉ hiddenValues ndebug := by
  cases source with
  | constant c =>
    obtain rfl := Option.some.inj hv
    exact constant_not_hidden c
  | held i => exact hs.held v (List.mem_of_getElem? hv)

theorem Confined.step (hs : Confined ndebug s)
    (hsearch : ∀ name module, search name = some module → NoLoader module) (st : Step)
    (hst : ¬ st.RequiresUnsafe ndebug) : Confined ndebug (step search s st) := by
  cases st with
  | readGlobal name =>
    exact hs.hold (hs.heap.rawget (by cases ndebug <;> decide +kernel) _)
  | writeGlobal name value =>
    dsimp only [Sandbox.step]
    split
    next v hv => exact ⟨hs.held, hs.heap.rawset (hs.value hv) (by decide) _⟩
    next => exact hs
  | readField object key =>
    dsimp only [Sandbox.step]
    split
    next v k hv hk =>
      split
      next result hresult =>
        exact hs.hold (hs.heap.field (hs.held v (List.mem_of_getElem? hv)) hresult)
      next => exact hs
    next => exact hs
  | require name =>
    dsimp only [Sandbox.step]
    split
    next v h hrequire =>
      obtain ⟨hheap, hv⟩ := hs.heap.require hsearch hst hrequire
      exact ⟨(hs.hold hv).held, hheap⟩
    next => exact hs

theorem Confined.run (hs : Confined ndebug s)
    (hsearch : ∀ name module, search name = some module → NoLoader module) (script : List Step)
    (hscript : ∀ st ∈ script, ¬ st.RequiresUnsafe ndebug) :
    Confined ndebug (run search script s) := by
  induction script generalizing s with
  | nil => exact hs
  | cons st rest ih =>
    exact ih (hs.step hsearch st (hscript st List.mem_cons_self)) fun other hmem =>
      hscript other (List.mem_cons_of_mem _ hmem)

theorem Confined.not_safe_of_require (hs : Confined ndebug s) {st : Step}
    (hst : st.RequiresUnsafe ndebug) : ¬ (Sandbox.step search s st).Safe ndebug := by
  cases st with
  | require name =>
    obtain ⟨library, hlibrary, rfl⟩ := List.mem_map.mp hst
    obtain ⟨entries, hentries, hget, -⟩ := hs.heap.loaded
    have hloaded : s.heap.rawget loadedRef (.string library.1) = .table library.2 := by
      rw [Heap.rawget, hentries]
      exact hget library hlibrary
    have hstep : Sandbox.step search s (.require library.1) = s.hold (.table library.2) := by
      simp only [Sandbox.step, Sandbox.require, hloaded]
      rfl
    rw [hstep]
    intro hsafe
    refine hsafe _ (List.mem_append_right _ (List.mem_singleton.mpr rfl)) ?_
    exact List.mem_append_left _ (List.mem_map.mpr ⟨library, hlibrary, rfl⟩)
  | readGlobal _ | writeGlobal _ _ | readField _ _ => exact absurd hst id

theorem held_step (search : Searchers) (s : State) (st : Step) :
    s.held ⊆ (step search s st).held := by
  cases st with
  | readGlobal name => exact List.subset_append_left _ _
  | writeGlobal name value =>
    dsimp only [step]
    split <;> exact List.Subset.refl _
  | readField object key =>
    dsimp only [step]
    split
    · split
      · exact List.subset_append_left _ _
      · exact List.Subset.refl _
    · exact List.Subset.refl _
  | require name =>
    dsimp only [step]
    split
    · exact List.subset_append_left _ _
    · exact List.Subset.refl _

theorem held_run (search : Searchers) (script : List Step) (s : State) :
    s.held ⊆ (run search script s).held := by
  induction script generalizing s with
  | nil => exact List.Subset.refl _
  | cons st rest ih => exact List.Subset.trans (held_step search s st) (ih _)

theorem Confined.safe_run_iff (hs : Confined ndebug s)
    (hsearch : ∀ name module, search name = some module → NoLoader module)
    (script : List Step) :
    (Sandbox.run search script s).Safe ndebug ↔ ∀ st ∈ script, ¬ st.RequiresUnsafe ndebug := by
  constructor
  · intro hsafe
    induction script generalizing s with
    | nil => exact fun _ hmem => absurd hmem List.not_mem_nil
    | cons st rest ih =>
      have hst : ¬ st.RequiresUnsafe ndebug := fun hunsafe =>
        hs.not_safe_of_require hunsafe fun v hv => hsafe v (held_run search rest _ hv)
      intro other hmem
      obtain rfl | hmem := List.mem_cons.mp hmem
      · exact hst
      · exact ih (hs.step hsearch st hst) hsafe other hmem
  · intro hscript v hv hunsafe
    exact (hs.run hsearch script hscript).held v hv (hidden_of_unsafeValue hunsafe)

/-- The script never obtains an unsafe library or function, exactly when it does
not require an unsafe library, provided that no module which the searchers find
returns a function that loads code. -/
theorem script_safe_iff_requires_no_unsafe_library (version : String) (x : Setup)
    (search : Searchers) (hsearch : ∀ name module, search name = some module → NoLoader module)
    (script : List Step) :
    (run search script (State.init version x)).Safe x.ndebug ↔
      ∀ st ∈ script, ¬ st.RequiresUnsafe x.ndebug := by
  have hinit : Confined x.ndebug (State.init version x) :=
    ⟨fun _ hmem => absurd hmem List.not_mem_nil, .init version x⟩
  exact hinit.safe_run_iff hsearch script

def mietModules : Searchers := fun name =>
  if name ∈ ["miet.http.client", "miet.http.context", "miet.kv.storage"] then
    some (.table [(.string "get", .function name "get")])
  else none

theorem script_safe_of_storage_use :
    (∀ name module, mietModules name = some module → NoLoader module) ∧
    (run mietModules [.require "miet.kv.storage", .readField 0 (.constant (.string "get")),
      .readGlobal "os"] (State.init "5.4.4" .release)).Safe true := by
  have hsearch : ∀ name module, mietModules name = some module → NoLoader module := by
    intro name module hfound
    unfold mietModules at hfound
    split at hfound
    next =>
      obtain rfl := Option.some.inj hfound
      have hget : Value.function name "get" ∉ loaders := by simp [loaders]
      exact ⟨hget, trivial⟩
    next => exact nomatch hfound
  refine ⟨hsearch, ?_⟩
  refine (script_safe_iff_requires_no_unsafe_library "5.4.4" .release mietModules hsearch
    _).mpr ?_
  simp [Step.RequiresUnsafe, unsafeLibraries, Setup.release]

/-- `require "os"` yields the library which is nil among the globals. -/
theorem require_yields_os :
    (run mietModules [.readGlobal "os", .require "os"] (State.init "5.4.4" .release)).held =
      [.nil, .table osRef] ∧
    ¬ (run mietModules [.readGlobal "os", .require "os"]
      (State.init "5.4.4" .release)).Safe true := by
  have hheld : (run mietModules [.readGlobal "os", .require "os"]
      (State.init "5.4.4" .release)).held = [.nil, .table osRef] := by decide +kernel
  refine ⟨hheld, fun hsafe => hsafe (.table osRef) ?_ (by decide)⟩
  rw [hheld]
  exact List.mem_cons_of_mem _ List.mem_cons_self

end LambdaExecutor.Engine.Sandbox
