import LambdaExecutor.Engine.Executor

/-!
# Script code and the objects it can reach

Lua holds pointers to native objects that it does not own: the allocator's user
data, the checker of the hook and the modules among the globals. The Lua state
is declared before most of their owners, so it is closed after they are
destroyed. `lua_close` runs the finalizers which the script has left and, where
an exception has left `lua_pcall`, the `__close` methods of the variables that
were in scope.
-/

namespace LambdaExecutor.Engine

open Raii Raii.Code

inductive NativeObject
  | memoryChecker
  | timeoutChecker
  | client
  | clientMethod
  | storage
  | storeMethod
  | getMethod
  deriving DecidableEq, Repr

/-- Script code ran while Lua could reach `reachable` and `alive` were alive. -/
structure Exposure where
  reachable : List NativeObject
  alive : List NativeObject
  deriving DecidableEq, Repr

structure Lifetimes where
  reachable : List NativeObject
  alive : List NativeObject
  runs : List Exposure
  deriving DecidableEq, Repr

def Lifetimes.init : Lifetimes := { reachable := [], alive := [], runs := [] }

def Lifetimes.create (l : Lifetimes) (objects : List NativeObject) : Lifetimes :=
  { l with alive := l.alive ++ objects }

def Lifetimes.destroy (l : Lifetimes) (objects : List NativeObject) : Lifetimes :=
  { l with alive := l.alive.filter (· ∉ objects) }

def Lifetimes.refer (l : Lifetimes) (objects : List NativeObject) : Lifetimes :=
  { l with reachable := l.reachable ++ objects }

def Lifetimes.lose (l : Lifetimes) (objects : List NativeObject) : Lifetimes :=
  { l with reachable := l.reachable.filter (· ∉ objects) }

def Lifetimes.run (l : Lifetimes) (n : Nat) : Lifetimes :=
  { l with runs := l.runs ++ List.replicate n { reachable := l.reachable, alive := l.alive } }

def Exposure.Safe (exposure : Exposure) : Prop :=
  ∀ object ∈ exposure.reachable, object ∈ exposure.alive

def Lifetimes.Safe (l : Lifetimes) : Prop := ∀ exposure ∈ l.runs, exposure.Safe

/-- An execution as far as lifetimes depend on it, whose script code comes to an end. -/
structure ScriptRun where
  httpClient : Bool
  projectStorage : Bool
  scriptEnd : ScriptEnd
  /-- The exception of a native method that leaves `lua_pcall` instead. -/
  escaped : Option Exception
  /-- How often script code runs while the message is read (a finalizer) and while the globals
  are read back (a finalizer, or a metamethod of the table of globals). -/
  messageRuns : Nat
  readBackRuns : Nat
  /-- Reading the globals back throws, or raises an error of Lua that nothing catches. -/
  readBackThrows : Option Exception
  responseThrows : Option Exception
  /-- The `__close` methods that are due when the state is closed: `lua_pcall` calls them all
  unless an exception leaves it. -/
  closes : Nat
  closed : escaped = none → scriptEnd ≠ .timeout → closes = 0
  finalizers : Nat
  /-- What nothing in Lua refers to by then, such as the timeout checker where the script has
  taken it out of the registry. -/
  lost : List NativeObject

/-- What `luaEnv` owns: the modules and, through them, their methods. -/
def ScriptRun.modules (x : ScriptRun) : List NativeObject :=
  (if x.httpClient then [.client, .clientMethod] else [] : List NativeObject) ++
    (if x.projectStorage then [.storage, .storeMethod, .getMethod] else [] : List NativeObject)

def throwIfSome {σ : Type} : Option Exception → Code Exception σ Unit
  | some e => raise e
  | none => pure ()

def ScriptRun.primitives (x : ScriptRun) : Primitives Lifetimes where
  createMemoryChecker := modify fun l => l.create [.memoryChecker]
  destroyMemoryChecker := modify fun l => l.destroy [.memoryChecker]
  createLuaState := modify fun l => l.refer [.memoryChecker]
  closeLuaState := modify fun l => ((l.lose x.lost).run x.closes).run x.finalizers
  uploadCode := pure ()
  createLuaEnv := pure ()
  destroyLuaEnv := modify fun l => l.destroy x.modules
  emplaceModules := modify fun l => l.create x.modules
  createTimeoutChecker := modify fun l => l.create [.timeoutChecker]
  destroyTimeoutChecker := modify fun l => l.destroy [.timeoutChecker]
  attachTimeoutChecker := modify fun l => l.refer [.timeoutChecker]
  removeUnsafeObjects := pure ()
  createContext := pure ()
  destroyContext := throwIfSome x.responseThrows
  pushGlobals := modify fun l => l.refer x.modules
  popGlobals := do
    modify fun l => l.run x.readBackRuns
    throwIfSome x.readBackThrows
  startTimeoutChecker := pure ()
  pcall := do
    modify fun l => l.run 1
    throwIfSome x.escaped
    x.scriptEnd.pcall
  errorMessage := do
    modify fun l => l.run x.messageRuns
    pure x.scriptEnd.message

-- ---------------------------------------------------------------------------
-- The script and the finalizers
-- ---------------------------------------------------------------------------

/-- When the script starts. -/
def ScriptRun.running (x : ScriptRun) : Lifetimes :=
  ((((Lifetimes.init.create [.memoryChecker]).refer [.memoryChecker]).create x.modules).create
    [.timeoutChecker]).refer [.timeoutChecker] |>.refer x.modules

/-- An exception, one of a status or one that left `lua_pcall`, is in flight when the guard is
destroyed. -/
def ScriptRun.Fails (x : ScriptRun) : Prop := x.escaped.isSome ∨ x.scriptEnd ≠ .ok

/-- When the script code is done that runs before the destructors of the locals, or in the
guard's own. -/
def ScriptRun.ended (x : ScriptRun) : Lifetimes :=
  if x.escaped.isSome ∨ x.scriptEnd = .timeout then x.running.run 1
  else if x.scriptEnd = .ok then (x.running.run 1).run x.readBackRuns
  else (x.running.run 1).run x.messageRuns

/-- When `lua_close` starts: the guard, the timeout checker and `luaEnv` are gone. -/
def ScriptRun.closing (x : ScriptRun) : Lifetimes :=
  ((x.ended.destroy [.timeoutChecker]).destroy x.modules).lose x.lost

/-- The destructors of the guard end the process: it makes the response whether or not the
script has failed, and reads the globals back before if the script has not. -/
def ScriptRun.Terminates (x : ScriptRun) : Prop :=
  x.responseThrows.isSome ∨ ¬ x.Fails ∧ x.readBackThrows.isSome

/-- Nothing in Lua refers to what is destroyed before the state is closed. -/
def ScriptRun.LosesAll (x : ScriptRun) : Prop :=
  .timeoutChecker ∈ x.lost ∧ ∀ object ∈ x.modules, object ∈ x.lost

instance (x : ScriptRun) : Decidable x.Fails := inferInstanceAs (Decidable (_ ∨ _))

instance (x : ScriptRun) : Decidable x.Terminates := inferInstanceAs (Decidable (_ ∨ _))

theorem execute_state (x : ScriptRun) : (execute x.primitives Lifetimes.init).state =
    if x.Terminates then x.ended
    else ((x.closing.run x.closes).run x.finalizers).destroy [.memoryChecker] := by
  obtain ⟨client, storage, scriptEnd, escaped, m, n, readBack, response, closes, closed, k,
    lost⟩ := x
  cases escaped with
  | some e => cases response <;> rfl
  | none =>
    cases scriptEnd with
    | ok => cases readBack <;> cases response <;> rfl
    | errRun message => cases message <;> cases response <;> rfl
    | errMem => cases response <;> rfl
    | timeout => cases response <;> rfl

theorem Lifetimes.run_run (l : Lifetimes) (m n : Nat) : (l.run m).run n = l.run (m + n) := by
  simp [Lifetimes.run, List.replicate_append_replicate]

theorem safe_run (l : Lifetimes) (n : Nat) :
    (l.run n).Safe ↔ l.Safe ∧ (n = 0 ∨ ∀ object ∈ l.reachable, object ∈ l.alive) := by
  constructor
  · intro h
    refine ⟨fun exposure hmem => h exposure (List.mem_append_left _ hmem), ?_⟩
    by_cases hn : n = 0
    · exact .inl hn
    · exact .inr (h _ (List.mem_append_right _ (List.mem_replicate.mpr ⟨hn, rfl⟩)))
  · rintro ⟨hsafe, hlast⟩ exposure hmem
    rcases List.mem_append.mp hmem with hold | hnew
    · exact hsafe exposure hold
    · obtain ⟨hn, rfl⟩ := List.mem_replicate.mp hnew
      exact hlast.resolve_left hn

@[simp] theorem safe_destroy (l : Lifetimes) (objects : List NativeObject) :
    (l.destroy objects).Safe ↔ l.Safe := Iff.rfl

@[simp] theorem safe_lose (l : Lifetimes) (objects : List NativeObject) :
    (l.lose objects).Safe ↔ l.Safe := Iff.rfl

theorem mem_running_reachable {x : ScriptRun} {object : NativeObject} :
    object ∈ x.running.reachable ↔
      object = .memoryChecker ∨ object = .timeoutChecker ∨ object ∈ x.modules := by
  simp [ScriptRun.running, Lifetimes.init, Lifetimes.create, Lifetimes.refer]

theorem mem_running_alive {x : ScriptRun} {object : NativeObject} :
    object ∈ x.running.alive ↔
      object = .memoryChecker ∨ object ∈ x.modules ∨ object = .timeoutChecker := by
  simp [ScriptRun.running, Lifetimes.init, Lifetimes.create, Lifetimes.refer]

theorem running_safe (x : ScriptRun) (n : Nat) : (x.running.run n).Safe := by
  refine (safe_run x.running n).mpr ⟨fun _ hmem => absurd hmem List.not_mem_nil, .inr ?_⟩
  intro object hobject
  obtain hchecker | htimeout | hmodule := mem_running_reachable.mp hobject
  · exact mem_running_alive.mpr (.inl hchecker)
  · exact mem_running_alive.mpr (.inr (.inr htimeout))
  · exact mem_running_alive.mpr (.inr (.inl hmodule))

theorem ended_safe (x : ScriptRun) : x.ended.Safe := by
  unfold ScriptRun.ended
  split
  · exact running_safe x 1
  · split
    · rw [Lifetimes.run_run]
      exact running_safe x _
    · rw [Lifetimes.run_run]
      exact running_safe x _

theorem ScriptRun.ended_run (x : ScriptRun) : ∃ n, x.ended = x.running.run n := by
  unfold ended
  split
  · exact ⟨1, rfl⟩
  · split
    · exact ⟨_, Lifetimes.run_run ..⟩
    · exact ⟨_, Lifetimes.run_run ..⟩

theorem mem_closing_reachable {x : ScriptRun} {object : NativeObject} :
    object ∈ x.closing.reachable ↔
      (object = .memoryChecker ∨ object = .timeoutChecker ∨ object ∈ x.modules) ∧
        object ∉ x.lost := by
  obtain ⟨n, hended⟩ := x.ended_run
  rw [← mem_running_reachable]
  simp [ScriptRun.closing, Lifetimes.destroy, Lifetimes.lose, Lifetimes.run, hended]

theorem memoryChecker_not_mem_modules (x : ScriptRun) : .memoryChecker ∉ x.modules := by
  unfold ScriptRun.modules
  cases x.httpClient <;> cases x.projectStorage <;> decide

theorem mem_closing_alive {x : ScriptRun} {object : NativeObject} :
    object ∈ x.closing.alive ↔ object = .memoryChecker := by
  obtain ⟨n, hended⟩ := x.ended_run
  have halive : object ∈ x.closing.alive ↔
      object ∈ x.running.alive ∧ object ∉ x.modules ∧ object ≠ .timeoutChecker := by
    simp [ScriptRun.closing, Lifetimes.destroy, Lifetimes.lose, Lifetimes.run, hended]
  rw [halive, mem_running_alive]
  constructor
  · rintro ⟨hmem, hmodule, htimeout⟩
    exact hmem.resolve_right fun h => h.elim hmodule htimeout
  · rintro rfl
    exact ⟨.inl rfl, memoryChecker_not_mem_modules x, by decide⟩

theorem closing_exposed_iff (x : ScriptRun) :
    (∀ object ∈ x.closing.reachable, object ∈ x.closing.alive) ↔ x.LosesAll := by
  simp only [mem_closing_reachable, mem_closing_alive]
  constructor
  · intro h
    refine ⟨Decidable.byContradiction fun hlost => ?_, fun object hmodule =>
      Decidable.byContradiction fun hlost => ?_⟩
    · cases h .timeoutChecker ⟨.inr (.inl rfl), hlost⟩
    · obtain rfl := h object ⟨.inr (.inr hmodule), hlost⟩
      exact memoryChecker_not_mem_modules x hmodule
  · rintro ⟨htimeout, hmodules⟩ object ⟨rfl | rfl | hmodule, hlost⟩
    · rfl
    · exact absurd htimeout hlost
    · exact absurd (hmodules object hmodule) hlost

/-- Whenever script code runs all that it can reach is alive, exactly when neither a `__close`
method nor a finalizer is left for `lua_close`, or the process ends before it, or nothing refers
to what is destroyed. -/
theorem script_code_safe_iff_nothing_left (x : ScriptRun) :
    (execute x.primitives Lifetimes.init).state.Safe ↔
      (x.closes = 0 ∧ x.finalizers = 0) ∨ x.Terminates ∨ x.LosesAll := by
  rw [execute_state]
  split
  next hterminates =>
    exact iff_of_true (ended_safe x) (.inr (.inl hterminates))
  next hterminates =>
    rw [safe_destroy, Lifetimes.run_run, safe_run, closing_exposed_iff, Nat.add_eq_zero_iff,
      or_iff_right hterminates]
    exact and_iff_right (ended_safe x)

def oneFinalizer : ScriptRun where
  httpClient := true
  projectStorage := true
  scriptEnd := .ok
  escaped := none
  messageRuns := 0
  readBackRuns := 0
  readBackThrows := none
  responseThrows := none
  closes := 0
  closed _ _ := rfl
  finalizers := 1
  lost := []

theorem finalizer_meets_destroyed_objects :
    { reachable := [.memoryChecker, .timeoutChecker, .client, .clientMethod, .storage,
        .storeMethod, .getMethod], alive := [.memoryChecker] } ∈
      (execute oneFinalizer.primitives Lifetimes.init).state.runs ∧
    ¬ (execute oneFinalizer.primitives Lifetimes.init).state.Safe := by
  refine ⟨List.mem_cons_of_mem _ List.mem_cons_self, fun hsafe => ?_⟩
  have hexposed := hsafe _ (List.mem_cons_of_mem _ List.mem_cons_self)
  exact absurd (hexposed .client (by decide)) (by decide)

end LambdaExecutor.Engine
