import LambdaExecutor.Engine.Executor
import LambdaExecutor.Execution.MemoryLimit

/-!
# Running out of memory

Every phase of `Execute` calls `LuaAllocator`. A refused request is a Lua error
inside `lua_pcall` and the end of the process outside of it, so a request, a
script and a limit decide together whether the process survives: the phases
around the script must fit into the limit too.
-/

namespace LambdaExecutor.Engine

open Raii Raii.Code Execution

inductive Phase
  | createLuaState
  | uploadCode
  | attachTimeoutChecker
  | pushGlobals
  | pcall
  | errorMessage
  | popGlobals
  | closeLuaState
  deriving DecidableEq, Repr

/-- `lua_close` runs finalizers in protected calls of its own. -/
def Phase.isProtected : Phase → Bool
  | .pcall | .closeLuaState => true
  | _ => false

/-- The calls of the allocator which a request and a script bring about. -/
structure Workload where
  createLuaState : List AllocCall
  uploadCode : List AllocCall
  attachTimeoutChecker : List AllocCall
  pushGlobals : List AllocCall
  script : List AllocCall
  scriptEnd : ScriptEnd
  errorMessage : List AllocCall
  popGlobals : List AllocCall
  closeLuaState : List AllocCall

structure Usage where
  memory : Memory
  refusals : List Phase

def Usage.init (limit : Size) : Usage := { memory := Memory.init limit, refusals := [] }

-- ---------------------------------------------------------------------------
-- The phases
-- ---------------------------------------------------------------------------

def request (phase : Phase) (call : AllocCall) : Code Exception Usage Unit := fun u =>
  match luaAllocator u.memory call with
  | (result, memory) =>
    if call.nsize ≠ 0 ∧ result = none then
      let u := { memory, refusals := phase :: u.refusals }
      if phase.isProtected then .done () u else .terminated u
    else .done () { u with memory }

def requests (phase : Phase) : List AllocCall → Code Exception Usage Unit
  | [] => pure ()
  | call :: rest => do
    request phase call
    requests phase rest

def Workload.primitives (w : Workload) : Primitives Usage where
  createMemoryChecker := pure ()
  destroyMemoryChecker := pure ()
  createLuaState := requests .createLuaState w.createLuaState
  closeLuaState := requests .closeLuaState w.closeLuaState
  uploadCode := requests .uploadCode w.uploadCode
  createLuaEnv := pure ()
  destroyLuaEnv := pure ()
  emplaceModules := pure ()
  createTimeoutChecker := pure ()
  destroyTimeoutChecker := pure ()
  attachTimeoutChecker := requests .attachTimeoutChecker w.attachTimeoutChecker
  removeUnsafeObjects := pure ()
  createContext := pure ()
  destroyContext := pure ()
  pushGlobals := requests .pushGlobals w.pushGlobals
  popGlobals := requests .popGlobals w.popGlobals
  startTimeoutChecker := pure ()
  pcall := do
    requests .pcall w.script
    w.scriptEnd.pcall
  errorMessage := do
    requests .errorMessage w.errorMessage
    return w.scriptEnd.message

-- ---------------------------------------------------------------------------
-- Requests
-- ---------------------------------------------------------------------------

def account (checker : MemoryLimitChecker) (call : AllocCall) : MemoryLimitChecker :=
  if call.nsize = 0 then (checker.deallocated call.oldSize).1 else checker.allocated call.charge

def accounts : MemoryLimitChecker → List AllocCall → MemoryLimitChecker := List.foldl account

def Refused (checker : MemoryLimitChecker) (call : AllocCall) : Prop :=
  call.nsize ≠ 0 ∧ ((account checker call).isLimitReached ∨ call.realloc = none)

def Granted : MemoryLimitChecker → List AllocCall → Prop
  | _, [] => True
  | checker, call :: rest => ¬ Refused checker call ∧ Granted (account checker call) rest

instance (checker : MemoryLimitChecker) (call : AllocCall) : Decidable (Refused checker call) :=
  inferInstanceAs (Decidable (_ ∧ _))

instance Granted.decidable : ∀ checker calls, Decidable (Granted checker calls)
  | _, [] => isTrue trivial
  | checker, call :: rest =>
    have := Granted.decidable (account checker call) rest
    inferInstanceAs (Decidable (_ ∧ Granted (account checker call) rest))

theorem granted_append (checker : MemoryLimitChecker) (first second : List AllocCall) :
    Granted checker (first ++ second) ↔
      Granted checker first ∧ Granted (accounts checker first) second := by
  induction first generalizing checker with
  | nil => simp [Granted, accounts]
  | cons call rest ih => simp [Granted, ih, accounts, and_assoc]

@[simp] theorem accounts_append (checker : MemoryLimitChecker) (first second : List AllocCall) :
    accounts checker (first ++ second) = accounts (accounts checker first) second :=
  List.foldl_append

theorem luaAllocator_checker (m : Memory) (call : AllocCall) :
    (luaAllocator m call).2.checker = account m.checker call := by
  unfold luaAllocator account
  by_cases hn : call.nsize = 0
  · rw [if_pos hn, if_pos hn]
  · rw [if_neg hn, if_neg hn]
    dsimp only
    split <;> rfl

theorem luaAllocator_refused (m : Memory) (call : AllocCall) :
    call.nsize ≠ 0 ∧ (luaAllocator m call).1 = none ↔ Refused m.checker call := by
  refine and_congr_right fun hn => ?_
  unfold luaAllocator account
  rw [if_neg hn, if_neg hn]
  by_cases hl : (m.checker.allocated call.charge).isLimitReached
  · simp only [hl, if_true, true_or]
  · simp only [hl, if_false, Bool.false_eq_true, false_or]

/-- The usage after a call which does not end the process. -/
def Usage.after (u : Usage) (phase : Phase) (call : AllocCall) : Usage where
  memory := (luaAllocator u.memory call).2
  refusals := if Refused u.memory.checker call then phase :: u.refusals else u.refusals

@[simp] theorem Usage.after_checker (u : Usage) (phase : Phase) (call : AllocCall) :
    (u.after phase call).memory.checker = account u.memory.checker call :=
  luaAllocator_checker u.memory call

def Usage.afterAll (u : Usage) (phase : Phase) (calls : List AllocCall) : Usage :=
  calls.foldl (fun u call => u.after phase call) u

theorem wp_request (phase : Phase) (call : AllocCall) (Q : Unit → Usage → Prop)
    (E : Exception → Usage → Prop) (u : Usage) : wp (request phase call) Q E u ↔
      (phase.isProtected ∨ ¬ Refused u.memory.checker call) ∧ Q () (u.after phase call) := by
  have hr := luaAllocator_refused u.memory call
  unfold wp request Usage.after
  cases hl : luaAllocator u.memory call with
  | mk result memory =>
    rw [hl] at hr
    by_cases hrefused : Refused u.memory.checker call
    · dsimp only
      rw [if_pos (hr.mpr hrefused), if_pos hrefused]
      cases phase.isProtected <;> simp [hrefused]
    · dsimp only
      rw [if_neg (mt hr.mp hrefused), if_neg hrefused]
      simp [hrefused]

theorem wp_requests (phase : Phase) (calls : List AllocCall) (Q : Unit → Usage → Prop)
    (E : Exception → Usage → Prop) (u : Usage) : wp (requests phase calls) Q E u ↔
      (phase.isProtected ∨ Granted u.memory.checker calls) ∧ Q () (u.afterAll phase calls) := by
  induction calls generalizing u with
  | nil => simp [requests, Granted, Usage.afterAll]
  | cons call rest ih =>
    simp only [requests, wp_bind, wp_request, ih, Usage.after_checker, Granted, Usage.afterAll,
      List.foldl_cons]
    cases phase.isProtected <;> simp [and_assoc]

@[simp] theorem afterAll_checker (u : Usage) (phase : Phase) (calls : List AllocCall) :
    (u.afterAll phase calls).memory.checker = accounts u.memory.checker calls := by
  induction calls generalizing u with
  | nil => rfl
  | cons call rest ih =>
    rw [Usage.afterAll, List.foldl_cons, ← Usage.afterAll, ih, Usage.after_checker]
    rfl

/-- Every refusal so far was inside a protected call. -/
def Usage.Protected (u : Usage) : Prop := ∀ phase ∈ u.refusals, phase.isProtected

theorem Usage.Protected.after {u : Usage} {phase : Phase} {call : AllocCall} (h : u.Protected)
    (hp : phase.isProtected ∨ ¬ Refused u.memory.checker call) :
    (u.after phase call).Protected := by
  intro other hother
  by_cases hr : Refused u.memory.checker call
  · simp only [Usage.after, hr, if_true] at hother
    rcases List.mem_cons.mp hother with rfl | hmem
    · exact hp.resolve_right (not_not_intro hr)
    · exact h other hmem
  · simp only [Usage.after, hr, if_false] at hother
    exact h other hother

theorem Usage.Protected.afterAll {u : Usage} {phase : Phase} {calls : List AllocCall}
    (h : u.Protected) (hp : phase.isProtected ∨ Granted u.memory.checker calls) :
    (u.afterAll phase calls).Protected := by
  induction calls generalizing u with
  | nil => exact h
  | cons call rest ih =>
    refine ih (h.after (hp.imp_right And.left)) (hp.imp_right fun hg => ?_)
    rw [Usage.after_checker]
    exact hg.2

-- ---------------------------------------------------------------------------
-- What has to fit
-- ---------------------------------------------------------------------------

def Workload.setup (w : Workload) : List AllocCall :=
  w.createLuaState ++ w.uploadCode ++ w.attachTimeoutChecker ++ w.pushGlobals

def Workload.readBack (w : Workload) : List AllocCall :=
  match w.scriptEnd with
  | .ok => w.popGlobals
  | .timeout => []
  | _ => w.errorMessage

/-- At the given limit no call outside `lua_pcall` finds the limit reached or
`realloc` failing; the read-back starts from what the script has left. -/
def Workload.Fits (w : Workload) (limit : Size) : Prop :=
  Granted (.new limit) w.setup ∧ Granted (accounts (.new limit) (w.setup ++ w.script)) w.readBack

instance (w : Workload) (limit : Size) : Decidable (w.Fits limit) :=
  inferInstanceAs (Decidable (_ ∧ _))

def Workload.Returns (w : Workload) (u : Usage) : Prop := w.scriptEnd = .ok ∧ u.Protected

def Workload.Throws (w : Workload) (e : Exception) (u : Usage) : Prop :=
  u.Protected ∧ match w.scriptEnd with
    | .ok => False
    | .errRun message => e = thrown .executionError message
    | .errMem => e = .outOfMemoryLimit "not enough memory"
    | .timeout => e = .executionTimeout "Execution timeout is expired"

def Workload.usage (w : Workload) (limit : Size) : Usage :=
  (((((Usage.init limit).afterAll .createLuaState w.createLuaState).afterAll .uploadCode
    w.uploadCode).afterAll .attachTimeoutChecker w.attachTimeoutChecker).afterAll .pushGlobals
    w.pushGlobals).afterAll .pcall w.script

theorem Workload.usage_checker (w : Workload) (limit : Size) :
    (w.usage limit).memory.checker = accounts (.new limit) (w.setup ++ w.script) := by
  simp [Workload.usage, Workload.setup, Usage.init, Memory.init]

theorem Workload.usage_protected (w : Workload) (limit : Size)
    (h : Granted (.new limit) w.setup) : (w.usage limit).Protected := by
  simp only [Workload.setup, granted_append, accounts_append] at h
  obtain ⟨⟨⟨hcreate, hupload⟩, hattach⟩, hpush⟩ := h
  have hinit : (Usage.init limit).Protected := fun _ hmem => absurd hmem List.not_mem_nil
  refine ((((hinit.afterAll (.inr hcreate)).afterAll (.inr ?_)).afterAll (.inr ?_)).afterAll
    (.inr ?_)).afterAll (.inl rfl)
  · simpa [Usage.init, Memory.init] using hupload
  · simpa [Usage.init, Memory.init] using hattach
  · simpa [Usage.init, Memory.init] using hpush

theorem granted_setup (w : Workload) (checker : MemoryLimitChecker) :
    Granted checker w.setup ↔ ((Granted checker w.createLuaState ∧
      Granted (accounts checker w.createLuaState) w.uploadCode) ∧
      Granted (accounts (accounts checker w.createLuaState) w.uploadCode) w.attachTimeoutChecker) ∧
      Granted (accounts (accounts (accounts checker w.createLuaState) w.uploadCode)
        w.attachTimeoutChecker) w.pushGlobals := by
  simp only [Workload.setup, granted_append, accounts_append]

theorem Workload.usage_eq (w : Workload) (limit : Size) :
    (((((Usage.init limit).afterAll .createLuaState w.createLuaState).afterAll .uploadCode
      w.uploadCode).afterAll .attachTimeoutChecker w.attachTimeoutChecker).afterAll .pushGlobals
      w.pushGlobals).afterAll .pcall w.script = w.usage limit := rfl

/-- Every refusal is inside `lua_pcall`, and `Execute` returns or throws what the
script's end calls for, exactly when the rest fits into the limit. -/
theorem refusals_protected_iff_fits (limit : Size) (w : Workload) :
    wp (execute w.primitives) (fun _ => w.Returns) w.Throws (Usage.init limit) ↔ w.Fits limit := by
  rw [Workload.Fits, ← w.usage_checker limit,
    show MemoryLimitChecker.new limit = (Usage.init limit).memory.checker from rfl, granted_setup]
  simp only [execute, wp_executionGuard, wp_runScript, Workload.primitives, wp_scope, wp_bind,
    wp_pure, wp_requests, afterAll_checker, Phase.isProtected, Bool.false_eq_true,
    false_or, w.usage_eq limit]
  rw [← and_assoc, ← and_assoc, ← and_assoc]
  refine and_congr_right fun hsetup => ?_
  have hprotected := w.usage_protected limit ((granted_setup w _).mpr hsetup)
  -- What follows the script is granted, and `lua_close` is protected.
  have hclosed : ∀ phase calls, Granted (w.usage limit).memory.checker calls →
      (((w.usage limit).afterAll phase calls).afterAll .closeLuaState w.closeLuaState).Protected :=
    fun _ _ hread => (hprotected.afterAll (.inr hread)).afterAll (.inl rfl)
  cases hend : w.scriptEnd with
  | ok =>
    simp only [hend, ScriptEnd.pcall, wp_pure, if_true, wp_requests, Phase.isProtected,
      Bool.false_eq_true, false_or, true_or, true_and, Workload.readBack, Workload.Returns]
    exact and_iff_left_of_imp (hclosed _ _)
  | errRun message =>
    simp only [hend, ScriptEnd.pcall, wp_pure, reduceCtorEq, if_false, wp_requests,
      Phase.isProtected, Bool.false_eq_true, false_or, true_or, true_and, Workload.readBack,
      Workload.Throws, LuaStatus.exception, ScriptEnd.message, and_true]
    exact and_iff_left_of_imp (hclosed _ _)
  | errMem =>
    simp only [hend, ScriptEnd.pcall, wp_pure, reduceCtorEq, if_false, if_true, wp_requests,
      Phase.isProtected, Bool.false_eq_true, false_or, true_or, true_and, Workload.readBack,
      Workload.Throws, LuaStatus.exception, ScriptEnd.message, thrown, and_true]
    exact and_iff_left_of_imp (hclosed _ _)
  | timeout =>
    simp only [hend, ScriptEnd.pcall, wp_raise, wp_requests, Phase.isProtected, true_or, true_and,
      Workload.readBack, Workload.Throws, Granted, and_true,
      iff_true]
    exact hprotected.afterAll (.inl rfl)

/-- A state, a checker and a script which ends with 17000 bytes in use, and the
string for the first name that the read-back looks up. -/
def fullState : Workload where
  createLuaState := [{ ptr := none, osize := 8, nsize := 16000, realloc := some 1 }]
  uploadCode := []
  attachTimeoutChecker := [{ ptr := none, osize := 7, nsize := 48, realloc := some 2 }]
  pushGlobals := []
  script := [{ ptr := none, osize := 5, nsize := 952, realloc := some 3 }]
  scriptEnd := .ok
  errorMessage := []
  popGlobals := [{ ptr := none, osize := 4, nsize := 60, realloc := some 4 }]
  closeLuaState := []

theorem full_state_aborts_read_back : ∃ u,
    execute fullState.primitives (Usage.init 17000) = .terminated u ∧ u.refusals = [.popGlobals] :=
  ⟨_, rfl, rfl⟩

-- ---------------------------------------------------------------------------
-- A limit for everything
-- ---------------------------------------------------------------------------

def Workload.calls (w : Workload) : List AllocCall := w.setup ++ w.script ++ w.readBack

theorem account_used (checker : MemoryLimitChecker) (call : AllocCall) :
    (account checker call).used.toNat ≤ checker.used.toNat + call.charged := by
  unfold account AllocCall.charged
  by_cases hn : call.nsize = 0
  · rw [if_pos hn, if_pos hn]
    by_cases hd : checker.used < call.oldSize
    · simp [MemoryLimitChecker.deallocated, hd]
    · have hle := BitVec.not_lt.mp hd
      simp only [MemoryLimitChecker.deallocated, hd, if_false, BitVec.toNat_sub_of_le hle]
      omega
  · rw [if_neg hn, if_neg hn, MemoryLimitChecker.allocated, BitVec.toNat_add]
    exact Nat.mod_le _ _

@[simp] theorem account_limit (checker : MemoryLimitChecker) (call : AllocCall) :
    (account checker call).limit = checker.limit := by
  unfold account MemoryLimitChecker.deallocated MemoryLimitChecker.allocated
  split
  · split <;> rfl
  · rfl

theorem granted_of_charged_le {checker : MemoryLimitChecker} {calls : List AllocCall}
    (hrealloc : ∀ call ∈ calls, call.nsize ≠ 0 → call.realloc ≠ none)
    (h : checker.used.toNat + charged calls ≤ checker.limit.toNat) : Granted checker calls := by
  induction calls generalizing checker with
  | nil => trivial
  | cons call rest ih =>
    rw [charged_cons] at h
    have hused := account_used checker call
    refine ⟨fun ⟨hn, hrefused⟩ => ?_, ih (fun other hmem => hrealloc other (.tail call hmem)) ?_⟩
    · rcases hrefused with hlimit | hnone
      · have hlt := of_decide_eq_true hlimit
        rw [account_limit, BitVec.lt_def] at hlt
        omega
      · exact hrealloc call List.mem_cons_self hn hnone
    · rw [account_limit]
      omega

theorem fits_of_charged_le {w : Workload} {limit : Size}
    (hrealloc : ∀ call ∈ w.calls, call.nsize ≠ 0 → call.realloc ≠ none)
    (h : charged w.calls ≤ limit.toNat) :
    w.Fits limit := by
  have hall : Granted (.new limit) (w.setup ++ w.script ++ w.readBack) :=
    granted_of_charged_le hrealloc (by simpa [MemoryLimitChecker.new, Workload.calls] using h)
  rw [granted_append, granted_append] at hall
  exact ⟨hall.1.1, hall.2⟩

end LambdaExecutor.Engine
