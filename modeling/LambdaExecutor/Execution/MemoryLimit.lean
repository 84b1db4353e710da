import LambdaExecutor.Library.Heap
import LambdaExecutor.Library.Steps

/-!
# The memory limit

`MemoryLimitChecker` counts the bytes that `LuaAllocator` hands out and refuses
a request once the counter is above the limit. The counter is not the number of
live bytes: a shrinking block, a refused request and a failed `realloc` are
charged too. It is at least the live total as long as no addition wraps.
-/

namespace LambdaExecutor.Execution

abbrev Size := BitVec 64

structure MemoryLimitChecker where
  used : Size
  limit : Size
  deriving DecidableEq, Repr

def MemoryLimitChecker.new (limit : Size) : MemoryLimitChecker := { used := 0, limit }

def MemoryLimitChecker.allocated (checker : MemoryLimitChecker) (size : Size) :
    MemoryLimitChecker :=
  { checker with used := checker.used + size }

def MemoryLimitChecker.deallocated (checker : MemoryLimitChecker) (size : Size) :
    MemoryLimitChecker × List String :=
  if checker.used < size then
    ({ checker with used := 0 }, ["Deallocated is more than allocated"])
  else ({ checker with used := checker.used - size }, [])

def MemoryLimitChecker.isLimitReached (checker : MemoryLimitChecker) : Bool :=
  checker.limit < checker.used

-- ---------------------------------------------------------------------------
-- The allocator
-- ---------------------------------------------------------------------------

/-- The arguments of a call, and what `realloc` gives if the call reaches it. -/
structure AllocCall where
  ptr : Option Ptr
  osize : Size
  nsize : Size
  realloc : Option Ptr
  deriving DecidableEq, Repr

structure Memory where
  checker : MemoryLimitChecker
  heap : Blocks
  log : List String

def Memory.init (limit : Size) : Memory := { checker := .new limit, heap := ∅, log := [] }

/-- `osize` is not a size when `ptr` is null. -/
def AllocCall.oldSize (call : AllocCall) : Size := if call.ptr.isNone then 0 else call.osize

/-- What a call with a size asks `Allocated` to add. -/
def AllocCall.charge (call : AllocCall) : Size :=
  if call.oldSize < call.nsize then call.nsize - call.oldSize else call.oldSize - call.nsize

def luaAllocator (m : Memory) (call : AllocCall) : Option Ptr × Memory :=
  if call.nsize = 0 then
    let (checker, log) := m.checker.deallocated call.oldSize
    (none, { checker, heap := m.heap.free call.ptr, log := m.log ++ log })
  else
    let checker := m.checker.allocated call.charge
    if checker.isLimitReached then (none, { m with checker })
    else
      let heap := m.heap.realloc call.ptr call.nsize.toNat call.realloc
      (call.realloc, { m with checker, heap })

/-- Lua passes null or a live block with its size, and a new block is not a live one. -/
def WellFormed (m : Memory) (call : AllocCall) : Prop :=
  m.heap.Owns call.ptr call.osize.toNat ∧ m.heap.Fits call.ptr call.realloc

instance (m : Memory) (call : AllocCall) : Decidable (WellFormed m call) :=
  inferInstanceAs (Decidable (_ ∧ _))

def step (m : Memory) (call : AllocCall) : Option Memory :=
  if WellFormed m call then some (luaAllocator m call).2 else none

/-- The addition in `Allocated` does not wrap. -/
def NoWrap (m : Memory) (call : AllocCall) : Prop :=
  call.nsize ≠ 0 → m.checker.used.toNat + call.charge.toNat < 2 ^ 64

instance (m : Memory) (call : AllocCall) : Decidable (NoWrap m call) :=
  inferInstanceAs (Decidable (_ → _))

structure Bounded (limit : Size) (m : Memory) : Prop where
  checker : m.checker.limit = limit
  total_le_limit : m.heap.total ≤ limit.toNat
  total_le_used : m.heap.total ≤ m.checker.used.toNat
  quiet : m.log = []

theorem Bounded.init (limit : Size) : Bounded limit (Memory.init limit) :=
  ⟨rfl, Nat.zero_le _, Nat.zero_le _, rfl⟩

theorem AllocCall.oldSize_toNat (call : AllocCall) :
    call.oldSize.toNat = Blocks.sizeOf call.ptr call.osize.toNat := by
  cases h : call.ptr <;> simp [oldSize, h]

theorem sizeOf_le_total {m : Memory} {call : AllocCall} (hw : WellFormed m call) :
    call.oldSize.toNat ≤ m.heap.total := by
  have := Blocks.total_free hw.1
  rw [call.oldSize_toNat]
  omega

theorem AllocCall.charge_toNat (call : AllocCall) :
    call.charge.toNat = if call.oldSize.toNat < call.nsize.toNat then
      call.nsize.toNat - call.oldSize.toNat else call.oldSize.toNat - call.nsize.toNat := by
  unfold charge
  simp only [BitVec.lt_def]
  split
  · exact BitVec.toNat_sub_of_le (BitVec.le_def.mpr (by omega))
  · exact BitVec.toNat_sub_of_le (BitVec.le_def.mpr (by omega))

theorem allocated_used {m : Memory} {call : AllocCall} (hn : call.nsize ≠ 0) (h : NoWrap m call) :
    (m.checker.allocated call.charge).used.toNat = m.checker.used.toNat + call.charge.toNat := by
  simp only [MemoryLimitChecker.allocated, BitVec.toNat_add]
  exact Nat.mod_eq_of_lt (h hn)

theorem deallocated_of_le {checker : MemoryLimitChecker} {size : Size}
    (h : size.toNat ≤ checker.used.toNat) :
    checker.deallocated size = ({ checker with used := checker.used - size }, []) := by
  have : ¬ checker.used < size := by
    rw [BitVec.lt_def]
    omega
  simp [MemoryLimitChecker.deallocated, this]

inductive Allocates (m : Memory) (call : AllocCall) : Option Ptr × Memory → Prop
  | freed (hn : call.nsize = 0) (checker : MemoryLimitChecker) (log : List String)
      (hd : m.checker.deallocated call.oldSize = (checker, log)) :
      Allocates m call (none, { checker, heap := m.heap.free call.ptr, log := m.log ++ log })
  | refused (hn : call.nsize ≠ 0) (hl : m.checker.limit < (m.checker.allocated call.charge).used) :
      Allocates m call (none, { m with checker := m.checker.allocated call.charge })
  | granted (hn : call.nsize ≠ 0)
      (hl : (m.checker.allocated call.charge).used ≤ m.checker.limit) :
      Allocates m call (call.realloc,
        { m with checker := m.checker.allocated call.charge,
                 heap := m.heap.realloc call.ptr call.nsize.toNat call.realloc })

theorem luaAllocator_cases (m : Memory) (call : AllocCall) :
    Allocates m call (luaAllocator m call) := by
  unfold luaAllocator
  by_cases hn : call.nsize = 0
  · rw [if_pos hn]
    exact .freed hn _ _ rfl
  · rw [if_neg hn]
    by_cases hl : (m.checker.allocated call.charge).isLimitReached
    · rw [if_pos hl]
      exact .refused hn (of_decide_eq_true hl)
    · rw [if_neg hl]
      exact .granted hn (BitVec.not_lt.mp fun hlt => hl (decide_eq_true hlt))

theorem Bounded.allocates {limit : Size} {m : Memory} {call : AllocCall}
    {result : Option Ptr × Memory} (h : Bounded limit m) (hw : WellFormed m call)
    (hnw : NoWrap m call) (ha : Allocates m call result) : Bounded limit result.2 := by
  obtain ⟨hchecker, hlimit, hused, hquiet⟩ := h
  have hold := sizeOf_le_total hw
  have hcharge := call.charge_toNat
  cases ha with
  | freed hn checker log hd =>
    rw [deallocated_of_le (Nat.le_trans hold hused)] at hd
    cases hd
    have hfree := Blocks.total_free hw.1
    rw [← call.oldSize_toNat] at hfree
    have hsub : (m.checker.used - call.oldSize).toNat = m.checker.used.toNat - call.oldSize.toNat :=
      BitVec.toNat_sub_of_le (BitVec.le_def.mpr (Nat.le_trans hold hused))
    have hle : (m.heap.free call.ptr).total ≤ (m.checker.used - call.oldSize).toNat := by omega
    have hlim : (m.heap.free call.ptr).total ≤ limit.toNat := by omega
    exact ⟨hchecker, hlim, hle, by simp [hquiet]⟩
  | refused hn hl =>
    have hadd := allocated_used hn hnw
    exact ⟨hchecker, hlimit, Nat.le_trans hused (by simp only [hadd]; omega), hquiet⟩
  | granted hn hl =>
    have hadd := allocated_used hn hnw
    rw [hchecker, BitVec.le_def] at hl
    have htotal : (m.heap.realloc call.ptr call.nsize.toNat call.realloc).total ≤ limit.toNat ∧
        (m.heap.realloc call.ptr call.nsize.toNat call.realloc).total ≤
          (m.checker.allocated call.charge).used.toNat := by
      cases hr : call.realloc with
      | none => exact ⟨hlimit, by simp only [Blocks.realloc]; omega⟩
      | some q =>
        have hrealloc := Blocks.total_realloc hw.1 (hr ▸ hw.2) call.nsize.toNat
        rw [← call.oldSize_toNat] at hrealloc
        -- A growing block is paid for by the charge, a shrinking one by what it held.
        split at hcharge <;> constructor <;> omega
    exact ⟨hchecker, htotal.1, htotal.2, hquiet⟩

theorem step_cases {m next : Memory} {call : AllocCall} (hs : step m call = some next) :
    WellFormed m call ∧ ∃ result, luaAllocator m call = (result, next) ∧
      Allocates m call (result, next) := by
  unfold step at hs
  split at hs <;> cases hs
  next hw => exact ⟨hw, _, rfl, luaAllocator_cases m call⟩

theorem Bounded.step {limit : Size} {m next : Memory} {call : AllocCall} (h : Bounded limit m)
    (hnw : NoWrap m call) (hs : Execution.step m call = some next) : Bounded limit next := by
  obtain ⟨hw, result, -, ha⟩ := step_cases hs
  exact h.allocates hw hnw ha

theorem Bounded.run {limit : Size} {m final : Memory} {calls : List AllocCall}
    (h : Bounded limit m) (hok : Steps.Along Execution.step NoWrap m calls)
    (hr : Steps.run Execution.step m calls = some final) : Bounded limit final :=
  Steps.run_invariant_along (Bounded limit) (fun _ _ _ hb hnw hs => hb.step hnw hs) h hok hr

-- ---------------------------------------------------------------------------
-- The counter as a sum
-- ---------------------------------------------------------------------------

def AllocCall.charged (call : AllocCall) : Nat := if call.nsize = 0 then 0 else call.charge.toNat

def AllocCall.credited (call : AllocCall) : Nat := if call.nsize = 0 then call.oldSize.toNat else 0

def charged (calls : List AllocCall) : Nat := (calls.map AllocCall.charged).sum

def credited (calls : List AllocCall) : Nat := (calls.map AllocCall.credited).sum

@[simp] theorem charged_nil : charged [] = 0 := rfl
@[simp] theorem credited_nil : credited [] = 0 := rfl
@[simp] theorem charged_cons (call : AllocCall) (calls : List AllocCall) :
    charged (call :: calls) = call.charged + charged calls := by simp [charged]
@[simp] theorem credited_cons (call : AllocCall) (calls : List AllocCall) :
    credited (call :: calls) = call.credited + credited calls := by simp [credited]

theorem noWrap_of_charged {m : Memory} {call : AllocCall}
    (h : m.checker.used.toNat + call.charged < 2 ^ 64) : NoWrap m call := by
  intro hn
  rwa [AllocCall.charged, if_neg hn] at h

theorem step_used {limit : Size} {m next : Memory} {call : AllocCall} (h : Bounded limit m)
    (hnw : NoWrap m call) (hs : step m call = some next) :
    next.checker.used.toNat + call.credited = m.checker.used.toNat + call.charged := by
  obtain ⟨hw, result, -, ha⟩ := step_cases hs
  have hold : call.oldSize.toNat ≤ m.checker.used.toNat :=
    Nat.le_trans (sizeOf_le_total hw) h.total_le_used
  unfold AllocCall.credited AllocCall.charged
  cases ha with
  | freed hn checker log hd =>
    rw [deallocated_of_le hold] at hd
    cases hd
    have hsub : (m.checker.used - call.oldSize).toNat = m.checker.used.toNat - call.oldSize.toNat :=
      BitVec.toNat_sub_of_le (BitVec.le_def.mpr hold)
    simp only [hn, if_true, hsub]
    omega
  | refused hn hl =>
    simp only [hn, if_false]
    exact allocated_used hn hnw
  | granted hn hl =>
    simp only [hn, if_false]
    exact allocated_used hn hnw

theorem run_used {limit : Size} {m : Memory} {calls : List AllocCall} (h : Bounded limit m)
    (hc : m.checker.used.toNat + charged calls < 2 ^ 64) :
    Steps.Along step NoWrap m calls ∧ ∀ final, Steps.run step m calls = some final →
      final.checker.used.toNat + credited calls = m.checker.used.toNat + charged calls := by
  induction calls generalizing m with
  | nil =>
    refine ⟨trivial, fun final hr => ?_⟩
    cases hr
    rfl
  | cons call rest ih =>
    rw [charged_cons] at hc
    have hnw : NoWrap m call := noWrap_of_charged (by omega)
    have hnext : ∀ next, step m call = some next → _ := fun next hs =>
      ih (h.step hnw hs) (by have := step_used h hnw hs; omega)
    refine ⟨⟨hnw, fun next hs => (hnext next hs).1⟩, fun final hr => ?_⟩
    obtain ⟨next, hs, hrest⟩ := Steps.run_cons_some.mp hr
    have hused := step_used h hnw hs
    have hfinal := (hnext next hs).2 final hrest
    rw [charged_cons, credited_cons]
    omega

theorem Bounded.of_charged {limit : Size} {calls : List AllocCall} {m : Memory}
    (hc : charged calls < 2 ^ 64)
    (hr : Steps.run Execution.step (Memory.init limit) calls = some m) : Bounded limit m :=
  (Bounded.init limit).run
    (run_used (Bounded.init limit) (by simpa [Memory.init, MemoryLimitChecker.new] using hc)).1 hr

/-- In a trace of well-formed calls in which no addition wraps, the live blocks
stay within the limit and the counter, and no `Deallocated` finds too little. -/
theorem memory_limit_kept (limit : Size) (calls : List AllocCall) (m : Memory)
    (hok : Steps.Along step NoWrap (Memory.init limit) calls)
    (hr : Steps.run step (Memory.init limit) calls = some m) :
    m.heap.total ≤ limit.toNat ∧ m.heap.total ≤ m.checker.used.toNat ∧ m.log = [] :=
  let h := (Bounded.init limit).run hok hr
  ⟨h.total_le_limit, h.total_le_used, h.quiet⟩

def oneBlock : List AllocCall :=
  [{ ptr := none, osize := 5, nsize := 100, realloc := some 1 },
   { ptr := some 1, osize := 100, nsize := 200, realloc := some 2 },
   { ptr := some 2, osize := 200, nsize := 50, realloc := some 2 },
   { ptr := some 2, osize := 50, nsize := 0, realloc := none }]

theorem memory_limit_kept_one_block :
    ∃ m, Steps.run step (Memory.init 350) oneBlock = some m ∧
      m.heap.total ≤ 350 ∧ m.heap.total ≤ m.checker.used.toNat ∧ m.log = [] :=
  ⟨_, rfl, memory_limit_kept 350 oneBlock _ (by decide) rfl⟩

def shrunkTwice : List AllocCall :=
  [{ ptr := none, osize := 0, nsize := 0x4000000000000000, realloc := some 1 },
   { ptr := some 1, osize := 0x4000000000000000, nsize := 1, realloc := some 1 },
   { ptr := some 1, osize := 1, nsize := 0x4000000000000000, realloc := some 1 },
   { ptr := some 1, osize := 0x4000000000000000, nsize := 1, realloc := some 1 },
   { ptr := some 1, osize := 1, nsize := 4, realloc := some 1 }]

/-- The five requests are for less than `2 ^ 64` bytes, and the counter wraps to zero
while four bytes are live. -/
theorem shrinking_wraps_counter :
    (shrunkTwice.map (·.nsize.toNat)).sum < 2 ^ 64 ∧
    ∃ m, Steps.run step (Memory.init 0xFFFFFFFFFFFFFFFF) shrunkTwice = some m ∧
      m.heap.total = 4 ∧ m.checker.used.toNat = 0 :=
  ⟨by decide, _, rfl, rfl, rfl⟩

end LambdaExecutor.Execution
