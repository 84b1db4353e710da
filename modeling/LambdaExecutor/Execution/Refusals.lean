import LambdaExecutor.Execution.Accounting

/-!
# Refused requests

The allocator charges a request before it knows whether the request is granted,
and neither exit gives the charge back. A refused request stays on the account.
-/

namespace LambdaExecutor.Execution

def Refused (m : Memory) (call : AllocCall) : Prop :=
  call.nsize ≠ 0 ∧ (luaAllocator m call).1 = none

instance (m : Memory) (call : AllocCall) : Decidable (Refused m call) :=
  inferInstanceAs (Decidable (_ ∧ _))

/-- The bytes by which a request makes its block larger. -/
def AllocCall.growth (call : AllocCall) : Nat := call.nsize.toNat - call.oldSize.toNat

/-- The same request, of which `realloc` makes a block at `q`. -/
def AllocCall.retried (call : AllocCall) (q : Ptr) : AllocCall := { call with realloc := some q }

/-- The counter is what it was, and the same request is granted once enough has been freed. -/
structure LeavesAccounting (limit : Size) (m : Memory) (call : AllocCall) : Prop where
  kept : (luaAllocator m call).2.checker.used = m.checker.used
  regained : ∀ frees later q, (∀ free ∈ frees, free.nsize = 0) →
    Steps.run step (luaAllocator m call).2 frees = some later → WellFormed later (call.retried q) →
      later.checker.used.toNat + call.growth ≤ limit.toNat →
        (luaAllocator later (call.retried q)).1 = some q

variable {m next final : Memory} {call : AllocCall} {calls : List AllocCall} {limit : Size}

theorem AllocCall.charge_eq_zero : call.charge = 0 ↔ call.nsize = call.oldSize := by
  have hzero : (0 : Size).toNat = 0 := rfl
  rw [← BitVec.toNat_inj, ← BitVec.toNat_inj, call.charge_toNat, hzero]
  constructor
  · intro hcharge
    split at hcharge <;> omega
  · intro heq
    simp [heq]

theorem luaAllocator_limit (m : Memory) (call : AllocCall) :
    (luaAllocator m call).2.checker.limit = m.checker.limit := by
  rcases h : luaAllocator m call with ⟨result, next⟩
  have ha := luaAllocator_cases m call
  rw [h] at ha
  cases ha with
  | freed hn checker log hd =>
    simp only [MemoryLimitChecker.deallocated] at hd
    split at hd <;> cases hd <;> rfl
  | refused hn hl => rfl
  | granted hn hl => rfl

theorem run_limit (hlimit : m.checker.limit = limit) (hr : Steps.run step m calls = some final) :
    final.checker.limit = limit := by
  refine Steps.run_invariant (fun m => m.checker.limit = limit) ?_ hlimit hr
  intro m call next hm hs
  obtain ⟨-, result, hresult, -⟩ := step_cases hs
  have hkept := luaAllocator_limit m call
  rw [hresult] at hkept
  exact hkept.trans hm

theorem Refused.used (h : Refused m call) :
    (luaAllocator m call).2.checker.used = m.checker.used + call.charge := by
  rcases hresult : luaAllocator m call with ⟨result, next⟩
  have ha := luaAllocator_cases m call
  rw [hresult] at ha
  cases ha with
  | freed hn => exact absurd hn h.1
  | refused hn hl => rfl
  | granted hn hl => rfl

theorem granted_of_le (hn : call.nsize ≠ 0)
    (hl : m.checker.used.toNat + call.charge.toNat ≤ m.checker.limit.toNat) :
    (luaAllocator m call).1 = call.realloc := by
  rcases hresult : luaAllocator m call with ⟨result, next⟩
  have ha := luaAllocator_cases m call
  rw [hresult] at ha
  cases ha with
  | freed hzero => exact absurd hzero hn
  | refused _ hover =>
    have hused : (m.checker.allocated call.charge).used.toNat =
        m.checker.used.toNat + call.charge.toNat :=
      allocated_used hn fun _ => Nat.lt_of_le_of_lt hl m.checker.limit.isLt
    rw [BitVec.lt_def] at hover
    omega
  | granted => rfl

theorem AllocCall.charge_of_le (h : call.oldSize.toNat ≤ call.nsize.toNat) :
    call.charge.toNat = call.growth := by
  have hcharge := call.charge_toNat
  unfold growth
  split at hcharge <;> omega

theorem leavesAccounting_iff (hlimit : m.checker.limit = limit) (h : Refused m call) :
    LeavesAccounting limit m call ↔ call.nsize = call.oldSize := by
  constructor
  · intro hleaves
    have hkept := hleaves.kept
    rw [h.used] at hkept
    exact AllocCall.charge_eq_zero.mp (BitVec.add_right_eq_self.mp hkept)
  · intro hsame
    refine ⟨?_, ?_⟩
    · rw [h.used, AllocCall.charge_eq_zero.mpr hsame]
      exact BitVec.add_zero _
    · intro frees later q _ hrun _ hroom
      have hlater : later.checker.limit = limit :=
        run_limit ((luaAllocator_limit m call).trans hlimit) hrun
      have hcharge : (call.retried q).charge.toNat = call.growth :=
        AllocCall.charge_of_le (Nat.le_of_eq (congrArg BitVec.toNat hsame.symm))
      have hroom' : later.checker.used.toNat + (call.retried q).charge.toNat ≤
          later.checker.limit.toNat := by rwa [hlater, hcharge]
      exact granted_of_le h.1 hroom'

/-- In every state that a run reaches, a refused request leaves the accounting as it was
exactly when it asks for the size which its block has already. -/
theorem refusal_leaves_accounting_iff (limit : Size) (calls : List AllocCall) (m : Memory)
    (call : AllocCall) (hr : Steps.run step (Memory.init limit) calls = some m)
    (hrefused : Refused m call) :
    LeavesAccounting limit m call ↔ call.nsize = call.oldSize :=
  leavesAccounting_iff (run_limit rfl hr) hrefused

def grownAndRefused : List AllocCall :=
  [{ ptr := none, osize := 0, nsize := 100, realloc := some 1 },
   { ptr := some 1, osize := 100, nsize := 160, realloc := none }]

theorem same_size_leaves_accounting :
    ∃ m, Steps.run step (Memory.init 120) grownAndRefused = some m ∧
      LeavesAccounting 120 m { ptr := some 1, osize := 100, nsize := 100, realloc := some 1 } :=
  ⟨_, rfl, (refusal_leaves_accounting_iff 120 grownAndRefused _ _ rfl (by decide)).mpr rfl⟩

def tooMuch : AllocCall := { ptr := none, osize := 0, nsize := 200, realloc := some 1 }

def outOfMemory : AllocCall := { ptr := none, osize := 0, nsize := 80, realloc := none }

/-- Nothing has been handed out, at either exit, and a request for half of the limit is refused. -/
theorem refused_request_stays_charged :
    (Refused (Memory.init 100) tooMuch ∧ ¬ LeavesAccounting 100 (Memory.init 100) tooMuch) ∧
    (Refused (Memory.init 100) outOfMemory ∧
      ¬ LeavesAccounting 100 (Memory.init 100) outOfMemory) ∧
    ∃ m, Steps.run step (Memory.init 100) [outOfMemory] = some m ∧ m.heap.total = 0 ∧
      m.checker.used = 80 ∧
      Refused m { ptr := none, osize := 0, nsize := 50, realloc := some 1 } := by
  refine ⟨⟨by decide, fun h => ?_⟩, ⟨by decide, fun h => ?_⟩, _, rfl, rfl, rfl, by decide⟩
  · exact absurd h.kept (by decide)
  · exact absurd h.kept (by decide)

end LambdaExecutor.Execution
