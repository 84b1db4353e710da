import LambdaExecutor.Execution.MemoryLimit

/-!
# When the counter is exact

The allocator adds the difference of the sizes of a block, whichever is larger. A
block that grows is charged for what it grows by, and a block that shrinks is
charged for what it gives back.
-/

namespace LambdaExecutor.Execution

/-- The request is granted and `realloc` gives a block. -/
def Served (m : Memory) (call : AllocCall) : Prop :=
  call.nsize ≠ 0 → (luaAllocator m call).1 ≠ none

instance (m : Memory) (call : AllocCall) : Decidable (Served m call) :=
  inferInstanceAs (Decidable (_ → _))

def Memory.Exact (m : Memory) : Prop := m.checker.used.toNat = m.heap.total

def requested (calls : List AllocCall) : Nat := (calls.map (·.nsize.toNat)).sum

@[simp] theorem requested_nil : requested [] = 0 := rfl
@[simp] theorem requested_cons (call : AllocCall) (calls : List AllocCall) :
    requested (call :: calls) = call.nsize.toNat + requested calls := by simp [requested]
@[simp] theorem requested_append (before after : List AllocCall) :
    requested (before ++ after) = requested before + requested after := by simp [requested]

/-- The call shrinks a live block, though not by half of the address space: adding that
is the same as taking it off. -/
def AllocCall.Shrinks (call : AllocCall) : Prop :=
  call.nsize ≠ 0 ∧ call.nsize.toNat < call.oldSize.toNat ∧
    call.oldSize.toNat - call.nsize.toNat ≠ 2 ^ 63

instance (call : AllocCall) : Decidable call.Shrinks := inferInstanceAs (Decidable (_ ∧ _ ∧ _))

variable {m next final : Memory} {call : AllocCall} {calls : List AllocCall}

theorem served_cases (hs : step m call = some next) (hserved : Served m call) :
    (call.nsize = 0 ∧ next.checker = (m.checker.deallocated call.oldSize).1 ∧
      next.heap.total + call.oldSize.toNat = m.heap.total) ∨
    (call.nsize ≠ 0 ∧ next.checker = m.checker.allocated call.charge ∧
      next.heap.total + call.oldSize.toNat = m.heap.total + call.nsize.toNat) := by
  obtain ⟨hw, result, hresult, ha⟩ := step_cases hs
  have hgiven : call.nsize ≠ 0 → result ≠ none := by
    intro hn
    simpa [hresult] using hserved hn
  rw [call.oldSize_toNat]
  cases ha with
  | freed hn checker log hd =>
    refine .inl ⟨hn, ?_, Blocks.total_free hw.1⟩
    rw [hd]
  | refused hn hl => exact absurd rfl (hgiven hn)
  | granted hn hl =>
    refine .inr ⟨hn, rfl, ?_⟩
    obtain ⟨q, hq⟩ := Option.ne_none_iff_exists'.mp (hgiven hn)
    simp only [hq]
    exact Blocks.total_realloc hw.1 (hq ▸ hw.2) call.nsize.toNat

theorem total_le_requested (hserved : Steps.Along step Served m calls)
    (hr : Steps.run step m calls = some final) :
    final.heap.total ≤ m.heap.total + requested calls := by
  induction calls generalizing m with
  | nil =>
    cases hr
    exact Nat.le_add_right _ _
  | cons call rest ih =>
    obtain ⟨next, hs, hrest⟩ := Steps.run_cons_some.mp hr
    have hnext := ih (hserved.2 next hs) hrest
    rw [requested_cons]
    rcases served_cases hs hserved.1 with ⟨-, -, htotal⟩ | ⟨-, -, htotal⟩ <;> omega

theorem allocated_toNat (checker : MemoryLimitChecker) (size : Size) :
    (checker.allocated size).used.toNat = (checker.used.toNat + size.toNat) % 2 ^ 64 :=
  BitVec.toNat_add _ _

theorem Memory.Exact.step_iff (h : m.Exact) (hroom : m.heap.total + call.nsize.toNat < 2 ^ 64)
    (hs : step m call = some next) (hserved : Served m call) : next.Exact ↔ ¬ call.Shrinks := by
  obtain ⟨hw, -⟩ := step_cases hs
  have hold := sizeOf_le_total hw
  have hcharge := call.charge_toNat
  unfold Memory.Exact AllocCall.Shrinks at *
  rcases served_cases hs hserved with ⟨hn, hchecker, htotal⟩ | ⟨hn, hchecker, htotal⟩
  · rw [deallocated_of_le (h ▸ hold)] at hchecker
    have hsub : next.checker.used.toNat = m.checker.used.toNat - call.oldSize.toNat := by
      rw [hchecker]
      exact BitVec.toNat_sub_of_le (BitVec.le_def.mpr (h ▸ hold))
    refine iff_of_true (by omega) fun hshrinks => hshrinks.1 hn
  · rw [hchecker, allocated_toNat]
    constructor
    · rintro hexact ⟨-, hless, hhalf⟩
      rw [if_neg (by omega)] at hcharge
      omega
    · intro hkept
      by_cases hgrows : call.oldSize.toNat < call.nsize.toNat
      · rw [if_pos hgrows] at hcharge
        omega
      · rw [if_neg hgrows] at hcharge
        -- Equal sizes are charged nothing, and half of the address space wraps to itself.
        have hdifference : call.nsize.toNat = call.oldSize.toNat ∨
            call.oldSize.toNat - call.nsize.toNat = 2 ^ 63 := by
          by_contra hneither
          exact hkept ⟨hn, by omega, by omega⟩
        omega

theorem Memory.Exact.run (h : m.Exact) (hroom : m.heap.total + requested calls < 2 ^ 64)
    (hserved : Steps.Along step Served m calls) (hkept : ∀ call ∈ calls, ¬ call.Shrinks)
    (hr : Steps.run step m calls = some final) : final.Exact := by
  induction calls generalizing m with
  | nil =>
    cases hr
    exact h
  | cons call rest ih =>
    obtain ⟨next, hs, hrest⟩ := Steps.run_cons_some.mp hr
    obtain ⟨hcall, hothers⟩ := List.forall_mem_cons.mp hkept
    rw [requested_cons] at hroom
    have hnext : next.Exact := (h.step_iff (by omega) hs hserved.1).mpr hcall
    refine ih hnext ?_ (hserved.2 next hs) hothers hrest
    rcases served_cases hs hserved.1 with ⟨-, -, htotal⟩ | ⟨-, -, htotal⟩ <;> omega

/-- The counter is the total of the live blocks after every call of a trace in which every
request is served, exactly when no call shrinks a block. -/
theorem accounting_exact_iff (limit : Size) (calls : List AllocCall) (m : Memory)
    (hserved : Steps.Along step Served (Memory.init limit) calls)
    (hrequested : requested calls < 2 ^ 64)
    (hr : Steps.run step (Memory.init limit) calls = some m) :
    (∀ before after mid, calls = before ++ after →
      Steps.run step (Memory.init limit) before = some mid →
        mid.checker.used.toNat = mid.heap.total) ↔ ∀ call ∈ calls, ¬ call.Shrinks := by
  have hinit : (Memory.init limit).Exact := rfl
  have hempty : (Memory.init limit).heap.total = 0 := rfl
  constructor
  · intro hexact call hmem
    obtain ⟨before, after, rfl⟩ := List.append_of_mem hmem
    obtain ⟨mid, hbefore, hrest⟩ := Steps.run_append_some.mp hr
    obtain ⟨next, hs, -⟩ := Steps.run_cons_some.mp hrest
    obtain ⟨hserved', hthen⟩ := hserved.append hbefore
    have hbound := total_le_requested hserved' hbefore
    rw [requested_append, requested_cons] at hrequested
    have hmid : mid.Exact := hexact before (call :: after) mid rfl hbefore
    have hnext : next.Exact := by
      refine hexact (before ++ [call]) after next (by simp) ?_
      exact Steps.run_append_some.mpr ⟨mid, hbefore, Steps.run_cons_some.mpr ⟨next, hs, rfl⟩⟩
    exact (hmid.step_iff (by omega) hs hthen.1).mp hnext
  · rintro hkept before after mid rfl hbefore
    rw [requested_append] at hrequested
    refine hinit.run (by omega) (hserved.append hbefore).1 ?_ hbefore
    exact fun call hmem => hkept call (List.mem_append_left _ hmem)

theorem growing_block_exact :
    (∀ before after mid, oneBlock.take 2 = before ++ after →
      Steps.run step (Memory.init 350) before = some mid →
        mid.checker.used.toNat = mid.heap.total) ↔ ∀ call ∈ oneBlock.take 2, ¬ call.Shrinks :=
  accounting_exact_iff 350 (oneBlock.take 2) _ (by decide) (by decide) rfl

def shrunkAndGrown : List AllocCall :=
  [{ ptr := none, osize := 0, nsize := 100, realloc := some 1 },
   { ptr := some 1, osize := 100, nsize := 50, realloc := some 1 },
   { ptr := some 1, osize := 50, nsize := 100, realloc := some 1 }]

theorem shrinking_is_charged :
    Steps.Along step Served (Memory.init 1000) shrunkAndGrown ∧ requested shrunkAndGrown < 2 ^ 64 ∧
    (∃ m, Steps.run step (Memory.init 1000) (shrunkAndGrown.take 1) = some m ∧
      m.heap.total = 100 ∧ m.checker.used.toNat = 100) ∧
    ∃ m, Steps.run step (Memory.init 1000) shrunkAndGrown = some m ∧
      m.heap.total = 100 ∧ m.checker.used.toNat = 200 :=
  ⟨by decide, by decide, ⟨_, rfl, rfl, rfl⟩, _, rfl, rfl, rfl⟩

end LambdaExecutor.Execution
