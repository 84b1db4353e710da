import LambdaExecutor.Database.Linearizability

/-!
# Calls come to an end

A call waits only for the lock of its row, before it holds any itself, so whoever holds
the lock does not wait. Every statement leaves a call less to do.
-/

namespace LambdaExecutor.Database

open RowLocks RowLocks.Db

variable {db db' : Db} {c : CallId} {call : Call} {pc : Pc} {users : UserId → Option ℤ}
  {s next : State}

-- ---------------------------------------------------------------------------
-- Waiting
-- ---------------------------------------------------------------------------

theorem step_advance (hcall : s.calls[c]? = some call)
    (hadvance : call.advance c s.db = some (pc, db')) :
    s.step (.advance c) = some (s.after c call pc db') := by
  simp [State.step, hcall, hadvance]

theorem exists_advance_of_locked (hok : call.Ok db c) (hprogress : call.pc.inProgress)
    (hpc : call.pc ≠ .select) : ∃ pc db', call.advance c db = some (pc, db') := by
  obtain ⟨user, amount, before⟩ := call
  cases before with
  | select => exact absurd rfl hpc
  | update =>
    obtain ⟨-, balance, hholds, -⟩ := hok
    have hgrants : db.Grants c user := .inr hholds.holder
    rw [Call.advance, updateWhere, hholds.rows, if_pos hgrants]
    exact ⟨_, _, rfl⟩
  | decide | commit | answer => exact ⟨_, _, rfl⟩
  | returned | failed => cases hprogress

theorem exists_advance_of_select (hpc : call.pc = .select) (hgrants : db.Grants c call.user) :
    ∃ pc db', call.advance c db = some (pc, db') := by
  obtain ⟨user, amount, before⟩ := call
  obtain rfl : before = .select := hpc
  rw [Call.advance, selectForUpdate]
  cases db.rows user with
  | none => exact ⟨_, _, rfl⟩
  | some balance =>
    rw [if_pos hgrants]
    exact ⟨_, _, rfl⟩

theorem exists_advance_of_holder (hok : call.Ok db c) {user : UserId}
    (hholder : db.holder user = some c) : ∃ pc db', call.advance c db = some (pc, db') := by
  obtain rfl := hok.1 user hholder
  refine exists_advance_of_locked hok ?_ ?_
  · cases hpc : call.pc with
    | returned | failed =>
      refine absurd hholder ?_
      have hnone := hok.2
      rw [hpc] at hnone
      exact hnone
    | _ => rfl
  · intro hpc
    have hnone := hok.2
    rw [hpc] at hnone
    exact hnone hholder

theorem Exact.goes_on (h : Exact users s) (hcall : s.calls[c]? = some call)
    (hprogress : call.pc.inProgress) : (∃ next, s.step (.advance c) = some next) ∨
      ∃ other next, s.db.holder call.user = some other ∧ s.step (.advance other) = some next := by
  by_cases hpc : call.pc = .select
  · cases hholder : s.db.holder call.user with
    | none =>
      obtain ⟨pc, db', hadvance⟩ := exists_advance_of_select hpc (.inl hholder : s.db.Grants c _)
      exact .inl ⟨_, step_advance hcall hadvance⟩
    | some other =>
      have hother := List.getElem?_eq_getElem (h.started call.user other hholder)
      obtain ⟨pc, db', hadvance⟩ := exists_advance_of_holder (h.calls other _ hother) hholder
      exact .inr ⟨other, _, rfl, step_advance hother hadvance⟩
  · obtain ⟨pc, db', hadvance⟩ := exists_advance_of_locked (h.calls c call hcall) hprogress hpc
    exact .inl ⟨_, step_advance hcall hadvance⟩

-- ---------------------------------------------------------------------------
-- What is left to do
-- ---------------------------------------------------------------------------

def Pc.left : Pc → Nat
  | .select => 5
  | .decide .. => 4
  | .update => 3
  | .commit _ => 2
  | .answer _ => 1
  | .returned _ | .failed => 0

def callsLeft : List Call → Nat
  | [] => 0
  | call :: calls => call.pc.left + callsLeft calls

theorem left_advance (hadvance : call.advance c db = some (pc, db')) : pc.left < call.pc.left := by
  obtain ⟨user, amount, before⟩ := call
  cases before with
  | select =>
    obtain ⟨found, -, hnext⟩ := Option.map_eq_some_iff.mp hadvance
    obtain ⟨rfl, -⟩ := Prod.mk.inj hnext
    exact Nat.lt_succ_self _
  | decide found v =>
    obtain ⟨rfl, -⟩ := Prod.mk.inj (Option.some.inj hadvance)
    split <;> simp [Pc.left]
  | update =>
    obtain ⟨written, -, hnext⟩ := Option.map_eq_some_iff.mp hadvance
    cases written <;> obtain ⟨rfl, -⟩ := Prod.mk.inj hnext <;> simp [Pc.left]
  | commit | answer =>
    obtain ⟨rfl, -⟩ := Prod.mk.inj (Option.some.inj hadvance)
    exact Nat.lt_succ_self _
  | returned | failed => cases hadvance

theorem left_failed (h : pc.inTransaction) : Pc.failed.left < pc.left := by
  cases pc with
  | answer | returned | failed => cases h
  | _ => simp [Pc.left]

theorem callsLeft_set {calls : List Call} (hcall : calls[c]? = some call)
    (hless : pc.left < call.pc.left) :
    callsLeft (calls.set c { call with pc }) < callsLeft calls := by
  induction calls generalizing c with
  | nil => cases hcall
  | cons first calls ih =>
    cases c with
    | zero =>
      obtain rfl : first = call := Option.some.inj hcall
      exact Nat.add_lt_add_right hless _
    | succ c => exact Nat.add_lt_add_left (ih hcall) _

theorem callsLeft_le (calls : List Call) :
    callsLeft calls ≤ 5 * calls.countP (·.pc.inProgress) := by
  induction calls with
  | nil => exact Nat.le_refl _
  | cons call calls ih =>
    rw [callsLeft, List.countP_cons, Nat.mul_add, Nat.add_comm]
    refine Nat.add_le_add ih ?_
    cases call.pc <;> simp [Pc.left, Pc.inProgress]

theorem left_step {label : Label} (hlabel : ∀ user amount, label ≠ .start user amount)
    (hstep : s.step label = some next) : callsLeft next.calls < callsLeft s.calls := by
  rcases step_cases hstep with ⟨user, amount, rfl, -⟩ |
    ⟨c, call, pc, db', rfl, hcall, hadvance, rfl⟩ | ⟨c, call, rfl, hcall, htransaction, rfl⟩
  · exact absurd rfl (hlabel user amount)
  · exact callsLeft_set hcall (left_advance hadvance)
  · exact callsLeft_set hcall (left_failed htransaction)

/-- A call waits only for one that does not wait, and without new calls all of them end, within
five statements of each. -/
theorem calls_come_to_end (users : UserId → Option ℤ)
    (hstart : ∀ user a, users user = some a → 0 ≤ a) (labels : List Label) (s : State)
    (hrun : Steps.run State.step (.init users) labels = some s) :
    (∀ c (call : Call), s.calls[c]? = some call → call.pc.inProgress →
      (∃ next, s.step (.advance c) = some next) ∨
        ∃ other next, s.db.holder call.user = some other ∧
          s.step (.advance other) = some next) ∧
    ∀ more final, (∀ label ∈ more, ∀ user amount, label ≠ .start user amount) →
      Steps.run State.step s more = some final →
        more.length ≤ 5 * s.calls.countP (·.pc.inProgress) ∧
        ((∀ c, final.step (.advance c) = none) →
          ∀ call ∈ final.calls, call.pc.inProgress = false) := by
  have hexact {s final : State} {labels : List Label} (h : Exact users s)
      (hr : Steps.run State.step s labels = some final) : Exact users final :=
    Steps.run_invariant (Exact users) (fun s label next hs hstep => hs.step label hstep) h hr
  have h : Exact users s := hexact (.init hstart) hrun
  refine ⟨fun c call hcall hprogress => h.goes_on hcall hprogress,
    fun more final hmore hr => ⟨?_, fun hstuck call hmem => ?_⟩⟩
  · have hlength := Steps.length_add_le_of_decreases (fun s : State => callsLeft s.calls)
      (fun s label next hlabel hstep => left_step hlabel hstep) hmore hr
    have hle := callsLeft_le s.calls
    omega
  · rw [Bool.eq_false_iff]
    intro hprogress
    obtain ⟨c, hcall⟩ := List.mem_iff_getElem?.mp hmem
    rcases (hexact h hr).goes_on hcall hprogress with ⟨next, hnext⟩ | ⟨other, next, -, hnext⟩
    · cases (hstuck c).symm.trans hnext
    · cases (hstuck other).symm.trans hnext

theorem second_call_waits : ∃ s,
    Steps.run State.step (.init oneUser)
      [.start 1 (some 7), .start 1 (some 7), .advance 0] = some s ∧
    s.step (.advance 1) = none ∧
    (∃ other next, s.db.holder 1 = some other ∧ s.step (.advance other) = some next) ∧
    ∀ more final, (∀ label ∈ more, ∀ user amount, label ≠ .start user amount) →
      Steps.run State.step s more = some final → more.length ≤ 10 := by
  obtain ⟨hwaits, hends⟩ := calls_come_to_end oneUser oneUser_nonneg
    [.start 1 (some 7), .start 1 (some 7), .advance 0] _ rfl
  refine ⟨_, rfl, rfl, ?_, fun more final hmore hr => (hends more final hmore hr).1⟩
  rcases hwaits 1 { user := 1, amount := some 7, pc := .select } rfl rfl with ⟨next, hnext⟩ | hother
  · cases hnext
  · exact hother

end LambdaExecutor.Database
