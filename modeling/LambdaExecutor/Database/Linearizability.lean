import LambdaExecutor.Database.BalanceLaws
import LambdaExecutor.Library.Refinement
import Mathlib.Data.List.Nodup

/-!
# Calls of `decrease_user_balance` are linearizable

Whatever statements of concurrent calls come in between, each call has an effect in
one step, at the end of its transaction: the balances and all answers are those of
the calls one after another, in an order that keeps a call before every call that
was started after its answer.
-/

namespace LambdaExecutor.Database

open RowLocks RowLocks.Db Refinement

-- ---------------------------------------------------------------------------
-- Calls in one step
-- ---------------------------------------------------------------------------

/-- A balance that covers the amount is reduced by it; `none` is an error. -/
def decreaseBalance (amount : Option ℤ) : Option ℤ → Option (Bool × Option ℤ)
  | none => some (false, none)
  | some balance => amount.bind fun a =>
      if a ≤ balance then (numeric (balance - a)).map fun left => (true, some left)
      else some (false, some balance)

structure Operation where
  call : CallId
  user : UserId
  amount : Option ℤ
  result : Bool
  deriving DecidableEq

/-- The call has the balances to itself; `none` where it does not answer like this. -/
def Operation.apply (users : UserId → Option ℤ) (o : Operation) : Option (UserId → Option ℤ) :=
  (decreaseBalance o.amount (users o.user)).bind fun (result, row) =>
    if result = o.result then some (Function.update users o.user row) else none

def Pc.answered : Pc → Option Bool
  | .answer result | .returned result => some result
  | .select | .decide .. | .update | .commit _ | .failed => none

theorem charged_eq (pc : Pc) : pc.charged = pc.answered.getD false := by
  cases pc <;> rfl

def State.committed (s : State) : Label → Option Operation
  | .advance c => do
    let call ← s.calls[c]?
    match call.pc with
    | .commit result => some { call := c, user := call.user, amount := call.amount, result }
    | _ => none
  | .start .. | .fail _ => none

/-- The calls of a run, in the order in which they take effect. -/
def committedCalls (users : UserId → Option ℤ) (labels : List Label) : List Operation :=
  effects State.step State.committed (.init users) labels

-- ---------------------------------------------------------------------------
-- What a call has found out
-- ---------------------------------------------------------------------------

variable {db db' : Db} {c : CallId} {call : Call} {pc : Pc}

/-- What a call is going to answer is the answer for the balance as it stands. -/
def Call.Decided (db : Db) (c : CallId) (call : Call) : Prop :=
  match call.pc with
  | .decide found _ => found = false → db.rows call.user = none
  | .commit result => (db.rows call.user = none ∨ db.holder call.user = some c) ∧
      (decreaseBalance call.amount (db.rows call.user)).map Prod.fst = some result
  | .select | .update | .answer _ | .returned _ | .failed => True

theorem Effect.rows_none_iff (h : Effect c call pc db db') (user : UserId) :
    db'.rows user = none ↔ db.rows user = none := by
  rw [h.rows]
  exact Option.map_eq_none_iff

theorem Call.Decided.keep (h : call.Decided db c) {other : CallId} {call' : Call}
    (heffect : Effect other call' pc db db') (hne : c ≠ other) : call.Decided db' c := by
  obtain ⟨user, amount, before⟩ := call
  cases before with
  | select | update | answer | returned | failed => trivial
  | decide found v => exact fun hfound => (heffect.rows_none_iff user).mpr (h hfound)
  | commit result =>
    obtain ⟨hfree | hheld, hresult⟩ := h
    · have hfree' := (heffect.rows_none_iff user).mpr hfree
      refine ⟨.inl hfree', ?_⟩
      rw [hfree']
      rwa [hfree] at hresult
    · obtain ⟨hholder, hkept⟩ := heffect.changes.held (k := user) hne
      refine ⟨.inr (hholder.mpr hheld), ?_⟩
      rwa [(hkept hheld).1]

section Advance

variable {user : UserId} {amount : Option ℤ}

theorem decided_select
    (hadvance : Call.advance { user, amount, pc := .select } c db = some (pc, db')) :
    Call.Decided db' c { user, amount, pc } := by
  obtain ⟨⟨row, locked⟩, hselect, hnext⟩ := Option.map_eq_some_iff.mp hadvance
  obtain ⟨rfl, rfl⟩ := Prod.mk.inj hnext
  rcases selectForUpdate_cases hselect with ⟨hnone, rfl, rfl⟩ | ⟨balance, hrow, -, rfl, rfl⟩
  · exact fun _ => hnone
  · intro hfound
    have hcurrent : db.current user = none := by simpa using hfound
    simp [Db.current, hrow] at hcurrent

theorem decided_decide {found : Bool} {v : Option Bool}
    (hok : Call.Ok db c { user, amount, pc := .decide found v })
    (h : Call.Decided db c { user, amount, pc := .decide found v })
    (hadvance : Call.advance { user, amount, pc := .decide found v } c db = some (pc, db')) :
    Call.Decided db' c { user, amount, pc } := by
  obtain ⟨rfl, rfl⟩ := Prod.mk.inj (Option.some.inj hadvance)
  split
  · next hrefused =>
    rcases hok.2 with ⟨hfound, -⟩ | ⟨hfound, balance, hholds, hv⟩
    · have hnone := h hfound
      exact ⟨.inl hnone, by rw [hnone]; rfl⟩
    · have hfalse : sufficientFunds amount balance = some false :=
        hv.symm.trans (hrefused.resolve_left (by simp [hfound]))
      obtain ⟨a, rfl, hless⟩ := Option.map_eq_some_iff.mp hfalse
      refine ⟨.inr hholds.holder, ?_⟩
      rw [hholds.rows]
      simp [decreaseBalance, of_decide_eq_false hless]
  · trivial

theorem decided_update (hok : Call.Ok db c { user, amount, pc := .update })
    (hadvance : Call.advance { user, amount, pc := .update } c db = some (pc, db')) :
    Call.Decided db' c { user, amount, pc } := by
  obtain ⟨-, balance, hholds, hle⟩ := hok
  obtain ⟨result, hupdate, hnext⟩ := Option.map_eq_some_iff.mp hadvance
  obtain rfl := updateWhere_held hupdate hholds.rows
  rw [hholds.current, Option.bind_some] at hnext
  cases hreduced : reduced amount balance with
  | none =>
    rw [hreduced] at hnext
    obtain ⟨rfl, rfl⟩ := Prod.mk.inj hnext
    trivial
  | some left =>
    rw [hreduced] at hnext
    obtain ⟨rfl, rfl⟩ := Prod.mk.inj hnext
    obtain ⟨a, rfl, hnumeric⟩ := Option.bind_eq_some_iff.mp hreduced
    refine ⟨.inr lock_holder_self, ?_⟩
    show (decreaseBalance (some a) (db.rows user)).map Prod.fst = some true
    rw [hholds.rows]
    simp [decreaseBalance, hle a rfl, hnumeric]

end Advance

theorem Call.Decided.advance (h : call.Decided db c) (hok : call.Ok db c)
    (hadvance : call.advance c db = some (pc, db')) : Call.Decided db' c { call with pc } := by
  obtain ⟨user, amount, before⟩ := call
  cases before with
  | select => exact decided_select hadvance
  | decide found v => exact decided_decide hok h hadvance
  | update => exact decided_update hok hadvance
  | commit result | answer result =>
    obtain ⟨rfl, rfl⟩ := Prod.mk.inj (Option.some.inj hadvance)
    trivial
  | returned result | failed => cases hadvance

theorem decreaseBalance_charge {user : UserId} {amount : Option ℤ} {row row' : Option ℤ}
    {result : Bool} (h : decreaseBalance amount row = some (result, row')) :
    row' = row.map (· - Call.charge user { user, amount, pc := .answer result }) := by
  cases row with
  | none =>
    obtain ⟨rfl, rfl⟩ := Prod.mk.inj (Option.some.inj h)
    rfl
  | some balance =>
    obtain ⟨a, rfl, hanswer⟩ := Option.bind_eq_some_iff.mp h
    split at hanswer
    · obtain ⟨left, hnumeric, hpair⟩ := Option.map_eq_some_iff.mp hanswer
      obtain ⟨rfl, rfl⟩ := Prod.mk.inj hpair
      have hleft : balance - a = left := by
        unfold numeric at hnumeric
        split at hnumeric
        · exact Option.some.inj hnumeric
        · cases hnumeric
      simp [Call.charge, Pc.charged, hleft]
    · obtain ⟨rfl, rfl⟩ := Prod.mk.inj (Option.some.inj hanswer)
      simp [Call.charge, Pc.charged]

theorem apply_commit {user : UserId} {amount : Option ℤ} {result : Bool}
    (hok : Call.Ok db c { user, amount, pc := .commit result })
    (h : Call.Decided db c { user, amount, pc := .commit result }) :
    Operation.apply db.rows { call := c, user, amount, result } = some (db.commit c).rows := by
  obtain ⟨-, hresult⟩ := h
  obtain ⟨⟨answered, row⟩, hdecrease, rfl⟩ := Option.map_eq_some_iff.mp hresult
  simp only [Operation.apply, hdecrease, Option.bind_some, if_true, Option.some.injEq]
  funext other
  rw [rows_commit hok other]
  by_cases hother : other = user
  · subst hother
    rw [Function.update_self]
    exact decreaseBalance_charge hdecrease
  · have hcharge : Call.charge other { user, amount, pc := .answer answered } = 0 :=
      if_neg fun hsame => hother hsame.1.symm
    rw [Function.update_of_ne hother, hcharge]
    simp

-- ---------------------------------------------------------------------------
-- Runs
-- ---------------------------------------------------------------------------

/-- What is known of every call, of its own statements and of its answer. -/
structure Linear (users : UserId → Option ℤ) (s : State) : Prop extends Exact users s where
  decided : ∀ c (call : Call), s.calls[c]? = some call → call.Decided s.db c

variable {users : UserId → Option ℤ} {s next : State}

theorem Linear.init (hstart : ∀ user a, users user = some a → 0 ≤ a) :
    Linear users (.init users) where
  toExact := .init hstart
  decided c call hcall := by cases hcall

theorem Linear.after (h : Linear users s) (hcall : s.calls[c]? = some call)
    (heffect : Effect c call pc s.db db') (hdecided : Call.Decided db' c { call with pc }) :
    Linear users (s.after c call pc db') where
  toExact := h.toExact.after hcall heffect
  decided other call' hcall' := by
    have hlength : c < s.calls.length := (List.getElem?_eq_some_iff.mp hcall).1
    by_cases hother : c = other
    · subst hother
      simp only [State.after, List.getElem?_set_self hlength, Option.some.injEq] at hcall'
      subst hcall'
      exact hdecided
    · rw [State.after, List.getElem?_set_ne hother] at hcall'
      exact (h.decided other call' hcall').keep heffect (Ne.symm hother)

theorem step_cases {label : Label} (h : s.step label = some next) :
    (∃ user amount, label = .start user amount ∧
      next = { s with calls := s.calls ++ [{ user, amount, pc := .select }] }) ∨
    (∃ c call pc db', label = .advance c ∧ s.calls[c]? = some call ∧
      call.advance c s.db = some (pc, db') ∧ next = s.after c call pc db') ∨
    ∃ c call, label = .fail c ∧ s.calls[c]? = some call ∧ call.pc.inTransaction ∧
      next = s.after c call .failed (s.db.abort c) := by
  cases label with
  | start user amount => exact .inl ⟨user, amount, rfl, (Option.some.inj h).symm⟩
  | advance c =>
    obtain ⟨call, hcall, ⟨pc, db⟩, hadvance, hnext⟩ := by
      simpa only [State.step, Option.bind_eq_bind, Option.bind_eq_some_iff] using h
    exact .inr (.inl ⟨c, call, pc, db, rfl, hcall, hadvance, (Option.some.inj hnext).symm⟩)
  | fail c =>
    obtain ⟨call, hcall, hnext⟩ := by
      simpa only [State.step, Option.bind_eq_bind, Option.bind_eq_some_iff] using h
    split at hnext
    · next htransaction =>
      exact .inr (.inr ⟨c, call, rfl, hcall, htransaction, (Option.some.inj hnext).symm⟩)
    · cases hnext

theorem getElem?_concat {calls : List Call} {last : Call} (h : (calls ++ [last])[c]? = some call) :
    calls[c]? = some call ∨ (c = calls.length ∧ call = last) := by
  by_cases hold : c < calls.length
  · rw [List.getElem?_append_left hold] at h
    exact .inl h
  · rw [List.getElem?_append_right (Nat.le_of_not_lt hold)] at h
    obtain ⟨hlength, -⟩ := List.getElem?_eq_some_iff.mp h
    have hle : c ≤ calls.length := Nat.le_of_sub_eq_zero (Nat.lt_one_iff.mp hlength)
    obtain rfl := List.mem_singleton.mp (List.mem_of_getElem? h)
    exact .inr ⟨Nat.le_antisymm hle (Nat.le_of_not_lt hold), rfl⟩

theorem Linear.step (h : Linear users s) {label : Label} (hstep : s.step label = some next) :
    Linear users next := by
  rcases step_cases hstep with ⟨user, amount, rfl, rfl⟩ |
    ⟨c, call, pc, db', rfl, hcall, hadvance, rfl⟩ | ⟨c, call, rfl, hcall, htransaction, rfl⟩
  · refine ⟨h.toExact.start user amount, fun c call hcall => ?_⟩
    rcases getElem?_concat hcall with hold | ⟨-, rfl⟩
    · exact h.decided c call hold
    · trivial
  · have hok := h.calls c call hcall
    exact h.after hcall (hok.advance h.sound hadvance)
      ((h.decided c call hcall).advance hok hadvance)
  · exact h.after hcall (effect_abort h.sound htransaction) trivial

theorem committed_eq_none (h : ∀ result, call.pc ≠ .commit result)
    (hcall : s.calls[c]? = some call) : s.committed (.advance c) = none := by
  obtain ⟨user, amount, pc⟩ := call
  cases pc with
  | commit result => exact absurd rfl (h result)
  | _ => simp [State.committed, hcall]

theorem committed_commit {user : UserId} {amount : Option ℤ} {result : Bool}
    (hcall : s.calls[c]? = some { user, amount, pc := .commit result }) :
    s.committed (.advance c) = some { call := c, user, amount, result } := by
  simp [State.committed, hcall]

theorem answered_advance (hadvance : call.advance c db = some (pc, db'))
    (h : ∀ result, call.pc ≠ .commit result) : pc.answered = call.pc.answered := by
  obtain ⟨user, amount, before⟩ := call
  cases before with
  | select =>
    obtain ⟨selected, -, hnext⟩ := Option.map_eq_some_iff.mp hadvance
    obtain ⟨rfl, -⟩ := Prod.mk.inj hnext
    rfl
  | decide found v =>
    obtain ⟨rfl, -⟩ := Prod.mk.inj (Option.some.inj hadvance)
    split <;> rfl
  | update =>
    obtain ⟨result, -, hnext⟩ := Option.map_eq_some_iff.mp hadvance
    cases result with
    | some written =>
      obtain ⟨rfl, -⟩ := Prod.mk.inj hnext
      rfl
    | none =>
      obtain ⟨rfl, -⟩ := Prod.mk.inj hnext
      rfl
  | commit result => exact absurd rfl (h result)
  | answer result =>
    obtain ⟨rfl, -⟩ := Prod.mk.inj (Option.some.inj hadvance)
    rfl
  | returned result | failed => cases hadvance

theorem charge_of_answered (user : UserId) (h : pc.answered = call.pc.answered) :
    Call.charge user { call with pc } = call.charge user := by
  have hcharged : pc.charged = call.pc.charged := by
    rw [charged_eq, charged_eq, h]
  simp only [Call.charge, hcharged]

theorem rows_advance (hok : call.Ok db c) (hsound : db.Sound)
    (hadvance : call.advance c db = some (pc, db')) (h : ∀ result, call.pc ≠ .commit result) :
    db'.rows = db.rows := by
  funext user
  rw [(hok.advance hsound hadvance).rows, charge_of_answered user (answered_advance hadvance h)]
  simp

theorem refines (users : UserId → Option ℤ) :
    Refines State.step State.committed Operation.apply (fun s => s.db.rows) (Linear users) where
  keeps s label next h hstep := h.step hstep
  silent s label next h hstep hsilent := by
    rcases step_cases hstep with ⟨user, amount, rfl, rfl⟩ |
      ⟨c, call, pc, db', rfl, hcall, hadvance, rfl⟩ | ⟨c, call, rfl, hcall, -, rfl⟩
    · rfl
    · refine rows_advance (h.calls c call hcall) h.sound hadvance fun result hpc => ?_
      obtain ⟨user, amount, before⟩ := call
      cases hpc
      cases (committed_commit hcall).symm.trans hsilent
    · rfl
  applies s label next o h hstep heffect := by
    rcases step_cases hstep with ⟨user, amount, rfl, rfl⟩ |
      ⟨c, call, pc, db', rfl, hcall, hadvance, rfl⟩ | ⟨c, call, rfl, hcall, -, rfl⟩
    · cases heffect
    · obtain ⟨user, amount, before⟩ := call
      cases before with
      | commit result =>
        obtain rfl := Option.some.inj ((committed_commit hcall).symm.trans heffect)
        obtain ⟨rfl, rfl⟩ := Prod.mk.inj (Option.some.inj hadvance)
        exact apply_commit (h.calls c _ hcall) (h.decided c _ hcall)
      | _ =>
        have hnone := committed_eq_none (by simp) hcall
        cases hnone.symm.trans heffect
    · cases heffect

-- ---------------------------------------------------------------------------
-- The answers
-- ---------------------------------------------------------------------------

def Call.operation (c : CallId) (call : Call) : Option Operation :=
  call.pc.answered.map fun result => { call := c, user := call.user, amount := call.amount, result }

/-- The operations are the answered calls, each once. -/
structure Logged (s : State) (done : List Operation) : Prop where
  nodup : (done.map Operation.call).Nodup
  mem_iff : ∀ o, o ∈ done ↔ ∃ call : Call, s.calls[o.call]? = some call ∧
    call.operation o.call = some o

variable {done : List Operation}

theorem Logged.init : Logged (.init users) [] where
  nodup := .nil
  mem_iff o := by simp [State.init]

theorem Logged.start (h : Logged s done) (user : UserId) (amount : Option ℤ) :
    Logged { s with calls := s.calls ++ [{ user, amount, pc := .select }] } done where
  nodup := h.nodup
  mem_iff o := by
    rw [h.mem_iff]
    constructor
    · rintro ⟨call, hcall, hoperation⟩
      have hlength : o.call < s.calls.length := (List.getElem?_eq_some_iff.mp hcall).1
      exact ⟨call, (List.getElem?_append_left hlength).trans hcall, hoperation⟩
    · rintro ⟨call, hcall, hoperation⟩
      rcases getElem?_concat hcall with hold | ⟨-, rfl⟩
      · exact ⟨call, hold, hoperation⟩
      · cases hoperation

theorem Logged.after (h : Logged s done) (hcall : s.calls[c]? = some call)
    (hanswered : pc.answered = call.pc.answered) : Logged (s.after c call pc db') done where
  nodup := h.nodup
  mem_iff o := by
    have hlength : c < s.calls.length := (List.getElem?_eq_some_iff.mp hcall).1
    have hoperation : Call.operation o.call { call with pc } = call.operation o.call := by
      simp only [Call.operation, hanswered]
    rw [h.mem_iff]
    by_cases hc : c = o.call
    · subst hc
      simp [State.after, List.getElem?_set_self hlength, hcall, hoperation]
    · rw [State.after, List.getElem?_set_ne hc]

theorem Logged.commit (h : Logged s done) {result : Bool} (hcall : s.calls[c]? = some call)
    (hpc : call.pc = .commit result) : Logged (s.after c call (.answer result) db')
      (done ++ [{ call := c, user := call.user, amount := call.amount, result }]) := by
  have hlength : c < s.calls.length := (List.getElem?_eq_some_iff.mp hcall).1
  have hnew : ∀ o ∈ done, o.call ≠ c := by
    rintro o hmem rfl
    obtain ⟨call', hcall', hoperation⟩ := (h.mem_iff o).mp hmem
    obtain rfl := Option.some.inj (hcall.symm.trans hcall')
    simp [Call.operation, hpc, Pc.answered] at hoperation
  constructor
  · rw [List.map_append, List.map_singleton, List.nodup_append]
    refine ⟨h.nodup, List.nodup_singleton _, fun c' hmem other hother => ?_⟩
    obtain ⟨o, hdone, rfl⟩ := List.mem_map.mp hmem
    obtain rfl := List.mem_singleton.mp hother
    exact hnew o hdone
  · intro o
    rw [List.mem_append, List.mem_singleton]
    by_cases hc : c = o.call
    · have hold : o ∉ done := fun hmem => hnew o hmem hc.symm
      simp only [hold, false_or, State.after, ← hc, List.getElem?_set_self hlength,
        Option.some.injEq]
      constructor
      · rintro rfl
        exact ⟨_, rfl, rfl⟩
      · rintro ⟨call', rfl, hoperation⟩
        exact (Option.some.inj hoperation).symm
    · have hother : o ≠ { call := c, user := call.user, amount := call.amount, result } := by
        rintro rfl
        exact hc rfl
      rw [State.after, List.getElem?_set_ne hc, h.mem_iff]
      exact or_iff_left hother

theorem Logged.step (h : Logged s done) {label : Label} (hstep : s.step label = some next) :
    Logged next (done ++ (s.committed label).toList) := by
  rcases step_cases hstep with ⟨user, amount, rfl, rfl⟩ |
    ⟨c, call, pc, db', rfl, hcall, hadvance, rfl⟩ | ⟨c, call, rfl, hcall, htransaction, rfl⟩
  · simpa [State.committed] using h.start user amount
  · obtain ⟨user, amount, before⟩ := call
    cases before with
    | commit result =>
      obtain ⟨rfl, rfl⟩ := Prod.mk.inj (Option.some.inj hadvance)
      rw [committed_commit hcall]
      exact h.commit hcall rfl
    | _ =>
      rw [committed_eq_none (by simp) hcall, Option.toList_none, List.append_nil]
      exact h.after hcall (answered_advance hadvance (by simp))
  · rw [State.committed, Option.toList_none, List.append_nil]
    refine h.after hcall ?_
    obtain ⟨user, amount, before⟩ := call
    cases before <;> first | rfl | cases htransaction

theorem logged_committedCalls {labels : List Label}
    (hrun : Steps.run State.step (.init users) labels = some s) :
    Logged s (committedCalls users labels) :=
  effects_invariant Logged (fun _ _ _ _ h hstep => h.step hstep) .init hrun

/-- The balances and the answers are those of the calls one after another, each in one
step; the order keeps a call before those that were started after its answer. -/
theorem calls_linearizable (users : UserId → Option ℤ)
    (hstart : ∀ user a, users user = some a → 0 ≤ a) (labels : List Label) (s : State)
    (hrun : Steps.run State.step (.init users) labels = some s) :
    Steps.run Operation.apply users (committedCalls users labels) = some s.db.rows ∧
    ((committedCalls users labels).map Operation.call).Nodup ∧
    (∀ o, o ∈ committedCalls users labels ↔ ∃ call : Call, s.calls[o.call]? = some call ∧
      call.operation o.call = some o) ∧
    ∀ before after mid, labels = before ++ after →
      Steps.run State.step (.init users) before = some mid →
      ∀ o ∈ committedCalls users labels, ∀ o' ∈ committedCalls users labels,
        (mid.calls[o.call]?).map Call.pc = some (.returned o.result) →
        mid.calls.length ≤ o'.call → [o, o'].Sublist (committedCalls users labels) := by
  have hlogged := logged_committedCalls hrun
  refine ⟨(refines users).run_effects (.init hstart) hrun, hlogged.nodup, hlogged.mem_iff, ?_⟩
  rintro before after mid rfl hbefore o ho o' ho' hreturned hlater
  have hmid := logged_committedCalls hbefore
  have hsplit : committedCalls users (before ++ after) =
      committedCalls users before ++ effects State.step State.committed mid after :=
    effects_append hbefore after
  have hfirst : o ∈ committedCalls users before := by
    obtain ⟨call, hcall, hpc⟩ := Option.map_eq_some_iff.mp hreturned
    have hmem := (hmid.mem_iff { o with user := call.user, amount := call.amount }).mpr
      ⟨call, hcall, by simp [Call.operation, hpc, Pc.answered]⟩
    have hwhole := List.mem_append_left (effects State.step State.committed mid after) hmem
    rw [← hsplit] at hwhole
    rwa [← List.inj_on_of_nodup_map hlogged.nodup hwhole ho rfl]
  have hsecond : o' ∈ effects State.step State.committed mid after := by
    refine (List.mem_append.mp (hsplit ▸ ho')).resolve_left fun hmem => ?_
    obtain ⟨call, hcall, -⟩ := (hmid.mem_iff o').mp hmem
    exact absurd (List.getElem?_eq_some_iff.mp hcall).1 (Nat.not_lt.mpr hlater)
  rw [hsplit]
  exact (List.singleton_sublist.mpr hfirst).append (List.singleton_sublist.mpr hsecond)

theorem oneUser_nonneg (user : UserId) (a : ℤ) (h : oneUser user = some a) : 0 ≤ a := by
  unfold oneUser at h
  split at h
  · obtain rfl := Option.some.inj h
    decide
  · cases h

/-- The call on the unknown user takes effect between the two charges. -/
theorem threeCalls_linearized : ∃ s,
    Steps.run State.step (.init oneUser) threeCalls = some s ∧
    (committedCalls oneUser threeCalls).map Operation.call = [0, 2, 1] ∧
    (committedCalls oneUser threeCalls).map Operation.result = [true, false, false] ∧
    Steps.run Operation.apply oneUser (committedCalls oneUser threeCalls) = some s.db.rows :=
  ⟨_, rfl, by decide, by decide, (calls_linearizable oneUser oneUser_nonneg threeCalls _ rfl).1⟩

end LambdaExecutor.Database
