import LambdaExecutor.Database.Balances
import Mathlib.Algebra.BigOperators.Group.List.Basic
import Mathlib.Algebra.Group.Int.Defs

/-!
# Balances do not go negative and no charge is lost

Between the check and the update a call holds the lock of the row, so the balance
that it reduces is the balance that it has checked. What calls have charged and
what is left of the balances add up after every statement.
-/

namespace LambdaExecutor.Database

open RowLocks RowLocks.Db

variable {db db' : Db} {c : CallId} {call : Call} {pc : Pc}

/-- The call holds the row of the user, which it has not written. -/
structure Holds (db : Db) (c : CallId) (user : UserId) (balance : ℤ) : Prop where
  holder : db.holder user = some c
  rows : db.rows user = some balance
  written : db.written user = none

def Call.Ok (db : Db) (c : CallId) (call : Call) : Prop :=
  (∀ user, db.holder user = some c → user = call.user) ∧
  match call.pc with
  | .decide found vSufficientFunds =>
      (found = false ∧ db.holder call.user ≠ some c) ∨
      (found = true ∧ ∃ balance, Holds db c call.user balance ∧
        vSufficientFunds = sufficientFunds call.amount balance)
  | .update => ∃ balance, Holds db c call.user balance ∧ ∀ a, call.amount = some a → a ≤ balance
  | .commit false => db.holder call.user = some c → db.written call.user = none
  | .commit true => ∃ balance a, call.amount = some a ∧ a ≤ balance ∧
      db.holder call.user = some c ∧ db.rows call.user = some balance ∧
      db.written call.user = some (balance - a)
  | .select | .answer _ | .returned _ | .failed => db.holder call.user ≠ some c

theorem Holds.keep {user : UserId} {balance : ℤ} (h : Holds db c user balance) {other : CallId}
    (hchanges : ChangesOwn other db db') (hne : c ≠ other) : Holds db' c user balance := by
  obtain ⟨hholder, hheld⟩ := hchanges.held (k := user) hne
  obtain ⟨hrows, hwritten⟩ := hheld h.holder
  exact ⟨hholder.mpr h.holder, hrows.trans h.rows, hwritten.trans h.written⟩

theorem Holds.current {user : UserId} {balance : ℤ} (h : Holds db c user balance) :
    db.current user = some balance := by
  rw [Db.current, h.written]
  exact h.rows

theorem own_lock {user : UserId} (hown : ∀ other, db.holder other = some c → other = user)
    (other : UserId) (hother : (db.lock c user).holder other = some c) : other = user := by
  by_contra hne
  exact hne (hown other ((lock_holder_ne hne).symm.trans hother))

theorem Call.Ok.keep (h : call.Ok db c) {other : CallId} (hchanges : ChangesOwn other db db')
    (hne : c ≠ other) : call.Ok db' c := by
  obtain ⟨hown, hpc⟩ := h
  refine ⟨fun user huser => hown user ((hchanges.held hne).1.mp huser), ?_⟩
  obtain ⟨hholder, hheld⟩ := hchanges.held (k := call.user) hne
  obtain ⟨user, amount, pc⟩ := call
  cases pc with
  | select | answer result | returned result | failed => exact mt hholder.mp hpc
  | decide found vSufficientFunds =>
    rcases hpc with ⟨hfound, hpc⟩ | ⟨hfound, balance, hholds, hv⟩
    · exact .inl ⟨hfound, mt hholder.mp hpc⟩
    · exact .inr ⟨hfound, balance, hholds.keep hchanges hne, hv⟩
  | update =>
    obtain ⟨balance, hholds, hle⟩ := hpc
    exact ⟨balance, hholds.keep hchanges hne, hle⟩
  | commit result =>
    cases result with
    | false =>
      intro hholder'
      have hheld' := hholder.mp hholder'
      exact (hheld hheld').2.trans (hpc hheld')
    | true =>
      obtain ⟨balance, a, hamount, hle, hheld', hrows, hwritten⟩ := hpc
      obtain ⟨hrows', hwritten'⟩ := hheld hheld'
      exact ⟨balance, a, hamount, hle, hholder.mpr hheld', hrows'.trans hrows,
        hwritten'.trans hwritten⟩

structure Effect (c : CallId) (call : Call) (pc : Pc) (db db' : Db) : Prop where
  ok : Call.Ok db' c { call with pc }
  changes : ChangesOwn c db db'
  sound : db'.Sound
  rows : ∀ user, db'.rows user =
    (db.rows user).map (· + call.charge user - Call.charge user { call with pc })
  nonneg : (∀ user a, db.rows user = some a ∨ db.written user = some a → 0 ≤ a) →
    ∀ user a, db'.rows user = some a ∨ db'.written user = some a → 0 ≤ a

theorem Effect.of_same (hok : Call.Ok db' c { call with pc }) (hchanges : ChangesOwn c db db')
    (hsound : db'.Sound) (hrows : db'.rows = db.rows)
    (hwritten : ∀ user, db'.written user = db.written user ∨ db'.written user = none)
    (hcharge : ∀ user, call.charge user = Call.charge user { call with pc }) :
    Effect c call pc db db' where
  ok := hok
  changes := hchanges
  sound := hsound
  rows user := by simp [hrows, hcharge user]
  nonneg hnonneg user a ha := by
    rw [hrows] at ha
    rcases hwritten user with h | h
    · exact hnonneg user a (h ▸ ha)
    · rw [h] at ha
      exact hnonneg user a (.inl (ha.resolve_right nofun))

theorem charge_eq_zero (user : UserId) (h : call.pc.charged = false) : call.charge user = 0 :=
  if_neg fun hcharge => Bool.false_ne_true (h.symm.trans hcharge.2)

theorem charged_of_inTransaction (h : pc.inTransaction) : pc.charged = false := by
  cases pc with
  | select | decide | update | commit => rfl
  | answer result | returned result | failed => exact nomatch h

theorem effect_abort (hsound : db.Sound) (h : call.pc.inTransaction) :
    Effect c call .failed db (db.abort c) := by
  refine .of_same ⟨fun user huser => absurd huser holder_abort, holder_abort⟩
    (changesOwn_abort db c) (hsound.abort c) rfl (fun user => ?_) fun user => ?_
  · by_cases hheld : db.holder user = some c
    · exact .inr (if_pos hheld)
    · exact .inl (if_neg hheld)
  · rw [charge_eq_zero user (charged_of_inTransaction h)]
    exact (charge_eq_zero user rfl).symm

theorem reduced_eq_some {amount : Option ℤ} {balance left : ℤ}
    (h : reduced amount balance = some left) : ∃ a, amount = some a ∧ left = balance - a := by
  obtain ⟨a, rfl, hnumeric⟩ := Option.bind_eq_some_iff.mp h
  unfold numeric at hnumeric
  split at hnumeric
  · exact ⟨a, rfl, (Option.some.inj hnumeric).symm⟩
  · exact nomatch hnumeric

section Advance

variable {user : UserId} {amount : Option ℤ}

theorem effect_select (hsound : db.Sound) (h : Call.Ok db c { user, amount, pc := .select })
    (hadvance : Call.advance { user, amount, pc := .select } c db = some (pc, db')) :
    Effect c { user, amount, pc := .select } pc db db' := by
  obtain ⟨⟨row, locked⟩, hselect, hnext⟩ := Option.map_eq_some_iff.mp hadvance
  obtain ⟨rfl, rfl⟩ := Prod.mk.inj hnext
  obtain ⟨hown, hfree⟩ := h
  rcases selectForUpdate_cases hselect with ⟨-, rfl, rfl⟩ | ⟨balance, hrow, hgrants, rfl, rfl⟩
  · exact .of_same ⟨hown, .inl ⟨rfl, hfree⟩⟩ (.refl c _) hsound rfl (fun _ => .inl rfl) fun _ => rfl
  · have hwritten : db.written user = none := hsound user (hgrants.resolve_right hfree)
    have hlocked : Holds (db.lock c user) c user balance := ⟨lock_holder_self, hrow, hwritten⟩
    have hcurrent : db.current user = some balance := hlocked.current
    rw [hcurrent]
    exact .of_same ⟨own_lock hown, .inr ⟨rfl, balance, hlocked, rfl⟩⟩ (changesOwn_lock hgrants)
      (hsound.lock c user) rfl (fun _ => .inl rfl) fun _ => rfl

theorem effect_decide {found : Bool} {v : Option Bool} (hsound : db.Sound)
    (h : Call.Ok db c { user, amount, pc := .decide found v })
    (hadvance : Call.advance { user, amount, pc := .decide found v } c db = some (pc, db')) :
    Effect c { user, amount, pc := .decide found v } pc db db' := by
  obtain ⟨rfl, rfl⟩ := Prod.mk.inj (Option.some.inj hadvance)
  obtain ⟨hown, hpc⟩ := h
  split
  · refine .of_same ⟨hown, ?_⟩ (.refl c _) hsound rfl (fun _ => .inl rfl) fun _ => rfl
    intro hheld
    rcases hpc with ⟨-, hfree⟩ | ⟨-, balance, hholds, -⟩
    · exact absurd hheld hfree
    · exact hholds.written
  · next hgoes =>
    refine .of_same ⟨hown, ?_⟩ (.refl c _) hsound rfl (fun _ => .inl rfl) fun _ => rfl
    rcases hpc with ⟨hfound, -⟩ | ⟨-, balance, hholds, hv⟩
    · exact absurd (.inl hfound) hgoes
    · refine ⟨balance, hholds, ?_⟩
      rintro a rfl
      by_contra hless
      exact hgoes (.inr (hv.trans (congrArg some (decide_eq_false hless))))

theorem effect_write {a balance : ℤ} (hsound : db.Sound)
    (hown : ∀ other, db.holder other = some c → other = user) (h : Holds db c user balance)
    (hle : a ≤ balance) : Effect c { user, amount := some a, pc := .update } (.commit true) db
      ((db.lock c user).write user (balance - a)) where
  ok := ⟨own_lock hown, balance, a, rfl, hle, lock_holder_self, h.rows, write_written_self _⟩
  changes := changesOwn_write (.inr h.holder) _
  sound := (hsound.lock c user).write (by simp) _
  rows other := by
    have hbefore : Call.charge other { user, amount := some a, pc := .update } = 0 :=
      charge_eq_zero other rfl
    have hafter : Call.charge other { user, amount := some a, pc := .commit true } = 0 :=
      charge_eq_zero other rfl
    simp [hbefore, hafter, lock, write]
  nonneg := by
    rintro hnonneg other b (hb | hb)
    · exact hnonneg other b (.inl hb)
    · by_cases hother : other = user
      · subst hother
        have hnew : balance - a = b := Option.some.inj ((write_written_self _).symm.trans hb)
        omega
      · exact hnonneg other b (.inr ((write_written_ne hother _).symm.trans hb))

theorem effect_update (hsound : db.Sound) (h : Call.Ok db c { user, amount, pc := .update })
    (hadvance : Call.advance { user, amount, pc := .update } c db = some (pc, db')) :
    Effect c { user, amount, pc := .update } pc db db' := by
  obtain ⟨hown, balance, hholds, hle⟩ := h
  obtain ⟨result, hupdate, hnext⟩ := Option.map_eq_some_iff.mp hadvance
  obtain rfl := updateWhere_held hupdate hholds.rows
  rw [hholds.current, Option.bind_some] at hnext
  cases hreduced : reduced amount balance with
  | none =>
    rw [hreduced] at hnext
    obtain ⟨rfl, rfl⟩ := Prod.mk.inj hnext
    exact effect_abort hsound rfl
  | some left =>
    rw [hreduced] at hnext
    obtain ⟨rfl, rfl⟩ := Prod.mk.inj hnext
    obtain ⟨a, rfl, rfl⟩ := reduced_eq_some hreduced
    exact effect_write hsound hown hholds (hle a rfl)

theorem rows_commit {result : Bool} (h : Call.Ok db c { user, amount, pc := .commit result })
    (other : UserId) : (db.commit c).rows other = (db.rows other).map
      (· - Call.charge other { user, amount, pc := .answer result }) := by
  obtain ⟨hown, hpc⟩ := h
  by_cases hheld : db.holder other = some c
  · obtain rfl := hown other hheld
    rw [commit_rows_held hheld]
    cases result with
    | false =>
      have hcharge : Call.charge other { user := other, amount, pc := .answer false } = 0 :=
        charge_eq_zero other rfl
      rw [current, hpc hheld, hcharge]
      simp
    | true =>
      obtain ⟨balance, a, rfl, -, -, hrows, hwritten⟩ := hpc
      have hcharge : Call.charge other
          { user := other, amount := some a, pc := .answer true } = a := if_pos ⟨rfl, rfl⟩
      rw [current, hwritten, hrows, hcharge]
      rfl
  · have hcharge : Call.charge other { user, amount, pc := .answer result } = 0 := by
      cases result with
      | false => exact charge_eq_zero other rfl
      | true =>
        obtain ⟨-, -, -, -, hheld', -⟩ := hpc
        refine if_neg fun hsame => hheld ?_
        obtain rfl : user = other := hsame.1
        exact hheld'
    rw [commit_rows_free hheld, hcharge]
    simp

theorem effect_commit {result : Bool} (hsound : db.Sound)
    (h : Call.Ok db c { user, amount, pc := .commit result }) :
    Effect c { user, amount, pc := .commit result } (.answer result) db (db.commit c) where
  ok := ⟨fun other hother => absurd hother holder_commit, holder_commit⟩
  changes := changesOwn_commit db c
  sound := hsound.commit c
  rows other := by
    have hbefore : Call.charge other { user, amount, pc := .commit result } = 0 :=
      charge_eq_zero other rfl
    simp only [hbefore, add_zero]
    exact rows_commit h other
  nonneg := by
    rintro hnonneg other b (hb | hb)
    · exact hnonneg other b (rows_of_commit hb)
    · exact hnonneg other b (.inr (written_of_commit hb))

end Advance

theorem Call.Ok.advance (h : call.Ok db c) (hsound : db.Sound)
    (hadvance : call.advance c db = some (pc, db')) : Effect c call pc db db' := by
  obtain ⟨user, amount, before⟩ := call
  cases before with
  | select => exact effect_select hsound h hadvance
  | decide found vSufficientFunds => exact effect_decide hsound h hadvance
  | update => exact effect_update hsound h hadvance
  | commit result =>
    obtain ⟨rfl, rfl⟩ := Prod.mk.inj (Option.some.inj hadvance)
    exact effect_commit hsound h
  | answer result =>
    obtain ⟨rfl, rfl⟩ := Prod.mk.inj (Option.some.inj hadvance)
    exact .of_same h (.refl c _) hsound rfl (fun _ => .inl rfl) fun _ => rfl
  | returned result => exact nomatch hadvance
  | failed => exact nomatch hadvance

-- ---------------------------------------------------------------------------
-- The invariant
-- ---------------------------------------------------------------------------

/-- What all calls have taken from the balance of the user. -/
def State.taken (s : State) (user : UserId) : ℤ := (s.calls.map (Call.charge user)).sum

structure Exact (users : UserId → Option ℤ) (s : State) : Prop where
  calls : ∀ c (call : Call), s.calls[c]? = some call → call.Ok s.db c
  started : ∀ user c, s.db.holder user = some c → c < s.calls.length
  sound : s.db.Sound
  nonneg : ∀ user a, s.db.rows user = some a ∨ s.db.written user = some a → 0 ≤ a
  rows : ∀ user, s.db.rows user = (users user).map (· - s.taken user)

variable {users : UserId → Option ℤ} {s next : State}

theorem Exact.init (hstart : ∀ user a, users user = some a → 0 ≤ a) :
    Exact users (.init users) where
  calls c call hcall := nomatch hcall
  started user c hheld := nomatch hheld
  sound := sound_init users
  nonneg user a ha := hstart user a (ha.resolve_right nofun)
  rows user := by simp [State.init, RowLocks.Db.init, State.taken]

theorem taken_set (user : UserId) {calls : List Call} {call call' : Call}
    (h : calls[c]? = some call) : ((calls.set c call').map (Call.charge user)).sum =
      (calls.map (Call.charge user)).sum - call.charge user + call'.charge user := by
  induction calls generalizing c with
  | nil => exact nomatch h
  | cons first rest ih =>
    cases c with
    | zero =>
      obtain rfl : first = call := Option.some.inj h
      simp only [List.set_cons_zero, List.map_cons, List.sum_cons]
      omega
    | succ c =>
      have hrest := ih (c := c) h
      simp only [List.set_cons_succ, List.map_cons, List.sum_cons, hrest]
      omega

theorem Exact.after (h : Exact users s) (hcall : s.calls[c]? = some call)
    (heffect : Effect c call pc s.db db') : Exact users (s.after c call pc db') := by
  have hlength : c < s.calls.length := (List.getElem?_eq_some_iff.mp hcall).1
  constructor
  · intro other call' hcall'
    by_cases hother : c = other
    · subst hother
      simp only [State.after, List.getElem?_set_self hlength, Option.some.injEq] at hcall'
      subst hcall'
      exact heffect.ok
    · rw [State.after, List.getElem?_set_ne hother] at hcall'
      exact (h.calls other call' hcall').keep heffect.changes (Ne.symm hother)
  · intro user other hheld
    rw [State.after, List.length_set]
    by_cases hother : other = c
    · exact hother ▸ hlength
    · exact h.started user other ((heffect.changes.held hother).1.mp hheld)
  · exact heffect.sound
  · exact heffect.nonneg h.nonneg
  · intro user
    have htaken : (s.after c call pc db').taken user =
        s.taken user - call.charge user + Call.charge user { call with pc } := taken_set user hcall
    rw [htaken]
    refine (heffect.rows user).trans ?_
    rw [h.rows, Option.map_map]
    refine congrArg (Option.map · (users user)) (funext fun balance => ?_)
    simp only [Function.comp_apply]
    omega

theorem Exact.start (h : Exact users s) (user : UserId) (amount : Option ℤ) :
    Exact users { s with calls := s.calls ++ [{ user, amount, pc := .select }] } := by
  constructor
  · intro c call hcall
    by_cases hold : c < s.calls.length
    · rw [List.getElem?_append_left hold] at hcall
      exact h.calls c call hcall
    · -- The new call has locked nothing yet.
      have hfree : ∀ other, s.db.holder other ≠ some c :=
        fun other hheld => hold (h.started other c hheld)
      rw [List.getElem?_append_right (Nat.le_of_not_lt hold)] at hcall
      obtain rfl := List.mem_singleton.mp (List.mem_of_getElem? hcall)
      exact ⟨fun other hheld => absurd hheld (hfree other), hfree user⟩
  · intro other c hheld
    rw [List.length_append]
    exact Nat.lt_add_right _ (h.started other c hheld)
  · exact h.sound
  · exact h.nonneg
  · intro other
    have hnew : Call.charge other { user, amount, pc := .select } = 0 := charge_eq_zero other rfl
    rw [State.taken, List.map_append, List.sum_append, List.map_singleton, List.sum_singleton, hnew,
      add_zero]
    exact h.rows other

theorem Exact.step (h : Exact users s) (label : Label) (hstep : s.step label = some next) :
    Exact users next := by
  cases label with
  | start user amount =>
    obtain rfl := Option.some.inj hstep
    exact h.start user amount
  | advance c =>
    obtain ⟨call, hcall, ⟨pc, db⟩, hadvance, hnext⟩ := by
      simpa only [State.step, Option.bind_eq_bind, Option.bind_eq_some_iff] using hstep
    obtain rfl := Option.some.inj hnext
    exact h.after hcall ((h.calls c call hcall).advance h.sound hadvance)
  | fail c =>
    obtain ⟨call, hcall, hnext⟩ := by
      simpa only [State.step, Option.bind_eq_bind, Option.bind_eq_some_iff] using hstep
    split at hnext
    · next htransaction =>
      obtain rfl := Option.some.inj hnext
      exact h.after hcall (effect_abort h.sound htransaction)
    · exact nomatch hnext

theorem taken_eq_charged {user : UserId}
    (hquiet : ∀ call ∈ s.calls, call.user = user → call.pc.inProgress = false) :
    s.taken user = s.charged user := by
  obtain ⟨db, calls⟩ := s
  unfold State.taken State.charged
  induction calls with
  | nil => rfl
  | cons call calls ih =>
    obtain ⟨hcall, hcalls⟩ := List.forall_mem_cons.mp hquiet
    rw [List.map_cons, List.sum_cons, ih hcalls, List.filter_cons]
    by_cases huser : call.user = user
    · obtain ⟨owner, amount, pc⟩ := call
      have hended := hcall huser
      cases pc with
      | returned result => cases result <;> simp_all [Call.charge, Pc.charged]
      | failed => simp [Call.charge, Pc.charged]
      | select | decide | update | commit | answer => exact nomatch hended
    · simp [Call.charge, huser]

/-- No balance is ever negative; and whenever no call on a user is in progress, the balance
is what it was less the amounts of the calls that returned `TRUE`. -/
theorem balances_exact (users : UserId → Option ℤ) (hstart : ∀ user a, users user = some a → 0 ≤ a)
    (labels : List Label) (s : State) (hrun : Steps.run State.step (.init users) labels = some s) :
    (∀ user balance, s.db.rows user = some balance ∨ s.db.written user = some balance →
      0 ≤ balance) ∧
    ∀ user, (∀ call ∈ s.calls, call.user = user → call.pc.inProgress = false) →
      s.db.rows user = (users user).map (· - s.charged user) := by
  have h : Exact users s := Steps.run_invariant (Exact users)
    (fun s label next hs hstep => hs.step label hstep) (.init hstart) hrun
  refine ⟨h.nonneg, fun user hquiet => ?_⟩
  rw [h.rows, taken_eq_charged hquiet]

def oneUser (user : UserId) : Option ℤ := if user = 1 then some 10 else none

def threeCalls : List Label := [.start 1 (some 7), .start 1 (some 7), .start 2 (some 1)] ++
  [0, 2, 0, 0, 0, 1, 2, 1, 0, 2, 1, 1, 2].map Label.advance

theorem second_charge_refused : ∃ s,
    Steps.run State.step (.init oneUser) threeCalls = some s ∧
    s.calls.map Call.pc = [.returned true, .returned false, .returned false] ∧
    (∀ user balance, s.db.rows user = some balance ∨ s.db.written user = some balance →
      0 ≤ balance) ∧
    ∀ user, (∀ call ∈ s.calls, call.user = user → call.pc.inProgress = false) →
      s.db.rows user = (oneUser user).map (· - s.charged user) := by
  refine ⟨_, rfl, by decide, balances_exact oneUser ?_ threeCalls _ rfl⟩
  intro user a ha
  unfold oneUser at ha
  split at ha
  · obtain rfl := Option.some.inj ha
    decide
  · exact nomatch ha

end LambdaExecutor.Database
