import LambdaExecutor.Library.RowLocks
import LambdaExecutor.Library.Steps
import Mathlib.Algebra.GroupWithZero.Nat
import Mathlib.Algebra.Ring.Int.Defs
import Mathlib.Data.Int.Order.Basic

/-!
# Balances of users

Concurrent calls of `decrease_user_balance`, each in a transaction of its own. A
call takes one statement at a time, and between two statements of a call other
calls may take theirs; a call waits where a row that it needs is locked. Money is
counted in units of the last of its ten decimal places.
-/

namespace LambdaExecutor.Database

open RowLocks

abbrev UserId := Int32

/-- What `NUMERIC(30, 10)` holds; a number out of its range is refused. -/
def numeric (n : ℤ) : Option ℤ := if n.natAbs < 10 ^ 30 then some n else none

/-- `money_balance >= p_amount`, which is `NULL` for the amount `NULL`. -/
def sufficientFunds (amount : Option ℤ) (balance : ℤ) : Option Bool :=
  amount.map fun a => decide (a ≤ balance)

/-- `money_balance - p_amount`, unless the column refuses it; it is `NOT NULL`. -/
def reduced (amount : Option ℤ) (balance : ℤ) : Option ℤ := do
  let a ← amount
  numeric (balance - a)

inductive Pc
  | select
  | decide (found : Bool) (vSufficientFunds : Option Bool)
  | update
  /-- The function has returned, and the transaction is to end. -/
  | commit (result : Bool)
  | answer (result : Bool)
  | returned (result : Bool)
  | failed
  deriving DecidableEq

/-- A call of `decrease_user_balance`. -/
structure Call where
  user : UserId
  amount : Option ℤ
  pc : Pc
  deriving DecidableEq

abbrev CallId := Nat

abbrev Db := RowLocks.Db UserId ℤ CallId

/-- The next statement of a call, `none` where there is none or the call has to wait. -/
def Call.advance (call : Call) (c : CallId) (db : Db) : Option (Pc × Db) :=
  match call.pc with
  | .select => (db.selectForUpdate c call.user).map fun (row, db) =>
      (.decide row.isSome (row.bind (sufficientFunds call.amount)), db)
  -- `NOT FOUND OR NOT v_sufficient_funds` has to be true, which `NULL` is not.
  | .decide found vSufficientFunds =>
      some (if found = false ∨ vSufficientFunds = some false then .commit false else .update, db)
  | .update => (db.updateWhere c call.user (reduced call.amount)).map fun
      | some db => (.commit true, db)
      | none => (.failed, db.abort c)
  | .commit result => some (.answer result, db.commit c)
  | .answer result => some (.returned result, db)
  | .returned _ | .failed => none

def Pc.inTransaction : Pc → Bool
  | .select | .decide .. | .update | .commit _ => true
  | .answer _ | .returned _ | .failed => false

def Pc.inProgress : Pc → Bool
  | .returned _ | .failed => false
  | _ => true

structure State where
  db : Db
  calls : List Call

def State.init (users : UserId → Option ℤ) : State := { db := .init users, calls := [] }

inductive Label
  | start (user : UserId) (amount : Option ℤ)
  | advance (c : CallId)
  /-- A deadlock, a timeout or a lost connection. -/
  | fail (c : CallId)

def State.after (s : State) (c : CallId) (call : Call) (pc : Pc) (db : Db) : State :=
  { db, calls := s.calls.set c { call with pc } }

def State.step (s : State) : Label → Option State
  | .start user amount => some { s with calls := s.calls ++ [{ user, amount, pc := .select }] }
  | .advance c => do
    let call ← s.calls[c]?
    let (pc, db) ← call.advance c s.db
    return s.after c call pc db
  | .fail c => do
    let call ← s.calls[c]?
    if call.pc.inTransaction then some (s.after c call .failed (s.db.abort c)) else none

def Pc.charged : Pc → Bool
  | .answer result | .returned result => result
  | _ => false

def Call.charge (user : UserId) (call : Call) : ℤ :=
  if call.user = user ∧ call.pc.charged then call.amount.getD 0 else 0

/-- The amounts of the calls on the user that returned `TRUE`. -/
def State.charged (s : State) (user : UserId) : ℤ :=
  ((s.calls.filter fun call => call.user = user ∧ call.pc = .returned true).map
    fun call => call.amount.getD 0).sum

end LambdaExecutor.Database
