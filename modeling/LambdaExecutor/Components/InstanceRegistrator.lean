import LambdaExecutor.Kv.Storage
import LambdaExecutor.Library.Steps

/-!
# The registrator of instances

When an instance of the executor starts it puts a row with its host name and port
into `active_runner_instances`, and when it stops it deletes the row. The rows
outlive the instances: an instance that crashes deletes nothing.
-/

namespace LambdaExecutor.Components

open Kv Raii Raii.Code Steps

structure InstanceInfo where
  hostname : String
  port : UInt16
  deriving DecidableEq

abbrev Address := String × Int16

abbrev ActiveRunnerInstances := Sql.Table Address Unit

abbrev Registry := Option ActiveRunnerInstances

def Registry.rows (registry : Registry) : ActiveRunnerInstances := registry.getD ∅

def smallint (port : UInt16) : Int16 := Int16.ofBitVec port.toBitVec

section
variable (pg : Postgres)

/-- The key of the row that is inserted for an instance, unless it is refused. -/
def address (info : InstanceInfo) : Except Failure Address := do
  pg.text info.hostname
  return (← pg.varchar info.hostname, smallint info.port)

/-- The database takes the host name, and the column holds it as it is. -/
def InstanceInfo.HostFits (info : InstanceInfo) : Prop :=
  pg.text info.hostname = .ok () ∧ pg.varchar info.hostname = .ok info.hostname

def InstanceInfo.registerError (info : InstanceInfo) : Failure :=
  .exception ("Can't register instance (hostname = " ++ info.hostname ++ ", port = " ++
    toString info.port.toNat ++ ")")

def onAllComponentsLoaded (info : InstanceInfo) : Code Failure Registry Unit := do
  modify fun registry => some registry.rows
  let key ← ofExcept (address pg info)
  let affected ← (fun registry =>
    let (affected, table) := Sql.insertOrNothing key () registry.rows
    .done affected (some table) : Code Failure Registry Nat)
  if affected ≠ 1 then
    raise info.registerError

/-- The host name is compared as it is. When no row is deleted this is only logged. -/
def onAllComponentsAreStopping (info : InstanceInfo) : Code Failure Registry Unit := do
  ofExcept (pg.text info.hostname)
  fun
  | some table => .done () (some (Sql.deleteWhere (info.hostname, smallint info.port) table).2)
  | none => .threw (.exception "relation \"active_runner_instances\" does not exist") none

-- ---------------------------------------------------------------------------
-- Histories
-- ---------------------------------------------------------------------------

structure State where
  registry : Registry
  running : List InstanceInfo
  deriving DecidableEq

def State.init : State := { registry := none, running := [] }

abbrev State.rows (s : State) : ActiveRunnerInstances := s.registry.rows

inductive Event
  | start (info : InstanceInfo)
  | stop (info : InstanceInfo)
  | crash (info : InstanceInfo)
  deriving DecidableEq

def Event.info : Event → InstanceInfo
  | .start info | .stop info | .crash info => info

def State.without (s : State) (info : InstanceInfo) : List InstanceInfo := s.running.erase info

/-- An instance that cannot register itself does not run. Only what runs stops or crashes. -/
def State.step (s : State) : Event → Option State
  | .start info =>
    match onAllComponentsLoaded pg info s.registry with
    | .done () registry => some { registry, running := info :: s.running }
    | r => some { s with registry := r.state }
  | .stop info =>
    if info ∈ s.running then
      some { registry := (onAllComponentsAreStopping pg info s.registry).state
             running := s.without info }
    else none
  | .crash info => if info ∈ s.running then some { s with running := s.without info } else none

def State.Starts (s : State) (info : InstanceInfo) : Prop :=
  ∃ registry, Returns (onAllComponentsLoaded pg info) s.registry () registry

end

-- ---------------------------------------------------------------------------
-- What an event does
-- ---------------------------------------------------------------------------

variable {pg : Postgres} {info : InstanceInfo} {s next : State}

theorem onAllComponentsLoaded_eq (registry : Registry) :
    onAllComponentsLoaded pg info registry =
      match address pg info with
      | .error e => .threw e (some registry.rows)
      | .ok key =>
        if key ∈ registry.rows then .threw info.registerError (some registry.rows)
        else .done () (some (registry.rows.insert key ())) := by
  unfold onAllComponentsLoaded
  cases address pg info with
  | error e => rfl
  | ok key =>
    show (if (Sql.insertOrNothing key () registry.rows).1 ≠ 1 then raise info.registerError
      else pure () : Code Failure Registry Unit)
        (some (Sql.insertOrNothing key () registry.rows).2) = _
    by_cases hkey : key ∈ registry.rows
    · simp only [Sql.insertOrNothing_of_mem hkey, if_pos hkey]
      rfl
    · simp only [Sql.insertOrNothing_of_not_mem hkey, if_neg hkey]
      rfl

theorem starts_iff : s.Starts pg info ↔ ∃ key, address pg info = .ok key ∧ key ∉ s.rows := by
  unfold State.Starts Returns
  rw [onAllComponentsLoaded_eq]
  cases address pg info with
  | error e => simp
  | ok key =>
    by_cases hkey : key ∈ s.rows
    · simp [hkey]
    · simp [hkey]

theorem step_start (h : s.step pg (.start info) = some next) :
    (∃ key, address pg info = .ok key ∧ key ∉ s.rows ∧
      next = { registry := some (s.rows.insert key ()), running := info :: s.running }) ∨
    (¬ s.Starts pg info ∧ next.rows = s.rows ∧ next.running = s.running) := by
  rw [starts_iff]
  simp only [State.step, onAllComponentsLoaded_eq] at h
  cases haddress : address pg info with
  | error e =>
    simp only [haddress, Option.some.injEq] at h
    subst h
    exact .inr ⟨by simp, rfl, rfl⟩
  | ok key =>
    by_cases hkey : key ∈ s.rows
    · simp only [haddress, if_pos hkey, Option.some.injEq] at h
      subst h
      exact .inr ⟨by simpa using hkey, rfl, rfl⟩
    · simp only [haddress, if_neg hkey, Option.some.injEq] at h
      exact .inl ⟨key, rfl, hkey, h.symm⟩

theorem step_stop (h : s.step pg (.stop info) = some next) :
    info ∈ s.running ∧ next.running = s.without info ∧
      ∀ key, address pg info = .ok key → ∀ other, other ∈ next.rows ↔
        other ≠ (info.hostname, smallint info.port) ∧ other ∈ s.rows := by
  obtain ⟨registry, running⟩ := s
  simp only [State.step] at h
  split at h
  · next hmem =>
    obtain rfl := Option.some.inj h
    refine ⟨hmem, rfl, fun key haddress other => ?_⟩
    have htext : pg.text info.hostname = .ok () := by
      cases htext : pg.text info.hostname with
      | ok _ => rfl
      | error e => simp [address, htext, bind, Except.bind] at haddress
    unfold onAllComponentsAreStopping
    rw [htext]
    cases registry with
    | some table => exact Sql.mem_deleteWhere
    | none => exact iff_of_false nofun fun h => nomatch h.2
  · exact nomatch h

theorem step_crash (h : s.step pg (.crash info) = some next) :
    info ∈ s.running ∧ next = { s with running := s.without info } := by
  simp only [State.step] at h
  split at h
  · next hmem => exact ⟨hmem, (Option.some.inj h).symm⟩
  · exact nomatch h

end LambdaExecutor.Components
