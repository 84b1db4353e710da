import LambdaExecutor.Components.InstanceRegistrator
import LambdaExecutor.Kv.Isolation

/-!
# The registry and the running instances

A row stands for an instance that runs, or for one that ended without deleting it.
The second kind is never deleted, so its address is blocked from then on.
-/

namespace LambdaExecutor.Components

open Kv Raii Raii.Code Steps

variable {pg : Postgres} {info : InstanceInfo} {s next : State}

def KeepsStored (pg : Postgres) : Prop := ∀ host column, pg.varchar host = .ok column →
  pg.varchar column = .ok column

theorem address_eq_ok {key : Address} : address pg info = .ok key ↔
    pg.text info.hostname = .ok () ∧ pg.varchar info.hostname = .ok key.1 ∧
      key.2 = smallint info.port := by
  obtain ⟨column, port⟩ := key
  unfold address
  cases pg.text info.hostname with
  | error e => simp [bind, Except.bind]
  | ok _ =>
    cases pg.varchar info.hostname with
    | error e => simp [bind, Except.bind]
    | ok host => simp [bind, Except.bind, pure, Except.pure, eq_comm]

/-- The instance ends without its row being deleted. -/
def Event.Abandons (pg : Postgres) (key : Address) : Event → Prop
  | .start _ => False
  | .stop info => address pg info = .ok key ∧ info.hostname ≠ key.1
  | .crash info => address pg info = .ok key

/-- The rows are those of the running instances, and the `abandoned` ones. -/
structure Registered (pg : Postgres) (abandoned : Address → Prop) (s : State) : Prop where
  rows : ∀ key, key ∈ s.rows ↔
    (∃ info ∈ s.running, address pg info = .ok key) ∨ abandoned key
  stored : ∀ key ∈ s.rows, pg.varchar key.1 = .ok key.1
  nodup : s.running.Nodup
  addressed : ∀ info ∈ s.running, ∃ key, address pg info = .ok key ∧ ¬ abandoned key
  apart : ∀ info ∈ s.running, ∀ other ∈ s.running, ∀ key,
    address pg info = .ok key → address pg other = .ok key → info = other

theorem Registered.init : Registered pg (fun _ => False) .init where
  rows key := iff_of_false nofun (by simp [State.init])
  stored key := nofun
  nodup := List.nodup_nil
  addressed info := nofun
  apart info := nofun

variable {abandoned : Address → Prop}

theorem Registered.congr {abandoned' : Address → Prop} (h : Registered pg abandoned s)
    (hkeys : ∀ key, abandoned key ↔ abandoned' key) : Registered pg abandoned' s := by
  obtain rfl : abandoned = abandoned' := funext fun key => propext (hkeys key)
  exact h

theorem Registered.start (hpg : KeepsStored pg) (h : Registered pg abandoned s) {key : Address}
    (haddress : address pg info = .ok key) (hnew : key ∉ s.rows) : Registered pg abandoned
      { registry := some (s.rows.insert key ()), running := info :: s.running } := by
  have halone : ∀ other ∈ s.running, address pg other ≠ .ok key := by
    intro other hmem hother
    exact hnew ((h.rows key).mpr (.inl ⟨other, hmem, hother⟩))
  constructor
  · intro other
    refine (AList.mem_insert s.rows).trans ?_
    simp only [h.rows other, List.mem_cons, exists_eq_or_imp, haddress, Except.ok.injEq, or_assoc,
      @eq_comm _ other key]
  · intro other hmem
    rcases (AList.mem_insert s.rows).mp hmem with rfl | hmem
    · exact hpg _ _ (address_eq_ok.mp haddress).2.1
    · exact h.stored other hmem
  · exact List.nodup_cons.mpr ⟨fun hmem => halone info hmem haddress, h.nodup⟩
  · refine List.forall_mem_cons.mpr ⟨⟨key, haddress, fun ha => ?_⟩, h.addressed⟩
    exact hnew ((h.rows key).mpr (.inr ha))
  · rintro first (_ | ⟨_, hfirst⟩) second (_ | ⟨_, hsecond⟩) other hother hother'
    · rfl
    · obtain rfl := Except.ok.inj (haddress.symm.trans hother)
      exact absurd hother' (halone second hsecond)
    · obtain rfl := Except.ok.inj (haddress.symm.trans hother')
      exact absurd hother (halone first hfirst)
    · exact h.apart first hfirst second hsecond other hother hother'

theorem Registered.finish (h : Registered pg abandoned s) {key : Address} (leaves : Prop)
    (hmem : info ∈ s.running) (haddress : address pg info = .ok key)
    (hrunning : next.running = s.without info)
    (hrows : ∀ other, other ∈ next.rows ↔ other ∈ s.rows ∧ (other = key → leaves)) :
    Registered pg (fun other => abandoned other ∨ other = key ∧ leaves) next := by
  have hothers : ∀ other, other ∈ next.running ↔ other ≠ info ∧ other ∈ s.running := by
    intro other
    rw [hrunning]
    exact h.nodup.mem_erase_iff
  have hkept : ¬ abandoned key := by
    obtain ⟨own, hown, hkept⟩ := h.addressed info hmem
    rwa [Except.ok.inj (haddress.symm.trans hown)]
  constructor
  · intro other
    rw [hrows, h.rows]
    constructor
    · rintro ⟨⟨other', hmem', hother⟩ | habandoned, hleaves⟩
      · by_cases he : other' = info
        · obtain rfl := Except.ok.inj (haddress.symm.trans (he ▸ hother))
          exact .inr (.inr ⟨rfl, hleaves rfl⟩)
        · exact .inl ⟨other', (hothers other').mpr ⟨he, hmem'⟩, hother⟩
      · exact .inr (.inl habandoned)
    · rintro (⟨other', hmem', hother⟩ | habandoned | ⟨rfl, hleaves⟩)
      · obtain ⟨hne, hmem'⟩ := (hothers other').mp hmem'
        refine ⟨.inl ⟨other', hmem', hother⟩, ?_⟩
        rintro rfl
        exact absurd (h.apart other' hmem' info hmem _ hother haddress) hne
      · refine ⟨.inr habandoned, ?_⟩
        rintro rfl
        exact absurd habandoned hkept
      · exact ⟨.inl ⟨info, hmem, haddress⟩, fun _ => hleaves⟩
  · exact fun other hother => h.stored other ((hrows other).mp hother).1
  · rw [hrunning]
    exact h.nodup.erase info
  · intro other hother
    obtain ⟨hne, hmem'⟩ := (hothers other).mp hother
    obtain ⟨own, hown, hkept'⟩ := h.addressed other hmem'
    refine ⟨own, hown, ?_⟩
    rintro (habandoned | ⟨rfl, -⟩)
    · exact hkept' habandoned
    · exact hne (h.apart other hmem' info hmem _ hown haddress)
  · intro first hfirst second hsecond
    exact h.apart first ((hothers first).mp hfirst).2 second ((hothers second).mp hsecond).2

theorem Registered.step (hpg : KeepsStored pg) (h : Registered pg abandoned s) (event : Event)
    (hstep : s.step pg event = some next) :
    Registered pg (fun key => abandoned key ∨ event.Abandons pg key) next := by
  cases event with
  | start info =>
    have hnext : Registered pg abandoned next := by
      rcases step_start hstep with ⟨key, haddress, hnew, rfl⟩ | ⟨-, hrows, hrunning⟩
      · exact h.start hpg haddress hnew
      · obtain ⟨hkeys, hstored, hnodup, haddressed, hapart⟩ := h
        rw [← hrows] at hkeys hstored
        rw [← hrunning] at hkeys hnodup haddressed hapart
        exact ⟨hkeys, hstored, hnodup, haddressed, hapart⟩
    exact hnext.congr fun key => (or_iff_left id).symm
  | stop info =>
    obtain ⟨hmem, hrunning, hrows⟩ := step_stop hstep
    obtain ⟨key, haddress, -⟩ := h.addressed info hmem
    obtain ⟨-, hcolumn, hport⟩ := address_eq_ok.mp haddress
    -- The row that is deleted is that of the instance, or none.
    have hdeleted : ∀ other ∈ s.rows, other = (info.hostname, smallint info.port) ↔
        other = key ∧ info.hostname = key.1 := by
      intro other hother
      constructor
      · rintro rfl
        have hhost := Except.ok.inj ((h.stored _ hother).symm.trans hcolumn)
        exact ⟨Prod.ext hhost hport.symm, hhost⟩
      · rintro ⟨rfl, hhost⟩
        exact Prod.ext hhost.symm hport
    refine (h.finish (info.hostname ≠ key.1) hmem haddress hrunning fun other => ?_).congr
      fun other => ?_
    · rw [hrows key haddress, and_comm]
      refine and_congr_right fun hother => ?_
      rw [ne_eq, hdeleted other hother, not_and]
    · simp only [Event.Abandons, haddress, Except.ok.injEq, @eq_comm _ other key]
      refine or_congr_right (and_congr_right ?_)
      rintro rfl
      rfl
  | crash info =>
    obtain ⟨hmem, rfl⟩ := step_crash hstep
    obtain ⟨key, haddress, -⟩ := h.addressed info hmem
    refine (h.finish True hmem haddress rfl (by simp)).congr fun other => ?_
    simp [Event.Abandons, haddress, eq_comm]

def Abandoned (pg : Postgres) (history : List Event) (key : Address) : Prop :=
  ∃ event ∈ history, event.Abandons pg key

theorem Registered.run (hpg : KeepsStored pg) (events : List Event) :
    ∀ {s abandoned}, Registered pg abandoned s → run (State.step pg) s events = some next →
      Registered pg (fun key => abandoned key ∨ Abandoned pg events key) next := by
  induction events with
  | nil =>
    rintro s abandoned h ⟨⟩
    exact h.congr fun key => by simp [Abandoned]
  | cons event events ih =>
    intro s abandoned h hrun
    obtain ⟨middle, hstep, hrest⟩ := run_cons_some.mp hrun
    refine (ih (h.step hpg event hstep) hrest).congr fun key => ?_
    simp [Abandoned, or_assoc]

theorem registered_of_run (hpg : KeepsStored pg) {history : List Event}
    (hrun : Steps.run (State.step pg) .init history = some s) :
    Registered pg (Abandoned pg history) s :=
  (Registered.run hpg history .init hrun).congr fun _ => or_iff_right id

-- ---------------------------------------------------------------------------
-- Which instances can start
-- ---------------------------------------------------------------------------

theorem smallint_injective {port port' : UInt16} (h : smallint port = smallint port') :
    port = port' := by
  have hbits : port.toBitVec = port'.toBitVec := congrArg Int16.toBitVec h
  exact UInt16.toBitVec_inj.mp hbits

theorem InstanceInfo.HostFits.address_eq (h : info.HostFits pg) :
    address pg info = .ok (info.hostname, smallint info.port) :=
  address_eq_ok.mpr ⟨h.1, h.2, rfl⟩

theorem InstanceInfo.HostFits.address_inj {other : InstanceInfo} (h : info.HostFits pg)
    (hother : other.HostFits pg) : address pg info = address pg other ↔ info = other := by
  constructor
  · intro hsame
    rw [h.address_eq, hother.address_eq] at hsame
    obtain ⟨hhost, hport⟩ := Prod.mk.inj (Except.ok.inj hsame)
    cases info
    cases other
    exact congrArg₂ InstanceInfo.mk hhost (smallint_injective hport)
  · exact congrArg (address pg)

theorem hostFits_of_run {history : List Event} (hfits : ∀ event ∈ history, event.info.HostFits pg)
    (hrun : Steps.run (State.step pg) .init history = some s) :
    ∀ info ∈ s.running, info.HostFits pg := by
  refine run_invariant_along (fun s => ∀ info ∈ s.running, info.HostFits pg) ?_ nofun
    ((along_true _ history).and_labels hfits) hrun
  rintro s (info | info | info) next h ⟨-, hevent⟩ hstep
  · rcases step_start hstep with ⟨-, -, -, rfl⟩ | ⟨-, -, hrunning⟩
    · exact List.forall_mem_cons.mpr ⟨hevent, h⟩
    · rwa [hrunning]
  · obtain ⟨-, hrunning, -⟩ := step_stop hstep
    rw [hrunning]
    exact fun other hother => h other (List.mem_of_mem_erase hother)
  · obtain ⟨-, rfl⟩ := step_crash hstep
    exact fun other hother => h other (List.mem_of_mem_erase hother)

theorem abandoned_iff_crashed {history : List Event}
    (hfits : ∀ event ∈ history, event.info.HostFits pg) (hinfo : info.HostFits pg) :
    Abandoned pg history (info.hostname, smallint info.port) ↔ Event.crash info ∈ history := by
  constructor
  · rintro ⟨event, hmem, habandons⟩
    have hevent := hfits event hmem
    cases event with
    | start other => exact absurd habandons id
    | stop other =>
      obtain ⟨haddress, hne⟩ := habandons
      have hsame := (hevent.address_inj hinfo).mp (haddress.trans hinfo.address_eq.symm)
      exact absurd (congrArg InstanceInfo.hostname hsame) hne
    | crash other =>
      obtain rfl := (hevent.address_inj hinfo).mp (habandons.trans hinfo.address_eq.symm)
      exact hmem
  · exact fun hmem => ⟨_, hmem, hinfo.address_eq⟩

/-- An instance starts exactly when the database takes its host name, no instance runs
at its address and none has ended there without its row being deleted. Where all host
names fit that means: when the instance neither runs nor has crashed. -/
theorem starts_iff_address_free (hpg : KeepsStored pg) (history : List Event) (s : State)
    (hrun : Steps.run (State.step pg) .init history = some s) (info : InstanceInfo) :
    (s.Starts pg info ↔ ∃ key, address pg info = .ok key ∧
      (∀ other ∈ s.running, address pg other ≠ .ok key) ∧ ¬ Abandoned pg history key) ∧
    ((∀ event ∈ history, event.info.HostFits pg) → info.HostFits pg →
      (s.Starts pg info ↔ info ∉ s.running ∧ Event.crash info ∉ history)) := by
  have hstarts : s.Starts pg info ↔ ∃ key, address pg info = .ok key ∧
      (∀ other ∈ s.running, address pg other ≠ .ok key) ∧ ¬ Abandoned pg history key := by
    rw [starts_iff]
    refine exists_congr fun key => and_congr_right fun _ => ?_
    rw [(registered_of_run hpg hrun).rows key, not_or]
    simp only [not_exists, not_and, ne_eq]
  refine ⟨hstarts, fun hfits hinfo => hstarts.trans ?_⟩
  have hrunning := hostFits_of_run hfits hrun
  simp only [hinfo.address_eq, Except.ok.injEq, exists_eq_left', abandoned_iff_crashed hfits hinfo]
  refine and_congr_left fun _ => ⟨fun hnone hmem => ?_, fun hmem other hother hsame => ?_⟩
  · exact hnone info hmem hinfo.address_eq
  · obtain rfl := ((hrunning other hother).address_inj hinfo).mp (hsame.trans hinfo.address_eq.symm)
    exact hmem hother

def executor : InstanceInfo := { hostname := "lambda.miet.ru", port := 8080 }

/-- A column that cuts blanks off and refuses what is still too long. -/
def varchar255 (text : String) : Except Failure String :=
  if text.length ≤ 255 then .ok text
  else if (text.toList.drop 255).all (· = ' ') then .ok (String.ofList (text.toList.take 255))
  else .error (.exception "value too long for type character varying(255)")

def postgres : Postgres := { acceptAll with varchar := varchar255 }

theorem postgres_keepsStored : KeepsStored postgres := by
  intro host column h
  replace h : varchar255 host = .ok column := h
  have hshort : column.length ≤ 255 := by
    unfold varchar255 at h
    split at h
    · next hlength => exact Except.ok.inj h ▸ hlength
    · split at h
      · obtain rfl := Except.ok.inj h
        simp
      · exact nomatch h
  exact if_pos hshort

theorem executor_fits : executor.HostFits postgres := ⟨by decide, by decide⟩

theorem executor_starts_again :
    State.Starts postgres { registry := some ∅, running := [] } executor := by
  have hstarts := (starts_iff_address_free postgres_keepsStored [.start executor, .stop executor] _
    rfl executor).2
  have hfits : ∀ event ∈ [Event.start executor, .stop executor], event.info.HostFits postgres := by
    intro event hmem
    obtain rfl | rfl : event = .start executor ∨ event = .stop executor := by simpa using hmem
    · exact executor_fits
    · exact executor_fits
  exact (hstarts hfits executor_fits).mpr ⟨List.not_mem_nil, by decide⟩

def longHost (n : Nat) : InstanceInfo :=
  { hostname := String.ofList (List.replicate n 'x'), port := 8080 }

theorem longHost_does_not_start {n : Nat} (hn : 255 < n) :
    ¬ State.init.Starts postgres (longHost n) := by
  rw [starts_iff]
  rintro ⟨key, hkey, -⟩
  have hcolumn : varchar255 (longHost n).hostname = .ok key.1 := (address_eq_ok.mp hkey).2.1
  have hlength : ¬ (longHost n).hostname.length ≤ 255 := by
    simpa [longHost, String.length_ofList] using hn
  have hblank : ¬ ((longHost n).hostname.toList.drop 255).all (· = ' ') := by
    have hrest : n - 255 ≠ 0 := by omega
    simp [longHost, String.toList_ofList, List.drop_replicate, hrest]
  rw [varchar255, if_neg hlength, if_neg hblank] at hcolumn
  exact nomatch hcolumn

/-- After a crash an instance does not start again; with too long a host name it never starts. -/
theorem crashed_instance_does_not_start :
    (∃ s, Steps.run (State.step postgres) .init [.start executor, .crash executor] = some s ∧
      s.running = [] ∧ ¬ s.Starts postgres executor) ∧
    ¬ State.init.Starts postgres (longHost 256) := by
  refine ⟨⟨_, rfl, rfl, ?_⟩, longHost_does_not_start (by decide)⟩
  rw [starts_iff]
  rintro ⟨key, hkey, hnew⟩
  obtain rfl := Except.ok.inj hkey
  exact hnew (by decide)

-- ---------------------------------------------------------------------------
-- What the rows say
-- ---------------------------------------------------------------------------

def State.ListsRunning (s : State) : Prop := ∀ (host : String) (port : ℤ),
  (∃ key ∈ s.rows, key.1 = host ∧ key.2.toInt = port) ↔
    ∃ info ∈ s.running, info.hostname = host ∧ (info.port.toNat : ℤ) = port

/-- An instance that is going to be registered has a port below 32768, and a host name
that the column holds as it is. -/
def State.RegistersAsIs (pg : Postgres) (s : State) : Event → Prop
  | .start info => ∀ key, address pg info = .ok key → key ∉ s.rows →
      info.port.toNat < 32768 ∧ info.hostname = key.1
  | _ => True

theorem toInt_smallint (port : UInt16) : (smallint port).toInt =
    if port.toNat < 32768 then (port.toNat : ℤ) else port.toNat - 65536 := by
  have htoNat : port.toBitVec.toNat = port.toNat := rfl
  show BitVec.toInt port.toBitVec = _
  rw [BitVec.toInt_eq_toNat_cond, htoNat]
  split <;> split <;> omega

structure AsIs (pg : Postgres) (s : State) : Prop extends Registered pg (fun _ => False) s where
  asIs : ∀ info ∈ s.running, info.port.toNat < 32768 ∧
    address pg info = .ok (info.hostname, smallint info.port)

theorem AsIs.listsRunning (h : AsIs pg s) : s.ListsRunning := by
  intro host port
  simp only [h.rows, or_false]
  constructor
  · rintro ⟨key, ⟨info, hmem, haddress⟩, rfl, rfl⟩
    obtain ⟨hport, hasIs⟩ := h.asIs info hmem
    obtain rfl := Except.ok.inj (haddress.symm.trans hasIs)
    exact ⟨info, hmem, rfl, by simp [toInt_smallint, hport]⟩
  · rintro ⟨info, hmem, rfl, rfl⟩
    obtain ⟨hport, hasIs⟩ := h.asIs info hmem
    exact ⟨_, ⟨info, hmem, hasIs⟩, rfl, by simp [toInt_smallint, hport]⟩

theorem AsIs.step (hpg : KeepsStored pg) (h : AsIs pg s) {event : Event}
    (hcalm : ∀ info, event ≠ .crash info) (hok : s.RegistersAsIs pg event)
    (hstep : s.step pg event = some next) : AsIs pg next := by
  have hregistered := h.toRegistered.step hpg event hstep
  cases event with
  | start info =>
    refine ⟨hregistered.congr fun key => or_iff_left id, ?_⟩
    rcases step_start hstep with ⟨key, haddress, hnew, rfl⟩ | ⟨-, -, hrunning⟩
    · obtain ⟨hport, hhost⟩ := hok key haddress hnew
      refine List.forall_mem_cons.mpr ⟨⟨hport, haddress.trans ?_⟩, h.asIs⟩
      obtain ⟨-, -, hkey⟩ := address_eq_ok.mp haddress
      exact congrArg Except.ok (Prod.ext hhost.symm hkey)
    · rw [hrunning]
      exact h.asIs
  | stop info =>
    obtain ⟨hmem, hrunning, -⟩ := step_stop hstep
    obtain ⟨-, hasIs⟩ := h.asIs info hmem
    refine ⟨hregistered.congr fun key => or_iff_left ?_, ?_⟩
    · rintro ⟨haddress, hne⟩
      obtain rfl := Except.ok.inj (haddress.symm.trans hasIs)
      exact hne rfl
    · intro other hother
      rw [hrunning] at hother
      exact h.asIs other (List.mem_of_mem_erase hother)
  | crash info => exact absurd rfl (hcalm info)

theorem registersAsIs_of_listsRunning (hpg : KeepsStored pg) {abandoned : Address → Prop}
    (h : Registered pg abandoned next) {event : Event} (hstep : s.step pg event = some next)
    (hlists : next.ListsRunning) : s.RegistersAsIs pg event := by
  cases event with
  | stop info => trivial
  | crash info => trivial
  | start info =>
    intro key haddress hnew
    rcases step_start hstep with ⟨key', haddress', -, rfl⟩ | ⟨hfails, -⟩
    · obtain rfl := Except.ok.inj (haddress.symm.trans haddress')
      obtain ⟨htext, hcolumn, hport⟩ := address_eq_ok.mp haddress
      have hrow : key ∈ s.rows.insert key () := (AList.mem_insert s.rows).mpr (.inl rfl)
      -- The new row has to be that of an instance, which has the same address.
      obtain ⟨other, hother, hhost, hnumber⟩ :=
        (hlists key.1 key.2.toInt).mp ⟨key, hrow, rfl, rfl⟩
      have hpositive := toInt_smallint info.port
      rw [← hport, ← hnumber] at hpositive
      have hsmall : info.port.toNat < 32768 := by
        have := info.port.toNat_lt
        by_contra hlarge
        rw [if_neg hlarge] at hpositive
        omega
      have hsame : other.port = info.port := by
        rw [if_pos hsmall] at hpositive
        exact UInt16.toNat_inj.mp (by omega)
      obtain ⟨own, hown, -⟩ := h.addressed other hother
      obtain ⟨-, hcolumn', hport'⟩ := address_eq_ok.mp hown
      have hkey : own = key := by
        rw [hhost] at hcolumn'
        refine Prod.ext (Except.ok.inj (hcolumn'.symm.trans (hpg _ _ hcolumn))) ?_
        rw [hport', hport, hsame]
      rw [hkey] at hown
      have hself := h.apart other hother info List.mem_cons_self key hown haddress
      exact ⟨hsmall, hself ▸ hhost⟩
    · exact absurd (starts_iff.mpr ⟨key, haddress, hnew⟩) hfails

/-- Without crashes the rows are the running instances all the time exactly when every
instance is registered under its host name, with a port below 32768. -/
theorem lists_running_iff_registers_as_is (hpg : KeepsStored pg) (history : List Event) (s : State)
    (hrun : Steps.run (State.step pg) .init history = some s)
    (hcalm : ∀ info, Event.crash info ∉ history) :
    (∀ before after mid, history = before ++ after →
      Steps.run (State.step pg) .init before = some mid → mid.ListsRunning) ↔
    Along (State.step pg) (State.RegistersAsIs pg) .init history := by
  constructor
  · intro hlists
    refine along_of_run hrun fun before event after mid next hsplit hbefore hstep => ?_
    have hnext : Steps.run (State.step pg) .init (before ++ [event]) = some next :=
      run_append_some.mpr ⟨mid, hbefore, run_cons_some.mpr ⟨next, hstep, rfl⟩⟩
    refine registersAsIs_of_listsRunning hpg (registered_of_run hpg hnext) hstep ?_
    exact hlists (before ++ [event]) after next (by simp [hsplit]) hnext
  · rintro hok before after mid rfl hbefore
    have hcalm' : ∀ event ∈ before, ∀ info, event ≠ .crash info := by
      rintro event hmem info rfl
      exact hcalm info (List.mem_append_left _ hmem)
    have hinit : AsIs pg .init := ⟨.init, nofun⟩
    have hasIs : AsIs pg mid := run_invariant_along (AsIs pg)
      (fun s event next h hevent => h.step hpg hevent.2 hevent.1) hinit
      ((hok.append hbefore).1.and_labels hcalm') hbefore
    exact hasIs.listsRunning

theorem executor_listed : ∃ s, Steps.run (State.step postgres) .init [.start executor] = some s ∧
    s.ListsRunning := by
  have hasIs : State.RegistersAsIs postgres .init (.start executor) := by
    intro key haddress _
    obtain rfl := Except.ok.inj (executor_fits.address_eq.symm.trans haddress)
    exact ⟨by decide, rfl⟩
  have hlists := (lists_running_iff_registers_as_is postgres_keepsStored [.start executor] _ rfl
    (by simp)).mpr ⟨hasIs, fun _ _ => trivial⟩
  exact ⟨_, rfl, hlists [.start executor] [] _ rfl rfl⟩

def highPort : InstanceInfo := { hostname := "lambda.miet.ru", port := 40000 }

theorem high_port_listed_negative :
    ∃ s, Steps.run (State.step postgres) .init [.start highPort] = some s ∧
      ("lambda.miet.ru", -25536) ∈ s.rows ∧ ¬ s.ListsRunning := by
  refine ⟨_, rfl, by decide, fun h => ?_⟩
  obtain ⟨info, hmem, -, hport⟩ :=
    (h "lambda.miet.ru" (-25536)).mp ⟨("lambda.miet.ru", -25536), by decide, rfl, by decide⟩
  have := Int.natCast_nonneg info.port.toNat
  omega

end LambdaExecutor.Components
