import LambdaExecutor.Library.Steps
import LambdaExecutor.Lua.Deserializer

/-!
# Results of `storage:get`

`GetMethod` keeps the `StorageResult` of its last call in one slot and hands
Lua a pointer that does not own it, so the next call destroys the object. A
script that holds several results may cast only the latest one: casting an
older one uses a destroyed object.

Pushing a value allocates in Lua, which may refuse the memory and may run
finalizers of the script. So a push is a step of its own, and between its start
and its end the script may call `storage:get` and the casts again.
-/

namespace LambdaExecutor.Kv

open Lua Lua.Deserializer

structure StorageResult where
  value : String
  isError : Bool
  deriving DecidableEq, Repr

inductive Fetched
  | value (value : String)
  | exception (what : String)
  | unknown
  deriving DecidableEq, Repr

/-- How a method ends: it raises a Lua error, or it leaves values on the stack. -/
inductive Returned (V : Type)
  | raised (message : String)
  | values (value : Option V) (error : Option String)
  deriving DecidableEq, Repr

section
variable {V : Type} (fromString : DataType → String → Except String V)

/-- `ResultCastMethod::Execute` with `n` values on the stack. -/
def resultCast (result : StorageResult) (type : DataType) (n : Int) : Returned V :=
  if n ≠ 2 then
    .raised ("Invalid arguments count (expected 0, provided " ++ toString (n - 2) ++ ")")
  else if result.isError then .values none (some (cString result.value))
  else
    match fromString type result.value with
    | .ok value => .values (some value) none
    | .error what => .values none (some (cString what))

-- ---------------------------------------------------------------------------
-- Calls of a script
-- ---------------------------------------------------------------------------

inductive Operation
  /-- `storage:get` with `n` values on the stack, up to `PushValue`; `key` is the third value as
  a string, if it is a string or a number. -/
  | get (n : Int) (key : Option String) (fetched : Fetched)
  /-- Reading a field such as `as_string` of the result of the `i`-th get, up to `PushValue`. -/
  | field (i : Nat) (type : DataType)
  /-- A call of a method which such a field has given. It has read the result before any of the
  functions that it calls can run a finalizer. -/
  | call (i : Nat) (type : DataType) (n : Int)
  | pushed
  /-- The innermost `PushValue` is refused memory and raises an error. -/
  | refused

/-- A `StorageResult` object, which is not freed before it is destroyed. -/
structure Object where
  result : StorageResult
  destroyed : Bool

inductive Pointer
  | result (i : Nat)
  | method (i : Nat) (type : DataType)
  deriving DecidableEq

def Pointer.object : Pointer → Nat
  | .result i | .method i _ => i

/-- A use of the result of the `i`-th get; a call returns nothing where its object is destroyed. -/
inductive Use (V : Type)
  | field (i : Nat) (destroyed : Bool)
  | call (i : Nat) (type : DataType) (n : Int) (returned : Option (Returned V))

def Use.object : Use V → Nat
  | .field i _ | .call i _ _ _ => i

/-- The `i`-th get which has read something has made the `i`-th object. `result` is the slot of
the method, `pushing` are the pushes in progress, the innermost first, and `held` the pointers
of the script. `reads` and `uses` are the history of the execution. -/
structure State (V : Type) where
  objects : List Object
  result : Option Nat
  pushing : List Pointer
  held : List Pointer
  reads : List StorageResult
  uses : List (Use V)

def State.init : State V :=
  { objects := [], result := none, pushing := [], held := [], reads := [], uses := [] }

/-- `result_ = std::make_shared<StorageResult>(..)`: the object is created, then
the one that the slot owned before is destroyed. -/
def State.assign (s : State V) (result : StorageResult) : State V :=
  let objects := s.objects ++ [{ result, destroyed := false }]
  { s with
    objects := match s.result with
      | none => objects
      | some old => objects.modify old fun object => { object with destroyed := true }
    result := some s.objects.length
    reads := s.reads ++ [result] }

def State.push (s : State V) (pointer : Pointer) : State V :=
  { s with pushing := pointer :: s.pushing }

def State.use (s : State V) (use : Use V) : State V := { s with uses := s.uses ++ [use] }

def Fetched.result : Fetched → StorageResult
  | .value text => { value := text, isError := false }
  | .exception what => { value := what, isError := true }
  | .unknown => { value := "Unknow get error", isError := true }

/-- A call with wrong arguments raises an error and touches nothing. -/
def get (s : State V) (n : Int) (key : Option String) (fetched : Fetched) : State V :=
  if n ≠ 3 ∨ key.isNone then s
  else (s.assign fetched.result).push (.result s.objects.length)

/-- `StorageResult::getValue`, and `PushValue` of the method which it gives. -/
def field (s : State V) (object : Object) (i : Nat) (type : DataType) : State V :=
  (s.use (.field i object.destroyed)).push (.method i type)

def call (s : State V) (object : Object) (i : Nat) (type : DataType) (n : Int) : State V :=
  s.use (.call i type n
    (if object.destroyed then none else some (resultCast fromString object.result type n)))

def step (s : State V) : Operation → Option (State V)
  | .get n key fetched => some (get s n key fetched)
  | .field i type =>
    if .result i ∈ s.held then (s.objects[i]?).map fun object => field s object i type else none
  | .call i type n =>
    if .method i type ∈ s.held then
      (s.objects[i]?).map fun object => call fromString s object i type n
    else none
  | .pushed =>
    match s.pushing with
    | [] => none
    | pointer :: pushing => some { s with pushing, held := s.held ++ [pointer] }
  | .refused =>
    match s.pushing with
    | [] => none
    | _ :: pushing => some { s with pushing }

def Use.Faithful (reads : List StorageResult) : Use V → Prop
  | .field _ destroyed => destroyed = false
  | .call i type n returned => ∃ read, reads[i]? = some read ∧
      returned = some (resultCast fromString read type n)

def State.Faithful (s : State V) : Prop := ∀ use ∈ s.uses, use.Faithful fromString s.reads

/-- Only the result of the latest get is used; `count` gets have read something before. -/
def CastsLatest : Nat → List Operation → Prop
  | _, [] => True
  | count, .get n key _ :: rest =>
    CastsLatest (if n ≠ 3 ∨ key.isNone then count else count + 1) rest
  | count, .field i _ :: rest => i + 1 = count ∧ CastsLatest count rest
  | count, .call i _ _ :: rest => i + 1 = count ∧ CastsLatest count rest
  | count, .pushed :: rest => CastsLatest count rest
  | count, .refused :: rest => CastsLatest count rest

instance CastsLatest.decidable : ∀ count ops, Decidable (CastsLatest count ops)
  | _, [] => isTrue trivial
  | count, .get n key _ :: rest =>
    CastsLatest.decidable (if n ≠ 3 ∨ key.isNone then count else count + 1) rest
  | count, .field i _ :: rest =>
    have := CastsLatest.decidable count rest
    inferInstanceAs (Decidable (i + 1 = count ∧ CastsLatest count rest))
  | count, .call i _ _ :: rest =>
    have := CastsLatest.decidable count rest
    inferInstanceAs (Decidable (i + 1 = count ∧ CastsLatest count rest))
  | count, .pushed :: rest => CastsLatest.decidable count rest
  | count, .refused :: rest => CastsLatest.decidable count rest

-- ---------------------------------------------------------------------------
-- The slot owns the latest result
-- ---------------------------------------------------------------------------

/-- The last object is the only one alive, and every pointer is to an object that was made. -/
structure Owned (s : State V) : Prop where
  slot : s.result = if s.objects.length = 0 then none else some (s.objects.length - 1)
  objects : ∀ i object, s.objects[i]? = some object →
    s.reads[i]? = some object.result ∧ object.destroyed = decide (i + 1 ≠ s.objects.length)
  reads : s.reads.length = s.objects.length
  pushing : ∀ pointer ∈ s.pushing, pointer.object < s.objects.length
  held : ∀ pointer ∈ s.held, pointer.object < s.objects.length
  uses : ∀ use ∈ s.uses, use.object < s.objects.length

theorem Owned.init : Owned (State.init : State V) where
  slot := rfl
  objects i object h := by cases h
  reads := rfl
  pushing pointer h := absurd h List.not_mem_nil
  held pointer h := absurd h List.not_mem_nil
  uses use h := absurd h List.not_mem_nil

theorem Owned.assign_objects {s : State V} (h : Owned s) (result : StorageResult) (i : Nat) :
    (s.assign result).objects[i]? = if i = s.objects.length then some { result, destroyed := false }
      else (s.objects[i]?).map fun object => { object with destroyed := true } := by
  have hslot := h.slot
  unfold State.assign
  by_cases hlen : s.objects.length = 0
  · rw [if_pos hlen] at hslot
    have hnil : s.objects = [] := List.length_eq_zero_iff.mp hlen
    cases i <;> simp [hslot, hnil]
  · rw [if_neg hlen] at hslot
    simp only [hslot, List.getElem?_modify]
    rcases Nat.lt_trichotomy i s.objects.length with hi | rfl | hi
    · rw [List.getElem?_append_left hi, if_neg (Nat.ne_of_lt hi)]
      cases ho : s.objects[i]? with
      | none => simp
      | some object =>
        have hdestroyed := (h.objects i object ho).2
        by_cases hlast : s.objects.length - 1 = i
        · simp [hlast]
        · have : object.destroyed = true := by
            rw [hdestroyed]
            exact decide_eq_true (by omega)
          simp [hlast, ← this]
    · have hne : s.objects.length - 1 ≠ s.objects.length := by omega
      simp [hne]
    · rw [List.getElem?_eq_none (by simp; omega), if_neg (Nat.ne_of_gt hi),
        List.getElem?_eq_none (Nat.le_of_lt hi)]
      rfl

theorem State.assign_length (s : State V) (result : StorageResult) :
    (s.assign result).objects.length = s.objects.length + 1 := by
  unfold State.assign
  cases s.result <;> simp

theorem Owned.assign {s : State V} (h : Owned s) (result : StorageResult) :
    Owned (s.assign result) := by
  have hlength := s.assign_length result
  have hlater : ∀ i, i < s.objects.length → i < (s.assign result).objects.length :=
    fun i hi => hlength ▸ Nat.lt_succ_of_lt hi
  refine ⟨?_, ?_, ?_, fun pointer hmem => hlater _ (h.pushing pointer hmem),
    fun pointer hmem => hlater _ (h.held pointer hmem), fun use hmem => hlater _ (h.uses use hmem)⟩
  · show some s.objects.length = if (s.assign result).objects.length = 0 then _ else
      some ((s.assign result).objects.length - 1)
    simp [hlength]
  · intro i object ho
    show (s.reads ++ [result])[i]? = some object.result ∧ _
    rw [h.assign_objects] at ho
    split at ho
    next hi =>
      cases ho
      subst hi
      simp [hlength, ← h.reads]
    next hi =>
      obtain ⟨old, hold, rfl⟩ := Option.map_eq_some_iff.mp ho
      have hlt := (List.getElem?_eq_some_iff.mp hold).1
      rw [List.getElem?_append_left (by rw [h.reads]; exact hlt)]
      exact ⟨(h.objects i old hold).1, by simp [hlength]; omega⟩
  · show (s.reads ++ [result]).length = _
    rw [List.length_append, h.reads]
    exact hlength.symm

theorem Owned.push {s : State V} (h : Owned s) {pointer : Pointer}
    (hpointer : pointer.object < s.objects.length) : Owned (s.push pointer) :=
  ⟨h.slot, h.objects, h.reads, List.forall_mem_cons.mpr ⟨hpointer, h.pushing⟩, h.held, h.uses⟩

theorem Owned.use {s : State V} (h : Owned s) {use : Use V}
    (huse : use.object < s.objects.length) : Owned (s.use use) :=
  ⟨h.slot, h.objects, h.reads, h.pushing, h.held,
    List.forall_mem_append.mpr ⟨h.uses, List.forall_mem_singleton.mpr huse⟩⟩

variable {fromString}

theorem step_cases {s next : State V} {op : Operation} (hs : Kv.step fromString s op = some next) :
    (∃ n key fetched, op = .get n key fetched ∧ next = Kv.get s n key fetched) ∨
    (∃ i type object, op = .field i type ∧ s.objects[i]? = some object ∧
      next = Kv.field s object i type) ∨
    (∃ i type n object, op = .call i type n ∧ s.objects[i]? = some object ∧
      next = Kv.call fromString s object i type n) ∨
    (∃ pointer pushing, s.pushing = pointer :: pushing ∧
      (op = .pushed ∧ next = { s with pushing, held := s.held ++ [pointer] } ∨
        op = .refused ∧ next = { s with pushing })) := by
  cases op with
  | get n key fetched => exact .inl ⟨n, key, fetched, rfl, (Option.some.inj hs).symm⟩
  | field i type =>
    obtain ⟨-, hs⟩ := Option.ite_none_right_eq_some.mp hs
    obtain ⟨object, ho, rfl⟩ := Option.map_eq_some_iff.mp hs
    exact .inr (.inl ⟨i, type, object, rfl, ho, rfl⟩)
  | call i type n =>
    obtain ⟨-, hs⟩ := Option.ite_none_right_eq_some.mp hs
    obtain ⟨object, ho, rfl⟩ := Option.map_eq_some_iff.mp hs
    exact .inr (.inr (.inl ⟨i, type, n, object, rfl, ho, rfl⟩))
  | pushed =>
    simp only [step] at hs
    split at hs
    · cases hs
    next pointer pushing hpushing =>
      exact .inr (.inr (.inr ⟨pointer, pushing, hpushing, .inl ⟨rfl, (Option.some.inj hs).symm⟩⟩))
  | refused =>
    simp only [step] at hs
    split at hs
    · cases hs
    next pointer pushing hpushing =>
      exact .inr (.inr (.inr ⟨pointer, pushing, hpushing, .inr ⟨rfl, (Option.some.inj hs).symm⟩⟩))

theorem Owned.step {s next : State V} {op : Operation} (h : Owned s)
    (hs : Kv.step fromString s op = some next) : Owned next := by
  obtain ⟨n, key, fetched, rfl, rfl⟩ | ⟨i, type, object, rfl, ho, rfl⟩ |
    ⟨i, type, n, object, rfl, ho, rfl⟩ | ⟨pointer, pushing, hpushing, hnext⟩ := step_cases hs
  · unfold Kv.get
    split
    · exact h
    · exact (h.assign fetched.result).push (s.assign_length _ ▸ Nat.lt_succ_self _)
  · have hi := (List.getElem?_eq_some_iff.mp ho).1
    have hused : Owned (s.use (.field i object.destroyed)) := h.use hi
    exact hused.push hi
  · exact h.use (List.getElem?_eq_some_iff.mp ho).1
  · have hall := h.pushing
    rw [hpushing] at hall
    obtain ⟨hpointer, hrest⟩ := List.forall_mem_cons.mp hall
    obtain ⟨-, rfl⟩ | ⟨-, rfl⟩ := hnext
    · exact ⟨h.slot, h.objects, h.reads, hrest,
        List.forall_mem_append.mpr ⟨h.held, List.forall_mem_singleton.mpr hpointer⟩, h.uses⟩
    · exact ⟨h.slot, h.objects, h.reads, hrest, h.held, h.uses⟩

-- ---------------------------------------------------------------------------
-- Steps and runs
-- ---------------------------------------------------------------------------

theorem faithful_use {s : State V} (use : Use V) :
    (s.use use).Faithful fromString ↔
      use.Faithful fromString s.reads ∧ s.Faithful fromString := by
  show (∀ other ∈ s.uses ++ [use], other.Faithful fromString s.reads) ↔ _
  rw [List.forall_mem_append, List.forall_mem_singleton, and_comm]
  rfl

theorem faithful_assign {s : State V} (h : Owned s) (result : StorageResult) :
    (s.assign result).Faithful fromString ↔ s.Faithful fromString := by
  refine forall₂_congr fun use hmem => ?_
  have hlt : use.object < s.reads.length := h.reads ▸ h.uses use hmem
  cases use with
  | field i destroyed => exact Iff.rfl
  | call i type n returned =>
    have hi : i < s.reads.length := hlt
    show (∃ read, (s.reads ++ [result])[i]? = some read ∧ _) ↔ _
    rw [List.getElem?_append_left hi]
    rfl

theorem faithful_get {s : State V} (h : Owned s) (n : Int) (key : Option String)
    (fetched : Fetched) :
    (Kv.get s n key fetched).Faithful fromString ↔ s.Faithful fromString := by
  unfold Kv.get
  split
  · exact Iff.rfl
  · exact faithful_assign h fetched.result

theorem length_get (s : State V) (n : Int) (key : Option String) (fetched : Fetched) :
    (Kv.get s n key fetched).objects.length =
      if n ≠ 3 ∨ key.isNone then s.objects.length else s.objects.length + 1 := by
  unfold Kv.get
  split
  · rfl
  · exact s.assign_length fetched.result

theorem faithful_field {s : State V} (h : Owned s) {i : Nat} {object : Object}
    (ho : s.objects[i]? = some object) (type : DataType) :
    (Kv.field s object i type).Faithful fromString ↔
      i + 1 = s.objects.length ∧ s.Faithful fromString := by
  refine (faithful_use (.field i object.destroyed)).trans (and_congr_left fun _ => ?_)
  show object.destroyed = false ↔ _
  rw [(h.objects i object ho).2, decide_eq_false_iff_not, not_not]

theorem faithful_call {s : State V} (h : Owned s) {i : Nat} {object : Object}
    (ho : s.objects[i]? = some object) (type : DataType) (n : Int) :
    (Kv.call fromString s object i type n).Faithful fromString ↔
      i + 1 = s.objects.length ∧ s.Faithful fromString := by
  obtain ⟨hread, hdestroyed⟩ := h.objects i object ho
  refine (faithful_use _).trans (and_congr_left fun _ => ?_)
  show (∃ read, s.reads[i]? = some read ∧ _) ↔ _
  rw [hread]
  by_cases hlast : i + 1 = s.objects.length <;> simp [hdestroyed, hlast]

theorem faithful_run {s final : State V} {ops : List Operation} (h : Owned s)
    (hr : Steps.run (Kv.step fromString) s ops = some final) :
    final.Faithful fromString ↔ CastsLatest s.objects.length ops ∧ s.Faithful fromString := by
  induction ops generalizing s with
  | nil =>
    cases hr
    simp [CastsLatest]
  | cons op rest ih =>
    obtain ⟨next, hnext, hrest⟩ := Steps.run_cons_some.mp hr
    rw [ih (h.step hnext) hrest]
    obtain ⟨n, key, fetched, rfl, rfl⟩ | ⟨i, type, object, rfl, ho, rfl⟩ |
      ⟨i, type, n, object, rfl, ho, rfl⟩ | ⟨pointer, pushing, -, hnext⟩ := step_cases hnext
    · rw [faithful_get h, length_get]
      rfl
    · rw [faithful_field h ho, ← and_assoc, and_comm (b := _ = _)]
      rfl
    · rw [faithful_call h ho, ← and_assoc, and_comm (b := _ = _)]
      rfl
    · obtain ⟨rfl, rfl⟩ | ⟨rfl, rfl⟩ := hnext
      · rfl
      · rfl

/-- Every use of a result is of a live object, and every cast gives what the get had read,
exactly when no later get has read anything by then. -/
theorem casts_faithful_iff_latest (ops : List Operation) (s : State V)
    (hr : Steps.run (Kv.step fromString) State.init ops = some s) :
    s.Faithful fromString ↔ CastsLatest 0 ops := by
  rw [faithful_run Owned.init hr]
  exact and_iff_left fun use huse => absurd huse List.not_mem_nil

end

def readString : DataType → String → Except String String
  | .string, value => .ok (cString value)
  | _, _ => .error "Unexpected json value type"

def castAtOnce : List Operation :=
  [.get 3 (some "a") (.value "1"), .pushed, .field 0 .string, .pushed, .call 0 .string 2,
   .get 3 (some "b") (.exception "No such key"), .pushed, .field 1 .string, .pushed,
   .call 1 .string 2, .get 2 none .unknown, .call 1 .string 3]

theorem casts_faithful_cast_at_once :
    ∃ s, Steps.run (step readString) State.init castAtOnce = some s ∧ s.Faithful readString :=
  ⟨_, rfl, (casts_faithful_iff_latest castAtOnce _ rfl).mpr (by decide)⟩

/-- A second get reads something before the first result is cast, and it has its own result
pushed or is refused memory for it. -/
def castLater (ending : Operation) : List Operation :=
  [.get 3 (some "a") (.value "1"), .pushed, .get 3 (some "b") (.value "2"), ending,
   .field 0 .string, .pushed, .call 0 .string 2]

theorem first_result_destroyed :
    (∃ s, Steps.run (step readString) State.init (castLater .pushed) = some s ∧
      s.uses = [.field 0 true, .call 0 .string 2 none] ∧ ¬ s.Faithful readString) ∧
    ∃ s, Steps.run (step readString) State.init (castLater .refused) = some s ∧
      s.uses = [.field 0 true, .call 0 .string 2 none] ∧ ¬ s.Faithful readString := by
  have hdestroyed : ∀ s : State String, s.uses = [.field 0 true, .call 0 .string 2 none] →
      ¬ s.Faithful readString := by
    intro s huses hfaithful
    have hfield : Use.Faithful readString s.reads (.field 0 true) :=
      hfaithful _ (huses ▸ List.mem_cons_self)
    cases hfield
  exact ⟨⟨_, rfl, rfl, hdestroyed _ rfl⟩, ⟨_, rfl, rfl, hdestroyed _ rfl⟩⟩

end LambdaExecutor.Kv
