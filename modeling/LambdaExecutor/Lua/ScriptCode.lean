import LambdaExecutor.Library.Noninterference
import LambdaExecutor.Lua.Encodes
import LambdaExecutor.Lua.SerializerLaws

/-!
# Script code inside the C API

Some functions of the C API run code of the script before they return.
`lua_gettable` calls the metamethod `__index` for a field which is not there,
and whatever takes memory may collect garbage and call finalizers. The code may
change every table, and it need not return. What comes of it, at one place after
another, is a list of outcomes; where the list ends no more code runs.
-/

namespace LambdaExecutor.Lua

open Raii Raii.Code
open Serializer (on)

inductive Ending
  /-- With the value of a metamethod. -/
  | returns (value : Value)
  /-- An error of Lua, also one for memory that is refused. -/
  | raises (message : String)
  /-- A C++ exception of a native method, or of the hook. -/
  | throws (e : Exception)
  | never

structure Outcome where
  heap : Heap
  lawful : heap.Lawful
  ending : Ending

abbrev ScriptedCode (α : Type) := Code Thrown (LuaState × List Outcome) α

def Ending.code : Ending → ScriptedCode Value
  | .returns value => pure value
  | .raises message => raise (.luaError message)
  | .throws e => raise (.exception e)
  | .never => terminate

def scriptCode : ScriptedCode Value := fun s =>
  match s.2 with
  | [] => .done .nil s
  | outcome :: outcomes => outcome.ending.code ({ s.1 with heap := outcome.heap }, outcomes)

-- ---------------------------------------------------------------------------
-- Functions which run it
-- ---------------------------------------------------------------------------

namespace Scripted

/-- The text of an error takes memory before the error is raised. -/
def raising {α : Type} (c : LuaCode α) : ScriptedCode α :=
  tryCatch (onPrivate c) fun thrown => do
    let _ ← scriptCode
    raise thrown

def luaLError {α : Type} (message : String) : ScriptedCode α := raising (Lua.luaLError message)

/-- `lua_next`, which runs no script code unless it raises an error. -/
def luaNext (idx : Int) : ScriptedCode Bool := raising (Lua.luaNext idx)

def luaPushString (s : String) : ScriptedCode Unit := do
  onPrivate (Lua.luaPushString s)
  let _ ← scriptCode

def luaConvertToString (text : Number → String) (idx : Int) : ScriptedCode String := do
  let type ← onPrivate (luaType idx)
  let s ← onPrivate (Lua.luaConvertToString text idx)
  if type = .number then
    let _ ← scriptCode
    return s
  else return s

/-- `lua_gettable`, with the metamethod `__index` for a field that is not there. -/
def luaGetTable (idx : Int) : ScriptedCode LuaType := do
  let type ← onPrivate (Lua.luaGetTable idx)
  if type = .nil then
    let value ← scriptCode
    onPrivate (luaPop 1)
    onPrivate (luaPush value)
    return value.type
  else return type

end Scripted

-- ---------------------------------------------------------------------------
-- No script code
-- ---------------------------------------------------------------------------

/-- Where no script code runs, the code is that of the other model. -/
def Quiet {α : Type} (c : ScriptedCode α) (c' : LuaCode α) : Prop :=
  ∀ L, c (L, []) = (c' L).mapState fun L => (L, [])

section
variable {α β : Type}

theorem quiet_onPrivate (c : LuaCode α) : Quiet (onPrivate c) c := fun _ => rfl

theorem quiet_pure (a : α) : Quiet (pure a) (pure a) := fun _ => rfl

theorem Quiet.bind {c : ScriptedCode α} {c' : LuaCode α} {f : α → ScriptedCode β}
    {f' : α → LuaCode β} (hc : Quiet c c') (hf : ∀ a, Quiet (f a) (f' a)) :
    Quiet (c >>= f) (c' >>= f') := by
  intro L
  show Code.bind c f (L, []) = (Code.bind c' f' L).mapState _
  unfold Code.bind
  rw [hc L]
  cases hr : c' L with
  | done a L' => exact hf a L'
  | threw e L' => rfl
  | terminated L' => rfl

theorem Quiet.ite {p : Prop} [Decidable p] {c d : ScriptedCode α} {c' d' : LuaCode α}
    (hc : Quiet c c') (hd : Quiet d d') : Quiet (if p then c else d) (if p then c' else d') := by
  split
  · exact hc
  · exact hd

theorem Quiet.tryCatch {c : ScriptedCode α} {c' : LuaCode α} {f : Thrown → ScriptedCode α}
    {f' : Thrown → LuaCode α} (hc : Quiet c c') (hf : ∀ thrown, Quiet (f thrown) (f' thrown)) :
    Quiet (Code.tryCatch c f) (Code.tryCatch c' f') := by
  intro L
  unfold Code.tryCatch
  rw [hc L]
  cases hr : c' L with
  | done a L' => rfl
  | threw e L' => exact hf e L'
  | terminated L' => rfl

theorem Quiet.scriptCode_bind {f : Value → ScriptedCode α} {c' : LuaCode α}
    (h : Quiet (f .nil) c') : Quiet (scriptCode >>= f) c' := fun L => h L

theorem quiet_raising (c : LuaCode α) : Quiet (Scripted.raising c) c := by
  intro L
  unfold Scripted.raising Code.tryCatch
  rw [quiet_onPrivate c L]
  cases hr : c L <;> rfl

theorem quiet_luaPushString (s : String) :
    Quiet (Scripted.luaPushString s) (luaPushString s) := fun _ => rfl

theorem quiet_luaConvertToString (text : Number → String) (idx : Int) :
    Quiet (Scripted.luaConvertToString text idx) (luaConvertToString text idx) := by
  intro L
  show Code.bind (onPrivate (luaConvertToString text idx)) _ (L, []) = _
  unfold Code.bind
  rw [quiet_onPrivate _ L]
  cases luaConvertToString text idx L with
  | done s L' =>
    show (if ((L.at idx).map Value.type).getD .none = .number then _ else _ :
      ScriptedCode String) (L', []) = _
    split <;> rfl
  | threw e L' => rfl
  | terminated L' => rfl

theorem quiet_luaGetTable (idx : Int) : Quiet (Scripted.luaGetTable idx) (luaGetTable idx) := by
  intro L
  show Code.bind (onPrivate (luaGetTable idx)) _ (L, []) = _
  unfold Code.bind
  rw [quiet_onPrivate _ L]
  cases hr : luaGetTable idx L with
  | threw e L' => rfl
  | terminated L' => rfl
  | done type L' =>
    show (if type = .nil then _ else _ : ScriptedCode LuaType) (L', []) = .done type (L', [])
    split
    · next hnil =>
      unfold luaGetTable at hr
      split at hr
      · obtain ⟨rfl, rfl⟩ := Result.done.inj hr
        rw [hnil, Value.type_eq_nil.mp hnil]
        rfl
      · cases hr
    · rfl

end

-- ---------------------------------------------------------------------------
-- What is left after it
-- ---------------------------------------------------------------------------

/-- The tables at a moment of a call, and the script code that is still to run. -/
structure Moment where
  heap : Heap
  lawful : heap.Lawful
  outcomes : List Outcome

def Moment.on (m : Moment) (stack : List Value) : LuaState × List Outcome :=
  (Serializer.on m.heap stack, m.outcomes)

/-- What script code, of which there may be none, leaves to a function that runs it. -/
inductive Ran
  | back (value : Value) (m : Moment)
  | raised
  | lost

def Moment.run (m : Moment) : Ran :=
  match m.outcomes with
  | [] => .back .nil m
  | outcome :: outcomes =>
    match outcome.ending with
    | .returns value => .back value { heap := outcome.heap, lawful := outcome.lawful, outcomes }
    | .raises _ => .raised
    | .throws _ | .never => .lost

/-- What comes after counts where the script code comes back. -/
def Ran.Then (P : Value → Moment → Prop) : Ran → Prop
  | .back value m => P value m
  | .raised => True
  | .lost => False

/-- The script code which runs next comes back or raises an error of Lua. -/
def Moment.Stays (m : Moment) : Prop := m.run.Then fun _ _ => True

def Ran.bind (r : Ran) (f : Moment → Ran) : Ran :=
  match r with
  | .back _ m => f m
  | .raised => .raised
  | .lost => .lost

def Moment.convert (m : Moment) : Value → Ran
  | .number _ => m.run
  | _ => .back .nil m

def Moment.field (m : Moment) (t : TableRef) (name : String) : Ran :=
  if m.heap.rawget t (.string name) = .nil then m.run
  else .back (m.heap.rawget t (.string name)) m

theorem Ran.then_congr {r : Ran} {P P' : Value → Moment → Prop}
    (h : ∀ value m, P value m ↔ P' value m) : r.Then P ↔ r.Then P' := by
  cases r with
  | back value m => exact h value m
  | raised | lost => exact Iff.rfl

theorem Ran.then_bind (r : Ran) (f : Moment → Ran) (P : Value → Moment → Prop) :
    (r.bind f).Then P ↔ r.Then fun _ m => (f m).Then P := by
  cases r <;> rfl

-- ---------------------------------------------------------------------------
-- Code that ends as the script code does
-- ---------------------------------------------------------------------------

section
variable {α β : Type} {c : ScriptedCode α} {c' : LuaCode α} {s : LuaState × List Outcome}
  {r : Ran} {m : Moment}
  {after : Value → Moment → α × (LuaState × List Outcome)} {stack : List Value}

/-- The code comes back with the script code, or is left as the script code is. -/
def EndsAs (c : ScriptedCode α) (s : LuaState × List Outcome)
    (after : Value → Moment → α × (LuaState × List Outcome)) : Ran → Prop
  | .back value m => Returns c s (after value m).1 (after value m).2
  | .raised => ∃ message s', Throws c s (.luaError message) s'
  | .lost => (∃ e s', Throws c s (.exception e) s') ∨ (c s).isTerminated

theorem EndsAs.wp_iff (h : EndsAs c s after r) (Q : α → LuaState × List Outcome → Prop) :
    wp c Q (fun thrown _ => Raised thrown) s ↔
      r.Then fun value m => Q (after value m).1 (after value m).2 := by
  cases r with
  | back value m => exact Returns.wp_iff h
  | raised =>
    obtain ⟨message, s', hthrows⟩ := h
    exact hthrows.wp_iff.trans (iff_of_true ⟨message, rfl⟩ trivial)
  | lost =>
    refine iff_of_false ?_ id
    obtain ⟨e, s', hthrows⟩ | hterminated := h
    · intro hwp
      obtain ⟨message, hraised⟩ := hthrows.wp_iff.mp hwp
      exact nomatch hraised
    · exact not_wp_of_isTerminated hterminated

theorem EndsAs.settles_bind (h : EndsAs c s after r) (f : Nat → α → ScriptedCode β)
    (Q : β → LuaState × List Outcome → Prop) :
    Settles (fun fuel => c >>= f fuel) Q (fun thrown _ => Raised thrown) s ↔
      r.Then fun value m => Settles (fun fuel => f fuel (after value m).1) Q
        (fun thrown _ => Raised thrown) (after value m).2 := by
  have hwp : ∀ fuel, wp (c >>= f fuel) Q (fun thrown _ => Raised thrown) s ↔
      r.Then fun value m => wp (f fuel (after value m).1) Q (fun thrown _ => Raised thrown)
        (after value m).2 := by
    intro fuel
    rw [wp_bind]
    exact h.wp_iff _
  refine (exists_congr fun n => forall₂_congr fun fuel _ => hwp fuel).trans ?_
  cases r with
  | back value m => exact Iff.rfl
  | raised => exact iff_of_true ⟨0, fun _ _ => trivial⟩ trivial
  | lost => exact iff_of_false (fun ⟨n, hn⟩ => hn n (Nat.le_refl n)) id

theorem endsAs_congr {c₁ : ScriptedCode α} {s' : LuaState × List Outcome} (h : c s = c₁ s') :
    EndsAs c s after r ↔ EndsAs c₁ s' after r := by
  unfold EndsAs Returns Throws
  rw [h]

theorem EndsAs.of_returns {f : α → ScriptedCode β} {a : α} {s' : LuaState × List Outcome}
    {after : Value → Moment → β × (LuaState × List Outcome)} (hc : Returns c s a s')
    (hf : EndsAs (f a) s' after r) : EndsAs (c >>= f) s after r :=
  (endsAs_congr (hc.bind_apply f)).mpr hf

theorem EndsAs.then_returns {f : α → ScriptedCode β}
    {after' : Value → Moment → β × (LuaState × List Outcome)} (h : EndsAs c s after r)
    (hf : ∀ value m, Returns (f (after value m).1) (after value m).2 (after' value m).1
      (after' value m).2) : EndsAs (c >>= f) s after' r := by
  cases r with
  | back value m => exact Returns.bind h (hf value m)
  | raised =>
    obtain ⟨message, s', hthrows⟩ := h
    exact ⟨message, s', hthrows.bind f⟩
  | lost =>
    obtain ⟨e, s', hthrows⟩ | hterminated := h
    · exact .inl ⟨e, s', hthrows.bind f⟩
    · refine .inr ?_
      show (Code.bind c f s).isTerminated
      unfold Code.bind
      cases hc : c s <;> simp_all [Result.isTerminated]

theorem endsAs_scriptCode : EndsAs scriptCode (m.on stack)
    (fun value m => (value, m.on stack)) m.run := by
  obtain ⟨h, lawful, outcomes⟩ := m
  cases outcomes with
  | nil => exact rfl
  | cons outcome outcomes =>
    obtain ⟨heap, lawful', ending⟩ := outcome
    cases ending with
    | returns value => exact rfl
    | raises message => exact ⟨message, _, rfl⟩
    | throws e => exact .inl ⟨e, _, rfl⟩
    | never => exact .inr rfl

theorem endsAs_luaPushString (text : String) : EndsAs (Scripted.luaPushString text) (m.on stack)
    (fun _ m => ((), m.on (.string (cString text) :: stack))) m.run := by
  have hpush : Returns (onPrivate (luaPushString text)) (m.on stack) ()
      (m.on (.string (cString text) :: stack)) := rfl
  exact .of_returns hpush (endsAs_scriptCode.then_returns fun _ _ => rfl)

theorem returns_raising {a : α} {stack' : List Value}
    (hc : Returns c' (on m.heap stack) a (on m.heap stack')) :
    Returns (Scripted.raising c') (m.on stack) a (m.on stack') :=
  (hc.onPrivate m.outcomes).tryCatch _

theorem wp_scriptCode_iff (L : LuaState) {Q : Value → LuaState × List Outcome → Prop}
    (hQ : ∀ value s, s.1.stack = L.stack → Q value s) :
    wp scriptCode Q (fun thrown _ => Raised thrown) (L, m.outcomes) ↔ m.Stays := by
  obtain ⟨h, lawful, outcomes⟩ := m
  cases outcomes with
  | nil => exact iff_of_true (hQ .nil _ rfl) trivial
  | cons outcome outcomes =>
    obtain ⟨heap, lawful', ending⟩ := outcome
    cases ending with
    | returns value => exact iff_of_true (hQ value _ rfl) trivial
    | raises message => exact iff_of_true ⟨message, rfl⟩ trivial
    | throws e => exact iff_of_false (fun ⟨_, hraised⟩ => nomatch hraised) id
    | never => exact Iff.rfl

theorem wp_luaPushString_iff (text : String) (L : LuaState)
    {Q : Unit → LuaState × List Outcome → Prop}
    (hQ : ∀ s : LuaState × List Outcome, s.1.stack = .string (cString text) :: L.stack → Q () s) :
    wp (Scripted.luaPushString text) Q (fun thrown _ => Raised thrown) (L, m.outcomes) ↔
      m.Stays := by
  have hpush : Returns (onPrivate (luaPushString text)) (L, m.outcomes) ()
      ({ L with stack := .string (cString text) :: L.stack }, m.outcomes) := rfl
  rw [Scripted.luaPushString, wp_bind]
  refine hpush.wp_iff.trans ?_
  rw [wp_bind]
  exact wp_scriptCode_iff _ fun _ s hs => hQ s hs

theorem wp_raising {L L' : LuaState} {message : String}
    (hc : Throws c' L (.luaError message) L') (Q : α → LuaState × List Outcome → Prop) :
    wp (Scripted.raising c') Q (fun thrown _ => Raised thrown) (L, m.outcomes) ↔ m.Stays := by
  have hthrows : Throws (onPrivate c') (L, m.outcomes) (.luaError message) (L', m.outcomes) := by
    unfold Throws onPrivate zoom
    rw [hc]
    rfl
  unfold Scripted.raising
  rw [wp_congr (hthrows.tryCatch_apply _), wp_bind]
  exact wp_scriptCode_iff L' fun _ _ _ => ⟨message, rfl⟩

theorem wp_luaLError (message : String) (L : LuaState)
    (Q : α → LuaState × List Outcome → Prop) :
    wp (Scripted.luaLError message) Q (fun thrown _ => Raised thrown) (L, m.outcomes) ↔ m.Stays :=
  wp_raising rfl Q

theorem wp_ofLibrary (result : Except Exception α) (Q : α → LuaState × List Outcome → Prop) :
    wp (onPrivate (ofLibrary result)) Q (fun thrown _ => Raised thrown) s ↔
      ∃ a, result = .ok a ∧ Q a s := by
  cases result with
  | ok a => exact ⟨fun h => ⟨a, rfl, h⟩, fun ⟨_, heq, h⟩ => Except.ok.inj heq ▸ h⟩
  | error e =>
    exact iff_of_false (fun ⟨_, hraised⟩ => nomatch hraised) fun ⟨_, heq, _⟩ => nomatch heq

theorem settles_ofLibrary_bind (result : Except Exception α) {f : Nat → α → ScriptedCode β}
    {Q : β → LuaState × List Outcome → Prop} :
    Settles (fun fuel => onPrivate (ofLibrary result) >>= f fuel) Q (fun thrown _ => Raised thrown)
        s ↔
      ∃ a, result = .ok a ∧ Settles (fun fuel => f fuel a) Q (fun thrown _ => Raised thrown) s := by
  cases result with
  | ok a =>
    refine (settles_bind_of_returns ⟨0, fun _ _ => rfl⟩).trans ?_
    exact ⟨fun h => ⟨a, rfl, h⟩, fun ⟨_, heq, h⟩ => Except.ok.inj heq ▸ h⟩
  | error e =>
    refine iff_of_false (fun ⟨n, hn⟩ => ?_) fun ⟨_, heq, _⟩ => nomatch heq
    have hwp := hn n (Nat.le_refl n)
    rw [wp_bind] at hwp
    exact nomatch (wp_ofLibrary _ _).mp hwp

end

end LambdaExecutor.Lua
