import LambdaExecutor.Lua.RoundTrip

/-!
# What a failed serialization leaves on the stack

`valueOf` is the serializer without a stack: the JSON value, or the exception with
the place of its origin. The serializer with the stack refines it, and the origin
decides how far the stack is popped: every enclosing table pops three slots, but
only the innermost has pushed them.
-/

namespace LambdaExecutor.Lua.Serializer

open Raii Raii.Code Formats

inductive Origin
  | value
  | key
  /-- The builder refuses the value of an entry. -/
  | builder
  deriving DecidableEq

/-- The slots which are left above what is under the value, where the exception is thrown. -/
def Origin.left : Origin → Nat
  | .value => 1
  | .key => 0
  | .builder => 3

/-- An exception on its way through `depth` enclosing tables. -/
structure Fault where
  origin : Origin
  depth : Nat
  deriving DecidableEq

def Fault.outer (f : Fault) : Fault := { f with depth := f.depth + 1 }

inductive Outcome
  | value (json : Json)
  | fault (e : Exception) (f : Fault)
  /-- An error of Lua, or no fuel left. -/
  | other

def grow (J : JsonLibrary) (builder : Json) (key : Value) (value : Json) : Except Exception Json :=
  match key with
  | .string s => J.emplaceNocheck builder (cString s) value
  | _ => J.pushBack builder value

mutual
def valueOf (J : JsonLibrary) (h : Heap) : Nat → Value → Outcome
  | 0, _ => .other
  | fuel + 1, v =>
    match v with
    | .string s => .value (.string (cString s))
    | .number n =>
      match J.ofDouble n.toDouble with
      | .ok json => .value json
      | .error e => .fault e ⟨.value, 0⟩
    | .boolean b => .value (.bool b)
    | .table t => entriesOf J h fuel (h[t]?.getD []) .nil .null
    | v => .fault (.stdException (typeError v.type)) ⟨.value, 0⟩
def entriesOf (J : JsonLibrary) (h : Heap) : Nat → Table → Value → Json → Outcome
  | 0, _, _, _ => .other
  | fuel + 1, entries, k, builder =>
    match entries.next k.toKey with
    | none => .other
    | some none => .value builder
    | some (some (key, v)) =>
      if key.type ≠ .string ∧ key.type ≠ .number then
        .fault (.stdException (keyTypeError key.type)) ⟨.key, 0⟩
      else
        match valueOf J h fuel v with
        | .other => .other
        | .fault e f => .fault e f.outer
        | .value json =>
          match grow J builder key json with
          | .error e => .fault e ⟨.builder, 0⟩
          | .ok builder => entriesOf J h fuel entries key builder
end

def Fault.Leaves (f : Fault) (below stack : List Value) : Prop :=
  ∃ above : List Value, above.length = f.origin.left ∧ stack = (above ++ below).drop f.depth

theorem Fault.Leaves.outer {f : Fault} {below stack : List Value} {key table : Value}
    (h : f.Leaves (key :: table :: below) stack) : f.outer.Leaves below (stack.drop 3) := by
  obtain ⟨above, hlength, rfl⟩ := h
  refine ⟨(above ++ [key, table]).drop 2, ?_, ?_⟩
  · simp [hlength, Fault.outer]
  · rw [← List.drop_append_of_le_length (by simp), List.drop_drop, List.drop_drop,
      List.append_assoc]
    show _ = List.drop (2 + (f.depth + 1)) _
    congr 1
    omega

/-- The stack under the value is whole when no more was popped than there was above it. -/
theorem Fault.Leaves.suffix_iff {f : Fault} {below stack : List Value} (h : f.Leaves below stack) :
    below <:+ stack ↔ below = [] ∨ f.depth ≤ f.origin.left := by
  obtain ⟨above, hlength, rfl⟩ := h
  rw [← hlength]
  constructor
  · intro hsuffix
    have := hsuffix.length_le
    simp only [List.length_drop, List.length_append] at this
    by_cases hbelow : below = []
    · exact .inl hbelow
    · have := List.length_pos_iff.mpr hbelow
      exact .inr (by omega)
  · rintro (rfl | hle)
    · exact List.nil_suffix
    · rw [List.drop_append_of_le_length hle]
      exact List.suffix_append ..

def Stuck (r : Result Thrown LuaState Json) : Prop :=
  (∃ message L, r = .threw (.luaError message) L) ∨ ∃ L, r = .terminated L

/-- The code ends as the outcome says, with `kept` on the stack if it returns. -/
def Outcome.Ends (h : Heap) (kept below : List Value) (r : Result Thrown LuaState Json) :
    Outcome → Prop
  | .value json => r = .done json (on h kept)
  | .fault e f => ∃ stack, r = .threw (.exception e) (on h stack) ∧ f.Leaves below stack
  | .other => Stuck r

-- ---------------------------------------------------------------------------
-- The serializer with the stack refines the one without
-- ---------------------------------------------------------------------------

variable {J : JsonLibrary} {h : Heap} {fuel : Nat} {below : List Value}

theorem throws_catchAll {body : LuaCode Json} {L L' : LuaState} {e : Exception} {n : Nat}
    (hbody : Throws body L (.exception e) L') :
    Throws (catchAll body (luaPop n)) L (.exception e) { L' with stack := L'.stack.drop n } :=
  hbody.tryCatch_apply _

theorem Stuck.catchAll {body : LuaCode Json} {L : LuaState} {n : Nat} (hbody : Stuck (body L))
    (rest : Json → LuaCode Json) : Stuck ((catchAll body (luaPop n) >>= rest) L) := by
  rcases hbody with ⟨message, L', hbody⟩ | ⟨L', hbody⟩
  · have hthrows : Throws (Lua.catchAll body (luaPop n)) L (.luaError message) L' :=
      Throws.tryCatch_apply hbody _
    exact .inl ⟨message, L', hthrows.bind rest⟩
  · refine .inr ⟨L', ?_⟩
    show Code.bind (Lua.catchAll body (luaPop n)) rest L = _
    unfold Code.bind Lua.catchAll Code.tryCatch
    rw [hbody]

theorem ends_toValue_of_loop {v : Value}
    (hloop : ∀ t below, (entriesOf J h fuel (h[t]?.getD []) .nil .null).Ends h (.table t :: below)
      below (tableLoop J fuel none .null (on h (.nil :: .table t :: below)))) :
    (valueOf J h (fuel + 1) v).Ends h (v :: below) below
      (toValue J (fuel + 1) none (on h (v :: below))) := by
  rw [toValue, valueOf.eq_def]
  cases v with
  | string s => exact rfl
  | boolean b => cases b <;> exact rfl
  | table t => exact hloop t below
  | number n =>
    dsimp only
    show Outcome.Ends h _ below (ofLibrary (J.ofDouble n.toDouble) (on h (.number n :: below))) _
    cases J.ofDouble n.toDouble with
    | ok json => exact rfl
    | error e => exact ⟨_, rfl, [_], rfl, rfl⟩
  | nil | function library name | userdata name | thread t =>
    exact ⟨_, rfl, [_], rfl, rfl⟩

theorem type_of_not_key {key : Value} (h : ¬ (key.type ≠ .string ∧ key.type ≠ .number)) :
    (∃ s, key = .string s) ∨ ∃ n, key = .number n := by
  cases key <;> simp_all [Value.type]

theorem grow_apply {t : TableRef} {key v : Value} {builder json : Json}
    (hkey : (∃ s, key = .string s) ∨ ∃ n, key = .number n) :
    (do
      let builder ← if key.type = .string
        then do ofLibrary (J.emplaceNocheck builder (← luaToString (-2)) json)
        else ofLibrary (J.pushBack builder json)
      luaPop 1
      tableLoop J fuel none builder : LuaCode Json) (on h (v :: key :: .table t :: below)) =
      (ofLibrary (grow J builder key json) >>= fun builder => luaPop 1 >>= fun _ =>
        tableLoop J fuel none builder) (on h (v :: key :: .table t :: below)) := by
  rcases hkey with ⟨s, rfl⟩ | ⟨n, rfl⟩ <;> rfl

theorem ends_grow {t : TableRef} {key v : Value} {builder json : Json}
    (hkey : (∃ s, key = .string s) ∨ ∃ n, key = .number n)
    (hloop : ∀ builder, (entriesOf J h fuel (h[t]?.getD []) key builder).Ends h (.table t :: below)
      below (tableLoop J fuel none builder (on h (key :: .table t :: below)))) :
    (match grow J builder key json with
      | .error e => .fault e ⟨.builder, 0⟩
      | .ok builder => entriesOf J h fuel (h[t]?.getD []) key builder : Outcome).Ends h
        (.table t :: below) below
      ((do
        let builder ← if key.type = .string
          then do ofLibrary (J.emplaceNocheck builder (← luaToString (-2)) json)
          else ofLibrary (J.pushBack builder json)
        luaPop 1
        tableLoop J fuel none builder : LuaCode Json) (on h (v :: key :: .table t :: below))) := by
  rw [grow_apply hkey]
  cases grow J builder key json with
  | error e => exact ⟨_, rfl, [v, key, .table t], rfl, rfl⟩
  | ok builder' => exact hloop builder'

theorem ends_loop_of_value {t : TableRef} {k : Value} {builder : Json}
    (hvalue : ∀ v below, (valueOf J h fuel v).Ends h (v :: below) below
      (toValue J fuel none (on h (v :: below))))
    (hloop : ∀ k builder, (entriesOf J h fuel (h[t]?.getD []) k builder).Ends h (.table t :: below)
      below (tableLoop J fuel none builder (on h (k :: .table t :: below)))) :
    (entriesOf J h (fuel + 1) (h[t]?.getD []) k builder).Ends h (.table t :: below) below
      (tableLoop J (fuel + 1) none builder (on h (k :: .table t :: below))) := by
  rw [tableLoop, entriesOf]
  cases hnext : Table.next (h[t]?.getD []) k.toKey with
  | none => exact .inl ⟨_, _, (luaNext_fails hnext).bind _⟩
  | some entry =>
    cases entry with
    | none => exact (luaNext_ends hnext).bind (.pure builder _)
    | some entry =>
      obtain ⟨key, v⟩ := entry
      have htype : Returns (luaType (-2)) (on h (v :: key :: .table t :: below)) key.type
          (on h (v :: key :: .table t :: below)) := rfl
      show Outcome.Ends _ _ _ ((luaNext (-2) >>= _) _) _
      rw [(luaNext_visits hnext).bind_apply, if_pos rfl, htype.bind_apply]
      dsimp only
      split
      · exact ⟨_, rfl, [], rfl, rfl⟩
      · next hkey =>
        have hv := hvalue v (key :: .table t :: below)
        cases hresult : valueOf J h fuel v with
        | other =>
          rw [hresult] at hv
          exact hv.catchAll _
        | fault e f =>
          rw [hresult] at hv
          obtain ⟨stack, hthrows, hleaves⟩ := hv
          exact ⟨_, (throws_catchAll hthrows).bind _, hleaves.outer⟩
        | value json =>
          rw [hresult] at hv
          have hreturns : Returns (catchAll (toValue J fuel none) (luaPop 3))
              (on h (v :: key :: .table t :: below)) json (on h (v :: key :: .table t :: below)) :=
            Returns.tryCatch hv _
          rw [hreturns.bind_apply]
          exact ends_grow (type_of_not_key hkey) (hloop key)

theorem ends_all (J : JsonLibrary) (h : Heap) (fuel : Nat) :
    (∀ v below, (valueOf J h fuel v).Ends h (v :: below) below
      (toValue J fuel none (on h (v :: below)))) ∧
    ∀ t k builder below, (entriesOf J h fuel (h[t]?.getD []) k builder).Ends h (.table t :: below)
      below (tableLoop J fuel none builder (on h (k :: .table t :: below))) := by
  induction fuel with
  | zero =>
    constructor
    · intro v below
      rw [valueOf, toValue]
      exact .inr ⟨_, rfl⟩
    · intro t k builder below
      rw [entriesOf, tableLoop]
      exact .inr ⟨_, rfl⟩
  | succ fuel ih =>
    obtain ⟨hvalue, hloop⟩ := ih
    constructor
    · intro v below
      exact ends_toValue_of_loop fun t below => hloop t .nil .null below
    · intro t k builder below
      exact ends_loop_of_value hvalue fun k builder => hloop t k builder below

theorem ends_toValue (J : JsonLibrary) (h : Heap) (fuel : Nat) (v : Value) (below : List Value) :
    (valueOf J h fuel v).Ends h (v :: below) below (toValue J fuel none (on h (v :: below))) :=
  (ends_all J h fuel).1 v below

theorem toString_throws_iff {L L' : LuaState} {e : Exception} :
    toString J fuel none L = .threw (.exception e) L' ↔
      toValue J fuel none L = .threw (.exception e) L' := by
  show Code.bind _ _ L = _ ↔ _
  unfold Code.bind
  cases toValue J fuel none L with
  | done value L₂ => cases value <;> exact iff_of_false nofun nofun
  | threw e' L₂ => simp
  | terminated L₂ => simp

-- ---------------------------------------------------------------------------
-- The caller's stack
-- ---------------------------------------------------------------------------

/-- A failed serialization of the table takes none of the slots under it, nor of those that lie
deeper, where a pop would go on. -/
def KeepsBelow (J : JsonLibrary) (h : Heap) (t : TableRef) (below : List Value) : Prop :=
  ∀ deeper fuel e L, toString J fuel none (on h (.table t :: (below ++ deeper))) =
    .threw (.exception e) L → below ++ deeper <:+ L.stack

/-- If the serialization fails, then at a key or a value of the table itself, or at a builder
which is in no more than three tables. -/
def FailsNearTop (J : JsonLibrary) (h : Heap) (t : TableRef) : Prop :=
  ∀ fuel e f, valueOf J h fuel (.table t) = .fault e f → f.depth ≤ f.origin.left

theorem keepsBelow_iff (J : JsonLibrary) (h : Heap) (t : TableRef) (below : List Value) :
    KeepsBelow J h t below ↔ FailsNearTop J h t := by
  constructor
  · intro hkeeps fuel e f hfault
    have hends := ends_toValue J h fuel (.table t) (below ++ [.nil])
    rw [hfault] at hends
    obtain ⟨stack, hthrows, hleaves⟩ := hends
    have hsuffix := hkeeps [.nil] fuel e _ (toString_throws_iff.mpr hthrows)
    exact (hleaves.suffix_iff.mp hsuffix).resolve_left (by simp)
  · intro hnear deeper fuel e L hthrows
    have hends := ends_toValue J h fuel (.table t) (below ++ deeper)
    rw [toString_throws_iff] at hthrows
    rw [hthrows] at hends
    cases hresult : valueOf J h fuel (.table t) with
    | value json =>
      rw [hresult] at hends
      exact nomatch hends
    | other =>
      rw [hresult] at hends
      rcases hends with ⟨message, L', hother⟩ | ⟨L', hother⟩ <;> exact nomatch hother
    | fault e' f =>
      rw [hresult] at hends
      obtain ⟨stack, hstack, hleaves⟩ := hends
      cases hstack
      exact hleaves.suffix_iff.mpr (.inr (hnear fuel e f hresult))

def functionInside : Heap :=
  [[(.string "inner", .table 1)], [(.string "f", .function "_G" "print")]]

theorem nested_failure_eats_slot :
    (∃ e, toString textLibrary 5 none (on functionInside [.table 0, .string "key"]) =
      .threw (.exception e) (on functionInside [])) ∧
    ¬ KeepsBelow textLibrary functionInside 0 [.string "key"] := by
  have hthrows : ∃ e, toString textLibrary 5 none (on functionInside [.table 0, .string "key"]) =
      .threw (.exception e) (on functionInside []) := ⟨_, rfl⟩
  refine ⟨hthrows, fun hkeeps => ?_⟩
  obtain ⟨e, hthrows⟩ := hthrows
  exact absurd (hkeeps [] 5 e _ hthrows) (by decide)

end LambdaExecutor.Lua.Serializer
