import LambdaExecutor.Kv.Storage
import LambdaExecutor.Lua.DeserializerStack

/-!
# Which texts the casts accept

A cast gives a value and nil, or nil and an error. `as_boolean` takes every text for a
boolean, false unless it is the word for true, and `as_table` takes no table with a null
inside.
-/

namespace LambdaExecutor.Kv

open Raii Raii.Code Formats Lua Lua.Deserializer
open Lua.Serializer (on returns_ofLibrary throws_ofLibrary)

variable {J : JsonLibrary} {text : String} {type : DataType} {j : Json} {fuel : Nat} {h h' : Heap}
  {arguments stack : List Value} {w : Value}

/-- What a script gets from `ResultCastMethod::Execute`, which returns 2 wherever it returns. -/
def StorageResult.castResults (J : JsonLibrary) (fuel : Nat) (result : StorageResult)
    (type : DataType) : LuaCode (List Value) := do
  result.cast J fuel type
  read fun L => (L.stack.take 2).reverse

def stored (text : String) : StorageResult := (fetched (.ok text)).result

def CastReturns (J : JsonLibrary) (type : DataType) (text : String) (P : List Value → Prop) :
    Prop :=
  ∀ h (arguments : List Value), arguments.length = 2 →
    Settles (fun fuel => StorageResult.castResults J fuel (stored text) type)
      (fun results _ => P results) (fun _ _ => False) (on h arguments)

/-- A value for a text that is accepted, and otherwise nil and an error. -/
def AcceptsExactly (J : JsonLibrary) (type : DataType) (text : String) (accepted : Prop)
    (given : Value → Prop) : Prop :=
  CastReturns J type text fun results =>
    (accepted → ∃ v, given v ∧ results = [v, .nil]) ∧
      (¬ accepted → ∃ what, results = [.nil, .string what])

def IsTableText (J : JsonLibrary) (text : String) : Prop :=
  ∃ j, J.fromString text = .ok j ∧ j.IsTable

-- ---------------------------------------------------------------------------
-- A value or an error
-- ---------------------------------------------------------------------------

theorem returns_cast (hlength : arguments.length = 2)
    (hpush : Returns (fromString J fuel type text) (on h []) () (on h' [w])) :
    Returns (StorageResult.cast J fuel (stored text) type) (on h arguments) ()
      (on h' [.nil, w]) := by
  have htop : Returns luaGetTop (on h arguments) 2 (on h arguments) :=
    congrArg (Result.done · _) hlength
  have hclear : Returns luaClear (on h arguments) () (on h []) := rfl
  have hbody : Returns (do fromString J fuel type text; luaPushNil) (on h []) ()
      (on h' [.nil, w]) := hpush.bind rfl
  exact htop.bind (hclear.bind (hbody.tryCatch _))

theorem returns_cast_of_throws {e : Exception} (hlength : arguments.length = 2)
    (hpush : Throws (fromString J fuel type text) (on h []) (.exception e) (on h' stack)) :
    Returns (StorageResult.cast J fuel (stored text) type) (on h arguments) ()
      (on h' (.string (cString e.what) :: .nil :: stack)) := by
  have htop : Returns luaGetTop (on h arguments) 2 (on h arguments) :=
    congrArg (Result.done · _) hlength
  have hclear : Returns luaClear (on h arguments) () (on h []) := rfl
  have hbody : Throws (do fromString J fuel type text; luaPushNil) (on h []) (.exception e)
      (on h' stack) := hpush.bind _
  exact htop.bind (hclear.bind (hbody.tryCatch_apply _))

theorem CastReturns.mono {P Q : List Value → Prop} (hcast : CastReturns J type text P)
    (himp : ∀ results, P results → Q results) : CastReturns J type text Q := by
  intro h arguments hlength
  refine (hcast h arguments hlength).imp fun n hn fuel hfuel => ?_
  exact wp_mono (hn fuel hfuel) (fun results _ => himp results) fun _ _ => id

theorem castReturns_of_returns {given : Value → Prop}
    (hreturns : ∃ n, ∀ fuel, n ≤ fuel → ∀ h stack, ∃ h' w,
      Returns (fromString J fuel type text) (on h stack) () (on h' (w :: stack)) ∧ given w) :
    CastReturns J type text fun results => ∃ v, given v ∧ results = [v, .nil] := by
  intro h arguments hlength
  obtain ⟨n, hn⟩ := hreturns
  refine ⟨n, fun fuel hfuel => ?_⟩
  obtain ⟨h', w, hpush, hgiven⟩ := hn fuel hfuel h []
  have hresults : Returns (StorageResult.castResults J fuel (stored text) type)
      (on h arguments) [w, .nil] (on h' [.nil, w]) := (returns_cast hlength hpush).bind rfl
  exact hresults.wp_iff.mpr ⟨w, hgiven, rfl⟩

theorem castReturns_of_throws
    (hthrows : ∃ n, ∀ fuel, n ≤ fuel → ∀ h stack, ∃ e L',
      Throws (fromString J fuel type text) (on h stack) (.exception e) L') :
    CastReturns J type text fun results => ∃ what, results = [.nil, .string what] := by
  intro h arguments hlength
  obtain ⟨n, hn⟩ := hthrows
  refine ⟨n, fun fuel hfuel => ?_⟩
  obtain ⟨e, ⟨stack, h'⟩, hpush⟩ := hn fuel hfuel h []
  have hresults : Returns (StorageResult.castResults J fuel (stored text) type)
      (on h arguments) [.nil, .string (cString e.what)]
      (on h' (.string (cString e.what) :: .nil :: stack)) :=
    (returns_cast_of_throws hlength hpush).bind rfl
  exact hresults.wp_iff.mpr ⟨cString e.what, rfl⟩

section Exactly
variable {accepted : Prop} {given : Value → Prop}

theorem acceptsExactly_iff_of_value
    (hvalue : CastReturns J type text fun results => ∃ v, given v ∧ results = [v, .nil]) :
    AcceptsExactly J type text accepted given ↔ accepted := by
  constructor
  · intro hexactly
    by_contra hnot
    obtain ⟨results, -, ⟨v, -, hv⟩, -, herror⟩ :=
      (hvalue [] [.nil, .nil] rfl).both (hexactly [] [.nil, .nil] rfl)
    obtain ⟨what, hwhat⟩ := herror hnot
    exact nomatch hv.symm.trans hwhat
  · exact fun haccepted => hvalue.mono fun _ hresults =>
      ⟨fun _ => hresults, fun hnot => absurd haccepted hnot⟩

theorem acceptsExactly_iff_of_error
    (herror : CastReturns J type text fun results => ∃ what, results = [.nil, .string what]) :
    AcceptsExactly J type text accepted given ↔ ¬ accepted := by
  constructor
  · intro hexactly haccepted
    obtain ⟨results, -, ⟨what, hwhat⟩, hvalue, -⟩ :=
      (herror [] [.nil, .nil] rfl).both (hexactly [] [.nil, .nil] rfl)
    obtain ⟨v, -, hv⟩ := hvalue haccepted
    exact nomatch hv.symm.trans hwhat
  · exact fun hnot => herror.mono fun _ hresults =>
      ⟨fun haccepted => absurd haccepted hnot, fun _ => hresults⟩

end Exactly

-- ---------------------------------------------------------------------------
-- Texts of tables
-- ---------------------------------------------------------------------------

theorem fromString_congr {text' : String} (hsame : J.fromString text = J.fromString text')
    (fuel : Nat) : fromString J fuel .table text = fromString J fuel .table text' := by
  cases fuel with
  | zero => rfl
  | succ fuel =>
    show pushTable _ J text = pushTable _ J text'
    rw [pushTable, hsame]
    rfl

theorem castReturns_table (hread : J.fromString text = .ok j) (htable : j.IsTable)
    (hj : j.All (Readable J)) : CastReturns J .table text fun results =>
      ∃ v, (∃ t, v = .table t) ∧ results = [v, .nil] := by
  refine castReturns_of_returns ?_
  obtain ⟨n, hn⟩ := returns_of_readable j hj
  refine ⟨n, fun fuel hfuel h stack => ?_⟩
  obtain ⟨h', w, hpush, hw⟩ := hn fuel hfuel h stack
  cases j with
  | array items =>
    rw [fromString_congr (hread.trans hj.1.symm)]
    exact ⟨h', w, hpush, hw rfl⟩
  | object members =>
    rw [fromString_congr (hread.trans hj.1.symm)]
    exact ⟨h', w, hpush, hw rfl⟩
  | null | bool b | number d | string s => exact htable.elim

theorem castReturns_not_table (hnone : ¬ IsTableText J text) :
    CastReturns J .table text fun results => ∃ what, results = [.nil, .string what] := by
  refine castReturns_of_throws ⟨1, fun fuel hfuel h stack => ?_⟩
  obtain ⟨fuel, rfl⟩ := Nat.exists_eq_add_of_le' hfuel
  cases hread : J.fromString text with
  | error e => exact ⟨e, _, (throws_ofLibrary hread _).bind _⟩
  | ok j =>
    refine ⟨.stdException "Value is not a table", on (h ++ [[]]) stack, ?_⟩
    refine ((returns_ofLibrary hread _).bind_apply _).trans ?_
    cases j with
    | array items => exact absurd ⟨_, hread, trivial⟩ hnone
    | object members => exact absurd ⟨_, hread, trivial⟩ hnone
    | null | bool b | number d | string s => rfl

theorem castReturns_null (hnull : NullInside J text)
    (htext : ∀ j, J.fromString text = .ok j → j.All (NullOrReadable J)) :
    CastReturns J .table text fun results => ∃ what, results = [.nil, .string what] := by
  obtain ⟨j, hread, hinside⟩ := hnull
  obtain ⟨n, hn⟩ := stops_of_null j (fun _ => (htext j hread).of_mem_parts) hinside
  refine castReturns_of_throws ⟨n, fun fuel hfuel h stack => ?_⟩
  obtain ⟨h', key, t, hthrows⟩ := hn fuel hfuel text hread h stack
  exact ⟨_, _, hthrows⟩

theorem castReturns_boolean : CastReturns J .boolean text fun results =>
    ∃ v, v = .boolean (text = "true") ∧ results = [v, .nil] := by
  refine castReturns_of_returns ⟨1, fun fuel hfuel h stack => ?_⟩
  obtain ⟨fuel, rfl⟩ := Nat.exists_eq_add_of_le' hfuel
  exact ⟨h, _, rfl, rfl⟩

theorem castReturns_table_or_error
    (htext : ∀ j, J.fromString text = .ok j → j.All (NullOrReadable J)) :
    (IsTableText J text ∧ ¬ NullInside J text ∧ CastReturns J .table text fun results =>
      ∃ v, (∃ t, v = .table t) ∧ results = [v, .nil]) ∨
    ((IsTableText J text → NullInside J text) ∧ CastReturns J .table text fun results =>
      ∃ what, results = [.nil, .string what]) := by
  by_cases htable : IsTableText J text
  · by_cases hnull : NullInside J text
    · exact .inr ⟨fun _ => hnull, castReturns_null hnull htext⟩
    · obtain ⟨j, hread, hj⟩ := id htable
      have hall : j.All (· ≠ .null) := by
        rw [Json.all_iff]
        refine ⟨fun heq => (heq ▸ hj : Json.null.IsTable), fun part hmem => ?_⟩
        by_contra hpart
        exact hnull ⟨j, hread, part, hmem, hpart⟩
      exact .inl ⟨htable, hnull, castReturns_table hread hj (readable_of_all (htext j hread) hall)⟩
  · exact .inr ⟨fun h => absurd h htable, castReturns_not_table htable⟩

theorem isTableText_of_nullInside (hnull : NullInside J text) : IsTableText J text := by
  obtain ⟨j, hread, part, hmem, -⟩ := hnull
  exact ⟨j, hread, Json.isTable_of_mem_parts hmem⟩

theorem acceptsExactly_table_iff
    (htext : ∀ j, J.fromString text = .ok j → j.All (NullOrReadable J)) :
    AcceptsExactly J .table text (IsTableText J text) (fun v => ∃ t, v = .table t) ↔
      ¬ NullInside J text := by
  obtain ⟨htable, hnone, hvalue⟩ | ⟨hnull, herror⟩ := castReturns_table_or_error htext
  · exact (acceptsExactly_iff_of_value hvalue).trans (iff_of_true htable hnone)
  · exact (acceptsExactly_iff_of_error herror).trans
      (not_congr ⟨hnull, isTableText_of_nullInside⟩)

theorem castReturns_two (htext : ∀ j, J.fromString text = .ok j → j.All (NullOrReadable J)) :
    CastReturns J .boolean text (·.length = 2) ∧ CastReturns J .table text (·.length = 2) := by
  refine ⟨castReturns_boolean.mono ?_, ?_⟩
  · rintro _ ⟨v, -, rfl⟩
    rfl
  · obtain ⟨-, -, hvalue⟩ | ⟨-, herror⟩ := castReturns_table_or_error htext
    · refine hvalue.mono ?_
      rintro _ ⟨v, -, rfl⟩
      rfl
    · refine herror.mono ?_
      rintro _ ⟨what, rfl⟩
      rfl

/-- `as_boolean` is exact for the two words and for no other text, `as_table` for every text
but that of a table with a null inside; both always return two values. -/
theorem casts_accept_exactly_iff
    (htext : ∀ j, J.fromString text = .ok j → j.All (NullOrReadable J)) :
    (AcceptsExactly J .boolean text (text = "true" ∨ text = "false")
      (fun v => v = .boolean (text = "true")) ↔ text = "true" ∨ text = "false") ∧
    (AcceptsExactly J .table text (IsTableText J text) (fun v => ∃ t, v = .table t) ↔
      ¬ NullInside J text) ∧
    CastReturns J .boolean text (·.length = 2) ∧ CastReturns J .table text (·.length = 2) :=
  ⟨acceptsExactly_iff_of_value castReturns_boolean, acceptsExactly_table_iff htext,
    castReturns_two htext⟩

theorem number_cast_as_boolean_and_table :
    ¬ AcceptsExactly valueLibrary .boolean "18.5" ("18.5" = "true" ∨ "18.5" = "false")
      (fun v => v = .boolean ("18.5" = "true")) ∧
    AcceptsExactly valueLibrary .table "18.5" (IsTableText valueLibrary "18.5")
      (fun v => ∃ t, v = .table t) := by
  obtain ⟨hboolean, htable, -⟩ := casts_accept_exactly_iff age_nullOrReadable
  refine ⟨fun hexactly => absurd (hboolean.mp hexactly) (by decide), htable.mpr ?_⟩
  rintro ⟨j, hread, part, hmem, -⟩
  obtain rfl : .number age = j := Except.ok.inj hread
  exact nomatch hmem

theorem number_is_false_and_null_is_no_table :
    (Returns (StorageResult.castResults valueLibrary 1 (stored "18.5") .boolean)
        (on [] [.nil, .nil]) [.boolean false, .nil] (on [] [.nil, .boolean false]) ∧
      ¬ AcceptsExactly valueLibrary .boolean "18.5" ("18.5" = "true" ∨ "18.5" = "false")
        (fun v => v = .boolean ("18.5" = "true"))) ∧
    IsTableText valueLibrary "[null]" ∧
      ¬ AcceptsExactly valueLibrary .table "[null]" (IsTableText valueLibrary "[null]")
        (fun v => ∃ t, v = .table t) := by
  have hnull : CastReturns valueLibrary .table "[null]" fun results =>
      ∃ what, results = [.nil, .string what] :=
    castReturns_of_throws ⟨2, fun fuel hfuel h stack => by
      obtain ⟨fuel, rfl⟩ := Nat.exists_eq_add_of_le' hfuel
      exact ⟨_, _, rfl⟩⟩
  have htext : IsTableText valueLibrary "[null]" := ⟨.array [.null], rfl, trivial⟩
  refine ⟨⟨rfl, fun hexactly => ?_⟩, htext, fun hexactly => ?_⟩
  · exact absurd ((acceptsExactly_iff_of_value castReturns_boolean).mp hexactly) (by decide)
  · exact (acceptsExactly_iff_of_error hnull).mp hexactly htext

end LambdaExecutor.Kv
