import LambdaExecutor.Http.Containment
import LambdaExecutor.Kv.ReadableBack
import LambdaExecutor.Kv.ScriptedMethods

/-!
# Failures of the script API

A method that a script calls ends with its results or raises an error of Lua, which
the script can catch. Only `storage:store` of a value that cannot be serialized, some
requests of `client:send` and script code that a method runs end the run instead, or
never end.
-/

namespace LambdaExecutor.Engine

open Raii Raii.Code Formats Lua Lua.Deserializer Kv Http Emplace
open Serializer (on returns_ofLibrary throws_ofLibrary)
open ClientMethod (IsText isText_cases stringForm Reply SendFits endsAs_convertMethod
  endsAs_convertTop returns_getTop exists_four smallHttp emplaces_emplaceUpTo
  digit)

variable {J : JsonLibrary} {h : Heap} {limit : Nat} {numberText : Number → String} {m : Moment}

/-- With enough fuel the method leaves its results on the stack or raises an error of Lua. -/
def Contained {α : Type} (results : Nat) (method : Nat → ScriptedCode α) (m : Moment)
    (stack : List Value) : Prop :=
  Settles method (fun _ s => results ≤ s.1.stack.length) (fun thrown _ => Raised thrown)
    (m.on stack)

-- ---------------------------------------------------------------------------
-- The casts of a result
-- ---------------------------------------------------------------------------

def PushesOrThrows (c : LuaCode Unit) (h : Heap) (stack : List Value) : Prop :=
  (∃ h' w, Returns c (on h stack) () (on h' (w :: stack))) ∨
    ∃ e L, Throws c (on h stack) (.exception e) L

def FillsOrThrows (c : LuaCode Unit) (h : Heap) (stack : List Value) : Prop :=
  (∃ h', Returns c (on h stack) () (on h' stack)) ∨ ∃ e L, Throws c (on h stack) (.exception e) L

theorem PushesOrThrows.pushValue {fuel : Nat} {j : Json} {stack : List Value}
    (hj : j ≠ .null → PushesOrThrows (fromString J fuel (dataType j) (valueText J j)) h stack) :
    PushesOrThrows (pushValue (fromString J fuel) J j) h stack := by
  by_cases hnull : j = .null
  · subst hnull
    exact .inr ⟨_, _, rfl⟩
  · obtain ⟨h', w, hr⟩ | ⟨e, L, hthrows⟩ := hj hnull
    · exact .inl ⟨h', w, returns_pushValue hnull hr⟩
    · refine .inr ⟨e, { L with stack := L.stack.drop 2 }, ?_⟩
      exact ((returns_getType hnull _).bind_apply _).trans (hthrows.tryCatch_apply _)

theorem pushValue_ends {j : Json} (hj : j ≠ .null → ∃ n, ∀ fuel, n ≤ fuel → ∀ h stack,
      PushesOrThrows (fromString J fuel (dataType j) (valueText J j)) h stack) :
    ∃ n, ∀ fuel, n ≤ fuel → ∀ h stack,
      PushesOrThrows (pushValue (fromString J fuel) J j) h stack := by
  by_cases hnull : j = .null
  · exact ⟨0, fun _ _ _ _ => .pushValue fun hne => absurd hnull hne⟩
  · obtain ⟨n, hn⟩ := hj hnull
    exact ⟨n, fun fuel hfuel h stack => .pushValue fun _ => hn fuel hfuel h stack⟩

theorem FillsOrThrows.entry {value rest : LuaCode Unit} {k : Value} {t : TableRef}
    {stack : List Value} (hkey : k ≠ .nil) (hnan : k ≠ .number (.float .nan))
    (hvalue : PushesOrThrows value h (k :: .table t :: stack))
    (hrest : ∀ h', FillsOrThrows rest h' (.table t :: stack)) :
    FillsOrThrows (luaPush k >>= fun _ => value >>= fun _ => luaSetTable (-3) >>= fun _ => rest) h
      (.table t :: stack) := by
  have hpush : Returns (luaPush k) (on h (.table t :: stack)) ()
      (on h (k :: .table t :: stack)) := rfl
  obtain ⟨h₁, w, hr⟩ | ⟨e, L, hthrows⟩ := hvalue
  · have hset : Returns (luaSetTable (-3)) (on h₁ (w :: k :: .table t :: stack)) ()
        (on (h₁.rawset t k w) (.table t :: stack)) := returns_luaSetTable hkey hnan
    obtain ⟨h₂, hr'⟩ | ⟨e, L, hthrows⟩ := hrest (h₁.rawset t k w)
    · exact .inl ⟨h₂, hpush.bind (hr.bind (hset.bind hr'))⟩
    · refine .inr ⟨e, L, (hpush.bind_apply _).trans ((hr.bind_apply _).trans ?_)⟩
      exact (hset.bind_apply _).trans hthrows
  · exact .inr ⟨e, L, (hpush.bind_apply _).trans (hthrows.bind _)⟩

theorem fromString_table_ends {fuel : Nat} {text : String} {stack : List Value}
    (hitems : ∀ items, J.fromString text = .ok (.array items) → ∀ h t stack,
      FillsOrThrows (pushItems (fromString J fuel) J 1 items) h (.table t :: stack))
    (hmembers : ∀ members, J.fromString text = .ok (.object members) → ∀ h t stack,
      FillsOrThrows (pushMembers (fromString J fuel) J members) h (.table t :: stack)) :
    PushesOrThrows (fromString J (fuel + 1) .table text) h stack := by
  have hnew : Returns luaNewTable (on h stack) () (on (h ++ [[]]) (.table h.length :: stack)) := rfl
  cases hread : J.fromString text with
  | error e => exact .inr ⟨e, _, (throws_ofLibrary hread _).bind _⟩
  | ok json =>
    have hparsed := returns_ofLibrary hread (on h stack)
    cases json with
    | array items =>
      obtain ⟨h', hr⟩ | ⟨e, L, hthrows⟩ := hitems items hread (h ++ [[]]) h.length stack
      · exact .inl ⟨h', _, hparsed.bind (hnew.bind hr)⟩
      · exact .inr ⟨e, L, (hparsed.bind_apply _).trans ((hnew.bind_apply _).trans hthrows)⟩
    | object members =>
      obtain ⟨h', hr⟩ | ⟨e, L, hthrows⟩ := hmembers members hread (h ++ [[]]) h.length stack
      · exact .inl ⟨h', _, hparsed.bind (hnew.bind hr)⟩
      · exact .inr ⟨e, L, (hparsed.bind_apply _).trans ((hnew.bind_apply _).trans hthrows)⟩
    | null | bool b | number d | string s => exact .inr ⟨_, _, hparsed.bind_apply _⟩

theorem pushNumber_ends (text : String) (stack : List Value) :
    PushesOrThrows (pushNumber J text) h stack := by
  cases hcast : J.lexicalCast text with
  | ok d => exact .inl ⟨h, _, (returns_ofLibrary hcast _).bind rfl⟩
  | error e => exact .inr ⟨e, _, (throws_ofLibrary hcast _).bind _⟩

mutual
theorem fromString_ends : (j : Json) → j ≠ .null → j.All J.Rereads →
    ∃ n, ∀ fuel, n ≤ fuel → ∀ h stack,
      PushesOrThrows (fromString J fuel (dataType j) (valueText J j)) h stack
  | .null, hnull, _ => absurd rfl hnull
  | .bool b, _, _ => by
    refine enough_succ (n := 0) fun fuel _ h stack => ?_
    exact .inl ⟨h, .boolean (J.toString (.bool b) = "true"), rfl⟩
  | .number d, _, _ => by
    refine enough_succ (n := 0) fun fuel _ h stack => ?_
    exact pushNumber_ends _ stack
  | .string s, _, _ => by
    refine enough_succ (n := 0) fun fuel _ h stack => .inl ⟨h, .string (cString s), ?_⟩
    rfl
  | .array items, _, ⟨hread, hitems⟩ => by
    obtain ⟨n, hpush⟩ := pushItems_ends items hitems
    refine enough_succ (n := n) fun fuel hfuel h stack => ?_
    refine fromString_table_ends (fun items' hread' => ?_) fun members hread' => ?_
    · obtain hread | ⟨e, hread⟩ := hread
      · obtain rfl := Json.array.inj (Except.ok.inj (hread'.symm.trans hread))
        exact hpush fuel hfuel 1
      · exact nomatch hread'.symm.trans hread
    · obtain hread | ⟨e, hread⟩ := hread
      · exact nomatch Except.ok.inj (hread'.symm.trans hread)
      · exact nomatch hread'.symm.trans hread
  | .object members, _, ⟨hread, hmembers⟩ => by
    obtain ⟨n, hpush⟩ := pushMembers_ends members hmembers
    refine enough_succ (n := n) fun fuel hfuel h stack => ?_
    refine fromString_table_ends (fun items hread' => ?_) fun members' hread' => ?_
    · obtain hread | ⟨e, hread⟩ := hread
      · exact nomatch Except.ok.inj (hread'.symm.trans hread)
      · exact nomatch hread'.symm.trans hread
    · obtain hread | ⟨e, hread⟩ := hread
      · obtain rfl := Json.object.inj (Except.ok.inj (hread'.symm.trans hread))
        exact hpush fuel hfuel
      · exact nomatch hread'.symm.trans hread
theorem pushItems_ends : (items : List Json) → Json.AllItems J.Rereads items →
    ∃ n, ∀ fuel, n ≤ fuel → ∀ i h t stack,
      FillsOrThrows (pushItems (fromString J fuel) J i items) h (.table t :: stack)
  | [], _ => ⟨0, fun _ _ _ h _ _ => .inl ⟨h, rfl⟩⟩
  | item :: items, ⟨hitem, hitems⟩ => by
    obtain ⟨m, hloop⟩ := pushItems_ends items hitems
    obtain ⟨n, hvalue⟩ := pushValue_ends fun hnull => fromString_ends item hnull hitem
    refine ⟨max n m, fun fuel hfuel i h t stack => ?_⟩
    exact FillsOrThrows.entry (k := .number (.float (ofSize i))) nofun nofun
      (hvalue fuel (Nat.le_trans (Nat.le_max_left n m) hfuel) _ _)
      fun h' => hloop fuel (Nat.le_trans (Nat.le_max_right n m) hfuel) (i + 1) h' t stack
theorem pushMembers_ends : (members : List (String × Json)) →
    Json.AllMembers J.Rereads members → ∃ n, ∀ fuel, n ≤ fuel → ∀ h t stack,
      FillsOrThrows (pushMembers (fromString J fuel) J members) h (.table t :: stack)
  | [], _ => ⟨0, fun _ _ h _ _ => .inl ⟨h, rfl⟩⟩
  | (name, value) :: members, ⟨hjson, hmembers⟩ => by
    obtain ⟨m, hloop⟩ := pushMembers_ends members hmembers
    obtain ⟨n, hvalue⟩ := pushValue_ends fun hnull => fromString_ends value hnull hjson
    refine ⟨max n m, fun fuel hfuel h t stack => ?_⟩
    exact FillsOrThrows.entry (k := .string (cString name)) nofun nofun
      (hvalue fuel (Nat.le_trans (Nat.le_max_left n m) hfuel) _ _)
      fun h' => hloop fuel (Nat.le_trans (Nat.le_max_right n m) hfuel) h' t stack
end

/-- The texts which a cast to the type takes. -/
def Castable (J : JsonLibrary) : DataType → String → Prop
  | .string, _ | .boolean, _ => True
  | .number, text => ∃ d, J.lexicalCast text = .ok d
  | .table, text => ∃ j, J.fromString text = .ok j ∧ j.IsTable ∧
      ∀ part ∈ j.parts, part.All (Readable J)

theorem castable_of_returns {type : DataType} {text : String} {fuel : Nat} {L L' : LuaState}
    (hrereads : ∀ text j, J.fromString text = .ok j → j.All J.Rereads)
    (hr : Returns (fromString J fuel type text) L () L') : Castable J type text := by
  cases type with
  | string | boolean => trivial
  | number =>
    cases fuel with
    | zero => exact nomatch hr
    | succ fuel =>
      obtain ⟨d, L₁, hcast, -⟩ := hr.of_bind
      exact ⟨d, (Serializer.of_returns_ofLibrary hcast).1⟩
  | table =>
    obtain ⟨fuel, L, ⟨items, hread, hpush⟩ | ⟨members, hread, hpush⟩⟩ := of_returns_pushTable hr
    · have hall : (Json.array items).All J.Rereads := hrereads text _ hread
      exact ⟨_, hread, trivial,
        Json.allItems_iff.mp (readable_of_returns_pushItems items hall.2 hpush)⟩
    · have hall : (Json.object members).All J.Rereads := hrereads text _ hread
      exact ⟨_, hread, trivial,
        Json.allMembers_iff.mp (readable_of_returns_pushMembers members hall.2 hpush)⟩

theorem returns_of_castable {type : DataType} {text : String} (hcast : Castable J type text) :
    ∃ n, ∀ fuel, n ≤ fuel → ∀ h stack, ∃ h' w,
      Returns (fromString J fuel type text) (on h stack) () (on h' (w :: stack)) := by
  cases type with
  | string =>
    refine enough_succ (n := 0) fun fuel _ h stack => ⟨h, .string (cString text), ?_⟩
    rfl
  | boolean =>
    refine enough_succ (n := 0) fun fuel _ h stack => ⟨h, .boolean (text = "true"), ?_⟩
    rfl
  | number =>
    obtain ⟨d, hd⟩ := hcast
    refine enough_succ (n := 0) fun fuel _ h stack => ⟨h, .number (.float d), ?_⟩
    exact (returns_ofLibrary hd _).bind rfl
  | table =>
    obtain ⟨j, hread, htable, hparts⟩ := hcast
    cases j with
    | array items =>
      obtain ⟨n, hn⟩ := returns_pushItems_of_readable items (Json.allItems_iff.mpr hparts)
      refine enough_succ (n := n) fun fuel hfuel h stack => ?_
      obtain ⟨h', hr⟩ := hn fuel hfuel 1 (h ++ [[]]) h.length stack
      exact ⟨h', .table h.length, (returns_ofLibrary hread _).bind (Returns.bind rfl hr)⟩
    | object members =>
      obtain ⟨n, hn⟩ := returns_pushMembers_of_readable members (Json.allMembers_iff.mpr hparts)
      refine enough_succ (n := n) fun fuel hfuel h stack => ?_
      obtain ⟨h', hr⟩ := hn fuel hfuel (h ++ [[]]) h.length stack
      exact ⟨h', .table h.length, (returns_ofLibrary hread _).bind (Returns.bind rfl hr)⟩
    | null | bool b | number d | string s => exact htable.elim

theorem fromString_text_ends (hrereads : ∀ text j, J.fromString text = .ok j → j.All J.Rereads)
    (type : DataType) (text : String) : ∃ n, ∀ fuel, n ≤ fuel → ∀ h stack,
      PushesOrThrows (fromString J fuel type text) h stack := by
  cases type with
  | string =>
    have hcast : Castable J .string text := trivial
    obtain ⟨n, hn⟩ := returns_of_castable hcast
    exact ⟨n, fun fuel hfuel h stack => .inl (hn fuel hfuel h stack)⟩
  | number =>
    refine enough_succ (n := 0) fun fuel _ h stack => ?_
    exact pushNumber_ends text stack
  | boolean =>
    have hcast : Castable J .boolean text := trivial
    obtain ⟨n, hn⟩ := returns_of_castable hcast
    exact ⟨n, fun fuel hfuel h stack => .inl (hn fuel hfuel h stack)⟩
  | table =>
    have hpush : ∃ n, ∀ fuel, n ≤ fuel →
        (∀ items, J.fromString text = .ok (.array items) → ∀ h t stack,
          FillsOrThrows (pushItems (fromString J fuel) J 1 items) h (.table t :: stack)) ∧
        ∀ members, J.fromString text = .ok (.object members) → ∀ h t stack,
          FillsOrThrows (pushMembers (fromString J fuel) J members) h (.table t :: stack) := by
      cases hread : J.fromString text with
      | error e => exact ⟨0, fun _ _ => ⟨nofun, nofun⟩⟩
      | ok json =>
        have hall := hrereads text json hread
        cases json with
        | array items =>
          obtain ⟨n, hn⟩ := pushItems_ends items hall.2
          refine ⟨n, fun fuel hfuel => ⟨?_, nofun⟩⟩
          rintro _ ⟨⟩
          exact hn fuel hfuel 1
        | object members =>
          obtain ⟨n, hn⟩ := pushMembers_ends members hall.2
          refine ⟨n, fun fuel hfuel => ⟨nofun, ?_⟩⟩
          rintro _ ⟨⟩
          exact hn fuel hfuel
        | null | bool b | number d | string s => exact ⟨0, fun _ _ => ⟨nofun, nofun⟩⟩
    obtain ⟨n, hn⟩ := hpush
    refine enough_succ (n := n) fun fuel hfuel h stack => ?_
    obtain ⟨hitems, hmembers⟩ := hn fuel hfuel
    exact fromString_table_ends hitems hmembers

theorem fromString_cast (hrereads : ∀ text j, J.fromString text = .ok j → j.All J.Rereads)
    (type : DataType) (text : String) : ∃ n, ∀ fuel, n ≤ fuel → ∀ h stack,
      (Castable J type text ∧ ∃ h' w,
        Returns (fromString J fuel type text) (on h stack) () (on h' (w :: stack))) ∨
      (¬ Castable J type text ∧ ∃ e L,
        Throws (fromString J fuel type text) (on h stack) (.exception e) L) := by
  obtain ⟨n, hn⟩ := fromString_text_ends hrereads type text
  by_cases hcast : Castable J type text
  · obtain ⟨k, hk⟩ := returns_of_castable hcast
    exact ⟨k, fun fuel hfuel h stack => .inl ⟨hcast, hk fuel hfuel h stack⟩⟩
  · refine ⟨n, fun fuel hfuel h stack => .inr ⟨hcast, ?_⟩⟩
    obtain ⟨h', w, hr⟩ | hthrows := hn fuel hfuel h stack
    · exact absurd (castable_of_returns hrereads hr) hcast
    · exact hthrows

def tellUncast : Thrown → ScriptedCode Unit
  | .exception e => onPrivate luaPushNil >>= fun _ => Lua.Scripted.luaPushString e.what
  | .luaError message => raise (.luaError message)

theorem wp_tellUncast (e : Exception) (L : LuaState) :
    wp (tellUncast (.exception e)) (fun _ s => 2 ≤ s.1.stack.length)
      (fun thrown _ => Raised thrown) (L, m.outcomes) ↔ m.Stays := by
  have hnil : Returns (onPrivate luaPushNil) (L, m.outcomes) ()
      ({ L with stack := .nil :: L.stack }, m.outcomes) := rfl
  rw [tellUncast, wp_bind]
  refine hnil.wp_iff.trans (wp_luaPushString_iff _ _ fun s hs => ?_)
  rw [hs]
  exact Nat.le_add_left 2 _

def CastFits (J : JsonLibrary) (result : StorageResult) (type : DataType) (m : Moment)
    (stack : List Value) : Prop :=
  if stack.length ≠ 2 ∨ result.isError then m.Stays
  else if Kv.Scripted.takesMemory J type result.value then
    match m.outcomes with
    | [] => True
    | outcome :: outcomes =>
      let later : Moment := { heap := outcome.heap, lawful := outcome.lawful, outcomes }
      match outcome.ending with
      | .returns _ => Castable J type result.value ∨ later.Stays
      | .raises _ => True
      | .throws _ => later.Stays
      | .never => False
  else Castable J type result.value ∨ m.Stays

section Cast

variable {type : DataType} {text : String} {fuel : Nat}

def pushCast (J : JsonLibrary) (fuel : Nat) (type : DataType) (text : String) : ScriptedCode Unit :=
  onPrivate (fromString J fuel type text) >>= fun _ => onPrivate luaPushNil

theorem wp_pushCast (hends : ∀ h stack,
      (Castable J type text ∧ ∃ h' w,
        Returns (fromString J fuel type text) (on h stack) () (on h' (w :: stack))) ∨
      (¬ Castable J type text ∧ ∃ e L,
        Throws (fromString J fuel type text) (on h stack) (.exception e) L)) (m : Moment) :
    wp (pushCast J fuel type text) (fun _ s => 2 ≤ s.1.stack.length)
      (fun thrown => wp (tellUncast thrown) (fun _ s => 2 ≤ s.1.stack.length)
        fun thrown _ => Raised thrown) (m.on []) ↔ Castable J type text ∨ m.Stays := by
  obtain ⟨hcast, h', w, hr⟩ | ⟨hcast, e, L, hthrows⟩ := hends m.heap []
  · have hpushed : Returns (pushCast J fuel type text) (m.on []) () (on h' [.nil, w], m.outcomes) :=
      (hr.onPrivate m.outcomes).bind rfl
    exact hpushed.wp_iff.trans (iff_of_true (Nat.le_refl 2) (.inl hcast))
  · have hthrows' : Throws (onPrivate (fromString J fuel type text)) (m.on []) (.exception e)
        (L, m.outcomes) := by
      unfold Throws onPrivate zoom Moment.on
      rw [hthrows]
      rfl
    refine (hthrows'.bind _).wp_iff.trans ((wp_tellUncast e L).trans ?_)
    exact (or_iff_right hcast).symm

theorem cast_apply {result : StorageResult} {stack : List Value} (hlength : stack.length = 2)
    (hok : result.isError = false) : Kv.Scripted.cast J fuel result type (m.on stack) =
      tryCatch (if Kv.Scripted.takesMemory J type result.value
          then scriptCode >>= fun _ => pushCast J fuel type result.value
          else pushCast J fuel type result.value) tellUncast (m.on []) := by
  have hclear : Returns (onPrivate luaClear) (m.on stack) () (m.on []) := rfl
  unfold Kv.Scripted.cast
  rw [(returns_getTop stack m).bind_apply, if_neg (by simp [hlength]), hclear.bind_apply,
    if_neg (by simp [hok])]
  refine congrFun (congrArg (tryCatch _) (funext fun thrown => ?_)) _
  cases thrown <;> rfl

theorem cast_contained_iff (hrereads : ∀ text j, J.fromString text = .ok j → j.All J.Rereads)
    (result : StorageResult) (type : DataType) (m : Moment) (stack : List Value) :
    Contained 2 (fun fuel => Kv.Scripted.cast J fuel result type) m stack ↔
      CastFits J result type m stack := by
  obtain ⟨n, hn⟩ := fromString_cast hrereads type result.value
  refine settles_iff ⟨n, fun fuel hfuel => ?_⟩
  have hpush := wp_pushCast (hn fuel hfuel)
  unfold CastFits
  by_cases hlength : stack.length = 2
  · cases hok : result.isError with
    | true =>
      have hclear : Returns (onPrivate luaClear) (m.on stack) () (m.on []) := rfl
      have hnil : Returns (onPrivate luaPushNil) (m.on []) () (m.on [.nil]) := rfl
      unfold Kv.Scripted.cast
      rw [wp_bind]
      refine (returns_getTop stack m).wp_iff.trans ?_
      rw [if_neg (by simp [hlength]), wp_bind]
      refine hclear.wp_iff.trans ?_
      rw [if_pos hok, wp_bind, if_pos (.inr rfl)]
      refine hnil.wp_iff.trans (wp_luaPushString_iff _ _ fun s hs => ?_)
      rw [hs]
      exact Nat.le_refl 2
    | false =>
      have hargs : ¬ (stack.length ≠ 2 ∨ false = true) := by simp [hlength]
      rw [wp_congr (cast_apply hlength hok), wp_tryCatch, if_neg hargs]
      by_cases hmemory : Kv.Scripted.takesMemory J type result.value
      · rw [if_pos hmemory, if_pos hmemory, wp_bind]
        obtain ⟨heap, lawful, outcomes⟩ := m
        cases outcomes with
        | nil => exact iff_of_true ((hpush ⟨heap, lawful, []⟩).mpr (.inr trivial)) trivial
        | cons outcome outcomes =>
          obtain ⟨heap', lawful', ending⟩ := outcome
          cases ending with
          | returns value => exact hpush ⟨heap', lawful', outcomes⟩
          | raises message => exact iff_of_true ⟨message, rfl⟩ trivial
          | throws e =>
            have htell : wp (tellUncast (.exception e)) (fun _ s => 2 ≤ s.1.stack.length)
                (fun thrown _ => Raised thrown) (on heap' [], outcomes) ↔ _ :=
              wp_tellUncast (m := ⟨heap', lawful', outcomes⟩) e (on heap' [])
            exact htell
          | never => exact Iff.rfl
      · rw [if_neg hmemory, if_neg hmemory]
        exact hpush m
  · have hcount : stack.length ≠ 2 := hlength
    rw [if_pos (.inl hcount), Kv.Scripted.cast, wp_bind]
    refine (returns_getTop stack m).wp_iff.trans ?_
    rw [if_pos hcount]
    exact wp_luaLError _ _ _

end Cast

-- ---------------------------------------------------------------------------
-- The storage
-- ---------------------------------------------------------------------------

variable {B : StorageBehaviour} {key v a b : Value} {stack : List Value}

def StoreFits (B : StorageBehaviour) (J : JsonLibrary) (numberText : Number → String)
    (projectId : Int64) (m : Moment) : List Value → Prop
  | [v, key, _, _] =>
    if IsText key then
      (m.convert key).Then fun _ m => Serializable m.heap v ∧ ∀ j, Encodes m.heap v j →
        (∃ e, B.store (toUnsigned projectId) (cString (stringForm numberText key)) (valueText J j) =
          .error e) → m.Stays
    else m.Stays
  | _ => m.Stays

def GetFits (m : Moment) : List Value → Prop
  | [key, _, _] => if IsText key then (m.convert key).Then fun _ m => m.Stays else m.Stays
  | _ => m.Stays

theorem wp_tellStored (stored : Except Failure Unit) (L : LuaState) :
    wp (Kv.Scripted.tellStored stored) (fun _ s => 1 ≤ s.1.stack.length)
        (fun thrown _ => Raised thrown) (L, m.outcomes) ↔ ((∃ e, stored = .error e) → m.Stays) := by
  have htell : ∀ text, wp (Lua.Scripted.luaPushString text) (fun _ s => 1 ≤ s.1.stack.length)
      (fun thrown _ => Raised thrown) (L, m.outcomes) ↔ m.Stays := by
    refine fun text => wp_luaPushString_iff text L fun s hs => ?_
    rw [hs]
    exact Nat.le_add_left 1 _
  cases stored with
  | ok stored => exact iff_of_true (Nat.le_add_left 1 L.stack.length) nofun
  | error e =>
    rw [imp_iff_right ⟨e, rfl⟩]
    cases e with
    | exception what => exact htell what
    | unknown => exact htell _

def storeFrom (B : StorageBehaviour) (J : JsonLibrary) (fuel : Nat) (projectId : Int64)
    (key : String) : ScriptedCode Unit :=
  onPrivate (Serializer.toString J fuel none) >>= fun value => onPrivate luaClear >>= fun _ =>
    Kv.Scripted.tellStored (B.store (toUnsigned projectId) key value)

theorem storeFrom_settles_iff (hJ : J.Strict) (projectId : Int64) (key : String) (m : Moment) :
    Settles (fun fuel => storeFrom B J fuel projectId key) (fun _ s => 1 ≤ s.1.stack.length)
        (fun thrown _ => Raised thrown) (m.on (v :: stack)) ↔
      Serializable m.heap v ∧ ∀ j, Encodes m.heap v j →
        (∃ e, B.store (toUnsigned projectId) key (valueText J j) = .error e) → m.Stays := by
  by_cases hv : Serializable m.heap v
  · obtain ⟨j, hj⟩ := hv.exists_encodes
    obtain ⟨n, hn⟩ := Serializer.valueOf_of_encodes hJ m.lawful j hj
    have htext : ∀ fuel, n ≤ fuel → Returns (onPrivate (Serializer.toString J fuel none))
        (m.on (v :: stack)) (valueText J j) (m.on (v :: stack)) := by
      intro fuel hfuel
      have hr : Returns (Serializer.toString J fuel none) (on m.heap (v :: stack)) (valueText J j)
          (on m.heap (v :: stack)) :=
        Serializer.returns_toString_iff.mpr ⟨j, hn fuel hfuel, rfl, rfl⟩
      exact hr.onPrivate m.outcomes
    have hclear : Returns (onPrivate luaClear) (m.on (v :: stack)) () (m.on []) := rfl
    unfold storeFrom
    refine (settles_bind_of_returns ⟨n, htext⟩).trans ?_
    refine (settles_bind_of_returns ⟨0, fun _ _ => hclear⟩).trans ?_
    refine Iff.trans (settles_iff ⟨0, fun _ _ => wp_tellStored _ (on m.heap [])⟩) ?_
    refine ⟨fun h => ⟨hv, fun j' hj' => ?_⟩, fun h => h.2 j hj⟩
    obtain ⟨k, hk⟩ := Serializer.valueOf_of_encodes hJ m.lawful j' hj'
    have hsame := (hn _ (Nat.le_max_left n k)).symm.trans (hk _ (Nat.le_max_right n k))
    cases hsame
    exact h
  · refine iff_of_false (fun hsettles => hv ?_) fun h => hv h.1
    refine (Serializer.settles_toString_raised_iff hJ m.lawful stack).mp ?_
    obtain ⟨n, hn⟩ := hsettles.first
    exact ⟨n, fun fuel hfuel => (congrFun (wp_zoom _ _ _ _ _) _).mp (hn fuel hfuel)⟩

theorem store_contained_iff (hJ : J.Strict) (method : StoreMethod) (m : Moment)
    (stack : List Value) :
    Contained 1 (fun fuel => Kv.Scripted.store B J fuel numberText method) m stack ↔
      StoreFits B J numberText method.projectId m stack := by
  unfold StoreFits
  split
  · next v key a b =>
    have hcount : ∀ fuel, Kv.Scripted.store B J fuel numberText method (m.on [v, key, a, b]) =
        (onPrivate (luaIsString 3) >>= fun isString => if ¬ isString
          then Lua.Scripted.luaLError "Expected a string type of 'key'"
          else Lua.Scripted.luaConvertToString numberText 3 >>=
            storeFrom B J fuel method.projectId) (m.on [v, key, a, b]) := fun _ => rfl
    have hisString : Returns (onPrivate (luaIsString 3)) (m.on [v, key, a, b])
        (decide (IsText key)) (m.on [v, key, a, b]) := ClientMethod.returns_isString rfl
    refine (settles_congr hcount).trans ?_
    refine (settles_bind_of_returns ⟨0, fun _ _ => hisString⟩).trans ?_
    by_cases hkey : IsText key
    · rw [if_pos hkey]
      refine (settles_congr fun _ => congrFun (if_neg (by simpa using hkey)) _).trans ?_
      have hconvert : EndsAs (Lua.Scripted.luaConvertToString numberText 3) (m.on [v, key, a, b])
          (fun _ m => (cString (stringForm numberText key),
            m.on [v, .string (stringForm numberText key), a, b])) (m.convert key) :=
        endsAs_convertMethod (show ([] : List Value).length ≤ 1 by simp) hkey
      refine (hconvert.settles_bind _ _).trans (Ran.then_congr fun _ m => ?_)
      exact storeFrom_settles_iff hJ _ _ m
    · rw [if_neg hkey]
      refine (settles_congr fun _ => congrFun (if_pos (by simpa using hkey)) _).trans ?_
      exact settles_iff ⟨0, fun _ _ => wp_luaLError _ _ _⟩
  · next hfour =>
    have hcount : stack.length ≠ 4 := by
      intro hlength
      obtain ⟨v, key, a, b, rfl⟩ := exists_four hlength
      exact hfour v key a b rfl
    refine settles_iff ⟨0, fun fuel _ => ?_⟩
    rw [Kv.Scripted.store, wp_bind]
    refine (returns_getTop stack m).wp_iff.trans ?_
    rw [if_pos hcount]
    exact wp_luaLError _ _ _

def getFrom (B : StorageBehaviour) (projectId : Int64) (key : String) :
    ScriptedCode StorageResult :=
  onPrivate luaClear >>= fun _ => scriptCode >>= fun _ =>
    onPrivate (luaPush (.userdata "StorageResult")) >>= fun _ =>
      pure (fetched (B.get (toUnsigned projectId) key)).result

theorem wp_getFrom (projectId : Int64) (key : String) (m : Moment) (stack : List Value) :
    wp (getFrom B projectId key) (fun _ s => 1 ≤ s.1.stack.length) (fun thrown _ => Raised thrown)
      (m.on stack) ↔ m.Stays := by
  have hclear : Returns (onPrivate luaClear) (m.on stack) () (m.on []) := rfl
  rw [getFrom, wp_bind]
  refine hclear.wp_iff.trans ?_
  rw [wp_bind]
  exact wp_scriptCode_iff _ fun _ s _ => Nat.le_add_left 1 s.1.stack.length

theorem get_contained_iff (method : GetMethod) (m : Moment) (stack : List Value) :
    Contained 1 (fun _ => Kv.Scripted.get B numberText method) m stack ↔ GetFits m stack := by
  unfold GetFits
  split
  · next key a b =>
    have hcount : ∀ fuel : Nat, Kv.Scripted.get B numberText method (m.on [key, a, b]) =
        (onPrivate (luaIsString 3) >>= fun isString => if ¬ isString
          then Lua.Scripted.luaLError "Expected a string type of 'key'"
          else Lua.Scripted.luaConvertToString numberText (-1) >>= getFrom B method.projectId)
          (m.on [key, a, b]) := fun _ => rfl
    have hisString : Returns (onPrivate (luaIsString 3)) (m.on [key, a, b])
        (decide (IsText key)) (m.on [key, a, b]) := ClientMethod.returns_isString rfl
    have hgot : ∀ (text : String) (m : Moment), Settles (fun _ => getFrom B method.projectId text)
        (fun _ s => 1 ≤ s.1.stack.length) (fun thrown _ => Raised thrown)
        (m.on [.string (stringForm numberText key), a, b]) ↔ m.Stays :=
      fun text m => settles_iff ⟨0, fun _ _ => wp_getFrom method.projectId text m _⟩
    refine (settles_congr hcount).trans ?_
    refine (settles_bind_of_returns ⟨0, fun _ _ => hisString⟩).trans ?_
    by_cases hkey : IsText key
    · rw [if_pos hkey]
      refine (settles_congr fun _ => congrFun (if_neg (by simpa using hkey)) _).trans ?_
      refine ((endsAs_convertTop hkey).settles_bind _ _).trans (Ran.then_congr fun _ m => ?_)
      exact hgot _ m
    · rw [if_neg hkey]
      refine (settles_congr fun _ => congrFun (if_pos (by simpa using hkey)) _).trans ?_
      exact settles_iff ⟨0, fun _ _ => wp_luaLError _ _ _⟩
  · next hthree =>
    have hcount : stack.length ≠ 3 := by
      intro hlength
      obtain ⟨key, a, b, rfl⟩ := List.length_eq_three.mp hlength
      exact hthree key a b rfl
    refine settles_iff ⟨0, fun fuel _ => ?_⟩
    rw [Kv.Scripted.get, wp_bind]
    refine (returns_getTop stack m).wp_iff.trans ?_
    rw [if_pos hcount]
    exact wp_luaLError _ _ _

-- ---------------------------------------------------------------------------
-- All methods
-- ---------------------------------------------------------------------------

/-- The methods of the API stay inside Lua exactly where their arguments, and the script code
that they run, fit. -/
theorem script_api_contained_iff {H : HttpLibrary} (hJ : J.Strict)
    (hrereads : ∀ text j, J.fromString text = .ok j → j.All J.Rereads)
    (hheaders : Emplaces foldCase (some limit) H.emplaceHeader) (numberText : Number → String)
    (storage : Storage) (B : StorageBehaviour) (result : StorageResult) (type : DataType)
    (send : Request → Except Exception Reply) (m : Moment) (stack : List Value) :
    (Contained 1 (fun fuel => Kv.Scripted.store B J fuel numberText storage.storeMethod) m stack ↔
      StoreFits B J numberText storage.storeMethod.projectId m stack) ∧
    (Contained 1 (fun _ => Kv.Scripted.get B numberText storage.getMethod) m stack ↔
      GetFits m stack) ∧
    (Contained 2 (fun fuel => Kv.Scripted.cast J fuel result type) m stack ↔
      CastFits J result type m stack) ∧
    (Contained 2 (fun fuel => ClientMethod.Scripted.execute H J fuel numberText send) m stack ↔
      SendFits H limit numberText m stack) :=
  ⟨store_contained_iff hJ storage.storeMethod m stack,
    get_contained_iff storage.getMethod m stack, cast_contained_iff hrereads result type m stack,
    ClientMethod.contains_iff hJ hheaders stack⟩

theorem textLibrary_rereads (text : String) (j : Json)
    (hread : textLibrary.fromString text = .ok j) : j.All textLibrary.Rereads := by
  have hflags : flags.All textLibrary.Rereads := by
    refine ⟨.inl ?_, trivial, trivial, trivial⟩
    simp [textLibrary, flags]
  have hperson : person.All textLibrary.Rereads := by
    refine ⟨.inl ?_, trivial, hflags, trivial⟩
    simp [textLibrary, personText, flagsText, person]
  simp only [textLibrary] at hread
  split at hread
  · obtain rfl := Except.ok.inj hread
    exact hflags
  · split at hread
    · obtain rfl := Except.ok.inj hread
      exact hperson
    · cases hread

def quiet : Moment := { heap := [], lawful := by decide, outcomes := [] }

/-- The next script code that runs throws, as the method `send` does for an unknown method. -/
def throwing : Moment :=
  { quiet with outcomes := [⟨[], by decide, .throws (.stdException "unknown method")⟩] }

def emptyStorage : StorageBehaviour := Kv.Scripted.overTable acceptAll ∅

def getUsers : List Value :=
  [.string "http://users", .string "GET", .userdata "object", .userdata "method"]

/-- Without script code the methods keep these arguments inside Lua. A get does not where a
finalizer throws. -/
theorem getUsers_contained :
    Contained 1 (fun fuel => Kv.Scripted.store emptyStorage textLibrary fuel digit
      (Storage.new 1).storeMethod) quiet getUsers ∧
    Contained 2 (fun fuel => ClientMethod.Scripted.execute smallHttp textLibrary fuel digit
      fun _ => .error (.stdException "Timeout")) quiet getUsers ∧
    ¬ Contained 1 (fun _ => Kv.Scripted.get emptyStorage digit (Storage.new 1).getMethod)
      throwing [.string "k", .userdata "object", .userdata "method"] := by
  obtain ⟨hstore, -, -, hsend⟩ := script_api_contained_iff (H := smallHttp) textLibrary_strict
    textLibrary_rereads (emplaces_emplaceUpTo 2) digit (Storage.new 1) emptyStorage
    ⟨"", false⟩ .string (fun _ => .error (.stdException "Timeout")) quiet getUsers
  obtain ⟨-, hget, -⟩ := script_api_contained_iff (H := smallHttp) textLibrary_strict
    textLibrary_rereads (emplaces_emplaceUpTo 2) digit (Storage.new 1) emptyStorage
    ⟨"", false⟩ .string (fun _ => .error (.stdException "Timeout")) throwing
    [.string "k", .userdata "object", .userdata "method"]
  have hfits : StoreFits emptyStorage textLibrary digit 1 quiet getUsers :=
    ⟨.string "http://users", fun _ _ _ => trivial⟩
  exact ⟨hstore.mpr hfits, hsend.mpr ⟨⟨"GET", rfl⟩, trivial⟩, hget.mp⟩

def storePrint : List Value :=
  [.function "_G" "print", .string "k", .userdata "object", .userdata "method"]

/-- The C++ exception of the serializer leaves the method. -/
theorem store_print_not_contained :
    (∀ fuel, Throws (Kv.Scripted.store emptyStorage textLibrary (fuel + 1) digit
        (Storage.new 1).storeMethod) (quiet.on storePrint)
      (.exception (.stdException (Serializer.typeError .function))) (quiet.on storePrint)) ∧
    ¬ Contained 1 (fun fuel => Kv.Scripted.store emptyStorage textLibrary fuel digit
      (Storage.new 1).storeMethod) quiet storePrint := by
  refine ⟨fun fuel => rfl, fun hcontained => ?_⟩
  have hfits : StoreFits emptyStorage textLibrary digit 1 quiet storePrint :=
    (store_contained_iff textLibrary_strict (Storage.new 1).storeMethod quiet storePrint).mp
      hcontained
  cases hfits.1

end LambdaExecutor.Engine
