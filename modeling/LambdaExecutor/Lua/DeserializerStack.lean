import LambdaExecutor.Lua.Readable
import LambdaExecutor.Lua.RoundTrip

/-!
# What a failed deserialization leaves on the stack

`PushValue` takes the table and the key of its caller off the stack when the value
cannot be pushed, and so does every `PushValue` around it. For a null it throws before it
is ready to: then the innermost of them takes nothing, and the key and the table of
the outermost stay.
-/

namespace LambdaExecutor.Lua.Deserializer

open Raii Raii.Code Formats Serializer

-- ---------------------------------------------------------------------------
-- The entries of a table
-- ---------------------------------------------------------------------------

/-- The loops of `PushTable`, over the keys and the values. -/
def pushEntries (fromString : DataType → String → LuaCode Unit) (J : JsonLibrary) :
    List (Value × Json) → LuaCode Unit
  | [] => pure ()
  | (key, value) :: entries => do
    luaPush key
    pushValue fromString J value
    luaSetTable (-3)
    pushEntries fromString J entries

def numbered (i : UInt64) : List Json → List (Value × Json)
  | [] => []
  | item :: items => (.number (.float (ofSize i)), item) :: numbered (i + 1) items

def entriesOf : Json → List (Value × Json)
  | .array items => numbered 1 items
  | .object members => members.map fun member => (.string (cString member.1), member.2)
  | _ => []

section Entries

variable {f : DataType → String → LuaCode Unit} {J : JsonLibrary}

theorem pushItems_eq (i : UInt64) (items : List Json) :
    pushItems f J i items = pushEntries f J (numbered i items) := by
  induction items generalizing i with
  | nil => rfl
  | cons item items ih =>
    rw [pushItems, ih]
    rfl

theorem pushMembers_eq (members : List (String × Json)) :
    pushMembers f J members = pushEntries f J (entriesOf (.object members)) := by
  induction members with
  | nil => rfl
  | cons member members ih =>
    obtain ⟨name, value⟩ := member
    rw [pushMembers, ih]
    rfl

end Entries

theorem map_snd_numbered (i : UInt64) (items : List Json) :
    (numbered i items).map Prod.snd = items := by
  induction items generalizing i with
  | nil => rfl
  | cons item items ih => exact congrArg (item :: ·) (ih (i + 1))

theorem map_snd_entriesOf (j : Json) : (entriesOf j).map Prod.snd = j.parts := by
  cases j with
  | array items => exact map_snd_numbered 1 items
  | object members => simp [entriesOf, Json.parts]
  | _ => rfl

def IsSettable (key : Value) : Prop := key ≠ .nil ∧ key ≠ .number (.float .nan)

theorem isSettable_of_mem_numbered {i : UInt64} {items : List Json} {entry : Value × Json}
    (hmem : entry ∈ numbered i items) : IsSettable entry.1 := by
  induction items generalizing i with
  | nil => exact nomatch hmem
  | cons item items ih =>
    obtain rfl | hmem := List.mem_cons.mp hmem
    · exact ⟨nofun, nofun⟩
    · exact ih hmem

theorem isSettable_of_mem {j : Json} {entry : Value × Json} (hmem : entry ∈ entriesOf j) :
    IsSettable entry.1 := by
  cases j with
  | array items => exact isSettable_of_mem_numbered hmem
  | object members =>
    obtain ⟨member, -, rfl⟩ := List.mem_map.mp hmem
    exact ⟨nofun, nofun⟩
  | _ => exact nomatch hmem

-- ---------------------------------------------------------------------------
-- However it ends
-- ---------------------------------------------------------------------------

variable {J : JsonLibrary} {f : DataType → String → LuaCode Unit} {h : Heap} {t : TableRef}
  {key : Value} {value j : Json} {entries : List (Value × Json)} {stack : List Value}
  {text : String} {type : DataType} {fuel : Nat} {null : Prop}

/-- The exception of `GetType`. -/
def unexpectedType : Thrown := .exception (.stdException "Unexpected json value type")

/-- Reading the text as a table comes to a null, if nothing stops it before. -/
inductive ComesToNull (J : JsonLibrary) : String → Prop
  | here {text : String} {j : Json} (hread : J.fromString text = .ok j)
      (hmem : Json.null ∈ j.parts) : ComesToNull J text
  | inside {text : String} {j part : Json} (hread : J.fromString text = .ok j)
      (hmem : part ∈ j.parts) (hpart : dataType part = .table)
      (hnull : ComesToNull J (valueText J part)) : ComesToNull J text

/-- A value has been pushed; tables that are not excepted are what they were. -/
def Done (h : Heap) (stack : List Value) (_ : Unit) (L : LuaState) : Prop :=
  (∃ w, L.stack = w :: stack) ∧ Extends (fun _ => False) h L.heap

/-- Code has failed, and left the stack as it was or, for a null, a table and a key more. -/
structure Failed (null : Prop) (excepted : TableRef → Prop) (h : Heap) (stack : List Value)
    (thrown : Thrown) (L : LuaState) : Prop where
  exception : ∃ e, thrown = .exception e
  heap : Extends excepted h L.heap
  stack : L.stack = stack ∨
    null ∧ thrown = unexpectedType ∧ ∃ key t, L.stack = key :: .table t :: stack

theorem Failed.mono {null' : Prop} {excepted excepted' : TableRef → Prop} {thrown : Thrown}
    {L : LuaState} (hfailed : Failed null excepted h stack thrown L) (hnull : null → null')
    (hsub : ∀ u, excepted u → excepted' u) : Failed null' excepted' h stack thrown L where
  exception := hfailed.exception
  heap := hfailed.heap.mono hsub
  stack := hfailed.stack.imp_right fun hleft => ⟨hnull hleft.1, hleft.2⟩

theorem Failed.after {excepted : TableRef → Prop} {h₁ : Heap} {thrown : Thrown} {L : LuaState}
    (hfailed : Failed null excepted h₁ stack thrown L) (he : Extends excepted h h₁) :
    Failed null excepted h stack thrown L where
  exception := hfailed.exception
  heap := he.trans hfailed.heap
  stack := hfailed.stack

theorem wlp_ofLibrary {α β : Type} {result : Except Exception α} {rest : α → LuaCode β}
    {Q : β → LuaState → Prop} {E : Thrown → LuaState → Prop} {L : LuaState} :
    wlp (ofLibrary result >>= rest) Q E L ↔
      (∀ a, result = .ok a → wlp (rest a) Q E L) ∧ ∀ e, result = .error e → E (.exception e) L := by
  rw [wlp_bind]
  cases result with
  | ok a => exact ⟨fun hrest => ⟨fun _ heq => Except.ok.inj heq ▸ hrest, nofun⟩, fun h => h.1 a rfl⟩
  | error e => exact ⟨fun he => ⟨nofun, fun _ heq => Except.error.inj heq ▸ he⟩, fun h => h.2 e rfl⟩

theorem wlp_pushValue
    (hf : value ≠ .null → wlp (f (dataType value) (valueText J value))
      (Done h (key :: .table t :: stack))
      (Failed null (fun _ => False) h (key :: .table t :: stack))
      (on h (key :: .table t :: stack))) :
    wlp (pushValue f J value) (Done h (key :: .table t :: stack))
      (Failed (value = .null ∨ null) (fun _ => False) h stack)
      (on h (key :: .table t :: stack)) := by
  by_cases hvalue : value = .null
  · subst hvalue
    exact ⟨⟨_, rfl⟩, .refl _ h, .inr ⟨.inl rfl, rfl, key, t, rfl⟩⟩
  · refine wlp_bind.mpr ((returns_getType hvalue _).wlp_iff.mpr (wlp_tryCatch.mpr ?_))
    refine wlp_mono (hf hvalue) (fun _ _ => id) fun thrown L hfailed => ?_
    obtain ⟨⟨e, rfl⟩, hheap, hstack⟩ := hfailed
    refine ⟨⟨e, rfl⟩, hheap, ?_⟩
    show L.stack.drop 2 = stack ∨ _ ∧ _ ∧ ∃ key t, L.stack.drop 2 = key :: .table t :: stack
    obtain hsame | ⟨hnull, hthrown, key', t', hleft⟩ := hstack
    · exact .inl (by rw [hsame]; rfl)
    · exact .inr ⟨.inr hnull, hthrown, key, t, by rw [hleft]; rfl⟩

theorem wlp_pushEntries (hkeys : ∀ entry ∈ entries, IsSettable entry.1)
    (hf : ∀ entry ∈ entries, entry.2 ≠ .null → ∀ h stack,
      wlp (f (dataType entry.2) (valueText J entry.2)) (Done h stack)
        (Failed null (fun _ => False) h stack) (on h stack))
    (hnull : ∀ entry ∈ entries, entry.2 = .null → null) (h : Heap) :
    wlp (pushEntries f J entries)
      (fun _ L => L.stack = .table t :: stack ∧ Extends (· = t) h L.heap)
      (Failed null (· = t) h stack) (on h (.table t :: stack)) := by
  induction entries generalizing h with
  | nil => exact ⟨rfl, .refl _ h⟩
  | cons entry entries ih =>
    obtain ⟨key, value⟩ := entry
    rw [List.forall_mem_cons] at hkeys hf hnull
    refine wlp_bind.mpr ?_
    show wlp _ _ _ (on h (key :: .table t :: stack))
    refine wlp_bind.mpr (wlp_mono (wlp_pushValue fun hne => hf.1 hne h _) ?_ ?_)
    · rintro ⟨⟩ ⟨_, h₁⟩ ⟨⟨w, rfl⟩, he⟩
      have hfilled : Extends (· = t) h (h₁.rawset t key w) :=
        (he.mono fun _ => False.elim).trans (extends_rawset h₁ t key w)
      refine wlp_bind.mpr ((returns_luaSetTable hkeys.1.1 hkeys.1.2).wlp_iff.mpr ?_)
      refine wlp_mono (ih hkeys.2 hf.2 hnull.2 (h₁.rawset t key w)) ?_ ?_
      · exact fun _ L hL => ⟨hL.1, hfilled.trans hL.2⟩
      · exact fun thrown L hfailed => hfailed.after hfilled
    · exact fun thrown L hfailed =>
        hfailed.mono (fun h => h.elim hnull.1 id) fun _ => False.elim

theorem wlp_fill (j : Json)
    (hf : ∀ part ∈ j.parts, part ≠ .null → ∀ h stack,
      wlp (f (dataType part) (valueText J part)) (Done h stack)
        (Failed null (fun _ => False) h stack) (on h stack))
    (hnull : .null ∈ j.parts → null) (h : Heap) :
    wlp (pushEntries f J (entriesOf j))
      (fun _ L => L.stack = .table t :: stack ∧ Extends (· = t) h L.heap)
      (Failed null (· = t) h stack) (on h (.table t :: stack)) := by
  have hmem : ∀ entry ∈ entriesOf j, entry.2 ∈ j.parts := fun entry hentry =>
    map_snd_entriesOf j ▸ List.mem_map_of_mem hentry
  exact wlp_pushEntries (fun _ => isSettable_of_mem) (fun entry hentry => hf _ (hmem entry hentry))
    (fun entry hentry heq => hnull (heq ▸ hmem entry hentry)) h

theorem wlp_pushTable
    (hf : ∀ j, J.fromString text = .ok j → ∀ part ∈ j.parts, part ≠ .null → ∀ h stack,
      wlp (f (dataType part) (valueText J part)) (Done h stack)
        (Failed null (fun _ => False) h stack) (on h stack))
    (hnull : ∀ j, J.fromString text = .ok j → .null ∈ j.parts → null) (h : Heap)
    (stack : List Value) : wlp (pushTable f J text) (Done h stack)
      (Failed null (fun _ => False) h stack) (on h stack) := by
  refine wlp_ofLibrary.mpr ⟨fun j hread => wlp_bind.mpr ?_, fun e _ => ?_⟩
  · show wlp _ _ _ (on (h ++ [[]]) (.table h.length :: stack))
    have hloop : wlp (pushEntries f J (entriesOf j)) (Done h stack)
        (Failed null (fun _ => False) h stack) (on (h ++ [[]]) (.table h.length :: stack)) := by
      refine wlp_mono (wlp_fill j (hf j hread) (hnull j hread) (h ++ [[]])) ?_ ?_
      · exact fun _ L hL => ⟨⟨_, hL.1⟩, hL.2.fromNewTable⟩
      · exact fun thrown L hfailed =>
          ⟨hfailed.exception, hfailed.heap.fromNewTable, hfailed.stack⟩
    cases j with
    | object members =>
      rw [← pushMembers_eq] at hloop
      exact hloop
    | array items =>
      change wlp (pushEntries f J (numbered 1 items)) _ _ _ at hloop
      rw [← pushItems_eq] at hloop
      exact hloop
    | null | bool b | number d | string s =>
      exact ⟨⟨_, rfl⟩, Extends.fromNewTable (.refl _ (h ++ [[]])), .inl rfl⟩
  · exact ⟨⟨e, rfl⟩, .refl _ h, .inl rfl⟩

/-- However the deserializer ends, it keeps the tables that were there, and it leaves a key and
a table only where it comes to a null. -/
theorem wlp_fromString (J : JsonLibrary) (fuel : Nat) (type : DataType) (text : String) (h : Heap)
    (stack : List Value) : wlp (fromString J fuel type text) (Done h stack)
      (Failed (type = .table ∧ ComesToNull J text) (fun _ => False) h stack) (on h stack) := by
  induction fuel generalizing type text h stack with
  | zero => trivial
  | succ fuel ih =>
    cases type with
    | string => exact ⟨⟨_, rfl⟩, .refl _ h⟩
    | boolean => exact ⟨⟨_, rfl⟩, .refl _ h⟩
    | number =>
      refine wlp_ofLibrary.mpr ⟨fun d _ => ⟨⟨_, rfl⟩, .refl _ h⟩, fun e _ => ?_⟩
      exact ⟨⟨e, rfl⟩, .refl _ h, .inl rfl⟩
    | table =>
      refine wlp_pushTable (fun j hread part hmem _ h stack => ?_) (fun j hread hmem => ?_) h stack
      · refine wlp_mono (ih (dataType part) (valueText J part) h stack) (fun _ _ => id) ?_
        exact fun thrown L hfailed =>
          hfailed.mono (fun hnull => ⟨rfl, .inside hread hmem hnull.1 hnull.2⟩) fun _ => id
      · exact ⟨rfl, .here hread hmem⟩

-- ---------------------------------------------------------------------------
-- Where it comes to a null
-- ---------------------------------------------------------------------------

def NullInside (J : JsonLibrary) (text : String) : Prop :=
  ∃ j, J.fromString text = .ok j ∧ ∃ part ∈ j.parts, ¬ part.All (· ≠ .null)

theorem exists_part_of_not_all (hj : j ≠ .null) (hnull : ¬ j.All (· ≠ .null)) :
    ∃ part ∈ j.parts, ¬ part.All (· ≠ .null) := by
  rw [Json.all_iff] at hnull
  simpa [hj] using hnull

theorem dataType_of_mem_parts {part : Json} (hmem : part ∈ j.parts) : dataType j = .table := by
  cases j with
  | null | array items | object members => rfl
  | bool b | number d | string s => exact nomatch hmem

theorem valueText_of_dataType (hj : dataType j = .table) : valueText J j = J.toString j := by
  cases j with
  | string s => cases hj
  | _ => rfl

theorem ComesToNull.nullInside (hnull : ComesToNull J text)
    (htext : ∀ j, J.fromString text = .ok j → j.All J.Rereads) : NullInside J text := by
  induction hnull with
  | here hread hmem => exact ⟨_, hread, _, hmem, fun hall => hall rfl⟩
  | @inside text j part hread hmem hpart _ ih =>
    have hrereads : part.All J.Rereads := (htext j hread).of_mem_parts hmem
    rw [valueText_of_dataType hpart] at ih
    have hsame : ∀ j', J.fromString (J.toString part) = .ok j' → part ≠ .null → j' = part := by
      intro j' hread' hne
      cases part with
      | null => exact absurd rfl hne
      | array items => exact of_rereads hrereads.1 hread'
      | object members => exact of_rereads hrereads.1 hread'
      | bool b | number d | string s => cases hpart
    refine ⟨j, hread, part, hmem, fun hall => ?_⟩
    have hne : part ≠ .null := (Json.all_iff.mp hall).1
    obtain ⟨j', hread', inner, hinner, hnull⟩ :=
      ih fun j' hread' => hsame j' hread' hne ▸ hrereads
    obtain rfl := hsame j' hread' hne
    exact hnull (hall.of_mem_parts hinner)

def NullOrReadable (J : JsonLibrary) (part : Json) : Prop := part ≠ .null → Readable J part

theorem NullOrReadable.rereads (hj : NullOrReadable J j) : J.Rereads j := by
  cases j with
  | array items => exact .inl (hj (by simp))
  | object members => exact .inl (hj (by simp))
  | _ => trivial

theorem readable_of_all (hj : j.All (NullOrReadable J)) (hnull : j.All (· ≠ .null)) :
    j.All (Readable J) :=
  Json.All.imp₂ (fun _ hreadable hne => hreadable hne) j hj hnull

theorem fromString_table (hread : J.fromString text = .ok j) (hparts : j.parts ≠ []) :
    fromString J (fuel + 1) .table text (on h stack) =
      pushEntries (fromString J fuel) J (entriesOf j)
        (on (h ++ [[]]) (.table h.length :: stack)) := by
  have hnew : Returns luaNewTable (on h stack) () (on (h ++ [[]]) (.table h.length :: stack)) := rfl
  refine ((returns_ofLibrary hread _).bind_apply _).trans ((hnew.bind_apply _).trans ?_)
  cases j with
  | array items => exact congrFun (pushItems_eq 1 items) _
  | object members => exact congrFun (pushMembers_eq members) _
  | null | bool b | number d | string s => exact absurd rfl hparts

/-- The code stops at a null, and leaves a key and a table above these values. -/
def StopsAtNull (c : LuaCode Unit) (L : LuaState) (stack : List Value) : Prop :=
  ∃ h key t, Throws c L unexpectedType (on h (key :: .table t :: stack))

theorem stopsAtNull_pushNull :
    StopsAtNull (pushValue f J .null) (on h (key :: .table t :: stack)) stack :=
  ⟨h, key, t, rfl⟩

/-- The catch block takes off what its own `PushTable` has pushed, not what is left above. -/
theorem stopsAtNull_pushValue (hvalue : value ≠ .null)
    (hstops : StopsAtNull (f (dataType value) (valueText J value))
      (on h (key :: .table t :: stack)) (key :: .table t :: stack)) :
    StopsAtNull (pushValue f J value) (on h (key :: .table t :: stack)) stack := by
  obtain ⟨h', key', t', hthrows⟩ := hstops
  refine ⟨h', key, t, ?_⟩
  exact ((returns_getType hvalue _).bind_apply _).trans (hthrows.tryCatch_apply _)

theorem stops_pushEntries {seen rest : List (Value × Json)}
    (hseen : ∀ entry ∈ seen, entry.2.All (Readable J))
    (hkeys : ∀ entry ∈ seen, IsSettable entry.1)
    (hvalue : ∃ n, ∀ fuel, n ≤ fuel → ∀ h t stack,
      StopsAtNull (pushValue (fromString J fuel) J value) (on h (key :: .table t :: stack)) stack) :
    ∃ n, ∀ fuel, n ≤ fuel → ∀ h t stack,
      StopsAtNull (pushEntries (fromString J fuel) J (seen ++ (key, value) :: rest))
        (on h (.table t :: stack)) stack := by
  induction seen with
  | nil =>
    obtain ⟨n, hn⟩ := hvalue
    refine ⟨n, fun fuel hfuel h t stack => ?_⟩
    obtain ⟨h', key', t', hthrows⟩ := hn fuel hfuel h t stack
    have hkey : Returns (luaPush key) (on h (.table t :: stack)) ()
        (on h (key :: .table t :: stack)) := rfl
    exact ⟨h', key', t', (hkey.bind_apply _).trans (hthrows.bind _)⟩
  | cons entry seen ih =>
    obtain ⟨key₁, value₁⟩ := entry
    rw [List.forall_mem_cons] at hseen hkeys
    obtain ⟨n, hn⟩ := ih hseen.2 hkeys.2
    obtain ⟨m, hm⟩ := returns_of_readable value₁ hseen.1
    refine ⟨max n m, fun fuel hfuel h t stack => ?_⟩
    have hfuel := Nat.max_le.mp hfuel
    obtain ⟨h₁, w, hpush, -⟩ := hm fuel hfuel.2 h (key₁ :: .table t :: stack)
    obtain ⟨h', key', t', hthrows⟩ := hn fuel hfuel.1 (h₁.rawset t key₁ w) t stack
    have hkey : Returns (luaPush key₁) (on h (.table t :: stack)) ()
        (on h (key₁ :: .table t :: stack)) := rfl
    have hset : Returns (luaSetTable (-3)) (on h₁ (w :: key₁ :: .table t :: stack)) ()
        (on (h₁.rawset t key₁ w) (.table t :: stack)) := returns_luaSetTable hkeys.1.1 hkeys.1.2
    have hread := returns_pushValue (ne_null_of_readable hseen.1) hpush
    refine ⟨h', key', t', (hkey.bind_apply _).trans ((hread.bind_apply _).trans ?_)⟩
    exact (hset.bind_apply _).trans hthrows

theorem exists_first {α : Type} {P : α → Prop} {items : List α} (hnot : ¬ ∀ a ∈ items, P a) :
    ∃ seen a rest, items = seen ++ a :: rest ∧ (∀ b ∈ seen, P b) ∧ ¬ P a := by
  induction items with
  | nil => exact absurd (List.forall_mem_nil P) hnot
  | cons first items ih =>
    by_cases hfirst : P first
    · obtain ⟨seen, a, rest, rfl, hseen, ha⟩ :=
        ih fun hall => hnot (List.forall_mem_cons.mpr ⟨hfirst, hall⟩)
      exact ⟨first :: seen, a, rest, rfl, List.forall_mem_cons.mpr ⟨hfirst, hseen⟩, ha⟩
    · exact ⟨[], first, items, rfl, List.forall_mem_nil P, hfirst⟩

theorem exists_first_null (hnull : ∃ part ∈ j.parts, ¬ part.All (· ≠ .null)) :
    ∃ seen key value rest, entriesOf j = seen ++ (key, value) :: rest ∧
      (∀ entry ∈ seen, entry.2.All (· ≠ .null)) ∧ ¬ value.All (· ≠ .null) := by
  obtain ⟨part, hmem, hpart⟩ := hnull
  rw [← map_snd_entriesOf] at hmem
  obtain ⟨entry, hentry, rfl⟩ := List.mem_map.mp hmem
  obtain ⟨seen, ⟨key, value⟩, rest, hentries, hseen, hvalue⟩ :=
    exists_first (P := fun entry => entry.2.All (· ≠ .null)) fun hall => hpart (hall entry hentry)
  exact ⟨seen, key, value, rest, hentries, hseen, hvalue⟩

theorem stops_of_null (j : Json) (hparts : ∀ part ∈ j.parts, part.All (NullOrReadable J))
    (hnull : ∃ part ∈ j.parts, ¬ part.All (· ≠ .null)) :
    ∃ n, ∀ fuel, n ≤ fuel → ∀ text, J.fromString text = .ok j → ∀ h stack,
      StopsAtNull (fromString J fuel .table text) (on h stack) stack := by
  obtain ⟨seen, key, value, rest, hentries, hseen, hvalue⟩ := exists_first_null hnull
  have hmem : ∀ entry ∈ seen ++ (key, value) :: rest, entry.2 ∈ j.parts := by
    rw [← hentries, ← map_snd_entriesOf]
    exact fun entry hmem => List.mem_map_of_mem hmem
  have hvalueMem : value ∈ j.parts := hmem (key, value) (by simp)
  have hloop : ∃ n, ∀ fuel, n ≤ fuel → ∀ h t stack,
      StopsAtNull (pushEntries (fromString J fuel) J (entriesOf j))
        (on h (.table t :: stack)) stack := by
    rw [hentries]
    refine stops_pushEntries (fun entry hentry => ?_) (fun entry hentry => ?_) ?_
    · exact readable_of_all (hparts entry.2 (hmem entry (List.mem_append_left _ hentry)))
        (hseen entry hentry)
    · exact isSettable_of_mem (j := j) (hentries ▸ List.mem_append_left _ hentry)
    · by_cases hne : value = .null
      · subst hne
        exact ⟨0, fun fuel _ h t stack => stopsAtNull_pushNull⟩
      · have hinside := exists_part_of_not_all hne hvalue
        have hall := hparts value hvalueMem
        obtain ⟨n, hn⟩ := stops_of_null value (fun _ => hall.of_mem_parts) hinside
        obtain ⟨part, hpart, -⟩ := hinside
        have htype := dataType_of_mem_parts hpart
        refine ⟨n, fun fuel hfuel h t stack => stopsAtNull_pushValue hne ?_⟩
        rw [htype, valueText_of_dataType htype]
        refine hn fuel hfuel _ ?_ h _
        cases value with
        | array items => exact hall.1 (by simp)
        | object members => exact hall.1 (by simp)
        | null | bool b | number d | string s => cases hpart
  obtain ⟨n, hn⟩ := hloop
  refine ⟨n + 1, fun fuel hfuel text hread h stack => ?_⟩
  obtain ⟨fuel, rfl⟩ := Nat.exists_eq_add_of_le' (Nat.le_trans (Nat.le_add_left 1 n) hfuel)
  obtain ⟨h', key', t', hthrows⟩ :=
    hn fuel (Nat.le_of_succ_le_succ hfuel) (h ++ [[]]) h.length stack
  exact ⟨h', key', t', (fromString_table hread (List.ne_nil_of_mem hvalueMem)).trans hthrows⟩
termination_by j.depth
decreasing_by exact Json.depth_lt_of_mem_parts hvalueMem

-- ---------------------------------------------------------------------------
-- When the stack is restored
-- ---------------------------------------------------------------------------

/-- Whenever `FromString` throws, the stack is what it was, and so are the tables on it. -/
def RestoresStack (J : JsonLibrary) (type : DataType) (text : String) : Prop :=
  ∀ fuel L thrown L', Throws (fromString J fuel type text) L thrown L' →
    L'.stack = L.stack ∧ ∀ t < L.heap.length, L'.heap[t]? = L.heap[t]?

/-- A failure restores the stack, unless a table is read from a text with a null inside. -/
theorem restoresStack_iff (htext : ∀ j, J.fromString text = .ok j → j.All (NullOrReadable J)) :
    RestoresStack J type text ↔ ¬ (type = .table ∧ NullInside J text) := by
  constructor
  · rintro hrestores ⟨rfl, j, hread, hnull⟩
    have hparts : ∀ part ∈ j.parts, part.All (NullOrReadable J) :=
      fun _ => (htext j hread).of_mem_parts
    obtain ⟨n, hn⟩ := stops_of_null j hparts hnull
    obtain ⟨h, key, t, hthrows⟩ := hn n (Nat.le_refl n) text hread [] []
    exact nomatch (hrestores n _ _ _ hthrows).1
  · rintro hnone fuel ⟨stack, h⟩ thrown L' hthrows
    obtain ⟨-, hheap, hsame | ⟨⟨htype, hnull⟩, -⟩⟩ :=
      hthrows.wlp_iff.mp (wlp_fromString J fuel type text h stack)
    · exact ⟨hsame, fun t ht => hheap.2 t id ht⟩
    · have hinside := hnull.nullInside fun j hread =>
        (htext j hread).imp fun _ => NullOrReadable.rereads
      exact absurd ⟨htype, hinside⟩ hnone

def valueLibrary : JsonLibrary :=
  { textLibrary with
    fromString := fun text =>
      if text = "18.5" then .ok (.number age)
      else if text = "[null]" then .ok (.array [.null])
      else textLibrary.fromString text }

theorem age_nullOrReadable : ∀ j, valueLibrary.fromString "18.5" = .ok j →
    j.All (NullOrReadable valueLibrary) := by
  intro j hread
  obtain rfl : .number age = j := Except.ok.inj hread
  exact fun _ => ⟨age, by simp [valueLibrary, textLibrary]⟩

theorem number_restores_stack : RestoresStack valueLibrary .table "18.5" := by
  refine (restoresStack_iff age_nullOrReadable).mpr ?_
  rintro ⟨-, j, hread, part, hmem, -⟩
  obtain rfl : .number age = j := Except.ok.inj hread
  exact nomatch hmem

theorem null_leaves_key_and_table :
    Throws (fromString valueLibrary 2 .table "[null]") (on [] []) unexpectedType
      (on [[]] [.number (.float (ofSize 1)), .table 0]) ∧
    ¬ RestoresStack valueLibrary .table "[null]" := by
  have hthrows : Throws (fromString valueLibrary 2 .table "[null]") (on [] []) unexpectedType
      (on [[]] [.number (.float (ofSize 1)), .table 0]) := rfl
  exact ⟨hthrows, fun hrestores => nomatch (hrestores 2 _ _ _ hthrows).1⟩

end LambdaExecutor.Lua.Deserializer
