import LambdaExecutor.Lua.DeserializerLaws

/-!
# Which trees the deserializer reads

The text of a tree is read part by part. A part that is not null is pushed where its own
text reads as the same part again; null is no value to the deserializer.
-/

namespace LambdaExecutor.Lua.Deserializer

open Raii Raii.Code Formats Serializer

variable {J : JsonLibrary} {fuel : Nat} {limit : Option Nat}

def Readable (J : JsonLibrary) : Json → Prop
  | .null => False
  | .bool _ | .string _ => True
  | .number d => ∃ d', J.lexicalCast (J.toString (.number d)) = .ok d'
  | j => J.fromString (J.toString j) = .ok j

theorem Readable.ne_null {j : Json} (hj : Readable J j) : j ≠ .null := by
  rintro rfl
  exact hj

theorem ne_null_of_readable {j : Json} (hj : j.All (Readable J)) : j ≠ .null := by
  rintro rfl
  exact hj

-- ---------------------------------------------------------------------------
-- Readable parts are pushed
-- ---------------------------------------------------------------------------

mutual
theorem returns_of_readable : (j : Json) → j.All (Readable J) →
    ∃ n, ∀ fuel, n ≤ fuel → ∀ h stack, ∃ h' w,
      Returns (fromString J fuel (dataType j) (valueText J j)) (on h stack) ()
        (on h' (w :: stack)) ∧ (dataType j = .table → ∃ u, w = .table u)
  | .null, hj => hj.elim
  | .bool b, _ => by
    refine ⟨1, fun fuel hfuel h stack => ⟨h, .boolean (J.toString (.bool b) = "true"), ?_, nofun⟩⟩
    obtain ⟨fuel, rfl⟩ := Nat.exists_eq_add_of_le' hfuel
    rfl
  | .number d, ⟨d', hd⟩ => by
    refine ⟨1, fun fuel hfuel h stack => ⟨h, .number (.float d'), ?_, nofun⟩⟩
    obtain ⟨fuel, rfl⟩ := Nat.exists_eq_add_of_le' hfuel
    exact (returns_ofLibrary hd _).bind rfl
  | .string s, _ => by
    refine ⟨1, fun fuel hfuel h stack => ⟨h, .string (cString s), ?_, nofun⟩⟩
    obtain ⟨fuel, rfl⟩ := Nat.exists_eq_add_of_le' hfuel
    rfl
  | .array items, ⟨hread, hitems⟩ => by
    obtain ⟨n, hpush⟩ := returns_pushItems_of_readable items hitems
    refine ⟨n + 1, fun fuel hfuel h stack => ?_⟩
    obtain ⟨fuel, rfl⟩ := Nat.exists_eq_add_of_le' (Nat.le_trans (Nat.le_add_left 1 n) hfuel)
    obtain ⟨h', hr⟩ := hpush fuel (Nat.le_of_succ_le_succ hfuel) 1 (h ++ [[]]) h.length stack
    exact ⟨h', .table h.length, (returns_ofLibrary hread _).bind (Returns.bind rfl hr),
      fun _ => ⟨_, rfl⟩⟩
  | .object members, ⟨hread, hmembers⟩ => by
    obtain ⟨n, hpush⟩ := returns_pushMembers_of_readable members hmembers
    refine ⟨n + 1, fun fuel hfuel h stack => ?_⟩
    obtain ⟨fuel, rfl⟩ := Nat.exists_eq_add_of_le' (Nat.le_trans (Nat.le_add_left 1 n) hfuel)
    obtain ⟨h', hr⟩ := hpush fuel (Nat.le_of_succ_le_succ hfuel) (h ++ [[]]) h.length stack
    exact ⟨h', .table h.length, (returns_ofLibrary hread _).bind (Returns.bind rfl hr),
      fun _ => ⟨_, rfl⟩⟩
theorem returns_pushItems_of_readable : (items : List Json) → Json.AllItems (Readable J) items →
    ∃ n, ∀ fuel, n ≤ fuel → ∀ i h t stack, ∃ h',
      Returns (pushItems (fromString J fuel) J i items) (on h (.table t :: stack)) ()
        (on h' (.table t :: stack))
  | [], _ => ⟨0, fun _ _ _ h _ _ => ⟨h, rfl⟩⟩
  | item :: items, ⟨hitem, hitems⟩ => by
    obtain ⟨n, hvalue⟩ := returns_of_readable item hitem
    obtain ⟨m, hloop⟩ := returns_pushItems_of_readable items hitems
    refine ⟨max n m, fun fuel hfuel i h t stack => ?_⟩
    obtain ⟨h₁, w, hpush, -⟩ := hvalue fuel (Nat.le_trans (Nat.le_max_left n m) hfuel) h
      (.number (.float (ofSize i)) :: .table t :: stack)
    have hset : Returns (luaSetTable (-3))
        (on h₁ (w :: .number (.float (ofSize i)) :: .table t :: stack)) ()
        (on (h₁.rawset t (.number (.float (ofSize i))) w) (.table t :: stack)) :=
      returns_luaSetTable nofun nofun
    obtain ⟨h', hr⟩ := hloop fuel (Nat.le_trans (Nat.le_max_right n m) hfuel) (i + 1)
      (h₁.rawset t (.number (.float (ofSize i))) w) t stack
    have hvalue := returns_pushValue (ne_null_of_readable hitem) hpush
    exact ⟨h', Returns.bind rfl (hvalue.bind (hset.bind hr))⟩
theorem returns_pushMembers_of_readable : (members : List (String × Json)) →
    Json.AllMembers (Readable J) members →
    ∃ n, ∀ fuel, n ≤ fuel → ∀ h t stack, ∃ h',
      Returns (pushMembers (fromString J fuel) J members) (on h (.table t :: stack)) ()
        (on h' (.table t :: stack))
  | [], _ => ⟨0, fun _ _ h _ _ => ⟨h, rfl⟩⟩
  | (name, value) :: members, ⟨hjson, hmembers⟩ => by
    obtain ⟨n, hvalue⟩ := returns_of_readable value hjson
    obtain ⟨m, hloop⟩ := returns_pushMembers_of_readable members hmembers
    refine ⟨max n m, fun fuel hfuel h t stack => ?_⟩
    obtain ⟨h₁, w, hpush, -⟩ := hvalue fuel (Nat.le_trans (Nat.le_max_left n m) hfuel) h
      (recordKey (cString name) :: .table t :: stack)
    have hset : Returns (luaSetTable (-3))
        (on h₁ (w :: recordKey (cString name) :: .table t :: stack)) ()
        (on (h₁.rawset t (recordKey (cString name)) w) (.table t :: stack)) :=
      returns_luaSetTable nofun nofun
    obtain ⟨h', hr⟩ := hloop fuel (Nat.le_trans (Nat.le_max_right n m) hfuel)
      (h₁.rawset t (recordKey (cString name)) w) t stack
    have hvalue := returns_pushValue (ne_null_of_readable hjson) hpush
    exact ⟨h', Returns.bind rfl (hvalue.bind (hset.bind hr))⟩
end

mutual
theorem readsBack_of_readable : (j : Json) → j.All (Readable J) → j.All J.PrintsExactly →
    J.ReadsBack j
  | .null, _, _ => trivial
  | .bool _, _, hexact => hexact
  | .number _, _, hexact => hexact
  | .string _, _, _ => trivial
  | .array items, hj, hexact => ⟨hj.1, readsBackItems_of_readable items hj.2 hexact.2⟩
  | .object members, hj, hexact => ⟨hj.1, readsBackMembers_of_readable members hj.2 hexact.2⟩
theorem readsBackItems_of_readable : (items : List Json) → Json.AllItems (Readable J) items →
    Json.AllItems J.PrintsExactly items → J.ReadsBackItems items
  | [], _, _ => trivial
  | item :: items, hitems, hexact =>
    ⟨readsBack_of_readable item hitems.1 hexact.1,
      readsBackItems_of_readable items hitems.2 hexact.2⟩
theorem readsBackMembers_of_readable : (members : List (String × Json)) →
    Json.AllMembers (Readable J) members → Json.AllMembers J.PrintsExactly members →
      J.ReadsBackMembers members
  | [], _, _ => trivial
  | (_, value) :: members, hmembers, hexact =>
    ⟨readsBack_of_readable value hmembers.1 hexact.1,
      readsBackMembers_of_readable members hmembers.2 hexact.2⟩
end

-- ---------------------------------------------------------------------------
-- What is pushed was readable
-- ---------------------------------------------------------------------------

section Returned
variable {L L' : LuaState} {j : Json}

theorem of_returns_pushValue (hr : Returns (pushValue (fromString J fuel) J j) L () L') :
    ∃ L₁, Returns (fromString J fuel (dataType j) (valueText J j)) L₁ () L' ∧ j ≠ .null := by
  obtain ⟨type, L₁, htype, hpush⟩ := hr.of_bind
  have hne : j ≠ .null := by
    rintro rfl
    exact nomatch htype
  obtain ⟨rfl, rfl⟩ := (Result.done.injEq ..).mp ((returns_getType hne L).symm.trans htype)
  exact ⟨_, returns_of_catchAll hpush, hne⟩

theorem of_returns_pushTable {text : String}
    (hr : Returns (fromString J fuel .table text) L () L') : ∃ fuel₁ L₁,
      (∃ items, J.fromString text = .ok (.array items) ∧
        Returns (pushItems (fromString J fuel₁) J 1 items) L₁ () L') ∨
      ∃ members, J.fromString text = .ok (.object members) ∧
        Returns (pushMembers (fromString J fuel₁) J members) L₁ () L' := by
  cases fuel with
  | zero => exact nomatch hr
  | succ fuel =>
    obtain ⟨json, L₁, hread, hr⟩ := hr.of_bind
    obtain ⟨⟨⟩, L₂, -, hr⟩ := hr.of_bind
    have hread := (of_returns_ofLibrary hread).1
    cases json with
    | array items => exact ⟨fuel, L₂, .inl ⟨items, hread, hr⟩⟩
    | object members => exact ⟨fuel, L₂, .inr ⟨members, hread, hr⟩⟩
    | null | bool | number | string => exact nomatch hr

theorem of_rereads {j' : Json}
    (hj : J.fromString (J.toString j) = .ok j ∨ ∃ e, J.fromString (J.toString j) = .error e)
    (hread : J.fromString (J.toString j) = .ok j') : j' = j := by
  obtain hok | ⟨e, herror⟩ := hj
  · exact Except.ok.inj (hread.symm.trans hok)
  · exact nomatch hread.symm.trans herror

end Returned

mutual
theorem readable_of_returns : (j : Json) → j ≠ .null → j.All J.Rereads → {fuel : Nat} →
    {L L' : LuaState} → Returns (fromString J fuel (dataType j) (valueText J j)) L () L' →
      j.All (Readable J)
  | .null, hne, _, _, _, _, _ => absurd rfl hne
  | .bool _, _, _, _, _, _, _ => trivial
  | .number _, _, _, fuel, _, _, hr => by
    cases fuel with
    | zero => exact nomatch hr
    | succ fuel =>
      obtain ⟨d, L₁, hcast, -⟩ := hr.of_bind
      exact ⟨d, (of_returns_ofLibrary hcast).1⟩
  | .string _, _, _, _, _, _, _ => trivial
  | .array items, _, ⟨hj, hitems⟩, _, _, _, hr => by
    obtain ⟨fuel, L, ⟨items', hread, hpush⟩ | ⟨members, hread, -⟩⟩ := of_returns_pushTable hr
    · obtain rfl := (Json.array.inj (of_rereads hj hread)).symm
      exact ⟨hread, readable_of_returns_pushItems items hitems hpush⟩
    · exact nomatch of_rereads hj hread
  | .object members, _, ⟨hj, hmembers⟩, _, _, _, hr => by
    obtain ⟨fuel, L, ⟨items, hread, -⟩ | ⟨members', hread, hpush⟩⟩ := of_returns_pushTable hr
    · exact nomatch of_rereads hj hread
    · obtain rfl := (Json.object.inj (of_rereads hj hread)).symm
      exact ⟨hread, readable_of_returns_pushMembers members hmembers hpush⟩
theorem readable_of_returns_pushItems : (items : List Json) →
    Json.AllItems J.Rereads items → {fuel : Nat} → {i : UInt64} → {L L' : LuaState} →
      Returns (pushItems (fromString J fuel) J i items) L () L' →
        Json.AllItems (Readable J) items
  | [], _, _, _, _, _, _ => trivial
  | item :: items, ⟨hitem, hitems⟩, _, _, _, _, hr => by
    obtain ⟨⟨⟩, L₁, -, hr⟩ := hr.of_bind
    obtain ⟨⟨⟩, L₂, hvalue, hr⟩ := hr.of_bind
    obtain ⟨⟨⟩, L₃, -, hr⟩ := hr.of_bind
    obtain ⟨L₄, hvalue, hne⟩ := of_returns_pushValue hvalue
    exact ⟨readable_of_returns item hne hitem hvalue,
      readable_of_returns_pushItems items hitems hr⟩
theorem readable_of_returns_pushMembers : (members : List (String × Json)) →
    Json.AllMembers J.Rereads members → {fuel : Nat} → {L L' : LuaState} →
      Returns (pushMembers (fromString J fuel) J members) L () L' →
        Json.AllMembers (Readable J) members
  | [], _, _, _, _, _ => trivial
  | (_, value) :: members, ⟨hjson, hmembers⟩, _, _, _, hr => by
    obtain ⟨⟨⟩, L₁, -, hr⟩ := hr.of_bind
    obtain ⟨⟨⟩, L₂, hvalue, hr⟩ := hr.of_bind
    obtain ⟨⟨⟩, L₃, -, hr⟩ := hr.of_bind
    obtain ⟨L₄, hvalue, hne⟩ := of_returns_pushValue hvalue
    exact ⟨readable_of_returns value hne hjson hvalue,
      readable_of_returns_pushMembers members hmembers hr⟩
end

theorem ne_null_of_returns {j : Json} {L L' : LuaState} (hj : j = .null → J.Parses limit j)
    (hr : Returns (fromString J fuel (dataType j) (valueText J j)) L () L') : j ≠ .null := by
  rintro rfl
  obtain ⟨fuel, L, ⟨items, hread, -⟩ | ⟨members, hread, -⟩⟩ := of_returns_pushTable hr
  · exact nomatch of_rereads (hj rfl).ok_or_error hread
  · exact nomatch of_rereads (hj rfl).ok_or_error hread

-- ---------------------------------------------------------------------------
-- Which trees are readable
-- ---------------------------------------------------------------------------

theorem parses_ok_iff {j : Json} (hj : J.Parses limit j) :
    J.fromString (J.toString j) = .ok j ↔
      j.All Json.DistinctNames ∧ ∀ n ∈ limit, j.depth ≤ n := by
  refine ⟨fun hread => ?_, hj.1⟩
  by_contra hunfit
  obtain ⟨e, he⟩ := hj.2 hunfit
  exact nomatch hread.symm.trans he

mutual
theorem all_readable_iff : (j : Json) → j.All (J.Reads limit) →
    (j.All (Readable J) ↔
      j.All (· ≠ .null) ∧ j.All Json.DistinctNames ∧ ∀ n ∈ limit, j.depth ≤ n)
  | .null, _ => iff_of_false id fun hnone => hnone.1 rfl
  | .bool _, _ => iff_of_true trivial ⟨nofun, trivial, fun n _ => Nat.zero_le n⟩
  | .number _, hj => iff_of_true hj ⟨nofun, trivial, fun n _ => Nat.zero_le n⟩
  | .string _, _ => iff_of_true trivial ⟨nofun, trivial, fun n _ => Nat.zero_le n⟩
  | .array items, ⟨hj, hitems⟩ => by
    have hparts := allItems_readable_iff items hitems
    constructor
    · rintro ⟨hread, hreadable⟩
      exact ⟨⟨nofun, (hparts.mp hreadable).1⟩, (parses_ok_iff hj).mp hread⟩
    · rintro ⟨⟨-, hnull⟩, hdistinct, hdepth⟩
      refine ⟨hj.1 ⟨hdistinct, hdepth⟩, hparts.mpr ⟨hnull, hdistinct.2, fun n hn => ?_⟩⟩
      exact Nat.le_of_succ_le (hdepth n hn)
  | .object members, ⟨hj, hmembers⟩ => by
    have hparts := allMembers_readable_iff members hmembers
    constructor
    · rintro ⟨hread, hreadable⟩
      exact ⟨⟨nofun, (hparts.mp hreadable).1⟩, (parses_ok_iff hj).mp hread⟩
    · rintro ⟨⟨-, hnull⟩, hdistinct, hdepth⟩
      refine ⟨hj.1 ⟨hdistinct, hdepth⟩, hparts.mpr ⟨hnull, hdistinct.2, fun n hn => ?_⟩⟩
      exact Nat.le_of_succ_le (hdepth n hn)
theorem allItems_readable_iff : (items : List Json) → Json.AllItems (J.Reads limit) items →
    (Json.AllItems (Readable J) items ↔ Json.AllItems (· ≠ .null) items ∧
      Json.AllItems Json.DistinctNames items ∧ ∀ n ∈ limit, Json.depthItems items ≤ n)
  | [], _ => iff_of_true trivial ⟨trivial, trivial, fun n _ => Nat.zero_le n⟩
  | item :: items, ⟨hitem, hitems⟩ => by
    have hfirst := all_readable_iff item hitem
    have hrest := allItems_readable_iff items hitems
    simp only [Json.AllItems, Json.depthItems, Nat.max_le, hfirst, hrest]
    grind
theorem allMembers_readable_iff : (members : List (String × Json)) →
    Json.AllMembers (J.Reads limit) members → (Json.AllMembers (Readable J) members ↔
      Json.AllMembers (· ≠ .null) members ∧ Json.AllMembers Json.DistinctNames members ∧
        ∀ n ∈ limit, Json.depthMembers members ≤ n)
  | [], _ => iff_of_true trivial ⟨trivial, trivial, fun n _ => Nat.zero_le n⟩
  | (_, value) :: members, ⟨hvalue, hmembers⟩ => by
    have hfirst := all_readable_iff value hvalue
    have hrest := allMembers_readable_iff members hmembers
    simp only [Json.AllMembers, Json.depthMembers, Nat.max_le, hfirst, hrest]
    grind
end

end LambdaExecutor.Lua.Deserializer
