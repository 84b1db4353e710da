import LambdaExecutor.Lua.Encodes
import LambdaExecutor.Lua.SerializerStack

/-!
# The serializer gives the tree that a value spells

`valueOf` ends with a JSON value exactly for the values that spell one, and it is
this one. More fuel does not change how it ends.
-/

namespace LambdaExecutor.Lua.Serializer

open Raii Raii.Code Formats

variable {J : JsonLibrary} {h : Heap} {fuel : Nat} {entries remaining rest : Table}
  {k key v : Value} {builder : Json}

-- ---------------------------------------------------------------------------
-- The entries that are left
-- ---------------------------------------------------------------------------

/-- The traversal of a lawful table has come to `k`, and `remaining` is left. -/
structure Visits (entries : Table) (k : Value) (remaining : Table) : Prop where
  lawful : entries.Lawful
  normal : k.toKey = k
  after : After entries k remaining

theorem Visits.start (hlawful : entries.Lawful) : Visits entries .nil entries :=
  ⟨hlawful, rfl, .inl ⟨rfl, rfl⟩⟩

theorem After.mem {entry : Value × Value} (ha : After entries k remaining)
    (hmem : entry ∈ remaining) : entry ∈ entries := by
  obtain ⟨-, rfl⟩ | ⟨-, seen, v, rfl, -⟩ := ha
  · exact hmem
  · simp [hmem]

theorem Visits.visit (hv : Visits entries k ((key, v) :: rest)) : Visits entries key rest := by
  obtain ⟨hne, hnormal⟩ := hv.lawful.2 (key, v) (hv.after.mem List.mem_cons_self)
  exact ⟨hv.lawful, hnormal, hv.after.visit hv.lawful.1 hne⟩

theorem Visits.next (hv : Visits entries k remaining) :
    entries.next k.toKey = some remaining.head? := by
  rw [hv.normal, hv.after.next]

theorem entriesOf_nil (hv : Visits entries k []) :
    entriesOf J h (fuel + 1) entries k builder = .value builder := by
  rw [entriesOf, hv.next]
  rfl

theorem entriesOf_bad_key (hv : Visits entries k ((key, v) :: rest)) (hkey : ¬ IsKey key) :
    entriesOf J h (fuel + 1) entries k builder =
      .fault (.stdException (keyTypeError key.type)) ⟨.key, 0⟩ := by
  rw [entriesOf, hv.next]
  exact if_pos (not_or.mp hkey)

theorem entriesOf_cons (hv : Visits entries k ((key, v) :: rest)) (hkey : IsKey key) :
    entriesOf J h (fuel + 1) entries k builder =
      match valueOf J h fuel v with
      | .other => .other
      | .fault e f => .fault e f.outer
      | .value json =>
        match grow J builder key json with
        | .error e => .fault e ⟨.builder, 0⟩
        | .ok builder => entriesOf J h fuel entries key builder := by
  rw [entriesOf, hv.next]
  exact if_neg fun hneither => hkey.elim hneither.1 hneither.2

-- ---------------------------------------------------------------------------
-- More fuel
-- ---------------------------------------------------------------------------

theorem mono_all (J : JsonLibrary) (h : Heap) (fuel : Nat) :
    (∀ v, valueOf J h fuel v ≠ .other → valueOf J h (fuel + 1) v = valueOf J h fuel v) ∧
    ∀ entries k builder, entriesOf J h fuel entries k builder ≠ .other →
      entriesOf J h (fuel + 1) entries k builder = entriesOf J h fuel entries k builder := by
  induction fuel with
  | zero => exact ⟨fun v hends => absurd (by rw [valueOf]) hends,
      fun entries k builder hends => absurd (by rw [entriesOf]) hends⟩
  | succ fuel ih =>
    obtain ⟨hvalue, hloop⟩ := ih
    constructor
    · intro v hends
      cases v with
      | table t => exact hloop _ _ _ hends
      | _ => rfl
    · intro entries k builder hends
      rw [entriesOf] at hends
      conv_lhs => rw [entriesOf]
      conv_rhs => rw [entriesOf]
      cases hnext : entries.next k.toKey with
      | none => rfl
      | some entry =>
        rcases entry with - | ⟨key, v⟩
        · rfl
        · rw [hnext] at hends
          dsimp only at hends ⊢
          split
          · rfl
          · next hkey =>
            rw [if_neg hkey] at hends
            cases hresult : valueOf J h fuel v with
            | other => simp [hresult] at hends
            | fault e f => rw [hvalue v (by simp [hresult]), hresult]
            | value json =>
              rw [hvalue v (by simp [hresult]), hresult]
              rw [hresult] at hends
              dsimp only at hends ⊢
              cases hgrow : grow J builder key json with
              | error e => rfl
              | ok builder' =>
                rw [hgrow] at hends
                exact hloop _ _ _ hends

theorem valueOf_mono {fuel' : Nat} (hle : fuel ≤ fuel') (hends : valueOf J h fuel v ≠ .other) :
    valueOf J h fuel' v = valueOf J h fuel v := by
  induction hle with
  | refl => rfl
  | @step m _ ih => rw [(mono_all J h m).1 v (ih ▸ hends), ih]

theorem entriesOf_mono {fuel' : Nat} (hle : fuel ≤ fuel')
    (hends : entriesOf J h fuel entries k builder ≠ .other) :
    entriesOf J h fuel' entries k builder = entriesOf J h fuel entries k builder := by
  induction hle with
  | refl => rfl
  | @step m _ ih => rw [(mono_all J h m).2 _ _ _ (ih ▸ hends), ih]

-- ---------------------------------------------------------------------------
-- A value that spells a tree
-- ---------------------------------------------------------------------------

mutual
theorem valueOf_of_encodes (hJ : J.Strict) (hh : h.Lawful) :
    (j : Json) → {v : Value} → Encodes h v j →
      ∃ n, ∀ fuel, n ≤ fuel → valueOf J h fuel v = .value j
  | .null, _, hv => by
    obtain ⟨t, rfl, hempty⟩ := hv
    refine ⟨2, fun fuel hfuel => ?_⟩
    obtain ⟨fuel, rfl⟩ := Nat.exists_eq_add_of_le' hfuel
    have hstart := Visits.start (hh.entries t)
    show entriesOf J h (fuel + 1) (h.entries t) .nil .null = _
    rw [hempty] at hstart ⊢
    exact entriesOf_nil hstart
  | .bool b, _, hv => by
    obtain rfl : _ = Value.boolean b := hv
    refine ⟨1, fun fuel hfuel => ?_⟩
    obtain ⟨fuel, rfl⟩ := Nat.exists_eq_add_of_le' hfuel
    rfl
  | .number d, _, hv => by
    obtain ⟨n, rfl, rfl, q, hq, hfinite⟩ := hv
    refine ⟨1, fun fuel hfuel => ?_⟩
    obtain ⟨fuel, rfl⟩ := Nat.exists_eq_add_of_le' hfuel
    rw [valueOf, hfinite, hJ.ofDouble]
  | .string s, _, hv => by
    obtain ⟨text, rfl, rfl⟩ := hv
    refine ⟨1, fun fuel hfuel => ?_⟩
    obtain ⟨fuel, rfl⟩ := Nat.exists_eq_add_of_le' hfuel
    rfl
  | .array items, _, hv => by
    obtain ⟨t, rfl, hne, hitems⟩ := hv
    obtain ⟨n, hloop⟩ := entriesOf_of_encodesItems hJ hh items hitems
    refine ⟨n + 1, fun fuel hfuel => ?_⟩
    obtain ⟨fuel, rfl⟩ := Nat.exists_eq_add_of_le' (Nat.le_trans (Nat.le_add_left 1 n) hfuel)
    obtain ⟨item, rest, rfl⟩ := List.exists_cons_of_ne_nil hne
    exact hloop fuel (Nat.le_of_succ_le_succ hfuel) _ _ [] (.start (hh.entries t))
  | .object members, _, hv => by
    obtain ⟨t, rfl, hne, hmembers⟩ := hv
    obtain ⟨n, hloop⟩ := entriesOf_of_encodesMembers hJ hh members hmembers
    refine ⟨n + 1, fun fuel hfuel => ?_⟩
    obtain ⟨fuel, rfl⟩ := Nat.exists_eq_add_of_le' (Nat.le_trans (Nat.le_add_left 1 n) hfuel)
    obtain ⟨member, rest, rfl⟩ := List.exists_cons_of_ne_nil hne
    exact hloop fuel (Nat.le_of_succ_le_succ hfuel) _ _ [] (.start (hh.entries t))
theorem entriesOf_of_encodesItems (hJ : J.Strict) (hh : h.Lawful) : (items : List Json) →
    {remaining : Table} → EncodesItems h remaining items → ∃ n, ∀ fuel, n ≤ fuel →
      ∀ entries k done, Visits entries k remaining →
        entriesOf J h fuel entries k (arrayOf done) = .value (arrayOf (done ++ items))
  | [], _, hitems => by
    obtain rfl : _ = [] := hitems
    refine ⟨1, fun fuel hfuel entries k done hvisits => ?_⟩
    obtain ⟨fuel, rfl⟩ := Nat.exists_eq_add_of_le' hfuel
    rw [List.append_nil]
    exact entriesOf_nil hvisits
  | item :: items, _, hitems => by
    obtain ⟨number, v, rest, rfl, hv, hrest⟩ := hitems
    obtain ⟨n, hvalue⟩ := valueOf_of_encodes hJ hh item hv
    obtain ⟨m, hloop⟩ := entriesOf_of_encodesItems hJ hh items hrest
    refine ⟨max n m + 1, fun fuel hfuel entries k done hvisits => ?_⟩
    obtain ⟨fuel, rfl⟩ := Nat.exists_eq_add_of_le' (Nat.le_trans (Nat.le_add_left 1 _) hfuel)
    have hfuel := Nat.le_of_succ_le_succ hfuel
    have hgrow : grow J (arrayOf done) (.number number) item = .ok (arrayOf (done ++ [item])) :=
      pushBack_arrayOf hJ.toBuilds done item
    rw [entriesOf_cons hvisits (.inr rfl), hvalue fuel (Nat.le_trans (Nat.le_max_left n m) hfuel)]
    dsimp only
    rw [hgrow]
    have hresult := hloop fuel (Nat.le_trans (Nat.le_max_right n m) hfuel) _ _ (done ++ [item])
      hvisits.visit
    rwa [List.append_assoc] at hresult
theorem entriesOf_of_encodesMembers (hJ : J.Strict) (hh : h.Lawful) :
    (members : List (String × Json)) → {remaining : Table} → EncodesMembers h remaining members →
      ∃ n, ∀ fuel, n ≤ fuel → ∀ entries k done, Visits entries k remaining →
        entriesOf J h fuel entries k (objectOf done) = .value (objectOf (done ++ members))
  | [], _, hmembers => by
    obtain rfl : _ = [] := hmembers
    refine ⟨1, fun fuel hfuel entries k done hvisits => ?_⟩
    obtain ⟨fuel, rfl⟩ := Nat.exists_eq_add_of_le' hfuel
    rw [List.append_nil]
    exact entriesOf_nil hvisits
  | (name, value) :: members, _, hmembers => by
    obtain ⟨key, v, rest, rfl, rfl, hv, hrest⟩ := hmembers
    obtain ⟨n, hvalue⟩ := valueOf_of_encodes hJ hh value hv
    obtain ⟨m, hloop⟩ := entriesOf_of_encodesMembers hJ hh members hrest
    refine ⟨max n m + 1, fun fuel hfuel entries k done hvisits => ?_⟩
    obtain ⟨fuel, rfl⟩ := Nat.exists_eq_add_of_le' (Nat.le_trans (Nat.le_add_left 1 _) hfuel)
    have hfuel := Nat.le_of_succ_le_succ hfuel
    have hgrow : grow J (objectOf done) (.string key) value =
        .ok (objectOf (done ++ [(cString key, value)])) :=
      emplaceNocheck_objectOf hJ.toBuilds done (cString key) value
    rw [entriesOf_cons hvisits (.inl rfl), hvalue fuel (Nat.le_trans (Nat.le_max_left n m) hfuel)]
    dsimp only
    rw [hgrow]
    have hresult := hloop fuel (Nat.le_trans (Nat.le_max_right n m) hfuel) _ _
      (done ++ [(cString key, value)]) hvisits.visit
    rwa [List.append_assoc] at hresult
end

theorem encodes_unique {j j' : Json} (hJ : J.Strict) (hh : h.Lawful) (hj : Encodes h v j)
    (hj' : Encodes h v j') : j = j' := by
  obtain ⟨n, hn⟩ := valueOf_of_encodes hJ hh j hj
  obtain ⟨m, hm⟩ := valueOf_of_encodes hJ hh j' hj'
  have hvalue := hn _ (Nat.le_max_left n m)
  rw [hm _ (Nat.le_max_right n m)] at hvalue
  exact (Outcome.value.inj hvalue).symm

-- ---------------------------------------------------------------------------
-- What the builder holds
-- ---------------------------------------------------------------------------

/-- The builder has taken the entries which have been visited. -/
inductive Holds : Json → Table → Prop
  | null : Holds .null []
  | array (items : List Json) {seen : Table} (hne : seen ≠ [])
      (hkeys : ∀ entry ∈ seen, entry.1.type = .number) : Holds (.array items) seen
  | object (members : List (String × Json)) {seen : Table} (hne : seen ≠ [])
      (hkeys : ∀ entry ∈ seen, entry.1.type = .string) : Holds (.object members) seen

variable {seen : Table} {j : Json}

theorem Holds.sameKind (hb : Holds builder seen) : SameKind seen := by
  cases hb with
  | null => exact .inl (List.forall_mem_nil _)
  | array items hne hkeys => exact .inr hkeys
  | object members hne hkeys => exact .inl hkeys

theorem not_sameKind {entry entry' : Value × Value} (hmem : entry ∈ seen) (hmem' : entry' ∈ seen)
    (hnumber : entry.1.type = .number) (hstring : entry'.1.type = .string) : ¬ SameKind seen := by
  rintro (hkeys | hkeys)
  · exact absurd (hnumber.symm.trans (hkeys entry hmem)) nofun
  · exact absurd (hstring.symm.trans (hkeys entry' hmem')) nofun

theorem Holds.grow (hJ : J.Strict) (hb : Holds builder seen) (hkey : IsKey key) :
    (∃ builder', grow J builder key j = .ok builder' ∧ Holds builder' (seen ++ [(key, v)])) ∨
      (∃ e, grow J builder key j = .error e) ∧ ¬ SameKind (seen ++ [(key, v)]) := by
  have hlast : (key, v) ∈ seen ++ [(key, v)] := by simp
  rcases hkey with hstring | hnumber
  · obtain ⟨name, rfl⟩ := type_eq_string hstring
    cases hb with
    | null => exact .inl ⟨_, hJ.emplaceNocheck_null _ _, .object _ (by simp) (by simp [hstring])⟩
    | object members hne hkeys =>
      refine .inl ⟨_, hJ.emplaceNocheck_object _ _ _, .object _ (by simp) ?_⟩
      exact List.forall_mem_append.mpr ⟨hkeys, by simp [hstring]⟩
    | array items hne hkeys =>
      obtain ⟨entry, rest, rfl⟩ := List.exists_cons_of_ne_nil hne
      exact .inr ⟨hJ.emplaceNocheck_array _ _ _,
        not_sameKind (by simp) hlast (hkeys entry List.mem_cons_self) hstring⟩
  · obtain ⟨n, rfl⟩ := type_eq_number hnumber
    cases hb with
    | null => exact .inl ⟨_, hJ.pushBack_null _, .array _ (by simp) (by simp [hnumber])⟩
    | array items hne hkeys =>
      refine .inl ⟨_, hJ.pushBack_array _ _, .array _ (by simp) ?_⟩
      exact List.forall_mem_append.mpr ⟨hkeys, by simp [hnumber]⟩
    | object members hne hkeys =>
      obtain ⟨entry, rest, rfl⟩ := List.exists_cons_of_ne_nil hne
      exact .inr ⟨hJ.pushBack_object _ _,
        not_sameKind hlast (by simp) hnumber (hkeys entry List.mem_cons_self)⟩

theorem serializable_all (hJ : J.Strict) (hh : h.Lawful) (fuel : Nat) :
    (∀ v j, valueOf J h fuel v = .value j → Serializable h v) ∧
    ∀ seen k builder remaining j, Holds builder seen → Visits (seen ++ remaining) k remaining →
      entriesOf J h fuel (seen ++ remaining) k builder = .value j →
        SameKind (seen ++ remaining) ∧ ∀ entry ∈ remaining, Serializable h entry.2 := by
  induction fuel with
  | zero => exact ⟨fun _ _ hj => (nomatch hj), fun _ _ _ _ _ _ _ hj => (nomatch hj)⟩
  | succ fuel ih =>
    obtain ⟨hvalue, hloop⟩ := ih
    constructor
    · intro v j hj
      cases v with
      | string s => exact .string s
      | boolean b => exact .boolean b
      | number n =>
        refine .number ?_
        by_contra hinfinite
        obtain ⟨e, he⟩ := hJ.ofDouble_error n.toDouble fun q hq hd => hinfinite ⟨q, hq, hd⟩
        rw [valueOf, he] at hj
        exact nomatch hj
      | table t =>
        obtain ⟨hkind, hvalues⟩ := hloop [] .nil .null (h.entries t) j .null
          (.start (hh.entries t)) hj
        exact .table hkind hvalues
      | nil | function library name | userdata name | thread t => exact nomatch hj
    · intro seen k builder remaining j hb hvisits hj
      cases remaining with
      | nil => exact ⟨by simpa using hb.sameKind, List.forall_mem_nil _⟩
      | cons entry rest =>
        obtain ⟨key, v⟩ := entry
        by_cases hkey : IsKey key
        · rw [entriesOf_cons hvisits hkey] at hj
          cases hresult : valueOf J h fuel v with
          | other => simp [hresult] at hj
          | fault e f => simp [hresult] at hj
          | value json =>
            rw [hresult] at hj
            dsimp only at hj
            obtain ⟨builder', hgrow, hb'⟩ | ⟨⟨e, hgrow⟩, -⟩ := hb.grow (v := v) (j := json) hJ hkey
            · rw [hgrow] at hj
              rw [List.append_cons] at hvisits hj ⊢
              obtain ⟨hkind, hvalues⟩ := hloop _ _ _ _ _ hb' hvisits.visit hj
              exact ⟨hkind, List.forall_mem_cons.mpr ⟨hvalue v json hresult, hvalues⟩⟩
            · rw [hgrow] at hj
              exact nomatch hj
        · rw [entriesOf_bad_key hvisits hkey] at hj
          exact nomatch hj

theorem serializable_of_valueOf (hJ : J.Strict) (hh : h.Lawful)
    (hj : valueOf J h fuel v = .value j) : Serializable h v :=
  (serializable_all hJ hh fuel).1 v j hj

theorem encodes_of_valueOf (hJ : J.Strict) (hh : h.Lawful)
    (hj : valueOf J h fuel v = .value j) : Encodes h v j := by
  obtain ⟨j', hj'⟩ := (serializable_of_valueOf hJ hh hj).exists_encodes
  obtain ⟨n, hn⟩ := valueOf_of_encodes hJ hh j' hj'
  have hmore := valueOf_mono (Nat.le_max_left fuel n) (by rw [hj]; nofun)
  rw [hn _ (Nat.le_max_right fuel n), hj] at hmore
  exact Outcome.value.inj hmore ▸ hj'

-- ---------------------------------------------------------------------------
-- The texts
-- ---------------------------------------------------------------------------

variable {below : List Value} {L : LuaState} {text : String} {e : Exception}

theorem toString_apply (L : LuaState) : toString J fuel none L =
    match toValue J fuel none L with
    | .done value L => .done (Deserializer.valueText J value) L
    | .threw thrown L => .threw thrown L
    | .terminated L => .terminated L := by
  show Code.bind _ _ L = _
  unfold Code.bind
  cases toValue J fuel none L with
  | done value L => cases value <;> rfl
  | threw thrown L => rfl
  | terminated L => rfl

theorem returns_toValue_iff : Returns (toValue J fuel none) (on h (v :: below)) j L ↔
    valueOf J h fuel v = .value j ∧ L = on h (v :: below) := by
  have hends := ends_toValue J h fuel v below
  unfold Returns
  cases hresult : valueOf J h fuel v with
  | value j =>
    rw [hresult] at hends
    rw [show toValue J fuel none _ = _ from hends]
    simp [eq_comm]
  | fault e f =>
    rw [hresult] at hends
    obtain ⟨stack, hthrows, -⟩ := hends
    simp [hthrows]
  | other =>
    rw [hresult] at hends
    obtain ⟨message, L', hstuck⟩ | ⟨L', hstuck⟩ := hends <;> simp [hstuck]

theorem returns_toString_iff : Returns (toString J fuel none) (on h (v :: below)) text L ↔
    ∃ j, valueOf J h fuel v = .value j ∧ text = Deserializer.valueText J j ∧
      L = on h (v :: below) := by
  unfold Returns
  rw [toString_apply]
  constructor
  · intro hreturns
    cases hvalue : toValue J fuel none (on h (v :: below)) with
    | done j L' =>
      obtain ⟨hj, rfl⟩ := returns_toValue_iff.mp hvalue
      rw [hvalue] at hreturns
      obtain ⟨rfl, rfl⟩ := (Result.done.injEq ..).mp hreturns
      exact ⟨j, hj, rfl, rfl⟩
    | threw thrown L' => simp [hvalue] at hreturns
    | terminated L' => simp [hvalue] at hreturns
  · rintro ⟨j, hj, rfl, rfl⟩
    rw [show toValue J fuel none _ = _ from returns_toValue_iff.mpr ⟨hj, rfl⟩]

theorem throws_toString_iff :
    (∃ L, Throws (toString J fuel none) (on h (v :: below)) (.exception e) L) ↔
      ∃ f, valueOf J h fuel v = .fault e f := by
  have hends := ends_toValue J h fuel v below
  unfold Throws
  simp only [toString_throws_iff]
  cases hresult : valueOf J h fuel v with
  | value j =>
    rw [hresult] at hends
    rw [show toValue J fuel none _ = _ from hends]
    simp
  | fault e' f =>
    rw [hresult] at hends
    obtain ⟨stack, hthrows, -⟩ := hends
    simp [hthrows]
  | other =>
    rw [hresult] at hends
    obtain ⟨message, L', hstuck⟩ | ⟨L', hstuck⟩ := hends <;> simp [hstuck]

/-- With enough fuel the serializer makes the tree of the value, and `ToString` its text. -/
def Writes (J : JsonLibrary) (h : Heap) (v : Value) (j : Json) : Prop :=
  ∃ n, ∀ fuel, n ≤ fuel → ∀ below,
    Returns (toValue J fuel none) (on h (v :: below)) j (on h (v :: below)) ∧
      Returns (toString J fuel none) (on h (v :: below)) (Deserializer.valueText J j)
        (on h (v :: below))

theorem writes_iff (hJ : J.Strict) (hh : h.Lawful) : Writes J h v j ↔ Encodes h v j := by
  constructor
  · rintro ⟨n, hn⟩
    obtain ⟨hj, -⟩ := returns_toValue_iff.mp (hn n (Nat.le_refl n) []).1
    exact encodes_of_valueOf hJ hh hj
  · intro hj
    obtain ⟨n, hn⟩ := valueOf_of_encodes hJ hh j hj
    refine ⟨n, fun fuel hfuel below => ⟨returns_toValue_iff.mpr ⟨hn fuel hfuel, rfl⟩, ?_⟩⟩
    exact returns_toString_iff.mpr ⟨j, hn fuel hfuel, rfl, rfl⟩

end LambdaExecutor.Lua.Serializer
