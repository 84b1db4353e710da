import LambdaExecutor.Lua.Serializer
import LambdaExecutor.Lua.Storable

/-!
# What the serializer builds

From a value that denotes a JSON tree the serializer builds this tree, and leaves
the stack and the heap as they were. `After` is the invariant of its loop: the
entries which `lua_next` has still to visit.
-/

namespace LambdaExecutor.Lua.Serializer

open Raii Raii.Code Formats

variable {J : JsonLibrary} {h : Heap} {lo t : TableRef} {entries remaining : Table}
  {k : Value} {stack : List Value} {fuel : Nat}

/-- What is left of a traversal once `k` has been visited; nil starts it. -/
def After (entries : Table) (k : Value) (remaining : Table) : Prop :=
  k = .nil ∧ remaining = entries ∨
    k ≠ .nil ∧ ∃ seen v, entries = seen ++ (k, v) :: remaining ∧ k ∉ seen.map Prod.fst

theorem After.next (ha : After entries k remaining) : entries.next k = some remaining.head? := by
  obtain ⟨rfl, rfl⟩ | ⟨hk, seen, v, rfl, hseen⟩ := ha
  · rfl
  · have hdrop : (seen ++ (k, v) :: remaining).dropWhile (·.1 ≠ k) = (k, v) :: remaining := by
      rw [List.dropWhile_append_of_pos]
      · simp
      · intro entry hmem
        exact decide_eq_true fun he => hseen (he ▸ List.mem_map_of_mem hmem)
    rw [Table.next, if_neg hk, hdrop]

theorem After.visit {key v : Value} (ha : After entries k ((key, v) :: remaining))
    (hdistinct : (entries.map Prod.fst).Nodup) (hkey : key ≠ .nil) :
    After entries key remaining := by
  refine .inr ⟨hkey, ?_⟩
  obtain ⟨-, rfl⟩ | ⟨-, seen, w, rfl, -⟩ := ha
  · exact ⟨[], v, rfl, List.not_mem_nil⟩
  · refine ⟨seen ++ [(k, w)], v, by simp, fun hmem => ?_⟩
    rw [List.append_cons, List.map_append] at hdistinct
    exact (List.nodup_append.mp hdistinct).2.2 key hmem key (by simp) rfl

-- ---------------------------------------------------------------------------
-- One step of the loop
-- ---------------------------------------------------------------------------

def on (h : Heap) (stack : List Value) : LuaState := { stack := stack, heap := h }

theorem returns_ofLibrary {α : Type} {result : Except Exception α} {a : α} (ha : result = .ok a)
    (L : LuaState) : Returns (ofLibrary result) L a L := by
  rw [ha]
  rfl

theorem throws_ofLibrary {α : Type} {result : Except Exception α} {e : Exception}
    (he : result = .error e) (L : LuaState) : Throws (ofLibrary result) L (.exception e) L := by
  rw [he]
  rfl

theorem of_returns_ofLibrary {α : Type} {result : Except Exception α} {a : α} {L L' : LuaState}
    (hr : Returns (ofLibrary result) L a L') : result = .ok a ∧ L = L' := by
  cases result with
  | ok b =>
    obtain ⟨rfl, rfl⟩ := (Result.done.injEq ..).mp hr
    exact ⟨rfl, rfl⟩
  | error e => exact nomatch hr

theorem returns_of_catchAll {α : Type} {body : LuaCode α} {n : Nat} {a : α} {L L' : LuaState}
    (hr : Returns (catchAll body (luaPop n)) L a L') : Returns body L a L' := by
  obtain hbody | ⟨thrown, L₁, -, hhandler⟩ := hr.of_tryCatch
  · exact hbody
  · cases thrown with
    | exception e => exact nomatch hhandler
    | luaError message => exact nomatch hhandler

section
variable {t : TableRef} {k key v : Value} {stack : List Value}

theorem luaNext_visits (hnext : Table.next (h[t]?.getD []) k.toKey = some (some (key, v))) :
    Returns (luaNext (-2)) (on h (k :: .table t :: stack)) true
      (on h (v :: key :: .table t :: stack)) := by
  show luaNextOn (h[t]?.getD []) k.toKey (.table t :: stack) (on h (k :: .table t :: stack)) = _
  rw [luaNextOn, hnext]
  rfl

theorem luaNext_ends (hnext : Table.next (h[t]?.getD []) k.toKey = some none) :
    Returns (luaNext (-2)) (on h (k :: .table t :: stack)) false (on h (.table t :: stack)) := by
  show luaNextOn (h[t]?.getD []) k.toKey (.table t :: stack) (on h (k :: .table t :: stack)) = _
  rw [luaNextOn, hnext]
  rfl

theorem luaNext_fails (hnext : Table.next (h[t]?.getD []) k.toKey = none) :
    Throws (luaNext (-2)) (on h (k :: .table t :: stack)) (.luaError "invalid key to 'next'")
      (on h (k :: .table t :: stack)) := by
  show luaNextOn (h[t]?.getD []) k.toKey (.table t :: stack) (on h (k :: .table t :: stack)) = _
  rw [luaNextOn, hnext]

end

theorem luaNext_some {key v : Value} (ht : h[t]? = some entries) (hk : k.toKey = k)
    (ha : After entries k ((key, v) :: remaining)) :
    Returns (luaNext (-2)) (on h (k :: .table t :: stack)) true
      (on h (v :: key :: .table t :: stack)) := by
  refine luaNext_visits ?_
  rw [ht, hk, Option.getD_some, ha.next]
  rfl

theorem luaNext_none (ht : h[t]? = some entries) (hk : k.toKey = k) (ha : After entries k []) :
    Returns (luaNext (-2)) (on h (k :: .table t :: stack)) false (on h (.table t :: stack)) := by
  refine luaNext_ends ?_
  rw [ht, hk, Option.getD_some, ha.next]
  rfl

theorem tableLoop_end (ht : h[t]? = some entries) (hk : k.toKey = k) (ha : After entries k [])
    (builder : Json) : Returns (tableLoop J (fuel + 1) none builder)
      (on h (k :: .table t :: stack)) builder (on h (.table t :: stack)) := by
  rw [tableLoop]
  exact (luaNext_none ht hk ha).bind (.pure builder _)

theorem tableLoop_string {key : String} {v : Value} {value builder builder' result : Json}
    {final : LuaState} (ht : h[t]? = some entries) (hk : k.toKey = k)
    (ha : After entries k ((recordKey key, v) :: remaining)) (hfree : NulFree key)
    (hvalue : Returns (toValue J fuel none) (on h (v :: recordKey key :: .table t :: stack)) value
      (on h (v :: recordKey key :: .table t :: stack)))
    (hgrow : J.emplaceNocheck builder key value = .ok builder')
    (hrest : Returns (tableLoop J fuel none builder') (on h (recordKey key :: .table t :: stack))
      result final) :
    Returns (tableLoop J (fuel + 1) none builder) (on h (k :: .table t :: stack)) result final := by
  have htype : Returns (luaType (-2)) (on h (v :: recordKey key :: .table t :: stack)) .string
      (on h (v :: recordKey key :: .table t :: stack)) := rfl
  have hkey : Returns (luaToString (-2)) (on h (v :: recordKey key :: .table t :: stack)) key
      (on h (v :: recordKey key :: .table t :: stack)) :=
    congrArg (Result.done · _) (cString_of_nulFree hfree)
  have hpop : Returns (luaPop 1) (on h (v :: recordKey key :: .table t :: stack)) ()
      (on h (recordKey key :: .table t :: stack)) := rfl
  rw [tableLoop]
  refine (luaNext_some ht hk ha).bind ?_
  rw [if_pos rfl]
  refine htype.bind ?_
  rw [if_neg (by decide)]
  refine (hvalue.tryCatch _).bind ?_
  rw [if_pos rfl]
  exact hkey.bind ((returns_ofLibrary hgrow _).bind (hpop.bind hrest))

theorem tableLoop_number {i : Nat} {v : Value} {value builder builder' result : Json}
    {final : LuaState} (ht : h[t]? = some entries) (hk : k.toKey = k)
    (ha : After entries k ((sequenceKey i, v) :: remaining))
    (hvalue : Returns (toValue J fuel none) (on h (v :: sequenceKey i :: .table t :: stack)) value
      (on h (v :: sequenceKey i :: .table t :: stack)))
    (hgrow : J.pushBack builder value = .ok builder')
    (hrest : Returns (tableLoop J fuel none builder') (on h (sequenceKey i :: .table t :: stack))
      result final) :
    Returns (tableLoop J (fuel + 1) none builder) (on h (k :: .table t :: stack)) result final := by
  have htype : Returns (luaType (-2)) (on h (v :: sequenceKey i :: .table t :: stack)) .number
      (on h (v :: sequenceKey i :: .table t :: stack)) := rfl
  have hpop : Returns (luaPop 1) (on h (v :: sequenceKey i :: .table t :: stack)) ()
      (on h (sequenceKey i :: .table t :: stack)) := rfl
  rw [tableLoop]
  refine (luaNext_some ht hk ha).bind ?_
  rw [if_pos rfl]
  refine htype.bind ?_
  rw [if_neg (by decide)]
  refine (hvalue.tryCatch _).bind ?_
  rw [if_neg (by decide)]
  exact (returns_ofLibrary hgrow _).bind (hpop.bind hrest)

-- ---------------------------------------------------------------------------
-- The whole traversal
-- ---------------------------------------------------------------------------

def objectOf : List (String × Json) → Json
  | [] => .null
  | members => .object members

def arrayOf : List Json → Json
  | [] => .null
  | items => .array items

theorem objectOf_append (done : List (String × Json)) (member : String × Json) :
    objectOf (done ++ [member]) = .object (done ++ [member]) := by
  cases done <;> rfl

theorem arrayOf_append (done : List Json) (item : Json) :
    arrayOf (done ++ [item]) = .array (done ++ [item]) := by
  cases done <;> rfl

theorem emplaceNocheck_objectOf (hJ : J.Builds) (done : List (String × Json)) (key : String)
    (value : Json) :
    J.emplaceNocheck (objectOf done) key value = .ok (objectOf (done ++ [(key, value)])) := by
  rw [objectOf_append]
  cases done with
  | nil => exact hJ.emplaceNocheck_null key value
  | cons member done => exact hJ.emplaceNocheck_object (member :: done) key value

theorem pushBack_arrayOf (hJ : J.Builds) (done : List Json) (value : Json) :
    J.pushBack (arrayOf done) value = .ok (arrayOf (done ++ [value])) := by
  rw [arrayOf_append]
  cases done with
  | nil => exact hJ.pushBack_null value
  | cons item done => exact hJ.pushBack_array (item :: done) value

theorem denotesMembers_keys {members : List (String × Json)} {entries : Table}
    (hmembers : DenotesMembers h lo entries members) :
    entries.map Prod.fst = (members.map Prod.fst).map recordKey := by
  induction members generalizing entries with
  | nil =>
    obtain rfl : entries = [] := hmembers
    rfl
  | cons member members ih =>
    obtain ⟨v, rest, rfl, -, -, hrest⟩ := hmembers
    simp [ih hrest]

theorem denotesItems_keys {items : List Json} {i : Nat} {entries : Table}
    (hitems : DenotesItems h lo i entries items) :
    entries.map Prod.fst = (List.range' i items.length).map sequenceKey := by
  induction items generalizing entries i with
  | nil =>
    obtain rfl : entries = [] := hitems
    rfl
  | cons item items ih =>
    obtain ⟨v, rest, rfl, -, hrest⟩ := hitems
    simp [ih hrest, List.range'_succ]

theorem sequenceKey_injective {i j : Nat} (hi : i < 2 ^ 63) (hj : j < 2 ^ 63)
    (h : sequenceKey i = sequenceKey j) : i = j := by
  have hint : Int64.ofNat i = Int64.ofNat j := Number.integer.inj (Value.number.inj h)
  have htoInt := congrArg Int64.toInt hint
  rw [Int64.toInt_ofNat_of_lt hi, Int64.toInt_ofNat_of_lt hj] at htoInt
  exact Int.ofNat.inj htoInt

theorem sequenceKeys_nodup {n : Nat} (hn : n < 2 ^ 53) :
    ((List.range' 1 n).map sequenceKey).Nodup := by
  refine List.Nodup.map_on ?_ List.nodup_range'
  intro i hi j hj
  rw [List.mem_range'_1] at hi hj
  exact sequenceKey_injective (by omega) (by omega)

theorem ofDouble_exact (hJ : J.Builds) {n : Number} (hn : n.Exact) :
    J.ofDouble n.toDouble = .ok (.number n.toDouble) := by
  cases n with
  | integer i => exact hJ.ofDouble _ _
  | float d =>
    cases d with
    | finite q hq => exact hJ.ofDouble q hq
    | infinity negative => exact hn.elim
    | nan => exact hn.elim

theorem returns_toValue_table {result : Json}
    (hloop : Returns (tableLoop J fuel none .null) (on h (.nil :: .table t :: stack)) result
      (on h (.table t :: stack))) :
    Returns (toValue J (fuel + 1) none) (on h (.table t :: stack)) result
      (on h (.table t :: stack)) := by
  have htype : Returns (luaType (-1)) (on h (.table t :: stack)) .table
      (on h (.table t :: stack)) := rfl
  have hnil : Returns luaPushNil (on h (.table t :: stack)) () (on h (.nil :: .table t :: stack)) :=
    rfl
  rw [toValue]
  exact htype.bind (hnil.bind hloop)

mutual
/-- The serializer builds the tree which the value on the top denotes. -/
theorem returns_toValue (hJ : J.Builds) : (j : Json) → {v : Value} → Denotes h lo v j →
    ∃ n, ∀ fuel, n ≤ fuel → ∀ stack,
      Returns (toValue J fuel none) (on h (v :: stack)) j (on h (v :: stack))
  | .null, _, hv => hv.elim
  | .bool b, _, hv => by
    obtain rfl : _ = Value.boolean b := hv
    refine ⟨1, fun fuel hfuel stack => ?_⟩
    obtain ⟨fuel, rfl⟩ := Nat.exists_eq_add_of_le' hfuel
    cases b <;> rfl
  | .number d, _, hv => by
    obtain ⟨n, rfl, hn, rfl⟩ := hv
    refine ⟨1, fun fuel hfuel stack => ?_⟩
    obtain ⟨fuel, rfl⟩ := Nat.exists_eq_add_of_le' hfuel
    have htype : Returns (luaType (-1)) (on h (.number n :: stack)) .number
        (on h (.number n :: stack)) := rfl
    have hnumber : Returns (luaToNumber (-1)) (on h (.number n :: stack)) n.toDouble
        (on h (.number n :: stack)) := rfl
    rw [toValue]
    exact htype.bind (hnumber.bind (returns_ofLibrary (ofDouble_exact hJ hn) _))
  | .string s, _, hv => by
    obtain ⟨rfl, hs⟩ := hv
    refine ⟨1, fun fuel hfuel stack => ?_⟩
    obtain ⟨fuel, rfl⟩ := Nat.exists_eq_add_of_le' hfuel
    have htype : Returns (luaType (-1)) (on h (.string s :: stack)) .string
        (on h (.string s :: stack)) := rfl
    have htext : Returns (luaToString (-1)) (on h (.string s :: stack)) s
        (on h (.string s :: stack)) := congrArg (Result.done · _) (cString_of_nulFree hs)
    rw [toValue]
    exact htype.bind (htext.bind (.pure _ _))
  | .array items, _, hv => by
    obtain ⟨t, entries, rfl, -, ht, hne, hlength, hitems⟩ := hv
    obtain ⟨n, hloop⟩ := returns_items hJ items hitems
    refine ⟨n + 1, fun fuel hfuel stack => ?_⟩
    obtain ⟨fuel, rfl⟩ := Nat.exists_eq_add_of_le' (Nat.le_trans (Nat.le_add_left 1 n) hfuel)
    have hdistinct : (entries.map Prod.fst).Nodup := by
      rw [denotesItems_keys hitems]
      exact sequenceKeys_nodup hlength
    have hresult := hloop fuel (Nat.le_of_succ_le_succ hfuel) t entries .nil [] stack ht hdistinct
      rfl (.inl ⟨rfl, rfl⟩)
    obtain ⟨item, rest, rfl⟩ := List.exists_cons_of_ne_nil hne
    exact returns_toValue_table hresult
  | .object members, _, hv => by
    obtain ⟨t, entries, rfl, -, ht, hne, hdistinct, hmembers⟩ := hv
    obtain ⟨n, hloop⟩ := returns_members hJ members hmembers
    refine ⟨n + 1, fun fuel hfuel stack => ?_⟩
    obtain ⟨fuel, rfl⟩ := Nat.exists_eq_add_of_le' (Nat.le_trans (Nat.le_add_left 1 n) hfuel)
    have hdistinct : (entries.map Prod.fst).Nodup := by
      rw [denotesMembers_keys hmembers]
      exact hdistinct.map fun _ _ => Value.string.inj
    have hresult := hloop fuel (Nat.le_of_succ_le_succ hfuel) t entries .nil [] stack ht hdistinct
      rfl (.inl ⟨rfl, rfl⟩)
    obtain ⟨member, rest, rfl⟩ := List.exists_cons_of_ne_nil hne
    exact returns_toValue_table hresult
theorem returns_items (hJ : J.Builds) : (items : List Json) → {i : Nat} → {remaining : Table} →
    DenotesItems h lo i remaining items →
    ∃ n, ∀ fuel, n ≤ fuel → ∀ t entries k done stack, h[t]? = some entries →
      (entries.map Prod.fst).Nodup → k.toKey = k → After entries k remaining →
        Returns (tableLoop J fuel none (arrayOf done)) (on h (k :: .table t :: stack))
          (arrayOf (done ++ items)) (on h (.table t :: stack))
  | [], _, _, hitems => by
    obtain rfl : _ = [] := hitems
    refine ⟨1, fun fuel hfuel t entries k done stack ht _ hk ha => ?_⟩
    obtain ⟨fuel, rfl⟩ := Nat.exists_eq_add_of_le' hfuel
    rw [List.append_nil]
    exact tableLoop_end ht hk ha _
  | item :: items, i, _, hitems => by
    obtain ⟨v, rest, rfl, hv, hrest⟩ := hitems
    obtain ⟨n, hvalue⟩ := returns_toValue hJ item hv
    obtain ⟨m, hloop⟩ := returns_items hJ items hrest
    refine ⟨max n m + 1, fun fuel hfuel t entries k done stack ht hdistinct hk ha => ?_⟩
    obtain ⟨fuel, rfl⟩ := Nat.exists_eq_add_of_le' (Nat.le_trans (Nat.le_add_left 1 _) hfuel)
    have hfuel := Nat.le_of_succ_le_succ hfuel
    refine tableLoop_number ht hk ha (hvalue fuel (Nat.le_trans (Nat.le_max_left n m) hfuel) _)
      (pushBack_arrayOf hJ done item) ?_
    have hresult := hloop fuel (Nat.le_trans (Nat.le_max_right n m) hfuel) t entries
      (sequenceKey i) (done ++ [item]) stack ht hdistinct rfl (ha.visit hdistinct nofun)
    rwa [List.append_assoc] at hresult
theorem returns_members (hJ : J.Builds) : (members : List (String × Json)) →
    {remaining : Table} → DenotesMembers h lo remaining members →
    ∃ n, ∀ fuel, n ≤ fuel → ∀ t entries k done stack, h[t]? = some entries →
      (entries.map Prod.fst).Nodup → k.toKey = k → After entries k remaining →
        Returns (tableLoop J fuel none (objectOf done)) (on h (k :: .table t :: stack))
          (objectOf (done ++ members)) (on h (.table t :: stack))
  | [], _, hmembers => by
    obtain rfl : _ = [] := hmembers
    refine ⟨1, fun fuel hfuel t entries k done stack ht _ hk ha => ?_⟩
    obtain ⟨fuel, rfl⟩ := Nat.exists_eq_add_of_le' hfuel
    rw [List.append_nil]
    exact tableLoop_end ht hk ha _
  | (key, value) :: members, _, hmembers => by
    obtain ⟨v, rest, rfl, hfree, hv, hrest⟩ := hmembers
    obtain ⟨n, hvalue⟩ := returns_toValue hJ value hv
    obtain ⟨m, hloop⟩ := returns_members hJ members hrest
    refine ⟨max n m + 1, fun fuel hfuel t entries k done stack ht hdistinct hk ha => ?_⟩
    obtain ⟨fuel, rfl⟩ := Nat.exists_eq_add_of_le' (Nat.le_trans (Nat.le_add_left 1 _) hfuel)
    have hfuel := Nat.le_of_succ_le_succ hfuel
    refine tableLoop_string ht hk ha hfree
      (hvalue fuel (Nat.le_trans (Nat.le_max_left n m) hfuel) _)
      (emplaceNocheck_objectOf hJ done key value) ?_
    have hresult := hloop fuel (Nat.le_trans (Nat.le_max_right n m) hfuel) t entries
      (recordKey key) (done ++ [(key, value)]) stack ht hdistinct rfl (ha.visit hdistinct nofun)
    rwa [List.append_assoc] at hresult
end

def textOf (J : JsonLibrary) : Json → String
  | .string s => s
  | j => J.toString j

theorem returns_toString (hJ : J.Builds) {j : Json} {v : Value} (hv : Denotes h lo v j) :
    ∃ n, ∀ fuel, n ≤ fuel → ∀ stack,
      Returns (toString J fuel none) (on h (v :: stack)) (textOf J j) (on h (v :: stack)) := by
  obtain ⟨n, hvalue⟩ := returns_toValue hJ j hv
  refine ⟨n, fun fuel hfuel stack => (hvalue fuel hfuel stack).bind ?_⟩
  cases j <;> rfl

end LambdaExecutor.Lua.Serializer
