import LambdaExecutor.Lua.DeserializerLaws
import LambdaExecutor.Lua.Encodes

/-!
# The leaves of a value

What is read back for a value has each leaf of it: under the same name, up to a
NUL, or under the place of the leaf among the entries. The tree that the value
spells leads from the one to the other.
-/

namespace LambdaExecutor.Lua

open Formats

def Heap.follow (h : Heap) (v : Value) : List Value → Value
  | [] => v
  | key :: keys =>
    match v with
    | .table t => h.follow ((h.entries t).get key) keys
    | _ => .nil

/-- `leaf` is somewhere in `v`; in what is read back for `v`, these keys lead to it. -/
inductive LeafAt (h : Heap) : Value → List Value → Value → Prop
  | here (v : Value) : LeafAt h v [] v
  | name {t : TableRef} {key : String} {v leaf : Value} {keys : List Value}
      (hmem : (.string key, v) ∈ h.entries t) (hleaf : LeafAt h v keys leaf) :
      LeafAt h (.table t) (recordKey (cString key) :: keys) leaf
  | item {t : TableRef} {k : Nat} {n : Number} {v leaf : Value} {keys : List Value}
      (hget : (h.entries t)[k]? = some (.number n, v)) (hleaf : LeafAt h v keys leaf) :
      LeafAt h (.table t) (sequenceKey (1 + k) :: keys) leaf

variable {h h' : Heap} {lo t : TableRef} {entries : Table} {v w leaf : Value} {keys : List Value}

theorem Heap.entries_eq (ht : h[t]? = some entries) : h.entries t = entries := by
  rw [Heap.entries, ht, Option.getD_some]

-- ---------------------------------------------------------------------------
-- From the tree to what is read back
-- ---------------------------------------------------------------------------

theorem DenotesMembers.get {members : List (String × Json)} {name : String} {value : Json}
    (hmembers : DenotesMembers h lo entries members) (hdistinct : (members.map Prod.fst).Nodup)
    (hmem : (name, value) ∈ members) : Denotes h lo (entries.get (recordKey name)) value := by
  induction members generalizing entries with
  | nil => exact nomatch hmem
  | cons member members ih =>
    obtain ⟨hnew, hdistinct⟩ := List.nodup_cons.mp hdistinct
    obtain ⟨v, rest, rfl, -, hv, hrest⟩ := hmembers
    rw [Table.get_cons]
    obtain rfl | hmem := List.mem_cons.mp hmem
    · rwa [if_pos rfl]
    · have hne : recordKey member.1 ≠ recordKey name := fun heq =>
        hnew (List.mem_map.mpr ⟨_, hmem, (Value.string.inj heq).symm⟩)
      rw [if_neg hne]
      exact ih hrest hdistinct hmem

theorem DenotesItems.get {items : List Json} {i k : Nat} {item : Json}
    (hitems : DenotesItems h lo i entries items) (hlength : i + items.length ≤ 2 ^ 53)
    (hget : items[k]? = some item) : Denotes h lo (entries.get (sequenceKey (i + k))) item := by
  induction items generalizing entries i k with
  | nil => exact nomatch hget
  | cons first items ih =>
    obtain ⟨v, rest, rfl, hv, hrest⟩ := hitems
    rw [List.length_cons] at hlength
    rw [Table.get_cons]
    cases k with
    | zero =>
      obtain rfl := Option.some.inj hget
      rwa [Nat.add_zero, if_pos rfl]
    | succ k =>
      have hget : items[k]? = some item := hget
      have hlt : k < items.length := (List.getElem?_eq_some_iff.mp hget).1
      have hne : sequenceKey i ≠ sequenceKey (i + (k + 1)) := fun heq => by
        have hindex := Serializer.sequenceKey_injective (by omega) (by omega) heq
        omega
      have hnext := ih hrest (by omega) hget
      rwa [if_neg hne, show i + (k + 1) = i + 1 + k by omega]

theorem LeafAt.follow (hleaf : LeafAt h v keys leaf) {j : Json} (hv : Encodes h v j)
    (hw : Denotes h' lo w j) :
    ∃ part, Encodes h leaf part ∧ Denotes h' lo (h'.follow w keys) part := by
  induction hleaf generalizing w j with
  | here v => exact ⟨j, hv, hw⟩
  | @name t key v leaf keys hmem hleaf ih =>
    cases j with
    | object members =>
      obtain ⟨_, heq, -, hmembers⟩ := hv
      obtain rfl := Value.table.inj heq
      obtain ⟨u, entries, rfl, -, hu, -, hdistinct, hmembers'⟩ := hw
      obtain ⟨value, hvalue, hv⟩ := hmembers.exists_part hmem
      rw [Heap.follow, Heap.entries_eq hu]
      exact ih hv (hmembers'.get hdistinct hvalue)
    | array items =>
      obtain ⟨_, heq, -, hitems⟩ := hv
      obtain rfl := Value.table.inj heq
      exact nomatch (EncodesItems.serializable items hitems _ hmem).1
    | null | bool b | number d | string s => simp [Encodes, Denotes] at hv hw
  | @item t k n v leaf keys hget hleaf ih =>
    cases j with
    | array items =>
      obtain ⟨_, heq, -, hitems⟩ := hv
      obtain rfl := Value.table.inj heq
      obtain ⟨u, entries, rfl, -, hu, -, hlength, hitems'⟩ := hw
      obtain ⟨item, hitem, hv⟩ := hitems.exists_part hget
      rw [Heap.follow, Heap.entries_eq hu]
      exact ih hv (hitems'.get (by omega) hitem)
    | object members =>
      obtain ⟨_, heq, -, hmembers⟩ := hv
      obtain rfl := Value.table.inj heq
      exact nomatch (EncodesMembers.serializable members hmembers _ (List.mem_of_getElem? hget)).1
    | null | bool b | number d | string s => simp [Encodes, Denotes] at hv hw

-- ---------------------------------------------------------------------------
-- Trees without null
-- ---------------------------------------------------------------------------

theorem Heap.length_entries_lt {n : Nat} (hn : 0 < n) (hsize : ∀ entries ∈ h, entries.length < n)
    (t : TableRef) : (h.entries t).length < n := by
  unfold Heap.entries
  cases ht : h[t]? with
  | none => exact hn
  | some entries => exact hsize entries (List.mem_of_getElem? ht)

open Deserializer

mutual
theorem restorable_of_encodes (hsize : ∀ entries ∈ h, entries.length < 2 ^ 53) :
    (j : Json) → {v : Value} → Encodes h v j → j.All (· ≠ .null) →
    j.All Json.DistinctNames → j.All Restorable
  | .null, _, _, hnull, _ => hnull rfl
  | .bool _, _, _, _, _ => trivial
  | .number _, _, hv, _, _ => by
    obtain ⟨n, -, -, q, hq, rfl⟩ := hv
    trivial
  | .string _, _, hv, _, _ => by
    obtain ⟨text, -, rfl⟩ := hv
    exact nulFree_cString text
  | .array items, _, hv, hnull, hdistinct => by
    obtain ⟨t, -, hne, hitems⟩ := hv
    refine ⟨⟨hne, ?_⟩, restorable_of_encodesItems hsize items hitems hnull.2 hdistinct.2⟩
    rw [hitems.length_eq]
    exact Heap.length_entries_lt (by decide) hsize t
  | .object members, _, hv, hnull, hdistinct => by
    obtain ⟨t, -, hne, hmembers⟩ := hv
    exact ⟨⟨hne, hdistinct.1, hmembers.nulFree⟩,
      restorable_of_encodesMembers hsize members hmembers hnull.2 hdistinct.2⟩
theorem restorable_of_encodesItems (hsize : ∀ entries ∈ h, entries.length < 2 ^ 53) :
    (items : List Json) → {entries : Table} →
    EncodesItems h entries items → Json.AllItems (· ≠ .null) items →
      Json.AllItems Json.DistinctNames items → Json.AllItems Restorable items
  | [], _, _, _, _ => trivial
  | item :: items, _, ⟨_, _, _, _, hv, hrest⟩, hnull, hdistinct =>
    ⟨restorable_of_encodes hsize item hv hnull.1 hdistinct.1,
      restorable_of_encodesItems hsize items hrest hnull.2 hdistinct.2⟩
theorem restorable_of_encodesMembers (hsize : ∀ entries ∈ h, entries.length < 2 ^ 53) :
    (members : List (String × Json)) → {entries : Table} →
    EncodesMembers h entries members → Json.AllMembers (· ≠ .null) members →
      Json.AllMembers Json.DistinctNames members → Json.AllMembers Restorable members
  | [], _, _, _, _ => trivial
  | (_, value) :: members, _, ⟨_, _, _, _, _, hv, hrest⟩, hnull, hdistinct =>
    ⟨restorable_of_encodes hsize value hv hnull.1 hdistinct.1,
      restorable_of_encodesMembers hsize members hrest hnull.2 hdistinct.2⟩
end

end LambdaExecutor.Lua
