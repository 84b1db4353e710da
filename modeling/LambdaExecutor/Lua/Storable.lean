import LambdaExecutor.Formats.Json
import LambdaExecutor.Lua.Value

/-!
# Values that can be stored

A storable value is a tree of non-empty records and sequences over strings,
numbers and booleans. `Denotes` says that a value in a heap is the value of a
JSON tree, all its tables at or above `lo`. Two values which denote the same tree
have the same content, each in its own heap.
-/

namespace LambdaExecutor.Lua

open Formats

def sequenceKey (i : Nat) : Value := .number (.integer (Int64.ofNat i))

def recordKey (key : String) : Value := .string key

inductive Storable (h : Heap) : Value → Prop
  | string {s : String} (hs : NulFree s) : Storable h (.string s)
  | number {n : Number} (hn : n.Exact) : Storable h (.number n)
  | boolean (b : Bool) : Storable h (.boolean b)
  | record {t : TableRef} {entries : Table} (ht : h[t]? = some entries) (hne : entries ≠ [])
      (hwf : entries.WellFormed)
      (hkeys : ∀ entry ∈ entries, ∃ key, entry.1 = recordKey key ∧ NulFree key)
      (hvalues : ∀ entry ∈ entries, Storable h entry.2) : Storable h (.table t)
  /-- The keys `1..n` in this order. -/
  | sequence {t : TableRef} {entries : Table} (ht : h[t]? = some entries) (hne : entries ≠ [])
      (hlength : entries.length < 2 ^ 53)
      (hkeys : entries.map Prod.fst = (List.range' 1 entries.length).map sequenceKey)
      (hvalues : ∀ entry ∈ entries, Storable h entry.2) : Storable h (.table t)

/-- Equality by content: tables with equal values under every key. -/
inductive ContentEq (h h' : Heap) : Value → Value → Prop
  | nil : ContentEq h h' .nil .nil
  | boolean (b : Bool) : ContentEq h h' (.boolean b) (.boolean b)
  | number {m n : Number} (hmn : m.Equal n) : ContentEq h h' (.number m) (.number n)
  | string (s : String) : ContentEq h h' (.string s) (.string s)
  | table {t t' : TableRef} {entries entries' : Table} (ht : h[t]? = some entries)
      (ht' : h'[t']? = some entries')
      (hget : ∀ k, ContentEq h h' (entries.get k) (entries'.get k)) :
      ContentEq h h' (.table t) (.table t')

mutual
def Denotes (h : Heap) (lo : TableRef) (v : Value) : Json → Prop
  | .null => False
  | .bool b => v = .boolean b
  | .number d => ∃ n : Number, v = .number n ∧ n.Exact ∧ n.toDouble = d
  | .string s => v = .string s ∧ NulFree s
  | .array items => ∃ t entries, v = .table t ∧ lo ≤ t ∧ h[t]? = some entries ∧ items ≠ [] ∧
      items.length < 2 ^ 53 ∧ DenotesItems h lo 1 entries items
  | .object members => ∃ t entries, v = .table t ∧ lo ≤ t ∧ h[t]? = some entries ∧
      members ≠ [] ∧ (members.map Prod.fst).Nodup ∧ DenotesMembers h lo entries members
def DenotesItems (h : Heap) (lo : TableRef) (i : Nat) (entries : Table) : List Json → Prop
  | [] => entries = []
  | item :: items => ∃ v rest, entries = (sequenceKey i, v) :: rest ∧ Denotes h lo v item ∧
      DenotesItems h lo (i + 1) rest items
def DenotesMembers (h : Heap) (lo : TableRef) (entries : Table) :
    List (String × Json) → Prop
  | [] => entries = []
  | (key, value) :: members => ∃ v rest, entries = (recordKey key, v) :: rest ∧ NulFree key ∧
      Denotes h lo v value ∧ DenotesMembers h lo rest members
end

variable {h h' : Heap} {lo lo' : TableRef}

theorem Denotes.ne_nil {v : Value} {j : Json} (hv : Denotes h lo v j) : v ≠ .nil := by
  rintro rfl
  cases j <;> simp [Denotes] at hv

-- ---------------------------------------------------------------------------
-- Other heaps
-- ---------------------------------------------------------------------------

/-- The tables from `lo` on are the same in the second heap. -/
def KeepsFrom (lo : TableRef) (h h' : Heap) : Prop :=
  ∀ t, lo ≤ t → ∀ entries, h[t]? = some entries → h'[t]? = some entries

mutual
theorem Denotes.keep (hk : KeepsFrom lo h h') (hlo : lo' ≤ lo) :
    (j : Json) → {v : Value} → Denotes h lo v j → Denotes h' lo' v j
  | .null, _, hv => hv
  | .bool _, _, hv => hv
  | .number _, _, hv => hv
  | .string _, _, hv => hv
  | .array items, _, hv => by
    obtain ⟨t, entries, rfl, ht, hentries, hne, hlength, hitems⟩ := hv
    exact ⟨t, entries, rfl, Nat.le_trans hlo ht, hk t ht entries hentries, hne, hlength,
      DenotesItems.keep hk hlo items hitems⟩
  | .object members, _, hv => by
    obtain ⟨t, entries, rfl, ht, hentries, hne, hdistinct, hmembers⟩ := hv
    exact ⟨t, entries, rfl, Nat.le_trans hlo ht, hk t ht entries hentries, hne, hdistinct,
      DenotesMembers.keep hk hlo members hmembers⟩
theorem DenotesItems.keep (hk : KeepsFrom lo h h') (hlo : lo' ≤ lo) :
    (items : List Json) → {i : Nat} → {entries : Table} → DenotesItems h lo i entries items →
      DenotesItems h' lo' i entries items
  | [], _, _, hitems => hitems
  | item :: items, _, _, hitems => by
    obtain ⟨v, rest, rfl, hv, hrest⟩ := hitems
    exact ⟨v, rest, rfl, Denotes.keep hk hlo item hv, DenotesItems.keep hk hlo items hrest⟩
theorem DenotesMembers.keep (hk : KeepsFrom lo h h') (hlo : lo' ≤ lo) :
    (members : List (String × Json)) → {entries : Table} → DenotesMembers h lo entries members →
      DenotesMembers h' lo' entries members
  | [], _, hmembers => hmembers
  | (_, value) :: members, _, hmembers => by
    obtain ⟨v, rest, rfl, hkey, hv, hrest⟩ := hmembers
    exact ⟨v, rest, rfl, hkey, Denotes.keep hk hlo value hv,
      DenotesMembers.keep hk hlo members hrest⟩
end

-- ---------------------------------------------------------------------------
-- Content
-- ---------------------------------------------------------------------------

theorem Number.Exact.equal {m n : Number} (hm : m.Exact) (hn : n.Exact)
    (h : m.toDouble = n.toDouble) : m.Equal n := by
  obtain ⟨hmq, q, hq⟩ := hm.quantity
  obtain ⟨hnq, -⟩ := hn.quantity
  exact ⟨q, hq, by rw [← hnq, ← h, hmq, hq]⟩

mutual
theorem Denotes.contentEq : (j : Json) → {v w : Value} → Denotes h lo v j → Denotes h' lo' w j →
    ContentEq h h' v w
  | .null, _, _, hv, _ => hv.elim
  | .bool b, _, _, hv, hw => by
    obtain rfl : _ = Value.boolean b := hv
    obtain rfl : _ = Value.boolean b := hw
    exact .boolean b
  | .number d, _, _, hv, hw => by
    obtain ⟨m, rfl, hm, hmd⟩ := hv
    obtain ⟨n, rfl, hn, hnd⟩ := hw
    exact .number (hm.equal hn (hmd.trans hnd.symm))
  | .string s, _, _, hv, hw => by
    obtain ⟨rfl, -⟩ := hv
    obtain ⟨rfl, -⟩ := hw
    exact .string s
  | .array items, _, _, hv, hw => by
    obtain ⟨t, entries, rfl, -, ht, -, -, hitems⟩ := hv
    obtain ⟨t', entries', rfl, -, ht', -, -, hitems'⟩ := hw
    exact .table ht ht' (DenotesItems.contentEq items hitems hitems')
  | .object members, _, _, hv, hw => by
    obtain ⟨t, entries, rfl, -, ht, -, -, hmembers⟩ := hv
    obtain ⟨t', entries', rfl, -, ht', -, -, hmembers'⟩ := hw
    exact .table ht ht' (DenotesMembers.contentEq members hmembers hmembers')
theorem DenotesItems.contentEq : (items : List Json) → {i : Nat} → {entries entries' : Table} →
    DenotesItems h lo i entries items → DenotesItems h' lo' i entries' items →
      ∀ k, ContentEq h h' (entries.get k) (entries'.get k)
  | [], _, _, _, hitems, hitems', k => by
    obtain rfl : _ = [] := hitems
    obtain rfl : _ = [] := hitems'
    exact .nil
  | item :: items, _, _, _, hitems, hitems', k => by
    obtain ⟨v, rest, rfl, hv, hrest⟩ := hitems
    obtain ⟨w, rest', rfl, hw, hrest'⟩ := hitems'
    rw [Table.get_cons, Table.get_cons]
    split
    · exact Denotes.contentEq item hv hw
    · exact DenotesItems.contentEq items hrest hrest' k
theorem DenotesMembers.contentEq : (members : List (String × Json)) →
    {entries entries' : Table} → DenotesMembers h lo entries members →
      DenotesMembers h' lo' entries' members →
        ∀ k, ContentEq h h' (entries.get k) (entries'.get k)
  | [], _, _, hmembers, hmembers', k => by
    obtain rfl : _ = [] := hmembers
    obtain rfl : _ = [] := hmembers'
    exact .nil
  | (_, value) :: members, _, _, hmembers, hmembers', k => by
    obtain ⟨v, rest, rfl, -, hv, hrest⟩ := hmembers
    obtain ⟨w, rest', rfl, -, hw, hrest'⟩ := hmembers'
    rw [Table.get_cons, Table.get_cons]
    split
    · exact Denotes.contentEq value hv hw
    · exact DenotesMembers.contentEq members hrest hrest' k
end

theorem not_denotesMembers_of_items {i : Nat} {entries : Table} {items : List Json}
    {members : List (String × Json)} (hne : items ≠ [])
    (hitems : DenotesItems h lo i entries items) : ¬ DenotesMembers h lo' entries members := by
  obtain ⟨item, items, rfl⟩ := List.exists_cons_of_ne_nil hne
  obtain ⟨v, rest, rfl, -⟩ := hitems
  intro hmembers
  cases members <;> simp [DenotesMembers, recordKey, sequenceKey] at hmembers

mutual
theorem Denotes.unique : (j : Json) → {v : Value} → {j' : Json} → Denotes h lo v j →
    Denotes h lo' v j' → j = j'
  | .null, _, _, hv, _ => hv.elim
  | .bool b, _, j', hv, hv' => by
    obtain rfl : _ = Value.boolean b := hv
    cases j' <;> simp_all [Denotes]
  | .number d, _, j', hv, hv' => by
    obtain ⟨n, rfl, -, hd⟩ := hv
    cases j' <;> simp_all [Denotes]
  | .string s, _, j', hv, hv' => by
    obtain ⟨rfl, -⟩ := hv
    cases j' <;> simp_all [Denotes]
  | .array items, _, j', hv, hv' => by
    obtain ⟨t, entries, rfl, -, ht, hne, -, hitems⟩ := hv
    cases j' with
    | array items' =>
      obtain ⟨t', entries', ht', -, hentries, -, -, hitems'⟩ := hv'
      obtain rfl := Value.table.inj ht'
      obtain rfl := Option.some.inj (ht.symm.trans hentries)
      rw [DenotesItems.unique items hitems hitems']
    | object members =>
      obtain ⟨t', entries', ht', -, hentries, hne', -, hmembers⟩ := hv'
      obtain rfl := Value.table.inj ht'
      obtain rfl := Option.some.inj (ht.symm.trans hentries)
      exact absurd hmembers (not_denotesMembers_of_items hne hitems)
    | null | bool b | number d | string s => simp [Denotes] at hv'
  | .object members, _, j', hv, hv' => by
    obtain ⟨t, entries, rfl, -, ht, hne, -, hmembers⟩ := hv
    cases j' with
    | object members' =>
      obtain ⟨t', entries', ht', -, hentries, -, -, hmembers'⟩ := hv'
      obtain rfl := Value.table.inj ht'
      obtain rfl := Option.some.inj (ht.symm.trans hentries)
      rw [DenotesMembers.unique members hmembers hmembers']
    | array items =>
      obtain ⟨t', entries', ht', -, hentries, hne', -, hitems⟩ := hv'
      obtain rfl := Value.table.inj ht'
      obtain rfl := Option.some.inj (ht.symm.trans hentries)
      exact absurd hmembers (not_denotesMembers_of_items hne' hitems)
    | null | bool b | number d | string s => simp [Denotes] at hv'
theorem DenotesItems.unique : (items : List Json) → {i : Nat} → {entries : Table} →
    {items' : List Json} → DenotesItems h lo i entries items →
      DenotesItems h lo' i entries items' → items = items'
  | [], _, _, items', hitems, hitems' => by
    obtain rfl : _ = [] := hitems
    cases items' with
    | nil => rfl
    | cons item items' => exact absurd hitems' (by simp [DenotesItems])
  | item :: items, _, _, items', hitems, hitems' => by
    obtain ⟨v, rest, rfl, hv, hrest⟩ := hitems
    cases items' with
    | nil => exact nomatch (show _ = [] from hitems')
    | cons item' items' =>
      obtain ⟨v', rest', heq, hv', hrest'⟩ := hitems'
      simp only [List.cons.injEq, Prod.mk.injEq, true_and] at heq
      obtain ⟨rfl, rfl⟩ := heq
      rw [Denotes.unique item hv hv', DenotesItems.unique items hrest hrest']
theorem DenotesMembers.unique : (members : List (String × Json)) → {entries : Table} →
    {members' : List (String × Json)} → DenotesMembers h lo entries members →
      DenotesMembers h lo' entries members' → members = members'
  | [], _, members', hmembers, hmembers' => by
    obtain rfl : _ = [] := hmembers
    cases members' with
    | nil => rfl
    | cons member members' => exact absurd hmembers' (by simp [DenotesMembers])
  | (key, value) :: members, _, members', hmembers, hmembers' => by
    obtain ⟨v, rest, rfl, -, hv, hrest⟩ := hmembers
    cases members' with
    | nil => exact nomatch (show _ = [] from hmembers')
    | cons member' members' =>
      obtain ⟨v', rest', heq, -, hv', hrest'⟩ := hmembers'
      simp only [recordKey, List.cons.injEq, Prod.mk.injEq, Value.string.injEq] at heq
      obtain ⟨⟨rfl, rfl⟩, rfl⟩ := heq
      rw [Denotes.unique value hv hv', DenotesMembers.unique members hrest hrest']
end

-- ---------------------------------------------------------------------------
-- A storable value denotes a tree
-- ---------------------------------------------------------------------------

theorem exists_items {entries : Table} (i : Nat)
    (hkeys : entries.map Prod.fst = (List.range' i entries.length).map sequenceKey)
    (hvalues : ∀ entry ∈ entries, ∃ j, Denotes h 0 entry.2 j) :
    ∃ items, DenotesItems h 0 i entries items ∧ items.length = entries.length := by
  induction entries generalizing i with
  | nil => exact ⟨[], rfl, rfl⟩
  | cons entry rest ih =>
    rw [List.length_cons, List.range'_succ, List.map_cons, List.map_cons,
      List.cons.injEq] at hkeys
    rw [List.forall_mem_cons] at hvalues
    obtain ⟨item, hitem⟩ := hvalues.1
    obtain ⟨items, hitems, hlength⟩ := ih (i + 1) hkeys.2 hvalues.2
    refine ⟨item :: items, ⟨entry.2, rest, ?_, hitem, hitems⟩, congrArg (· + 1) hlength⟩
    rw [← hkeys.1]

theorem exists_members {entries : Table}
    (hkeys : ∀ entry ∈ entries, ∃ key, entry.1 = recordKey key ∧ NulFree key)
    (hvalues : ∀ entry ∈ entries, ∃ j, Denotes h 0 entry.2 j) :
    ∃ members, DenotesMembers h 0 entries members ∧
      entries.map Prod.fst = (members.map Prod.fst).map recordKey := by
  induction entries with
  | nil => exact ⟨[], rfl, rfl⟩
  | cons entry rest ih =>
    rw [List.forall_mem_cons] at hkeys hvalues
    obtain ⟨key, hkey, hfree⟩ := hkeys.1
    obtain ⟨value, hvalue⟩ := hvalues.1
    obtain ⟨members, hmembers, hrest⟩ := ih hkeys.2 hvalues.2
    refine ⟨(key, value) :: members, ⟨entry.2, rest, ?_, hfree, hvalue, hmembers⟩, ?_⟩
    · rw [← hkey]
    · simp [hkey, hrest]

theorem Storable.exists_denotes {v : Value} (hv : Storable h v) : ∃ j, Denotes h 0 v j := by
  induction hv with
  | @string s hs => exact ⟨.string s, rfl, hs⟩
  | @number n hn => exact ⟨.number n.toDouble, n, rfl, hn, rfl⟩
  | boolean b => exact ⟨.bool b, rfl⟩
  | @record t entries ht hne hwf hkeys hvalues ih =>
    obtain ⟨members, hmembers, hnames⟩ := exists_members hkeys ih
    refine ⟨.object members, t, entries, rfl, Nat.zero_le t, ht, ?_, ?_, hmembers⟩
    · rintro rfl
      exact hne hmembers
    · exact List.Nodup.of_map recordKey (hnames ▸ hwf.1)
  | @sequence t entries ht hne hlength hkeys hvalues ih =>
    obtain ⟨items, hitems, hitemsLength⟩ := exists_items 1 hkeys ih
    refine ⟨.array items, t, entries, rfl, Nat.zero_le t, ht, ?_, ?_, hitems⟩
    · rintro rfl
      exact hne hitems
    · rwa [hitemsLength]

end LambdaExecutor.Lua
