import LambdaExecutor.Formats.Json
import LambdaExecutor.Lua.Value

/-!
# Values that spell a JSON tree

`Encodes` says which JSON tree a value spells, table by table in the order of
traversal, and `Serializable` which values spell one: those in whose tables the
keys are all strings or all numbers. Neither looks at the serializer.
-/

namespace LambdaExecutor.Lua

open Formats

def Heap.entries (h : Heap) (t : TableRef) : Table := h[t]?.getD []

/-- A table as Lua keeps it: no key twice, no nil, and no float that an integer stands for. -/
def Table.Lawful (t : Table) : Prop :=
  (t.map Prod.fst).Nodup ∧ ∀ entry ∈ t, entry.1 ≠ .nil ∧ entry.1.toKey = entry.1

instance (t : Table) : Decidable t.Lawful := inferInstanceAs (Decidable (_ ∧ _))

def Heap.Lawful (h : Heap) : Prop := ∀ entries ∈ h, Table.Lawful entries

instance (h : Heap) : Decidable h.Lawful := inferInstanceAs (Decidable (∀ _ ∈ _, _))

theorem Heap.Lawful.entries {h : Heap} (hh : h.Lawful) (t : TableRef) : (h.entries t).Lawful := by
  unfold Heap.entries
  cases ht : h[t]? with
  | none => exact ⟨List.nodup_nil, List.forall_mem_nil _⟩
  | some entries => exact hh entries (List.mem_of_getElem? ht)

def IsKey (key : Value) : Prop := key.type = .string ∨ key.type = .number

instance (key : Value) : Decidable (IsKey key) := inferInstanceAs (Decidable (_ ∨ _))

/-- All keys are strings or all keys are numbers. -/
def SameKind (entries : Table) : Prop :=
  (∀ entry ∈ entries, entry.1.type = .string) ∨ ∀ entry ∈ entries, entry.1.type = .number

instance (entries : Table) : Decidable (SameKind entries) := inferInstanceAs (Decidable (_ ∨ _))

theorem SameKind.isKey {entries : Table} (hkind : SameKind entries) :
    ∀ entry ∈ entries, IsKey entry.1 := by
  intro entry hmem
  exact hkind.imp (fun h => h entry hmem) fun h => h entry hmem

theorem SameKind.mono {entries entries' : Table} (hkind : SameKind entries)
    (hsub : entries' ⊆ entries) : SameKind entries' :=
  hkind.imp (fun h entry hmem => h entry (hsub hmem)) fun h entry hmem => h entry (hsub hmem)

def Double.IsFinite (d : Double) : Prop := ∃ q h, d = .finite q h

inductive Serializable (h : Heap) : Value → Prop
  | string (s : String) : Serializable h (.string s)
  | boolean (b : Bool) : Serializable h (.boolean b)
  | number {n : Number} (hn : Double.IsFinite n.toDouble) : Serializable h (.number n)
  | table {t : TableRef} (hkind : SameKind (h.entries t))
      (hvalues : ∀ entry ∈ h.entries t, Serializable h entry.2) : Serializable h (.table t)

mutual
def Encodes (h : Heap) (v : Value) : Json → Prop
  | .null => ∃ t, v = .table t ∧ h.entries t = []
  | .bool b => v = .boolean b
  | .number d => ∃ n : Number, v = .number n ∧ n.toDouble = d ∧ Double.IsFinite d
  | .string s => ∃ text, v = .string text ∧ cString text = s
  | .array items => ∃ t, v = .table t ∧ items ≠ [] ∧ EncodesItems h (h.entries t) items
  | .object members => ∃ t, v = .table t ∧ members ≠ [] ∧ EncodesMembers h (h.entries t) members
def EncodesItems (h : Heap) (entries : Table) : List Json → Prop
  | [] => entries = []
  | item :: items => ∃ n v rest, entries = (.number n, v) :: rest ∧ Encodes h v item ∧
      EncodesItems h rest items
def EncodesMembers (h : Heap) (entries : Table) : List (String × Json) → Prop
  | [] => entries = []
  | (name, value) :: members => ∃ key v rest, entries = (.string key, v) :: rest ∧
      cString key = name ∧ Encodes h v value ∧ EncodesMembers h rest members
end

variable {h : Heap} {entries : Table} {v : Value}

theorem type_eq_string {key : Value} (hkey : key.type = .string) : ∃ s, key = .string s := by
  cases key <;> simp_all [Value.type]

theorem type_eq_number {key : Value} (hkey : key.type = .number) : ∃ n, key = .number n := by
  cases key <;> simp_all [Value.type]

theorem Encodes.type {j : Json} (hj : Encodes h v j) :
    v.type = .string ∨ v.type = .number ∨ v.type = .table ∨ v.type = .boolean := by
  cases j with
  | null | array | object =>
    obtain ⟨t, rfl, -⟩ := hj
    exact .inr (.inr (.inl rfl))
  | bool b =>
    obtain rfl : v = .boolean b := hj
    exact .inr (.inr (.inr rfl))
  | number d =>
    obtain ⟨n, rfl, -⟩ := hj
    exact .inr (.inl rfl)
  | string s =>
    obtain ⟨text, rfl, -⟩ := hj
    exact .inl rfl

theorem exists_encodesItems (hkeys : ∀ entry ∈ entries, entry.1.type = .number)
    (hvalues : ∀ entry ∈ entries, ∃ j, Encodes h entry.2 j) :
    ∃ items, EncodesItems h entries items ∧ (items = [] ↔ entries = []) := by
  induction entries with
  | nil => exact ⟨[], rfl, iff_of_true rfl rfl⟩
  | cons entry rest ih =>
    rw [List.forall_mem_cons] at hkeys hvalues
    obtain ⟨n, hn⟩ := type_eq_number hkeys.1
    obtain ⟨item, hitem⟩ := hvalues.1
    obtain ⟨items, hitems, -⟩ := ih hkeys.2 hvalues.2
    refine ⟨item :: items, ⟨n, entry.2, rest, ?_, hitem, hitems⟩, iff_of_false nofun nofun⟩
    rw [← hn]

theorem exists_encodesMembers (hkeys : ∀ entry ∈ entries, entry.1.type = .string)
    (hvalues : ∀ entry ∈ entries, ∃ j, Encodes h entry.2 j) :
    ∃ members, EncodesMembers h entries members ∧ (members = [] ↔ entries = []) := by
  induction entries with
  | nil => exact ⟨[], rfl, iff_of_true rfl rfl⟩
  | cons entry rest ih =>
    rw [List.forall_mem_cons] at hkeys hvalues
    obtain ⟨key, hkey⟩ := type_eq_string hkeys.1
    obtain ⟨value, hvalue⟩ := hvalues.1
    obtain ⟨members, hmembers, -⟩ := ih hkeys.2 hvalues.2
    refine ⟨(cString key, value) :: members, ⟨key, entry.2, rest, ?_, rfl, hvalue, hmembers⟩,
      iff_of_false nofun nofun⟩
    rw [← hkey]

theorem Serializable.exists_encodes (hv : Serializable h v) : ∃ j, Encodes h v j := by
  induction hv with
  | string s => exact ⟨.string (cString s), s, rfl, rfl⟩
  | boolean b => exact ⟨.bool b, rfl⟩
  | @number n hn => exact ⟨.number n.toDouble, n, rfl, rfl, hn⟩
  | @table t hkind _ ih =>
    by_cases hempty : h.entries t = []
    · exact ⟨.null, t, rfl, hempty⟩
    · rcases hkind with hkeys | hkeys
      · obtain ⟨members, hmembers, hne⟩ := exists_encodesMembers hkeys ih
        exact ⟨.object members, t, rfl, mt hne.mp hempty, hmembers⟩
      · obtain ⟨items, hitems, hne⟩ := exists_encodesItems hkeys ih
        exact ⟨.array items, t, rfl, mt hne.mp hempty, hitems⟩

mutual
theorem Encodes.serializable : (j : Json) → {v : Value} → Encodes h v j → Serializable h v
  | .null, _, hv => by
    obtain ⟨t, rfl, hempty⟩ := hv
    have hnone : ∀ (P : Value × Value → Prop), ∀ entry ∈ h.entries t, P entry := by simp [hempty]
    exact .table (.inl (hnone _)) (hnone _)
  | .bool b, _, hv => by
    obtain rfl : _ = Value.boolean b := hv
    exact .boolean b
  | .number d, _, hv => by
    obtain ⟨n, rfl, rfl, hfinite⟩ := hv
    exact .number hfinite
  | .string s, _, hv => by
    obtain ⟨text, rfl, -⟩ := hv
    exact .string text
  | .array items, _, hv => by
    obtain ⟨t, rfl, -, hitems⟩ := hv
    have hentries := EncodesItems.serializable items hitems
    exact .table (.inr fun entry hmem => (hentries entry hmem).1)
      fun entry hmem => (hentries entry hmem).2
  | .object members, _, hv => by
    obtain ⟨t, rfl, -, hmembers⟩ := hv
    have hentries := EncodesMembers.serializable members hmembers
    exact .table (.inl fun entry hmem => (hentries entry hmem).1)
      fun entry hmem => (hentries entry hmem).2
theorem EncodesItems.serializable : (items : List Json) → {entries : Table} →
    EncodesItems h entries items →
      ∀ entry ∈ entries, entry.1.type = .number ∧ Serializable h entry.2
  | [], _, hitems => by
    obtain rfl : _ = [] := hitems
    exact List.forall_mem_nil _
  | item :: items, _, hitems => by
    obtain ⟨n, v, rest, rfl, hv, hrest⟩ := hitems
    rw [List.forall_mem_cons]
    exact ⟨⟨rfl, Encodes.serializable item hv⟩, EncodesItems.serializable items hrest⟩
theorem EncodesMembers.serializable : (members : List (String × Json)) → {entries : Table} →
    EncodesMembers h entries members →
      ∀ entry ∈ entries, entry.1.type = .string ∧ Serializable h entry.2
  | [], _, hmembers => by
    obtain rfl : _ = [] := hmembers
    exact List.forall_mem_nil _
  | (_, value) :: members, _, hmembers => by
    obtain ⟨key, v, rest, rfl, -, hv, hrest⟩ := hmembers
    rw [List.forall_mem_cons]
    exact ⟨⟨rfl, Encodes.serializable value hv⟩, EncodesMembers.serializable members hrest⟩
end

-- ---------------------------------------------------------------------------
-- Parts of the tree
-- ---------------------------------------------------------------------------

theorem EncodesMembers.exists_part {members : List (String × Json)} {key : String}
    (hmembers : EncodesMembers h entries members) (hmem : (.string key, v) ∈ entries) :
    ∃ value, (cString key, value) ∈ members ∧ Encodes h v value := by
  induction members generalizing entries with
  | nil =>
    obtain rfl : entries = [] := hmembers
    exact nomatch hmem
  | cons member members ih =>
    obtain ⟨key', v', rest, rfl, hname, hv', hrest⟩ := hmembers
    obtain heq | hmem := List.mem_cons.mp hmem
    · obtain ⟨hkey, rfl⟩ := Prod.mk.inj heq
      obtain rfl := Value.string.inj hkey
      exact ⟨member.2, hname ▸ List.mem_cons_self, hv'⟩
    · obtain ⟨value, hvalue, hv⟩ := ih hrest hmem
      exact ⟨value, List.mem_cons_of_mem _ hvalue, hv⟩

theorem EncodesItems.exists_part {items : List Json} {k : Nat} {entry : Value × Value}
    (hitems : EncodesItems h entries items) (hget : entries[k]? = some entry) :
    ∃ item, items[k]? = some item ∧ Encodes h entry.2 item := by
  induction items generalizing entries k with
  | nil =>
    obtain rfl : entries = [] := hitems
    exact nomatch hget
  | cons item items ih =>
    obtain ⟨n, v', rest, rfl, hv', hrest⟩ := hitems
    cases k with
    | zero =>
      obtain rfl := Option.some.inj hget
      exact ⟨item, rfl, hv'⟩
    | succ k => exact ih hrest hget

theorem EncodesItems.length_eq {items : List Json} (hitems : EncodesItems h entries items) :
    items.length = entries.length := by
  induction items generalizing entries with
  | nil =>
    obtain rfl : entries = [] := hitems
    rfl
  | cons item items ih =>
    obtain ⟨n, v, rest, rfl, -, hrest⟩ := hitems
    exact congrArg (· + 1) (ih hrest)

theorem EncodesMembers.nulFree {members : List (String × Json)}
    (hmembers : EncodesMembers h entries members) : ∀ member ∈ members, NulFree member.1 := by
  induction members generalizing entries with
  | nil => exact List.forall_mem_nil _
  | cons member members ih =>
    obtain ⟨key, v, rest, rfl, hname, -, hrest⟩ := hmembers
    exact List.forall_mem_cons.mpr ⟨hname ▸ nulFree_cString key, ih hrest⟩

end LambdaExecutor.Lua
