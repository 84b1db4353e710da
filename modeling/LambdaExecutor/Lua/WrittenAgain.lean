import LambdaExecutor.Lua.DeserializerLaws
import LambdaExecutor.Lua.EncodesLaws
import LambdaExecutor.Lua.RoundTrip

/-!
# Values that are read and written again

The value which the deserializer makes of a text is written by the serializer as the
same tree, but for the order of the members: a table with string keys is visited in
an order of its own.
-/

namespace LambdaExecutor.Lua

open Raii Raii.Code Formats Deserializer Serializer

-- ---------------------------------------------------------------------------
-- Lawful heaps stay lawful
-- ---------------------------------------------------------------------------

theorem Value.toKey_toKey (v : Value) : v.toKey.toKey = v.toKey := by
  cases v with
  | number n =>
    cases n with
    | integer i => rfl
    | float d =>
      cases d with
      | finite q h =>
        by_cases hq : q.den = 1 ∧ -2 ^ 63 ≤ q.num ∧ q.num < 2 ^ 63
        · simp only [Value.toKey, if_pos hq]
        · simp only [Value.toKey, if_neg hq]
      | infinity negative => rfl
      | nan => rfl
  | _ => rfl

theorem Value.toKey_eq_nil {v : Value} : v.toKey = .nil ↔ v = .nil := by
  cases v with
  | number n =>
    cases n with
    | integer i => simp [Value.toKey]
    | float d =>
      cases d with
      | finite q h =>
        by_cases hq : q.den = 1 ∧ -2 ^ 63 ≤ q.num ∧ q.num < 2 ^ 63
        · simp only [Value.toKey, if_pos hq, reduceCtorEq]
        · simp only [Value.toKey, if_neg hq, reduceCtorEq]
      | infinity negative => simp [Value.toKey]
      | nan => simp [Value.toKey]
  | _ => simp [Value.toKey]

theorem Table.Lawful.set {t : Table} {k v : Value} (ht : t.Lawful) (hk : k ≠ .nil)
    (hkey : k.toKey = k) : Table.Lawful (t.set k v) := by
  refine ⟨?_, fun entry hmem => ?_⟩
  · unfold Table.set
    split
    · exact ht.1.sublist (List.filter_sublist.map Prod.fst)
    · split
      · have hkeys : (t.map fun entry => if entry.1 = k then (k, v) else entry).map Prod.fst =
            t.map Prod.fst := by
          rw [List.map_map]
          refine List.map_congr_left fun entry _ => ?_
          by_cases hentry : entry.1 = k <;> simp [hentry]
        rw [hkeys]
        exact ht.1
      · next hnew =>
        have hnew : k ∉ t.map Prod.fst := by simpa using hnew
        rw [List.map_append, List.nodup_append]
        exact ⟨ht.1, by simp, by simpa using fun _ hmem => ne_of_mem_of_not_mem hmem hnew⟩
  · obtain ⟨rfl, -⟩ | ⟨hmem, -⟩ := Table.mem_set hmem
    · exact ⟨hk, hkey⟩
    · exact ht.2 entry hmem

theorem Heap.Lawful.rawset {h : Heap} (hh : h.Lawful) (t : TableRef) {k : Value} (v : Value)
    (hk : k ≠ .nil) : Heap.Lawful (h.rawset t k v) := by
  intro entries hmem
  obtain ⟨u, hu⟩ := List.getElem?_of_mem hmem
  rw [Heap.getElem?_rawset] at hu
  split at hu
  · obtain ⟨old, hold, rfl⟩ := Option.map_eq_some_iff.mp hu
    have hkey : k.toKey ≠ .nil := by rwa [ne_eq, Value.toKey_eq_nil]
    exact (hh old (List.mem_of_getElem? hold)).set hkey (Value.toKey_toKey k)
  · exact hh entries (List.mem_of_getElem? hu)

theorem Heap.Lawful.newTable {h : Heap} (hh : h.Lawful) : Heap.Lawful (h ++ [[]]) := by
  intro entries hmem
  obtain hold | hnew := List.mem_append.mp hmem
  · exact hh entries hold
  · obtain rfl := List.mem_singleton.mp hnew
    exact ⟨List.nodup_nil, List.forall_mem_nil _⟩

def KeepsLawful {α : Type} (c : LuaCode α) : Prop := Keeps (fun L : LuaState => L.heap.Lawful) c

theorem keepsLawful_luaPush (v : Value) : KeepsLawful (luaPush v) := fun _ => id

theorem keepsLawful_luaPop (n : Nat) : KeepsLawful (luaPop n) := fun _ => id

theorem keepsLawful_luaNewTable : KeepsLawful luaNewTable := fun _ hh => hh.newTable

theorem keepsLawful_ofLibrary {α : Type} (result : Except Exception α) :
    KeepsLawful (ofLibrary result) := keeps_ofExcept _

theorem keepsLawful_luaSetTable (idx : Int) : KeepsLawful (luaSetTable idx) := by
  intro L hh
  unfold luaSetTable
  split
  · next value key rest t _ _ =>
    split
    · exact hh
    · next hkey =>
      split
      · exact hh
      · exact hh.rawset t value hkey
  · exact hh

theorem keepsLawful_catchAll {α : Type} {body : LuaCode α} {cleanup : LuaCode Unit}
    (hbody : KeepsLawful body) (hcleanup : KeepsLawful cleanup) :
    KeepsLawful (catchAll body cleanup) := by
  refine Keeps.tryCatch hbody fun thrown => ?_
  cases thrown with
  | exception e => exact Keeps.bind hcleanup fun _ => keeps_raise _
  | luaError message => exact keeps_raise _

theorem keepsLawful_getType (j : Json) : KeepsLawful (getType j) := by
  cases j <;> first | exact keeps_pure _ | exact keeps_raise _

section Tables

variable {J : JsonLibrary} {f : DataType → String → LuaCode Unit}
  (hf : ∀ type text, KeepsLawful (f type text))
include hf

theorem keepsLawful_pushValue (j : Json) : KeepsLawful (pushValue f J j) :=
  Keeps.bind (keepsLawful_getType j) fun _ => keepsLawful_catchAll (hf _ _) (keepsLawful_luaPop 2)

theorem keepsLawful_pushItems (i : UInt64) (items : List Json) :
    KeepsLawful (pushItems f J i items) := by
  induction items generalizing i with
  | nil => exact keeps_pure _
  | cons item items ih =>
    exact Keeps.bind (keepsLawful_luaPush _) fun _ => Keeps.bind (keepsLawful_pushValue hf item)
      fun _ => Keeps.bind (keepsLawful_luaSetTable _) fun _ => ih (i + 1)

theorem keepsLawful_pushMembers (members : List (String × Json)) :
    KeepsLawful (pushMembers f J members) := by
  induction members with
  | nil => exact keeps_pure _
  | cons member members ih =>
    exact Keeps.bind (keepsLawful_luaPush _) fun _ =>
      Keeps.bind (keepsLawful_pushValue hf member.2) fun _ =>
        Keeps.bind (keepsLawful_luaSetTable _) fun _ => ih

theorem keepsLawful_pushTable (text : String) : KeepsLawful (pushTable f J text) := by
  refine Keeps.bind (keepsLawful_ofLibrary _) fun j => ?_
  refine Keeps.bind keepsLawful_luaNewTable fun _ => ?_
  cases j with
  | object members => exact keepsLawful_pushMembers hf members
  | array items => exact keepsLawful_pushItems hf 1 items
  | _ => exact Keeps.bind (keepsLawful_luaPop 1) fun _ => keeps_raise _

end Tables

theorem keepsLawful_fromString (J : JsonLibrary) (fuel : Nat) (type : DataType) (text : String) :
    KeepsLawful (fromString J fuel type text) := by
  induction fuel generalizing type text with
  | zero => exact keeps_terminate
  | succ fuel ih =>
    cases type with
    | string => exact keepsLawful_luaPush _
    | number => exact Keeps.bind (keepsLawful_ofLibrary _) fun _ => keepsLawful_luaPush _
    | boolean => exact keepsLawful_luaPush _
    | table => exact keepsLawful_pushTable ih text

-- ---------------------------------------------------------------------------
-- The order of traversal
-- ---------------------------------------------------------------------------

def Table.Numbered (entries : Table) : Prop :=
  entries.map Prod.fst = (List.range' 1 entries.length).map sequenceKey

instance (entries : Table) : Decidable entries.Numbered := inferInstanceAs (Decidable (_ = _))

/-- The same tables, of which those that are not numbered may be visited in another order. -/
def Heap.SameTables (h h' : Heap) : Prop :=
  ∀ t, (h.entries t).Perm (h'.entries t) ∧ ((h.entries t).Numbered → h'.entries t = h.entries t)

theorem Heap.SameTables.refl (h : Heap) : h.SameTables h := fun _ => ⟨.refl _, fun _ => rfl⟩

theorem Heap.SameTables.lawful {h h' : Heap} (hsame : h.SameTables h') (hh : h.Lawful) :
    h'.Lawful := by
  intro entries hmem
  obtain ⟨t, ht⟩ := List.getElem?_of_mem hmem
  have hentries : h'.entries t = entries := by
    rw [Heap.entries, ht]
    rfl
  have hperm := (hsame t).1
  rw [hentries] at hperm
  have hlawful := hh.entries t
  exact ⟨(hperm.map Prod.fst).nodup_iff.mp hlawful.1,
    fun entry hentry => hlawful.2 entry (hperm.mem_iff.mpr hentry)⟩

/-- The same tree, whose objects may have their members in another order. -/
inductive Reordered : Json → Json → Prop
  | null : Reordered .null .null
  | bool (b : Bool) : Reordered (.bool b) (.bool b)
  | number (d : Double) : Reordered (.number d) (.number d)
  | string (s : String) : Reordered (.string s) (.string s)
  | array {items items' : List Json} (hitems : List.Forall₂ Reordered items items') :
      Reordered (.array items) (.array items')
  | object {members members' members'' : List (String × Json)}
      (hnames : members.map Prod.fst = members'.map Prod.fst)
      (hvalues : List.Forall₂ Reordered (members.map Prod.snd) (members'.map Prod.snd))
      (hperm : members'.Perm members'') : Reordered (.object members) (.object members'')

theorem EncodesMembers.perm {h : Heap} {entries entries' : Table}
    (hperm : entries.Perm entries') {members : List (String × Json)}
    (hmembers : EncodesMembers h entries members) :
    ∃ members', members.Perm members' ∧ EncodesMembers h entries' members' := by
  induction hperm generalizing members with
  | nil => exact ⟨members, .refl _, hmembers⟩
  | @cons entry entries entries' _ ih =>
    cases members with
    | nil => cases (show entry :: entries = [] from hmembers)
    | cons member members =>
      obtain ⟨key, v, rest, heq, hname, hv, hrest⟩ := hmembers
      obtain ⟨rfl, rfl⟩ := List.cons.inj heq
      obtain ⟨members', hmembers', hencodes⟩ := ih hrest
      exact ⟨member :: members', hmembers'.cons member,
        ⟨key, v, entries', rfl, hname, hv, hencodes⟩⟩
  | swap entry entry' entries =>
    cases members with
    | nil => cases (show entry' :: entry :: entries = [] from hmembers)
    | cons member members =>
      obtain ⟨key, v, rest, heq, hname, hv, hrest⟩ := hmembers
      obtain ⟨rfl, rfl⟩ := List.cons.inj heq
      cases members with
      | nil => cases (show entry :: entries = [] from hrest)
      | cons member' members =>
        obtain ⟨key', v', rest', heq', hname', hv', hrest'⟩ := hrest
        obtain ⟨rfl, rfl⟩ := List.cons.inj heq'
        exact ⟨member' :: member :: members, .swap member' member members,
          ⟨key', v', _, rfl, hname', hv', key, v, entries, rfl, hname, hv, hrest'⟩⟩
  | trans _ _ ih ih' =>
    obtain ⟨members', hfirst, hencodes⟩ := ih hmembers
    obtain ⟨members'', hsecond, hencodes'⟩ := ih' hencodes
    exact ⟨members'', hfirst.trans hsecond, hencodes'⟩

theorem isFinite_of_exact {n : Number} (hn : n.Exact) : Double.IsFinite n.toDouble := by
  cases n with
  | integer i => exact ⟨_, _, rfl⟩
  | float d =>
    cases d with
    | finite q hq => exact ⟨q, hq, rfl⟩
    | infinity negative => exact hn.elim
    | nan => exact hn.elim

section Denoted

variable {h h' : Heap} {lo : TableRef}

mutual
theorem exists_encodes_of_denotes (hsame : h.SameTables h') : (j : Json) → {v : Value} →
    Denotes h lo v j → ∃ j', Encodes h' v j' ∧ Reordered j j'
  | .null, _, hv => hv.elim
  | .bool b, _, hv => ⟨.bool b, hv, .bool b⟩
  | .number d, _, hv => by
    obtain ⟨n, rfl, hn, rfl⟩ := hv
    exact ⟨.number n.toDouble, ⟨n, rfl, rfl, isFinite_of_exact hn⟩, .number _⟩
  | .string s, _, hv => by
    obtain ⟨rfl, hs⟩ := hv
    exact ⟨.string s, ⟨s, rfl, cString_of_nulFree hs⟩, .string s⟩
  | .array items, _, hv => by
    obtain ⟨t, entries, rfl, -, ht, hne, -, hitems⟩ := hv
    have hentries : h.entries t = entries := by
      rw [Heap.entries, ht]
      rfl
    obtain ⟨items', hencodes, hreordered⟩ := exists_encodesItems_of_denotes hsame items hitems
    have hnumbered : (h.entries t).Numbered := by
      rw [hentries]
      have hkeys := denotesItems_keys hitems
      have hlength : entries.length = items.length := by
        simpa using congrArg List.length hkeys
      rw [Table.Numbered, hlength]
      exact hkeys
    have hvisited : h'.entries t = entries := ((hsame t).2 hnumbered).trans hentries
    refine ⟨.array items', ⟨t, rfl, ?_, hvisited ▸ hencodes⟩, .array hreordered⟩
    rintro rfl
    cases hreordered
    exact hne rfl
  | .object members, _, hv => by
    obtain ⟨t, entries, rfl, -, ht, hne, -, hmembers⟩ := hv
    have hentries : h.entries t = entries := by
      rw [Heap.entries, ht]
      rfl
    obtain ⟨members', hencodes, hnames, hvalues⟩ :=
      exists_encodesMembers_of_denotes hsame members hmembers
    have hperm := (hsame t).1
    rw [hentries] at hperm
    obtain ⟨members'', hmembers'', hencodes'⟩ := hencodes.perm hperm
    refine ⟨.object members'', ⟨t, rfl, ?_, hencodes'⟩, .object hnames hvalues hmembers''⟩
    rintro rfl
    obtain rfl := hmembers''.eq_nil
    exact hne (by simpa using hnames)
theorem exists_encodesItems_of_denotes (hsame : h.SameTables h') : (items : List Json) →
    {i : Nat} → {entries : Table} → DenotesItems h lo i entries items →
      ∃ items', EncodesItems h' entries items' ∧ List.Forall₂ Reordered items items'
  | [], _, _, hitems => ⟨[], hitems, .nil⟩
  | item :: items, _, _, hitems => by
    obtain ⟨v, rest, rfl, hv, hrest⟩ := hitems
    obtain ⟨item', hitem', hreordered⟩ := exists_encodes_of_denotes hsame item hv
    obtain ⟨items', hitems', hrest'⟩ := exists_encodesItems_of_denotes hsame items hrest
    exact ⟨item' :: items', ⟨_, v, rest, rfl, hitem', hitems'⟩, .cons hreordered hrest'⟩
theorem exists_encodesMembers_of_denotes (hsame : h.SameTables h') :
    (members : List (String × Json)) → {entries : Table} → DenotesMembers h lo entries members →
      ∃ members', EncodesMembers h' entries members' ∧
        members.map Prod.fst = members'.map Prod.fst ∧
        List.Forall₂ Reordered (members.map Prod.snd) (members'.map Prod.snd)
  | [], _, hmembers => ⟨[], hmembers, rfl, .nil⟩
  | (key, value) :: members, _, hmembers => by
    obtain ⟨v, rest, rfl, hfree, hv, hrest⟩ := hmembers
    obtain ⟨value', hvalue', hreordered⟩ := exists_encodes_of_denotes hsame value hv
    obtain ⟨members', hmembers', hnames, hvalues⟩ :=
      exists_encodesMembers_of_denotes hsame members hrest
    exact ⟨(key, value') :: members',
      ⟨key, v, rest, rfl, cString_of_nulFree hfree, hvalue', hmembers'⟩,
      congrArg (key :: ·) hnames, .cons hreordered hvalues⟩
end

end Denoted

/-- A value which the deserializer makes of a text, in a Lua state of any content, is written
by the serializer as the same tree, in whatever order its records are visited by then. -/
theorem read_value_written_again {J : JsonLibrary} (hJ : J.Strict) {j : Json}
    (hj : j.All Restorable) (htext : J.ReadsBack j) : ∃ n, ∀ fuel, n ≤ fuel →
      ∀ L : LuaState, L.heap.Lawful → ∃ h w,
        Returns (fromString J fuel (dataType j) (valueText J j)) L ()
          { stack := w :: L.stack, heap := h } ∧
        ∀ h', h.SameTables h' → ∃ j', Reordered j j' ∧ Writes J h' w j' := by
  obtain ⟨n, hpush⟩ := returns_fromString j hj htext
  refine ⟨n, fun fuel hfuel L hL => ?_⟩
  obtain ⟨h, w, hreturns, -, hdenotes⟩ := hpush fuel hfuel L.heap L.stack
  have hh : h.Lawful := by
    have hkeeps := keepsLawful_fromString J fuel (dataType j) (valueText J j) L hL
    rwa [show fromString J fuel (dataType j) (valueText J j) L = _ from hreturns] at hkeeps
  refine ⟨h, w, hreturns, fun h' hsame => ?_⟩
  obtain ⟨j', hencodes, hreordered⟩ := exists_encodes_of_denotes hsame j hdenotes
  exact ⟨j', hreordered, (writes_iff hJ (hsame.lawful hh)).mpr hencodes⟩

theorem read_person_written_again : ∃ fuel h w j',
    Returns (fromString textLibrary fuel .table personText) { stack := [], heap := [] } ()
      { stack := [w], heap := h } ∧
    Reordered person j' ∧ Writes textLibrary h w j' := by
  obtain ⟨n, hread⟩ := read_value_written_again textLibrary_strict
    (restorable_of_denotes person personHeap_denotes) person_readsBack
  obtain ⟨h, w, hreturns, hwritten⟩ := hread n (Nat.le_refl n) { stack := [], heap := [] }
    (List.forall_mem_nil _)
  obtain ⟨j', hreordered, hwrites⟩ := hwritten h (.refl h)
  have htext : valueText textLibrary person = personText := by simp [person, valueText, textLibrary]
  exact ⟨n, h, w, j', htext ▸ hreturns, hreordered, hwrites⟩

end LambdaExecutor.Lua
