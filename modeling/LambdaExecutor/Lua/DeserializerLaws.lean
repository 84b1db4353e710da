import LambdaExecutor.Lua.Deserializer
import LambdaExecutor.Lua.SerializerLaws

/-!
# What the deserializer pushes

From the text of a JSON tree the deserializer pushes one value that denotes this
tree. All its tables are new and the old ones are left as they were, so what has
been pushed before keeps its meaning while a table is filled.
-/

namespace LambdaExecutor.Lua.Deserializer

open Raii Raii.Code Formats Serializer

variable {J : JsonLibrary} {h h' : Heap} {lo t : TableRef} {entries : Table}
  {stack : List Value} {fuel : Nat}

/-- The first heap is kept, but for the tables which are excepted. -/
def Extends (excepted : TableRef → Prop) (h h' : Heap) : Prop :=
  h.length ≤ h'.length ∧ ∀ u, ¬ excepted u → u < h.length → h'[u]? = h[u]?

theorem Extends.refl (excepted : TableRef → Prop) (h : Heap) : Extends excepted h h :=
  ⟨Nat.le_refl _, fun _ _ _ => rfl⟩

theorem Extends.trans {excepted : TableRef → Prop} {h'' : Heap} (hfirst : Extends excepted h h')
    (hsecond : Extends excepted h' h'') : Extends excepted h h'' :=
  ⟨Nat.le_trans hfirst.1 hsecond.1, fun u hu hlt =>
    (hsecond.2 u hu (Nat.lt_of_lt_of_le hlt hfirst.1)).trans (hfirst.2 u hu hlt)⟩

theorem Extends.mono {excepted excepted' : TableRef → Prop} (he : Extends excepted h h')
    (hsub : ∀ u, excepted u → excepted' u) : Extends excepted' h h' :=
  ⟨he.1, fun u hu => he.2 u (mt (hsub u) hu)⟩

theorem extends_rawset (h : Heap) (t : TableRef) (k v : Value) :
    Extends (· = t) h (h.rawset t k v) :=
  ⟨Nat.le_of_eq (Heap.length_rawset h t k v).symm, fun u hu _ => by
    rw [Heap.getElem?_rawset, if_neg (Ne.symm hu)]⟩

theorem lt_of_getElem? (ht : h[t]? = some entries) : t < h.length :=
  (List.getElem?_eq_some_iff.mp ht).1

theorem Extends.keepsFrom {h₁ : Heap} (ht : t < h.length) (he : Extends (· = t) h₁ h') :
    KeepsFrom h.length h₁ h' := by
  intro u hu entries hentries
  have hne : u ≠ t := fun heq => Nat.not_lt.mpr hu (heq ▸ ht)
  rw [he.2 u hne (lt_of_getElem? hentries), hentries]

-- ---------------------------------------------------------------------------
-- Parts that have a value
-- ---------------------------------------------------------------------------

/-- Apart from the parts inside it, the part is one that a value can denote. -/
def Restorable : Json → Prop
  | .null => False
  | .bool _ => True
  | .number d => (Number.float d).Exact
  | .string s => NulFree s
  | .array items => items ≠ [] ∧ items.length < 2 ^ 53
  | .object members => members ≠ [] ∧ (members.map Prod.fst).Nodup ∧
      ∀ member ∈ members, NulFree member.1

theorem ne_null_of_restorable {j : Json} (hj : j.All Restorable) : j ≠ .null := by
  rintro rfl
  exact hj

theorem exact_toDouble {n : Number} (hn : n.Exact) : (Number.float n.toDouble).Exact := by
  cases n with
  | integer i => trivial
  | float d => exact hn

mutual
theorem restorable_of_denotes : (j : Json) → {v : Value} → Denotes h lo v j → j.All Restorable
  | .null, _, hv => hv.elim
  | .bool _, _, _ => trivial
  | .number _, _, ⟨_, _, hn, hd⟩ => hd ▸ exact_toDouble hn
  | .string _, _, ⟨_, hs⟩ => hs
  | .array items, _, ⟨_, _, _, _, _, hne, hlength, hitems⟩ =>
    ⟨⟨hne, hlength⟩, restorable_of_denotesItems items hitems⟩
  | .object members, _, ⟨_, _, _, _, _, hne, hdistinct, hmembers⟩ =>
    have hparts := restorable_of_denotesMembers members hmembers
    ⟨⟨hne, hdistinct, hparts.1⟩, hparts.2⟩
theorem restorable_of_denotesItems : (items : List Json) → {i : Nat} → {entries : Table} →
    DenotesItems h lo i entries items → Json.AllItems Restorable items
  | [], _, _, _ => trivial
  | item :: items, _, _, ⟨_, _, _, hv, hrest⟩ =>
    ⟨restorable_of_denotes item hv, restorable_of_denotesItems items hrest⟩
theorem restorable_of_denotesMembers : (members : List (String × Json)) → {entries : Table} →
    DenotesMembers h lo entries members →
      (∀ member ∈ members, NulFree member.1) ∧ Json.AllMembers Restorable members
  | [], _, _ => ⟨List.forall_mem_nil _, trivial⟩
  | (_, value) :: members, _, ⟨_, _, _, hfree, hv, hrest⟩ =>
    have hparts := restorable_of_denotesMembers members hrest
    ⟨List.forall_mem_cons.mpr ⟨hfree, hparts.1⟩, restorable_of_denotes value hv, hparts.2⟩
end

-- ---------------------------------------------------------------------------
-- Scalars
-- ---------------------------------------------------------------------------

theorem toKey_ofSize {k : Nat} (hk : k < 2 ^ 53) :
    (Value.number (.float (ofSize (UInt64.ofNat k)))).toKey = sequenceKey k := by
  have hnat : (UInt64.ofNat k).toNat = k := UInt64.toNat_ofNat_of_lt' (Nat.lt_trans hk (by decide))
  have hround : Binary64.roundInt ((UInt64.ofNat k).toNat : Int) = k := by
    rw [hnat]
    exact Binary64.roundInt_of_isBinary64 (.of_int k 0 (by omega) (by omega) (by simp))
  have hvalue : Value.number (.float (ofSize (UInt64.ofNat k))) =
      .number (.float (.finite ((k : Int) : ℚ) (hround ▸ Binary64.isBinary64_roundInt
        (natAbs_toNat_lt _)))) := by
    unfold ofSize
    congr 3
    exact_mod_cast hround
  rw [hvalue]
  simp only [Value.toKey, Rat.den_intCast, Rat.num_intCast]
  rw [if_pos ⟨trivial, by omega, by omega⟩, Int64.ofInt_eq_ofNat]
  rfl

def dataType : Json → DataType
  | .bool _ => .boolean
  | .number _ => .number
  | .string _ => .string
  | .array _ | .object _ | .null => .table

theorem returns_getType {j : Json} (hj : j ≠ .null) (L : LuaState) :
    Returns (getType j) L (dataType j) L := by
  cases j with
  | null => exact absurd rfl hj
  | _ => rfl

/-- One value is pushed, which denotes `j` and is new. -/
def Pushed (j : Json) (h h' : Heap) (w : Value) : Prop :=
  Extends (fun _ => False) h h' ∧ Denotes h' h.length w j

theorem returns_luaSetTable {k w : Value} (hk : k ≠ .nil) (hnan : k ≠ .number (.float .nan)) :
    Returns (luaSetTable (-3)) (on h (w :: k :: .table t :: stack)) ()
      (on (h.rawset t k w) (.table t :: stack)) := by
  show (if k = .nil then _ else if k = .number (.float .nan) then _ else _ :
    Result Thrown LuaState Unit) = _
  rw [if_neg hk, if_neg hnan]
  rfl

theorem returns_pushValue {j : Json} (hj : j ≠ .null) {L L' : LuaState}
    (hr : Returns (fromString J fuel (dataType j) (valueText J j)) L () L') :
    Returns (pushValue (fromString J fuel) J j) L () L' :=
  (returns_getType hj L).bind (hr.tryCatch _)

-- ---------------------------------------------------------------------------
-- Filling a table
-- ---------------------------------------------------------------------------

section Fill

variable {j : Json} {h₁ : Heap} {raw key w : Value} (hw : Pushed j h h₁ w)
include hw

theorem Pushed.fill (ht : h[t]? = some entries) (hraw : raw.toKey = key)
    (hnew : key ∉ entries.map Prod.fst) : Extends (· = t) h (h₁.rawset t raw w) ∧
      (h₁.rawset t raw w)[t]? = some (entries ++ [(key, w)]) := by
  have ht₁ : h₁[t]? = some entries := (hw.1.2 t id (lt_of_getElem? ht)).trans ht
  refine ⟨(hw.1.mono fun _ => False.elim).trans (extends_rawset h₁ t raw w), ?_⟩
  rw [Heap.getElem?_rawset, if_pos rfl, ht₁, hraw, Option.map_some,
    Table.set_of_notMem hnew hw.2.ne_nil]

theorem Pushed.persists (ht : t < h.length) (he : Extends (· = t) (h₁.rawset t raw w) h') :
    Denotes h' (t + 1) w j := by
  have he₁ : Extends (· = t) h₁ h' := (extends_rawset h₁ t raw w).trans he
  exact Denotes.keep (he₁.keepsFrom ht) ht j hw.2

end Fill

theorem Extends.fromNewTable {h : Heap} (he : Extends (· = h.length) (h ++ [[]]) h') :
    Extends (fun _ => False) h h' := by
  refine ⟨Nat.le_trans (by simp) he.1, fun u _ hlt => ?_⟩
  rw [he.2 u (Nat.ne_of_lt hlt) (Nat.lt_of_lt_of_le hlt (by simp)), List.getElem?_append_left hlt]

mutual
/-- The deserializer pushes a value of the tree which its text was printed for. -/
theorem returns_fromString : (j : Json) → j.All Restorable → J.ReadsBack j →
    ∃ n, ∀ fuel, n ≤ fuel → ∀ h stack, ∃ h' w,
      Returns (fromString J fuel (dataType j) (valueText J j)) (on h stack) ()
        (on h' (w :: stack)) ∧ Pushed j h h' w
  | .null, hj, _ => hj.elim
  | .bool b, _, htext => by
    refine ⟨1, fun fuel hfuel h stack => ⟨h, .boolean b, ?_, .refl _ h, rfl⟩⟩
    obtain ⟨fuel, rfl⟩ := Nat.exists_eq_add_of_le' hfuel
    have htext : J.toString (.bool b) = if b then "true" else "false" := htext
    show Returns (pushBoolean (J.toString (.bool b))) _ _ _
    rw [htext]
    cases b <;> rfl
  | .number d, hd, htext => by
    refine ⟨1, fun fuel hfuel h stack => ⟨h, .number (.float d), ?_, .refl _ h,
      ⟨.float d, rfl, hd, rfl⟩⟩⟩
    obtain ⟨fuel, rfl⟩ := Nat.exists_eq_add_of_le' hfuel
    exact (returns_ofLibrary htext _).bind rfl
  | .string s, hs, _ => by
    refine ⟨1, fun fuel hfuel h stack => ⟨h, .string s, ?_, .refl _ h, rfl, hs⟩⟩
    obtain ⟨fuel, rfl⟩ := Nat.exists_eq_add_of_le' hfuel
    show Returns (luaPush (.string (cString s))) _ _ _
    rw [cString_of_nulFree hs]
    rfl
  | .array items, ⟨⟨hne, hlength⟩, hitems⟩, htext => by
    obtain ⟨n, hpush⟩ := returns_pushItems items hitems htext.2
    refine ⟨n + 1, fun fuel hfuel h stack => ?_⟩
    obtain ⟨fuel, rfl⟩ := Nat.exists_eq_add_of_le' (Nat.le_trans (Nat.le_add_left 1 n) hfuel)
    obtain ⟨h', new, hr, he, hnew, hdenotes⟩ := hpush fuel (Nat.le_of_succ_le_succ hfuel)
      1 (h ++ [[]]) h.length [] stack (by simp) (by omega) (fun _ _ _ => List.not_mem_nil)
    refine ⟨h', .table h.length, ?_, he.fromNewTable, h.length, new, rfl, Nat.le_refl _, hnew, hne,
      hlength, DenotesItems.keep (fun _ _ _ => id) (Nat.le_succ _) items hdenotes⟩
    exact (returns_ofLibrary htext.1 _).bind (Returns.bind rfl hr)
  | .object members, ⟨⟨hne, hdistinct, hfree⟩, hmembers⟩, htext => by
    obtain ⟨n, hpush⟩ := returns_pushMembers members hfree hmembers htext.2
    refine ⟨n + 1, fun fuel hfuel h stack => ?_⟩
    obtain ⟨fuel, rfl⟩ := Nat.exists_eq_add_of_le' (Nat.le_trans (Nat.le_add_left 1 n) hfuel)
    obtain ⟨h', new, hr, he, hnew, hdenotes⟩ := hpush fuel (Nat.le_of_succ_le_succ hfuel)
      (h ++ [[]]) h.length [] stack (by simp) hdistinct (fun _ _ => List.not_mem_nil)
    refine ⟨h', .table h.length, ?_, he.fromNewTable, h.length, new, rfl, Nat.le_refl _, hnew, hne,
      hdistinct, DenotesMembers.keep (fun _ _ _ => id) (Nat.le_succ _) members hdenotes⟩
    exact (returns_ofLibrary htext.1 _).bind (Returns.bind rfl hr)
theorem returns_pushItems : (items : List Json) → Json.AllItems Restorable items →
    J.ReadsBackItems items →
    ∃ n, ∀ fuel, n ≤ fuel → ∀ i (h : Heap) t entries stack, h[t]? = some entries →
      i + items.length ≤ 2 ^ 53 →
      (∀ k, i ≤ k → k < 2 ^ 53 → sequenceKey k ∉ entries.map Prod.fst) → ∃ h' new,
        Returns (pushItems (fromString J fuel) J (UInt64.ofNat i) items)
          (on h (.table t :: stack)) () (on h' (.table t :: stack)) ∧ Extends (· = t) h h' ∧
        h'[t]? = some (entries ++ new) ∧ DenotesItems h' (t + 1) i new items
  | [], _, _ => ⟨0, fun fuel _ i h t entries stack ht _ _ =>
      ⟨h, [], rfl, .refl _ h, by rwa [List.append_nil], rfl⟩⟩
  | item :: items, ⟨hitem, hitems⟩, htext => by
    obtain ⟨n, hvalue⟩ := returns_fromString item hitem htext.1
    obtain ⟨m, hloop⟩ := returns_pushItems items hitems htext.2
    refine ⟨max n m, fun fuel hfuel i h t entries stack ht hlength hkeys => ?_⟩
    rw [List.length_cons] at hlength
    have hi : i < 2 ^ 53 := by omega
    obtain ⟨h₁, w, hpush, hw⟩ := hvalue fuel (Nat.le_trans (Nat.le_max_left n m) hfuel) h
      (.number (.float (ofSize (UInt64.ofNat i))) :: .table t :: stack)
    obtain ⟨hfill, hentries⟩ := hw.fill ht (toKey_ofSize hi) (hkeys i (Nat.le_refl i) hi)
    have hnext : ∀ k, i + 1 ≤ k → k < 2 ^ 53 →
        sequenceKey k ∉ (entries ++ [(sequenceKey i, w)]).map Prod.fst := by
      intro k hk hlt hmem
      rw [List.map_append, List.mem_append] at hmem
      obtain hold | hlast := hmem
      · exact hkeys k (Nat.le_of_succ_le hk) hlt hold
      · have heq : k = i :=
          sequenceKey_injective (by omega) (by omega) (List.mem_singleton.mp hlast)
        omega
    obtain ⟨h', new, hr, he, hnew, hdenotes⟩ := hloop fuel
      (Nat.le_trans (Nat.le_max_right n m) hfuel) (i + 1) _ t _ stack hentries (by omega) hnext
    refine ⟨h', (sequenceKey i, w) :: new, ?_, hfill.trans he, by simpa using hnew, w, new, rfl,
      hw.persists (lt_of_getElem? ht) he, hdenotes⟩
    have hset : Returns (luaSetTable (-3))
        (on h₁ (w :: .number (.float (ofSize (UInt64.ofNat i))) :: .table t :: stack)) ()
        (on (h₁.rawset t (.number (.float (ofSize (UInt64.ofNat i)))) w) (.table t :: stack)) :=
      returns_luaSetTable nofun nofun
    rw [UInt64.ofNat_add] at hr
    exact Returns.bind rfl ((returns_pushValue (ne_null_of_restorable hitem) hpush).bind
      (hset.bind hr))
theorem returns_pushMembers : (members : List (String × Json)) →
    (∀ member ∈ members, NulFree member.1) → Json.AllMembers Restorable members →
    J.ReadsBackMembers members →
    ∃ n, ∀ fuel, n ≤ fuel → ∀ (h : Heap) t entries stack, h[t]? = some entries →
      (members.map Prod.fst).Nodup →
      (∀ member ∈ members, recordKey member.1 ∉ entries.map Prod.fst) → ∃ h' new,
        Returns (pushMembers (fromString J fuel) J members)
          (on h (.table t :: stack)) () (on h' (.table t :: stack)) ∧ Extends (· = t) h h' ∧
        h'[t]? = some (entries ++ new) ∧ DenotesMembers h' (t + 1) new members
  | [], _, _, _ => ⟨0, fun fuel _ h t entries stack ht _ _ =>
      ⟨h, [], rfl, .refl _ h, by rwa [List.append_nil], rfl⟩⟩
  | (key, value) :: members, hnames, ⟨hjson, hmembers⟩, htext => by
    obtain ⟨hfree, hnames⟩ := List.forall_mem_cons.mp hnames
    obtain ⟨n, hvalue⟩ := returns_fromString value hjson htext.1
    obtain ⟨m, hloop⟩ := returns_pushMembers members hnames hmembers htext.2
    refine ⟨max n m, fun fuel hfuel h t entries stack ht hdistinct hkeys => ?_⟩
    rw [List.forall_mem_cons] at hkeys
    obtain ⟨hkey, hdistinct⟩ := List.nodup_cons.mp hdistinct
    obtain ⟨h₁, w, hpush, hw⟩ := hvalue fuel (Nat.le_trans (Nat.le_max_left n m) hfuel) h
      (recordKey key :: .table t :: stack)
    have hraw : (recordKey key).toKey = recordKey key := rfl
    obtain ⟨hfill, hentries⟩ := hw.fill ht hraw hkeys.1
    have hnext : ∀ member ∈ members,
        recordKey member.1 ∉ (entries ++ [(recordKey key, w)]).map Prod.fst := by
      intro member hmem hmem'
      rw [List.map_append, List.mem_append] at hmem'
      obtain hold | hlast := hmem'
      · exact hkeys.2 member hmem hold
      · have heq : member.1 = key := Value.string.inj (List.mem_singleton.mp hlast)
        exact hkey (List.mem_map.mpr ⟨member, hmem, heq⟩)
    obtain ⟨h', new, hr, he, hnew, hdenotes⟩ := hloop fuel
      (Nat.le_trans (Nat.le_max_right n m) hfuel) _ t _ stack hentries hdistinct hnext
    refine ⟨h', (recordKey key, w) :: new, ?_, hfill.trans he, by simpa using hnew, w, new, rfl,
      hfree, hw.persists (lt_of_getElem? ht) he, hdenotes⟩
    have hname : Returns (luaPushString key) (on h (.table t :: stack)) ()
        (on h (recordKey key :: .table t :: stack)) := by
      show Returns (luaPush (.string (cString key))) _ _ _
      rw [cString_of_nulFree hfree]
      rfl
    have hset : Returns (luaSetTable (-3)) (on h₁ (w :: recordKey key :: .table t :: stack)) ()
        (on (h₁.rawset t (recordKey key) w) (.table t :: stack)) :=
      returns_luaSetTable nofun nofun
    exact hname.bind
      ((returns_pushValue (ne_null_of_restorable hjson) hpush).bind (hset.bind hr))
end

end LambdaExecutor.Lua.Deserializer
