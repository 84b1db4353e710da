import LambdaExecutor.Kv.ReadableBack
import LambdaExecutor.Lua.Leaves

/-!
# Integers in the storage

Every number is stored as a `double`. An integer in a value which can be stored and
read back comes back as the `double` that is nearest to it: this one is equal to
the integer just if 53 significant bits are enough for it.
-/

namespace LambdaExecutor.Kv

open Raii Raii.Code Formats Lua Lua.Serializer Lua.Deserializer Cycles

variable {J : JsonLibrary} {h : Heap} {limit : Option Nat} {v : Value} {j : Json}
  {keys : List Value} {i : Int64}

structure CanBeKept (limit : Option Nat) (h : Heap) (v : Value) : Prop where
  serializable : Serializable h v
  filled : AllInside h (· ≠ []) v
  distinct : AllInside h (fun entries => (names entries).Nodup) v
  nested : ∀ n ∈ limit, NoWay h n v

theorem canBeKept_iff (hj : Encodes h v j) (hread : j.All (J.Reads limit)) :
    CanBeKept limit h v ↔ j.All (Readable J) := by
  rw [all_readable_iff_inside hj hread]
  constructor
  · exact fun hkept => ⟨hkept.filled, hkept.distinct, hkept.nested⟩
  · exact fun ⟨hfilled, hdistinct, hnested⟩ =>
      ⟨Encodes.serializable j hj, hfilled, hdistinct, hnested⟩

/-- `ToString` gives a text from which `FromString`, under the type of the value, pushes one that
has a number equal to `i` where the keys lead. -/
def KeepsInteger (J : JsonLibrary) (h : Heap) (v : Value) (keys : List Value) (i : Int64) :
    Prop :=
  ∃ text type, v.dataType = some type ∧ ∃ n, ∀ fuel, n ≤ fuel →
    (∀ below, Returns (Serializer.toString J fuel none) (on h (v :: below)) text
      (on h (v :: below))) ∧
    ∀ L : LuaState, ∃ heap w number,
      Returns (fromString J fuel type text) L () { stack := w :: L.stack, heap := heap } ∧
      heap.follow w keys = .number number ∧ (Number.integer i).Equal number

-- ---------------------------------------------------------------------------
-- The nearest double
-- ---------------------------------------------------------------------------

theorem equal_rounded_iff {number : Number}
    (hnumber : number.quantity = some (.rational (Binary64.roundInt i.toInt))) :
    (Number.integer i).Equal number ↔ Binary64.IsBinary64 i.toInt := by
  rw [← Binary64.roundInt_eq_iff (natAbs_toInt_lt i)]
  unfold Number.Equal
  rw [hnumber]
  constructor
  · rintro ⟨q, hq, hq'⟩
    exact Quantity.rational.inj (Option.some.inj (hq'.trans hq.symm))
  · exact fun heq => ⟨_, rfl, by rw [heq]⟩

theorem rounded_of_denotes {h' : Heap} {lo : TableRef} {w : Value}
    (hj : Encodes h (.number (.integer i)) j) (hw : Denotes h' lo w j) : ∃ number,
      w = .number number ∧ number.quantity = some (.rational (Binary64.roundInt i.toInt)) := by
  cases j with
  | number d =>
    obtain ⟨n, heq, rfl, -⟩ := hj
    obtain rfl := Value.number.inj heq
    obtain ⟨number, rfl, hexact, hdouble⟩ := hw
    refine ⟨number, rfl, ?_⟩
    rw [← hexact.quantity.1, hdouble]
    rfl
  | null | bool b | string s | array items | object members => simp [Encodes] at hj

section Leaf
variable (hsize : ∀ entries ∈ h, entries.length < 2 ^ 53)
  (hleaf : LeafAt h v keys (.number (.integer i)))
include hsize hleaf

theorem integer_read_back (hj : Encodes h v j) (hread : j.All (J.Reads limit))
    (hexact : j.All J.PrintsExactly) (hreadable : j.All (Readable J)) :
    ∃ n, ∀ fuel, n ≤ fuel → ∀ L : LuaState, ∃ heap w number,
      Returns (fromString J fuel (dataType j) (valueText J j)) L ()
        { stack := w :: L.stack, heap := heap } ∧
      heap.follow w keys = .number number ∧
      number.quantity = some (.rational (Binary64.roundInt i.toInt)) := by
  obtain ⟨hnull, hdistinct, -⟩ := (all_readable_iff j hread).mp hreadable
  obtain ⟨n, hn⟩ := returns_fromString j (restorable_of_encodes hsize j hj hnull hdistinct)
    (readsBack_of_readable j hreadable hexact)
  refine ⟨n, fun fuel hfuel L => ?_⟩
  obtain ⟨heap, w, hr, -, hw⟩ := hn fuel hfuel L.heap L.stack
  obtain ⟨part, hpart, hnumber⟩ := hleaf.follow hj hw
  obtain ⟨number, hfollow, hquantity⟩ := rounded_of_denotes hpart hnumber
  exact ⟨heap, w, number, hr, hfollow, hquantity⟩

variable (hJ : J.Strict) (hh : h.Lawful)
  (hreads : ∀ j, Encodes h v j → j.All (J.Reads limit) ∧ j.All J.PrintsExactly)
include hJ hh hreads

theorem isBinary64_of_keepsInteger (hkeeps : KeepsInteger J h v keys i) :
    CanBeKept limit h v ∧ Binary64.IsBinary64 i.toInt := by
  obtain ⟨text, type, htype, n, hruns⟩ := hkeeps
  obtain ⟨hwritten, hback⟩ := hruns n (Nat.le_refl n)
  obtain ⟨j, hvalue, rfl, -⟩ := returns_toString_iff.mp (hwritten [])
  have hj := encodes_of_valueOf hJ hh hvalue
  obtain rfl := Option.some.inj (htype.symm.trans (encodes_dataType hj))
  obtain ⟨hread, hexact⟩ := hreads j hj
  obtain ⟨heap, w, number, hreturns, -⟩ := hback (on [] [])
  have hne : j ≠ .null := ne_null_of_returns (fun hnull => by subst hnull; exact hread) hreturns
  have hreadable := readable_of_returns j hne (hread.imp fun _ => JsonLibrary.Reads.rereads)
    hreturns
  refine ⟨(canBeKept_iff hj hread).mpr hreadable, ?_⟩
  -- With fuel for both, what is read is what comes back rounded.
  obtain ⟨m, hm⟩ := integer_read_back hsize hleaf hj hread hexact hreadable
  obtain ⟨heap, w, number, hr, hfollow, hequal⟩ :=
    (hruns (max n m) (Nat.le_max_left n m)).2 (on [] [])
  obtain ⟨heap', w', number', hr', hfollow', hquantity⟩ :=
    hm (max n m) (Nat.le_max_right n m) (on [] [])
  obtain ⟨-, hstate⟩ := (Result.done.injEq ..).mp (hr.symm.trans hr')
  obtain ⟨hstack, rfl⟩ := (LuaState.mk.injEq ..).mp hstate
  obtain rfl := List.head_eq_of_cons_eq hstack
  obtain rfl := Value.number.inj (hfollow.symm.trans hfollow')
  exact (equal_rounded_iff hquantity).mp hequal

end Leaf

/-- An integer in a value is stored exactly just if the value can be stored and read back at all
and the integer has no more than 53 significant bits. -/
theorem keepsInteger_iff (hJ : J.Strict) (hh : h.Lawful)
    (hsize : ∀ entries ∈ h, entries.length < 2 ^ 53)
    (hreads : ∀ j, Encodes h v j → j.All (J.Reads limit) ∧ j.All J.PrintsExactly)
    (hleaf : LeafAt h v keys (.number (.integer i))) :
    KeepsInteger J h v keys i ↔ CanBeKept limit h v ∧ Binary64.IsBinary64 i.toInt := by
  refine ⟨isBinary64_of_keepsInteger hsize hleaf hJ hh hreads, fun ⟨hkept, hi⟩ => ?_⟩
  obtain ⟨j, hj⟩ := hkept.serializable.exists_encodes
  obtain ⟨hread, hexact⟩ := hreads j hj
  have hreadable := (canBeKept_iff hj hread).mp hkept
  obtain ⟨n, hwrites⟩ := (writes_iff hJ hh).mpr hj
  obtain ⟨m, hm⟩ := integer_read_back hsize hleaf hj hread hexact hreadable
  refine ⟨valueText J j, dataType j, encodes_dataType hj, max n m, fun fuel hfuel => ?_⟩
  refine ⟨fun below => (hwrites fuel (Nat.le_trans (Nat.le_max_left n m) hfuel) below).2,
    fun L => ?_⟩
  obtain ⟨heap, w, number, hr, hfollow, hquantity⟩ :=
    hm fuel (Nat.le_trans (Nat.le_max_right n m) hfuel) L
  exact ⟨heap, w, number, hr, hfollow, (equal_rounded_iff hquantity).mpr hi⟩

-- ---------------------------------------------------------------------------
-- Runs
-- ---------------------------------------------------------------------------

def identifiers : Json := .array [.number twoPow53]

def identifiersText : String := "[9007199254740992.0]"

def identifierLibrary : JsonLibrary :=
  { textLibrary with
    toString := fun
      | .array _ => identifiersText
      | j => textLibrary.toString j
    fromString := fun text =>
      if text = identifiersText then .ok identifiers else textLibrary.fromString text }

theorem identifierLibrary_strict : identifierLibrary.Strict where
  toBuilds := ⟨fun _ _ => rfl, fun _ _ => rfl, fun _ _ _ => rfl, fun _ => rfl, fun _ _ => rfl⟩
  ofDouble_error := textLibrary_strict.ofDouble_error
  emplaceNocheck_array := textLibrary_strict.emplaceNocheck_array
  pushBack_object := textLibrary_strict.pushBack_object

def identifierHeap (i : Int64) : Heap := [[(sequenceKey 1, .number (.integer i))]]

theorem identifierHeap_encodes (hi : (Number.integer i).toDouble = twoPow53) :
    Encodes (identifierHeap i) (.table 0) identifiers :=
  ⟨0, rfl, nofun, .integer 1, .number (.integer i), [], rfl, ⟨.integer i, rfl, hi, _, _, rfl⟩, rfl⟩

theorem identifierHeap_leaf :
    LeafAt (identifierHeap i) (.table 0) [sequenceKey 1] (.number (.integer i)) :=
  .item (k := 0) (n := .integer 1) rfl (.here _)

theorem identifiers_cast :
    identifierLibrary.lexicalCast (identifierLibrary.toString (.number twoPow53)) =
      .ok twoPow53 := by
  have htext : textLibrary.toString (.number twoPow53) = "9007199254740992.0" := by
    refine if_neg fun heq => ?_
    have hq : (9007199254740992 : ℚ) = 37 / 2 := Double.finite.inj heq
    norm_num at hq
  show textLibrary.lexicalCast (textLibrary.toString (.number twoPow53)) = .ok twoPow53
  rw [htext]
  simp [textLibrary]

theorem identifiers_read : identifiers.All (identifierLibrary.Reads (some 128)) ∧
    identifiers.All identifierLibrary.PrintsExactly := by
  have hparses : identifierLibrary.Parses (some 128) identifiers := by
    refine .of_ok rfl ⟨trivial, trivial, trivial⟩ ?_
    simp [Json.depth, Json.depthItems, identifiers]
  exact ⟨⟨hparses, ⟨twoPow53, identifiers_cast⟩, trivial⟩, trivial, identifiers_cast, trivial⟩

theorem identifierHeap_reads (hi : (Number.integer i).toDouble = twoPow53)
    (hlawful : (identifierHeap i).Lawful) (j : Json)
    (hj : Encodes (identifierHeap i) (.table 0) j) :
    j.All (identifierLibrary.Reads (some 128)) ∧ j.All identifierLibrary.PrintsExactly := by
  rw [encodes_unique identifierLibrary_strict hlawful hj (identifierHeap_encodes hi)]
  exact identifiers_read

theorem twoPow53_toDouble : (Number.integer 9007199254740992).toDouble = twoPow53 := by
  have hround : Binary64.roundInt (Int64.toInt 9007199254740992) = 9007199254740992 := by
    decide +kernel
  simp only [Number.toDouble, Double.ofInt64, hround]
  rfl

theorem identifier_kept : KeepsInteger identifierLibrary (identifierHeap 9007199254740992)
    (.table 0) [sequenceKey 1] 9007199254740992 := by
  have hj := identifierHeap_encodes twoPow53_toDouble
  have hreads := identifierHeap_reads twoPow53_toDouble (by decide)
  refine (keepsInteger_iff identifierLibrary_strict (by decide) (by decide) hreads
    identifierHeap_leaf).mpr ⟨(canBeKept_iff hj identifiers_read.1).mpr ?_, ?_⟩
  · exact ⟨rfl, ⟨twoPow53, identifiers_cast⟩, trivial⟩
  · have hint : Int64.toInt 9007199254740992 = 9007199254740992 := by decide
    rw [hint]
    exact_mod_cast isBinary64_two_pow_53

/-- The next identifier has the same text, and is not the one which is read back. -/
theorem next_identifier_lost :
    Writes identifierLibrary (identifierHeap 9007199254740993) (.table 0) identifiers ∧
    ¬ KeepsInteger identifierLibrary (identifierHeap 9007199254740993) (.table 0) [sequenceKey 1]
      9007199254740993 := by
  have hreads := identifierHeap_reads lost_toDouble (by decide)
  refine ⟨(writes_iff identifierLibrary_strict (by decide)).mpr
    (identifierHeap_encodes lost_toDouble), fun hkeeps => ?_⟩
  have hbinary := (isBinary64_of_keepsInteger (by decide) identifierHeap_leaf
    identifierLibrary_strict (by decide) hreads hkeeps).2
  have hround :
      Binary64.roundInt (Int64.toInt 9007199254740993) ≠ Int64.toInt 9007199254740993 := by
    decide +kernel
  exact hround (Binary64.roundInt_of_isBinary64 hbinary)

end LambdaExecutor.Kv
