import LambdaExecutor.Lua.DeserializerLaws

/-!
# What is stored is read back

The text of a storable value, read under the type of the value, gives an equal
value: in whatever state it is read, and without touching that state but for the
one value that is pushed.
-/

namespace LambdaExecutor.Lua

open Raii Raii.Code Formats Serializer Deserializer

/-- The type under which a value is to be read back. -/
def Value.dataType : Value → Option DataType
  | .string _ => some .string
  | .number _ => some .number
  | .boolean _ => some .boolean
  | .table _ => some .table
  | _ => none

variable {J : JsonLibrary} {h : Heap} {lo : TableRef}

theorem Denotes.dataType {v : Value} {j : Json} (hv : Denotes h lo v j) :
    v.dataType = some (Deserializer.dataType j) := by
  cases j with
  | null => exact hv.elim
  | bool b =>
    obtain rfl : v = .boolean b := hv
    rfl
  | number d =>
    obtain ⟨n, rfl, -⟩ := hv
    rfl
  | string s =>
    obtain ⟨rfl, -⟩ := hv
    rfl
  | array items =>
    obtain ⟨t, -, rfl, -⟩ := hv
    rfl
  | object members =>
    obtain ⟨t, -, rfl, -⟩ := hv
    rfl

theorem textOf_eq_valueText (J : JsonLibrary) (j : Json) : textOf J j = valueText J j := by
  cases j <;> rfl

/-- Serializing a storable value on the top of the stack gives a text and leaves
the state as it was; deserializing the text under the value's type, in any state,
pushes one value with the same content. -/
theorem stored_value_read_back (hJ : J.Builds) (L : LuaState) (v : Value) (rest : List Value)
    (htop : L.stack = v :: rest) (hv : Storable L.heap v)
    (hreads : ∀ j, Denotes L.heap 0 v j → J.ReadsBack j) :
    ∃ text type, v.dataType = some type ∧ ∃ n, ∀ fuel, n ≤ fuel →
      Returns (Serializer.toString J fuel none) L text L ∧
      ∀ L' : LuaState, ∃ heap w,
        Returns (Deserializer.fromString J fuel type text) L' ()
          { stack := w :: L'.stack, heap := heap } ∧
        ContentEq L.heap heap v w ∧ ∀ t, t < L'.heap.length → heap[t]? = L'.heap[t]? := by
  obtain ⟨stack, h⟩ := L
  obtain rfl : stack = v :: rest := htop
  obtain ⟨j, hj⟩ := hv.exists_denotes
  obtain ⟨n, htoString⟩ := returns_toString hJ hj
  obtain ⟨m, hfromString⟩ := returns_fromString j (restorable_of_denotes j hj) (hreads j hj)
  refine ⟨textOf J j, _, hj.dataType, max n m, fun fuel hfuel => ⟨?_, fun L' => ?_⟩⟩
  · exact htoString fuel (Nat.le_trans (Nat.le_max_left n m) hfuel) rest
  · obtain ⟨heap, w, hr, he, hw⟩ :=
      hfromString fuel (Nat.le_trans (Nat.le_max_right n m) hfuel) L'.heap L'.stack
    rw [textOf_eq_valueText]
    exact ⟨heap, w, hr, Denotes.contentEq j hj hw, fun t => he.2 t id⟩

-- ---------------------------------------------------------------------------
-- Runs
-- ---------------------------------------------------------------------------

theorem isBinary64_37_2 : Binary64.IsBinary64 (37 / 2) :=
  ⟨37, -1, by norm_num, by norm_num, by norm_num, by norm_num⟩

theorem isBinary64_two_pow_53 : Binary64.IsBinary64 9007199254740992 :=
  ⟨1, 53, by norm_num, by norm_num, by norm_num, by norm_num⟩

def age : Double := .finite (37 / 2) isBinary64_37_2

def twoPow53 : Double := .finite 9007199254740992 isBinary64_two_pow_53

def flags : Json := .array [.number age, .bool true]

def person : Json := .object [("name", .string "Test"), ("flags", flags)]

def flagsText : String := "[18.5,true]"

def personText : String := "\x7b\"name\":\"Test\",\"flags\":[18.5,true]\x7d"

def textLibrary : JsonLibrary where
  ofDouble
    | .finite q h => .ok (.number (.finite q h))
    | _ => .error (.stdException "Not a finite number")
  emplaceNocheck
    | .null, key, value => .ok (.object [(key, value)])
    | .object members, key, value => .ok (.object (members ++ [(key, value)]))
    | _, _, _ => .error (.stdException "Not an object")
  pushBack
    | .null, value => .ok (.array [value])
    | .array items, value => .ok (.array (items ++ [value]))
    | _, _ => .error (.stdException "Not an array")
  toString
    | .null => "null"
    | .bool b => if b then "true" else "false"
    | .number d => if d = age then "18.5" else "9007199254740992.0"
    | .string s => s
    | .array _ => flagsText
    | .object _ => personText
  fromString text :=
    if text = flagsText then .ok flags
    else if text = personText then .ok person
    else .error (.stdException "Parse error")
  lexicalCast text :=
    if text = "18.5" then .ok age
    else if text = "9007199254740992.0" then .ok twoPow53
    else .error (.stdException "bad lexical cast")

theorem textLibrary_builds : textLibrary.Builds :=
  ⟨fun _ _ => rfl, fun _ _ => rfl, fun _ _ _ => rfl, fun _ => rfl, fun _ _ => rfl⟩

theorem textLibrary_strict : textLibrary.Strict where
  toBuilds := textLibrary_builds
  ofDouble_error := by
    intro d hd
    cases d with
    | finite q h => exact absurd rfl (hd q h)
    | infinity negative => exact ⟨_, rfl⟩
    | nan => exact ⟨_, rfl⟩
  emplaceNocheck_array items key value := ⟨_, rfl⟩
  pushBack_object members value := ⟨_, rfl⟩

def personHeap : Heap :=
  [[(recordKey "name", .string "Test"), (recordKey "flags", .table 1)],
    [(sequenceKey 1, .number (.float age)), (sequenceKey 2, .boolean true)]]

theorem personHeap_denotes : Denotes personHeap 0 (.table 0) person := by
  refine ⟨0, _, rfl, Nat.le_refl 0, rfl, nofun, by decide, .string "Test", _, rfl, by decide,
    ⟨rfl, by decide⟩, .table 1, _, rfl, by decide, ?_, rfl⟩
  exact ⟨1, _, rfl, Nat.zero_le 1, rfl, nofun, by decide, .number (.float age), _, rfl,
    ⟨.float age, rfl, trivial, rfl⟩, .boolean true, _, rfl, rfl, rfl⟩

theorem personHeap_storable : Storable personHeap (.table 0) := by
  have hflags : Storable personHeap (.table 1) := by
    refine .sequence rfl nofun (by decide) rfl ?_
    exact List.forall_mem_cons.mpr ⟨.number trivial, List.forall_mem_singleton.mpr (.boolean true)⟩
  refine .record rfl nofun ⟨by decide, by simp⟩ ?_ ?_
  · exact List.forall_mem_cons.mpr ⟨⟨"name", rfl, by decide⟩,
      List.forall_mem_singleton.mpr ⟨"flags", rfl, by decide⟩⟩
  · exact List.forall_mem_cons.mpr ⟨.string (by decide), List.forall_mem_singleton.mpr hflags⟩

theorem person_readsBack : textLibrary.ReadsBack person := by
  have hage : textLibrary.ReadsBack (.number age) := by
    simp [JsonLibrary.ReadsBack, textLibrary]
  have hflags : textLibrary.fromString flagsText = .ok flags := by simp [textLibrary]
  have hperson : textLibrary.fromString personText = .ok person := by
    simp [textLibrary, personText, flagsText]
  exact ⟨hperson, trivial, ⟨hflags, hage, rfl, trivial⟩, trivial⟩

theorem person_read_back : ∃ text type, (Value.table 0).dataType = some type ∧
    ∃ n, ∀ fuel, n ≤ fuel →
      Returns (Serializer.toString textLibrary fuel none) (on personHeap [.table 0]) text
        (on personHeap [.table 0]) ∧
      ∀ L' : LuaState, ∃ heap w,
        Returns (Deserializer.fromString textLibrary fuel type text) L' ()
          { stack := w :: L'.stack, heap := heap } ∧
        ContentEq personHeap heap (.table 0) w ∧
        ∀ t, t < L'.heap.length → heap[t]? = L'.heap[t]? :=
  stored_value_read_back textLibrary_builds (on personHeap [.table 0]) (.table 0) [] rfl
    personHeap_storable fun j hj => by
      rw [Denotes.unique j hj personHeap_denotes]
      exact person_readsBack

def lost : Value := .number (.integer 9007199254740993)

theorem lost_toDouble : (Number.integer 9007199254740993).toDouble = twoPow53 := by
  have hround : Binary64.roundInt (Int64.toInt 9007199254740993) = 9007199254740992 := by
    decide +kernel
  simp only [Number.toDouble, Double.ofInt64, hround]
  rfl

theorem not_contentEq_lost (h h' : Heap) : ¬ ContentEq h h' lost (.number (.float twoPow53)) := by
  rintro (_ | _ | ⟨q, hq, hq'⟩)
  have heq := Quantity.rational.inj (Option.some.inj (hq.trans hq'.symm))
  have hint : Int64.toInt 9007199254740993 = 9007199254740993 := by decide
  rw [hint] at heq
  norm_num at heq

theorem not_contentEq_nan (h h' : Heap) (w : Value) :
    ¬ ContentEq h h' (.number (.float .nan)) w := by
  rintro (_ | _ | ⟨q, hq, -⟩)
  exact nomatch hq

/-- The integer `2^53 + 1` comes back as `2^53`, and `NaN` cannot come back as anything equal. -/
theorem large_integer_not_read_back :
    Returns (Serializer.toString textLibrary 1 none) (on [] [lost]) "9007199254740992.0"
      (on [] [lost]) ∧
    Returns (Deserializer.fromString textLibrary 1 .number "9007199254740992.0") (on [] []) ()
      (on [] [.number (.float twoPow53)]) ∧
    ¬ ContentEq [] [] lost (.number (.float twoPow53)) ∧
    ∀ h h' w, ¬ ContentEq h h' (.number (.float .nan)) w := by
  refine ⟨?_, ?_, not_contentEq_lost [] [], not_contentEq_nan⟩
  · have htype : Returns (luaType (-1)) (on [] [lost]) .number (on [] [lost]) := rfl
    have hnumber : Returns (luaToNumber (-1)) (on [] [lost]) twoPow53 (on [] [lost]) :=
      congrArg (Result.done · _) lost_toDouble
    have hvalue : Returns (toValue textLibrary 1 none) (on [] [lost]) (.number twoPow53)
        (on [] [lost]) := by
      rw [toValue]
      exact htype.bind (hnumber.bind (returns_ofLibrary rfl _))
    have htext : textLibrary.toString (.number twoPow53) = "9007199254740992.0" := by
      refine if_neg fun heq => ?_
      have hq : (9007199254740992 : ℚ) = 37 / 2 := Double.finite.inj heq
      norm_num at hq
    exact hvalue.bind (congrArg (Result.done · _) htext)
  · have hcast : textLibrary.lexicalCast "9007199254740992.0" = .ok twoPow53 := by
      simp [textLibrary]
    exact (returns_ofLibrary hcast _).bind rfl

end LambdaExecutor.Lua
