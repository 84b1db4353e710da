import LambdaExecutor.Exceptions
import LambdaExecutor.Lua.Value

/-!
# JSON

The JSON values of `userver::formats::json`, and what is called of that library
and of `boost::lexical_cast`. Of the library only what its documentation says is
relied on: how a builder grows, and that a printed value reads back.
-/

namespace LambdaExecutor.Formats

inductive Json
  | null
  | bool (b : Bool)
  | number (d : Double)
  | string (s : String)
  | array (items : List Json)
  | object (members : List (String × Json))

mutual
def Json.All (P : Json → Prop) : Json → Prop
  | .array items => P (.array items) ∧ Json.AllItems P items
  | .object members => P (.object members) ∧ Json.AllMembers P members
  | .null => P .null
  | .bool b => P (.bool b)
  | .number d => P (.number d)
  | .string s => P (.string s)
def Json.AllItems (P : Json → Prop) : List Json → Prop
  | [] => True
  | item :: items => item.All P ∧ Json.AllItems P items
def Json.AllMembers (P : Json → Prop) : List (String × Json) → Prop
  | [] => True
  | (_, value) :: members => value.All P ∧ Json.AllMembers P members
end

mutual
theorem Json.All.imp₂ {P Q R : Json → Prop} (himp : ∀ j, P j → Q j → R j) :
    (j : Json) → j.All P → j.All Q → j.All R
  | .null, hP, hQ => himp _ hP hQ
  | .bool _, hP, hQ => himp _ hP hQ
  | .number _, hP, hQ => himp _ hP hQ
  | .string _, hP, hQ => himp _ hP hQ
  | .array items, hP, hQ => ⟨himp _ hP.1 hQ.1, Json.AllItems.imp₂ himp items hP.2 hQ.2⟩
  | .object members, hP, hQ => ⟨himp _ hP.1 hQ.1, Json.AllMembers.imp₂ himp members hP.2 hQ.2⟩
theorem Json.AllItems.imp₂ {P Q R : Json → Prop} (himp : ∀ j, P j → Q j → R j) :
    (items : List Json) → Json.AllItems P items → Json.AllItems Q items → Json.AllItems R items
  | [], _, _ => trivial
  | item :: items, hP, hQ =>
    ⟨Json.All.imp₂ himp item hP.1 hQ.1, Json.AllItems.imp₂ himp items hP.2 hQ.2⟩
theorem Json.AllMembers.imp₂ {P Q R : Json → Prop} (himp : ∀ j, P j → Q j → R j) :
    (members : List (String × Json)) → Json.AllMembers P members → Json.AllMembers Q members →
      Json.AllMembers R members
  | [], _, _ => trivial
  | (_, value) :: members, hP, hQ =>
    ⟨Json.All.imp₂ himp value hP.1 hQ.1, Json.AllMembers.imp₂ himp members hP.2 hQ.2⟩
end

theorem Json.All.imp {P Q : Json → Prop} (himp : ∀ j, P j → Q j) {j : Json} (hP : j.All P) :
    j.All Q := Json.All.imp₂ (fun j hj _ => himp j hj) j hP hP

mutual
/-- How many arrays and objects are one inside the other. -/
def Json.depth : Json → Nat
  | .array items => Json.depthItems items + 1
  | .object members => Json.depthMembers members + 1
  | .null | .bool _ | .number _ | .string _ => 0
def Json.depthItems : List Json → Nat
  | [] => 0
  | item :: items => max item.depth (Json.depthItems items)
def Json.depthMembers : List (String × Json) → Nat
  | [] => 0
  | (_, value) :: members => max value.depth (Json.depthMembers members)
end

def Json.parts : Json → List Json
  | .array items => items
  | .object members => members.map Prod.snd
  | _ => []

theorem Json.allItems_iff {P : Json → Prop} {items : List Json} :
    Json.AllItems P items ↔ ∀ part ∈ items, part.All P := by
  induction items with
  | nil => simp [Json.AllItems]
  | cons item items ih => simp [Json.AllItems, ih]

theorem Json.allMembers_iff {P : Json → Prop} {members : List (String × Json)} :
    Json.AllMembers P members ↔ ∀ part ∈ members.map Prod.snd, part.All P := by
  induction members with
  | nil => simp [Json.AllMembers]
  | cons member members ih => simp [Json.AllMembers, ih]

theorem Json.all_iff {P : Json → Prop} {j : Json} :
    j.All P ↔ P j ∧ ∀ part ∈ j.parts, part.All P := by
  cases j with
  | array items => exact and_congr_right fun _ => Json.allItems_iff
  | object members => exact and_congr_right fun _ => Json.allMembers_iff
  | null | bool b | number d | string s => simp [Json.All, Json.parts]

theorem Json.All.of_mem_parts {P : Json → Prop} {j part : Json} (hall : j.All P)
    (hmem : part ∈ j.parts) : part.All P := (Json.all_iff.mp hall).2 part hmem

theorem Json.depth_le_depthItems {items : List Json} {part : Json} (hmem : part ∈ items) :
    part.depth ≤ Json.depthItems items := by
  induction items with
  | nil => exact nomatch hmem
  | cons item items ih =>
    obtain rfl | hmem := List.mem_cons.mp hmem
    · exact Nat.le_max_left _ _
    · exact Nat.le_trans (ih hmem) (Nat.le_max_right _ _)

theorem Json.depth_le_depthMembers {members : List (String × Json)} {member : String × Json}
    (hmem : member ∈ members) : member.2.depth ≤ Json.depthMembers members := by
  induction members with
  | nil => exact nomatch hmem
  | cons first members ih =>
    obtain rfl | hmem := List.mem_cons.mp hmem
    · exact Nat.le_max_left _ _
    · exact Nat.le_trans (ih hmem) (Nat.le_max_right _ _)

theorem Json.depth_lt_of_mem_parts {j part : Json} (hmem : part ∈ j.parts) :
    part.depth < j.depth := by
  cases j with
  | array items => exact Nat.lt_succ_of_le (Json.depth_le_depthItems hmem)
  | object members =>
    obtain ⟨member, hmember, rfl⟩ := List.mem_map.mp hmem
    exact Nat.lt_succ_of_le (Json.depth_le_depthMembers hmember)
  | _ => exact nomatch hmem

def Json.IsTable : Json → Prop
  | .array _ | .object _ => True
  | .null | .bool _ | .number _ | .string _ => False

theorem Json.isTable_of_mem_parts {j part : Json} (hmem : part ∈ j.parts) : j.IsTable := by
  cases j with
  | array items | object members => trivial
  | null | bool b | number d | string s => exact nomatch hmem

def Json.DistinctNames : Json → Prop
  | .object members => (members.map Prod.fst).Nodup
  | _ => True

structure JsonLibrary where
  /-- The constructor of a `ValueBuilder` from a `double`. -/
  ofDouble : Double → Except Exception Json
  emplaceNocheck : Json → String → Json → Except Exception Json
  pushBack : Json → Json → Except Exception Json
  toString : Json → String
  fromString : String → Except Exception Json
  lexicalCast : String → Except Exception Double

/-- A null builder becomes what is added to it first. -/
structure JsonLibrary.Builds (J : JsonLibrary) : Prop where
  ofDouble : ∀ q h, J.ofDouble (.finite q h) = .ok (.number (.finite q h))
  emplaceNocheck_null : ∀ key value,
    J.emplaceNocheck .null key value = .ok (.object [(key, value)])
  emplaceNocheck_object : ∀ members key value,
    J.emplaceNocheck (.object members) key value = .ok (.object (members ++ [(key, value)]))
  pushBack_null : ∀ value, J.pushBack .null value = .ok (.array [value])
  pushBack_array : ∀ items value,
    J.pushBack (.array items) value = .ok (.array (items ++ [value]))

/-- A builder of one kind does not take what belongs to the other. -/
structure JsonLibrary.Strict (J : JsonLibrary) : Prop extends J.Builds where
  ofDouble_error : ∀ d, (∀ q h, d ≠ .finite q h) → ∃ e, J.ofDouble d = .error e
  emplaceNocheck_array : ∀ items key value,
    ∃ e, J.emplaceNocheck (.array items) key value = .error e
  pushBack_object : ∀ members value, ∃ e, J.pushBack (.object members) value = .error e

/-- What becomes of the text that is printed for a value: the parser refuses an object with
a name twice, and what is nested deeper than `limit`, if it has one. -/
def JsonLibrary.Parses (J : JsonLibrary) (limit : Option Nat) (j : Json) : Prop :=
  (j.All Json.DistinctNames ∧ (∀ n ∈ limit, j.depth ≤ n) → J.fromString (J.toString j) = .ok j) ∧
    (¬ (j.All Json.DistinctNames ∧ ∀ n ∈ limit, j.depth ≤ n) →
      ∃ e, J.fromString (J.toString j) = .error e)

theorem JsonLibrary.Parses.of_ok {J : JsonLibrary} {limit : Option Nat} {j : Json}
    (hok : J.fromString (J.toString j) = .ok j) (hnames : j.All Json.DistinctNames)
    (hdepth : ∀ n ∈ limit, j.depth ≤ n) : J.Parses limit j :=
  ⟨fun _ => hok, fun hunfit => absurd ⟨hnames, hdepth⟩ hunfit⟩

/-- The same, and a number can be cast from its text. -/
def JsonLibrary.Reads (J : JsonLibrary) (limit : Option Nat) : Json → Prop
  | .bool _ | .string _ => True
  | .number d => ∃ d', J.lexicalCast (J.toString (.number d)) = .ok d'
  | j => J.Parses limit j

/-- The text that is printed for an array or an object reads as the same again, or not at all. -/
def JsonLibrary.Rereads (J : JsonLibrary) : Json → Prop
  | .null | .bool _ | .number _ | .string _ => True
  | j => J.fromString (J.toString j) = .ok j ∨ ∃ e, J.fromString (J.toString j) = .error e

theorem JsonLibrary.Parses.ok_or_error {J : JsonLibrary} {limit : Option Nat} {j : Json}
    (hj : J.Parses limit j) : J.fromString (J.toString j) = .ok j ∨
      ∃ e, J.fromString (J.toString j) = .error e := by
  by_cases hfits : j.All Json.DistinctNames ∧ ∀ n ∈ limit, j.depth ≤ n
  · exact .inl (hj.1 hfits)
  · exact .inr (hj.2 hfits)

theorem JsonLibrary.Reads.rereads {J : JsonLibrary} {limit : Option Nat} {j : Json}
    (hj : J.Reads limit j) : J.Rereads j := by
  cases j with
  | array items => exact JsonLibrary.Parses.ok_or_error hj
  | object members => exact JsonLibrary.Parses.ok_or_error hj
  | _ => trivial

def JsonLibrary.PrintsExactly (J : JsonLibrary) : Json → Prop
  | .bool b => J.toString (.bool b) = if b then "true" else "false"
  | .number d => J.lexicalCast (J.toString (.number d)) = .ok d
  | _ => True

mutual
/-- The texts that are printed for a value and its parts give the same values back. -/
def JsonLibrary.ReadsBack (J : JsonLibrary) : Json → Prop
  | .null | .string _ => True
  | .bool b => J.toString (.bool b) = if b then "true" else "false"
  | .number d => J.lexicalCast (J.toString (.number d)) = .ok d
  | .array items => J.fromString (J.toString (.array items)) = .ok (.array items) ∧
      J.ReadsBackItems items
  | .object members => J.fromString (J.toString (.object members)) = .ok (.object members) ∧
      J.ReadsBackMembers members
def JsonLibrary.ReadsBackItems (J : JsonLibrary) : List Json → Prop
  | [] => True
  | item :: items => J.ReadsBack item ∧ J.ReadsBackItems items
def JsonLibrary.ReadsBackMembers (J : JsonLibrary) : List (String × Json) → Prop
  | [] => True
  | (_, value) :: members => J.ReadsBack value ∧ J.ReadsBackMembers members
end

end LambdaExecutor.Formats
