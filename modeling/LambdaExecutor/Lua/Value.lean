import LambdaExecutor.Library.Binary64
import Mathlib.Data.List.TakeWhile

/-!
# Lua values

Values, tables and the heap of Lua 5.4. A string is its sequence of bytes, each
a character. A table is the list of its entries in the order in which
`lua_next` visits them; other values refer to it by its place in the heap.
-/

namespace LambdaExecutor.Lua

inductive Number
  | integer (i : Int64)
  | float (d : Double)
  deriving DecidableEq

abbrev TableRef := Nat

inductive Value
  | nil
  | boolean (b : Bool)
  | number (n : Number)
  | string (s : String)
  | table (t : TableRef)
  | function (library name : String)
  | userdata (name : String)
  | thread (t : Nat)
  deriving DecidableEq

inductive LuaType
  | none
  | nil
  | boolean
  | number
  | string
  | table
  | function
  | userdata
  | thread
  deriving DecidableEq, Repr

def LuaType.name : LuaType → String
  | .none => "no value"
  | .nil => "nil"
  | .boolean => "boolean"
  | .number => "number"
  | .string => "string"
  | .table => "table"
  | .function => "function"
  | .userdata => "userdata"
  | .thread => "thread"

def Value.type : Value → LuaType
  | .nil => .nil
  | .boolean _ => .boolean
  | .number _ => .number
  | .string _ => .string
  | .table _ => .table
  | .function .. => .function
  | .userdata _ => .userdata
  | .thread _ => .thread

theorem Value.type_eq_nil {v : Value} : v.type = .nil ↔ v = .nil := by
  cases v <;> simp [Value.type]

def Value.toBoolean : Value → Bool
  | .nil | .boolean false => false
  | _ => true

/-- A string passed as a pointer to its characters ends at the first `NUL`. -/
def cString (s : String) : String := String.ofList (s.toList.takeWhile (· ≠ '\x00'))

def NulFree (s : String) : Prop := '\x00' ∉ s.toList

instance (s : String) : Decidable (NulFree s) := inferInstanceAs (Decidable (_ ∉ _))

theorem cString_of_nulFree {s : String} (h : NulFree s) : cString s = s := by
  have hall : s.toList.takeWhile (· ≠ '\x00') = s.toList := by
    rw [List.takeWhile_eq_self_iff]
    intro c hc
    exact decide_eq_true fun he => h (he ▸ hc)
  rw [cString, hall, String.ofList_toList]

theorem nulFree_cString (s : String) : NulFree (cString s) := by
  intro hmem
  rw [cString, String.toList_ofList] at hmem
  simpa using List.mem_takeWhile_imp hmem

theorem natAbs_toInt_lt (i : Int64) : i.toInt.natAbs < 2 ^ 64 := by
  have hlow := i.le_toInt
  have hhigh := i.toInt_lt
  omega

def Double.ofInt64 (i : Int64) : Double :=
  .finite (Binary64.roundInt i.toInt) (Binary64.isBinary64_roundInt (natAbs_toInt_lt i))

def Number.toDouble : Number → Double
  | .integer i => Double.ofInt64 i
  | .float d => d

/-- What a number stands for when it is compared; `NaN` stands for nothing. -/
inductive Quantity
  | rational (q : ℚ)
  | infinity (negative : Bool)
  deriving DecidableEq

def Number.quantity : Number → Option Quantity
  | .integer i => some (.rational i.toInt)
  | .float (.finite q _) => some (.rational q)
  | .float (.infinity negative) => some (.infinity negative)
  | .float .nan => none

/-- Lua's `==` on numbers, which compares an integer and a float by their exact values. -/
def Number.Equal (m n : Number) : Prop := ∃ q, m.quantity = some q ∧ n.quantity = some q

/-- A finite number that a `double` represents exactly. -/
def Number.Exact : Number → Prop
  | .integer i => Binary64.IsBinary64 i.toInt
  | .float (.finite _ _) => True
  | .float _ => False

theorem Number.Exact.quantity {n : Number} (h : n.Exact) :
    (Number.float n.toDouble).quantity = n.quantity ∧ ∃ q, n.quantity = some q := by
  cases n with
  | integer i =>
    refine ⟨?_, _, rfl⟩
    simp only [toDouble, Double.ofInt64, Number.quantity, Binary64.roundInt_of_isBinary64 h]
  | float d =>
    cases d with
    | finite q hq => exact ⟨rfl, _, rfl⟩
    | infinity negative => exact absurd h id
    | nan => exact absurd h id

-- ---------------------------------------------------------------------------
-- Tables
-- ---------------------------------------------------------------------------

abbrev Table := List (Value × Value)

abbrev Heap := List Table

/-- A float key with an integral value is the integer key. -/
def Value.toKey : Value → Value
  | .number (.float (.finite q h)) =>
    if q.den = 1 ∧ -2 ^ 63 ≤ q.num ∧ q.num < 2 ^ 63 then .number (.integer (Int64.ofInt q.num))
    else .number (.float (.finite q h))
  | k => k

namespace Table

/-- One entry for each key, and none for nil. -/
def WellFormed (t : Table) : Prop :=
  (t.map Prod.fst).Nodup ∧ ∀ entry ∈ t, entry.2 ≠ .nil

instance (t : Table) : Decidable t.WellFormed := inferInstanceAs (Decidable (_ ∧ _))

def get (t : Table) (k : Value) : Value :=
  ((t.find? (·.1 = k)).map Prod.snd).getD .nil

/-- A key that is there keeps its place; a new one comes last. -/
def set (t : Table) (k v : Value) : Table :=
  if v = .nil then t.filter (·.1 ≠ k)
  else if t.any (·.1 = k) then t.map fun entry => if entry.1 = k then (k, v) else entry
  else t ++ [(k, v)]

theorem get_cons (entry : Value × Value) (t : Table) (k : Value) :
    get (entry :: t) k = if entry.1 = k then entry.2 else get t k := by
  by_cases h : entry.1 = k <;> simp [get, h]

theorem get_of_notMem {t : Table} {k : Value} (h : k ∉ t.map Prod.fst) : get t k = .nil := by
  induction t with
  | nil => rfl
  | cons entry rest ih =>
    rw [List.map_cons, List.mem_cons, not_or] at h
    rw [get_cons, if_neg (Ne.symm h.1), ih h.2]

theorem get_mem {t : Table} {k : Value} : t.get k = .nil ∨ (k, t.get k) ∈ t := by
  induction t with
  | nil => exact .inl rfl
  | cons entry rest ih =>
    rw [get_cons]
    split
    next h => exact .inr (h ▸ List.mem_cons_self)
    next h => exact ih.imp_right (List.mem_cons_of_mem _)

theorem get_of_mem {t : Table} {entry : Value × Value} (hdistinct : (t.map Prod.fst).Nodup)
    (hmem : entry ∈ t) : t.get entry.1 = entry.2 := by
  induction t with
  | nil => exact absurd hmem List.not_mem_nil
  | cons first rest ih =>
    rw [List.map_cons, List.nodup_cons] at hdistinct
    rw [get_cons]
    rcases List.mem_cons.mp hmem with rfl | hmem
    · rw [if_pos rfl]
    · have hne : first.1 ≠ entry.1 := fun heq => hdistinct.1 (heq ▸ List.mem_map_of_mem hmem)
      rw [if_neg hne, ih hdistinct.2 hmem]

theorem set_of_notMem {t : Table} {k v : Value} (hk : k ∉ t.map Prod.fst) (hv : v ≠ .nil) :
    t.set k v = t ++ [(k, v)] := by
  rw [set, if_neg hv, if_neg]
  intro hany
  obtain ⟨entry, hmem, he⟩ := List.any_eq_true.mp hany
  exact hk (List.mem_map.mpr ⟨entry, hmem, of_decide_eq_true he⟩)

theorem mem_set {t : Table} {k v : Value} {entry : Value × Value} (h : entry ∈ t.set k v) :
    entry = (k, v) ∧ v ≠ .nil ∨ entry ∈ t ∧ entry.1 ≠ k := by
  unfold set at h
  split at h
  next hv =>
    obtain ⟨hmem, hne⟩ := List.mem_filter.mp h
    exact .inr ⟨hmem, of_decide_eq_true hne⟩
  next hv =>
    split at h
    next =>
      obtain ⟨old, hold, rfl⟩ := List.mem_map.mp h
      split
      next => exact .inl ⟨rfl, hv⟩
      next hne => exact .inr ⟨hold, hne⟩
    next hnew =>
      obtain hold | hlast := List.mem_append.mp h
      · refine .inr ⟨hold, fun he => hnew ?_⟩
        exact List.any_eq_true.mpr ⟨entry, hold, decide_eq_true he⟩
      · exact .inl ⟨List.mem_singleton.mp hlast, hv⟩

theorem get_append_of_notMem {t : Table} {k : Value} (u : Table) (h : k ∉ u.map Prod.fst) :
    (t ++ u).get k = t.get k := by
  induction t with
  | nil => exact get_of_notMem h
  | cons entry rest ih => rw [List.cons_append, get_cons, get_cons, ih]

theorem get_set_self {t : Table} {k v : Value} (hv : v ≠ .nil) : (t.set k v).get k = v := by
  unfold set
  rw [if_neg hv]
  induction t with
  | nil => simp [get]
  | cons entry rest ih =>
    by_cases hkey : entry.1 = k
    · simp [hkey, get_cons]
    · split at ih <;> simp_all [get_cons]

theorem get_set_ne {t : Table} {k k' : Value} (v : Value) (h : k ≠ k') :
    (t.set k v).get k' = t.get k' := by
  unfold set
  split
  next =>
    induction t with
    | nil => rfl
    | cons entry rest ih =>
      rw [List.filter_cons]
      split
      next => rw [get_cons, get_cons, ih]
      next hk =>
        have hk : entry.1 = k := by simpa using hk
        rw [ih, get_cons, if_neg (hk ▸ h)]
  next =>
    split
    next =>
      clear * - h
      induction t with
      | nil => rfl
      | cons entry rest ih =>
        rw [List.map_cons, get_cons, get_cons, ih]
        split <;> simp_all
    next =>
      exact get_append_of_notMem _ (by simpa using h.symm)

end Table

end LambdaExecutor.Lua
