import LambdaExecutor.Engine.FailedRun
import LambdaExecutor.Http.ClientLaws
import LambdaExecutor.Library.Emplace
import LambdaExecutor.Lua.SerializerLaws

/-!
# Query and header tables

The loops over the query and the headers read a key by converting it on the stack,
and pass what they have made of it to the next `lua_next`. A number has become a
string then, under which the table has another entry or none.
-/

namespace LambdaExecutor.Http.ClientMethod

open Lua Formats Raii Raii.Code Emplace
open Serializer (on After)

variable {H : HttpLibrary} {fuel limit : Nat} {numberText : Number → String} {h : Heap}
  {t : TableRef} {k key v : Value} {below : List Value} {error : String}
  {emplace : List (String × String) → String → String → Except Exception (List (String × String))}
  {entries entries' : List (String × String)}

/-- The string which `lua_tostring` makes of a string or a number. -/
def stringForm (numberText : Number → String) : Value → String
  | .string s => s
  | .number n => numberText n
  | _ => ""

/-- What `lua_isstring` is true of. -/
def IsText (v : Value) : Prop := v.type = .string ∨ v.type = .number

instance (v : Value) : Decidable (IsText v) := inferInstanceAs (Decidable (_ ∨ _))

theorem isText_cases {v : Value} (h : IsText v) : (∃ s, v = .string s) ∨ ∃ n, v = .number n := by
  cases v <;> simp_all [IsText, Value.type]

theorem exists_four {stack : List Value} (hlength : stack.length = 4) :
    ∃ a b c d, stack = [a, b, c, d] := by
  obtain ⟨a, rest, rfl⟩ := List.exists_cons_of_length_eq_add_one hlength
  obtain ⟨b, c, d, rfl⟩ := List.length_eq_three.mp (Nat.succ.inj hlength)
  exact ⟨a, b, c, d, rfl⟩

-- ---------------------------------------------------------------------------
-- One step of the loop
-- ---------------------------------------------------------------------------

theorem at_six (hlength : below.length = 5) (k : Value) :
    (on h (k :: .table t :: below)).at 6 = some (.table t) := by
  show (k :: .table t :: below).reverse[5]? = _
  rw [List.reverse_cons, List.reverse_cons, List.append_assoc,
    List.getElem?_append_right (by simp [hlength])]
  simp [hlength]

theorem luaNext_six (hlength : below.length = 5) (k : Value) :
    luaNext 6 (on h (k :: .table t :: below)) =
      luaNextOn (h[t]?.getD []) k.toKey (.table t :: below) (on h (k :: .table t :: below)) := by
  have hat := at_six (h := h) (t := t) hlength k
  unfold luaNext
  rw [hat]
  rfl

theorem luaNext_visits_six (hlength : below.length = 5)
    (hnext : Table.next (h[t]?.getD []) k.toKey = some (some (key, v))) :
    Returns (luaNext 6) (on h (k :: .table t :: below)) true
      (on h (v :: key :: .table t :: below)) := by
  rw [Returns, luaNext_six hlength, luaNextOn, hnext]
  rfl

/-- The key has been replaced by its string form when the loop goes on. -/
theorem populateEntries_visits (hlength : below.length = 5)
    (hnext : Table.next (h[t]?.getD []) k.toKey = some (some (key, v)))
    (hkey : IsText key) (hv : IsText v)
    (hadd : emplace entries (cString (stringForm numberText key))
      (cString (stringForm numberText v)) = .ok entries') :
    populateEntries numberText error emplace (fuel + 1) entries (on h (k :: .table t :: below)) =
      populateEntries numberText error emplace fuel entries'
        (on h (.string (stringForm numberText key) :: .table t :: below)) := by
  rw [populateEntries, (luaNext_visits_six hlength hnext).bind_apply, if_pos rfl]
  rcases isText_cases hkey with ⟨s, rfl⟩ | ⟨n, rfl⟩ <;>
    rcases isText_cases hv with ⟨w, rfl⟩ | ⟨m, rfl⟩ <;>
      exact (Serializer.returns_ofLibrary hadd _).bind_apply _

theorem populateEntries_refused {e : Exception} (hlength : below.length = 5)
    (hnext : Table.next (h[t]?.getD []) k.toKey = some (some (key, v)))
    (hkey : IsText key) (hv : IsText v)
    (hadd : emplace entries (cString (stringForm numberText key))
      (cString (stringForm numberText v)) = .error e) :
    ∃ L, Throws (populateEntries numberText error emplace (fuel + 1) entries)
      (on h (k :: .table t :: below)) (.exception e) L := by
  have hvisit := luaNext_visits_six hlength hnext
  have hrefused : ∀ L, Throws (ofLibrary (emplace entries (cString (stringForm numberText key))
      (cString (stringForm numberText v)))) L (.exception e) L := by
    intro L
    rw [hadd]
    rfl
  rw [populateEntries]
  rcases isText_cases hkey with ⟨s, rfl⟩ | ⟨n, rfl⟩ <;>
    rcases isText_cases hv with ⟨w, rfl⟩ | ⟨m, rfl⟩ <;>
      exact ⟨_, (hvisit.bind_apply _).trans ((hrefused _).bind _)⟩

theorem populateEntries_mismatch (hlength : below.length = 5)
    (hnext : Table.next (h[t]?.getD []) k.toKey = some (some (key, v)))
    (hmismatch : ¬ (IsText key ∧ IsText v)) :
    Throws (populateEntries numberText error emplace (fuel + 1) entries)
      (on h (k :: .table t :: below)) (.luaError error) (on h (v :: key :: .table t :: below)) := by
  have hkey : Returns (luaIsString (-2)) (on h (v :: key :: .table t :: below))
      (decide (IsText key)) (on h (v :: key :: .table t :: below)) := by cases key <;> rfl
  have hv : Returns (luaIsString (-1)) (on h (v :: key :: .table t :: below))
      (decide (IsText v)) (on h (v :: key :: .table t :: below)) := by cases v <;> rfl
  rw [populateEntries]
  refine ((luaNext_visits_six hlength hnext).bind_apply _).trans ?_
  rw [if_pos rfl, hkey.bind_apply, hv.bind_apply, if_pos (by simpa using hmismatch)]
  rfl

theorem populateEntries_fails (hlength : below.length = 5)
    (hnext : Table.next (h[t]?.getD []) k.toKey = none) :
    Throws (populateEntries numberText error emplace (fuel + 1) entries)
      (on h (k :: .table t :: below)) (.luaError "invalid key to 'next'")
      (on h (k :: .table t :: below)) := by
  have hfails : Throws (luaNext 6) (on h (k :: .table t :: below))
      (.luaError "invalid key to 'next'") (on h (k :: .table t :: below)) := by
    rw [Throws, luaNext_six hlength, luaNextOn, hnext]
  rw [populateEntries]
  exact hfails.bind _

theorem populateEntries_ends (hlength : below.length = 5)
    (hnext : Table.next (h[t]?.getD []) k.toKey = some none) :
    Returns (populateEntries numberText error emplace (fuel + 1) entries)
      (on h (k :: .table t :: below)) entries (on h (.table t :: below)) := by
  have hends : Returns (luaNext 6) (on h (k :: .table t :: below)) false
      (on h (.table t :: below)) := by
    rw [Returns, luaNext_six hlength, luaNextOn, hnext]
    rfl
  rw [populateEntries]
  exact hends.bind (.pure _ _)

theorem returns_step {result : List (String × String)} {L : LuaState} (hlength : below.length = 5)
    (hreturns : Returns (populateEntries numberText error emplace (fuel + 1) entries)
      (on h (k :: .table t :: below)) result L) :
    (Table.next (h[t]?.getD []) k.toKey = some none ∧ result = entries ∧
      L = on h (.table t :: below)) ∨
    ∃ key v next, Table.next (h[t]?.getD []) k.toKey = some (some (key, v)) ∧ IsText key ∧
      IsText v ∧ emplace entries (cString (stringForm numberText key))
        (cString (stringForm numberText v)) = .ok next ∧
      Returns (populateEntries numberText error emplace fuel next)
        (on h (.string (stringForm numberText key) :: .table t :: below)) result L := by
  cases hnext : Table.next (h[t]?.getD []) k.toKey with
  | none => exact nomatch (populateEntries_fails hlength hnext).symm.trans hreturns
  | some entry =>
    rcases entry with - | ⟨key, v⟩
    · obtain ⟨rfl, rfl⟩ :=
        Result.done.inj ((populateEntries_ends hlength hnext).symm.trans hreturns)
      exact .inl ⟨rfl, rfl, rfl⟩
    · refine .inr ⟨key, v, ?_⟩
      by_cases htext : IsText key ∧ IsText v
      · obtain ⟨hkey, hv⟩ := htext
        cases hadd : emplace entries (cString (stringForm numberText key))
            (cString (stringForm numberText v)) with
        | error e =>
          obtain ⟨L', hthrows⟩ := populateEntries_refused hlength hnext hkey hv hadd
          exact nomatch hthrows.symm.trans hreturns
        | ok next =>
          refine ⟨next, rfl, hkey, hv, rfl, ?_⟩
          exact (populateEntries_visits hlength hnext hkey hv hadd).symm.trans hreturns
      · exact nomatch (populateEntries_mismatch hlength hnext htext).symm.trans hreturns

theorem returns_visit {result : List (String × String)} {L : LuaState} (hlength : below.length = 5)
    (hnext : Table.next (h[t]?.getD []) k.toKey = some (some (key, v)))
    (hreturns : Returns (populateEntries numberText error emplace (fuel + 1) entries)
      (on h (k :: .table t :: below)) result L) :
    ∃ next, Returns (populateEntries numberText error emplace fuel next)
      (on h (.string (stringForm numberText key) :: .table t :: below)) result L := by
  obtain ⟨hend, -⟩ | ⟨key', v', next, hvisit, -, -, -, hrest⟩ := returns_step hlength hreturns
  · cases hend.symm.trans hnext
  · cases hvisit.symm.trans hnext
    exact ⟨next, hrest⟩

theorem state_of_returns {result : List (String × String)} {L : LuaState}
    (hlength : below.length = 5)
    (hreturns : Returns (populateEntries numberText error emplace fuel entries)
      (on h (k :: .table t :: below)) result L) : L = on h (.table t :: below) := by
  induction fuel generalizing k entries with
  | zero => cases hreturns
  | succ fuel ih =>
    obtain ⟨-, -, rfl⟩ | ⟨key, v, next, -, -, -, -, hrest⟩ := returns_step hlength hreturns
    · rfl
    · exact ih hrest

-- ---------------------------------------------------------------------------
-- A table with string keys
-- ---------------------------------------------------------------------------

def itemOf (numberText : Number → String) (entry : Value × Value) : String × String :=
  (cString (stringForm numberText entry.1), cString (stringForm numberText entry.2))

section Strings

variable {order remaining : Table} {result : List (String × String)} {L : LuaState}
  (hlength : below.length = 5) (ht : h[t]?.getD [] = order)
  (hdistinct : (order.map Prod.fst).Nodup)
include hlength ht hdistinct

/-- All entries are visited, as each key is still in the table when the loop goes on. -/
theorem returns_populateEntries (hk : k.toKey = k) (ha : After order k remaining)
    (htext : ∀ entry ∈ remaining, (∃ s, entry.1 = .string s) ∧ IsText entry.2)
    (hall : emplaceAll emplace (remaining.map (itemOf numberText)) entries = .ok result)
    (hfuel : remaining.length < fuel) :
    Returns (populateEntries numberText error emplace fuel entries)
      (on h (k :: .table t :: below)) result (on h (.table t :: below)) := by
  have hnext : Table.next (h[t]?.getD []) k.toKey = some remaining.head? := by
    rw [ht, hk, ha.next]
  obtain ⟨fuel, rfl⟩ := Nat.exists_eq_add_of_le' (Nat.le_trans (Nat.le_add_left 1 _) hfuel)
  induction remaining generalizing k entries fuel with
  | nil =>
    cases hall
    exact populateEntries_ends hlength hnext
  | cons entry remaining ih =>
    obtain ⟨key, v⟩ := entry
    rw [List.forall_mem_cons] at htext
    obtain ⟨⟨⟨s, rfl⟩, hv⟩, hrest⟩ := htext
    have hafter : After order (.string s) remaining := ha.visit hdistinct nofun
    rw [List.map_cons, emplaceAll_cons] at hall
    obtain ⟨next, hadd, hall⟩ := bind_ok.mp hall
    obtain ⟨fuel, rfl⟩ := Nat.exists_eq_add_of_le'
      (Nat.le_trans (Nat.le_add_left 1 _) (Nat.lt_of_succ_lt_succ hfuel))
    refine (populateEntries_visits hlength hnext (.inl rfl) hv hadd).trans ?_
    refine ih rfl hafter hrest hall ?_ fuel (Nat.lt_of_succ_lt_succ hfuel)
    rw [ht]
    exact hafter.next

theorem emplaceAll_of_returns (hk : k.toKey = k) (ha : After order k remaining)
    (hnumbers : ∀ entry ∈ remaining, entry.1.type ≠ .number)
    (hreturns : Returns (populateEntries numberText error emplace fuel entries)
      (on h (k :: .table t :: below)) result L) :
    (∀ entry ∈ remaining, (∃ s, entry.1 = .string s) ∧ IsText entry.2) ∧
      emplaceAll emplace (remaining.map (itemOf numberText)) entries = .ok result := by
  induction fuel generalizing k entries remaining with
  | zero => exact nomatch hreturns
  | succ fuel ih =>
    have hnext : Table.next (h[t]?.getD []) k.toKey = some remaining.head? := by
      rw [ht, hk, ha.next]
    obtain ⟨hend, rfl, -⟩ | ⟨key, v, next, hvisit, hkey, hv, hadd, hrest⟩ :=
      returns_step hlength hreturns
    · obtain rfl : remaining = [] := by simpa using hnext.symm.trans hend
      exact ⟨List.forall_mem_nil _, rfl⟩
    · cases remaining with
      | nil => cases hnext.symm.trans hvisit
      | cons entry remaining =>
        obtain rfl : entry = (key, v) := by simpa using hnext.symm.trans hvisit
        rw [List.forall_mem_cons] at hnumbers
        obtain ⟨s, rfl⟩ := (isText_cases hkey).resolve_right fun ⟨n, hn⟩ =>
          hnumbers.1 (congrArg Value.type hn)
        obtain ⟨htext, hall⟩ := ih rfl (ha.visit hdistinct nofun) hnumbers.2 hrest
        rw [List.map_cons, emplaceAll_cons]
        exact ⟨List.forall_mem_cons.mpr ⟨⟨⟨s, rfl⟩, hv⟩, htext⟩, bind_ok.mpr ⟨next, hadd, hall⟩⟩

end Strings

-- ---------------------------------------------------------------------------
-- Number keys
-- ---------------------------------------------------------------------------

/-- The entry of a number right after the entry of its string form is visited for ever. -/
theorem not_returns_of_twin {n : Number} {s : String} (hlength : below.length = 5)
    (hs : numberText n = s)
    (hnext : Table.next (h[t]?.getD []) (.string s) = some (some (.number n, v)))
    (result : List (String × String)) (L : LuaState) :
    ¬ Returns (populateEntries numberText error emplace fuel entries)
      (on h (.string s :: .table t :: below)) result L := by
  induction fuel generalizing entries with
  | zero => exact fun hreturns => nomatch hreturns
  | succ fuel ih =>
    intro hreturns
    obtain ⟨next, hreturns⟩ := returns_visit hlength hnext hreturns
    rw [stringForm, hs] at hreturns
    exact ih hreturns

theorem returns_first {order : Table} {result : List (String × String)} {L : LuaState}
    (hlength : below.length = 5)
    (hreturns : Returns (populateEntries numberText error emplace fuel entries)
      (on [(key, v) :: order] (.nil :: .table 0 :: below)) result L) :
    ∃ fuel entries, Returns (populateEntries numberText error emplace fuel entries)
      (on [(key, v) :: order] (.string (stringForm numberText key) :: .table 0 :: below))
        result L := by
  cases fuel with
  | zero => exact nomatch hreturns
  | succ fuel =>
    obtain ⟨next, hreturns⟩ := returns_visit hlength rfl hreturns
    exact ⟨fuel, next, hreturns⟩

/-- There is an order in which the loop does not come to the end of a table with a number key. -/
theorem exists_order_of_number {table : Table} {n : Number} (hlength : below.length = 5)
    (hmem : (.number n, v) ∈ table) : ∃ order, order.Perm table ∧ ∀ fuel entries result L,
      ¬ Returns (populateEntries numberText error emplace fuel entries)
        (on [order] (.nil :: .table 0 :: below)) result L := by
  have hperm := (List.perm_cons_erase hmem).symm
  by_cases htwin : ∃ w, (.string (numberText n), w) ∈ table
  · obtain ⟨w, hw⟩ := htwin
    have hrest : (Value.string (numberText n), w) ∈ table.erase (.number n, v) :=
      (List.mem_erase_of_ne (by simp)).mpr hw
    have hperm' := (List.perm_cons_erase hrest).symm
    refine ⟨_, (List.Perm.swap _ _ _).trans ((hperm'.cons (.number n, v)).trans hperm), ?_⟩
    intro fuel entries result L hreturns
    obtain ⟨fuel, entries, hafter⟩ := returns_first hlength hreturns
    have hnext : Table.next ((.string (numberText n), w) :: (.number n, v) ::
        (table.erase (.number n, v)).erase (.string (numberText n), w)) (.string (numberText n)) =
          some (some (.number n, v)) := by simp [Table.next]
    exact not_returns_of_twin (h := [_]) (t := 0) (n := n) hlength rfl hnext result L hafter
  · refine ⟨_, hperm, fun fuel entries result L hreturns => ?_⟩
    obtain ⟨fuel, entries, hafter⟩ := returns_first hlength hreturns
    have hnone : Table.next ((.number n, v) :: table.erase (.number n, v))
        (.string (numberText n)) = none := by
      have hno : ∀ entry ∈ (.number n, v) :: table.erase (.number n, v),
          entry.1 ≠ .string (numberText n) := by
        rintro ⟨key, w⟩ he rfl
        exact htwin ⟨w, (hperm.mem_iff).mp he⟩
      rw [Table.next, if_neg (by simp), List.dropWhile_eq_nil_iff.mpr]
      exact fun entry he => decide_eq_true (hno entry he)
    cases fuel with
    | zero => cases hafter
    | succ fuel =>
      cases (populateEntries_fails (h := [_]) (t := 0) (k := .string _) hlength
        hnone).symm.trans hafter

-- ---------------------------------------------------------------------------
-- Every order
-- ---------------------------------------------------------------------------

/-- The map has the string forms of the keys of the table, each with the string form of a
value which the table has under such a key. -/
structure Reads (same : String → String) (numberText : Number → String) (table : Table)
    (entries : List (String × String)) : Prop where
  names : ∀ name, name ∈ keys same entries ↔
    ∃ entry ∈ table, same (stringForm numberText entry.1) = name
  values : ∀ item ∈ entries, ∃ entry ∈ table,
    same (stringForm numberText entry.1) = same item.1 ∧ stringForm numberText entry.2 = item.2

/-- In whatever order the table at index 6 is traversed, the loop ends with its map. -/
def ReadsInEveryOrder (same : String → String) (numberText : Number → String)
    (populate : Nat → LuaCode (List (String × String))) (table : Table) : Prop :=
  ∀ order : Table, order.Perm table → ∀ (h : Heap) t below, h[t]? = some order →
    below.length = 5 → ∃ n entries L, Reads same numberText table entries ∧
      ∀ fuel, n ≤ fuel → Returns (populate fuel) (on h (.table t :: below)) entries L

/-- All keys are strings, nothing is lost behind a `NUL`, and the names fit. -/
structure Plain (same : String → String) (limit : Option Nat) (numberText : Number → String)
    (table : Table) : Prop where
  keys : ∀ entry ∈ table, ∃ s, entry.1 = .string s ∧ NulFree s
  values : ∀ entry ∈ table, ∃ other ∈ table,
    same (stringForm numberText other.1) = same (stringForm numberText entry.1) ∧
      stringForm numberText other.2 = cString (stringForm numberText entry.2)
  fits : ∀ n ∈ limit,
    (table.map fun entry => same (stringForm numberText entry.1)).toFinset.card ≤ n

section Iff

variable {same : String → String} {limit : Option Nat} {table : Table}
  {populate : Nat → LuaCode (List (String × String))}

theorem keys_items {order : Table}
    (hkeys : ∀ entry ∈ order, ∃ s, entry.1 = .string s ∧ NulFree s) :
    keys same (order.map (itemOf numberText)) =
      order.map fun entry => same (stringForm numberText entry.1) := by
  rw [keys, List.map_map]
  refine List.map_congr_left fun entry hmem => ?_
  obtain ⟨s, hs, hfree⟩ := hkeys entry hmem
  simp [itemOf, hs, stringForm, cString_of_nulFree hfree]

theorem Plain.reads (hemplace : Emplaces same limit emplace)
    (hdistinct : (table.map Prod.fst).Nodup)
    (htext : ∀ entry ∈ table, IsText entry.1 ∧ IsText entry.2)
    (hpopulate : ∀ fuel h t below, populate fuel (on h (.table t :: below)) =
      populateEntries numberText error emplace fuel [] (on h (.nil :: .table t :: below)))
    (hplain : Plain same limit numberText table) :
    ReadsInEveryOrder same numberText populate table := by
  intro order hperm h t below ht hlength
  have hkeys : ∀ entry ∈ order, ∃ s, entry.1 = .string s ∧ NulFree s :=
    fun entry hmem => hplain.keys entry (hperm.mem_iff.mp hmem)
  have hnames : Emplace.keys same (order.map (itemOf numberText)) =
      order.map fun entry => same (stringForm numberText entry.1) := keys_items hkeys
  have hfits : ∀ n ∈ limit,
      (Emplace.keys same (order.map (itemOf numberText))).toFinset.card ≤ n := by
    intro n hn
    rw [hnames, List.toFinset_eq_of_perm _ _ (hperm.map _)]
    exact hplain.fits n hn
  obtain ⟨result, hall⟩ := hemplace.ok_iff.mpr hfits
  have hfilled := hemplace.filled (by simp) hall
  refine ⟨order.length + 1, result, on h (.table t :: below),
    ⟨fun name => ?_, fun item hitem => ?_⟩, fun fuel hfuel => ?_⟩
  · rw [hfilled.keys_iff, hnames]
    simp [hperm.mem_iff]
  · obtain hnone | hmem := hfilled.origin item hitem
    · exact absurd hnone List.not_mem_nil
    · obtain ⟨entry, hentry, rfl⟩ := List.mem_map.mp hmem
      obtain ⟨s, hs, hfree⟩ := hkeys entry hentry
      obtain ⟨other, hother, hsame, hvalue⟩ := hplain.values entry (hperm.mem_iff.mp hentry)
      refine ⟨other, hother, hsame.trans ?_, hvalue⟩
      simp [itemOf, hs, stringForm, cString_of_nulFree hfree]
  · refine (hpopulate fuel h t below).trans (returns_populateEntries hlength
      (congrArg (·.getD []) ht) ((hperm.map _).nodup_iff.mpr hdistinct) rfl (.inl ⟨rfl, rfl⟩) ?_
      hall hfuel)
    intro entry hmem
    obtain ⟨s, hs, -⟩ := hkeys entry hmem
    exact ⟨⟨s, hs⟩, (htext entry (hperm.mem_iff.mp hmem)).2⟩

theorem ReadsInEveryOrder.plain (hemplace : Emplaces same limit emplace)
    (hsame : ∀ s s', same s = same s' → NulFree s' → NulFree s)
    (hdistinct : (table.map Prod.fst).Nodup)
    (htext : ∀ entry ∈ table, IsText entry.1 ∧ IsText entry.2)
    (hpopulate : ∀ fuel h t below, populate fuel (on h (.table t :: below)) =
      populateEntries numberText error emplace fuel [] (on h (.nil :: .table t :: below)))
    (hreads : ReadsInEveryOrder same numberText populate table) :
    Plain same limit numberText table := by
  have hlength : (List.replicate 5 Value.nil).length = 5 := List.length_replicate
  have hstrings : ∀ entry ∈ table, ∃ s, entry.1 = .string s := by
    rintro ⟨key, v⟩ hmem
    refine (isText_cases (htext _ hmem).1).resolve_right ?_
    rintro ⟨n, rfl⟩
    obtain ⟨order, hperm, hnever⟩ := exists_order_of_number hlength hmem
    obtain ⟨n, entries, L, -, hreturns⟩ := hreads order hperm [order] 0 _ rfl hlength
    exact hnever n [] entries L ((hpopulate n _ _ _).symm.trans (hreturns n (Nat.le_refl n)))
  -- What the loop makes of the table in an order, now that it visits all entries.
  have hfill : ∀ order : Table, order.Perm table → ∃ entries,
      Reads same numberText table entries ∧
        emplaceAll emplace (order.map (itemOf numberText)) [] = .ok entries := by
    intro order hperm
    obtain ⟨n, entries, L, hentries, hreturns⟩ := hreads order hperm [order] 0 _ rfl hlength
    have hentry : [order][0]?.getD [] = order := rfl
    have hnumbers : ∀ entry ∈ order, entry.1.type ≠ .number := by
      intro entry hmem
      obtain ⟨s, hs⟩ := hstrings entry (hperm.mem_iff.mp hmem)
      rw [hs]
      nofun
    exact ⟨entries, hentries, (emplaceAll_of_returns hlength hentry
      ((hperm.map _).nodup_iff.mpr hdistinct) rfl (.inl ⟨rfl, rfl⟩) hnumbers
      ((hpopulate n _ _ _).symm.trans (hreturns n (Nat.le_refl n)))).2⟩
  obtain ⟨entries, hentries, hall⟩ := hfill table (.refl _)
  have hfilled := hemplace.filled (by simp) hall
  have hkeys : ∀ entry ∈ table, ∃ s, entry.1 = .string s ∧ NulFree s := by
    intro entry hmem
    obtain ⟨s, hs⟩ := hstrings entry hmem
    refine ⟨s, hs, ?_⟩
    have hname := (hentries.names (same s)).mpr ⟨entry, hmem, by rw [hs]; rfl⟩
    obtain ⟨item, hitem, heq⟩ := List.mem_map.mp hname
    obtain hnone | horigin := hfilled.origin item hitem
    · exact absurd hnone List.not_mem_nil
    · obtain ⟨other, -, rfl⟩ := List.mem_map.mp horigin
      exact hsame s _ heq.symm (nulFree_cString _)
  refine ⟨hkeys, fun entry hmem => ?_, fun n hn => ?_⟩
  · -- An entry that is visited first is in the map.
    obtain ⟨entries, hentries, hall⟩ := hfill _ (List.perm_cons_erase hmem).symm
    rw [List.map_cons, emplaceAll_cons] at hall
    obtain ⟨next, hnext, hall⟩ := bind_ok.mp hall
    obtain ⟨hold, -⟩ | ⟨-, -, hperm⟩ := hemplace.cases hnext
    · exact absurd hold List.not_mem_nil
    · have hnodup : (Emplace.keys same next).Nodup :=
        (hperm.map _).nodup_iff.mpr (List.nodup_singleton _)
      have hkept := (hemplace.filled hnodup hall).kept _ (hperm.mem_iff.mpr List.mem_cons_self)
      obtain ⟨other, hother, hname, hvalue⟩ := hentries.values _ hkept
      obtain ⟨s, hs, hfree⟩ := hkeys entry hmem
      refine ⟨other, hother, hname.trans ?_, hvalue⟩
      simp [itemOf, hs, stringForm, cString_of_nulFree hfree]
  · have hfits := hemplace.ok_iff.mp ⟨entries, hall⟩ n hn
    rwa [keys_items hkeys] at hfits

end Iff

theorem emplaces_emplaceQuery : Emplaces id none emplaceQuery where
  known entries key value hmem := by
    have hany : entries.any (·.1 = key) := by simpa [keys] using hmem
    rw [emplaceQuery, if_pos hany]
  new entries key value hnew _ := by
    have hany : ¬ entries.any (·.1 = key) := by simpa [keys] using hnew
    refine ⟨_, rfl, ?_⟩
    rw [if_neg hany]
    exact List.perm_append_singleton _ _
  full _ _ _ _ n hn := nomatch hn

theorem toLower_eq_zero {c : Char} (hc : c.toLower = '\x00') : c = '\x00' := by
  unfold Char.toLower at hc
  split at hc
  next hupper =>
    have hval : (c.val + 32).toNat = 0 := congrArg (fun d : Char => d.val.toNat) hc
    have hlow : 65 ≤ c.val.toNat := UInt32.le_iff_toNat_le.mp hupper.1
    have hhigh : c.val.toNat ≤ 90 := UInt32.le_iff_toNat_le.mp hupper.2
    have h32 : (32 : UInt32).toNat = 32 := rfl
    rw [UInt32.toNat_add] at hval
    omega
  next => exact hc

theorem nulFree_of_foldCase {s s' : String} (heq : foldCase s = foldCase s') (h : NulFree s') :
    NulFree s := by
  intro hmem
  have hlist : s.toList.map Char.toLower = s'.toList.map Char.toLower := String.ofList_injective heq
  have hmem' : '\x00' ∈ s'.toList.map Char.toLower :=
    hlist ▸ List.mem_map.mpr ⟨'\x00', hmem, by decide⟩
  obtain ⟨c, hc, hlower⟩ := List.mem_map.mp hmem'
  exact h (toLower_eq_zero hlower ▸ hc)

/-- The loops read the whole of a query or header table in every order of traversal exactly when
all of its keys are strings, and nothing of it lies behind a `NUL` or exceeds the map. -/
theorem reads_parameters_iff (numberText : Number → String)
    (hheaders : Emplaces foldCase (some limit) H.emplaceHeader) (table : Table)
    (hdistinct : (table.map Prod.fst).Nodup)
    (htext : ∀ entry ∈ table, IsText entry.1 ∧ IsText entry.2) :
    (ReadsInEveryOrder id numberText
      (fun fuel => populateQueryParams fuel numberText .table) table ↔
      Plain id none numberText table) ∧
    (ReadsInEveryOrder foldCase numberText
      (fun fuel => populateHeaders H fuel numberText .table) table ↔
      Plain foldCase (some limit) numberText table) := by
  have hid : ∀ s s' : String, id s = id s' → NulFree s' → NulFree s := by
    rintro s _ rfl hfree
    exact hfree
  constructor
  · constructor
    · exact fun h => h.plain emplaces_emplaceQuery hid hdistinct htext fun _ _ _ _ => rfl
    · exact fun h => h.reads emplaces_emplaceQuery hdistinct htext fun _ _ _ _ => rfl
  · constructor
    · exact fun h => h.plain hheaders (fun _ _ => nulFree_of_foldCase) hdistinct htext
        fun _ _ _ _ => rfl
    · exact fun h => h.reads hheaders hdistinct htext fun _ _ _ _ => rfl

def emplaceUpTo (limit : Nat) (headers : List (String × String)) (name value : String) :
    Except Exception (List (String × String)) :=
  if foldCase name ∈ keys foldCase headers then .ok headers
  else if headers.length < limit then .ok (headers ++ [(name, value)])
  else .error (.stdException "Too many headers")

theorem emplaces_emplaceUpTo (limit : Nat) :
    Emplaces foldCase (some limit) (emplaceUpTo limit) where
  known entries key value hmem := if_pos hmem
  new entries key value hnew hroom := by
    refine ⟨_, (if_neg hnew).trans (if_pos (hroom limit rfl)), ?_⟩
    exact List.perm_append_singleton _ _
  full entries key value hnew n hn hle := by
    obtain rfl := Option.some.inj hn
    exact ⟨_, (if_neg hnew).trans (if_neg (Nat.not_lt.mpr hle))⟩

def smallHttp : HttpLibrary where
  typeMismatch := .stdException "Wrong type"
  memberMissing name := .stdException ("Field " ++ name ++ " is missing")
  methodFromString := .ok
  emplaceHeader := emplaceUpTo 2

def digit (n : Number) : String := if n = .integer 1 then "1" else "2"

def teaTable : Table := [(.string "q", .string "tea"), (.string "page", .number (.integer 2))]

theorem tea_read_in_every_order :
    ReadsInEveryOrder id digit (fun fuel => populateQueryParams fuel digit .table) teaTable ∧
    ReadsInEveryOrder foldCase digit
      (fun fuel => populateHeaders smallHttp fuel digit .table) teaTable := by
  have hlimit : Emplaces foldCase (some 2) smallHttp.emplaceHeader := emplaces_emplaceUpTo 2
  obtain ⟨hquery, hheaders⟩ := reads_parameters_iff digit hlimit teaTable (by decide) (by decide)
  have hkeys : ∀ entry ∈ teaTable, ∃ s, entry.1 = .string s ∧ NulFree s := by
    simp only [teaTable, List.forall_mem_cons]
    exact ⟨⟨_, rfl, by decide⟩, ⟨_, rfl, by decide⟩, List.forall_mem_nil _⟩
  have hvalues : ∀ entry ∈ teaTable,
      stringForm digit entry.2 = cString (stringForm digit entry.2) := by decide
  refine ⟨hquery.mpr ⟨hkeys, fun entry hmem => ⟨entry, hmem, rfl, hvalues entry hmem⟩, nofun⟩,
    hheaders.mpr ⟨hkeys, fun entry hmem => ⟨entry, hmem, rfl, hvalues entry hmem⟩, ?_⟩⟩
  rintro n ⟨⟩
  decide

def oneNumber : Table := [(.number (.integer 1), .string "tea")]

def twins : Table := [(.string "1", .string "tea"), (.number (.integer 1), .string "milk")]

/-- A number key raises an error, or the loop goes on for ever. -/
theorem number_key_breaks_loop :
    (∀ below : List Value, below.length = 5 → ∀ fuel, ∃ L,
      Throws (populateQueryParams (fuel + 2) digit .table) (on [oneNumber] (.table 0 :: below))
        (.luaError "invalid key to 'next'") L) ∧
    (∀ below : List Value, below.length = 5 → ∀ fuel entries L,
      ¬ Returns (populateQueryParams fuel digit .table) (on [twins] (.table 0 :: below))
        entries L) ∧
    ¬ ReadsInEveryOrder id digit (fun fuel => populateQueryParams fuel digit .table) twins := by
  have hnever : ∀ below : List Value, below.length = 5 → ∀ fuel entries L,
      ¬ Returns (populateQueryParams fuel digit .table) (on [twins] (.table 0 :: below))
        entries L := by
    intro below hlength fuel entries L hreturns
    obtain ⟨fuel, done, hafter⟩ := returns_first hlength hreturns
    exact not_returns_of_twin hlength (n := .integer 1) rfl rfl entries L hafter
  refine ⟨fun below hlength fuel => ⟨on [oneNumber] (.string "1" :: .table 0 :: below), ?_⟩, hnever,
    fun hreads => ?_⟩
  · refine (populateEntries_visits (k := .nil) hlength rfl (.inr rfl) (.inl rfl) rfl).trans ?_
    exact populateEntries_fails hlength rfl
  · obtain ⟨n, entries, L, -, hreturns⟩ := hreads twins (.refl _) [twins] 0
      (List.replicate 5 .nil) rfl rfl
    exact hnever _ rfl n entries L (hreturns n (Nat.le_refl n))

end LambdaExecutor.Http.ClientMethod
