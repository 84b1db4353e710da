import LambdaExecutor.Http.Parameters
import LambdaExecutor.Http.ScriptedClient

/-!
# Where the walk through a query or header table leads

The loop goes on from the string form of the key that it has visited. So it walks
through the table in its own way, which may skip entries, come to a key that the
table does not have, or never end. Where it converts a number, script code may run
and change the table. `Walk` is a walk to its end.
-/

namespace LambdaExecutor.Http.ClientMethod

open Lua Formats Raii Raii.Code Emplace
open Serializer (on)

/-- The loop comes to an entry behind the key, and takes it. -/
def Visits (table : Table) (k key v : Value) : Prop :=
  table.next k.toKey = some (some (key, v)) ∧ IsText key ∧ IsText v

def ReachesEnd (table : Table) (k : Value) : Prop := table.next k.toKey = some none

def convertEntry (m : Moment) (key v : Value) : Ran := (m.convert key).bind fun m => m.convert v

inductive WalkEnd
  | passed (m : Moment)
  | raised

/-- From a key on the loop visits entries up to the end of the table, or to an error of Lua. -/
inductive Walk (numberText : Number → String) (t : TableRef) :
    Moment → Value → Table → WalkEnd → Prop
  | passes {m : Moment} {k : Value} (hend : ReachesEnd (m.heap.entries t) k) :
      Walk numberText t m k [] (.passed m)
  | stops {m : Moment} {k : Value} (hstop : ∀ key v, ¬ Visits (m.heap.entries t) k key v)
      (hend : ¬ ReachesEnd (m.heap.entries t) k) (hstays : m.Stays) :
      Walk numberText t m k [] .raised
  | raises {m : Moment} {k key v : Value} (hvisits : Visits (m.heap.entries t) k key v)
      (hran : convertEntry m key v = .raised) : Walk numberText t m k [] .raised
  | visits {m m' : Moment} {k key v w : Value} {visited : Table} {last : WalkEnd}
      (hvisits : Visits (m.heap.entries t) k key v) (hran : convertEntry m key v = .back w m')
      (hrest : Walk numberText t m' (.string (stringForm numberText key)) visited last) :
      Walk numberText t m k ((key, v) :: visited) last

variable {numberText : Number → String} {m : Moment} {t : TableRef} {k key v : Value}
  {visited : Table} {idx : Int} {below stack stack' : List Value} {error : String} {fuel : Nat}
  {emplace : List (String × String) → String → String → Except Exception (List (String × String))}
  {entries result : List (String × String)}
  {Q : List (String × String) → LuaState × List Outcome → Prop}

-- ---------------------------------------------------------------------------
-- One step of the loop
-- ---------------------------------------------------------------------------

theorem endsAs_convertSecond (hkey : IsText key) :
    EndsAs (Scripted.luaConvertToString numberText (-2)) (m.on (v :: key :: stack))
      (fun _ m => (cString (stringForm numberText key),
        m.on (v :: .string (stringForm numberText key) :: stack))) (m.convert key) := by
  rcases isText_cases hkey with ⟨s, rfl⟩ | ⟨n, rfl⟩
  · exact rfl
  · have htype : Returns (onPrivate (luaType (-2))) (m.on (v :: .number n :: stack)) .number
        (m.on (v :: .number n :: stack)) := rfl
    have hconvert : Returns (onPrivate (luaConvertToString numberText (-2)))
        (m.on (v :: .number n :: stack)) (cString (numberText n))
        (m.on (v :: .string (numberText n) :: stack)) := rfl
    exact .of_returns htype (.of_returns hconvert (endsAs_scriptCode.then_returns fun _ _ => rfl))

theorem endsAs_convertTop (hv : IsText v) :
    EndsAs (Scripted.luaConvertToString numberText (-1)) (m.on (v :: stack))
      (fun _ m => (cString (stringForm numberText v),
        m.on (.string (stringForm numberText v) :: stack))) (m.convert v) := by
  rcases isText_cases hv with ⟨s, rfl⟩ | ⟨n, rfl⟩
  · exact rfl
  · have htype : Returns (onPrivate (luaType (-1))) (m.on (.number n :: stack)) .number
        (m.on (.number n :: stack)) := rfl
    have hconvert : Returns (onPrivate (luaConvertToString numberText (-1)))
        (m.on (.number n :: stack)) (cString (numberText n))
        (m.on (.string (numberText n) :: stack)) := rfl
    exact .of_returns htype (.of_returns hconvert (endsAs_scriptCode.then_returns fun _ _ => rfl))

theorem returns_isString (hv : (on m.heap stack).at idx = some v) :
    Returns (onPrivate (luaIsString idx)) (m.on stack) (decide (IsText v)) (m.on stack) := by
  have h : Returns (luaIsString idx) (on m.heap stack) (decide (IsText v)) (on m.heap stack) := by
    unfold Returns luaIsString Code.read
    dsimp only
    rw [hv]
    cases v <;> rfl
  exact h.onPrivate m.outcomes

section Loop

variable (hlength : below.length = 5)
include hlength

theorem wp_populateEntries_passes (hend : ReachesEnd (m.heap.entries t) k) :
    wp (Scripted.populateEntries numberText error emplace (fuel + 1) entries) Q
        (fun thrown _ => Raised thrown) (m.on (k :: .table t :: below)) ↔
      Q entries (m.on (.table t :: below)) := by
  have hnext : Returns (luaNext 6) (on m.heap (k :: .table t :: below)) false
      (on m.heap (.table t :: below)) := by
    have hnone : Table.next (m.heap[t]?.getD []) k.toKey = some none := hend
    rw [Returns, luaNext_six hlength, luaNextOn, hnone]
    rfl
  rw [Scripted.populateEntries, wp_bind]
  exact (returns_raising hnext).wp_iff

theorem wp_populateEntries_stops (hstop : ∀ key v, ¬ Visits (m.heap.entries t) k key v)
    (hend : ¬ ReachesEnd (m.heap.entries t) k) :
    wp (Scripted.populateEntries numberText error emplace (fuel + 1) entries) Q
        (fun thrown _ => Raised thrown) (m.on (k :: .table t :: below)) ↔ m.Stays := by
  rw [Scripted.populateEntries, wp_bind]
  cases hnext : (m.heap.entries t).next k.toKey with
  | none =>
    have hfails : Throws (luaNext 6) (on m.heap (k :: .table t :: below))
        (.luaError "invalid key to 'next'") (on m.heap (k :: .table t :: below)) := by
      have hnone : Table.next (m.heap[t]?.getD []) k.toKey = none := hnext
      rw [Throws, luaNext_six hlength, luaNextOn, hnone]
    exact wp_raising hfails _
  | some entry =>
    rcases entry with - | ⟨key, v⟩
    · exact absurd hnext hend
    · have hmismatch : ¬ (IsText key ∧ IsText v) := fun htext => hstop key v ⟨hnext, htext⟩
      refine (returns_raising (luaNext_visits_six hlength hnext)).wp_iff.trans ?_
      have hsecond : (on m.heap (v :: key :: .table t :: below)).at (-2) = some key := rfl
      have htop : (on m.heap (v :: key :: .table t :: below)).at (-1) = some v := rfl
      rw [if_pos rfl, wp_bind]
      refine (returns_isString hsecond).wp_iff.trans ?_
      rw [wp_bind]
      refine (returns_isString htop).wp_iff.trans ?_
      rw [if_pos (by simpa using hmismatch)]
      exact wp_luaLError error _ Q

theorem wp_populateEntries_visits (hvisits : Visits (m.heap.entries t) k key v) :
    wp (Scripted.populateEntries numberText error emplace (fuel + 1) entries) Q
        (fun thrown _ => Raised thrown) (m.on (k :: .table t :: below)) ↔
      (convertEntry m key v).Then fun _ m' => ∃ next,
        emplace entries (cString (stringForm numberText key)) (cString (stringForm numberText v)) =
          .ok next ∧
        wp (Scripted.populateEntries numberText error emplace fuel next) Q
          (fun thrown _ => Raised thrown)
          (m'.on (.string (stringForm numberText key) :: .table t :: below)) := by
  obtain ⟨hnext, hkey, hv⟩ := hvisits
  rw [Scripted.populateEntries, wp_bind]
  refine (returns_raising (luaNext_visits_six hlength hnext)).wp_iff.trans ?_
  have hsecond : (on m.heap (v :: key :: .table t :: below)).at (-2) = some key := rfl
  have htop : (on m.heap (v :: key :: .table t :: below)).at (-1) = some v := rfl
  rw [if_pos rfl, wp_bind]
  refine (returns_isString hsecond).wp_iff.trans ?_
  rw [wp_bind]
  refine (returns_isString htop).wp_iff.trans ?_
  rw [if_neg (by simp [hkey, hv]), wp_bind, (endsAs_convertSecond hkey).wp_iff, convertEntry,
    Ran.then_bind]
  refine Ran.then_congr fun _ m₁ => ?_
  rw [wp_bind, (endsAs_convertTop hv).wp_iff]
  refine Ran.then_congr fun _ m' => ?_
  rw [wp_bind]
  exact wp_ofLibrary _ _

end Loop

-- ---------------------------------------------------------------------------
-- The loop
-- ---------------------------------------------------------------------------

variable {last : WalkEnd}

section Walk

variable (hlength : below.length = 5)
include hlength

/-- The loop does what the walk says, once it has enough fuel for it. -/
theorem wp_of_walk (hwalk : Walk numberText t m k visited last)
    (hall : emplaceAll emplace (visited.map (itemOf numberText)) entries = .ok result)
    (hfuel : visited.length < fuel) :
    wp (Scripted.populateEntries numberText error emplace fuel entries) Q
        (fun thrown _ => Raised thrown) (m.on (k :: .table t :: below)) ↔
      ∀ m', last = .passed m' → Q result (m'.on (.table t :: below)) := by
  obtain ⟨fuel, rfl⟩ := Nat.exists_eq_add_of_le' (Nat.le_trans (Nat.le_add_left 1 _) hfuel)
  induction hwalk generalizing entries fuel with
  | passes hend =>
    cases hall
    rw [wp_populateEntries_passes hlength hend]
    exact ⟨fun h m' heq => WalkEnd.passed.inj heq ▸ h, fun h => h _ rfl⟩
  | stops hstop hend hstays =>
    rw [wp_populateEntries_stops hlength hstop hend]
    exact iff_of_true hstays nofun
  | raises hvisits hran =>
    rw [wp_populateEntries_visits hlength hvisits, hran]
    exact iff_of_true trivial nofun
  | visits hvisits hran _ ih =>
    rw [List.map_cons, emplaceAll_cons] at hall
    obtain ⟨next, hadd, hall⟩ := bind_ok.mp hall
    obtain ⟨fuel, rfl⟩ := Nat.exists_eq_add_of_le'
      (Nat.le_trans (Nat.le_add_left 1 _) (Nat.lt_of_succ_lt_succ hfuel))
    rw [wp_populateEntries_visits hlength hvisits, hran]
    refine Iff.trans ⟨fun ⟨next', hadd', h⟩ => ?_, fun h => ⟨next, hadd, h⟩⟩
      (ih hall fuel (Nat.lt_of_succ_lt_succ hfuel))
    obtain rfl := Except.ok.inj (hadd.symm.trans hadd')
    exact h

theorem walk_of_wp (hends : wp (Scripted.populateEntries numberText error emplace fuel entries) Q
      (fun thrown _ => Raised thrown) (m.on (k :: .table t :: below))) :
    ∃ visited last, Walk numberText t m k visited last ∧
      ∃ result, emplaceAll emplace (visited.map (itemOf numberText)) entries = .ok result := by
  induction fuel generalizing m k entries with
  | zero => exact hends.elim
  | succ fuel ih =>
    by_cases hvisit : ∃ key v, Visits (m.heap.entries t) k key v
    · obtain ⟨key, v, hvisits⟩ := hvisit
      replace hends := (wp_populateEntries_visits hlength hvisits).mp hends
      cases hran : convertEntry m key v with
      | back w m' =>
        rw [hran] at hends
        obtain ⟨next, hadd, hnext⟩ := hends
        obtain ⟨visited, last, hwalk, result, hall⟩ := ih hnext
        refine ⟨(key, v) :: visited, last, .visits hvisits hran hwalk, result, ?_⟩
        rw [List.map_cons, emplaceAll_cons]
        exact bind_ok.mpr ⟨next, hadd, hall⟩
      | raised => exact ⟨[], .raised, .raises hvisits hran, entries, rfl⟩
      | lost =>
        rw [hran] at hends
        exact hends.elim
    · have hstop : ∀ key v, ¬ Visits (m.heap.entries t) k key v :=
        fun key v hvisits => hvisit ⟨key, v, hvisits⟩
      by_cases hend : ReachesEnd (m.heap.entries t) k
      · exact ⟨[], .passed m, .passes hend, entries, rfl⟩
      · have hstays := (wp_populateEntries_stops hlength hstop hend).mp hends
        exact ⟨[], .raised, .stops hstop hend hstays, entries, rfl⟩

end Walk

end LambdaExecutor.Http.ClientMethod
