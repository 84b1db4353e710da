import LambdaExecutor.Lua.DeserializerHeight
import LambdaExecutor.Lua.RoundTrip

/-!
# The slots of the Lua stack which a method may use

Lua gives a C function room for its arguments and `LUA_MINSTACK` slots more, and
nobody asks for more of them. `storage:store` serializes with its four arguments on the
stack, `client:send` with its five and the body above them; a cast, which has two,
reads on the empty stack.
-/

namespace LambdaExecutor.Engine

open Raii Raii.Metered Formats Lua Cycles Relation
open Serializer (on meteredToString Descends Contains Overfills)
open Deserializer (meteredFromString NullOrReadable Readable Enters)

variable {J : JsonLibrary} {h : Heap}

def luaMinStack : Nat := 20

/-- However far the code gets, its meter shows no more slots than Lua gives to a method with so
many arguments. -/
def RespectsMinStack {α : Type} (arguments : Nat) (code : Nat → LuaCode α)
    (metered : Nat → MeteredCode α) (L : LuaState) : Prop :=
  ∀ fuel, (metered fuel).code = code fuel ∧ Fits (arguments + luaMinStack) (metered fuel) L

def WritesInMinStack (J : JsonLibrary) (arguments : Nat) (L : LuaState) : Prop :=
  RespectsMinStack arguments (fun fuel => Serializer.toString J fuel none)
    (fun fuel => meteredToString J fuel none) L

def ReadsInMinStack (J : JsonLibrary) (arguments : Nat) (text : String) (L : LuaState) : Prop :=
  RespectsMinStack arguments (fun fuel => Deserializer.fromString J fuel .table text)
    (fun fuel => meteredFromString J fuel .table text) L

theorem respectsMinStack_iff {α : Type} {arguments : Nat} {code : Nat → LuaCode α}
    {metered : Nat → MeteredCode α} {L : LuaState}
    (hcode : ∀ fuel, (metered fuel).code = code fuel) :
    RespectsMinStack arguments code metered L ↔
      ∀ fuel, Fits (arguments + luaMinStack) (metered fuel) L :=
  forall_congr' fun fuel => and_iff_right (hcode fuel)

theorem writesInMinStack_iff (hJ : J.Strict) (hh : h.Lawful) {t : TableRef}
    {below : List Value} {arguments n : Nat}
    (hlimit : arguments + luaMinStack = below.length + 1 + n) :
    WritesInMinStack J arguments (on h (.table t :: below)) ↔ ¬ Overfills h n t := by
  refine (respectsMinStack_iff fun fuel => Serializer.code_meteredToString J fuel none).trans ?_
  rw [← Serializer.always_fits_iff hJ hh hlimit]
  exact forall_congr' fun fuel => Serializer.fits_toString

/-- The slots suffice for a stored table unless it is the first of eleven that are one inside
the other, for a body unless ten are and the last has an entry, and for a text unless a value is
inside eleven of its tables; so far as the tables are entered. -/
theorem respects_minStack_iff (hJ : J.Strict) (hh : h.Lawful) :
    (∀ t (rest : List Value), rest.length = 3 →
      (WritesInMinStack J 4 (on h (.table t :: rest)) ↔ ¬ HasWay (Descends h) 10 t)) ∧
    (∀ t (arguments : List Value), arguments.length = 5 →
      (WritesInMinStack J 5 (on h (.table t :: arguments)) ↔
        ¬ HasWayTo (Descends h) (fun u => h.entries u ≠ []) 9 t)) ∧
    ∀ text, (∀ j, J.fromString text = .ok j → j.All (NullOrReadable J)) →
      (ReadsInMinStack J 2 text (on h []) ↔
        ∀ j, J.fromString text = .ok j → ¬ HasWay Enters 11 j) := by
  refine ⟨fun t rest hlength => ?_, fun t arguments hlength => ?_, fun text htext => ?_⟩
  · rw [← Serializer.overfills_two_mul_iff]
    exact writesInMinStack_iff hJ hh (by rw [hlength]; rfl)
  · rw [← Serializer.overfills_two_mul_add_one_iff]
    exact writesInMinStack_iff hJ hh (by rw [hlength]; rfl)
  · have hfits : (∀ fuel, Fits (2 + luaMinStack) (meteredFromString J fuel .table text) (on h [])) ↔
        ∀ j, J.fromString text = .ok j → ¬ HasWay Enters 11 j :=
      Deserializer.always_fits_iff (n := 10) rfl h htext
    rw [← hfits]
    exact respectsMinStack_iff fun fuel => Deserializer.code_meteredFromString J fuel .table text

theorem lt_of_contains_person {t u : TableRef} (hc : Contains personHeap t u) : u < 2 ∧ t < u := by
  obtain ⟨key, hmem⟩ := hc
  match t with
  | 0 =>
    obtain ⟨-, rfl⟩ : key = recordKey "flags" ∧ u = 1 := by
      simpa [personHeap, Heap.entries] using hmem
    decide
  | 1 => simp [personHeap, Heap.entries] at hmem
  | t + 2 => simp [personHeap, Heap.entries] at hmem

theorem person_nullOrReadable : person.All (NullOrReadable textLibrary) := by
  have hage : NullOrReadable textLibrary (.number age) := fun _ => ⟨age, by simp [textLibrary]⟩
  have hflags : flags.All (NullOrReadable textLibrary) := by
    refine ⟨fun _ => ?_, hage, fun _ => trivial, trivial⟩
    simp [Readable, textLibrary, flags]
  refine ⟨fun _ => ?_, fun _ => trivial, hflags, trivial⟩
  simp [Readable, textLibrary, personText, flagsText, person]

theorem person_respects_minStack :
    WritesInMinStack textLibrary 4
      (on personHeap [.table 0, .string "k", .userdata "object", .userdata "method"]) ∧
    WritesInMinStack textLibrary 5 (on personHeap [.table 0, .table 2, .string "http://users",
      .string "POST", .userdata "object", .userdata "method"]) ∧
    ReadsInMinStack textLibrary 2 personText (on personHeap []) := by
  obtain ⟨hstore, hbody, hread⟩ := respects_minStack_iff textLibrary_strict
    (show personHeap.Lawful by decide)
  have hway : ∀ {n}, 2 ≤ n → ¬ HasWay (Descends personHeap) n 0 := by
    intro n hn hway
    have hle := hway.le_measure (fun t => 1 - t) fun {t u} hd => by
      obtain ⟨hu, htu⟩ := lt_of_contains_person hd.contains
      exact Nat.sub_lt_sub_left (Nat.lt_of_lt_of_le htu (Nat.le_of_lt_succ hu)) htu
    exact absurd (Nat.le_trans hn hle) (by decide)
  have hparsed : textLibrary.fromString personText = .ok person := by
    simp [textLibrary, personText, flagsText]
  refine ⟨(hstore 0 _ rfl).mpr (hway (by decide)),
    (hbody 0 _ rfl).mpr fun hto => hway (by decide) hto.hasWay, (hread personText ?_).mpr ?_⟩
  · intro j hj
    obtain rfl := Except.ok.inj (hparsed.symm.trans hj)
    exact person_nullOrReadable
  · intro j hj hway
    obtain rfl := Except.ok.inj (hparsed.symm.trans hj)
    have hle := hway.le_measure Json.depth fun hc => Json.depth_lt_of_mem_parts hc.mem
    exact absurd hle (by decide)

def elevenTables : Heap := (List.range 10).map (fun t => [(.string "t", .table (t + 1))]) ++ [[]]

theorem entries_elevenTables : ∀ t < 10,
    elevenTables.entries t = [(.string "t", .table (t + 1))] := by
  decide

theorem entries_of_ten_le {t : TableRef} (ht : 10 ≤ t) : elevenTables.entries t = [] := by
  obtain rfl | hlt := Nat.eq_or_lt_of_le ht
  · rfl
  · have hnone : elevenTables[t]? = none := List.getElem?_eq_none hlt
    simp [Heap.entries, hnone]

theorem eleven_tables_overfill : elevenTables.Lawful ∧
    (∀ t, ¬ TransGen (Contains elevenTables) t t) ∧
    ¬ WritesInMinStack textLibrary 4
      (on elevenTables [.table 0, .string "k", .userdata "object", .userdata "method"]) := by
  have hlawful : elevenTables.Lawful := by decide
  have hcontains : ∀ t u, Contains elevenTables t u → t < u := by
    rintro t u ⟨key, hmem⟩
    by_cases ht : t < 10
    · rw [entries_elevenTables t ht] at hmem
      obtain ⟨-, rfl⟩ : key = .string "t" ∧ u = t + 1 := by simpa using hmem
      exact Nat.lt_succ_self t
    · simp [entries_of_ten_le (Nat.le_of_not_lt ht)] at hmem
  refine ⟨hlawful, fun t hcycle => ?_, ?_⟩
  · have hlt : ∀ u, TransGen (Contains elevenTables) t u → t < u := by
      intro u hway
      induction hway with
      | single hc => exact hcontains _ _ hc
      | tail _ hc ih => exact Nat.lt_trans ih (hcontains _ _ hc)
    exact Nat.lt_irrefl t (hlt t hcycle)
  · have hway : ∀ n (t : Nat), t + n ≤ 10 → HasWay (Descends elevenTables) n t := by
      intro n
      induction n with
      | zero => exact fun _ _ => trivial
      | succ n ih =>
        intro t ht
        have hlt : t < 10 := by omega
        have hnext : t + 1 + n ≤ 10 := by omega
        refine ⟨t + 1, ⟨[], .string "t", [], ?_, .inl rfl, .nil⟩, ih (t + 1) hnext⟩
        exact entries_elevenTables t hlt
    refine fun hwrites => (writesInMinStack_iff textLibrary_strict hlawful rfl).mp hwrites ?_
    exact (Serializer.overfills_two_mul_iff 10).mpr (hway 10 0 (Nat.le_refl 10))

end LambdaExecutor.Engine
