import LambdaExecutor.Kv.Casts
import LambdaExecutor.Lua.NumberKeys

/-!
# Which stored tables can be read back

What the serializer writes for a table is read by the deserializer part by part.
An empty table is written as null, which the deserializer takes for no value at
all, and two names which differ only after a NUL are written as one.
-/

namespace LambdaExecutor.Kv

open Raii Raii.Code Formats Lua Lua.Serializer Lua.Deserializer Cycles

variable {J : JsonLibrary} {h : Heap} {t : TableRef} {entries : Table} {limit : Option Nat}

def names (entries : Table) : List String :=
  entries.filterMap fun entry =>
    match entry.1 with
    | .string key => some (cString key)
    | _ => none

-- ---------------------------------------------------------------------------
-- Parts of the tree and tables inside the value
-- ---------------------------------------------------------------------------

/-- The tables inside what is kept in the entries. -/
def AllInside (h : Heap) (Q : Table → Prop) (v : Value) : Prop :=
  ∀ t, v = .table t → ∀ u ∈ InReach (Contains h) t, Q (h.entries u)

theorem allInside_table {Q : Table → Prop} : AllInside h Q (.table t) ↔
    Q (h.entries t) ∧ ∀ entry ∈ h.entries t, AllInside h Q entry.2 := by
  have htable : AllInside h Q (.table t) ↔ ∀ u ∈ InReach (Contains h) t, Q (h.entries u) :=
    ⟨fun hall => hall t rfl, fun hall _ heq => Value.table.inj heq ▸ hall⟩
  rw [htable, forall_inReach_iff]
  refine and_congr_right fun _ => ?_
  constructor
  · exact fun hall entry hmem c hc => hall c ⟨entry.1, hc ▸ hmem⟩
  · exact fun hall c ⟨key, hmem⟩ => hall (key, .table c) hmem c rfl

theorem allInside_of_not_table {Q : Table → Prop} {v : Value} (hv : ∀ t, v ≠ .table t) :
    AllInside h Q v := fun t ht => absurd ht (hv t)

/-- The property of a part says of its table what the other one says. -/
def Corresponds (h : Heap) (P : Json → Prop) (Q : Table → Prop) : Prop :=
  ∀ v j, Encodes h v j → (P j ↔ ∀ t, v = .table t → Q (h.entries t))

section Parts
variable {P : Json → Prop} {Q : Table → Prop}

theorem all_scalar_iff (hPQ : Corresponds h P Q) {v : Value} {j : Json} (hv : Encodes h v j)
    (hscalar : ∀ t, v ≠ .table t) : P j ↔ AllInside h Q v :=
  iff_of_true ((hPQ v j hv).mpr fun t ht => absurd ht (hscalar t)) (allInside_of_not_table hscalar)

theorem part_table_iff (hPQ : Corresponds h P Q) {j : Json} (hv : Encodes h (.table t) j) :
    P j ↔ Q (h.entries t) :=
  (hPQ _ j hv).trans ⟨fun hall => hall t rfl, fun hq _ heq => Value.table.inj heq ▸ hq⟩

mutual
theorem all_iff_allInside (hPQ : Corresponds h P Q) : (j : Json) → {v : Value} →
    Encodes h v j → (j.All P ↔ AllInside h Q v)
  | .null, _, hv => by
    have hpart := hv
    obtain ⟨t, rfl, ht⟩ := hv
    rw [allInside_table, ← part_table_iff hPQ hpart, ht]
    exact (and_iff_left (List.forall_mem_nil _)).symm
  | .bool _, _, hv => all_scalar_iff hPQ hv (by obtain rfl : _ = Value.boolean _ := hv; nofun)
  | .number _, _, hv => all_scalar_iff hPQ hv (by obtain ⟨n, rfl, -⟩ := hv; nofun)
  | .string _, _, hv => all_scalar_iff hPQ hv (by obtain ⟨text, rfl, -⟩ := hv; nofun)
  | .array items, _, hv => by
    have hpart := hv
    obtain ⟨t, rfl, -, hitems⟩ := hv
    rw [allInside_table, ← part_table_iff hPQ hpart]
    exact and_congr_right fun _ => allItems_iff_allInside hPQ items hitems
  | .object members, _, hv => by
    have hpart := hv
    obtain ⟨t, rfl, -, hmembers⟩ := hv
    rw [allInside_table, ← part_table_iff hPQ hpart]
    exact and_congr_right fun _ => allMembers_iff_allInside hPQ members hmembers
theorem allItems_iff_allInside (hPQ : Corresponds h P Q) : (items : List Json) → {entries : Table} →
    EncodesItems h entries items →
      (Json.AllItems P items ↔ ∀ entry ∈ entries, AllInside h Q entry.2)
  | [], _, hitems => by
    obtain rfl : _ = [] := hitems
    exact iff_of_true trivial (List.forall_mem_nil _)
  | item :: items, _, hitems => by
    obtain ⟨n, v, rest, rfl, hv, hrest⟩ := hitems
    rw [List.forall_mem_cons]
    exact and_congr (all_iff_allInside hPQ item hv) (allItems_iff_allInside hPQ items hrest)
theorem allMembers_iff_allInside (hPQ : Corresponds h P Q) :
    (members : List (String × Json)) → {entries : Table} → EncodesMembers h entries members →
      (Json.AllMembers P members ↔ ∀ entry ∈ entries, AllInside h Q entry.2)
  | [], _, hmembers => by
    obtain rfl : _ = [] := hmembers
    exact iff_of_true trivial (List.forall_mem_nil _)
  | (_, value) :: members, _, hmembers => by
    obtain ⟨key, v, rest, rfl, -, hv, hrest⟩ := hmembers
    rw [List.forall_mem_cons]
    exact and_congr (all_iff_allInside hPQ value hv) (allMembers_iff_allInside hPQ members hrest)
end

theorem corresponds_ne_null : Corresponds h (· ≠ .null) (· ≠ []) := by
  intro v j hv
  cases j with
  | null =>
    obtain ⟨t, rfl, ht⟩ := hv
    exact iff_of_false (fun hne => hne rfl) fun hall => hall t rfl ht
  | array items =>
    obtain ⟨t, rfl, hne, hitems⟩ := hv
    refine iff_of_true (by simp) fun _ heq hempty => hne ?_
    obtain rfl := Value.table.inj heq
    cases items with
    | nil => rfl
    | cons item items =>
      obtain ⟨n, v, rest, hcons, -⟩ := hitems
      cases hempty.symm.trans hcons
  | object members =>
    obtain ⟨t, rfl, hne, hmembers⟩ := hv
    refine iff_of_true (by simp) fun _ heq hempty => hne ?_
    obtain rfl := Value.table.inj heq
    cases members with
    | nil => rfl
    | cons member members =>
      obtain ⟨key, v, rest, hcons, -⟩ := hmembers
      cases hempty.symm.trans hcons
  | bool b =>
    obtain rfl : v = .boolean b := hv
    exact iff_of_true (by simp) (by simp)
  | number d =>
    obtain ⟨n, rfl, -⟩ := hv
    exact iff_of_true (by simp) (by simp)
  | string s =>
    obtain ⟨text, rfl, -⟩ := hv
    exact iff_of_true (by simp) (by simp)

theorem names_of_encodesMembers {members : List (String × Json)}
    (hmembers : EncodesMembers h entries members) : names entries = members.map Prod.fst := by
  induction members generalizing entries with
  | nil =>
    obtain rfl : entries = [] := hmembers
    rfl
  | cons member members ih =>
    obtain ⟨key, v, rest, rfl, hname, -, hrest⟩ := hmembers
    rw [List.map_cons, ← ih hrest, ← hname]
    rfl

theorem names_of_encodesItems {items : List Json} (hitems : EncodesItems h entries items) :
    names entries = [] := by
  induction items generalizing entries with
  | nil =>
    obtain rfl : entries = [] := hitems
    rfl
  | cons item items ih =>
    obtain ⟨n, v, rest, rfl, -, hrest⟩ := hitems
    exact (ih hrest :)

theorem corresponds_distinctNames :
    Corresponds h Json.DistinctNames fun entries => (names entries).Nodup := by
  intro v j hv
  cases j with
  | null =>
    obtain ⟨t, rfl, ht⟩ := hv
    refine iff_of_true trivial fun _ heq => ?_
    obtain rfl := Value.table.inj heq
    simp [ht, names]
  | array items =>
    obtain ⟨t, rfl, -, hitems⟩ := hv
    refine iff_of_true trivial fun _ heq => ?_
    obtain rfl := Value.table.inj heq
    simp [names_of_encodesItems hitems]
  | object members =>
    obtain ⟨t, rfl, -, hmembers⟩ := hv
    have hnames := names_of_encodesMembers hmembers
    simp [Json.DistinctNames, hnames]
  | bool b =>
    obtain rfl : v = .boolean b := hv
    exact iff_of_true trivial (by simp)
  | number d =>
    obtain ⟨n, rfl, -⟩ := hv
    exact iff_of_true trivial (by simp)
  | string s =>
    obtain ⟨text, rfl, -⟩ := hv
    exact iff_of_true trivial (by simp)

end Parts

-- ---------------------------------------------------------------------------
-- Nesting
-- ---------------------------------------------------------------------------

/-- No `n` references lead from the value further and further inside. -/
def NoWay (h : Heap) (n : Nat) (v : Value) : Prop :=
  ∀ t, v = .table t → ¬ HasWay (Contains h) n t

theorem noWay_succ {n : Nat} :
    NoWay h (n + 1) (.table t) ↔ ∀ entry ∈ h.entries t, NoWay h n entry.2 := by
  constructor
  · exact fun hnone entry hmem c hc hway => hnone t rfl ⟨c, ⟨entry.1, hc ▸ hmem⟩, hway⟩
  · rintro hnone _ heq ⟨c, ⟨key, hmem⟩, hway⟩
    obtain rfl := Value.table.inj heq
    exact hnone (key, .table c) hmem c rfl hway

theorem not_noWay_zero : ¬ NoWay h 0 (.table t) := fun hnone => hnone t rfl trivial

mutual
theorem depth_le_iff : (j : Json) → {v : Value} → Encodes h v j → j.All (· ≠ .null) →
    (n : Nat) → (j.depth ≤ n ↔ NoWay h n v)
  | .null, _, _, hnull, _ => absurd rfl hnull
  | .bool _, _, hv, _, n => by
    obtain rfl : _ = Value.boolean _ := hv
    exact iff_of_true (Nat.zero_le n) nofun
  | .number _, _, hv, _, n => by
    obtain ⟨m, rfl, -⟩ := hv
    exact iff_of_true (Nat.zero_le n) nofun
  | .string _, _, hv, _, n => by
    obtain ⟨text, rfl, -⟩ := hv
    exact iff_of_true (Nat.zero_le n) nofun
  | .array items, _, hv, hnull, n => by
    obtain ⟨t, rfl, -, hitems⟩ := hv
    cases n with
    | zero => exact iff_of_false (Nat.not_succ_le_zero _) not_noWay_zero
    | succ n =>
      rw [noWay_succ, ← depthItems_le_iff items hitems hnull.2 n]
      exact Nat.succ_le_succ_iff
  | .object members, _, hv, hnull, n => by
    obtain ⟨t, rfl, -, hmembers⟩ := hv
    cases n with
    | zero => exact iff_of_false (Nat.not_succ_le_zero _) not_noWay_zero
    | succ n =>
      rw [noWay_succ, ← depthMembers_le_iff members hmembers hnull.2 n]
      exact Nat.succ_le_succ_iff
theorem depthItems_le_iff : (items : List Json) → {entries : Table} →
    EncodesItems h entries items → Json.AllItems (· ≠ .null) items → (n : Nat) →
      (Json.depthItems items ≤ n ↔ ∀ entry ∈ entries, NoWay h n entry.2)
  | [], _, hitems, _, n => by
    obtain rfl : _ = [] := hitems
    exact iff_of_true (Nat.zero_le n) (List.forall_mem_nil _)
  | item :: items, _, hitems, hnull, n => by
    obtain ⟨m, v, rest, rfl, hv, hrest⟩ := hitems
    rw [List.forall_mem_cons]
    exact Nat.max_le.trans
      (and_congr (depth_le_iff item hv hnull.1 n) (depthItems_le_iff items hrest hnull.2 n))
theorem depthMembers_le_iff : (members : List (String × Json)) → {entries : Table} →
    EncodesMembers h entries members → Json.AllMembers (· ≠ .null) members → (n : Nat) →
      (Json.depthMembers members ≤ n ↔ ∀ entry ∈ entries, NoWay h n entry.2)
  | [], _, hmembers, _, n => by
    obtain rfl : _ = [] := hmembers
    exact iff_of_true (Nat.zero_le n) (List.forall_mem_nil _)
  | (_, value) :: members, _, hmembers, hnull, n => by
    obtain ⟨key, v, rest, rfl, -, hv, hrest⟩ := hmembers
    rw [List.forall_mem_cons]
    exact Nat.max_le.trans
      (and_congr (depth_le_iff value hv hnull.1 n) (depthMembers_le_iff members hrest hnull.2 n))
end

-- ---------------------------------------------------------------------------
-- Storing and reading
-- ---------------------------------------------------------------------------

/-- The text that is written for the table is read as a table, and `as_table` of a result with
this text returns a table and no error. -/
def ReadBackAsTable (J : JsonLibrary) (h : Heap) (t : TableRef) : Prop :=
  ∀ fuel below text L, Returns (Serializer.toString J fuel none) (on h (.table t :: below)) text L →
    ∃ n, ∀ fuel, n ≤ fuel → ∀ h₁,
      (∀ stack, ∃ h₂ u, Returns (fromString J fuel .table text) (on h₁ stack) ()
        (on h₂ (.table u :: stack))) ∧
      ∀ stack : List Value, stack.length = 2 → ∃ h₂ u,
        Returns (StorageResult.cast J fuel { value := text, isError := false } .table)
          (on h₁ stack) () (on h₂ [.nil, .table u])

theorem encodes_dataType {v : Value} {j : Json} (hj : Encodes h v j) :
    v.dataType = some (dataType j) := by
  cases j with
  | null | array | object =>
    obtain ⟨t, rfl, -⟩ := hj
    rfl
  | bool b =>
    obtain rfl : v = .boolean b := hj
    rfl
  | number d =>
    obtain ⟨n, rfl, -⟩ := hj
    rfl
  | string s =>
    obtain ⟨text, rfl, -⟩ := hj
    rfl

theorem all_readable_iff_inside {v : Value} {j : Json} (hj : Encodes h v j)
    (hread : j.All (J.Reads limit)) :
    j.All (Readable J) ↔ AllInside h (· ≠ []) v ∧
      AllInside h (fun entries => (names entries).Nodup) v ∧ ∀ n ∈ limit, NoWay h n v := by
  have hnull := all_iff_allInside corresponds_ne_null j hj
  have hdistinct := all_iff_allInside corresponds_distinctNames j hj
  rw [all_readable_iff j hread, ← hnull, ← hdistinct]
  refine and_congr_right fun hall => and_congr_right fun _ => ?_
  exact forall₂_congr fun n _ => depth_le_iff j hj hall n

theorem readBackAsTable_iff_readable (hJ : J.Strict) (hh : h.Lawful) {j : Json}
    (hj : Encodes h (.table t) j) (hread : j.All (J.Reads limit)) :
    ReadBackAsTable J h t ↔ j.All (Readable J) := by
  have htype : dataType j = .table := (Option.some.inj (encodes_dataType hj)).symm
  constructor
  · intro hback
    obtain ⟨n, hwrites⟩ := (writes_iff hJ hh).mpr hj
    obtain ⟨m, hreads⟩ := hback n [] _ _ (hwrites n (Nat.le_refl n) []).2
    obtain ⟨h₂, u, hreturns⟩ := (hreads m (Nat.le_refl m) h).1 []
    rw [← htype] at hreturns
    have hne : j ≠ .null := ne_null_of_returns (fun hnull => by subst hnull; exact hread) hreturns
    exact readable_of_returns j hne (hread.imp fun _ => JsonLibrary.Reads.rereads) hreturns
  · intro hreadable fuel below text L hwritten
    obtain ⟨j', hj', rfl, -⟩ := returns_toString_iff.mp hwritten
    obtain rfl := encodes_unique hJ hh hj (encodes_of_valueOf hJ hh hj')
    obtain ⟨n, hn⟩ := returns_of_readable j hreadable
    have hpush : ∀ fuel, n ≤ fuel → ∀ h₁ stack, ∃ h₂ u,
        Returns (fromString J fuel .table (valueText J j)) (on h₁ stack) ()
          (on h₂ (.table u :: stack)) := by
      intro fuel hfuel h₁ stack
      obtain ⟨h₂, w, hreturns, htable⟩ := hn fuel hfuel h₁ stack
      obtain ⟨u, rfl⟩ := htable htype
      rw [htype] at hreturns
      exact ⟨h₂, u, hreturns⟩
    refine ⟨n, fun fuel hfuel h₁ => ⟨hpush fuel hfuel h₁, fun stack hlength => ?_⟩⟩
    obtain ⟨h₂, u, hreturns⟩ := hpush fuel hfuel h₁ []
    exact ⟨h₂, u, returns_cast hlength hreturns⟩

/-- A stored table can be read back just if there is no empty table in it, no two names of one
of its tables are written as one, and it is nested no deeper than the parser allows. -/
theorem readBackAsTable_iff (hJ : J.Strict) (hh : h.Lawful) {j : Json}
    (hj : Encodes h (.table t) j) (hread : j.All (J.Reads limit)) :
    ReadBackAsTable J h t ↔
      (∀ u ∈ InReach (Contains h) t, h.entries u ≠ [] ∧ (names (h.entries u)).Nodup) ∧
        ∀ n ∈ limit, ¬ HasWay (Contains h) n t := by
  have hlift : ∀ {P : TableRef → Prop}, (∀ t', Value.table t = .table t' → P t') ↔ P t := by simp
  rw [readBackAsTable_iff_readable hJ hh hj hread, all_readable_iff_inside hj hread]
  constructor
  · rintro ⟨hfilled, hdistinct, hways⟩
    exact ⟨fun u hu => ⟨hfilled t rfl u hu, hdistinct t rfl u hu⟩, fun n hn => hways n hn t rfl⟩
  · rintro ⟨hinside, hways⟩
    exact ⟨hlift.mpr fun u hu => (hinside u hu).1, hlift.mpr fun u hu => (hinside u hu).2,
      fun n hn => hlift.mpr (hways n hn)⟩

def nullLibrary : JsonLibrary :=
  { textLibrary with
    fromString := fun text => if text = "null" then .ok .null else textLibrary.fromString text }

theorem empty_table_not_read_back :
    (∃ text, (∀ below, Returns (Serializer.toString nullLibrary 2 none)
        (on [[]] (.table 0 :: below)) text (on [[]] (.table 0 :: below))) ∧
      ∀ h₁ stack, ∃ h₂, Throws (fromString nullLibrary 1 .table text) (on h₁ stack)
        (.exception (.stdException "Value is not a table")) (on h₂ stack)) ∧
    ¬ ReadBackAsTable nullLibrary [[]] 0 := by
  refine ⟨⟨"null", fun below => rfl, fun h₁ stack => ⟨h₁ ++ [[]], rfl⟩⟩, fun hback => ?_⟩
  obtain ⟨n, hn⟩ := hback 2 [] "null" (on [[]] [.table 0]) rfl
  obtain ⟨h₂, u, hreturns⟩ := (hn n (Nat.le_refl n) []).1 []
  cases n with
  | zero => exact nomatch hreturns
  | succ n => exact nomatch hreturns

theorem person_reads : person.All (textLibrary.Reads (some 128)) := by
  have hage : textLibrary.Reads (some 128) (.number age) := ⟨age, by simp [textLibrary]⟩
  have hflags : textLibrary.Parses (some 128) flags := by
    refine .of_ok (by simp [textLibrary, flags]) ⟨trivial, trivial, trivial, trivial⟩ ?_
    simp [Json.depth, Json.depthItems, flags]
  have hperson : textLibrary.Parses (some 128) person := by
    refine .of_ok (by simp [textLibrary, personText, flagsText, person]) ?_ ?_
    · exact ⟨by simp [Json.DistinctNames], trivial, ⟨trivial, trivial, trivial, trivial⟩, trivial⟩
    · simp [Json.depth, Json.depthMembers, Json.depthItems, flags, person]
  exact ⟨hperson, trivial, ⟨hflags, hage, trivial, trivial⟩, trivial⟩

theorem person_read_back_as_table : ReadBackAsTable textLibrary personHeap 0 := by
  have hflags : Encodes personHeap (.table 1) flags :=
    ⟨1, rfl, by simp, .integer 1, .number (.float age), _, rfl, ⟨.float age, rfl, rfl, _, _, rfl⟩,
      .integer 2, .boolean true, [], rfl, rfl, rfl⟩
  have hperson : Encodes personHeap (.table 0) person :=
    ⟨0, rfl, by simp, "name", .string "Test", _, rfl, rfl, ⟨"Test", rfl, rfl⟩, "flags", .table 1,
      [], rfl, rfl, hflags, rfl⟩
  refine (readBackAsTable_iff textLibrary_strict (by decide) hperson person_reads).mpr
    ⟨fun u hu => ?_, fun n hn => ?_⟩
  · obtain rfl | rfl : u = 0 ∨ u = 1 := by simpa [references, personHeap] using inReach_cases hu
    · exact ⟨by decide, by decide⟩
    · exact ⟨by decide, by decide⟩
  · obtain rfl : 128 = n := Option.some.inj hn
    rintro ⟨b, ⟨key, hb⟩, c, ⟨key', hc⟩, -⟩
    obtain ⟨-, rfl⟩ : key = recordKey "flags" ∧ b = 1 := by
      simpa [personHeap, Heap.entries] using hb
    simp [personHeap, Heap.entries] at hc

end LambdaExecutor.Kv
