import LambdaExecutor.Library.Cycles
import LambdaExecutor.Lua.EncodesLaws

/-!
# Which serializations end

The serializer follows the references of a heap and keeps no account of where it
has been. It enters a table inside a table unless an entry before it ends the
traversal; it ends just if this descent comes to no cycle.
-/

namespace LambdaExecutor.Lua.Serializer

open Raii Raii.Code Formats Relation Cycles

variable {J : JsonLibrary} {h : Heap} {t u : TableRef} {entries remaining seen : Table}
  {k key v : Value} {builder : Json}

-- ---------------------------------------------------------------------------
-- The descent
-- ---------------------------------------------------------------------------

def Contains (h : Heap) (t u : TableRef) : Prop := ∃ key, (key, .table u) ∈ h.entries t

/-- The entries of a table have all been added to the builder. -/
def Taken (h : Heap) (seen : Table) : Prop :=
  SameKind seen ∧ ∀ entry ∈ seen, Serializable h entry.2

/-- The serializer enters `u` from `t`: the entries before it do not stop it. -/
def Descends (h : Heap) (t u : TableRef) : Prop :=
  ∃ seen key rest, h.entries t = seen ++ (key, .table u) :: rest ∧ IsKey key ∧ Taken h seen

theorem Descends.contains (hd : Descends h t u) : Contains h t u := by
  obtain ⟨seen, key, rest, hentries, -⟩ := hd
  exact ⟨key, by simp [hentries]⟩

theorem Taken.nil : Taken h [] := ⟨.inl (List.forall_mem_nil _), List.forall_mem_nil _⟩

def references (h : Heap) : Set TableRef :=
  {u | Value.table u ∈ h.flatMap fun entries => entries.map Prod.snd}

theorem finite_references (h : Heap) : (references h).Finite :=
  (List.finite_toSet _).preimage fun _ _ _ _ heq => Value.table.inj heq

theorem Contains.mem_references (hc : Contains h t u) : u ∈ references h := by
  obtain ⟨key, hmem⟩ := hc
  unfold Heap.entries at hmem
  cases ht : h[t]? with
  | none => simp [ht] at hmem
  | some entries =>
    rw [ht, Option.getD_some] at hmem
    exact List.mem_flatMap.mpr
      ⟨entries, List.mem_of_getElem? ht, List.mem_map.mpr ⟨_, hmem, rfl⟩⟩

theorem inReach_cases (hu : u ∈ InReach (Contains h) t) : u = t ∨ u ∈ references h := by
  obtain heq | ⟨w, -, hw⟩ := ReflTransGen.cases_tail hu
  · exact .inl heq
  · exact .inr hw.mem_references

theorem finite_inReach (h : Heap) (t : TableRef) : (InReach (Descends h) t).Finite := by
  refine ((finite_references h).insert t).subset fun u hu => ?_
  exact inReach_cases (hu.lift id fun _ _ => Descends.contains)

theorem stops_of_serializable (hv : Serializable h v) (ht : v = .table t) :
    Stops (Contains h) t := by
  induction hv generalizing t with
  | string | boolean | number => exact nomatch ht
  | table hkind hvalues ih =>
    obtain rfl := Value.table.inj ht
    exact .of_forall fun u ⟨key, hmem⟩ => ih (key, .table u) hmem rfl

-- ---------------------------------------------------------------------------
-- A descent without a cycle ends
-- ---------------------------------------------------------------------------

def Finishes (J : JsonLibrary) (h : Heap) (v : Value) : Prop := ∃ n, valueOf J h n v ≠ .other

theorem finishes_of_not_table (hv : ∀ t, v ≠ .table t) : Finishes J h v := by
  refine ⟨1, ?_⟩
  cases v with
  | table t => exact absurd rfl (hv t)
  | number n =>
    rw [valueOf]
    cases J.ofDouble n.toDouble <;> nofun
  | _ => nofun

section
variable (hJ : J.Strict) (hh : h.Lawful)
include hJ hh

theorem loop_finishes (hvalues : ∀ seen key v rest, entries = seen ++ (key, v) :: rest →
      IsKey key → Taken h seen → Finishes J h v)
    (hentries : entries = seen ++ remaining) (hb : Holds builder seen) (htaken : Taken h seen)
    (hvisits : Visits entries k remaining) : ∃ n, entriesOf J h n entries k builder ≠ .other := by
  induction remaining generalizing seen k builder with
  | nil => exact ⟨1, by rw [entriesOf_nil hvisits]; nofun⟩
  | cons entry rest ih =>
    obtain ⟨key, v⟩ := entry
    by_cases hkey : IsKey key
    · obtain ⟨n, hn⟩ := hvalues seen key v rest hentries hkey htaken
      cases hresult : valueOf J h n v with
      | other => exact absurd hresult hn
      | fault e f =>
        refine ⟨n + 1, ?_⟩
        rw [entriesOf_cons hvisits hkey, hresult]
        nofun
      | value json =>
        obtain ⟨builder', hgrow, hb'⟩ | ⟨⟨e, hgrow⟩, -⟩ := hb.grow (v := v) (j := json) hJ hkey
        · have hserializable := serializable_of_valueOf hJ hh hresult
          have htaken' : Taken h (seen ++ [(key, v)]) :=
            ⟨hb'.sameKind, List.forall_mem_append.mpr ⟨htaken.2, by simpa using hserializable⟩⟩
          obtain ⟨m, hm⟩ := ih (by simpa using hentries) hb' htaken' hvisits.visit
          refine ⟨max n m + 1, ?_⟩
          rw [entriesOf_cons hvisits hkey, valueOf_mono (Nat.le_max_left n m) hn, hresult]
          dsimp only
          rw [hgrow]
          dsimp only
          rwa [entriesOf_mono (Nat.le_max_right n m) hm]
        · refine ⟨n + 1, ?_⟩
          rw [entriesOf_cons hvisits hkey, hresult]
          dsimp only
          rw [hgrow]
          nofun
    · exact ⟨1, by rw [entriesOf_bad_key hvisits hkey]; nofun⟩

theorem finishes_of_stops (hstops : Stops (Descends h) t) : Finishes J h (.table t) := by
  induction hstops with
  | intro t _ ih =>
    have hvalues : ∀ seen key v rest, h.entries t = seen ++ (key, v) :: rest →
        IsKey key → Taken h seen → Finishes J h v := by
      intro seen key v rest hentries hkey htaken
      cases v with
      | table u => exact ih u ⟨seen, key, rest, hentries, hkey, htaken⟩
      | _ => exact finishes_of_not_table nofun
    obtain ⟨n, hn⟩ := loop_finishes hJ hh hvalues rfl .null .nil (.start (hh.entries t))
    exact ⟨n + 1, hn⟩

-- ---------------------------------------------------------------------------
-- A descent with a cycle does not
-- ---------------------------------------------------------------------------

theorem loop_reaches {between rest : Table} {n : Nat} (hb : Holds builder seen)
    (hvisits : Visits entries k (between ++ (key, v) :: rest)) (hkey : IsKey key)
    (hkind : SameKind (seen ++ between)) (hvalues : ∀ entry ∈ between, Serializable h entry.2)
    (hends : entriesOf J h n entries k builder ≠ .other) :
    ∃ m < n, valueOf J h m v ≠ .other := by
  induction between generalizing seen k builder n with
  | nil =>
    cases n with
    | zero => exact absurd rfl hends
    | succ n =>
      refine ⟨n, Nat.lt_succ_self n, fun hother => hends ?_⟩
      rw [entriesOf_cons hvisits hkey, hother]
  | cons entry between ih =>
    obtain ⟨key', v'⟩ := entry
    rw [List.append_cons] at hkind
    rw [List.forall_mem_cons] at hvalues
    have hkey' : IsKey key' := hkind.isKey (key', v') (by simp)
    cases n with
    | zero => exact absurd rfl hends
    | succ n =>
      rw [List.cons_append] at hvisits
      rw [entriesOf_cons hvisits hkey'] at hends
      -- The value before is serializable, so it is not what ends the loop.
      obtain ⟨j, hj⟩ := hvalues.1.exists_encodes
      obtain ⟨m, hm⟩ := valueOf_of_encodes hJ hh j hj
      have hresult : valueOf J h n v' = .value j := by
        have hne : valueOf J h n v' ≠ .other := fun hother => hends (by rw [hother])
        rw [← valueOf_mono (Nat.le_max_left n m) hne, hm _ (Nat.le_max_right n m)]
      obtain ⟨builder', hgrow, hb'⟩ | ⟨-, hmixed⟩ := hb.grow (v := v') (j := j) hJ hkey'
      · rw [hresult] at hends
        dsimp only at hends
        rw [hgrow] at hends
        obtain ⟨m, hlt, hm⟩ := ih hb' hvisits.visit hkind hvalues.2 hends
        exact ⟨m, Nat.lt_succ_of_lt hlt, hm⟩
      · exact absurd (hkind.mono (List.subset_append_left _ _)) hmixed

theorem finishes_next (hd : Descends h t u) {n : Nat} (hends : valueOf J h n (.table t) ≠ .other) :
    ∃ m < n, valueOf J h m (.table u) ≠ .other := by
  obtain ⟨seen, key, rest, hentries, hkey, hkind, hvalues⟩ := hd
  cases n with
  | zero => exact absurd rfl hends
  | succ n =>
    have hstart := Visits.start (hh.entries t)
    have hends : entriesOf J h n (h.entries t) .nil .null ≠ .other := hends
    rw [hentries] at hstart hends
    obtain ⟨m, hlt, hm⟩ := loop_reaches hJ hh .null hstart hkey hkind hvalues hends
    exact ⟨m, Nat.lt_succ_of_lt hlt, hm⟩

theorem stops_of_finishes (hfinishes : Finishes J h (.table t)) : Stops (Descends h) t := by
  obtain ⟨n, hn⟩ := hfinishes
  induction n using Nat.strongRecOn generalizing t with
  | ind n ih =>
    refine .of_forall fun u hd => ?_
    obtain ⟨m, hlt, hm⟩ := finishes_next hJ hh hd hn
    exact ih m hlt hm

theorem finishes_iff : Finishes J h v ↔ ∀ t, v = .table t → NoCycle (Descends h) t := by
  constructor
  · rintro hfinishes t rfl
    exact (stops_iff_noCycle (finite_inReach h t)).mp (stops_of_finishes hJ hh hfinishes)
  · intro hnone
    cases v with
    | table t =>
      exact finishes_of_stops hJ hh ((stops_iff_noCycle (finite_inReach h t)).mpr (hnone t rfl))
    | _ => exact finishes_of_not_table nofun

end

-- ---------------------------------------------------------------------------
-- No errors of Lua
-- ---------------------------------------------------------------------------

section
variable {message : String} {below : List Value} {L L' : LuaState}

theorem not_throws_ofLibrary {α : Type} {result : Except Exception α} :
    ¬ Throws (ofLibrary result) L (.luaError message) L' := by
  cases result <;> nofun

theorem not_throws_catchAll {body : LuaCode Json} {n : Nat}
    (hbody : ∀ L', ¬ Throws body L (.luaError message) L') :
    ¬ Throws (catchAll body (luaPop n)) L (.luaError message) L' := by
  intro hthrows
  obtain ⟨thrown, L₁, hresult, hhandler⟩ := hthrows.of_tryCatch
  cases thrown with
  | exception e => exact nomatch hhandler
  | luaError message' =>
    obtain ⟨⟨⟩, rfl⟩ := (Result.threw.injEq ..).mp hhandler
    exact hbody L₁ hresult

/-- Every traversal of a lawful table finds the key from which it goes on. -/
theorem not_throws_luaError (hh : h.Lawful) (fuel : Nat) :
    (∀ v below L, ¬ Throws (toValue J fuel none) (on h (v :: below)) (.luaError message) L) ∧
    ∀ t k remaining builder below L, Visits (h.entries t) k remaining →
      ¬ Throws (tableLoop J fuel none builder) (on h (k :: .table t :: below))
        (.luaError message) L := by
  induction fuel with
  | zero =>
    constructor
    · rintro _ _ _ ⟨⟩
    · rintro _ _ _ _ _ _ _ ⟨⟩
  | succ fuel ih =>
    obtain ⟨hvalue, hloop⟩ := ih
    constructor
    · intro v below L hthrows
      rw [toValue] at hthrows
      cases v with
      | table t => exact hloop t .nil _ _ below L (.start (hh.entries t)) hthrows
      | number n => exact not_throws_ofLibrary hthrows
      | _ => cases hthrows
    · intro t k remaining builder below L hvisits hthrows
      rw [tableLoop] at hthrows
      change (luaNext (-2) >>= _) (on h (k :: .table t :: below)) = _ at hthrows
      cases remaining with
      | nil =>
        rw [(luaNext_ends hvisits.next).bind_apply] at hthrows
        cases hthrows
      | cons entry rest =>
        obtain ⟨key, v⟩ := entry
        have htype : Returns (luaType (-2)) (on h (v :: key :: .table t :: below)) key.type
            (on h (v :: key :: .table t :: below)) := rfl
        rw [(luaNext_visits hvisits.next).bind_apply, if_pos rfl, htype.bind_apply] at hthrows
        dsimp only at hthrows
        split at hthrows
        · cases hthrows
        · next hkey =>
          obtain hthrows | ⟨json, L₁, hreturns, hthrows⟩ := Throws.of_bind hthrows
          · exact not_throws_catchAll (hvalue v _) hthrows
          · obtain ⟨-, rfl⟩ := returns_toValue_iff.mp (returns_of_catchAll hreturns)
            rw [Throws, grow_apply (type_of_not_key hkey)] at hthrows
            obtain hthrows | ⟨builder', L₂, hgrown, hthrows⟩ := Throws.of_bind hthrows
            · exact not_throws_ofLibrary hthrows
            · obtain ⟨-, rfl⟩ := of_returns_ofLibrary hgrown
              exact hloop t key rest builder' below L hvisits.visit hthrows

end

-- ---------------------------------------------------------------------------
-- The texts
-- ---------------------------------------------------------------------------

theorem settles_toString_iff (hh : h.Lawful) {below : List Value} :
    Settles (fun fuel => toString J fuel none) (fun _ _ => True) (fun _ _ => True)
      (on h (v :: below)) ↔ Finishes J h v := by
  constructor
  · rintro ⟨n, hn⟩
    refine ⟨n, fun hother => ?_⟩
    have hends := ends_toValue J h n v below
    rw [hother] at hends
    obtain ⟨message, L, hraised⟩ | ⟨L, hterminated⟩ := hends
    · exact (not_throws_luaError hh n).1 v below L hraised
    · have hwp : wp (toString J n none) _ _ (on h (v :: below)) := hn n (Nat.le_refl n)
      refine not_wp_of_isTerminated ?_ hwp
      rw [toString_apply, hterminated]
      rfl
  · rintro ⟨n, hn⟩
    refine ⟨n, fun fuel hfuel => ?_⟩
    have hmono := valueOf_mono hfuel hn
    cases hresult : valueOf J h fuel v with
    | other => exact absurd (hmono.symm.trans hresult) hn
    | fault e f =>
      obtain ⟨L, hthrows⟩ : ∃ L, Throws (toString J _ none) (on h (v :: below)) (.exception e) L :=
        throws_toString_iff.mpr ⟨f, hresult⟩
      exact hthrows.wp_iff.mpr trivial
    | value j => exact (returns_toString_iff.mpr ⟨j, hresult, rfl, rfl⟩).wp_iff.mpr trivial

theorem settles_toString_raised_iff (hJ : J.Strict) (hh : h.Lawful) (below : List Value) :
    Settles (fun fuel => toString J fuel none) (fun _ _ => True) (fun thrown _ => Raised thrown)
      (on h (v :: below)) ↔ Serializable h v := by
  constructor
  · rintro ⟨n, hn⟩
    have hsettles : Settles (fun fuel => toString J fuel none) (fun _ _ => True) (fun _ _ => True)
        (on h (v :: below)) :=
      ⟨n, fun fuel hfuel => wp_mono (hn fuel hfuel) (fun _ _ => id) fun _ _ _ => trivial⟩
    obtain ⟨m, hm⟩ := (settles_toString_iff hh).mp hsettles
    have hfuel := hn _ (Nat.le_max_left n m)
    have hmono := valueOf_mono (Nat.le_max_right n m) hm
    cases hresult : valueOf J h (max n m) v with
    | other => exact absurd (hmono.symm.trans hresult) hm
    | fault e f =>
      obtain ⟨L, hthrows⟩ : ∃ L, Throws (toString J _ none) (on h (v :: below)) (.exception e) L :=
        throws_toString_iff.mpr ⟨f, hresult⟩
      obtain ⟨message, hraised⟩ := hthrows.wp_iff.mp hfuel
      exact nomatch hraised
    | value j => exact serializable_of_valueOf hJ hh hresult
  · intro hv
    obtain ⟨j, hj⟩ := hv.exists_encodes
    obtain ⟨n, hn⟩ := valueOf_of_encodes hJ hh j hj
    refine ⟨n, fun fuel hfuel => ?_⟩
    exact (returns_toString_iff.mpr ⟨j, hn fuel hfuel, rfl, rfl⟩).wp_iff.mpr trivial

/-- `Serializer::ToString` comes to an end: it throws, or it returns a text and no table
that is reachable from itself was the value. -/
def Ends (J : JsonLibrary) (h : Heap) (v : Value) (below : List Value) : Prop :=
  ∃ fuel, (∃ e L, Throws (toString J fuel none) (on h (v :: below)) (.exception e) L) ∨
    (∃ text L, Returns (toString J fuel none) (on h (v :: below)) text L) ∧
      ∀ t, v = .table t → ¬ TransGen (Contains h) t t

/-- The serializer ends just where its descent comes to no table from which it would come
to this table again. -/
theorem toString_ends_iff (hJ : J.Strict) (hh : h.Lawful) (below : List Value) :
    Ends J h v below ↔ ∀ t, v = .table t → NoCycle (Descends h) t := by
  rw [← finishes_iff hJ hh]
  constructor
  · rintro ⟨fuel, ⟨e, hthrows⟩ | ⟨⟨text, L, hreturns⟩, -⟩⟩
    · obtain ⟨f, hfault⟩ := throws_toString_iff.mp hthrows
      exact ⟨fuel, by rw [hfault]; nofun⟩
    · obtain ⟨j, hj, -⟩ := returns_toString_iff.mp hreturns
      exact ⟨fuel, by rw [hj]; nofun⟩
  · rintro ⟨fuel, hends⟩
    refine ⟨fuel, ?_⟩
    cases hresult : valueOf J h fuel v with
    | other => exact absurd hresult hends
    | fault e f => exact .inl ⟨e, throws_toString_iff.mpr ⟨f, hresult⟩⟩
    | value j =>
      refine .inr ⟨⟨_, _, returns_toString_iff.mpr ⟨j, hresult, rfl, rfl⟩⟩, fun t ht => ?_⟩
      exact (stops_of_serializable (serializable_of_valueOf hJ hh hresult) ht).not_transGen

def insideItself : Heap := [[(.string "self", .table 0)]]

theorem inside_itself_never_ends : insideItself.Lawful ∧ TransGen (Contains insideItself) 0 0 ∧
    ¬ Ends textLibrary insideItself (.table 0) [.string "key"] := by
  have hlawful : insideItself.Lawful := by decide
  have hdescends : Descends insideItself 0 0 := ⟨[], .string "self", [], rfl, .inl rfl, .nil⟩
  refine ⟨hlawful, .single hdescends.contains, ?_⟩
  rintro ⟨fuel, ⟨e, hthrows⟩ | ⟨-, hnone⟩⟩
  · obtain ⟨f, hfault⟩ := throws_toString_iff.mp hthrows
    have hfinishes : Finishes textLibrary insideItself (.table 0) := ⟨fuel, by rw [hfault]; nofun⟩
    have hstops := stops_of_finishes textLibrary_strict hlawful hfinishes
    exact hstops.not_transGen (.single hdescends)
  · exact hnone 0 rfl (.single hdescends.contains)

theorem refused_key_ends : Ends textLibrary [[(.boolean true, .table 0)]] (.table 0) [] := by
  refine (toString_ends_iff textLibrary_strict (by decide) []).mpr fun t _ b _ hcycle => ?_
  obtain ⟨c, ⟨seen, key, rest, hentries, hkey, -⟩, -⟩ := TransGen.head'_iff.mp hcycle
  have hmem : (key, .table c) ∈ Heap.entries [[(.boolean true, .table 0)]] b := by simp [hentries]
  cases b with
  | zero =>
    obtain ⟨rfl, -⟩ : key = .boolean true ∧ c = 0 := by simpa [Heap.entries] using hmem
    exact absurd hkey (by decide)
  | succ b => simp [Heap.entries] at hmem

end LambdaExecutor.Lua.Serializer
