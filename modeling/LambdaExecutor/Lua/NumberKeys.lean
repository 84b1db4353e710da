import LambdaExecutor.Lua.Termination

/-!
# What becomes of the numbers under which values are kept

The serializer does not look at the number in a key: it appends the values of
such a table in the order of traversal. So the numbers survive only where they
are the places in this order, and nothing reports that they do not.
-/

namespace LambdaExecutor.Lua.Serializer

open Raii Raii.Code Formats Relation Cycles

variable {J : JsonLibrary} {h : Heap} {t u : TableRef} {entries : Table} {v w : Value}
  {below : List Value} {j : Json}

/-- The keys are exactly the integers from 1 on, in any order of traversal. -/
def IsSequence (entries : Table) : Prop :=
  entries ≠ [] ∧ (entries.map Prod.fst).Perm ((List.range' 1 entries.length).map sequenceKey)

instance (entries : Table) : Decidable (IsSequence entries) := inferInstanceAs (Decidable (_ ∧ _))

/-- There are numbers among the keys, but the keys are not the integers from 1 on. -/
def Misnumbered (entries : Table) : Prop :=
  (∃ entry ∈ entries, entry.1.type = .number) ∧ ¬ IsSequence entries

instance (entries : Table) : Decidable (Misnumbered entries) :=
  inferInstanceAs (Decidable (_ ∧ _))

-- ---------------------------------------------------------------------------
-- Tables which are not numbered from 1 on
-- ---------------------------------------------------------------------------

def Rejects (J : JsonLibrary) (h : Heap) (v : Value) (below : List Value) : Prop :=
  (∃ fuel e L, Throws (toString J fuel none) (on h (v :: below)) (.exception e) L) ∧
    ∀ fuel text L, ¬ Returns (toString J fuel none) (on h (v :: below)) text L

theorem rejects_iff (hJ : J.Strict) (hh : h.Lawful) :
    Rejects J h v below ↔
      ¬ Serializable h v ∧ ∀ t, v = .table t → NoCycle (Descends h) t := by
  rw [← finishes_iff hJ hh]
  constructor
  · rintro ⟨⟨fuel, e, hthrows⟩, hnever⟩
    obtain ⟨f, hfault⟩ := throws_toString_iff.mp hthrows
    refine ⟨fun hv => ?_, fuel, by rw [hfault]; nofun⟩
    obtain ⟨j, hj⟩ := hv.exists_encodes
    obtain ⟨n, hn⟩ := valueOf_of_encodes hJ hh j hj
    exact hnever n _ _ (returns_toString_iff.mpr ⟨j, hn n (Nat.le_refl n), rfl, rfl⟩)
  · rintro ⟨hv, fuel, hends⟩
    constructor
    · cases hresult : valueOf J h fuel v with
      | other => exact absurd hresult hends
      | fault e f => exact ⟨fuel, e, throws_toString_iff.mpr ⟨f, hresult⟩⟩
      | value j => exact absurd (serializable_of_valueOf hJ hh hresult) hv
    · intro fuel text L hreturns
      obtain ⟨j, hj, -⟩ := returns_toString_iff.mp hreturns
      exact hv (serializable_of_valueOf hJ hh hj)

def Unsupported : Value → Prop
  | .table _ | .string _ | .boolean _ => False
  | .number n => ¬ Double.IsFinite n.toDouble
  | .nil | .function .. | .userdata _ | .thread _ => True

/-- The table itself gives a reason to throw: its keys are not of one kind, or a value in it
is not supported. -/
def Offends (h : Heap) (t : TableRef) : Prop :=
  ¬ SameKind (h.entries t) ∨ ∃ entry ∈ h.entries t, Unsupported entry.2

theorem Serializable.not_unsupported (hv : Serializable h v) : ¬ Unsupported v := by
  cases hv with
  | number hn => exact not_not_intro hn
  | string | boolean | table => exact id

theorem serializable_of_supported (hv : ¬ Unsupported v)
    (htable : ∀ u, v = .table u → Serializable h (.table u)) : Serializable h v := by
  cases v with
  | string s => exact .string s
  | boolean b => exact .boolean b
  | number n => exact .number (not_not.mp hv)
  | table u => exact htable u rfl
  | nil | function library name | userdata name | thread t => exact absurd trivial hv

theorem not_offends_of_serializable (hreach : u ∈ InReach (Contains h) t)
    (ht : Serializable h (.table t)) : ¬ Offends h u := by
  induction hreach using ReflTransGen.head_induction_on with
  | refl =>
    cases ht with
    | table hkind hvalues =>
      rintro (hmixed | ⟨entry, hmem, hunsupported⟩)
      · exact hmixed hkind
      · exact Serializable.not_unsupported (hvalues entry hmem) hunsupported
  | head hcontains _ ih =>
    obtain ⟨key, hmem⟩ := hcontains
    cases ht with
    | table hkind hvalues => exact ih (hvalues _ hmem)

theorem serializable_of_stops (hstops : Stops (Descends h) t)
    (hclean : ∀ u ∈ InReach (Contains h) t, ¬ Offends h u) : Serializable h (.table t) := by
  induction hstops with
  | intro t _ ih =>
    obtain ⟨hkind, hsupported⟩ := not_or.mp (hclean t .refl)
    have hkind : SameKind (h.entries t) := not_not.mp hkind
    have hvalues : ∀ rest seen, h.entries t = seen ++ rest →
        (∀ entry ∈ seen, Serializable h entry.2) → ∀ entry ∈ rest, Serializable h entry.2 := by
      intro rest
      induction rest with
      | nil => exact fun _ _ _ => List.forall_mem_nil _
      | cons entry rest ih' =>
        intro seen hentries hseen
        have hmem : entry ∈ h.entries t := by simp [hentries]
        have hv : Serializable h entry.2 := by
          refine serializable_of_supported (fun hv => hsupported ⟨entry, hmem, hv⟩) fun u hu => ?_
          have hentry : entry = (entry.1, .table u) := Prod.ext rfl hu
          have htaken : SameKind seen := hkind.mono (by simp [hentries])
          have hdescends : Descends h t u :=
            ⟨seen, entry.1, rest, hentry ▸ hentries, hkind.isKey entry hmem, htaken, hseen⟩
          exact ih u hdescends fun w hw => hclean w (.head hdescends.contains hw)
        rw [List.forall_mem_cons]
        refine ⟨hv, ih' (seen ++ [entry]) (by simpa using hentries) ?_⟩
        exact List.forall_mem_append.mpr ⟨hseen, by simpa using hv⟩
    exact .table hkind (hvalues _ [] rfl (List.forall_mem_nil _))

theorem rejects_table_iff (hJ : J.Strict) (hh : h.Lawful) :
    Rejects J h (.table t) below ↔
      (∃ u ∈ InReach (Contains h) t, Offends h u) ∧ NoCycle (Descends h) t := by
  have hcycle : (∀ t', Value.table t = .table t' → NoCycle (Descends h) t') ↔
      NoCycle (Descends h) t := by simp
  rw [rejects_iff hJ hh, hcycle]
  refine and_congr_left fun hnone => ?_
  constructor
  · intro ht
    by_contra hclean
    refine ht (serializable_of_stops ((stops_iff_noCycle (finite_inReach h t)).mpr hnone) ?_)
    exact fun u hu hoffends => hclean ⟨u, hu, hoffends⟩
  · rintro ⟨u, hu, hoffends⟩ ht
    exact not_offends_of_serializable hu ht hoffends

def RejectsMisnumbered (J : JsonLibrary) (h : Heap) (t : TableRef) (below : List Value) : Prop :=
  (∃ u ∈ InReach (Contains h) t, Misnumbered (h.entries u)) → Rejects J h (.table t) below

/-- Numbers are rejected only where something else is: a key of another kind in one table,
or a value which is not supported. -/
theorem rejectsMisnumbered_iff (hJ : J.Strict) (hh : h.Lawful) (below : List Value) :
    RejectsMisnumbered J h t below ↔ (∃ u ∈ InReach (Contains h) t, Misnumbered (h.entries u)) →
      (∃ u ∈ InReach (Contains h) t, Offends h u) ∧ NoCycle (Descends h) t :=
  imp_congr_right fun _ => rejects_table_iff hJ hh

def onlyFive : Heap := [[(.number (.integer 5), .string "a")]]

theorem key_five_is_lost :
    Misnumbered (onlyFive.entries 0) ∧
    (∀ below, toValue textLibrary 3 none (on onlyFive (.table 0 :: below)) =
      .done (.array [.string "a"]) (on onlyFive (.table 0 :: below))) ∧
    ¬ RejectsMisnumbered textLibrary onlyFive 0 [.string "key"] := by
  have hmisnumbered : Misnumbered (onlyFive.entries 0) := by decide
  have hvalue : valueOf textLibrary onlyFive 3 (.table 0) = .value (.array [.string "a"]) := rfl
  refine ⟨hmisnumbered, fun below => returns_toValue_iff.mpr ⟨hvalue, rfl⟩, fun hrejects => ?_⟩
  obtain ⟨-, hnever⟩ := hrejects ⟨0, .refl, hmisnumbered⟩
  exact hnever 3 _ _ (returns_toString_iff.mpr ⟨_, hvalue, rfl, rfl⟩)

def bothKinds : Heap := [[(.number (.integer 1), .string "a"), (.string "x", .string "b")]]

theorem both_kinds_rejected : RejectsMisnumbered textLibrary bothKinds 0 [] := by
  refine (rejectsMisnumbered_iff textLibrary_strict (by decide) []).mpr fun _ => ⟨?_, ?_⟩
  · exact ⟨0, .refl, .inl (by decide)⟩
  · intro b _ hcycle
    obtain ⟨c, hdescends, -⟩ := TransGen.head'_iff.mp hcycle
    have hreference : c ∈ references bothKinds := hdescends.contains.mem_references
    exact absurd hreference (by simp [references, bothKinds])

-- ---------------------------------------------------------------------------
-- Tables which are numbered from 1 on
-- ---------------------------------------------------------------------------

/-- Keys which the text does not tell apart. -/
def SameName : Value → Value → Prop
  | .string s, .string s' => cString s = cString s'
  | .number _, .number _ => True
  | _, _ => False

/-- Values which the text does not tell apart, entry by entry in the order of traversal. -/
inductive Alike (h : Heap) : Value → Value → Prop
  | string {s s' : String} (hs : cString s = cString s') : Alike h (.string s) (.string s')
  | boolean (b : Bool) : Alike h (.boolean b) (.boolean b)
  | number {m n : Number} (hd : m.toDouble = n.toDouble) : Alike h (.number m) (.number n)
  | table {t t' : TableRef} (hlength : (h.entries t).length = (h.entries t').length)
      (hnames : ∀ pair ∈ (h.entries t).zip (h.entries t'), SameName pair.1.1 pair.2.1)
      (hvalues : ∀ pair ∈ (h.entries t).zip (h.entries t'), Alike h pair.1.2 pair.2.2) :
      Alike h (.table t) (.table t')

/-- What is visited `i`-th cannot be told from what is kept under `i`, in the table and in
those inside it. -/
def VisitedInOrder (h : Heap) (t : TableRef) : Prop :=
  ∀ u ∈ InReach (Contains h) t, IsSequence (h.entries u) →
    ∀ i entry, (h.entries u)[i]? = some entry →
      Alike h entry.2 ((h.entries u).get (sequenceKey (i + 1)))

/-- Every table numbered from 1 on, at every depth, is written as an array whose elements are
what is written for the values under 1, 2 and so on. -/
def KeepsOrder (J : JsonLibrary) (h : Heap) (t : TableRef) : Prop :=
  ∀ u ∈ InReach (Contains h) t, IsSequence (h.entries u) →
    ∃ items, Writes J h (.table u) (.array items) ∧ items.length = (h.entries u).length ∧
      ∀ i item, items[i]? = some item → Writes J h ((h.entries u).get (sequenceKey (i + 1))) item

section Alike
variable {entries' : Table}

theorem encodesItems_of_alike {items : List Json}
    (halike : ∀ pair ∈ entries.zip entries', ∀ j, Encodes h pair.1.2 j → Encodes h pair.2.2 j)
    (hlength : entries.length = entries'.length)
    (hnames : ∀ pair ∈ entries.zip entries', SameName pair.1.1 pair.2.1)
    (hitems : EncodesItems h entries items) : EncodesItems h entries' items := by
  induction items generalizing entries entries' with
  | nil =>
    obtain rfl : entries = [] := hitems
    exact List.length_eq_zero_iff.mp hlength.symm
  | cons item items ih =>
    obtain ⟨n, v, rest, rfl, hv, hrest⟩ := hitems
    cases entries' with
    | nil => simp at hlength
    | cons entry' rest' =>
      obtain ⟨key', v'⟩ := entry'
      rw [List.zip_cons_cons, List.forall_mem_cons] at halike hnames
      obtain ⟨n', rfl⟩ : ∃ n', key' = .number n' := by
        cases key' with
        | number n' => exact ⟨n', rfl⟩
        | _ => exact hnames.1.elim
      exact ⟨n', v', rest', rfl, halike.1 item hv,
        ih halike.2 (Nat.succ.inj hlength) hnames.2 hrest⟩

theorem encodesMembers_of_alike {members : List (String × Json)}
    (halike : ∀ pair ∈ entries.zip entries', ∀ j, Encodes h pair.1.2 j → Encodes h pair.2.2 j)
    (hlength : entries.length = entries'.length)
    (hnames : ∀ pair ∈ entries.zip entries', SameName pair.1.1 pair.2.1)
    (hmembers : EncodesMembers h entries members) : EncodesMembers h entries' members := by
  induction members generalizing entries entries' with
  | nil =>
    obtain rfl : entries = [] := hmembers
    exact List.length_eq_zero_iff.mp hlength.symm
  | cons member members ih =>
    obtain ⟨name, value⟩ := member
    obtain ⟨s, v, rest, rfl, rfl, hv, hrest⟩ := hmembers
    cases entries' with
    | nil => simp at hlength
    | cons entry' rest' =>
      obtain ⟨key', v'⟩ := entry'
      rw [List.zip_cons_cons, List.forall_mem_cons] at halike hnames
      obtain ⟨s', rfl, hs⟩ : ∃ s', key' = .string s' ∧ cString s' = cString s := by
        cases key' with
        | string s' => exact ⟨s', rfl, Eq.symm hnames.1⟩
        | _ => exact hnames.1.elim
      exact ⟨s', v', rest', rfl, hs, halike.1 value hv,
        ih halike.2 (Nat.succ.inj hlength) hnames.2 hrest⟩

theorem Alike.encodes (halike : Alike h v w) : ∀ j, Encodes h v j → Encodes h w j := by
  induction halike with
  | string hs =>
    intro j hj
    cases j with
    | string s =>
      obtain ⟨text, htext, rfl⟩ := hj
      obtain rfl := Value.string.inj htext
      exact ⟨_, rfl, hs.symm⟩
    | _ => simp [Encodes] at hj
  | boolean b => exact fun _ => id
  | number hd =>
    intro j hj
    cases j with
    | number d =>
      obtain ⟨n, hn, rfl, hfinite⟩ := hj
      obtain rfl := Value.number.inj hn
      exact ⟨_, rfl, hd.symm, hfinite⟩
    | _ => simp [Encodes] at hj
  | table hlength hnames _ ih =>
    intro j hj
    cases j with
    | null =>
      obtain ⟨_, ht, hempty⟩ := hj
      obtain rfl := Value.table.inj ht
      exact ⟨_, rfl, List.length_eq_zero_iff.mp (hlength ▸ hempty ▸ rfl)⟩
    | array items =>
      obtain ⟨_, ht, hne, hitems⟩ := hj
      obtain rfl := Value.table.inj ht
      exact ⟨_, rfl, hne, encodesItems_of_alike ih hlength hnames hitems⟩
    | object members =>
      obtain ⟨_, ht, hne, hmembers⟩ := hj
      obtain rfl := Value.table.inj ht
      exact ⟨_, rfl, hne, encodesMembers_of_alike ih hlength hnames hmembers⟩
    | bool | number | string => simp [Encodes] at hj

end Alike

mutual
theorem alike_of_encodes : (j : Json) → {v w : Value} → Encodes h v j → Encodes h w j → Alike h v w
  | .null, _, _, hv, hw => by
    obtain ⟨t, rfl, ht⟩ := hv
    obtain ⟨t', rfl, ht'⟩ := hw
    exact .table (by rw [ht, ht']) (by simp [ht]) (by simp [ht])
  | .bool b, _, _, hv, hw => by
    obtain rfl : _ = Value.boolean b := hv
    obtain rfl : _ = Value.boolean b := hw
    exact .boolean b
  | .number d, _, _, hv, hw => by
    obtain ⟨m, rfl, hm, -⟩ := hv
    obtain ⟨n, rfl, hn, -⟩ := hw
    exact .number (hm.trans hn.symm)
  | .string s, _, _, hv, hw => by
    obtain ⟨text, rfl, htext⟩ := hv
    obtain ⟨text', rfl, htext'⟩ := hw
    exact .string (htext.trans htext'.symm)
  | .array items, _, _, hv, hw => by
    obtain ⟨t, rfl, -, hitems⟩ := hv
    obtain ⟨t', rfl, -, hitems'⟩ := hw
    obtain ⟨hlength, hpairs⟩ := alike_of_encodesItems items hitems hitems'
    exact .table hlength (fun pair hmem => (hpairs pair hmem).1)
      fun pair hmem => (hpairs pair hmem).2
  | .object members, _, _, hv, hw => by
    obtain ⟨t, rfl, -, hmembers⟩ := hv
    obtain ⟨t', rfl, -, hmembers'⟩ := hw
    obtain ⟨hlength, hpairs⟩ := alike_of_encodesMembers members hmembers hmembers'
    exact .table hlength (fun pair hmem => (hpairs pair hmem).1)
      fun pair hmem => (hpairs pair hmem).2
theorem alike_of_encodesItems : (items : List Json) → {entries entries' : Table} →
    EncodesItems h entries items → EncodesItems h entries' items →
      entries.length = entries'.length ∧
        ∀ pair ∈ entries.zip entries', SameName pair.1.1 pair.2.1 ∧ Alike h pair.1.2 pair.2.2
  | [], _, _, hitems, hitems' => by
    obtain rfl : _ = [] := hitems
    obtain rfl : _ = [] := hitems'
    exact ⟨rfl, List.forall_mem_nil _⟩
  | item :: items, _, _, hitems, hitems' => by
    obtain ⟨n, v, rest, rfl, hv, hrest⟩ := hitems
    obtain ⟨n', v', rest', rfl, hv', hrest'⟩ := hitems'
    obtain ⟨hlength, hpairs⟩ := alike_of_encodesItems items hrest hrest'
    refine ⟨congrArg (· + 1) hlength, ?_⟩
    rw [List.zip_cons_cons, List.forall_mem_cons]
    exact ⟨⟨trivial, alike_of_encodes item hv hv'⟩, hpairs⟩
theorem alike_of_encodesMembers : (members : List (String × Json)) →
    {entries entries' : Table} → EncodesMembers h entries members →
      EncodesMembers h entries' members → entries.length = entries'.length ∧
        ∀ pair ∈ entries.zip entries', SameName pair.1.1 pair.2.1 ∧ Alike h pair.1.2 pair.2.2
  | [], _, _, hmembers, hmembers' => by
    obtain rfl : _ = [] := hmembers
    obtain rfl : _ = [] := hmembers'
    exact ⟨rfl, List.forall_mem_nil _⟩
  | (name, value) :: members, _, _, hmembers, hmembers' => by
    obtain ⟨s, v, rest, rfl, hs, hv, hrest⟩ := hmembers
    obtain ⟨s', v', rest', rfl, hs', hv', hrest'⟩ := hmembers'
    obtain ⟨hlength, hpairs⟩ := alike_of_encodesMembers members hrest hrest'
    refine ⟨congrArg (· + 1) hlength, ?_⟩
    rw [List.zip_cons_cons, List.forall_mem_cons]
    exact ⟨⟨hs.trans hs'.symm, alike_of_encodes value hv hv'⟩, hpairs⟩
end

theorem IsSequence.number (hsequence : IsSequence entries) :
    ∀ entry ∈ entries, entry.1.type = .number := by
  intro entry hmem
  have hkey := hsequence.2.subset (List.mem_map_of_mem hmem)
  obtain ⟨i, -, hi⟩ := List.mem_map.mp hkey
  rw [← hi]
  rfl

theorem serializable_inReach (hreach : u ∈ InReach (Contains h) t)
    (ht : Serializable h (.table t)) : Serializable h (.table u) := by
  induction hreach with
  | refl => exact ht
  | tail _ hcontains ih =>
    obtain ⟨key, hmem⟩ := hcontains
    cases ih with
    | table hkind hvalues => exact hvalues _ hmem

theorem KeepsOrder.visitedInOrder (hJ : J.Strict) (hh : h.Lawful) (hkeeps : KeepsOrder J h t) :
    VisitedInOrder h t := by
  intro u hu hsequence i entry hentry
  obtain ⟨items, hwrites, -, hkeys⟩ := hkeeps u hu hsequence
  obtain ⟨_, heq, -, hitems⟩ := (writes_iff hJ hh).mp hwrites
  obtain rfl := Value.table.inj heq
  obtain ⟨item, hitem, hv⟩ := hitems.exists_part hentry
  exact alike_of_encodes item hv ((writes_iff hJ hh).mp (hkeys i item hitem))

/-- The order is kept exactly where the values are visited in the order of their keys, or the
ones that stand in each other's place look the same. -/
theorem keepsOrder_iff (hJ : J.Strict) (hh : h.Lawful) (ht : Serializable h (.table t)) :
    KeepsOrder J h t ↔ VisitedInOrder h t := by
  refine ⟨KeepsOrder.visitedInOrder hJ hh, fun hordered u hu hsequence => ?_⟩
  cases serializable_inReach hu ht with
  | table _ hvalues =>
    obtain ⟨items, hitems, hnil⟩ := exists_encodesItems hsequence.number
      fun entry hmem => (hvalues entry hmem).exists_encodes
    refine ⟨items, (writes_iff hJ hh).mpr ⟨u, rfl, mt hnil.mp hsequence.1, hitems⟩,
      hitems.length_eq, fun i item hitem => ?_⟩
    have hlt : i < (h.entries u).length :=
      hitems.length_eq ▸ (List.getElem?_eq_some_iff.mp hitem).1
    have hentry := List.getElem?_eq_getElem hlt
    obtain ⟨item', hitem', hv⟩ := hitems.exists_part hentry
    obtain rfl := Option.some.inj (hitem'.symm.trans hitem)
    exact (writes_iff hJ hh).mpr ((hordered u hu hsequence i _ hentry).encodes item' hv)

theorem visitedInOrder_of_keys (hh : h.Lawful) (ht : Serializable h (.table t))
    (hkeys : ∀ u ∈ InReach (Contains h) t, IsSequence (h.entries u) →
      (h.entries u).map Prod.fst = (List.range' 1 (h.entries u).length).map sequenceKey) :
    VisitedInOrder h t := by
  intro u hu hsequence i entry hentry
  have hmem := List.mem_of_getElem? hentry
  have hkey : ((h.entries u).map Prod.fst)[i]? = some entry.1 := by
    rw [List.getElem?_map, hentry, Option.map_some]
  rw [hkeys u hu hsequence] at hkey
  obtain ⟨k, hk, hkey⟩ : ∃ k, (List.range' 1 (h.entries u).length)[i]? = some k ∧
      sequenceKey k = entry.1 := by simpa using hkey
  obtain rfl : i + 1 = k := by
    simpa [List.getElem?_range', (List.getElem?_eq_some_iff.mp hentry).1, Nat.add_comm] using hk
  rw [hkey, Table.get_of_mem (hh.entries u).1 hmem]
  cases serializable_inReach hu ht with
  | table _ hvalues =>
    obtain ⟨j, hj⟩ := (hvalues entry hmem).exists_encodes
    exact alike_of_encodes j hj hj

/-- The table constructor `{[2]='b', [1]='a'}`, visited as it is written. -/
def backwards : Heap :=
  [[(.number (.integer 2), .string "b"), (.number (.integer 1), .string "a")]]

theorem backwards_is_reversed : IsSequence (backwards.entries 0) ∧
    Writes textLibrary backwards (.table 0) (.array [.string "b", .string "a"]) ∧
    ¬ KeepsOrder textLibrary backwards 0 := by
  have hsequence : IsSequence (backwards.entries 0) := by decide
  have hencodes : Encodes backwards (.table 0) (.array [.string "b", .string "a"]) :=
    ⟨0, rfl, nofun, .integer 2, .string "b", _, rfl, ⟨"b", rfl, rfl⟩,
      .integer 1, .string "a", [], rfl, ⟨"a", rfl, rfl⟩, rfl⟩
  refine ⟨hsequence, (writes_iff textLibrary_strict (by decide)).mpr hencodes, fun hkeeps => ?_⟩
  have hfirst := hkeeps.visitedInOrder textLibrary_strict (by decide) 0 .refl hsequence 0 _ rfl
  cases hfirst with
  | string hs => exact absurd hs (by decide)

def forwards : Heap :=
  [[(.number (.integer 1), .table 1), (.number (.integer 2), .string "b")],
    [(.number (.integer 1), .boolean true)]]

theorem forwards_keeps_order : KeepsOrder textLibrary forwards 0 := by
  have hinner : Serializable forwards (.table 1) := .table (by decide) (by
    simpa [forwards, Heap.entries] using .boolean true)
  have hlist : Serializable forwards (.table 0) := .table (by decide) (by
    simpa [forwards, Heap.entries] using ⟨hinner, .string "b"⟩)
  refine (keepsOrder_iff textLibrary_strict (by decide) hlist).mpr ?_
  refine visitedInOrder_of_keys (by decide) hlist fun u hu _ => ?_
  obtain rfl | rfl : u = 0 ∨ u = 1 := by simpa [references, forwards] using inReach_cases hu
  · rfl
  · rfl

end LambdaExecutor.Lua.Serializer
