import LambdaExecutor.Library.Sql

/-!
# Constraints between tables

`UNIQUE` columns and foreign keys with `ON DELETE CASCADE`, over tables with a primary
key. A column is a function of the row; `none` is `NULL`, which neither conflicts with
a value nor refers to a row. What a statement has to check, and which rows it deletes,
is what keeps the constraints.
-/

namespace Sql

variable {κ κ' α β : Type} [DecidableEq κ]

-- ---------------------------------------------------------------------------
-- The statements
-- ---------------------------------------------------------------------------

/-- `DELETE .. WHERE p`. -/
def deleteRows (p : κ → α → Bool) (t : Table κ α) : Table κ α :=
  ⟨t.entries.filter fun row => !p row.1 row.2, t.nodupKeys.sublist List.filter_sublist⟩

/-- No row but that of `k` has the value of the column that `a` has. -/
def fitsUnique [DecidableEq β] (column : α → Option β) (k : κ) (a : α) (t : Table κ α) : Bool :=
  t.entries.all fun row => row.1 = k || column row.2 = none || column row.2 ≠ column a

def fitsReference [DecidableEq κ'] (column : Option κ') (referenced : Table κ' β) : Bool :=
  column.all fun k => decide (k ∈ referenced)

/-- `ON DELETE CASCADE`: the rows go whose column refers to a row that goes. -/
def cascade (column : κ → α → Option κ') (gone : κ' → Bool) (t : Table κ α) : Table κ α :=
  deleteRows (fun k a => (column k a).any gone) t

-- ---------------------------------------------------------------------------
-- The constraints
-- ---------------------------------------------------------------------------

def Unique (column : α → Option β) (t : Table κ α) : Prop :=
  ∀ k k' a a' b, t.lookup k = some a → t.lookup k' = some a' →
    column a = some b → column a' = some b → k = k'

def References (column : κ → α → Option κ') (t : Table κ α) (referenced : Table κ' β) : Prop :=
  ∀ k a k', t.lookup k = some a → column k a = some k' → k' ∈ referenced

section
variable {t : Table κ α} {p : κ → α → Bool} {k other : κ} {a : α}

theorem lookup_deleteRows_eq_some :
    (deleteRows p t).lookup k = some a ↔ t.lookup k = some a ∧ p k a = false := by
  rw [← Option.mem_def, ← Option.mem_def, AList.mem_lookup_iff, AList.mem_lookup_iff]
  simp [deleteRows]

theorem lookup_of_deleteRows (h : (deleteRows p t).lookup k = some a) : t.lookup k = some a :=
  (lookup_deleteRows_eq_some.mp h).1

theorem mem_deleteRows_iff :
    k ∈ deleteRows p t ↔ ∃ a, t.lookup k = some a ∧ p k a = false := by
  rw [← AList.lookup_isSome, Option.isSome_iff_exists]
  exact exists_congr fun a => lookup_deleteRows_eq_some

theorem lookup_insert_cases {a' : α} (h : (t.insert k a).lookup other = some a') :
    (other = k ∧ a' = a) ∨ (other ≠ k ∧ t.lookup other = some a') := by
  by_cases hk : other = k
  · subst hk
    rw [AList.lookup_insert] at h
    exact .inl ⟨rfl, (Option.some.inj h).symm⟩
  · rw [AList.lookup_insert_ne hk] at h
    exact .inr ⟨hk, h⟩

theorem fitsUnique_iff [DecidableEq β] {column : α → Option β} :
    fitsUnique column k a t ↔ ∀ other a' b, t.lookup other = some a' → column a' = some b →
      column a = some b → other = k := by
  have hentries : fitsUnique column k a t ↔ ∀ row ∈ t.entries,
      row.1 = k ∨ column row.2 = none ∨ column row.2 ≠ column a := by
    simp [fitsUnique, or_assoc]
  rw [hentries]
  constructor
  · intro h other a' b hrow hb hsame
    rcases h ⟨other, a'⟩ (AList.mem_lookup_iff.mp hrow) with hk | hnone | hne
    · exact hk
    · exact absurd (hb.symm.trans hnone) (Option.some_ne_none b)
    · exact absurd (hb.trans hsame.symm) hne
  · rintro h ⟨other, a'⟩ hmem
    cases hb : column a' with
    | none => exact .inr (.inl rfl)
    | some b =>
      by_cases hsame : column a = some b
      · exact .inl (h other a' b (AList.mem_lookup_iff.mpr hmem) hb hsame)
      · exact .inr (.inr (Ne.symm hsame))

theorem fitsReference_iff [DecidableEq κ'] {column : Option κ'} {referenced : Table κ' β} :
    fitsReference column referenced ↔ ∀ k, column = some k → k ∈ referenced := by
  cases column <;> simp [fitsReference]

end

-- ---------------------------------------------------------------------------
-- What keeps a UNIQUE column
-- ---------------------------------------------------------------------------

section
variable {t : Table κ α} {column : α → Option β} {k : κ} {a : α}

theorem unique_empty : Unique column (∅ : Table κ α) :=
  fun _ _ _ _ _ h => by cases h

theorem Unique.insert [DecidableEq β] (h : Unique column t) (hfits : fitsUnique column k a t) :
    Unique column (t.insert k a) := by
  have hclash := fitsUnique_iff.mp hfits
  intro j j' b b' c hj hj' hb hb'
  rcases lookup_insert_cases hj with ⟨rfl, rfl⟩ | ⟨-, hold⟩ <;>
    rcases lookup_insert_cases hj' with ⟨rfl, rfl⟩ | ⟨-, hold'⟩
  · rfl
  · exact (hclash j' b' c hold' hb' hb).symm
  · exact hclash j b c hold hb hb'
  · exact h j j' b b' c hold hold' hb hb'

theorem Unique.deleteRows (h : Unique column t) (p : κ → α → Bool) :
    Unique column (deleteRows p t) :=
  fun j j' b b' c hj hj' =>
    h j j' b b' c (lookup_of_deleteRows hj) (lookup_of_deleteRows hj')

end

-- ---------------------------------------------------------------------------
-- What keeps a foreign key
-- ---------------------------------------------------------------------------

section
variable {t : Table κ α} {referenced : Table κ' β} {column : κ → α → Option κ'} {k : κ} {a : α}

theorem references_empty : References column (∅ : Table κ α) referenced :=
  fun _ _ _ h => by cases h

theorem References.insert [DecidableEq κ'] (h : References column t referenced)
    (hfits : fitsReference (column k a) referenced) :
    References column (t.insert k a) referenced := by
  intro j b k' hj hb
  rcases lookup_insert_cases hj with ⟨rfl, rfl⟩ | ⟨-, hold⟩
  · exact fitsReference_iff.mp hfits k' hb
  · exact h j b k' hold hb

theorem References.deleteRows (h : References column t referenced) (p : κ → α → Bool) :
    References column (deleteRows p t) referenced :=
  fun j b k' hj => h j b k' (lookup_of_deleteRows hj)

theorem References.mono {referenced' : Table κ' β} (h : References column t referenced)
    (hsub : ∀ k, k ∈ referenced → k ∈ referenced') : References column t referenced' :=
  fun j b k' hj hb => hsub k' (h j b k' hj hb)

theorem References.cascade (h : References column t referenced) {gone : κ' → Bool}
    {referenced' : Table κ' β} (hkept : ∀ k, k ∈ referenced → gone k = false → k ∈ referenced') :
    References column (cascade column gone t) referenced' := by
  intro j b k' hj hb
  obtain ⟨hold, hstays⟩ := lookup_deleteRows_eq_some.mp hj
  rw [hb] at hstays
  exact hkept k' (h j b k' hold hb) hstays

end

end Sql
