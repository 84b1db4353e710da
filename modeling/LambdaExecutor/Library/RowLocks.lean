import Mathlib.Logic.Function.Basic

/-!
# Row locks

Transactions that lock a row before they write it and hold the lock until they
end. `rows` is what is committed, `written` the version that the holder of a row
has written. An operation which would have to wait for a lock gives `none`.
-/

namespace RowLocks

variable {κ α τ : Type}

structure Db (κ α τ : Type) where
  rows : κ → Option α
  holder : κ → Option τ
  written : κ → Option α

namespace Db

section
variable [DecidableEq κ] [DecidableEq τ]

def init (rows : κ → Option α) : Db κ α τ where
  rows
  holder _ := none
  written _ := none

/-- The newest version of a row, which its holder sees. -/
def current (db : Db κ α τ) (k : κ) : Option α := (db.written k).or (db.rows k)

def Grants (db : Db κ α τ) (t : τ) (k : κ) : Prop := db.holder k = none ∨ db.holder k = some t

instance (db : Db κ α τ) (t : τ) (k : κ) : Decidable (db.Grants t k) :=
  inferInstanceAs (Decidable (_ ∨ _))

def lock (db : Db κ α τ) (t : τ) (k : κ) : Db κ α τ :=
  { db with holder := Function.update db.holder k (some t) }

def write (db : Db κ α τ) (k : κ) (a : α) : Db κ α τ :=
  { db with written := Function.update db.written k (some a) }

/-- `SELECT .. WHERE key = k FOR UPDATE`, with the row as it is locked. -/
def selectForUpdate (db : Db κ α τ) (t : τ) (k : κ) : Option (Option α × Db κ α τ) :=
  match db.rows k with
  | none => some (none, db)
  | some _ => if db.Grants t k then some (db.current k, db.lock t k) else none

/-- `UPDATE .. WHERE key = k`; the inner `none` is a new version that is refused. -/
def updateWhere (db : Db κ α τ) (t : τ) (k : κ) (f : α → Option α) : Option (Option (Db κ α τ)) :=
  match db.rows k with
  | none => some (some db)
  | some _ =>
    if db.Grants t k then
      some (((db.current k).bind f).map fun a => (db.lock t k).write k a)
    else none

def commit (db : Db κ α τ) (t : τ) : Db κ α τ where
  rows k := if db.holder k = some t then db.current k else db.rows k
  holder k := if db.holder k = some t then none else db.holder k
  written k := if db.holder k = some t then none else db.written k

def abort (db : Db κ α τ) (t : τ) : Db κ α τ where
  rows := db.rows
  holder k := if db.holder k = some t then none else db.holder k
  written k := if db.holder k = some t then none else db.written k

/-- Only the holder of a row has written it. -/
def Sound (db : Db κ α τ) : Prop := ∀ k, db.holder k = none → db.written k = none

/-- A transaction changes only rows that nobody else holds. -/
def ChangesOwn (t : τ) (db db' : Db κ α τ) : Prop := ∀ k,
  (db'.rows k = db.rows k ∧ db'.holder k = db.holder k ∧ db'.written k = db.written k) ∨
    (db.Grants t k ∧ db'.Grants t k)

end

variable {db db' : Db κ α τ} {t : τ} {k : κ} {row : Option α} {f : α → Option α}

theorem sound_init (rows : κ → Option α) : (init rows : Db κ α τ).Sound := fun _ _ => rfl

theorem ChangesOwn.refl (t : τ) (db : Db κ α τ) : ChangesOwn t db db :=
  fun _ => .inl ⟨rfl, rfl, rfl⟩

theorem ChangesOwn.held {other : τ} (h : ChangesOwn t db db') (hne : other ≠ t) :
    (db'.holder k = some other ↔ db.holder k = some other) ∧
      (db.holder k = some other → db'.rows k = db.rows k ∧ db'.written k = db.written k) := by
  have hfree : ∀ d : Db κ α τ, d.Grants t k → d.holder k ≠ some other := by
    rintro d (hd | hd) hother
    · exact nomatch hd.symm.trans hother
    · exact hne (Option.some.inj (hother.symm.trans hd))
  rcases h k with ⟨hrows, hholder, hwritten⟩ | ⟨hbefore, hafter⟩
  · exact ⟨by rw [hholder], fun _ => ⟨hrows, hwritten⟩⟩
  · refine ⟨iff_of_false (hfree _ hafter) (hfree _ hbefore), fun hother => ?_⟩
    exact absurd hother (hfree _ hbefore)

-- ---------------------------------------------------------------------------
-- Locking and writing
-- ---------------------------------------------------------------------------

section
variable [DecidableEq κ]

@[simp] theorem lock_holder_self : (db.lock t k).holder k = some t := Function.update_self ..

theorem lock_holder_ne {other : κ} (h : other ≠ k) :
    (db.lock t k).holder other = db.holder other := Function.update_of_ne h ..

@[simp] theorem write_written_self (a : α) : (db.write k a).written k = some a :=
  Function.update_self ..

theorem write_written_ne {other : κ} (h : other ≠ k) (a : α) :
    (db.write k a).written other = db.written other := Function.update_of_ne h ..

theorem Sound.lock (h : db.Sound) (t : τ) (k : κ) : (db.lock t k).Sound := by
  intro other hother
  by_cases hk : other = k
  · subst hk
    exact nomatch lock_holder_self.symm.trans hother
  · exact h other ((lock_holder_ne hk).symm.trans hother)

theorem Sound.write (h : db.Sound) (hheld : db.holder k ≠ none) (a : α) : (db.write k a).Sound := by
  intro other hother
  have hk : other ≠ k := by
    rintro rfl
    exact hheld hother
  exact (write_written_ne hk a).trans (h other hother)

theorem changesOwn_lock (h : db.Grants t k) : ChangesOwn t db (db.lock t k) := by
  intro other
  by_cases hk : other = k
  · subst hk
    exact .inr ⟨h, .inr lock_holder_self⟩
  · exact .inl ⟨rfl, lock_holder_ne hk, rfl⟩

theorem changesOwn_write (h : db.Grants t k) (a : α) :
    ChangesOwn t db ((db.lock t k).write k a) := by
  intro other
  by_cases hk : other = k
  · subst hk
    exact .inr ⟨h, .inr lock_holder_self⟩
  · exact .inl ⟨rfl, lock_holder_ne hk, write_written_ne hk a⟩

end

-- ---------------------------------------------------------------------------
-- The end of a transaction
-- ---------------------------------------------------------------------------

section
variable [DecidableEq τ]

theorem commit_rows_held (h : db.holder k = some t) : (db.commit t).rows k = db.current k :=
  if_pos h

theorem commit_rows_free (h : db.holder k ≠ some t) : (db.commit t).rows k = db.rows k := if_neg h

theorem rows_of_commit {a : α} (h : (db.commit t).rows k = some a) :
    db.rows k = some a ∨ db.written k = some a := by
  by_cases hk : db.holder k = some t
  · rw [commit_rows_held hk, current] at h
    cases hwritten : db.written k with
    | none => exact .inl (by simpa [hwritten] using h)
    | some b => exact .inr (by simpa [hwritten] using h)
  · exact .inl ((commit_rows_free hk).symm.trans h)

theorem written_of_commit {a : α} (h : (db.commit t).written k = some a) :
    db.written k = some a := by
  by_cases hk : db.holder k = some t
  · exact nomatch (if_pos hk).symm.trans h
  · exact (if_neg hk).symm.trans h

theorem holder_commit : (db.commit t).holder k ≠ some t := by
  by_cases hk : db.holder k = some t
  · simp [commit, hk]
  · simp [commit, hk]

theorem holder_abort : (db.abort t).holder k ≠ some t := holder_commit

theorem Sound.release (h : db.Sound) {released : Db κ α τ}
    (hholder : ∀ k, released.holder k = if db.holder k = some t then none else db.holder k)
    (hwritten : ∀ k, released.written k = if db.holder k = some t then none else db.written k) :
    released.Sound := by
  intro k hk
  rw [hholder] at hk
  rw [hwritten]
  split
  · rfl
  · next hheld => exact h k (by simpa [hheld] using hk)

theorem Sound.commit (h : db.Sound) (t : τ) : (db.commit t).Sound :=
  h.release (fun _ => rfl) fun _ => rfl

theorem Sound.abort (h : db.Sound) (t : τ) : (db.abort t).Sound :=
  h.release (fun _ => rfl) fun _ => rfl

theorem changesOwn_commit (db : Db κ α τ) (t : τ) : ChangesOwn t db (db.commit t) := by
  intro k
  by_cases hk : db.holder k = some t
  · exact .inr ⟨.inr hk, .inl (if_pos hk)⟩
  · exact .inl ⟨if_neg hk, if_neg hk, if_neg hk⟩

theorem changesOwn_abort (db : Db κ α τ) (t : τ) : ChangesOwn t db (db.abort t) := by
  intro k
  by_cases hk : db.holder k = some t
  · exact .inr ⟨.inr hk, .inl (if_pos hk)⟩
  · exact .inl ⟨rfl, if_neg hk, if_neg hk⟩

end

-- ---------------------------------------------------------------------------
-- The statements
-- ---------------------------------------------------------------------------

section
variable [DecidableEq κ] [DecidableEq τ]

theorem selectForUpdate_cases (h : db.selectForUpdate t k = some (row, db')) :
    (db.rows k = none ∧ row = none ∧ db' = db) ∨
    ∃ a, db.rows k = some a ∧ db.Grants t k ∧ row = db.current k ∧ db' = db.lock t k := by
  unfold selectForUpdate at h
  cases hrow : db.rows k with
  | none =>
    simp only [hrow, Option.some.injEq, Prod.mk.injEq] at h
    exact .inl ⟨rfl, h.1.symm, h.2.symm⟩
  | some a =>
    simp only [hrow] at h
    split at h
    · next hgrants =>
      obtain ⟨rfl, rfl⟩ := Prod.mk.inj (Option.some.inj h)
      exact .inr ⟨a, rfl, hgrants, rfl, rfl⟩
    · exact nomatch h

theorem updateWhere_held {result : Option (Db κ α τ)} {a : α}
    (h : db.updateWhere t k f = some result) (hrow : db.rows k = some a) :
    result = ((db.current k).bind f).map fun a => (db.lock t k).write k a := by
  simp only [updateWhere, hrow] at h
  split at h
  · exact (Option.some.inj h).symm
  · exact nomatch h

end

end Db

end RowLocks
