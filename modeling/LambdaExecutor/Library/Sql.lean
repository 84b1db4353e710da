import Mathlib.Data.List.AList

/-!
# Tables with a primary key

The statements of SQL that name one row by its primary key, each with the number
of rows affected. A table is an `AList`: no two rows have the same key. Every
statement is atomic: it is one function of the table.
-/

namespace Sql

variable {κ α : Type} [DecidableEq κ]

abbrev Table (κ α : Type) := AList fun _ : κ => α

/-- `INSERT .. ON CONFLICT (key) DO UPDATE`. -/
def insertOrUpdate (k : κ) (a : α) (t : Table κ α) : Nat × Table κ α := (1, t.insert k a)

/-- `INSERT .. ON CONFLICT DO NOTHING`. -/
def insertOrNothing (k : κ) (a : α) (t : Table κ α) : Nat × Table κ α :=
  if k ∈ t then (0, t) else (1, t.insert k a)

def deleteWhere (k : κ) (t : Table κ α) : Nat × Table κ α :=
  if k ∈ t then (1, t.erase k) else (0, t)

def selectWhere (k : κ) (t : Table κ α) : List α := (t.lookup k).toList

theorem insertOrNothing_of_mem {k : κ} {a : α} {t : Table κ α} (h : k ∈ t) :
    insertOrNothing k a t = (0, t) := if_pos h

theorem insertOrNothing_of_not_mem {k : κ} {a : α} {t : Table κ α} (h : k ∉ t) :
    insertOrNothing k a t = (1, t.insert k a) := if_neg h

theorem mem_deleteWhere {k other : κ} {t : Table κ α} :
    other ∈ (deleteWhere k t).2 ↔ other ≠ k ∧ other ∈ t := by
  unfold deleteWhere
  split
  · exact AList.mem_erase
  · next hk =>
    constructor
    · exact fun h => ⟨fun he => hk (he ▸ h), h⟩
    · exact And.right

end Sql
