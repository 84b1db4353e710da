import Mathlib.Data.List.Basic

/-!
# Maps which may forget entries

The interface of a bounded cache: a lookup gives the last value put under a key
or nothing, and putting a key may forget any entry. Looking a key up may change
the state (the order of use) but not the entries. `lru` is the
least-recently-used map of a given capacity; it satisfies the interface.
-/

structure EvictingMap (K V : Type) where
  State : Type
  empty : State
  contents : State → K → Option V
  get : State → K → Option V × State
  put : State → K → V → State
  contents_empty : ∀ k, contents empty k = none
  get_value : ∀ s k, (get s k).1 = contents s k
  get_contents : ∀ s k, contents (get s k).2 = contents s
  put_self : ∀ s k v, contents (put s k v) k = some v ∨ contents (put s k v) k = none
  put_other : ∀ s k v other, other ≠ k →
    contents (put s k v) other = contents s other ∨ contents (put s k v) other = none

namespace EvictingMap

attribute [simp] contents_empty get_value get_contents

theorem put_cases {K V : Type} (M : EvictingMap K V) {s : M.State} {k other : K} {v w : V}
    (h : M.contents (M.put s k v) other = some w) :
    (other = k ∧ w = v) ∨ (other ≠ k ∧ M.contents s other = some w) := by
  by_cases hk : other = k
  · subst hk
    rcases M.put_self s other v with hs | hs <;> rw [hs] at h
    · exact .inl ⟨rfl, (Option.some.inj h).symm⟩
    · cases h
  · rcases M.put_other s k v other hk with hs | hs <;> rw [hs] at h
    · exact .inr ⟨hk, h⟩
    · cases h

-- ---------------------------------------------------------------------------
-- The least-recently-used map
-- ---------------------------------------------------------------------------

section Lru
variable {K V : Type} [DecidableEq K]

/-- Entries in order of use, the most recent one first. -/
abbrev Entries (K V : Type) := List (K × V)

def Entries.find (entries : Entries K V) (k : K) : Option V :=
  (entries.find? (·.1 = k)).map Prod.snd

def Entries.touch (entries : Entries K V) (k : K) : Entries K V :=
  match entries.find k with
  | some v => (k, v) :: entries.filter (·.1 ≠ k)
  | none => entries

def Entries.insert (capacity : Nat) (entries : Entries K V) (k : K) (v : V) : Entries K V :=
  ((k, v) :: entries.filter (·.1 ≠ k)).take capacity

theorem Entries.find_cons (entry : K × V) (entries : Entries K V) (k : K) :
    Entries.find (entry :: entries) k = if entry.1 = k then some entry.2 else entries.find k := by
  by_cases h : entry.1 = k <;> simp [Entries.find, h]

theorem Entries.find_filter (entries : Entries K V) {k other : K} (h : other ≠ k) :
    Entries.find (entries.filter (·.1 ≠ k)) other = entries.find other := by
  induction entries with
  | nil => rfl
  | cons entry rest ih =>
    by_cases hk : entry.1 = k
    · have hne : entry.1 ≠ other := fun ho => h (ho ▸ hk)
      rw [List.filter_cons_of_neg (by simpa using hk), ih, find_cons, if_neg hne]
    · rw [List.filter_cons_of_pos (by simpa using hk), find_cons, find_cons, ih]

theorem Entries.find_take (entries : Entries K V) (n : Nat) (k : K) :
    Entries.find (entries.take n) k = entries.find k ∨ Entries.find (entries.take n) k = none := by
  induction entries generalizing n with
  | nil => simp
  | cons entry rest ih =>
    cases n with
    | zero => exact .inr rfl
    | succ n =>
      rw [List.take_succ_cons, find_cons, find_cons]
      split
      · exact .inl rfl
      · exact ih n

theorem Entries.find_touch (entries : Entries K V) (k other : K) :
    Entries.find (entries.touch k) other = entries.find other := by
  unfold touch
  split
  next v hv =>
    rw [find_cons]
    split
    next h => rw [← h, hv]
    next h => exact find_filter entries (Ne.symm h)
  next => rfl

variable (K V) in
def lru (capacity : Nat) : EvictingMap K V where
  State := Entries K V
  empty := []
  contents := Entries.find
  get entries k := (entries.find k, entries.touch k)
  put := Entries.insert capacity
  contents_empty _ := rfl
  get_value _ _ := rfl
  get_contents entries k := funext fun other => entries.find_touch k other
  put_self entries k v := by
    have h := Entries.find_take ((k, v) :: entries.filter (·.1 ≠ k)) capacity k
    rwa [Entries.find_cons, if_pos rfl] at h
  put_other entries k v other hne := by
    have h := Entries.find_take ((k, v) :: entries.filter (·.1 ≠ k)) capacity other
    rwa [Entries.find_cons, if_neg (Ne.symm hne), Entries.find_filter entries hne] at h

end Lru

end EvictingMap
