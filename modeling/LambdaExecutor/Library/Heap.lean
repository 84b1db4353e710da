import Mathlib.Algebra.GroupWithZero.Nat
import Mathlib.Data.List.AList

/-!
# The blocks of a C heap

The live blocks with their sizes, under `free` and `realloc`. Which address
`realloc` gives, and whether it gives one, is decided outside: it is an
argument here. `total` is the number of bytes in live blocks.
-/

abbrev Ptr := Nat

abbrev Blocks := AList fun _ : Ptr => Nat

namespace Blocks

def total (h : Blocks) : Nat := (h.entries.map Sigma.snd).sum

def free (h : Blocks) : Option Ptr → Blocks
  | none => h
  | some p => h.erase p

/-- `realloc(ptr, size)` whose result is `result`; a failed call leaves the old block. -/
def realloc (h : Blocks) (ptr : Option Ptr) (size : Nat) : Option Ptr → Blocks
  | none => h
  | some q => (h.free ptr).insert q size

/-- `ptr` is null or a live block of `size` bytes. -/
def Owns (h : Blocks) (ptr : Option Ptr) (size : Nat) : Prop := ∀ p ∈ ptr, h.lookup p = some size

/-- The address of a new block is not that of a live one, unless it is `ptr` itself. -/
def Fits (h : Blocks) (ptr result : Option Ptr) : Prop := ∀ q ∈ result, q ∉ h.free ptr

instance (h : Blocks) (ptr : Option Ptr) (size : Nat) : Decidable (h.Owns ptr size) :=
  inferInstanceAs (Decidable (∀ p ∈ ptr, h.lookup p = some size))

instance (h : Blocks) (ptr result : Option Ptr) : Decidable (h.Fits ptr result) :=
  inferInstanceAs (Decidable (∀ q ∈ result, q ∉ h.free ptr))

def sizeOf (ptr : Option Ptr) (size : Nat) : Nat := if ptr.isSome then size else 0

@[simp] theorem sizeOf_none (size : Nat) : sizeOf none size = 0 := rfl
@[simp] theorem sizeOf_some (p : Ptr) (size : Nat) : sizeOf (some p) size = size := rfl

theorem total_erase {h : Blocks} {p : Ptr} {size : Nat} (hp : h.lookup p = some size) :
    total (h.erase p) + size = h.total := by
  obtain ⟨size', before, after, -, hentries, hkerase⟩ :=
    List.exists_of_kerase (AList.lookup_isSome.mp (by rw [hp]; rfl) : p ∈ h)
  have hmem : size' ∈ h.lookup p := AList.mem_lookup_iff.mpr (by rw [hentries]; simp)
  obtain rfl : size = size' := Option.some.inj (hp.symm.trans hmem)
  have herase : (h.erase p).entries = before ++ after := hkerase
  simp only [total, herase, hentries, List.map_append, List.map_cons, List.sum_append,
    List.sum_cons]
  omega

theorem total_insert {h : Blocks} {q : Ptr} (hq : q ∉ h) (size : Nat) :
    total (h.insert q size) = size + h.total := by
  simp only [total, AList.entries_insert_of_notMem hq, List.map_cons, List.sum_cons]

theorem total_free {h : Blocks} {ptr : Option Ptr} {size : Nat} (hp : h.Owns ptr size) :
    (h.free ptr).total + sizeOf ptr size = h.total := by
  cases ptr with
  | none => rfl
  | some p => exact total_erase (hp p rfl)

theorem total_realloc {h : Blocks} {ptr : Option Ptr} {q : Ptr} {old : Nat} (hp : h.Owns ptr old)
    (hq : h.Fits ptr (some q)) (size : Nat) :
    (h.realloc ptr size (some q)).total + sizeOf ptr old = h.total + size := by
  have hfree := total_free hp
  have hinsert := total_insert (hq q rfl) size
  simp only [realloc, hinsert]
  omega

end Blocks
