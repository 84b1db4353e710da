import Mathlib.Algebra.GroupWithZero.Nat
import Mathlib.Data.List.Basic

/-!
# URLs with a query

The grammar of a URL as far as its query goes: the fragment begins at the first
`#`, the query at the first `?`, its pieces are separated by `&`, and a piece is a
key and a value, separated by its first `=`.
-/

namespace Query

-- ---------------------------------------------------------------------------
-- The first separator
-- ---------------------------------------------------------------------------

section Cut

variable {α : Type*} [DecidableEq α] {separator a : α} {text before : List α}

/-- What is before the first separator, and what is after it if there is one. -/
def cut (separator : α) : List α → List α × Option (List α)
  | [] => ([], none)
  | a :: text =>
    if a = separator then ([], some text)
    else (a :: (cut separator text).1, (cut separator text).2)

theorem cut_cons_self (text : List α) : cut separator (separator :: text) = ([], some text) :=
  if_pos rfl

theorem cut_cons_of_ne (h : a ≠ separator) (text : List α) :
    cut separator (a :: text) = (a :: (cut separator text).1, (cut separator text).2) := if_neg h

theorem cut_of_notMem (h : separator ∉ text) : cut separator text = (text, none) := by
  induction text with
  | nil => rfl
  | cons a text ih =>
    obtain ⟨hne, hrest⟩ := not_or.mp (mt List.mem_cons.mpr h)
    rw [cut_cons_of_ne (Ne.symm hne), ih hrest]

theorem cut_append_cons (h : separator ∉ before) (after : List α) :
    cut separator (before ++ separator :: after) = (before, some after) := by
  induction before with
  | nil => exact cut_cons_self after
  | cons a before ih =>
    obtain ⟨hne, hrest⟩ := not_or.mp (mt List.mem_cons.mpr h)
    rw [List.cons_append, cut_cons_of_ne (Ne.symm hne), ih hrest]

end Cut

-- ---------------------------------------------------------------------------
-- The pairs of a query
-- ---------------------------------------------------------------------------

abbrev Text := List Char

/-- The key and the value of a piece; without `=` the value is empty. -/
def pairOf (piece : Text) : Text × Text := ((cut '=' piece).1, (cut '=' piece).2.getD [])

/-- The pairs of a query, of which the empty pieces are dropped. -/
def pairs (query : Text) : List (Text × Text) :=
  ((query.splitOn '&').filter (· ≠ [])).map pairOf

@[simp] theorem pairs_nil : pairs [] = [] := by simp [pairs]

theorem pairs_append_cons (first second : Text) :
    pairs (first ++ '&' :: second) = pairs first ++ pairs second := by
  simp [pairs, List.splitOn_append_cons_self]

theorem pairs_of_notMem {piece : Text} (h : '&' ∉ piece) (hne : piece ≠ []) :
    pairs piece = [pairOf piece] := by
  simp [pairs, List.splitOn_eq_singleton h, hne]

/-- A query is one piece, or a piece and another query. -/
theorem piece_induction {P : Text → Prop} (last : ∀ piece, '&' ∉ piece → P piece)
    (next : ∀ piece query, '&' ∉ piece → P query → P (piece ++ '&' :: query)) (query : Text) :
    P query := by
  induction hn : query.length using Nat.strongRecOn generalizing query with
  | _ n ih =>
    by_cases h : '&' ∈ query
    · obtain ⟨piece, rest, rfl, hpiece⟩ := List.eq_append_cons_of_mem h
      have hlt : rest.length < n := by
        rw [← hn, List.length_append, List.length_cons]
        omega
      exact next piece rest hpiece (ih rest.length hlt rest rfl)
    · exact last query h

theorem length_pairOf (piece : Text) :
    (pairOf piece).1.length + (pairOf piece).2.length + (if '=' ∈ piece then 1 else 0) =
      piece.length := by
  unfold pairOf
  split
  next h =>
    obtain ⟨key, value, rfl, hkey⟩ := List.eq_append_cons_of_mem h
    rw [cut_append_cons hkey]
    simp only [Option.getD_some, List.length_append, List.length_cons]
    omega
  next h =>
    rw [cut_of_notMem h]
    rfl

-- ---------------------------------------------------------------------------
-- Percent-decoding
-- ---------------------------------------------------------------------------

def hexValue (c : Char) : Option Nat :=
  if '0' ≤ c ∧ c ≤ '9' then some (c.toNat - '0'.toNat)
  else if 'a' ≤ c ∧ c ≤ 'f' then some (c.toNat - 'a'.toNat + 10)
  else if 'A' ≤ c ∧ c ≤ 'F' then some (c.toNat - 'A'.toNat + 10)
  else none

def escape (c a b : Char) : Option Char :=
  if c = '%' then do
    let high ← hexValue a
    let low ← hexValue b
    return Char.ofNat (16 * high + low)
  else none

/-- A `%` which begins no escape stands for itself. -/
def percentDecode : Text → Text
  | c :: a :: b :: text =>
    match escape c a b with
    | some byte => byte :: percentDecode text
    | none => c :: percentDecode (a :: b :: text)
  | text => text

def HasEscape : Text → Prop
  | c :: a :: b :: text => (escape c a b).isSome ∨ HasEscape (a :: b :: text)
  | _ => False

instance decidableHasEscape : ∀ text, Decidable (HasEscape text)
  | _ :: a :: b :: text =>
    have : Decidable (HasEscape (a :: b :: text)) := decidableHasEscape _
    inferInstanceAs (Decidable (_ ∨ _))
  | [] | [_] | [_, _] => isFalse id

theorem length_percentDecode (text : Text) : (percentDecode text).length ≤ text.length := by
  fun_induction percentDecode text with
  | case1 c a b text byte h ih =>
    simp only [List.length_cons]
    omega
  | case2 c a b text h ih =>
    simp only [List.length_cons] at ih ⊢
    omega
  | case3 => exact Nat.le_refl _

theorem percentDecode_eq_self_iff (text : Text) : percentDecode text = text ↔ ¬ HasEscape text := by
  fun_induction percentDecode text with
  | case1 c a b text byte h ih =>
    refine iff_of_false (fun heq => ?_) fun hno => hno (.inl (by rw [h]; rfl))
    have hlength := congrArg List.length heq
    have hle := length_percentDecode text
    simp only [List.length_cons] at hlength
    omega
  | case2 c a b text h ih =>
    rw [List.cons.injEq, HasEscape, h]
    simpa using ih
  | case3 text h =>
    refine iff_of_true rfl ?_
    unfold HasEscape
    split
    · exact absurd rfl (h _ _ _ _)
    · exact id

variable {d : Char}

theorem percentDecode_concat (hd : hexValue d = none) (text : Text) :
    percentDecode (text ++ [d]) = percentDecode text ++ [d] := by
  have hnone : ∀ c a, escape c a d = none := by
    intro c a
    unfold escape
    rw [hd]
    split
    · cases hexValue a <;> rfl
    · rfl
  fun_induction percentDecode text with
  | case1 c a b text byte h ih => simp [percentDecode, h, ih]
  | case2 c a b text h ih => simpa [percentDecode, h] using ih
  | case3 text h =>
    match text, h with
    | [], _ | [_], _ => rfl
    | [c, a], _ => simp [percentDecode, hnone]
    | c :: a :: b :: text, h => exact absurd rfl (h c a b text)

-- ---------------------------------------------------------------------------
-- The decoded pairs
-- ---------------------------------------------------------------------------

def decode (entry : Text × Text) : Text × Text := (percentDecode entry.1, percentDecode entry.2)

def decodedPairs (query : Text) : List (Text × Text) := (pairs query).map decode

@[simp] theorem decodedPairs_nil : decodedPairs [] = [] := by simp [decodedPairs]

theorem decodedPairs_append_cons (first second : Text) :
    decodedPairs (first ++ '&' :: second) = decodedPairs first ++ decodedPairs second := by
  simp [decodedPairs, pairs_append_cons]

theorem decodedPairs_of_notMem {piece : Text} (h : '&' ∉ piece) (hne : piece ≠ []) :
    decodedPairs piece = [decode (pairOf piece)] := by
  simp [decodedPairs, pairs_of_notMem h hne]

/-- The letters in the keys and the values. -/
def weight (entries : List (Text × Text)) : Nat :=
  (entries.map fun entry => entry.1.length + entry.2.length).sum

@[simp] theorem weight_nil : weight [] = 0 := rfl

@[simp] theorem weight_append (first second : List (Text × Text)) :
    weight (first ++ second) = weight first + weight second := by simp [weight]

@[simp] theorem weight_singleton (entry : Text × Text) :
    weight [entry] = entry.1.length + entry.2.length := by simp [weight]

/-- A query has the letters of its pairs, and its separators besides. -/
theorem weight_decodedPairs (query : Text) :
    weight (decodedPairs query) + (if '=' ∈ query then 1 else 0) ≤ query.length := by
  have hpiece : ∀ piece : Text, '&' ∉ piece →
      weight (decodedPairs piece) + (if '=' ∈ piece then 1 else 0) ≤ piece.length := by
    intro piece h
    by_cases hne : piece = []
    · simp [hne]
    · rw [decodedPairs_of_notMem h hne, weight_singleton, ← length_pairOf piece]
      have hkey := length_percentDecode (pairOf piece).1
      have hvalue := length_percentDecode (pairOf piece).2
      simp only [decode]
      omega
  induction query using piece_induction with
  | last piece h => exact hpiece piece h
  | next piece query h ih =>
    have hfirst := hpiece piece h
    rw [decodedPairs_append_cons, weight_append, List.length_append, List.length_cons]
    have hmem : (if '=' ∈ piece ++ '&' :: query then 1 else 0) ≤
        (if '=' ∈ piece then 1 else 0) + (if '=' ∈ query then 1 else 0) := by
      simp only [List.mem_append, List.mem_cons]
      split <;> split <;> split <;> simp_all
    omega

theorem weight_decodedPairs_concat (hd : hexValue d = none) (hand : d ≠ '&') (heq : d ≠ '=')
    (query : Text) :
    weight (decodedPairs (query ++ [d])) = weight (decodedPairs query) + 1 := by
  induction query using piece_induction with
  | last piece h =>
    have hnot : '&' ∉ piece ++ [d] := by simpa [h] using Ne.symm hand
    rw [decodedPairs_of_notMem hnot (by simp), weight_singleton]
    by_cases hmem : '=' ∈ piece
    · obtain ⟨key, value, rfl, hkey⟩ := List.eq_append_cons_of_mem hmem
      rw [decodedPairs_of_notMem h (by simp), weight_singleton]
      simp only [decode, pairOf, List.append_assoc, List.cons_append, cut_append_cons hkey,
        Option.getD_some, percentDecode_concat hd, List.length_append, List.length_singleton]
      omega
    · have hnot' : '=' ∉ piece ++ [d] := by simpa [hmem] using Ne.symm heq
      simp only [decode, pairOf, cut_of_notMem hnot', percentDecode_concat hd, List.length_append,
        Option.getD_none]
      by_cases hne : piece = []
      · simp [hne, percentDecode]
      · rw [decodedPairs_of_notMem h hne, weight_singleton]
        simp only [decode, pairOf, cut_of_notMem hmem, Option.getD_none, List.length_singleton]
        omega
  | next piece query h ih =>
    rw [List.append_assoc, List.cons_append, decodedPairs_append_cons, decodedPairs_append_cons,
      weight_append, weight_append, ih]
    omega

theorem decodedPairs_ne_nil {query : Text} (h : '=' ∈ query) : decodedPairs query ≠ [] := by
  induction query using piece_induction with
  | last piece hpiece =>
    rw [decodedPairs_of_notMem hpiece (List.ne_nil_of_mem h)]
    exact List.cons_ne_nil _ _
  | next piece query hpiece ih =>
    rw [decodedPairs_append_cons]
    rcases List.mem_append.mp h with hmem | hmem
    · rw [decodedPairs_of_notMem hpiece (List.ne_nil_of_mem hmem)]
      exact List.cons_ne_nil _ _
    · have hrest : '=' ∈ query := by simpa using hmem
      exact fun hnil => ih hrest (List.append_eq_nil_iff.mp hnil).2

/-- A key and a value are read as they were written exactly when they have no separator
and no escape in them. -/
theorem decodedPairs_eq_singleton_iff (key value : Text) :
    decodedPairs (key ++ '=' :: value) = [(key, value)] ↔
      ('&' ∉ key ∧ '=' ∉ key ∧ ¬ HasEscape key) ∧ '&' ∉ value ∧ ¬ HasEscape value := by
  constructor
  · intro hpairs
    have hand : '&' ∉ key ++ '=' :: value := by
      intro hmem
      obtain ⟨first, second, heq, -⟩ := List.eq_append_cons_of_mem hmem
      have hweight := congrArg weight hpairs
      have hlength := congrArg List.length heq
      have hsplit : '=' ∈ first ∨ '=' ∈ second := by
        have hmem : '=' ∈ first ++ '&' :: second := heq ▸ by simp
        simpa using hmem
      have hfirst := weight_decodedPairs first
      have hsecond := weight_decodedPairs second
      rw [heq, decodedPairs_append_cons, weight_append, weight_singleton] at hweight
      simp only [List.length_append, List.length_cons] at hlength hweight
      rcases hsplit with h | h <;> simp only [h, if_true] at hfirst hsecond <;> omega
    rw [decodedPairs_of_notMem hand (by simp), List.singleton_inj] at hpairs
    have hequals : '=' ∉ key := by
      intro hmem
      obtain ⟨first, second, heq, hfirst⟩ := List.eq_append_cons_of_mem hmem
      have hkey := congrArg (List.length ∘ Prod.fst) hpairs
      have hle := length_percentDecode first
      simp only [heq, List.append_assoc, List.cons_append, pairOf, cut_append_cons hfirst, decode,
        Function.comp_apply, List.length_append, List.length_cons] at hkey
      omega
    rw [pairOf, cut_append_cons hequals, decode, Prod.mk.injEq, percentDecode_eq_self_iff,
      Option.getD_some, percentDecode_eq_self_iff] at hpairs
    simp only [List.mem_append, List.mem_cons, not_or] at hand
    exact ⟨⟨hand.1, hequals, hpairs.1⟩, hand.2.2, hpairs.2⟩
  · rintro ⟨⟨hkey, hequals, hplain⟩, hvalue, hplain'⟩
    have hand : '&' ∉ key ++ '=' :: value := by simp [hkey, hvalue]
    rw [decodedPairs_of_notMem hand (by simp), pairOf, cut_append_cons hequals, decode,
      Option.getD_some, (percentDecode_eq_self_iff key).mpr hplain,
      (percentDecode_eq_self_iff value).mpr hplain']

-- ---------------------------------------------------------------------------
-- URLs
-- ---------------------------------------------------------------------------

structure Url where
  location : Text
  pairs : List (Text × Text)
  fragment : Option Text
  deriving DecidableEq

def parse (text : Text) : Url where
  location := (cut '?' (cut '#' text).1).1
  pairs := decodedPairs ((cut '?' (cut '#' text).1).2.getD [])
  fragment := (cut '#' text).2

end Query
