import Mathlib.Data.Finset.Card

/-!
# Maps that keep what comes first

A map is the list of its entries. `emplace` adds an entry unless there is one under
the same key already, and may refuse a new key when the map is full. Keys are the
same when `same` makes one of them.
-/

namespace Emplace

variable {κ γ ν ε : Type*} {same : κ → γ} {limit : Option Nat}
  {emplace : List (κ × ν) → κ → ν → Except ε (List (κ × ν))}
  {items entries result : List (κ × ν)}

def keys (same : κ → γ) (entries : List (κ × ν)) : List γ := entries.map fun entry => same entry.1

@[simp] theorem keys_nil : keys (ν := ν) same [] = [] := rfl
@[simp] theorem keys_cons (entry : κ × ν) (entries : List (κ × ν)) :
    keys same (entry :: entries) = same entry.1 :: keys same entries := rfl

/-- Up to `limit` keys, if there is a limit. -/
structure Emplaces (same : κ → γ) (limit : Option Nat)
    (emplace : List (κ × ν) → κ → ν → Except ε (List (κ × ν))) : Prop where
  known : ∀ entries key value, same key ∈ keys same entries →
    emplace entries key value = .ok entries
  new : ∀ entries key value, same key ∉ keys same entries → (∀ n ∈ limit, entries.length < n) →
    ∃ entries', emplace entries key value = .ok entries' ∧ entries'.Perm ((key, value) :: entries)
  full : ∀ entries key value, same key ∉ keys same entries →
    ∀ n ∈ limit, n ≤ entries.length → ∃ e, emplace entries key value = .error e

def emplaceAll (emplace : List (κ × ν) → κ → ν → Except ε (List (κ × ν)))
    (items entries : List (κ × ν)) : Except ε (List (κ × ν)) :=
  items.foldlM (fun entries item => emplace entries item.1 item.2) entries

theorem emplaceAll_cons (item : κ × ν) (items entries : List (κ × ν)) :
    emplaceAll emplace (item :: items) entries =
      emplace entries item.1 item.2 >>= emplaceAll emplace items := List.foldlM_cons

theorem Emplaces.cases (h : Emplaces same limit emplace) {key : κ} {value : ν}
    (hr : emplace entries key value = .ok result) :
    same key ∈ keys same entries ∧ result = entries ∨
      same key ∉ keys same entries ∧ (∀ n ∈ limit, entries.length < n) ∧
        result.Perm ((key, value) :: entries) := by
  by_cases hmem : same key ∈ keys same entries
  · rw [h.known _ _ _ hmem] at hr
    exact .inl ⟨hmem, (Except.ok.inj hr).symm⟩
  · have hroom : ∀ n ∈ limit, entries.length < n := by
      intro n hn
      by_contra hle
      obtain ⟨e, he⟩ := h.full _ key value hmem n hn (Nat.le_of_not_lt hle)
      exact nomatch he.symm.trans hr
    obtain ⟨entries', hok, hperm⟩ := h.new _ _ value hmem hroom
    obtain rfl := Except.ok.inj (hok.symm.trans hr)
    exact .inr ⟨hmem, hroom, hperm⟩

/-- A map that has been filled with items. -/
structure Filled (same : κ → γ) (limit : Option Nat) (items entries result : List (κ × ν)) :
    Prop where
  nodup : (keys same result).Nodup
  keys_iff : ∀ key, key ∈ keys same result ↔ key ∈ keys same entries ∨ key ∈ keys same items
  kept : ∀ entry ∈ entries, entry ∈ result
  origin : ∀ entry ∈ result, entry ∈ entries ∨ entry ∈ items
  length_le : ∀ n ∈ limit, entries.length ≤ n → result.length ≤ n

theorem Emplaces.filled (h : Emplaces same limit emplace) (hnodup : (keys same entries).Nodup)
    (hr : emplaceAll emplace items entries = .ok result) :
    Filled same limit items entries result := by
  induction items generalizing entries with
  | nil =>
    cases hr
    exact ⟨hnodup, by simp, fun _ => id, fun _ => .inl, fun _ _ => id⟩
  | cons item items ih =>
    rw [emplaceAll_cons] at hr
    cases hnext : emplace entries item.1 item.2 with
    | error e => simp [hnext, bind, Except.bind] at hr
    | ok next =>
      have hall : emplaceAll emplace items next = .ok result := by
        simpa [hnext, bind, Except.bind] using hr
      obtain ⟨hmem, rfl⟩ | ⟨hmem, hroom, hperm⟩ := h.cases hnext
      · have hrest := ih hnodup hall
        refine ⟨hrest.nodup, fun key => ?_, hrest.kept, fun entry he => ?_, hrest.length_le⟩
        · rw [hrest.keys_iff, keys_cons, List.mem_cons]
          constructor
          · exact Or.imp_right .inr
          · rintro (hkey | rfl | hkey)
            · exact .inl hkey
            · exact .inl hmem
            · exact .inr hkey
        · exact (hrest.origin entry he).imp_right (List.mem_cons_of_mem _)
      · have hkeys : (keys same next).Perm (same item.1 :: keys same entries) := hperm.map _
        have hrest := ih (hkeys.nodup_iff.mpr (List.nodup_cons.mpr ⟨hmem, hnodup⟩)) hall
        refine ⟨hrest.nodup, fun key => ?_, fun entry he => ?_, fun entry he => ?_,
          fun n hn _ => ?_⟩
        · rw [hrest.keys_iff, hkeys.mem_iff, keys_cons, List.mem_cons, List.mem_cons]
          exact or_assoc.trans or_left_comm
        · exact hrest.kept entry (hperm.mem_iff.mpr (List.mem_cons_of_mem _ he))
        · obtain hold | hnew := hrest.origin entry he
          · obtain rfl | hold := List.mem_cons.mp (hperm.mem_iff.mp hold)
            · exact .inr List.mem_cons_self
            · exact .inl hold
          · exact .inr (List.mem_cons_of_mem _ hnew)
        · refine hrest.length_le n hn ?_
          rw [hperm.length_eq]
          exact hroom n hn

variable [DecidableEq γ]

theorem Emplaces.exists_filled (h : Emplaces same limit emplace)
    (hnodup : (keys same entries).Nodup)
    (hfits : ∀ n ∈ limit, (keys same entries ++ keys same items).toFinset.card ≤ n) :
    ∃ result, emplaceAll emplace items entries = .ok result := by
  induction items generalizing entries with
  | nil => exact ⟨entries, rfl⟩
  | cons item items ih =>
    rw [emplaceAll_cons]
    by_cases hmem : same item.1 ∈ keys same entries
    · rw [h.known _ _ _ hmem]
      refine ih hnodup fun n hn => le_trans (Finset.card_le_card ?_) (hfits n hn)
      intro key hkey
      simp only [List.toFinset_append, Finset.mem_union, List.mem_toFinset, keys_cons,
        List.mem_cons] at hkey ⊢
      exact hkey.imp_right .inr
    · have hnew : (same item.1 :: keys same entries).Nodup := List.nodup_cons.mpr ⟨hmem, hnodup⟩
      have hroom : ∀ n ∈ limit, entries.length < n := by
        intro n hn
        have hcard := List.toFinset_card_of_nodup hnew
        have hle : (same item.1 :: keys same entries).toFinset.card ≤
            (keys same entries ++ keys same (item :: items)).toFinset.card := by
          refine Finset.card_le_card fun key hkey => ?_
          simp only [List.mem_toFinset, List.mem_append, keys_cons, List.mem_cons] at hkey ⊢
          tauto
        rw [List.length_cons, keys, List.length_map] at hcard
        have := hfits n hn
        rw [keys] at hle this
        omega
      obtain ⟨next, hnext, hperm⟩ := h.new _ _ item.2 hmem hroom
      have hkeys : (keys same next).Perm (same item.1 :: keys same entries) := hperm.map _
      rw [hnext]
      refine ih (hkeys.nodup_iff.mpr hnew) fun n hn =>
        le_trans (Finset.card_le_card ?_) (hfits n hn)
      intro key hkey
      simp only [List.mem_toFinset, List.mem_append, hkeys.mem_iff, keys_cons, List.mem_cons]
        at hkey ⊢
      tauto

/-- Filling an empty map succeeds exactly when the items fit. -/
theorem Emplaces.ok_iff (h : Emplaces same limit emplace) :
    (∃ result, emplaceAll emplace items [] = .ok result) ↔
      ∀ n ∈ limit, (keys same items).toFinset.card ≤ n := by
  constructor
  · rintro ⟨result, hr⟩ n hn
    have hfilled := h.filled (by simp) hr
    have hkeys : (keys same result).toFinset = (keys same items).toFinset := by
      ext key
      simpa using hfilled.keys_iff key
    rw [← hkeys, List.toFinset_card_of_nodup hfilled.nodup, keys, List.length_map]
    exact hfilled.length_le n hn (Nat.zero_le n)
  · exact fun hfits => h.exists_filled (by simp) (by simpa using hfits)

end Emplace
