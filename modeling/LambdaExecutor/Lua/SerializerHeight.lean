import LambdaExecutor.Library.Metered
import LambdaExecutor.Lua.Termination

/-!
# How high the serializer piles its values

The serializer with the height of the Lua stack measured after every call of the Lua
API. It holds the key and the value of an entry for each table that it has entered,
and never asks Lua for room.
-/

namespace LambdaExecutor.Lua

open Raii Raii.Code Raii.Metered

abbrev MeteredCode (α : Type) := Metered (fun L : LuaState => L.stack.length) Thrown α

def meteredCatchAll {α : Type} (body : MeteredCode α) (cleanup : LuaCode Unit) : MeteredCode α :=
  tryCatch body fun thrown =>
    match thrown with
    | .exception _ => do
      step cleanup
      step (raise thrown)
    | .luaError _ => step (raise thrown)

theorem code_meteredCatchAll {α : Type} (body : MeteredCode α) (cleanup : LuaCode Unit) :
    (meteredCatchAll body cleanup).code = catchAll body.code cleanup := by
  unfold meteredCatchAll catchAll
  rw [code_tryCatch]
  congr 1
  funext thrown
  cases thrown <;> rfl

theorem fits_meteredCatchAll {α : Type} {body : MeteredCode α} {n limit : Nat} {L : LuaState} :
    Fits limit (meteredCatchAll body (luaPop n)) L ↔ Fits limit body L := by
  refine fits_tryCatch.trans (and_iff_left_of_imp fun hbody thrown L' hthrows => ?_)
  have hlength : L'.stack.length ≤ limit := by
    have hlast := hbody.last
    rwa [hthrows] at hlast
  cases thrown with
  | exception e =>
    have hpop : (L'.stack.drop n).length ≤ limit :=
      Nat.le_trans (List.length_drop ▸ Nat.sub_le _ _) hlength
    refine fits_bind.mpr ⟨fits_step.mpr ⟨hlength, hpop⟩, fun _ L'' hreturns => ?_⟩
    obtain ⟨-, rfl⟩ := (Result.done.injEq ..).mp hreturns
    exact fits_step.mpr ⟨hpop, hpop⟩
  | luaError message => exact fits_step.mpr ⟨hlength, hlength⟩

namespace Serializer

open Formats Cycles

mutual
def meteredToValue (J : JsonLibrary) : Nat → Option Nat → MeteredCode Json
  | 0, _ => step terminate
  | fuel + 1, idx => do
    let type ← step (luaType (valueOr idx (-1)))
    match type with
    | .string => step (luaStringToValue idx)
    | .number => step (luaNumberToValue J idx)
    | .boolean => step (luaBooleanToValue idx)
    | .table => do
      step luaPushNil
      meteredLoop J fuel idx .null
    | _ => step (throwRuntimeError (typeError type))
def meteredLoop (J : JsonLibrary) : Nat → Option Nat → Json → MeteredCode Json
  | 0, _, _ => step terminate
  | fuel + 1, idx, builder => do
    if ← step (luaNext (valueOr idx (-2))) then
      let type ← step (luaType (-2))
      if type ≠ .string ∧ type ≠ .number then
        step (luaPop 3)
        step (throwRuntimeError (keyTypeError type))
      else do
        let value ← meteredCatchAll (meteredToValue J fuel none) (luaPop 3)
        let builder ← if type = .string
          then do step (ofLibrary (J.emplaceNocheck builder (← step (luaToString (-2))) value))
          else step (ofLibrary (J.pushBack builder value))
        step (luaPop 1)
        meteredLoop J fuel idx builder
    else return builder
end

def meteredToString (J : JsonLibrary) (fuel : Nat) (idx : Option Nat) : MeteredCode String := do
  match ← meteredToValue J fuel idx with
  | .string s => return s
  | value => return J.toString value

-- ---------------------------------------------------------------------------
-- Without the meter it is the serializer
-- ---------------------------------------------------------------------------

theorem code_all (J : JsonLibrary) (fuel : Nat) :
    (∀ idx, (meteredToValue J fuel idx).code = toValue J fuel idx) ∧
    ∀ idx builder, (meteredLoop J fuel idx builder).code = tableLoop J fuel idx builder := by
  induction fuel with
  | zero => exact ⟨fun _ => rfl, fun _ _ => rfl⟩
  | succ fuel ih =>
    obtain ⟨hvalue, hloop⟩ := ih
    constructor
    · intro idx
      rw [meteredToValue, toValue]
      refine code_bind_eq fun type => ?_
      cases type with
      | table => exact code_bind_eq fun _ => hloop idx .null
      | _ => rfl
    · intro idx builder
      rw [meteredLoop, tableLoop]
      refine code_bind_eq fun more => ?_
      cases more with
      | false => rfl
      | true =>
        refine code_bind_eq fun type => ?_
        dsimp only
        split
        · rfl
        · rw [code_bind, code_meteredCatchAll, hvalue]
          refine congrArg _ (funext fun value => ?_)
          split
          · exact code_bind_eq fun s => code_bind_eq fun builder => code_bind_eq fun _ =>
              hloop idx builder
          · exact code_bind_eq fun builder => code_bind_eq fun _ => hloop idx builder

theorem code_meteredToString (J : JsonLibrary) (fuel : Nat) (idx : Option Nat) :
    (meteredToString J fuel idx).code = toString J fuel idx := by
  unfold meteredToString toString
  rw [code_bind, (code_all J fuel).1]
  refine congrArg _ (funext fun value => ?_)
  cases value <;> rfl

-- ---------------------------------------------------------------------------
-- One value, one entry
-- ---------------------------------------------------------------------------

variable {J : JsonLibrary} {h : Heap} {t u : TableRef} {remaining rest seen : Table}
  {k key v : Value} {builder : Json} {below : List Value} {fuel limit : Nat}

theorem fits_scalar (hv : ∀ t, v ≠ .table t) (hroom : below.length + 1 ≤ limit) :
    Fits limit (meteredToValue J fuel none) (on h (v :: below)) := by
  cases fuel with
  | zero => exact (fits_step_of_stays rfl).mpr hroom
  | succ fuel =>
    have htype : Returns (luaType (-1)) (on h (v :: below)) v.type (on h (v :: below)) := rfl
    rw [meteredToValue]
    refine (fits_bind_of_returns htype).mpr ⟨(fits_step_of_stays rfl).mpr hroom, ?_⟩
    cases v with
    | table t => exact absurd rfl (hv t)
    | number n =>
      refine (fits_step_of_stays ?_).mpr hroom
      show (ofLibrary (J.ofDouble n.toDouble) (on h (.number n :: below))).state = _
      cases J.ofDouble n.toDouble <;> rfl
    | _ => exact (fits_step_of_stays rfl).mpr hroom

theorem fits_table : Fits limit (meteredToValue J (fuel + 1) none) (on h (.table t :: below)) ↔
    Fits limit (meteredLoop J fuel none .null) (on h (.nil :: .table t :: below)) := by
  have htype : Returns (luaType (-1)) (on h (.table t :: below)) .table
      (on h (.table t :: below)) := rfl
  have hpush : Returns luaPushNil (on h (.table t :: below)) ()
      (on h (.nil :: .table t :: below)) := rfl
  rw [meteredToValue]
  refine (fits_bind_of_returns htype).trans ?_
  refine Iff.trans (and_congr_right fun _ => fits_bind_of_returns hpush) ?_
  refine ⟨fun hfits => hfits.2.2, fun hloop => ?_⟩
  have htop : below.length + 2 ≤ limit := hloop.first
  have hbelow : below.length + 1 ≤ limit := Nat.le_of_succ_le htop
  exact ⟨fits_step.mpr ⟨hbelow, hbelow⟩, fits_step.mpr ⟨hbelow, htop⟩, hloop⟩

theorem fits_loop_zero : Fits limit (meteredLoop J 0 none builder)
    (on h (k :: .table t :: below)) ↔ below.length + 2 ≤ limit :=
  fits_step.trans and_self_iff

theorem fits_loop_nil (hv : Visits (h.entries t) k []) :
    Fits limit (meteredLoop J (fuel + 1) none builder) (on h (k :: .table t :: below)) ↔
      below.length + 2 ≤ limit := by
  rw [meteredLoop]
  refine (fits_bind_of_returns (luaNext_ends hv.next)).trans ?_
  refine ⟨fun hfits => hfits.1.first, fun htop => ?_⟩
  have hlast : below.length + 1 ≤ limit := Nat.le_of_succ_le htop
  exact ⟨(fits_step_of_returns (luaNext_ends hv.next)).mpr ⟨htop, hlast⟩, fits_pure.mpr hlast⟩

theorem fits_next (hv : Visits (h.entries t) k ((key, v) :: rest)) :
    Fits limit (step (luaNext (-2)) : MeteredCode Bool) (on h (k :: .table t :: below)) ↔
      below.length + 3 ≤ limit :=
  (fits_step_of_returns (luaNext_visits hv.next)).trans
    (and_iff_right_of_imp Nat.le_of_succ_le)

theorem fits_loop_bad_key (hv : Visits (h.entries t) k ((key, v) :: rest)) (hkey : ¬ IsKey key) :
    Fits limit (meteredLoop J (fuel + 1) none builder) (on h (k :: .table t :: below)) ↔
      below.length + 3 ≤ limit := by
  have htype : Returns (luaType (-2)) (on h (v :: key :: .table t :: below)) key.type
      (on h (v :: key :: .table t :: below)) := rfl
  have hpop : Returns (luaPop 3) (on h (v :: key :: .table t :: below)) () (on h below) := rfl
  rw [meteredLoop]
  refine (fits_bind_of_returns (luaNext_visits hv.next)).trans ?_
  refine Iff.trans (and_congr_left' (fits_next hv)) (and_iff_left_of_imp fun hroom => ?_)
  have hend : below.length ≤ limit := Nat.le_trans (Nat.le_add_right _ 3) hroom
  rw [if_pos rfl]
  refine (fits_bind_of_returns htype).mpr ⟨fits_step.mpr ⟨hroom, hroom⟩, ?_⟩
  rw [if_pos (not_or.mp hkey)]
  refine (fits_bind_of_returns hpop).mpr ⟨fits_step.mpr ⟨hroom, hend⟩, ?_⟩
  exact fits_step.mpr ⟨hend, hend⟩

theorem fits_add {result : Except Exception Json} {f : Json → MeteredCode Json}
    {stack : List Value} (hroom : stack.length + 1 ≤ limit) :
    Fits limit (step (ofLibrary result) >>= fun builder => step (luaPop 1) >>= fun _ => f builder)
        (on h (v :: stack)) ↔
      ∀ builder, result = .ok builder → Fits limit (f builder) (on h stack) := by
  have hpop : Returns (luaPop 1) (on h (v :: stack)) () (on h stack) := rfl
  cases result with
  | error e =>
    refine iff_of_true (fits_bind.mpr ⟨fits_step.mpr ⟨hroom, hroom⟩, ?_⟩) nofun
    exact fun _ _ hreturns => (nomatch hreturns)
  | ok builder =>
    have hreturns : Returns (ofLibrary (.ok builder)) (on h (v :: stack)) builder
        (on h (v :: stack)) := rfl
    have htaken : Fits limit (step (ofLibrary (.ok builder)) : MeteredCode Json)
        (on h (v :: stack)) := fits_step.mpr ⟨hroom, hroom⟩
    have hpopped : Fits limit (step (luaPop 1) : MeteredCode Unit) (on h (v :: stack)) :=
      fits_step.mpr ⟨hroom, Nat.le_of_succ_le hroom⟩
    refine (fits_bind_of_returns hreturns).trans ((and_iff_right htaken).trans ?_)
    refine (fits_bind_of_returns hpop).trans ((and_iff_right hpopped).trans ?_)
    simp

theorem fits_grow {json : Json} (hkey : IsKey key) (hroom : below.length + 3 ≤ limit) :
    Fits limit (do
      let builder ← if key.type = .string
        then do step (ofLibrary (J.emplaceNocheck builder (← step (luaToString (-2))) json))
        else step (ofLibrary (J.pushBack builder json))
      step (luaPop 1)
      meteredLoop J fuel none builder : MeteredCode Json) (on h (v :: key :: .table t :: below)) ↔
    ∀ builder', grow J builder key json = .ok builder' →
      Fits limit (meteredLoop J fuel none builder') (on h (key :: .table t :: below)) := by
  obtain hstring | hnumber := hkey
  · obtain ⟨name, rfl⟩ := type_eq_string hstring
    have hname : Returns (luaToString (-2)) (on h (v :: .string name :: .table t :: below))
        (cString name) (on h (v :: .string name :: .table t :: below)) := rfl
    refine (fits_bind_of_returns hname).trans (Iff.trans (and_iff_right ?_) (fits_add hroom))
    exact (fits_step_of_stays rfl).mpr hroom
  · obtain ⟨n, rfl⟩ := type_eq_number hnumber
    exact fits_add hroom

theorem fits_loop_cons (hv : Visits (h.entries t) k ((key, v) :: rest)) (hkey : IsKey key) :
    Fits limit (meteredLoop J (fuel + 1) none builder) (on h (k :: .table t :: below)) ↔
      Fits limit (meteredToValue J fuel none) (on h (v :: key :: .table t :: below)) ∧
      ∀ json builder', valueOf J h fuel v = .value json →
        grow J builder key json = .ok builder' →
          Fits limit (meteredLoop J fuel none builder') (on h (key :: .table t :: below)) := by
  have htype : Returns (luaType (-2)) (on h (v :: key :: .table t :: below)) key.type
      (on h (v :: key :: .table t :: below)) := rfl
  rw [meteredLoop]
  refine (fits_bind_of_returns (luaNext_visits hv.next)).trans ?_
  rw [if_pos rfl]
  -- The value is on top of the key, so there is room for both where it fits.
  refine Iff.trans (and_iff_right_of_imp fun hrest => ?_) ?_
  · exact (fits_next hv).mpr hrest.first
  refine (fits_bind_of_returns htype).trans ?_
  rw [if_neg (not_and_or.mpr (hkey.imp not_not.mpr not_not.mpr))]
  refine Iff.trans (and_iff_right_of_imp fun hrest => ?_) ?_
  · exact (fits_step_of_stays rfl).mpr hrest.first
  rw [fits_bind, fits_meteredCatchAll, code_meteredCatchAll, (code_all J fuel).1]
  refine and_congr_right fun hvalue => ?_
  constructor
  · intro hrest json builder' hresult hgrow
    have hreturns : Returns (toValue J fuel none) (on h (v :: key :: .table t :: below)) json
        (on h (v :: key :: .table t :: below)) := returns_toValue_iff.mpr ⟨hresult, rfl⟩
    exact (fits_grow hkey hvalue.first).mp (hrest json _ (hreturns.tryCatch _)) builder' hgrow
  · intro hloop json L hreturns
    obtain ⟨hresult, rfl⟩ := returns_toValue_iff.mp (returns_of_catchAll hreturns)
    exact (fits_grow hkey hvalue.first).mpr fun builder' => hloop json builder' hresult

-- ---------------------------------------------------------------------------
-- The slots that a table needs
-- ---------------------------------------------------------------------------

/-- The serializer needs more than so many slots above the table. -/
def Overfills (h : Heap) : Nat → TableRef → Prop
  | 0, _ => True
  | 1, t => h.entries t ≠ []
  | n + 2, t => ∃ u, Descends h t u ∧ Overfills h n u

theorem overfills_two_mul_iff (n : Nat) : Overfills h (2 * n) t ↔ HasWay (Descends h) n t := by
  induction n generalizing t with
  | zero => exact Iff.rfl
  | succ n ih => exact exists_congr fun u => and_congr_right fun _ => ih

theorem overfills_two_mul_add_one_iff (n : Nat) :
    Overfills h (2 * n + 1) t ↔ HasWayTo (Descends h) (fun u => h.entries u ≠ []) n t := by
  induction n generalizing t with
  | zero => exact Iff.rfl
  | succ n ih => exact exists_congr fun u => and_congr_right fun _ => ih

theorem fits_toString {L : LuaState} :
    Fits limit (meteredToString J fuel none) L ↔ Fits limit (meteredToValue J fuel none) L := by
  refine fits_bind.trans (and_iff_left_of_imp fun hvalue json L' hreturns => ?_)
  have hlast := hvalue.last
  rw [hreturns] at hlast
  cases json with
  | string s => exact fits_pure.mpr hlast
  | _ => exact fits_pure.mpr hlast

section
variable (hJ : J.Strict) (hh : h.Lawful)
include hJ hh

theorem fits_loop (hroom : below.length + 2 ≤ limit)
    (hentry : h.entries t ≠ [] → below.length + 3 ≤ limit)
    (hvalues : ∀ seen key v rest, h.entries t = seen ++ (key, v) :: rest → IsKey key →
      Taken h seen → ∀ fuel,
        Fits limit (meteredToValue J fuel none) (on h (v :: key :: .table t :: below)))
    (hentries : h.entries t = seen ++ remaining) (hb : Holds builder seen) (htaken : Taken h seen)
    (hvisits : Visits (h.entries t) k remaining) :
    Fits limit (meteredLoop J fuel none builder) (on h (k :: .table t :: below)) := by
  induction fuel generalizing seen remaining k builder with
  | zero => exact fits_loop_zero.mpr hroom
  | succ fuel ih =>
    cases remaining with
    | nil => exact (fits_loop_nil hvisits).mpr hroom
    | cons entry rest =>
      obtain ⟨key, v⟩ := entry
      by_cases hkey : IsKey key
      · refine (fits_loop_cons hvisits hkey).mpr
          ⟨hvalues seen key v rest hentries hkey htaken fuel, ?_⟩
        intro json builder' hresult hgrow
        obtain ⟨builder'', hgrow', hb'⟩ | ⟨⟨e, hgrow'⟩, -⟩ := hb.grow (v := v) (j := json) hJ hkey
        · obtain rfl := Except.ok.inj (hgrow.symm.trans hgrow')
          have hserializable := serializable_of_valueOf hJ hh hresult
          have htaken' : Taken h (seen ++ [(key, v)]) :=
            ⟨hb'.sameKind, List.forall_mem_append.mpr ⟨htaken.2, by simpa using hserializable⟩⟩
          exact ih (by simpa using hentries) hb' htaken' hvisits.visit
        · exact nomatch hgrow.symm.trans hgrow'
      · exact (fits_loop_bad_key hvisits hkey).mpr (hentry (by simp [hentries]))

theorem fits_of_values (hroom : below.length + 2 ≤ limit)
    (hentry : h.entries t ≠ [] → below.length + 3 ≤ limit)
    (hvalues : ∀ seen key v rest, h.entries t = seen ++ (key, v) :: rest → IsKey key →
      Taken h seen → ∀ fuel,
        Fits limit (meteredToValue J fuel none) (on h (v :: key :: .table t :: below)))
    (fuel : Nat) : Fits limit (meteredToValue J fuel none) (on h (.table t :: below)) := by
  cases fuel with
  | zero => exact (fits_step_of_stays rfl).mpr (Nat.le_of_succ_le hroom)
  | succ fuel =>
    exact fits_table.mpr (fits_loop hJ hh hroom hentry hvalues rfl .null .nil
      (.start (hh.entries t)))

theorem fits_of_not_overfills : (n : Nat) → ∀ {t below}, ¬ Overfills h n t →
    below.length + 1 + n ≤ limit → ∀ fuel,
      Fits limit (meteredToValue J fuel none) (on h (.table t :: below))
  | 0, _, _, hnone, _ => absurd trivial hnone
  | 1, t, below, hnone, hroom => by
    have hempty : h.entries t = [] := not_not.mp hnone
    refine fits_of_values hJ hh hroom (fun hne => absurd hempty hne) ?_
    intro seen key v rest hentries
    simp [hempty] at hentries
  | n + 2, t, below, hnone, hroom => by
    have hentry : below.length + 3 ≤ limit :=
      Nat.le_trans (Nat.add_le_add_left (Nat.le_add_left 2 n) (below.length + 1)) hroom
    refine fits_of_values hJ hh (Nat.le_of_succ_le hentry) (fun _ => hentry) ?_
    intro seen key v rest hentries hkey htaken
    cases v with
    | table u =>
      have hnext : ¬ Overfills h n u :=
        fun hover => hnone ⟨u, ⟨seen, key, rest, hentries, hkey, htaken⟩, hover⟩
      refine fits_of_not_overfills n hnext (Nat.le_trans (Nat.le_of_eq ?_) hroom)
      simp only [List.length_cons]
      omega
    | _ => exact fun fuel => fits_scalar nofun hentry

theorem loop_exceeds {between : Table} (hb : Holds builder seen)
    (hvisits : Visits (h.entries t) k (between ++ (key, v) :: rest)) (hkey : IsKey key)
    (hkind : SameKind (seen ++ between)) (hvalues : ∀ entry ∈ between, Serializable h entry.2)
    (hexceeds : ∃ m, ∀ fuel, m ≤ fuel →
      ¬ Fits limit (meteredToValue J fuel none) (on h (v :: key :: .table t :: below))) :
    ∃ m, ∀ fuel, m ≤ fuel →
      ¬ Fits limit (meteredLoop J fuel none builder) (on h (k :: .table t :: below)) := by
  induction between generalizing seen k builder with
  | nil =>
    obtain ⟨m, hm⟩ := hexceeds
    refine ⟨m + 1, fun fuel hfuel hfits => ?_⟩
    obtain ⟨fuel, rfl⟩ := Nat.exists_eq_add_of_le' (Nat.le_trans (Nat.le_add_left 1 m) hfuel)
    exact hm fuel (Nat.le_of_succ_le_succ hfuel) ((fits_loop_cons hvisits hkey).mp hfits).1
  | cons entry between ih =>
    obtain ⟨key', v'⟩ := entry
    rw [List.append_cons] at hkind
    rw [List.forall_mem_cons] at hvalues
    rw [List.cons_append] at hvisits
    have hkey' : IsKey key' := hkind.isKey (key', v') (by simp)
    obtain ⟨j, hj⟩ := hvalues.1.exists_encodes
    obtain ⟨n, hn⟩ := valueOf_of_encodes hJ hh j hj
    obtain ⟨builder', hgrow, hb'⟩ | ⟨-, hmixed⟩ := hb.grow (v := v') (j := j) hJ hkey'
    · obtain ⟨m, hm⟩ := ih hb' hvisits.visit hkind hvalues.2
      refine ⟨max n m + 1, fun fuel hfuel hfits => ?_⟩
      obtain ⟨fuel, rfl⟩ := Nat.exists_eq_add_of_le' (Nat.le_trans (Nat.le_add_left 1 _) hfuel)
      have hfuel := Nat.max_le.mp (Nat.le_of_succ_le_succ hfuel)
      have hloop := ((fits_loop_cons hvisits hkey').mp hfits).2 j builder' (hn fuel hfuel.1) hgrow
      exact hm fuel hfuel.2 hloop
    · exact absurd (hkind.mono (List.subset_append_left _ _)) hmixed

theorem exceeds_of_overfills : (n : Nat) → ∀ {t below}, Overfills h n t →
    limit ≤ below.length + 1 + n → ∃ m, ∀ fuel, m ≤ fuel →
      ¬ Fits limit (meteredToValue J fuel none) (on h (.table t :: below))
  | 0, t, below, _, hroom => by
    refine ⟨1, fun fuel hfuel hfits => ?_⟩
    obtain ⟨fuel, rfl⟩ := Nat.exists_eq_add_of_le' hfuel
    have htop : below.length + 2 ≤ limit := (fits_table.mp hfits).first
    exact Nat.not_succ_le_self _ (Nat.le_trans htop hroom)
  | 1, t, below, hne, hroom => by
    refine ⟨2, fun fuel hfuel hfits => ?_⟩
    obtain ⟨fuel, rfl⟩ := Nat.exists_eq_add_of_le' hfuel
    obtain ⟨⟨key, v⟩, rest, hentries⟩ := List.exists_cons_of_ne_nil hne
    have hvisits : Visits (h.entries t) .nil ((key, v) :: rest) := by
      rw [← hentries]
      exact .start (hh.entries t)
    have hloop := fits_table.mp hfits
    have htop : below.length + 3 ≤ limit := by
      by_cases hkey : IsKey key
      · exact ((fits_loop_cons hvisits hkey).mp hloop).1.first
      · exact (fits_loop_bad_key hvisits hkey).mp hloop
    exact Nat.not_succ_le_self _ (Nat.le_trans htop hroom)
  | n + 2, t, below, ⟨u, ⟨seen, key, rest, hentries, hkey, hkind, hvalues⟩, hover⟩, hroom => by
    have hnext : ∃ m, ∀ fuel, m ≤ fuel → ¬ Fits limit (meteredToValue J fuel none)
        (on h (.table u :: key :: .table t :: below)) := by
      refine exceeds_of_overfills n hover (Nat.le_trans hroom (Nat.le_of_eq ?_))
      simp only [List.length_cons]
      omega
    have hvisits : Visits (h.entries t) .nil (seen ++ (key, .table u) :: rest) := by
      rw [← hentries]
      exact .start (hh.entries t)
    obtain ⟨m, hm⟩ := loop_exceeds hJ hh .null hvisits hkey hkind hvalues hnext
    refine ⟨m + 1, fun fuel hfuel hfits => ?_⟩
    obtain ⟨fuel, rfl⟩ := Nat.exists_eq_add_of_le' (Nat.le_trans (Nat.le_add_left 1 m) hfuel)
    exact hm fuel (Nat.le_of_succ_le_succ hfuel) (fits_table.mp hfits)

/-- However far the serializer gets, its values fit, just if the table does not need more. -/
theorem always_fits_iff {n : Nat} (hlimit : limit = below.length + 1 + n) :
    (∀ fuel, Fits limit (meteredToValue J fuel none) (on h (.table t :: below))) ↔
      ¬ Overfills h n t := by
  constructor
  · intro hfits hover
    obtain ⟨m, hm⟩ := exceeds_of_overfills hJ hh n hover (Nat.le_of_eq hlimit)
    exact hm m (Nat.le_refl m) (hfits m)
  · exact fun hnone => fits_of_not_overfills hJ hh n hnone (Nat.le_of_eq hlimit.symm)

end

end Serializer

end LambdaExecutor.Lua
