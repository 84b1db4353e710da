import LambdaExecutor.Lua.DeserializerStack
import LambdaExecutor.Lua.SerializerHeight

/-!
# How high the deserializer piles its values

The deserializer with the height of the Lua stack measured after every call of the
Lua API. It holds a table and a key for each table of the text that it has entered.
-/

namespace LambdaExecutor.Lua.Deserializer

open Raii Raii.Code Raii.Metered Formats Cycles
open Serializer (on returns_ofLibrary throws_ofLibrary returns_of_catchAll)

section Tables

variable (fromString : DataType → String → MeteredCode Unit)

def meteredPushValue (J : JsonLibrary) (value : Json) : MeteredCode Unit := do
  let type ← step (getType value)
  meteredCatchAll (fromString type (valueText J value)) (luaPop 2)

def meteredPushMembers (J : JsonLibrary) : List (String × Json) → MeteredCode Unit
  | [] => pure ()
  | (key, value) :: members => do
    step (luaPushString key)
    meteredPushValue fromString J value
    step (luaSetTable (-3))
    meteredPushMembers J members

def meteredPushItems (J : JsonLibrary) (i : UInt64) : List Json → MeteredCode Unit
  | [] => pure ()
  | value :: items => do
    step (luaPushNumber (ofSize i))
    meteredPushValue fromString J value
    step (luaSetTable (-3))
    meteredPushItems J (i + 1) items

def meteredFill (J : JsonLibrary) : Json → MeteredCode Unit
  | .object members => meteredPushMembers fromString J members
  | .array items => meteredPushItems fromString J 1 items
  | _ => do
    step (luaPop 1)
    step (throwRuntimeError "Value is not a table")

def meteredPushTable (J : JsonLibrary) (value : String) : MeteredCode Unit := do
  let json ← step (ofLibrary (J.fromString value))
  step luaNewTable
  meteredFill fromString J json

end Tables

def meteredFromString (J : JsonLibrary) : Nat → DataType → String → MeteredCode Unit
  | 0, _, _ => step terminate
  | _ + 1, .string, value => step (pushString value)
  | _ + 1, .number, value => step (pushNumber J value)
  | _ + 1, .boolean, value => step (pushBoolean value)
  | fuel + 1, .table, value => meteredPushTable (meteredFromString J fuel) J value

-- ---------------------------------------------------------------------------
-- Without the meter it is the deserializer
-- ---------------------------------------------------------------------------

section Code

variable {f : DataType → String → MeteredCode Unit} {g : DataType → String → LuaCode Unit}
  (hcode : ∀ type text, (f type text).code = g type text) (J : JsonLibrary)
include hcode

theorem code_meteredPushValue (value : Json) :
    (meteredPushValue f J value).code = pushValue g J value :=
  code_bind_eq fun type => by rw [code_meteredCatchAll, hcode]

theorem code_meteredPushMembers (members : List (String × Json)) :
    (meteredPushMembers f J members).code = pushMembers g J members := by
  induction members with
  | nil => rfl
  | cons member members ih =>
    refine code_bind_eq fun _ => ?_
    rw [code_bind, code_meteredPushValue hcode]
    exact congrArg _ (funext fun _ => code_bind_eq fun _ => ih)

theorem code_meteredPushItems (i : UInt64) (items : List Json) :
    (meteredPushItems f J i items).code = pushItems g J i items := by
  induction items generalizing i with
  | nil => rfl
  | cons item items ih =>
    refine code_bind_eq fun _ => ?_
    rw [code_bind, code_meteredPushValue hcode]
    exact congrArg _ (funext fun _ => code_bind_eq fun _ => ih (i + 1))

theorem code_meteredPushTable (text : String) :
    (meteredPushTable f J text).code = pushTable g J text := by
  refine code_bind_eq fun json => code_bind_eq fun _ => ?_
  cases json with
  | object members => exact code_meteredPushMembers hcode J members
  | array items => exact code_meteredPushItems hcode J 1 items
  | null | bool b | number d | string s => rfl

end Code

theorem code_meteredFromString (J : JsonLibrary) (fuel : Nat) (type : DataType) (text : String) :
    (meteredFromString J fuel type text).code = fromString J fuel type text := by
  induction fuel generalizing type text with
  | zero => rfl
  | succ fuel ih =>
    cases type with
    | table => exact code_meteredPushTable ih J text
    | string | number | boolean => rfl

-- ---------------------------------------------------------------------------
-- The entries of a table
-- ---------------------------------------------------------------------------

def meteredPushEntries (f : DataType → String → MeteredCode Unit) (J : JsonLibrary) :
    List (Value × Json) → MeteredCode Unit
  | [] => pure ()
  | (key, value) :: entries => do
    step (luaPush key)
    meteredPushValue f J value
    step (luaSetTable (-3))
    meteredPushEntries f J entries

section Entries

variable {f : DataType → String → MeteredCode Unit} {J : JsonLibrary}

theorem meteredPushItems_eq (i : UInt64) (items : List Json) :
    meteredPushItems f J i items = meteredPushEntries f J (numbered i items) := by
  induction items generalizing i with
  | nil => rfl
  | cons item items ih =>
    rw [meteredPushItems, ih]
    rfl

theorem meteredPushMembers_eq (members : List (String × Json)) :
    meteredPushMembers f J members = meteredPushEntries f J (entriesOf (.object members)) := by
  induction members with
  | nil => rfl
  | cons member members ih =>
    obtain ⟨name, value⟩ := member
    rw [meteredPushMembers, ih]
    rfl

theorem meteredFill_cases (j : Json) :
    meteredFill f J j = meteredPushEntries f J (entriesOf j) ∨
      entriesOf j = [] ∧ meteredFill f J j =
        (step (luaPop 1) >>= fun _ => step (throwRuntimeError "Value is not a table")) := by
  cases j with
  | array items => exact .inl (meteredPushItems_eq 1 items)
  | object members => exact .inl (meteredPushMembers_eq members)
  | null | bool b | number d | string s => exact .inr ⟨rfl, rfl⟩

end Entries

-- ---------------------------------------------------------------------------
-- One value is pushed
-- ---------------------------------------------------------------------------

variable {J : JsonLibrary} {f : DataType → String → MeteredCode Unit} {j : Json} {h : Heap}
  {t : TableRef} {key : Value} {value : Json} {entries rest seen : List (Value × Json)}
  {stack : List Value} {text : String} {L : LuaState} {fuel limit height : Nat}

def PushesOne (c : LuaCode Unit) : Prop :=
  ∀ h stack L, Returns c (on h stack) () L → ∃ h' w, L = on h' (w :: stack)

theorem PushesOne.meteredPushValue (hf : ∀ type text, PushesOne (f type text).code)
    (value : Json) : PushesOne (meteredPushValue f J value).code := by
  intro h stack L hreturns
  rw [code_meteredPushValue fun _ _ => rfl] at hreturns
  obtain ⟨type, L₁, htype, hpush⟩ := hreturns.of_bind
  obtain rfl : on h stack = L₁ := by
    cases value with
    | null => exact nomatch htype
    | _ => exact ((Result.done.injEq ..).mp htype).2
  exact hf _ _ h stack L (returns_of_catchAll hpush)

theorem pushesOne_fromString (J : JsonLibrary) (fuel : Nat) (type : DataType) (text : String) :
    PushesOne (meteredFromString J fuel type text).code := by
  intro h stack L hreturns
  rw [code_meteredFromString] at hreturns
  obtain ⟨⟨w, hstack⟩, -⟩ := hreturns.wlp_iff.mp (wlp_fromString J fuel type text h stack)
  exact ⟨L.heap, w, congrArg (on L.heap) hstack⟩

-- ---------------------------------------------------------------------------
-- One value, one entry
-- ---------------------------------------------------------------------------

theorem fits_pushNull : Fits limit (meteredPushValue f J .null) (on h stack) ↔
    stack.length ≤ limit := by
  refine fits_bind.trans ((and_iff_left ?_).trans (fits_step_of_stays rfl))
  exact fun type L hreturns => nomatch hreturns

theorem fits_pushValue (hne : value ≠ .null) :
    Fits limit (meteredPushValue f J value) (on h stack) ↔
      Fits limit (f (dataType value) (valueText J value)) (on h stack) := by
  have htype := returns_getType hne (on h stack)
  refine (fits_bind_of_returns htype).trans ?_
  rw [fits_meteredCatchAll]
  exact and_iff_right_of_imp fun hfits =>
    (fits_step_of_returns htype).mpr ⟨hfits.first, hfits.first⟩

theorem fits_entries_nil : Fits limit (meteredPushEntries f J []) (on h (.table t :: stack)) ↔
    stack.length + 1 ≤ limit := fits_pure

theorem fits_entries_cons (hf : ∀ type text, PushesOne (f type text).code)
    (hkey : IsSettable key) :
    Fits limit (meteredPushEntries f J ((key, value) :: rest)) (on h (.table t :: stack)) ↔
      Fits limit (meteredPushValue f J value) (on h (key :: .table t :: stack)) ∧
      ∀ h' w, Returns (meteredPushValue f J value).code (on h (key :: .table t :: stack)) ()
        (on h' (w :: key :: .table t :: stack)) →
          Fits limit (meteredPushEntries f J rest)
            (on (h'.rawset t key w) (.table t :: stack)) := by
  have hpush : Returns (luaPush key) (on h (.table t :: stack)) ()
      (on h (key :: .table t :: stack)) := rfl
  have hset : ∀ h' w, Returns (luaSetTable (-3)) (on h' (w :: key :: .table t :: stack)) ()
      (on (h'.rawset t key w) (.table t :: stack)) :=
    fun h' w => returns_luaSetTable hkey.1 hkey.2
  refine (fits_bind_of_returns hpush).trans ?_
  refine Iff.trans (and_iff_right_of_imp fun hrest => ?_) ?_
  · exact (fits_step_of_returns hpush).mpr ⟨Nat.le_of_succ_le hrest.first, hrest.first⟩
  rw [fits_bind]
  refine and_congr_right fun hvalue => ?_
  constructor
  · intro hafter h' w hreturns
    exact ((fits_bind_of_returns (hset h' w)).mp (hafter () _ hreturns)).2
  · intro hafter _ L hreturns
    obtain ⟨h', w, rfl⟩ := PushesOne.meteredPushValue hf value h _ L hreturns
    have htop : stack.length + 3 ≤ limit := by
      have hlast := hvalue.last
      rwa [hreturns] at hlast
    refine (fits_bind_of_returns (hset h' w)).mpr ⟨?_, hafter h' w hreturns⟩
    exact (fits_step_of_returns (hset h' w)).mpr
      ⟨htop, Nat.le_trans (Nat.le_add_right (stack.length + 1) 2) htop⟩

theorem fits_table (hread : J.fromString text = .ok j) :
    Fits limit (meteredFromString J (fuel + 1) .table text) (on h stack) ↔
      Fits limit (meteredPushEntries (meteredFromString J fuel) J (entriesOf j))
        (on (h ++ [[]]) (.table h.length :: stack)) := by
  have hparsed := returns_ofLibrary hread (on h stack)
  have hnew : Returns luaNewTable (on h stack) () (on (h ++ [[]]) (.table h.length :: stack)) := rfl
  show Fits limit (meteredPushTable (meteredFromString J fuel) J text) (on h stack) ↔ _
  refine (fits_bind_of_returns hparsed).trans ?_
  refine Iff.trans (and_congr_right fun _ => fits_bind_of_returns hnew) ?_
  have hfill : Fits limit (meteredFill (meteredFromString J fuel) J j)
      (on (h ++ [[]]) (.table h.length :: stack)) ↔
      Fits limit (meteredPushEntries (meteredFromString J fuel) J (entriesOf j))
        (on (h ++ [[]]) (.table h.length :: stack)) := by
    obtain hfill | ⟨hnone, hfill⟩ := meteredFill_cases (f := meteredFromString J fuel) (J := J) j
    · rw [hfill]
    · have hpop : Returns (luaPop 1) (on (h ++ [[]]) (.table h.length :: stack)) ()
          (on (h ++ [[]]) stack) := rfl
      rw [hfill, hnone, fits_entries_nil]
      refine ⟨Fits.first, fun htop => (fits_bind_of_returns hpop).mpr ?_⟩
      have hbelow : stack.length ≤ limit := Nat.le_of_succ_le htop
      exact ⟨(fits_step_of_returns hpop).mpr ⟨htop, hbelow⟩, (fits_step_of_stays rfl).mpr hbelow⟩
  rw [hfill]
  refine ⟨fun hfits => hfits.2.2, fun hentries => ?_⟩
  have htop : stack.length + 1 ≤ limit := hentries.first
  have hbelow : stack.length ≤ limit := Nat.le_of_succ_le htop
  exact ⟨(fits_step_of_returns hparsed).mpr ⟨hbelow, hbelow⟩,
    (fits_step_of_returns hnew).mpr ⟨hbelow, htop⟩, hentries⟩

theorem fits_scalar {type : DataType} (htype : type ≠ .table) (hroom : stack.length + 1 ≤ limit) :
    Fits limit (meteredFromString J fuel type text) (on h stack) := by
  have hbelow : stack.length ≤ limit := Nat.le_of_succ_le hroom
  cases fuel with
  | zero => exact (fits_step_of_stays rfl).mpr hbelow
  | succ fuel =>
    cases type with
    | table => exact absurd rfl htype
    | string => exact fits_step.mpr ⟨hbelow, hroom⟩
    | boolean => exact fits_step.mpr ⟨hbelow, hroom⟩
    | number =>
      show Fits limit (step (pushNumber J text)) (on h stack)
      cases hcast : J.lexicalCast text with
      | ok d =>
        have hpush : Returns (pushNumber J text) (on h stack) ()
            (on h (.number (.float d) :: stack)) := (returns_ofLibrary hcast _).bind rfl
        exact (fits_step_of_returns hpush).mpr ⟨hbelow, hroom⟩
      | error e =>
        have hthrows : Throws (pushNumber J text) (on h stack) (.exception e) (on h stack) :=
          (throws_ofLibrary hcast _).bind _
        refine (fits_step_of_stays ?_).mpr hbelow
        rw [hthrows]
        rfl

-- ---------------------------------------------------------------------------
-- The slots that a text needs
-- ---------------------------------------------------------------------------

/-- The deserializer enters the value in the table: nothing before it is null or contains null. -/
def Enters (j c : Json) : Prop :=
  c ≠ .null ∧ ∃ seen rest, j.parts = seen ++ c :: rest ∧ ∀ part ∈ seen, part.All (· ≠ .null)

theorem Enters.mem {c : Json} (hc : Enters j c) : c ∈ j.parts := by
  obtain ⟨-, seen, rest, hparts, -⟩ := hc
  simp [hparts]

theorem fits_entries (hj : j.All J.Rereads) (hroom : stack.length + 2 ≤ limit)
    (hvalues : ∀ c, Enters j c → ∀ h stack', stack'.length = stack.length + 2 →
      Fits limit (meteredFromString J fuel (dataType c) (valueText J c)) (on h stack'))
    (hentries : entriesOf j = seen ++ rest)
    (hseen : ∀ part ∈ seen.map Prod.snd, part.All (· ≠ .null)) :
    Fits limit (meteredPushEntries (meteredFromString J fuel) J rest)
      (on h (.table t :: stack)) := by
  induction rest generalizing seen h with
  | nil => exact fits_entries_nil.mpr (Nat.le_of_succ_le hroom)
  | cons entry rest ih =>
    obtain ⟨key, value⟩ := entry
    have hmem : (key, value) ∈ entriesOf j := by simp [hentries]
    have hparts : j.parts = seen.map Prod.snd ++ value :: rest.map Prod.snd := by
      rw [← map_snd_entriesOf, hentries, List.map_append, List.map_cons]
    have hvalue : value.All J.Rereads := hj.of_mem_parts (by simp [hparts])
    refine (fits_entries_cons (pushesOne_fromString J fuel) (isSettable_of_mem hmem)).mpr
      ⟨?_, fun h' w hreturns => ?_⟩
    · by_cases hnull : value = .null
      · subst hnull
        exact fits_pushNull.mpr hroom
      · exact (fits_pushValue hnull).mpr (hvalues value ⟨hnull, _, _, hparts, hseen⟩ _ _ rfl)
    · rw [code_meteredPushValue (code_meteredFromString J fuel)] at hreturns
      obtain ⟨L, hpush, hnull⟩ := of_returns_pushValue hreturns
      have hreadable := readable_of_returns value hnull hvalue hpush
      have hwhole : value.All (· ≠ .null) := hreadable.imp fun _ => Readable.ne_null
      have hentries' : entriesOf j = (seen ++ [(key, value)]) ++ rest := by simp [hentries]
      refine ih hentries' ?_
      rw [List.map_append]
      exact List.forall_mem_append.mpr ⟨hseen, by simpa using hwhole⟩

theorem fits_text_of_values (hroom : stack.length + 2 ≤ limit)
    (htext : ∀ j, J.fromString text = .ok j → j.All J.Rereads ∧ ∀ c, Enters j c →
      ∀ fuel h stack', stack'.length = stack.length + 2 →
        Fits limit (meteredFromString J fuel (dataType c) (valueText J c)) (on h stack'))
    (fuel : Nat) (h : Heap) : Fits limit (meteredFromString J fuel .table text) (on h stack) := by
  have hbelow : stack.length ≤ limit := Nat.le_trans (Nat.le_add_right _ 2) hroom
  cases fuel with
  | zero => exact (fits_step_of_stays rfl).mpr hbelow
  | succ fuel =>
    cases hread : J.fromString text with
    | error e =>
      have hthrows := throws_ofLibrary hread (on h stack)
      refine fits_bind.mpr ⟨(fits_step_of_stays ?_).mpr hbelow, fun j L hreturns => ?_⟩
      · rw [hthrows]
        rfl
      · exact nomatch hthrows.symm.trans hreturns
    | ok j =>
      obtain ⟨hj, hvalues⟩ := htext j hread
      exact (fits_table hread).mpr
        (fits_entries hj hroom (fun c hc => hvalues c hc fuel) (List.nil_append _).symm nofun)

theorem fits_of_not_hasWay : (n : Nat) → ∀ {j stack}, j ≠ .null → j.All J.Rereads →
    ¬ HasWay Enters n j → stack.length + 2 * n ≤ limit → ∀ fuel h,
      Fits limit (meteredFromString J fuel (dataType j) (valueText J j)) (on h stack)
  | 0, _, _, _, _, hnone, _ => absurd trivial hnone
  | n + 1, j, stack, hne, hj, hnone, hroom => by
    have hsecond : stack.length + 2 ≤ limit :=
      Nat.le_trans (Nat.add_le_add_left (Nat.le_add_left 2 (2 * n)) stack.length) hroom
    have hvalues : ∀ c, Enters j c → ∀ fuel h (stack' : List Value),
        stack'.length = stack.length + 2 →
          Fits limit (meteredFromString J fuel (dataType c) (valueText J c)) (on h stack') := by
      intro c hc fuel h stack' hlength
      have hnext : ¬ HasWay Enters n c := fun hway => hnone ⟨c, hc, hway⟩
      exact fits_of_not_hasWay n hc.1 (hj.of_mem_parts hc.mem) hnext (by omega) fuel h
    have htable : (∀ j', J.fromString (J.toString j) = .ok j' → j' = j) → ∀ fuel h,
        Fits limit (meteredFromString J fuel .table (J.toString j)) (on h stack) := by
      intro hsame
      refine fits_text_of_values hsecond fun j' hread => ?_
      obtain rfl := hsame j' hread
      exact ⟨hj, hvalues⟩
    cases j with
    | null => exact absurd rfl hne
    | array items => exact htable fun _ => of_rereads hj.1
    | object members => exact htable fun _ => of_rereads hj.1
    | bool | number | string =>
      exact fun fuel h => fits_scalar (by simp [dataType]) (Nat.le_of_succ_le hsecond)

theorem entries_exceed {c : Json} (hne : c ≠ .null)
    (hseen : ∀ part ∈ seen.map Prod.snd, part.All (Readable J))
    (hkeys : ∀ entry ∈ seen ++ (key, c) :: rest, IsSettable entry.1)
    (hexceeds : ∃ m, ∀ fuel, m ≤ fuel → ∀ h stack, stack.length = height + 2 →
      ¬ Fits limit (meteredFromString J fuel (dataType c) (valueText J c)) (on h stack)) :
    ∃ m, ∀ fuel, m ≤ fuel → ∀ h t stack, stack.length = height → ¬ Fits limit
      (meteredPushEntries (meteredFromString J fuel) J (seen ++ (key, c) :: rest))
      (on h (.table t :: stack)) := by
  induction seen with
  | nil =>
    obtain ⟨m, hm⟩ := hexceeds
    have hkey : IsSettable key := hkeys (key, c) List.mem_cons_self
    refine ⟨m, fun fuel hfuel h t stack hlength hfits => ?_⟩
    obtain ⟨hvalue, -⟩ := (fits_entries_cons (pushesOne_fromString J fuel) hkey).mp hfits
    exact hm fuel hfuel h _ (congrArg (· + 2) hlength) ((fits_pushValue hne).mp hvalue)
  | cons entry seen ih =>
    obtain ⟨key', value⟩ := entry
    rw [List.map_cons, List.forall_mem_cons] at hseen
    rw [List.cons_append, List.forall_mem_cons] at hkeys
    obtain ⟨m, hm⟩ := ih hseen.2 hkeys.2
    obtain ⟨n, hn⟩ := returns_of_readable value hseen.1
    refine ⟨max n m, fun fuel hfuel h t stack hlength hfits => ?_⟩
    have hfuel := Nat.max_le.mp hfuel
    obtain ⟨-, hafter⟩ := (fits_entries_cons (pushesOne_fromString J fuel) hkeys.1).mp hfits
    obtain ⟨h', w, hpush, -⟩ := hn fuel hfuel.1 h (key' :: .table t :: stack)
    have hreturns := returns_pushValue (ne_null_of_readable hseen.1) hpush
    rw [← code_meteredPushValue (code_meteredFromString J fuel)] at hreturns
    exact hm fuel hfuel.2 _ t stack hlength (hafter h' w hreturns)

theorem text_exceeds {c : Json} (hread : J.fromString text = .ok j)
    (hparts : ∀ part ∈ j.parts, part.All (NullOrReadable J)) (henters : Enters j c)
    (hexceeds : ∃ m, ∀ fuel, m ≤ fuel → ∀ h stack, stack.length = height + 2 →
      ¬ Fits limit (meteredFromString J fuel (dataType c) (valueText J c)) (on h stack)) :
    ∃ m, ∀ fuel, m ≤ fuel → ∀ h stack, stack.length = height →
      ¬ Fits limit (meteredFromString J fuel .table text) (on h stack) := by
  obtain ⟨hne, seen, rest, hsplit, hseen⟩ := henters
  have hvalues := map_snd_entriesOf j
  rw [hsplit, List.map_eq_append_iff] at hvalues
  obtain ⟨before, after, hentries, hbefore, hafter⟩ := hvalues
  obtain ⟨⟨key, c'⟩, after, rfl, rfl, rfl⟩ := List.map_eq_cons_iff.mp hafter
  have hreadable : ∀ part ∈ before.map Prod.snd, part.All (Readable J) := by
    intro part hmem
    rw [hbefore] at hmem
    have hpart := hparts part (by simp [hsplit, hmem])
    exact Json.All.imp₂ (fun _ hnone hne => hnone hne) part hpart (hseen part hmem)
  have hkeys : ∀ entry ∈ before ++ (key, c') :: after, IsSettable entry.1 := by
    rw [← hentries]
    exact fun _ => isSettable_of_mem
  obtain ⟨m, hm⟩ := entries_exceed hne hreadable hkeys hexceeds
  refine ⟨m + 1, fun fuel hfuel h stack hlength hfits => ?_⟩
  obtain ⟨fuel, rfl⟩ := Nat.exists_eq_add_of_le' (Nat.le_trans (Nat.le_add_left 1 m) hfuel)
  have hloop := (fits_table hread).mp hfits
  rw [hentries] at hloop
  exact hm fuel (Nat.le_of_succ_le_succ hfuel) _ _ stack hlength hloop

theorem value_exceeds (hne : j ≠ .null) (hj : NullOrReadable J j) (hroom : limit ≤ stack.length)
    {fuel : Nat} (h : Heap) :
    ¬ Fits limit (meteredFromString J (fuel + 1) (dataType j) (valueText J j)) (on h stack) := by
  have hpushed : ∀ {c : LuaCode Unit} {w : Value}, Returns c (on h stack) () (on h (w :: stack)) →
      ¬ Fits limit (step c : MeteredCode Unit) (on h stack) := by
    intro c w hpush hfits
    have htop : stack.length + 1 ≤ limit := ((fits_step_of_returns hpush).mp hfits).2
    exact Nat.not_succ_le_self _ (Nat.le_trans htop hroom)
  have htable : ∀ {text}, J.fromString text = .ok j →
      ¬ Fits limit (meteredFromString J (fuel + 1) .table text) (on h stack) := by
    intro text hread hfits
    have htop : stack.length + 1 ≤ limit := ((fits_table hread).mp hfits).first
    exact Nat.not_succ_le_self _ (Nat.le_trans htop hroom)
  cases j with
  | null => exact absurd rfl hne
  | bool b => exact hpushed (w := .boolean (J.toString (.bool b) = "true")) rfl
  | string s => exact hpushed (w := .string (cString s)) rfl
  | number d =>
    obtain ⟨d', hcast⟩ := hj (by simp)
    exact hpushed ((returns_ofLibrary hcast _).bind rfl)
  | array items => exact htable (hj (by simp))
  | object members => exact htable (hj (by simp))

theorem exceeds_of_hasWay : (n : Nat) → ∀ {j height}, j ≠ .null → j.All (NullOrReadable J) →
    HasWay Enters n j → limit ≤ height + 2 * n → ∃ m, ∀ fuel, m ≤ fuel → ∀ h stack,
      stack.length = height →
        ¬ Fits limit (meteredFromString J fuel (dataType j) (valueText J j)) (on h stack)
  | 0, j, height, hne, hj, _, hroom => by
    have hself : NullOrReadable J j := by
      cases j with
      | array items => exact hj.1
      | object members => exact hj.1
      | _ => exact hj
    refine ⟨1, fun fuel hfuel h stack hlength => ?_⟩
    obtain ⟨fuel, rfl⟩ := Nat.exists_eq_add_of_le' hfuel
    exact value_exceeds hne hself (hlength ▸ hroom) h
  | n + 1, j, height, hne, hj, ⟨c, henters, hway⟩, hroom => by
    have hmem := henters.mem
    have hnext := exceeds_of_hasWay n henters.1 (hj.of_mem_parts hmem) hway
      (show limit ≤ height + 2 + 2 * n by omega)
    cases j with
    | array items => exact text_exceeds (hj.1 (by simp)) (fun _ => hj.of_mem_parts) henters hnext
    | object members => exact text_exceeds (hj.1 (by simp)) (fun _ => hj.of_mem_parts) henters hnext
    | null | bool | number | string => cases hmem

/-- However far the deserializer gets, its values fit, just if the text does not need more. -/
theorem always_fits_iff {n : Nat} (hlimit : limit = stack.length + 2 * (n + 1)) (h : Heap)
    (htext : ∀ j, J.fromString text = .ok j → j.All (NullOrReadable J)) :
    (∀ fuel, Fits limit (meteredFromString J fuel .table text) (on h stack)) ↔
      ∀ j, J.fromString text = .ok j → ¬ HasWay Enters (n + 1) j := by
  constructor
  · rintro hfits j hread ⟨c, henters, hway⟩
    have hj := htext j hread
    have hnext := exceeds_of_hasWay n henters.1 (hj.of_mem_parts henters.mem) hway
      (show limit ≤ stack.length + 2 + 2 * n by omega)
    obtain ⟨m, hm⟩ := text_exceeds hread (fun _ => hj.of_mem_parts) henters hnext
    exact hm m (Nat.le_refl m) h stack rfl (hfits m)
  · intro hnone fuel
    refine fits_text_of_values (by omega) (fun j hread => ?_) fuel h
    have hj : j.All J.Rereads := (htext j hread).imp fun _ => NullOrReadable.rereads
    refine ⟨hj, fun c hc fuel h stack' hlength => ?_⟩
    have hnext : ¬ HasWay Enters n c := fun hway => hnone j hread ⟨c, hc, hway⟩
    exact fits_of_not_hasWay n hc.1 (hj.of_mem_parts hc.mem) hnext (by omega) fuel h

end LambdaExecutor.Lua.Deserializer
