import LambdaExecutor.Engine.FailedRun
import LambdaExecutor.Handlers.ExecuteLambda
import LambdaExecutor.Lua.RoundTrip
import Mathlib.Data.Finset.Card

/-!
# The response which the caller gets

A response passes from the table of the script to a native response and from
there to JSON. The headers arrive, up to the limit of a header map; a status
arrives when it has 16 bits.
-/

namespace LambdaExecutor.Handlers

open Engine Formats Http Lua Raii Raii.Code

-- ---------------------------------------------------------------------------
-- What is to arrive
-- ---------------------------------------------------------------------------

/-- One header for each name that was given, with a value that was given for the name. -/
structure Represents (given delivered : List (String × String)) : Prop where
  nodup : (foldedNames delivered).Nodup
  names : ∀ name, name ∈ foldedNames delivered ↔ name ∈ foldedNames given
  values : ∀ entry ∈ delivered, ∃ entry' ∈ given,
    foldCase entry'.1 = foldCase entry.1 ∧ entry'.2 = entry.2

def stringObject (entries : List (String × String)) : Json :=
  .object (entries.map fun entry => (entry.1, .string entry.2))

def memberOf (name : String) : Json → Option Json
  | .object members => (members.find? (·.1 = name)).map Prod.snd
  | _ => none

structure Delivered (status : ℤ) (headers : List (String × String)) (body : String)
    (json : Json) : Prop where
  status : ∃ h, memberOf "status" json = some (.number (.finite status h))
  headers : ∃ delivered, Represents headers delivered ∧
    memberOf "headers" json = if headers = [] then none else some (stringObject delivered)
  body : memberOf "body" json = some (.string body)

/-- The script ends normally, and leaves a response table with these fields. -/
structure Answers (x : Invocation) (status : ℤ) (headers : List (String × String))
    (body : String) : Prop where
  upload : x.upload = .ok ()
  scriptEnd : x.scriptEnd = .ok
  nodup : (headers.map Prod.fst).Nodup
  fields : ∃ t n luaHeaders, x.global responseVariableName = .table t ∧
    x.heap.rawget t (.string "status") = .number n ∧ n.quantity = some (.rational status) ∧
    x.heap.rawget t (.string "headers") = .table luaHeaders ∧
    x.heap[luaHeaders]? = some (headers.map fun entry => (.string entry.1, .string entry.2)) ∧
    x.heap.rawget t (.string "body") = .string body

/-- Fields of a table are popped as they are; a header map keeps a name that it has,
and takes no further name when it is full. -/
structure ReadsResponses (T : ThirdParty) (limit : Nat) : Prop extends T.KeepsFields limit where
  popGlobal : ∀ heap t old popped, T.popGlobal heap (.table t) (.table old) = .ok popped →
    ∃ fields : Fields, popped = .table fields ∧
      (∀ key n, heap.rawget t (.string key) = .number n →
        fields.find key = some (.number n.toDouble)) ∧
      (∀ key s, heap.rawget t (.string key) = .string s → fields.find key = some (.string s)) ∧
      ∀ key t' (entries : List (String × String)), heap.rawget t (.string key) = .table t' →
        heap[t']? = some (entries.map fun entry => (.string entry.1, .string entry.2)) →
        (entries.map Prod.fst).Nodup →
        ∃ order : List (String × String), order.Perm entries ∧
          fields.find key = some (stringTable order)
  emplaceHeader_known : ∀ headers name value, foldCase name ∈ foldedNames headers →
    T.emplaceHeader headers name value = .ok headers
  emplaceHeader_full : ∀ headers name value, foldCase name ∉ foldedNames headers →
    limit ≤ headers.length → ∃ e, T.emplaceHeader headers name value = .error e

-- ---------------------------------------------------------------------------
-- Headers
-- ---------------------------------------------------------------------------

theorem Represents.of_perm {given given' delivered : List (String × String)}
    (h : Represents given delivered) (hperm : given.Perm given') : Represents given' delivered where
  nodup := h.nodup
  names name := (h.names name).trans (hperm.map _).mem_iff
  values entry hmem := by
    obtain ⟨entry', hmem', heq⟩ := h.values entry hmem
    exact ⟨entry', hperm.mem_iff.mp hmem', heq⟩

theorem Represents.eq_nil_iff {given delivered : List (String × String)}
    (h : Represents given delivered) : delivered = [] ↔ given = [] := by
  constructor
  · rintro rfl
    cases given with
    | nil => rfl
    | cons entry rest =>
      have hmem : foldCase entry.1 ∈ foldedNames (entry :: rest) := List.mem_cons_self
      exact nomatch (h.names _).mpr hmem
  · rintro rfl
    cases delivered with
    | nil => rfl
    | cons entry rest =>
      have hmem : foldCase entry.1 ∈ foldedNames (entry :: rest) := List.mem_cons_self
      exact nomatch (h.names _).mp hmem

theorem Represents.cons_known {name value : String} {given delivered : List (String × String)}
    (h : Represents given delivered) (hknown : foldCase name ∈ foldedNames given) :
    Represents ((name, value) :: given) delivered where
  nodup := h.nodup
  names name' := by
    refine (h.names name').trans ⟨List.mem_cons_of_mem _, ?_⟩
    rintro (_ | ⟨_, hmem⟩)
    · exact hknown
    · exact hmem
  values entry hmem := by
    obtain ⟨entry', hmem', heq⟩ := h.values entry hmem
    exact ⟨entry', List.mem_cons_of_mem _ hmem', heq⟩

variable {T : ThirdParty} {limit : Nat}

def distinctNames (headers : List (String × String)) : Nat := (foldedNames headers).toFinset.card

theorem distinctNames_le {headers headers' : List (String × String)} (h : headers ⊆ headers') :
    distinctNames headers ≤ distinctNames headers' := by
  apply Finset.card_le_card
  intro name hmem
  rw [List.mem_toFinset] at hmem ⊢
  exact List.map_subset _ h hmem

theorem distinctNames_of_perm {headers headers' : List (String × String)}
    (h : headers.Perm headers') : distinctNames headers = distinctNames headers' :=
  Nat.le_antisymm (distinctNames_le h.subset) (distinctNames_le h.symm.subset)

theorem distinctNames_of_nodup {headers : List (String × String)}
    (h : (foldedNames headers).Nodup) : distinctNames headers = headers.length :=
  (List.toFinset_card_of_nodup h).trans (List.length_map _)

theorem distinctNames_known {name value : String} {headers : List (String × String)}
    (h : foldCase name ∈ foldedNames headers) :
    distinctNames ((name, value) :: headers) = distinctNames headers := by
  have hmem : foldCase name ∈ (foldedNames headers).toFinset := List.mem_toFinset.mpr h
  simp only [distinctNames, foldedNames, List.map_cons, List.toFinset_cons]
  exact congrArg Finset.card (Finset.insert_eq_of_mem hmem)

theorem emplaceHeader_cases (hT : ReadsResponses T limit) {headers : List (String × String)}
    (h : IsHeaderMap limit headers) (name value : String) :
    (foldCase name ∈ foldedNames headers ∧ T.emplaceHeader headers name value = .ok headers) ∨
    (∃ next, T.emplaceHeader headers name value = .ok next ∧
      next.Perm ((name, value) :: headers) ∧ IsHeaderMap limit next) ∨
    (limit < distinctNames ((name, value) :: headers) ∧
      ∃ e, T.emplaceHeader headers name value = .error e) := by
  by_cases hknown : foldCase name ∈ foldedNames headers
  · exact .inl ⟨hknown, hT.emplaceHeader_known _ _ _ hknown⟩
  · have hnodup : (foldedNames ((name, value) :: headers)).Nodup :=
      List.nodup_cons.mpr ⟨hknown, h.nodup⟩
    by_cases hroom : headers.length < limit
    · obtain ⟨next, hnext, hperm⟩ := hT.emplaceHeader headers name value hknown hroom
      have hmap : IsHeaderMap limit next :=
        ⟨(hperm.map _).nodup_iff.mpr hnodup, hperm.length_eq.trans_le hroom⟩
      exact .inr (.inl ⟨next, hnext, hperm, hmap⟩)
    · have hfull : limit ≤ headers.length := Nat.le_of_not_lt hroom
      refine .inr (.inr ⟨?_, hT.emplaceHeader_full headers name value hknown hfull⟩)
      rw [distinctNames_of_nodup hnodup]
      exact Nat.lt_succ_of_le hfull

theorem emplaceAll_represents (hT : ReadsResponses T limit) (entries : List (String × String)) :
    ∀ headers, IsHeaderMap limit headers →
      ((∃ result, T.emplaceAll entries headers = .ok result) ↔
        distinctNames (entries ++ headers) ≤ limit) ∧
      ∀ result, T.emplaceAll entries headers = .ok result →
        Represents (entries ++ headers) result := by
  induction entries with
  | nil =>
    intro headers h
    refine ⟨iff_of_true ⟨headers, rfl⟩ ((distinctNames_of_nodup h.nodup).trans_le h.length_le), ?_⟩
    rintro result ⟨⟩
    exact ⟨h.nodup, fun _ => .rfl, fun entry hmem => ⟨entry, hmem, rfl, rfl⟩⟩
  | cons entry entries ih =>
    intro headers h
    obtain ⟨name, value⟩ := entry
    rw [emplaceAll_cons, List.cons_append]
    rcases emplaceHeader_cases hT h name value with
      ⟨hknown, hkept⟩ | ⟨next, hnext, hperm, hmap⟩ | ⟨hmany, e, hfull⟩
    · -- The name is kept with its earlier value.
      have hknown' : foldCase name ∈ foldedNames (entries ++ headers) := by
        simpa [foldedNames] using Or.inr (List.mem_map.mp hknown)
      rw [hkept, distinctNames_known hknown']
      obtain ⟨hok, hrepresents⟩ := ih headers h
      exact ⟨hok, fun result hresult => (hrepresents result hresult).cons_known hknown'⟩
    · have hmiddle : (entries ++ next).Perm ((name, value) :: (entries ++ headers)) :=
        (hperm.append_left entries).trans List.perm_middle
      rw [hnext, ← distinctNames_of_perm hmiddle]
      obtain ⟨hok, hrepresents⟩ := ih next hmap
      exact ⟨hok, fun result hresult => (hrepresents result hresult).of_perm hmiddle⟩
    · have hmore : distinctNames ((name, value) :: headers) ≤
          distinctNames ((name, value) :: (entries ++ headers)) :=
        distinctNames_le (List.cons_subset_cons _ (List.subset_append_right _ _))
      rw [hfull]
      refine ⟨iff_of_false ?_ (by omega), ?_⟩
      · rintro ⟨result, hresult⟩
        cases hresult
      · intro result hresult
        cases hresult

-- ---------------------------------------------------------------------------
-- The status
-- ---------------------------------------------------------------------------

def statusBits (status : Int32) : UInt16 := UInt16.ofBitVec (status.toBitVec.setWidth 16)

theorem statusBits_ofInt {s : ℤ} (hlow : 0 ≤ s) (hhigh : s < 65536) :
    ((statusBits (Int32.ofInt s)).toNat : ℤ) = s := by
  obtain ⟨k, rfl⟩ := Int.eq_ofNat_of_zero_le hlow
  have hk : k < 65536 := by exact_mod_cast hhigh
  simp only [statusBits, UInt16.toNat_ofBitVec, BitVec.toNat_setWidth, Int32.toBitVec_ofInt,
    BitVec.ofInt_natCast, BitVec.toNat_ofNat]
  omega

theorem toDouble_eq_statusNumber {n : Number} {s : ℤ} (hn : n.quantity = some (.rational s))
    (hlow : 0 ≤ s) (hhigh : s < 65536) : n.toDouble = statusNumber (Int32.ofInt s) := by
  have hint : (Int32.ofInt s).toInt = s := Int32.toInt_ofInt_of_le (by omega) (by omega)
  have hexact : Binary64.roundInt s = s := by
    simpa [hint] using roundInt_status (Int32.ofInt s)
  cases n with
  | integer i =>
    have hi : i.toInt = s := by
      simpa [Number.quantity] using hn
    simp only [Number.toDouble, Double.ofInt64, statusNumber, hi, hint]
  | float d =>
    cases d with
    | finite q h =>
      have hq : q = s := by
        simpa [Number.quantity] using hn
      simp only [Number.toDouble, statusNumber, hexact, hint, hq]
    | infinity negative => simp [Number.quantity] at hn
    | nan => simp [Number.quantity] at hn

theorem ofUInt16_eq_finite {m : UInt16} {s : ℤ} :
    (∃ h, ofUInt16 m = .finite s h) ↔ (m.toNat : ℤ) = s := by
  constructor
  · rintro ⟨_, h⟩
    have hcast : (m.toNat : ℚ) = s := Double.finite.inj h
    exact_mod_cast hcast
  · rintro rfl
    rw [Int.cast_natCast]
    exact ⟨_, rfl⟩

theorem status_arrives_iff (hT : T.KeepsFields limit) {n : Number} {s : ℤ}
    (hn : n.quantity = some (.rational s)) :
    (∃ h, ofUInt16 (statusBits (T.toHttpStatus n.toDouble)) = .finite s h) ↔ 0 ≤ s ∧ s < 65536 := by
  rw [ofUInt16_eq_finite]
  constructor
  · intro hs
    have := (statusBits (T.toHttpStatus n.toDouble)).toNat_lt
    omega
  · rintro ⟨hlow, hhigh⟩
    rw [toDouble_eq_statusNumber hn hlow hhigh, hT.toHttpStatus]
    exact statusBits_ofInt hlow hhigh

-- ---------------------------------------------------------------------------
-- The JSON
-- ---------------------------------------------------------------------------

variable {J : JsonLibrary}

theorem emplaceStrings (hJ : J.Builds) (entries : List (String × String)) :
    ∀ members, entries.foldlM (fun builder entry =>
        J.emplaceNocheck builder entry.1 (.string entry.2)) (Json.object members) =
      .ok (.object (members ++ entries.map fun entry => (entry.1, .string entry.2))) := by
  induction entries with
  | nil => simp [pure, Except.pure]
  | cons entry entries ih =>
    intro members
    simp only [List.foldlM_cons, hJ.emplaceNocheck_object]
    exact (ih _).trans (by simp)

theorem toJson_eq (hJ : J.Builds) (response : Response) : response.toJson J = .ok (.object
    (("status", .number (ofUInt16 (statusBits response.status))) ::
      (if response.headers = [] then [] else [("headers", stringObject response.headers)]) ++
        [("body", .string response.body)])) := by
  obtain ⟨⟨headers, body⟩, status⟩ := response
  simp only [Response.toJson, hJ.emplaceNocheck_null]
  cases headers with
  | nil => exact hJ.emplaceNocheck_object _ _ _
  | cons entry rest =>
    have hheaders : (entry :: rest).foldlM (fun builder entry =>
        J.emplaceNocheck builder entry.1 (.string entry.2)) Json.null =
          .ok (stringObject (entry :: rest)) := by
      simp only [List.foldlM_cons, hJ.emplaceNocheck_null]
      exact emplaceStrings hJ rest _
    simp only [hheaders, bind, Except.bind, stringObject, hJ.emplaceNocheck_object]
    rfl

theorem memberOf_toJson (hJ : J.Builds) {response : Response} {json : Json}
    (h : response.toJson J = .ok json) :
    memberOf "status" json = some (.number (ofUInt16 (statusBits response.status))) ∧
    memberOf "headers" json =
      (if response.headers = [] then none else some (stringObject response.headers)) ∧
    memberOf "body" json = some (.string response.body) := by
  obtain rfl := Except.ok.inj ((toJson_eq hJ response).symm.trans h)
  refine ⟨rfl, ?_, ?_⟩
  · split <;> rfl
  · split <;> rfl

-- ---------------------------------------------------------------------------
-- The whole way
-- ---------------------------------------------------------------------------

variable {x : Invocation} {s : ℤ} {headers : List (String × String)} {body : String}

theorem wp_destroyContext_of_answers (hT : ReadsResponses T limit) (hx : Answers x s headers body)
    {entered env : LuaEnvironment} {old : Fields}
    (hat : entered.at responseVariableName = some (.table old))
    (hpop : popGlobals T x.heap x.global entered = .ok env) :
    ∃ (n : Number) (order : List (String × String)), n.quantity = some (.rational s) ∧
      order.Perm headers ∧ ∀ Q : Unit → Exchange → Prop,
        wp (destroyContext T) Q (fun _ _ => False) { env := env, response := none } ↔
          ∃ made, T.emplaceAll order [] = .ok made ∧
          Q () (Exchange.mk env (some
            { status := T.toHttpStatus n.toDouble, headers := made, body := body })) := by
  obtain ⟨t, n, luaHeaders, hglobal, hstatus, hn, hheaders, hentries, hbody⟩ := hx.fields
  obtain ⟨popped, hpopped, hat'⟩ := popGlobals_at hpop hat
  rw [hglobal] at hpopped
  obtain ⟨fields, rfl, hnumbers, hstrings, htables⟩ := hT.popGlobal _ _ _ _ hpopped
  obtain ⟨order, horder, hfound⟩ := htables _ _ _ hheaders hentries hx.nodup
  refine ⟨n, order, hn, horder, fun Q => ?_⟩
  simp only [wp_destroyContext, wp_populateNativeResponseFrom, hat', Option.some.injEq,
    LuaObject.table.injEq, exists_eq_left', hnumbers _ _ hstatus, LuaObject.number.injEq, hfound,
    stringTable, populateHeaders_strings hT.toKeepsFields, hstrings _ _ hbody, hT.toString]

theorem wp_answer (handler : ExecuteLambda) (x : Invocation) (Q : Json → Session → Prop)
    (session : Session) :
    wp (handler.answer x) Q (fun _ _ => True) session ↔
      wp (execute (x.primitives handler.T))
        (fun _ session' => ∃ json, session'.context.response.toJson handler.J = .ok json ∧
          Q json session') (fun _ _ => True) session := by
  simp only [ExecuteLambda.answer, ExecuteLambda.executeScript, wp_bind, wp_mapError, wp_read]
  refine iff_of_eq (congrFun (congrArg (wp (execute (x.primitives handler.T)) · _) ?_) session)
  funext _ session'
  cases session'.context.response.toJson handler.J with
  | ok json => simp
  | error e => simp

/-- The response arrives, or an error is answered, exactly when the status has 16 bits,
every variable can be popped and the names of the headers fit into a header map. -/
theorem response_delivered_iff (handler : ExecuteLambda) (hT : ReadsResponses handler.T limit)
    (hJ : handler.J.Builds) (hx : Answers x s headers body) (session : Session) :
    wp (handler.answer x) (fun json _ => Delivered s headers body json) (fun _ _ => True) session ↔
      (0 ≤ s ∧ s < 65536) ∧
      (∀ entry ∈ (x.setup session.context).environment,
        ∃ popped, handler.T.popGlobal x.heap (x.global entry.1) entry.2 = .ok popped) ∧
      distinctNames headers ≤ limit := by
  have hat := environment_at_response (x.setup session.context)
  rw [wp_answer, wp_execute_ok hx.upload hx.scriptEnd, ← popGlobals_isOk]
  constructor
  · rintro ⟨env, hpop, hdestroy⟩
    obtain ⟨n, order, hn, horder, hwp⟩ := wp_destroyContext_of_answers hT hx hat hpop
    obtain ⟨made, hmade, json, hjson, hdelivered⟩ := (hwp _).mp hdestroy
    obtain ⟨hstatus, -, -⟩ := memberOf_toJson hJ hjson
    obtain ⟨h, hfound⟩ := hdelivered.status
    have hnumber := Json.number.inj (Option.some.inj (hstatus.symm.trans hfound))
    have hfits := (emplaceAll_represents hT order [] ⟨.nil, Nat.zero_le _⟩).1.mp ⟨made, hmade⟩
    rw [List.append_nil, distinctNames_of_perm horder] at hfits
    exact ⟨(status_arrives_iff hT.toKeepsFields hn).mp ⟨h, hnumber⟩, ⟨env, hpop⟩, hfits⟩
  · rintro ⟨hrange, ⟨env, hpop⟩, hfits⟩
    obtain ⟨n, order, hn, horder, hwp⟩ := wp_destroyContext_of_answers hT hx hat hpop
    obtain ⟨hok, hrepresents⟩ := emplaceAll_represents hT order [] ⟨.nil, Nat.zero_le _⟩
    rw [List.append_nil, distinctNames_of_perm horder] at hok
    obtain ⟨made, hmade⟩ := hok.mpr hfits
    have hmap : Represents headers made := by
      simpa using (hrepresents made hmade).of_perm (by simpa using horder)
    obtain ⟨h, hnumber⟩ := (status_arrives_iff hT.toKeepsFields hn).mpr hrange
    have hjson := toJson_eq hJ
      { status := handler.T.toHttpStatus n.toDouble, headers := made, body := body }
    obtain ⟨hstatus, hheaders, hbody⟩ := memberOf_toJson hJ hjson
    refine ⟨env, hpop, (hwp _).mpr ⟨made, hmade, _, hjson, ?_⟩⟩
    refine ⟨⟨h, hstatus.trans (congrArg (fun d => some (Json.number d)) hnumber)⟩,
      ⟨made, hmap, hheaders.trans ?_⟩, hbody⟩
    simp only [hmap.eq_nil_iff]

-- ---------------------------------------------------------------------------
-- Answers to run
-- ---------------------------------------------------------------------------

theorem readEntries_get {read : Value → Except Exception LuaObject} {entries : Table}
    {fields : Fields} (h : readEntries read entries = .ok fields) {key : String} {v : Value}
    (hget : entries.get (.string key) = v) (hv : v ≠ .nil) :
    ∃ object, read v = .ok object ∧ fields.find key = some object := by
  induction entries generalizing fields with
  | nil => exact absurd hget.symm hv
  | cons entry rest ih =>
    obtain ⟨k, v'⟩ := entry
    simp only [readEntries, bind_ok] at h
    obtain ⟨k', hk, object, hobject, fields', hrest, hfields⟩ := h
    cases hfields
    by_cases hkey : k = .string key
    · have hk' := (readKey_eq_string hk (s := key)).mpr hkey
      have hv' : v' = v := by
        simpa [Table.get_cons, hkey] using hget
      exact ⟨object, hv' ▸ hobject, by simp [Fields.find, hk']⟩
    · have hk' := mt (readKey_eq_string hk (s := key)).mp hkey
      have hget' : Table.get rest (.string key) = v := by
        simpa [Table.get_cons, hkey] using hget
      obtain ⟨object', hread, hfind⟩ := ih hrest hget'
      exact ⟨object', hread, by simpa [Fields.find, hk'] using hfind⟩

theorem readEntries_strings {h : Heap} {depth : Nat} (entries : List (String × String)) :
    readEntries (readValue h depth)
        (entries.map fun entry => (Value.string entry.1, Value.string entry.2)) =
      .ok (entries.map fun entry => (Key.string entry.1, LuaObject.string entry.2)) := by
  induction entries with
  | nil => rfl
  | cons entry entries ih =>
    simp only [List.map_cons, readEntries, ih]
    cases depth <;> rfl

theorem popGlobal_fields {heap : Heap} {t : TableRef} {old : Fields} {popped : LuaObject}
    (hpop : (withHeaderMaps limit).popGlobal heap (.table t) (.table old) = .ok popped) :
    ∃ fields : Fields, popped = .table fields ∧
      ∀ key v, heap.rawget t (.string key) = v → v ≠ .nil →
        ∃ object, readValue heap heap.length v = .ok object ∧ fields.find key = some object := by
  replace hpop : (readEntries (readValue heap heap.length) (heap[t]?.getD [])).map .table =
    .ok popped := hpop
  cases hread : readEntries (readValue heap heap.length) (heap[t]?.getD []) with
  | error e => exact absurd (hread ▸ hpop) nofun
  | ok fields =>
    rw [hread] at hpop
    refine ⟨fields, (Except.ok.inj hpop).symm, fun key v hv hne => ?_⟩
    have hget : Table.get (heap[t]?.getD []) (.string key) = v := by
      rw [← hv]
      dsimp only [Heap.rawget, Value.toKey]
      cases heap[t]? <;> rfl
    exact readEntries_get hread hget hne

theorem withHeaderMaps_readsResponses (limit : Nat) :
    ReadsResponses (withHeaderMaps limit) limit where
  toKeepsFields := withHeaderMaps_keepsFields limit
  popGlobal heap t old popped hpop := by
    obtain ⟨fields, rfl, hfields⟩ := popGlobal_fields hpop
    refine ⟨fields, rfl, ?_, ?_, ?_⟩
    · intro key n hn
      obtain ⟨object, hobject, hfind⟩ := hfields key _ hn (by simp)
      unfold readValue at hobject
      cases hobject
      exact hfind
    · intro key s hs
      obtain ⟨object, hobject, hfind⟩ := hfields key _ hs (by simp)
      unfold readValue at hobject
      cases hobject
      exact hfind
    · intro key t' entries ht' hentries _
      obtain ⟨object, hobject, hfind⟩ := hfields key _ ht' (by simp)
      obtain ⟨depth, hdepth⟩ : ∃ depth, heap.length = depth + 1 := by
        have := (List.getElem?_eq_some_iff.mp hentries).1
        exact ⟨heap.length - 1, by omega⟩
      refine ⟨entries, .refl _, hfind.trans ?_⟩
      rw [hdepth, readValue, hentries, Option.getD_some, readEntries_strings] at hobject
      cases hobject
      rfl
  emplaceHeader_known headers name value hknown := if_pos hknown
  emplaceHeader_full headers name value hnew hfull := by
    refine ⟨_, (if_neg hnew).trans (if_neg ?_)⟩
    omega

def plainHeaders : List (String × String) :=
  [("Content-Type", "plain/text"), ("X-My-Header", "some-value")]

def answering (status : Int64) : Invocation where
  ndebug := true
  deps := { httpClient := true, projectStorage := true }
  upload := .ok ()
  scriptEnd := .ok
  heap := [[(.string "status", .number (.integer status)), (.string "headers", .table 1),
    (.string "body", .string "Hi")],
    plainHeaders.map fun entry => (.string entry.1, .string entry.2), []]
  global := (leaves created created_ne_nil).global

def testHandler : ExecuteLambda where
  T := withHeaderMaps 32768
  H := { typeMismatch := .stdException "Wrong type", memberMissing := .stdException,
         methodFromString := .ok, emplaceHeader := emplaceHeader 32768 }
  J := textLibrary
  lexicalCast _ := none
  get _ := .error (.notFoundScriptError "Script not found")

theorem answers_answering (status : Int64) :
    Answers (answering status) status.toInt plainHeaders "Hi" where
  upload := rfl
  scriptEnd := rfl
  nodup := by decide
  fields := ⟨0, .integer status, 1, rfl, rfl, rfl, rfl, rfl, rfl⟩

theorem created_delivered : wp (testHandler.answer (answering 201))
    (fun json _ => Delivered 201 plainHeaders "Hi" json) (fun _ _ => True)
    (.start { request := .default, response := .default }) := by
  have hstatus : (201 : Int64).toInt = 201 := by decide
  have hanswers : Answers (answering 201) 201 plainHeaders "Hi" := by
    simpa only [hstatus] using answers_answering 201
  have hpopped : (popGlobals testHandler.T (answering 201).heap (answering 201).global
      Setup.release.environment).toOption.isSome := by decide +kernel
  have hvariables : ∃ env, popGlobals testHandler.T (answering 201).heap (answering 201).global
      Setup.release.environment = .ok env := by
    cases hresult : popGlobals testHandler.T (answering 201).heap (answering 201).global
        Setup.release.environment with
    | ok env => exact ⟨env, rfl⟩
    | error e => simp [hresult, Except.toOption] at hpopped
  have hnames : distinctNames plainHeaders ≤ 32768 :=
    Nat.le_trans (List.toFinset_card_le _) (by decide)
  exact (response_delivered_iff testHandler (withHeaderMaps_readsResponses 32768)
    textLibrary_builds hanswers (.start { request := .default, response := .default })).mpr
      ⟨by decide, (popGlobals_isOk _).mp hvariables, hnames⟩

def answeredStatus : Result HandlerError Session Json → Option Double
  | .done json _ =>
    match memberOf "status" json with
    | some (.number status) => some status
    | _ => none
  | _ => none

theorem large_status_arrives_as_ok :
    answeredStatus (testHandler.answer (answering 65736)
      (.start { request := .default, response := .default })) = some (ofUInt16 200) ∧
    ¬ wp (testHandler.answer (answering 65736))
      (fun json _ => Delivered 65736 plainHeaders "Hi" json) (fun _ _ => True)
      (.start { request := .default, response := .default }) := by
  have hstatus : answeredStatus (testHandler.answer (answering 65736)
      (.start { request := .default, response := .default })) = some (ofUInt16 200) := by
    decide +kernel
  refine ⟨hstatus, fun h => ?_⟩
  unfold wp at h
  cases hresult : testHandler.answer (answering 65736)
      (.start { request := .default, response := .default }) with
  | done json session =>
    rw [hresult] at h hstatus
    obtain ⟨hbinary, hdelivered⟩ := h.status
    simp only [answeredStatus, hdelivered, Option.some.injEq] at hstatus
    have hnumber : ((65736 : ℤ) : ℚ) = ((200 : Nat) : ℚ) := Double.finite.inj hstatus
    norm_num at hnumber
  | threw e session => simp [hresult, answeredStatus] at hstatus
  | terminated session => simp [hresult, answeredStatus] at hstatus

end LambdaExecutor.Handlers
