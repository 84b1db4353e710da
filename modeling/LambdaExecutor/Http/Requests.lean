import LambdaExecutor.Http.Parameters
import LambdaExecutor.Lua.EncodesLaws

/-!
# The requests that `client:send` makes

The arguments of the method say which request they stand for, or that they stand for
none. `client:send` hands over a request which its arguments stand for, and nothing
else, where none of the names in the query and the headers is a number and no code of
the script runs meanwhile.
-/

namespace LambdaExecutor.Http.ClientMethod

open Lua Formats Raii Raii.Code Emplace
open Serializer (on valueOf returns_toString_iff encodes_of_valueOf valueOf_of_encodes)
open Deserializer (valueText)

variable {H : HttpLibrary} {J : JsonLibrary} {numberText : Number → String} {h : Heap}
  {t p : TableRef} {k v url method params : Value} {stack below : List Value} {error : String}
  {fuel limit : Nat} {L : LuaState} {request made : Request}
  {emplace : List (String × String) → String → String → Except Exception (List (String × String))}
  {entries map : List (String × String)} {same : String → String} {most : Option Nat}

-- ---------------------------------------------------------------------------
-- What the arguments stand for
-- ---------------------------------------------------------------------------

/-- The names of the map are the keys of the table, cut at a `NUL`, and each comes with a value
that the table has under it. Of values under names which are the same, any one is meant. -/
structure StandsForTable (same : String → String) (most : Option Nat)
    (numberText : Number → String) (table : Table) (map : List (String × String)) : Prop where
  text : ∀ entry ∈ table, (∃ s, entry.1 = .string s) ∧ IsText entry.2
  names : ∀ name, name ∈ keys same map ↔
    ∃ entry ∈ table, same (cString (stringForm numberText entry.1)) = name
  values : ∀ item ∈ map, ∃ entry ∈ table, itemOf numberText entry = item
  nodup : (keys same map).Nodup
  fits : ∀ n ∈ most, map.length ≤ n

/-- No table is an empty one. -/
def StandsForEntries (same : String → String) (most : Option Nat) (numberText : Number → String)
    (h : Heap) (v : Value) (map : List (String × String)) : Prop :=
  v = .nil ∧ map = [] ∨
    ∃ t, v = .table t ∧ StandsForTable same most numberText (h.entries t) map

/-- The text of a value; no value is the empty text. -/
def StandsForBody (J : JsonLibrary) (h : Heap) (v : Value) (body : String) : Prop :=
  v = .nil ∧ body = "" ∨ ∃ j, Encodes h v j ∧ body = valueText J j

structure StandsForParams (J : JsonLibrary) (limit : Nat) (numberText : Number → String)
    (h : Heap) (p : TableRef) (request : Request) : Prop where
  query : StandsForEntries id none numberText h (h.rawget p (.string "query")) request.query
  headers : StandsForEntries foldCase (some limit) numberText h
    (h.rawget p (.string "headers")) request.headers
  body : StandsForBody J h (h.rawget p (.string "body")) request.body

structure StandsForTarget (H : HttpLibrary) (numberText : Number → String) (method url : Value)
    (request : Request) : Prop where
  isText : IsText method ∧ IsText url
  method : H.methodFromString (cString (stringForm numberText method)) = .ok request.method
  url : request.url = cString (stringForm numberText url)

/-- The arguments, the last one first, stand for the request. -/
def StandsFor (H : HttpLibrary) (J : JsonLibrary) (limit : Nat) (numberText : Number → String)
    (h : Heap) : List Value → Request → Prop
  | [url, method, _, _], request => StandsForTarget H numberText method url request ∧
      request.query = [] ∧ request.headers = [] ∧ request.body = ""
  | [params, url, method, _, _], request => StandsForTarget H numberText method url request ∧
      (params = .nil ∧ request.query = [] ∧ request.headers = [] ∧ request.body = "" ∨
        ∃ p, params = .table p ∧ StandsForParams J limit numberText h p request)
  | _, _ => False

section Table

variable (hh : h.Lawful) (hemplace : Emplaces same most emplace) (hlength : below.length = 5)
include hh hemplace hlength

theorem standsForTable_of_returns
    (hnumbers : ∀ entry ∈ h.entries t, entry.1.type ≠ .number)
    (hreturns : Returns (populateEntries numberText error emplace fuel [])
      (on h (.nil :: .table t :: below)) map L) :
    StandsForTable same most numberText (h.entries t) map := by
  have ht : h[t]?.getD [] = h.entries t := rfl
  obtain ⟨htext, hall⟩ := emplaceAll_of_returns hlength ht (hh.entries t).1 rfl
    (.inl ⟨rfl, rfl⟩) hnumbers hreturns
  have hfilled := hemplace.filled (by simp) hall
  refine ⟨htext, fun name => ?_, fun item hitem => ?_, hfilled.nodup, fun n hn =>
    hfilled.length_le n hn (Nat.zero_le n)⟩
  · rw [hfilled.keys_iff, keys, keys, List.map_map]
    simp [itemOf]
  · obtain hnone | hmem := hfilled.origin item hitem
    · exact absurd hnone List.not_mem_nil
    · exact List.mem_map.mp hmem

theorem returns_of_standsForTable (error : String)
    (hstands : StandsForTable same most numberText (h.entries t) map) :
    ∃ made n, ∀ fuel, n ≤ fuel → Returns (populateEntries numberText error emplace fuel [])
      (on h (.nil :: .table t :: below)) made (on h (.table t :: below)) := by
  have hfits : ∀ n ∈ most,
      (keys same ((h.entries t).map (itemOf numberText))).toFinset.card ≤ n := by
    intro n hn
    have hkeys : (keys same ((h.entries t).map (itemOf numberText))).toFinset =
        (keys same map).toFinset := by
      ext name
      rw [List.mem_toFinset, List.mem_toFinset, hstands.names, keys, List.map_map]
      simp [itemOf]
    rw [hkeys, List.toFinset_card_of_nodup hstands.nodup, keys, List.length_map]
    exact hstands.fits n hn
  obtain ⟨made, hall⟩ := hemplace.ok_iff.mpr hfits
  exact ⟨made, (h.entries t).length + 1, fun fuel hfuel => returns_populateEntries hlength rfl
    (hh.entries t).1 rfl (.inl ⟨rfl, rfl⟩) hstands.text hall hfuel⟩

end Table

-- ---------------------------------------------------------------------------
-- The query and the headers
-- ---------------------------------------------------------------------------

theorem populateField_apply {α : Type} {name : String} {default : α}
    {populate : LuaType → LuaCode α} (hlength : stack.length = 4)
    (hv : h.rawget p (.string (cString name)) = v) :
    populateField name default populate (on h (.table p :: stack)) =
      if v = .nil then .done default (on h (v :: .table p :: stack))
      else populate v.type (on h (v :: .table p :: stack)) := by
  subst hv
  have hat : (on h (.string (cString name) :: .table p :: stack)).at 5 = some (.table p) := by
    show (Value.string (cString name) :: .table p :: stack).reverse[4]? = _
    simp [hlength]
  have hget : Returns (luaGetTable 5) (on h (.string (cString name) :: .table p :: stack))
      (h.rawget p (.string (cString name))).type
      (on h (h.rawget p (.string (cString name)) :: .table p :: stack)) := by
    show luaGetTable 5 _ = _
    unfold luaGetTable
    rw [hat]
    rfl
  show (luaGetTable 5 >>= _) (on h (.string (cString name) :: .table p :: stack)) = _
  rw [hget.bind_apply]
  simp only [ne_eq, Value.type_eq_nil, ite_not]
  split <;> rfl

/-- `PopulateQueryParams` or `PopulateHeaders`: any type but a table is refused. -/
structure Populates (numberText : Number → String) (error : String)
    (emplace : List (String × String) → String → String →
      Except Exception (List (String × String)))
    (populate : Nat → LuaType → LuaCode (List (String × String))) : Prop where
  table : ∀ fuel L, populate fuel .table L =
    populateEntries numberText error emplace fuel [] { L with stack := .nil :: L.stack }
  other : ∀ fuel type, type ≠ .table → ∃ message, populate fuel type = luaLError message

theorem populates_queryParams : Populates numberText
    "Expected a string type of key and value for query parameter" emplaceQuery
    fun fuel => populateQueryParams fuel numberText :=
  ⟨fun _ _ => rfl, fun _ _ htype => ⟨_, if_pos htype⟩⟩

theorem populates_headers : Populates numberText
    "Expected a string type of key and value for headers" H.emplaceHeader
    fun fuel => populateHeaders H fuel numberText :=
  ⟨fun _ _ => rfl, fun _ _ htype => ⟨_, if_pos htype⟩⟩

section Field

variable {populate : Nat → LuaType → LuaCode (List (String × String))} {name : String}
  (hpopulates : Populates numberText error emplace populate) (hlength : stack.length = 4)
  (hv : h.rawget p (.string (cString name)) = v)
include hpopulates hlength hv

theorem populateField_table (ht : v = .table t) :
    populateField name [] (populate fuel) (on h (.table p :: stack)) =
      populateEntries numberText error emplace fuel []
        (on h (.nil :: .table t :: .table p :: stack)) := by
  subst ht
  rw [populateField_apply hlength hv, if_neg nofun]
  exact hpopulates.table fuel _

theorem field_of_returns
    (hreturns : Returns (populateField name [] (populate fuel)) (on h (.table p :: stack))
      map L) :
    L = on h (v :: .table p :: stack) ∧ (v = .nil ∧ map = [] ∨ ∃ t, v = .table t ∧
      Returns (populateEntries numberText error emplace fuel [])
        (on h (.nil :: .table t :: .table p :: stack)) map L) := by
  by_cases hnil : v = .nil
  · rw [Returns, populateField_apply hlength hv, if_pos hnil] at hreturns
    obtain ⟨rfl, rfl⟩ := Result.done.inj hreturns
    exact ⟨rfl, .inl ⟨hnil, rfl⟩⟩
  · by_cases htable : ∃ t, v = .table t
    · obtain ⟨t, rfl⟩ := htable
      rw [Returns, populateField_table hpopulates hlength hv rfl] at hreturns
      exact ⟨state_of_returns (by simp [hlength]) hreturns, .inr ⟨t, rfl, hreturns⟩⟩
    · have htype : v.type ≠ .table := by
        intro htype
        cases v with
        | table t => exact htable ⟨t, rfl⟩
        | _ => cases htype
      obtain ⟨message, hother⟩ := hpopulates.other fuel v.type htype
      rw [Returns, populateField_apply hlength hv, if_neg hnil, hother] at hreturns
      cases hreturns

section Entries

variable (hh : h.Lawful) (hemplace : Emplaces same most emplace)
include hh hemplace

/-- What is read is a map that the field stands for, though perhaps another one. -/
theorem returns_of_standsForEntries
    (hstands : StandsForEntries same most numberText h v map) :
    ∃ made, StandsForEntries same most numberText h v made ∧ ∃ n, ∀ fuel, n ≤ fuel →
      Returns (populateField name [] (populate fuel)) (on h (.table p :: stack)) made
        (on h (v :: .table p :: stack)) := by
  obtain ⟨hnil, rfl⟩ | ⟨t, rfl, htable⟩ := hstands
  · refine ⟨[], .inl ⟨hnil, rfl⟩, 0, fun fuel _ => ?_⟩
    rw [Returns, populateField_apply hlength hv, if_pos hnil]
  · have hfive : (Value.table p :: stack).length = 5 := by simp [hlength]
    have hnumbers : ∀ entry ∈ h.entries t, entry.1.type ≠ .number := by
      intro entry hmem
      obtain ⟨⟨s, hs⟩, -⟩ := htable.text entry hmem
      rw [hs]
      show LuaType.string ≠ .number
      decide
    obtain ⟨made, n, hn⟩ := returns_of_standsForTable hh hemplace hfive error htable
    have hmade := standsForTable_of_returns hh hemplace hfive hnumbers (hn n (Nat.le_refl n))
    refine ⟨made, .inr ⟨t, rfl, hmade⟩, n, fun fuel hfuel => ?_⟩
    rw [Returns, populateField_table hpopulates hlength hv rfl]
    exact hn fuel hfuel

end Entries

end Field

-- ---------------------------------------------------------------------------
-- The body
-- ---------------------------------------------------------------------------

theorem populateBody_apply (hlength : stack.length = 4) (hv : h.rawget p (.string "body") = v) :
    populateField "body" "" (populateBody J fuel) (on h (.table p :: stack)) =
      if v = .nil then .done "" (on h (v :: .table p :: stack))
      else populateBody J fuel v.type (on h (v :: .table p :: stack)) :=
  populateField_apply hlength hv

section Body

variable {body : String} (hJ : J.Strict) (hh : h.Lawful) (hlength : stack.length = 4)
  (hv : h.rawget p (.string "body") = v)
include hJ hh hlength hv

theorem standsForBody_of_returns
    (hreturns : Returns (populateField "body" "" (populateBody J fuel)) (on h (.table p :: stack))
      body L) : StandsForBody J h v body ∧ L = on h (v :: .table p :: stack) := by
  replace hreturns := (populateBody_apply hlength hv).symm.trans hreturns
  split at hreturns
  · next hnil =>
    obtain ⟨rfl, rfl⟩ := Result.done.inj hreturns
    exact ⟨.inl ⟨hnil, rfl⟩, rfl⟩
  · unfold populateBody at hreturns
    split at hreturns
    · cases hreturns
    · obtain hbody | ⟨thrown, L', -, hhandler⟩ := Returns.of_tryCatch hreturns
      · obtain ⟨j, hj, rfl, rfl⟩ := returns_toString_iff.mp hbody
        exact ⟨.inr ⟨j, encodes_of_valueOf hJ hh hj, rfl⟩, rfl⟩
      · cases thrown <;> cases hhandler

theorem returns_of_standsForBody (hstands : StandsForBody J h v body) :
    ∃ n, ∀ fuel, n ≤ fuel → Returns (populateField "body" "" (populateBody J fuel))
      (on h (.table p :: stack)) body (on h (v :: .table p :: stack)) := by
  obtain ⟨hnil, rfl⟩ | ⟨j, hj, rfl⟩ := hstands
  · refine ⟨0, fun fuel _ => ?_⟩
    exact (populateBody_apply hlength hv).trans (if_pos hnil)
  · obtain ⟨n, hn⟩ := valueOf_of_encodes hJ hh j hj
    have htype : ¬ (v.type ≠ .string ∧ v.type ≠ .number ∧ v.type ≠ .table ∧
        v.type ≠ .boolean) := by
      have := hj.type
      tauto
    have hnil : v ≠ .nil := by
      rintro rfl
      exact htype (by simp [Value.type])
    refine ⟨n, fun fuel hfuel => (populateBody_apply hlength hv).trans ?_⟩
    rw [if_neg hnil]
    unfold populateBody
    rw [if_neg htype]
    have htext : Returns (Serializer.toString J fuel none) (on h (v :: .table p :: stack))
        (valueText J j) (on h (v :: .table p :: stack)) :=
      returns_toString_iff.mpr ⟨j, hn fuel hfuel, rfl, rfl⟩
    exact htext.tryCatch _

end Body

-- ---------------------------------------------------------------------------
-- The parameters
-- ---------------------------------------------------------------------------

theorem returns_setTop (hlength : stack.length = 4) (v : Value) :
    Returns (luaSetTop 5) (on h (v :: .table p :: stack)) () (on h (.table p :: stack)) := by
  show Result.done _ _ = _
  simp [on, hlength]

section Params

theorem rawget_query : h.rawget p (.string (cString "query")) = h.rawget p (.string "query") := by
  rw [cString_of_nulFree (by decide)]

theorem rawget_headers :
    h.rawget p (.string (cString "headers")) = h.rawget p (.string "headers") := by
  rw [cString_of_nulFree (by decide)]

variable (hJ : J.Strict) (hh : h.Lawful) (hlength : stack.length = 4)

theorem fields_of_returns (hlength : stack.length = 4)
    (hreturns : Returns (populateAdditionalParams H J fuel numberText request)
      (on h (.table p :: stack)) made L) :
    (∃ L, Returns (populateField "query" [] (populateQueryParams fuel numberText))
      (on h (.table p :: stack)) made.query L) ∧
    (∃ L, Returns (populateField "headers" [] (populateHeaders H fuel numberText))
      (on h (.table p :: stack)) made.headers L) ∧
    Returns (populateField "body" "" (populateBody J fuel)) (on h (.table p :: stack))
      made.body L ∧
    made.method = request.method ∧ made.url = request.url := by
  obtain ⟨query, L₁, hquery, hreturns⟩ := hreturns.of_bind
  obtain ⟨rfl, -⟩ := field_of_returns populates_queryParams hlength rfl hquery
  replace hreturns := ((returns_setTop hlength _).bind_apply _).symm.trans hreturns
  obtain ⟨headers, L₂, hheaders, hreturns⟩ := Returns.of_bind hreturns
  obtain ⟨rfl, -⟩ := field_of_returns populates_headers hlength rfl hheaders
  replace hreturns := ((returns_setTop hlength _).bind_apply _).symm.trans hreturns
  obtain ⟨body, L₃, hbody, hmade⟩ := Returns.of_bind hreturns
  obtain ⟨rfl, rfl⟩ := Result.done.inj hmade
  exact ⟨⟨_, hquery⟩, ⟨_, hheaders⟩, hbody, rfl, rfl⟩

include hJ hh hlength

theorem standsForBody_of_returns_params
    (hreturns : Returns (populateAdditionalParams H J fuel numberText request)
      (on h (.table p :: stack)) made L) :
    StandsForBody J h (h.rawget p (.string "body")) made.body ∧
      L = on h (h.rawget p (.string "body") :: .table p :: stack) :=
  standsForBody_of_returns hJ hh hlength rfl (fields_of_returns hlength hreturns).2.2.1

variable (hheaders : Emplaces foldCase (some limit) H.emplaceHeader)
include hheaders

theorem returns_of_standsForParams (request : Request)
    (hstands : StandsForParams J limit numberText h p made) :
    ∃ made, StandsForParams J limit numberText h p made ∧ made.method = request.method ∧
      made.url = request.url ∧ ∃ n, ∀ fuel, n ≤ fuel →
        Returns (populateAdditionalParams H J fuel numberText request) (on h (.table p :: stack))
          made (on h (h.rawget p (.string "body") :: .table p :: stack)) := by
  have hquery : Emplaces id none emplaceQuery := emplaces_emplaceQuery
  obtain ⟨query, hquery, n, hn⟩ := returns_of_standsForEntries populates_queryParams hlength
    rawget_query hh hquery hstands.query
  obtain ⟨headers, hheaders, n', hn'⟩ := returns_of_standsForEntries populates_headers hlength
    rawget_headers hh hheaders hstands.headers
  obtain ⟨n'', hn''⟩ := returns_of_standsForBody hJ hh hlength rfl hstands.body
  refine ⟨{ request with query, headers, body := made.body }, ⟨hquery, hheaders, hstands.body⟩,
    rfl, rfl, max n (max n' n''), fun fuel hfuel => ?_⟩
  rw [Nat.max_le, Nat.max_le] at hfuel
  refine (hn fuel hfuel.1).bind ((returns_setTop hlength _).bind ?_)
  refine (hn' fuel hfuel.2.1).bind ((returns_setTop hlength _).bind ?_)
  exact (hn'' fuel hfuel.2.2).bind (.pure _ _)

end Params

-- ---------------------------------------------------------------------------
-- The request
-- ---------------------------------------------------------------------------

/-- What `prepare` does with arguments of the right types, on the stack where it has
converted them. -/
def requestFrom (H : HttpLibrary) (J : JsonLibrary) (fuel : Nat) (numberText : Number → String)
    (hasParams : Bool) (method url : Value) : LuaCode Request :=
  ofLibrary (H.methodFromString (cString (stringForm numberText method))) >>= fun name =>
    (if hasParams then populateAdditionalParams H J fuel numberText
        { Request.default with method := name, url := cString (stringForm numberText url) }
      else pure { Request.default with method := name, url := cString (stringForm numberText url) })
      >>= fun request => luaClear >>= fun _ => pure request

section

variable {a b : Value}

theorem requestFrom_four (htext : IsText method ∧ IsText url) :
    prepare H J fuel numberText (on h [url, method, a, b]) =
      requestFrom H J fuel numberText false method url (on h
        [.string (stringForm numberText url), .string (stringForm numberText method), a, b]) := by
  rcases isText_cases htext.1 with ⟨s, rfl⟩ | ⟨n, rfl⟩ <;>
    rcases isText_cases htext.2 with ⟨s', rfl⟩ | ⟨n', rfl⟩ <;> rfl

theorem requestFrom_five (htext : IsText method ∧ IsText url)
    (hparams : params = .nil ∨ ∃ p, params = .table p) :
    prepare H J fuel numberText (on h [params, url, method, a, b]) =
      requestFrom H J fuel numberText (params ≠ .nil) method url (on h [params,
        .string (stringForm numberText url), .string (stringForm numberText method), a, b]) := by
  rcases isText_cases htext.1 with ⟨s, rfl⟩ | ⟨n, rfl⟩ <;>
    rcases isText_cases htext.2 with ⟨s', rfl⟩ | ⟨n', rfl⟩ <;>
      rcases hparams with rfl | ⟨p, rfl⟩ <;> rfl

theorem returns_luaIsString {idx : Int} (hat : L.at idx = some v) :
    Returns (luaIsString idx) L (decide (IsText v)) L := by
  unfold Returns luaIsString Code.read
  dsimp only
  rw [hat]
  cases v <;> rfl

theorem returns_luaGetTop (h : Heap) (stack : List Value) :
    Returns luaGetTop (on h stack) stack.length (on h stack) := rfl

theorem isText_of_returns (hmethod : (on h stack).at 3 = some method)
    (hurl : (on h stack).at 4 = some url)
    (hreturns : Returns (prepare H J fuel numberText) (on h stack) request L) :
    IsText method ∧ IsText url := by
  unfold prepare at hreturns
  replace hreturns := ((returns_luaGetTop h stack).bind_apply _).symm.trans hreturns
  split at hreturns
  · cases hreturns
  · replace hreturns := ((returns_luaIsString hmethod).bind_apply _).symm.trans hreturns
    split at hreturns
    · cases hreturns
    · next htext =>
      replace hreturns := ((returns_luaIsString hurl).bind_apply _).symm.trans hreturns
      split at hreturns
      · cases hreturns
      · next htext' => exact ⟨by simpa using htext, by simpa using htext'⟩

theorem of_returns_requestFrom {hasParams : Bool} (htext : IsText method ∧ IsText url)
    (hreturns : Returns (requestFrom H J fuel numberText hasParams method url) (on h stack)
      request L) : ∃ target : Request, target.query = [] ∧ target.headers = [] ∧ target.body = "" ∧
      StandsForTarget H numberText method url target ∧ ∃ L',
        Returns (if hasParams then populateAdditionalParams H J fuel numberText target
          else pure target) (on h stack) request L' ∧ L = { L' with stack := [] } := by
  obtain ⟨name, L₁, hname, hreturns⟩ := Returns.of_bind hreturns
  obtain ⟨hknown, rfl⟩ := Serializer.of_returns_ofLibrary hname
  obtain ⟨made, L₂, hmade, hreturns⟩ := Returns.of_bind hreturns
  obtain ⟨rfl, rfl⟩ := Result.done.inj hreturns
  exact ⟨_, rfl, rfl, rfl, ⟨htext, hknown, rfl⟩, L₂, hmade, rfl⟩

theorem params_of_returns_prepare
    (hreturns : Returns (prepare H J fuel numberText) (on h [.table p, url, method, a, b])
      request L) : ∃ target, StandsForTarget H numberText method url target ∧ ∃ L',
      Returns (populateAdditionalParams H J fuel numberText target) (on h [.table p,
        .string (stringForm numberText url), .string (stringForm numberText method), a, b])
        request L' ∧ L = { L' with stack := [] } := by
  have htext : IsText method ∧ IsText url := isText_of_returns rfl rfl hreturns
  rw [Returns, requestFrom_five htext (.inr ⟨p, rfl⟩)] at hreturns
  obtain ⟨target, -, -, -, htarget, hmade⟩ := of_returns_requestFrom htext hreturns
  exact ⟨target, htarget, hmade⟩

end

section Prepare

variable (hJ : J.Strict) (hh : h.Lawful)
include hJ hh

theorem standsForBody_of_returns_prepare {a b : Value}
    (hreturns : Returns (prepare H J fuel numberText) (on h [.table p, url, method, a, b])
      request L) : StandsForBody J h (h.rawget p (.string "body")) request.body := by
  obtain ⟨target, -, L', hmade, -⟩ := params_of_returns_prepare hreturns
  exact (standsForBody_of_returns_params hJ hh rfl hmade).1

variable (hheaders : Emplaces foldCase (some limit) H.emplaceHeader)
include hheaders

theorem returns_of_standsFor (hstands : StandsFor H J limit numberText h stack request) :
    ∃ made, StandsFor H J limit numberText h stack made ∧ ∃ n, ∀ fuel, n ≤ fuel →
      Returns (prepare H J fuel numberText) (on h stack) made (on h []) := by
  have hwhole := hstands
  unfold StandsFor at hstands
  split at hstands
  · next url method a b =>
    obtain ⟨⟨htext, hmethod, hurl⟩, hquery, hheaders, hbody⟩ := hstands
    refine ⟨request, hwhole, 0, fun fuel _ => ?_⟩
    rw [Returns, requestFrom_four htext]
    refine (Serializer.returns_ofLibrary hmethod _).bind (Returns.bind (.pure _ _) ?_)
    obtain ⟨⟨headers, body⟩, name, target, query⟩ := request
    subst hquery hheaders hbody hurl
    exact .pure _ _
  · next params url method a b =>
    obtain ⟨⟨htext, hmethod, hurl⟩, ⟨rfl, hquery, hheaders, hbody⟩ | ⟨p, rfl, hparams⟩⟩ := hstands
    · refine ⟨request, hwhole, 0, fun fuel _ => ?_⟩
      rw [Returns, requestFrom_five htext (.inl rfl)]
      refine (Serializer.returns_ofLibrary hmethod _).bind (Returns.bind (.pure _ _) ?_)
      obtain ⟨⟨headers, body⟩, name, target, query⟩ := request
      subst hquery hheaders hbody hurl
      exact .pure _ _
    · let target : Request := { Request.default with
        method := request.method, url := cString (stringForm numberText url) }
      let converted : List Value := [.string (stringForm numberText url),
        .string (stringForm numberText method), a, b]
      have hlength : converted.length = 4 := rfl
      obtain ⟨made, hmade, hmethod', hurl', n, hn⟩ :=
        returns_of_standsForParams hJ hh hlength hheaders target hparams
      refine ⟨made, ⟨⟨htext, hmethod' ▸ hmethod, hurl'⟩, .inr ⟨p, rfl, hmade⟩⟩, n,
        fun fuel hfuel => ?_⟩
      rw [Returns, requestFrom_five htext (.inr ⟨p, rfl⟩)]
      exact (Serializer.returns_ofLibrary hmethod _).bind ((hn fuel hfuel).bind (.pure _ _))
  · exact hstands.elim

end Prepare

-- ---------------------------------------------------------------------------
-- What is sent
-- ---------------------------------------------------------------------------

section Sent

variable {send : Request → Except Exception Reply} {sent : List Request}

theorem sent_of_returns {L' : LuaState}
    (hprepare : Returns (prepare H J fuel numberText) L request L') :
    (execute H J fuel numberText send (L, sent)).state.2 = sent ++ [request] := by
  have hprepared : Returns (onPrivate (prepare H J fuel numberText)) (L, sent) request (L', sent) :=
    hprepare.onPrivate sent
  have hleaves : Leaves Prod.snd (onPrivate (finish (send request)) :
      Code Thrown (LuaState × List Request) Unit) := leaves_zoom _ fun _ _ => rfl
  rw [execute, hprepared.bind_apply]
  exact hleaves (L', sent ++ [request])

/-- The client is handed the request that has been prepared, if any has. -/
theorem sent_cases : (execute H J fuel numberText send (L, sent)).state.2 = sent ∨
    ∃ request L', Returns (prepare H J fuel numberText) L request L' ∧
      (execute H J fuel numberText send (L, sent)).state.2 = sent ++ [request] := by
  cases hprepare : prepare H J fuel numberText L with
  | done request L' => exact .inr ⟨request, L', hprepare, sent_of_returns hprepare⟩
  | threw e L' | terminated L' =>
    refine .inl ?_
    show (Code.bind (onPrivate (prepare H J fuel numberText)) _ (L, sent)).state.2 = _
    unfold Code.bind onPrivate zoom
    simp [hprepare, Result.mapState, Result.state]

end Sent

def order : List Value :=
  [.table 0, .string "http://pot/", .string "POST", .userdata "LuaMetaObject", .table 0]

def noAnswer : Request → Except Exception Reply := fun _ => .error (.stdException "Timeout")

end LambdaExecutor.Http.ClientMethod
