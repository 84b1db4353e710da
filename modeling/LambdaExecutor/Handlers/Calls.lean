import LambdaExecutor.Engine.FailedRun
import LambdaExecutor.Handlers.ExecuteLambda
import LambdaExecutor.Http.Requests

/-!
# Lambdas that call lambdas

A script executes another one by sending the request for it as the body of a request
to the handler. The serializer on one side and `Request::FromJson` on the other decide
together which tables are requests, and for which script request a table stands.
-/

namespace LambdaExecutor.Handlers

open Lua Formats Http Http.ClientMethod Raii Raii.Code Emplace
open Serializer (on encodes_unique)
open Deserializer (valueText)

variable {H : HttpLibrary} {h : Heap} {r : TableRef} {v : Value} {entries : Table} {j : Json}
  {members : List (String × Json)} {name s : String} {request : Request}
  {emplace : List (String × String) → String → String → Except Exception (List (String × String))}
  {result : List (String × String)}

-- ---------------------------------------------------------------------------
-- Tables that are requests
-- ---------------------------------------------------------------------------

/-- Nothing, or a table with nothing in it, which is written as null. -/
def Absent (h : Heap) (v : Value) : Prop := v = .nil ∨ ∃ t, v = .table t ∧ h.entries t = []

def EmplacesStrings (emplace : List (String × String) → String → String →
      Except Exception (List (String × String)))
    (h : Heap) (v : Value) (result : List (String × String)) : Prop :=
  v = .nil ∧ result = [] ∨ ∃ t, ∃ items : List (String × String), v = .table t ∧
    h.entries t = items.map (fun item => (.string item.1, .string item.2)) ∧
    emplaceAll emplace (items.map fun item => (cString item.1, cString item.2)) [] = .ok result

structure IsRequest (H : HttpLibrary) (h : Heap) (r : TableRef) (request : Request) : Prop where
  method : ∃ text, h.rawget r (.string "method") = .string text ∧
    H.methodFromString (cString text) = .ok request.method
  url : ∃ text, h.rawget r (.string "url") = .string text ∧ request.url = cString text
  query : EmplacesStrings emplaceQuery h (h.rawget r (.string "query")) request.query
  headers : EmplacesStrings H.emplaceHeader h (h.rawget r (.string "headers")) request.headers
  body : Absent h (h.rawget r (.string "body")) ∧ request.body = "" ∨
    ∃ text, h.rawget r (.string "body") = .string text ∧ request.body = cString text

-- ---------------------------------------------------------------------------
-- Members and fields
-- ---------------------------------------------------------------------------

/-- The member of the name is written for the value, or there is neither. -/
def Found (H : HttpLibrary) (h : Heap) (j : Json) (name : String) (v : Value) : Prop :=
  member H name j = .ok none ∧ v = .nil ∨
    ∃ value, member H name j = .ok (some value) ∧ Encodes h v value

theorem find_encodesMembers
    (hfree : ∀ key w, (.string key, w) ∈ entries → NulFree key)
    (hmembers : EncodesMembers h entries members) :
    (members.find? (·.1 = name)).map Prod.snd = none ∧ entries.get (.string name) = .nil ∨
      ∃ value, (members.find? (·.1 = name)).map Prod.snd = some value ∧
        Encodes h (entries.get (.string name)) value := by
  induction members generalizing entries with
  | nil =>
    obtain rfl : entries = [] := hmembers
    exact .inl ⟨rfl, rfl⟩
  | cons member members ih =>
    obtain ⟨key, w, rest, rfl, hkey, hw, hrest⟩ := hmembers
    have hkeyFree : NulFree key := hfree key w List.mem_cons_self
    have hrestFree : ∀ key w, (.string key, w) ∈ rest → NulFree key :=
      fun key w hmem => hfree key w (List.mem_cons_of_mem _ hmem)
    rw [cString_of_nulFree hkeyFree] at hkey
    subst hkey
    rw [Table.get_cons]
    by_cases heq : member.1 = name
    · rw [if_pos (by rw [heq]), List.find?_cons_of_pos (by simpa using heq)]
      exact .inr ⟨member.2, rfl, hw⟩
    · rw [if_neg (by simpa using heq), List.find?_cons_of_neg (by simpa using heq)]
      exact ih hrestFree hrest

theorem found_of_encodes (hj : Encodes h (.table r) j) (hitems : ∀ items, j ≠ .array items)
    (hfree : ∀ key w, (.string key, w) ∈ h.entries r → NulFree key) :
    Found H h j name (h.rawget r (.string name)) := by
  have hget : h.rawget r (.string name) = (h.entries r).get (.string name) := by
    unfold Heap.rawget Heap.entries
    cases h[r]? <;> rfl
  rw [hget]
  cases j with
  | null =>
    obtain ⟨t, ht, hempty⟩ := hj
    obtain rfl := Value.table.inj ht
    exact .inl ⟨rfl, by rw [hempty]; rfl⟩
  | array items => exact absurd rfl (hitems items)
  | object members =>
    obtain ⟨t, ht, -, hmembers⟩ := hj
    obtain rfl := Value.table.inj ht
    obtain ⟨hnone, hnil⟩ | ⟨value, hsome, hvalue⟩ := find_encodesMembers hfree hmembers
    · exact .inl ⟨congrArg Except.ok hnone, hnil⟩
    · exact .inr ⟨value, congrArg Except.ok hsome, hvalue⟩
  | bool b => simp [Encodes] at hj
  | number d => simp [Encodes] at hj
  | string s => simp [Encodes] at hj

theorem asString_ok (hv : Encodes h v j) :
    asString H j = .ok s ↔ ∃ text, v = .string text ∧ s = cString text := by
  cases j with
  | string s' =>
    obtain ⟨text, rfl, rfl⟩ := hv
    simp [asString, eq_comm]
  | null | array | object =>
    obtain ⟨t, rfl, -⟩ := hv
    simp [asString]
  | bool b =>
    obtain rfl : v = .boolean b := hv
    simp [asString]
  | number d =>
    obtain ⟨n, rfl, -⟩ := hv
    simp [asString]

theorem absent_iff (hv : Encodes h v j) : Absent h v ↔ j = .null := by
  cases j with
  | null => exact iff_of_true (.inr hv) rfl
  | array items =>
    obtain ⟨t, rfl, hne, hitems⟩ := hv
    refine iff_of_false ?_ (by simp)
    rintro (hnil | ⟨t', ht, hempty⟩)
    · cases hnil
    · cases ht
      have hlength := hitems.length_eq
      rw [hempty] at hlength
      exact hne (List.length_eq_zero_iff.mp hlength)
  | object members =>
    obtain ⟨t, rfl, hne, hmembers⟩ := hv
    refine iff_of_false ?_ (by simp)
    rintro (hnil | ⟨t', ht, hempty⟩)
    · cases hnil
    · cases ht
      rw [hempty] at hmembers
      cases members with
      | nil => exact hne rfl
      | cons member members =>
        obtain ⟨key, w, rest, heq, -⟩ := hmembers
        cases heq
  | bool b =>
    obtain rfl : v = .boolean b := hv
    simp [Absent]
  | number d =>
    obtain ⟨n, rfl, -⟩ := hv
    simp [Absent]
  | string s =>
    obtain ⟨text, rfl, -⟩ := hv
    simp [Absent]

theorem emplaceStrings_ok (hmembers : EncodesMembers h entries members)
    {start : List (String × String)} :
    members.foldlM (fun made entry => do emplace made entry.1 (← asString H entry.2)) start =
        .ok result ↔
      ∃ items : List (String × String),
        entries = items.map (fun item => (.string item.1, .string item.2)) ∧
        emplaceAll emplace (items.map fun item => (cString item.1, cString item.2)) start =
          .ok result := by
  induction members generalizing entries start with
  | nil =>
    obtain rfl : entries = [] := hmembers
    constructor
    · exact fun hok => ⟨[], rfl, hok⟩
    · rintro ⟨items, hitems, hall⟩
      obtain rfl := List.map_eq_nil_iff.mp hitems.symm
      exact hall
  | cons member members ih =>
    obtain ⟨key, w, rest, rfl, hkey, hw, hrest⟩ := hmembers
    rw [List.foldlM_cons, bind_ok]
    constructor
    · rintro ⟨next, hnext, hok⟩
      obtain ⟨value, hvalue, hadd⟩ := bind_ok.mp hnext
      obtain ⟨text, rfl, rfl⟩ := (asString_ok hw).mp hvalue
      obtain ⟨items, rfl, hall⟩ := (ih hrest).mp hok
      refine ⟨(key, text) :: items, rfl, ?_⟩
      rw [List.map_cons, emplaceAll_cons]
      exact bind_ok.mpr ⟨next, hkey ▸ hadd, hall⟩
    · rintro ⟨items, hitems, hall⟩
      cases items with
      | nil => cases hitems
      | cons item items =>
        obtain ⟨hfirst, rfl⟩ := List.cons.inj hitems
        obtain ⟨hname, rfl⟩ := Prod.mk.inj hfirst
        obtain rfl := Value.string.inj hname
        rw [List.map_cons, emplaceAll_cons] at hall
        obtain ⟨next, hadd, hall⟩ := bind_ok.mp hall
        refine ⟨next, bind_ok.mpr ⟨cString item.2, (asString_ok hw).mpr ⟨_, rfl, rfl⟩, ?_⟩,
          (ih hrest).mpr ⟨items, rfl, hall⟩⟩
        rw [← hkey]
        exact hadd

section Found

variable (hfound : Found H h j name v)
include hfound

theorem stringMember_ok :
    stringMember H j name = .ok s ↔ ∃ text, v = .string text ∧ s = cString text := by
  obtain ⟨hnone, rfl⟩ | ⟨value, hsome, hv⟩ := hfound
  · simp [stringMember, hnone, bind, Except.bind]
  · rw [← asString_ok hv, stringMember, hsome]
    rfl

theorem stringMemberOr_ok {default : String} : stringMemberOr H j name default = .ok s ↔
    Absent h v ∧ s = default ∨ ∃ text, v = .string text ∧ s = cString text := by
  obtain ⟨hnone, rfl⟩ | ⟨value, hsome, hv⟩ := hfound
  · have habsent : Absent h .nil := .inl rfl
    have hok : stringMemberOr H j name default = .ok default := by
      rw [stringMemberOr, hnone]
      rfl
    simp [hok, habsent, eq_comm]
  · rw [← asString_ok (H := H) hv, absent_iff hv, stringMemberOr, hsome]
    cases value with
    | null => simp [asString, bind, Except.bind, eq_comm]
    | _ => simp [bind, Except.bind]

theorem emplaceMembers_ok :
    emplaceMembers H j name emplace = .ok result ↔ EmplacesStrings emplace h v result := by
  obtain ⟨hnone, rfl⟩ | ⟨value, hsome, hv⟩ := hfound
  · simp [emplaceMembers, EmplacesStrings, hnone, bind, Except.bind, eq_comm]
  · have hloop : emplaceMembers H j name emplace = members H value >>= fun members =>
        members.foldlM (fun made entry => do emplace made entry.1 (← asString H entry.2)) [] := by
      rw [emplaceMembers, hsome]
      rfl
    rw [hloop]
    cases value with
    | null =>
      obtain ⟨t, rfl, hempty⟩ := hv
      constructor
      · intro hok
        obtain rfl := Except.ok.inj hok
        exact .inr ⟨t, [], rfl, hempty, rfl⟩
      · rintro (⟨hnil, -⟩ | ⟨t', items, ht, hitems, hall⟩)
        · cases hnil
        · cases ht
          rw [hempty] at hitems
          obtain rfl := List.map_eq_nil_iff.mp hitems.symm
          exact hall
    | array items =>
      obtain ⟨t, rfl, hne, hitems⟩ := hv
      obtain ⟨item, items, rfl⟩ := List.exists_cons_of_ne_nil hne
      refine iff_of_false (fun hok => by cases hok) ?_
      rintro (⟨hnil, -⟩ | ⟨t', strings, ht, hstrings, -⟩)
      · cases hnil
      · cases ht
        obtain ⟨n, w, rest, hentries, -⟩ := hitems
        rw [hentries] at hstrings
        cases strings with
        | nil => cases hstrings
        | cons first strings => cases hstrings
    | object ms =>
      obtain ⟨t, rfl, -, hmembers⟩ := hv
      refine (emplaceStrings_ok hmembers).trans ⟨fun ⟨items, hitems, hall⟩ => ?_, ?_⟩
      · exact .inr ⟨t, items, rfl, hitems, hall⟩
      · rintro (⟨hnil, -⟩ | ⟨t', items, ht, hitems, hall⟩)
        · cases hnil
        · cases ht
          exact ⟨items, hitems, hall⟩
    | bool b =>
      obtain rfl : v = .boolean b := hv
      exact iff_of_false (fun hok => by cases hok) (by simp [EmplacesStrings])
    | number d =>
      obtain ⟨n, rfl, -⟩ := hv
      exact iff_of_false (fun hok => by cases hok) (by simp [EmplacesStrings])
    | string s =>
      obtain ⟨text, rfl, -⟩ := hv
      exact iff_of_false (fun hok => by cases hok) (by simp [EmplacesStrings])

end Found

-- ---------------------------------------------------------------------------
-- Reading the request
-- ---------------------------------------------------------------------------

theorem rawget_array {items : List Json} (hj : Encodes h (.table r) (.array items)) :
    h.rawget r (.string name) = .nil := by
  obtain ⟨t, ht, -, hitems⟩ := hj
  obtain rfl := Value.table.inj ht
  have hget : h.rawget r (.string name) = (h.entries r).get (.string name) := by
    unfold Heap.rawget Heap.entries
    cases h[r]? <;> rfl
  rw [hget]
  refine Table.get_of_notMem fun hmem => ?_
  obtain ⟨entry, hentry, hkey⟩ := List.mem_map.mp hmem
  have hnumber := (EncodesItems.serializable items hitems entry hentry).1
  rw [hkey] at hnumber
  cases hnumber

theorem fromJson_ok_iff (hj : Encodes h (.table r) j)
    (hfree : ∀ key w, (.string key, w) ∈ h.entries r → NulFree key) :
    Request.fromJson H j = .ok request ↔ IsRequest H h r request := by
  by_cases harray : ∃ items, j = .array items
  · obtain ⟨items, rfl⟩ := harray
    refine iff_of_false (fun hok => by cases hok) ?_
    rintro ⟨⟨text, hmethod, -⟩, -, -, -, -⟩
    cases (rawget_array hj).symm.trans hmethod
  · have hfound : ∀ name, Found H h j name (h.rawget r (.string name)) :=
      fun name => found_of_encodes hj (fun items hitems => harray ⟨items, hitems⟩) hfree
    simp only [Request.fromJson, Message.fromJson, bind_ok]
    constructor
    · rintro ⟨message, ⟨body, hbody, headers, hheaders, hmessage⟩, text, htext, method, hmethod,
        url, hurl, query, hquery, hmade⟩
      cases hmessage
      cases hmade
      obtain ⟨name, hname, rfl⟩ := (stringMember_ok (hfound "method")).mp htext
      exact ⟨⟨name, hname, hmethod⟩, (stringMember_ok (hfound "url")).mp hurl,
        (emplaceMembers_ok (hfound "query")).mp hquery,
        (emplaceMembers_ok (hfound "headers")).mp hheaders,
        (stringMemberOr_ok (hfound "body")).mp hbody⟩
    · rintro ⟨⟨name, hname, hmethod⟩, hurl, hquery, hheaders, hbody⟩
      refine ⟨request.toMessage, ⟨request.body, (stringMemberOr_ok (hfound "body")).mpr hbody,
        request.headers, (emplaceMembers_ok (hfound "headers")).mpr hheaders, rfl⟩, cString name,
        (stringMember_ok (hfound "method")).mpr ⟨name, hname, rfl⟩, request.method, hmethod,
        request.url, (stringMember_ok (hfound "url")).mpr hurl, request.query,
        (emplaceMembers_ok (hfound "query")).mpr hquery, rfl⟩

theorem valueText_of_encodes_table {J : JsonLibrary} (hj : Encodes h (.table r) j) :
    valueText J j = J.toString j := by
  cases j with
  | string s => simp [Encodes] at hj
  | _ => rfl

-- ---------------------------------------------------------------------------
-- From the script to the handler
-- ---------------------------------------------------------------------------

section Call

variable {handler : ExecuteLambda} {numberText : Number → String}
  {send : Request → Except Exception Reply} {p : TableRef} {url method a b : Value} {fuel : Nat}
  {sent : Request}

theorem body_of_standsFor {J : JsonLibrary} (hbody : h.rawget p (.string "body") = .table r)
    (hstands : StandsForBody J h (h.rawget p (.string "body")) sent.body) :
    ∃ j, Encodes h (.table r) j ∧ sent.body = J.toString j := by
  obtain ⟨hnil, -⟩ | ⟨j, hj, htext⟩ := hstands
  · cases hbody.symm.trans hnil
  · rw [hbody] at hj
    exact ⟨j, hj, htext.trans (valueText_of_encodes_table hj)⟩

theorem buildExecutionContext_error (hJ : handler.J.Builds) {text : String} {e : Exception}
    (herror : handler.J.fromString text >>= Request.fromJson handler.H = .error e) :
    ∃ body, handler.buildExecutionContext text = .error (.clientError body) := by
  refine ⟨handler.J.toString (.object [("message", .string e.what)]), ?_⟩
  simp only [ExecuteLambda.buildExecutionContext, herror,
    ExecuteLambda.rethrowWithExternalMessage, hJ.emplaceNocheck_null]

/-- The JSON text of the table can be sent, and it reads as what was written. -/
def ExecuteLambda.Carries (handler : ExecuteLambda) (h : Heap) (r : TableRef) : Prop :=
  ∀ j, Encodes h (.table r) j → NulFree (handler.J.toString j) ∧
    handler.J.fromString (handler.J.toString j) = .ok j

theorem buildExecutionContext_of_body (hJ : handler.J.Builds) (hj : Encodes h (.table r) j)
    (hfree : ∀ key v, (.string key, v) ∈ h.entries r → NulFree key)
    (hcarries : handler.Carries h r) (hdata : sent.body = handler.J.toString j) :
    (∀ context, handler.buildExecutionContext (Client.nativeRequest sent).data = .ok context ↔
      context.response = .default ∧ IsRequest handler.H h r context.request) ∧
    ((∀ request, ¬ IsRequest handler.H h r request) → ∃ body,
      handler.buildExecutionContext (Client.nativeRequest sent).data =
        .error (.clientError body)) := by
  obtain ⟨hnul, hread⟩ := hcarries j hj
  have hjson : handler.J.fromString (Client.nativeRequest sent).data >>=
      Request.fromJson handler.H = Request.fromJson handler.H j := by
    rw [Client.nativeRequest, hdata, cString_of_nulFree hnul, hread]
    rfl
  constructor
  · rintro ⟨request, response⟩
    unfold ExecuteLambda.buildExecutionContext
    rw [hjson, ← fromJson_ok_iff hj hfree]
    cases Request.fromJson handler.H j with
    | ok made => simp [and_comm, eq_comm]
    | error e => simp
  · intro hnone
    cases hmade : Request.fromJson handler.H j with
    | ok request => exact absurd ((fromJson_ok_iff hj hfree).mp hmade) (hnone request)
    | error e => exact buildExecutionContext_error hJ (hjson.trans hmade)

/-- A table which a script sends to the handler as the body of a request arrives as the request
that the table is, and the handler answers with an error of the client if it is none. -/
theorem called_with_table (handler : ExecuteLambda) (hJ : handler.J.Strict) {h : Heap}
    (hh : h.Lawful) (numberText : Number → String) (send : Request → Except Exception Reply)
    {p r : TableRef} {url method a b : Value} (hbody : h.rawget p (.string "body") = .table r)
    (hfree : ∀ key v, (.string key, v) ∈ h.entries r → NulFree key)
    (hcarries : handler.Carries h r) {fuel : Nat} {sent : Request}
    (hsent : sent ∈ (execute handler.H handler.J fuel numberText send
      (on h [.table p, url, method, a, b], [])).state.2) :
    (∀ context, handler.buildExecutionContext (Client.nativeRequest sent).data = .ok context ↔
      context.response = .default ∧ IsRequest handler.H h r context.request) ∧
    ((∀ request, ¬ IsRequest handler.H h r request) → ∃ body,
      handler.buildExecutionContext (Client.nativeRequest sent).data =
        .error (.clientError body)) := by
  have hstands : StandsForBody handler.J h (h.rawget p (.string "body")) sent.body := by
    obtain hnone | ⟨request, L, hprepare, hrequest⟩ := sent_cases (J := handler.J) (L := on h _)
    · rw [hnone] at hsent
      cases hsent
    · rw [hrequest] at hsent
      obtain rfl := List.mem_singleton.mp hsent
      exact standsForBody_of_returns_prepare hJ hh hprepare
  obtain ⟨j, hj, hdata⟩ := body_of_standsFor hbody hstands
  exact buildExecutionContext_of_body hJ.toBuilds hj hfree hcarries hdata

end Call

/-- `{body = {method = 'GET', url = '/'}}`. -/
def callHeap : Heap :=
  [[(.string "body", .table 1)], [(.string "method", .string "GET"), (.string "url", .string "/")]]

def callJson : Json := .object [("method", .string "GET"), ("url", .string "/")]

def callText : String := "\x7b\"method\":\"GET\",\"url\":\"/\"\x7d"

def callLibrary : JsonLibrary :=
  { textLibrary with
    toString := fun j =>
      match j with
      | .object _ => callText
      | _ => textLibrary.toString j
    fromString := fun text =>
      if text = callText then .ok callJson else .error (.stdException "Parse error") }

theorem callLibrary_strict : callLibrary.Strict := ⟨⟨textLibrary_strict.ofDouble,
  textLibrary_strict.emplaceNocheck_null, textLibrary_strict.emplaceNocheck_object,
  textLibrary_strict.pushBack_null, textLibrary_strict.pushBack_array⟩,
  textLibrary_strict.ofDouble_error, textLibrary_strict.emplaceNocheck_array,
  textLibrary_strict.pushBack_object⟩

def callHandler : ExecuteLambda where
  T := Engine.withHeaderMaps 2
  H := smallHttp
  J := callLibrary
  lexicalCast _ := none
  get _ := .error (.notFoundScriptError "Script not found")

def callArguments : List Value :=
  [.table 0, .string "http://lambda/5", .string "POST", .userdata "LuaMetaObject", .table 0]

def call : Request := { Request.default with
  method := "POST", url := "http://lambda/5", body := callText }

theorem call_encodes : Encodes callHeap (.table 1) callJson :=
  ⟨1, rfl, by simp, "method", .string "GET", _, rfl, by decide, ⟨"GET", rfl, by decide⟩,
    "url", .string "/", [], rfl, by decide, ⟨"/", rfl, by decide⟩, rfl⟩

theorem call_prepared : Returns (prepare smallHttp callLibrary 4 digit)
    (on callHeap callArguments) call (on callHeap []) := by
  rfl

def callRequest : Request := { Request.default with url := "/" }

theorem callHeap_lawful : callHeap.Lawful := by decide

theorem callHeap_free : ∀ key v, (.string key, v) ∈ callHeap.entries 1 → NulFree key := by
  intro key v hmem
  obtain hmethod | hurl : key = "method" ∧ v = .string "GET" ∨ key = "url" ∧ v = .string "/" := by
    simpa [callHeap, Heap.entries] using hmem
  · rw [hmethod.1]
    decide
  · rw [hurl.1]
    decide

theorem call_carries : callHandler.Carries callHeap 1 := by
  intro j hj
  obtain rfl := encodes_unique callLibrary_strict callHeap_lawful call_encodes hj
  exact ⟨by decide, rfl⟩

theorem call_isRequest : IsRequest smallHttp callHeap 1 callRequest :=
  ⟨⟨"GET", by decide, rfl⟩, ⟨"/", by decide, by decide⟩, .inl ⟨by decide, rfl⟩,
    .inl ⟨by decide, rfl⟩, .inl ⟨.inl (by decide), rfl⟩⟩

theorem call_arrives : ∃ sent, sent ∈ (execute smallHttp callLibrary 4 digit noAnswer
      (on callHeap callArguments, [])).state.2 ∧
    callHandler.buildExecutionContext (Client.nativeRequest sent).data =
      .ok { request := callRequest, response := .default } := by
  have hsent : call ∈ (execute smallHttp callLibrary 4 digit noAnswer
      (on callHeap callArguments, [])).state.2 := by
    rw [sent_of_returns call_prepared]
    exact List.mem_singleton_self call
  exact ⟨call, hsent, ((called_with_table callHandler callLibrary_strict callHeap_lawful digit
    noAnswer rfl callHeap_free call_carries hsent).1 _).mpr ⟨rfl, call_isRequest⟩⟩

end LambdaExecutor.Handlers
