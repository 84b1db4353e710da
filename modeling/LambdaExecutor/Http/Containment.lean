import LambdaExecutor.Http.Walks
import LambdaExecutor.Lua.Termination

/-!
# When the failures of `client:send` stay inside Lua

Wrong arguments raise an error of Lua, and so do wrong fields of the parameters. A
C++ exception leaves the method for an unknown HTTP method, for headers that do not
fit, and where it has left script code that the method has run; and the method does
not come back from walks, bodies and script code that have no end.
-/

namespace LambdaExecutor.Http.ClientMethod

open Lua Formats Raii Raii.Code Emplace Cycles
open Serializer (on Descends Finishes)

variable {H : HttpLibrary} {J : JsonLibrary} {numberText : Number → String} {m : Moment}
  {p : TableRef} {v url method params : Value} {stack : List Value} {error : String}
  {same : String → String} {limit : Option Nat}
  {emplace : List (String × String) → String → String → Except Exception (List (String × String))}

-- ---------------------------------------------------------------------------
-- What the method asks of its arguments
-- ---------------------------------------------------------------------------

/-- A field of the parameters has been read, with the script code that this runs. -/
def FieldFits (p : TableRef) (name : String) (C : Value → Moment → Prop) (m : Moment) : Prop :=
  m.run.Then fun _ m => (m.field p name).Then C

/-- The walk through a table comes to an end, its names fit, and where it has passed the table
`C` holds. -/
def EntriesFit (same : String → String) (limit : Option Nat) (numberText : Number → String)
    (C : Moment → Prop) (v : Value) (m : Moment) : Prop :=
  match v with
  | .nil => C m
  | .table t => ∃ visited last, Walk numberText t m .nil visited last ∧
      (∀ n ∈ limit, (keys same (visited.map (itemOf numberText))).toFinset.card ≤ n) ∧
      ∀ m', last = .passed m' → C m'
  | _ => m.Stays

/-- The serializer does not descend for ever, and what it refuses raises an error of Lua. -/
def BodyFits (C : Moment → Prop) (v : Value) (m : Moment) : Prop :=
  if v = .nil then C m
  else (∀ t, v = .table t → NoCycle (Descends m.heap) t) ∧ (Serializable m.heap v → C m) ∧
    (¬ Serializable m.heap v → m.Stays)

def ParamsFit (limit : Nat) (numberText : Number → String) (p : TableRef) (m : Moment) : Prop :=
  FieldFits p "query" (EntriesFit id none numberText
    (FieldFits p "headers" (EntriesFit foldCase (some limit) numberText
      (FieldFits p "body" (BodyFits Moment.Stays))))) m

def KnownMethod (H : HttpLibrary) (numberText : Number → String) (method : Value) : Prop :=
  ∃ name, H.methodFromString (cString (stringForm numberText method)) = .ok name

/-- Arguments of the right types have a method which is known, and parameters that fit. -/
def SendFits (H : HttpLibrary) (limit : Nat) (numberText : Number → String) (m : Moment) :
    List Value → Prop
  | [url, method, _, _] =>
    if IsText method ∧ IsText url then
      (convertEntry m method url).Then fun _ m => KnownMethod H numberText method ∧ m.Stays
    else m.Stays
  | [params, url, method, _, _] =>
    if IsText method ∧ IsText url then
      match params with
      | .nil => (convertEntry m method url).Then fun _ m =>
          KnownMethod H numberText method ∧ m.Stays
      | .table p => (convertEntry m method url).Then fun _ m =>
          KnownMethod H numberText method ∧ ParamsFit limit numberText p m
      | _ => m.Stays
    else m.Stays
  | _ => m.Stays

-- ---------------------------------------------------------------------------
-- A field of the parameters
-- ---------------------------------------------------------------------------

theorem endsAs_luaGetTable (hlength : stack.length = 4) (name : String) :
    EndsAs (Scripted.luaGetTable 5) (m.on (.string name :: .table p :: stack))
      (fun v m => (v.type, m.on (v :: .table p :: stack))) (m.field p name) := by
  have hat : (on m.heap (.string name :: .table p :: stack)).at 5 = some (.table p) := by
    show (Value.string name :: .table p :: stack).reverse[4]? = _
    simp [hlength]
  have hget : Returns (luaGetTable 5) (on m.heap (.string name :: .table p :: stack))
      (m.heap.rawget p (.string name)).type
      (on m.heap (m.heap.rawget p (.string name) :: .table p :: stack)) := by
    show luaGetTable 5 _ = _
    unfold luaGetTable
    rw [hat]
    rfl
  refine .of_returns (hget.onPrivate m.outcomes) ?_
  unfold Moment.field
  by_cases hnil : m.heap.rawget p (.string name) = .nil
  · rw [if_pos hnil, hnil]
    exact endsAs_scriptCode.then_returns fun _ _ => rfl
  · rw [if_neg hnil, if_neg (mt Value.type_eq_nil.mp hnil)]
    exact rfl

section Field

variable {α β : Type} {default : α} {name : String} {populate : Nat → LuaType → ScriptedCode α}
  {rest : Nat → α → ScriptedCode β} {Q : β → LuaState × List Outcome → Prop} {C : Moment → Prop}

theorem settles_populateField (hlength : stack.length = 4) (hname : cString name = name) :
    Settles (fun fuel => Scripted.populateField name default (populate fuel) >>= rest fuel) Q
        (fun thrown _ => Raised thrown) (m.on (.table p :: stack)) ↔
      FieldFits p name (fun v m => Settles (fun fuel =>
        (if v.type ≠ .nil then populate fuel v.type else pure default) >>= rest fuel) Q
          (fun thrown _ => Raised thrown) (m.on (v :: .table p :: stack))) m := by
  have hsplit : ∀ fuel, Scripted.populateField name default (populate fuel) >>= rest fuel =
      Scripted.luaPushString name >>= fun _ => Scripted.luaGetTable 5 >>= fun type =>
        (if type ≠ .nil then populate fuel type else pure default) >>= rest fuel := by
    intro fuel
    unfold Scripted.populateField
    rw [bind_assoc]
    refine congrArg _ (funext fun _ => ?_)
    rw [bind_assoc]
  simp only [hsplit]
  rw [(endsAs_luaPushString name).settles_bind]
  refine Ran.then_congr fun _ m => ?_
  rw [hname]
  exact (endsAs_luaGetTable hlength name).settles_bind _ _

/-- `PopulateQueryParams` or `PopulateHeaders`: any type but a table is refused, and a table
is walked through. -/
structure Scripted.Walks (numberText : Number → String) (error : String)
    (emplace : List (String × String) → String → String →
      Except Exception (List (String × String)))
    (populate : Nat → LuaType → ScriptedCode (List (String × String))) : Prop where
  table : ∀ fuel s, populate fuel .table s =
    Scripted.populateEntries numberText error emplace fuel []
      ({ s.1 with stack := .nil :: s.1.stack }, s.2)
  other : ∀ fuel type, type ≠ .table → ∃ message, populate fuel type = Scripted.luaLError message

theorem Scripted.walks_queryParams : Scripted.Walks numberText
    "Expected a string type of key and value for query parameter" emplaceQuery
    fun fuel => Scripted.populateQueryParams fuel numberText :=
  ⟨fun _ _ => rfl, fun _ _ htype => ⟨_, if_pos htype⟩⟩

theorem Scripted.walks_headers : Scripted.Walks numberText
    "Expected a string type of key and value for headers" H.emplaceHeader
    fun fuel => Scripted.populateHeaders H fuel numberText :=
  ⟨fun _ _ => rfl, fun _ _ htype => ⟨_, if_pos htype⟩⟩

theorem settles_populateEntries {rest : Nat → List (String × String) → ScriptedCode β}
    {t : TableRef} (hemplace : Emplaces same limit emplace) (hlength : stack.length = 5)
    (hrest : ∀ result m, Settles (fun fuel => rest fuel result) Q (fun thrown _ => Raised thrown)
      (m.on (.table t :: stack)) ↔ C m) :
    Settles (fun fuel => Scripted.populateEntries numberText error emplace fuel [] >>= rest fuel) Q
        (fun thrown _ => Raised thrown) (m.on (.nil :: .table t :: stack)) ↔
      EntriesFit same limit numberText C (.table t) m := by
  have hpassed : ∀ visited last, Walk numberText t m .nil visited last →
      (∀ n ∈ limit, (keys same (visited.map (itemOf numberText))).toFinset.card ≤ n) →
      (Settles (fun fuel => Scripted.populateEntries numberText error emplace fuel [] >>= rest fuel)
        Q (fun thrown _ => Raised thrown) (m.on (.nil :: .table t :: stack)) ↔
        ∀ m', last = .passed m' → C m') := by
    intro visited last hwalk hfits
    obtain ⟨result, hall⟩ := hemplace.ok_iff.mpr hfits
    cases last with
    | raised =>
      refine iff_of_true ⟨visited.length + 1, fun fuel hfuel => ?_⟩ nofun
      rw [wp_bind]
      exact (wp_of_walk hlength hwalk hall hfuel).mpr nofun
    | passed m' =>
      refine Iff.trans (settles_iff_of_wp ⟨visited.length + 1, fun fuel hfuel => ?_⟩)
        ((hrest result m').trans ⟨fun h _ heq => WalkEnd.passed.inj heq ▸ h, fun h => h m' rfl⟩)
      rw [wp_bind, wp_of_walk hlength hwalk hall hfuel]
      exact ⟨fun h => h m' rfl, fun h _ heq => WalkEnd.passed.inj heq ▸ h⟩
  constructor
  · intro hsettles
    obtain ⟨n, hn⟩ := hsettles.first
    obtain ⟨visited, last, hwalk, hall⟩ := walk_of_wp hlength (hn n (Nat.le_refl n))
    have hfits := hemplace.ok_iff.mp hall
    exact ⟨visited, last, hwalk, hfits, (hpassed visited last hwalk hfits).mp hsettles⟩
  · rintro ⟨visited, last, hwalk, hfits, hnext⟩
    exact (hpassed visited last hwalk hfits).mpr hnext

theorem settles_entries {populate : Nat → LuaType → ScriptedCode (List (String × String))}
    {rest : Nat → List (String × String) → ScriptedCode β}
    (hwalks : Scripted.Walks numberText error emplace populate)
    (hemplace : Emplaces same limit emplace) (hlength : stack.length = 4)
    (hrest : ∀ result v m, Settles (fun fuel => rest fuel result) Q (fun thrown _ => Raised thrown)
      (m.on (v :: .table p :: stack)) ↔ C m) (v : Value) (m : Moment) :
    Settles (fun fuel => (if v.type ≠ .nil then populate fuel v.type else pure []) >>= rest fuel) Q
        (fun thrown _ => Raised thrown) (m.on (v :: .table p :: stack)) ↔
      EntriesFit same limit numberText C v m := by
  have hother : v.type ≠ .nil → v.type ≠ .table → (Settles (fun fuel =>
      (if v.type ≠ .nil then populate fuel v.type else pure []) >>= rest fuel) Q
        (fun thrown _ => Raised thrown) (m.on (v :: .table p :: stack)) ↔ m.Stays) := by
    intro hnil htable
    refine settles_iff ⟨0, fun fuel _ => ?_⟩
    obtain ⟨message, hraises⟩ := hwalks.other fuel v.type htable
    rw [if_pos hnil, hraises, wp_bind]
    exact wp_luaLError message _ _
  cases v with
  | nil => exact (settles_bind_of_returns ⟨0, fun _ _ => rfl⟩).trans (hrest [] .nil m)
  | table t =>
    have hfive : (Value.table p :: stack).length = 5 := by simp [hlength]
    refine Iff.trans (settles_congr fun fuel => bind_congr_apply (hwalks.table fuel _) (rest fuel))
      (settles_populateEntries hemplace hfive fun result m => hrest result (.table t) m)
  | boolean | number | string | function | userdata | thread => exact hother nofun nofun

end Field

-- ---------------------------------------------------------------------------
-- The body
-- ---------------------------------------------------------------------------

section Body

variable {β : Type} {rest : Nat → String → ScriptedCode β}
  {Q : β → LuaState × List Outcome → Prop} {C : Moment → Prop}

def Accepted (type : LuaType) : Prop :=
  type = .string ∨ type = .number ∨ type = .table ∨ type = .boolean

theorem populateBody_accepted {fuel : Nat} {type : LuaType} (htype : Accepted type) :
    Scripted.populateBody J fuel type =
      tryCatch (onPrivate (Serializer.toString J fuel none)) fun thrown =>
        match thrown with
        | .exception e => Scripted.luaLError (cString e.what)
        | .luaError _ => raise thrown := by
  have hnot : ¬ (type ≠ .string ∧ type ≠ .number ∧ type ≠ .table ∧ type ≠ .boolean) := by
    unfold Accepted at htype
    tauto
  exact if_neg hnot

theorem returns_populateBody (hJ : J.Strict) (hv : Serializable m.heap v) (stack : List Value) :
    ∃ body n, ∀ fuel, n ≤ fuel → Returns (Scripted.populateBody J fuel v.type)
      (m.on (v :: stack)) body (m.on (v :: stack)) := by
  obtain ⟨j, hj⟩ := hv.exists_encodes
  obtain ⟨n, hn⟩ := Serializer.valueOf_of_encodes hJ m.lawful j hj
  refine ⟨Deserializer.valueText J j, n, fun fuel hfuel => ?_⟩
  have htext : Returns (Serializer.toString J fuel none) (on m.heap (v :: stack))
      (Deserializer.valueText J j) (on m.heap (v :: stack)) :=
    Serializer.returns_toString_iff.mpr ⟨j, hn fuel hfuel, rfl, rfl⟩
  rw [populateBody_accepted hj.type]
  exact (htext.onPrivate m.outcomes).tryCatch _

theorem wp_populateBody_refused (hJ : J.Strict) (hv : ¬ Serializable m.heap v)
    (hfinishes : Finishes J m.heap v) (htype : Accepted v.type) (stack : List Value) :
    ∃ n, ∀ fuel, n ≤ fuel →
      ∀ Q, wp (Scripted.populateBody J fuel v.type) Q (fun thrown _ => Raised thrown)
        (m.on (v :: stack)) ↔ m.Stays := by
  obtain ⟨n, hn⟩ := hfinishes
  refine ⟨n, fun fuel hfuel Q => ?_⟩
  have hmono := Serializer.valueOf_mono hfuel hn
  cases hresult : Serializer.valueOf J m.heap fuel v with
  | other => exact absurd (hmono.symm.trans hresult) hn
  | value j => exact absurd (Serializer.serializable_of_valueOf hJ m.lawful hresult) hv
  | fault e f =>
    obtain ⟨L, hthrows⟩ : ∃ L, Throws (Serializer.toString J fuel none)
        (on m.heap (v :: stack)) (.exception e) L :=
      Serializer.throws_toString_iff.mpr ⟨f, hresult⟩
    have hthrows' : Throws (onPrivate (Serializer.toString J fuel none)) (m.on (v :: stack))
        (.exception e) (L, m.outcomes) := by
      unfold Throws onPrivate zoom Moment.on
      rw [hthrows]
      rfl
    rw [populateBody_accepted htype, wp_congr (hthrows'.tryCatch_apply _)]
    exact wp_luaLError _ L Q

theorem finishes_of_wp (htype : Accepted v.type)
    (h : Settles (fun fuel => Scripted.populateBody J fuel v.type) (fun _ _ => True)
      (fun thrown _ => Raised thrown) (m.on (v :: stack))) : Finishes J m.heap v := by
  have hiff : Settles (fun fuel => Serializer.toString J fuel none) (fun _ _ => True)
      (fun _ _ => True) (on m.heap (v :: stack)) ↔ Finishes J m.heap v :=
    Serializer.settles_toString_iff m.lawful
  refine hiff.mp ?_
  obtain ⟨n, hn⟩ := h
  refine ⟨n, fun fuel hfuel => ?_⟩
  have hwp : wp (Scripted.populateBody J fuel v.type) _ _ (m.on (v :: stack)) := hn fuel hfuel
  rw [populateBody_accepted htype, wp_tryCatch, onPrivate, wp_zoom] at hwp
  exact wp_mono hwp (fun _ _ _ => trivial) fun _ _ _ => trivial

theorem settles_body (hJ : J.Strict)
    (hrest : ∀ body v m, Settles (fun fuel => rest fuel body) Q (fun thrown _ => Raised thrown)
      (m.on (v :: .table p :: stack)) ↔ C m) (v : Value) (m : Moment) :
    Settles (fun fuel => (if v.type ≠ .nil then Scripted.populateBody J fuel v.type else pure "")
        >>= rest fuel) Q (fun thrown _ => Raised thrown) (m.on (v :: .table p :: stack)) ↔
      BodyFits C v m := by
  unfold BodyFits
  by_cases hnil : v = .nil
  · subst hnil
    rw [if_pos rfl]
    exact (settles_bind_of_returns ⟨0, fun _ _ => rfl⟩).trans (hrest "" .nil m)
  · have hpopulate : ∀ fuel, (if v.type ≠ .nil then Scripted.populateBody J fuel v.type
        else pure "") = Scripted.populateBody J fuel v.type :=
      fun fuel => if_pos (mt Value.type_eq_nil.mp hnil)
    simp only [hpopulate, if_neg hnil, ← Serializer.finishes_iff hJ m.lawful]
    by_cases hv : Serializable m.heap v
    · have hfinishes : Finishes J m.heap v := by
        obtain ⟨j, hj⟩ := hv.exists_encodes
        obtain ⟨n, hn⟩ := Serializer.valueOf_of_encodes hJ m.lawful j hj
        exact ⟨n, by rw [hn n (Nat.le_refl n)]; nofun⟩
      obtain ⟨body, hbody⟩ := returns_populateBody hJ hv (.table p :: stack)
      rw [and_iff_right hfinishes, and_iff_left (absurd hv), imp_iff_right hv]
      exact (settles_bind_of_returns hbody).trans (hrest body v m)
    · rw [imp_iff_right hv, and_iff_right (fun h => absurd h hv)]
      by_cases htype : Accepted v.type
      · by_cases hfinishes : Finishes J m.heap v
        · rw [and_iff_right hfinishes]
          obtain ⟨n, hn⟩ :=
            wp_populateBody_refused hJ hv hfinishes htype (.table p :: stack)
          refine settles_iff ⟨n, fun fuel hfuel => ?_⟩
          rw [wp_bind]
          exact hn fuel hfuel _
        · exact iff_of_false (fun h => hfinishes (finishes_of_wp htype h.first))
            fun h => hfinishes h.1
      · have hrefused : v.type ≠ .string ∧ v.type ≠ .number ∧ v.type ≠ .table ∧
            v.type ≠ .boolean := by
          unfold Accepted at htype
          tauto
        rw [and_iff_right (Serializer.finishes_of_not_table fun t ht => ?_)]
        · refine settles_iff ⟨0, fun fuel _ => ?_⟩
          rw [wp_bind]
          unfold Scripted.populateBody
          rw [if_pos hrefused]
          exact wp_luaLError _ _ _
        · exact hrefused.2.2.1 (by rw [ht]; rfl)

end Body

-- ---------------------------------------------------------------------------
-- The request
-- ---------------------------------------------------------------------------

theorem fieldFits_congr {name : String} {C C' : Value → Moment → Prop}
    (h : ∀ v m, C v m ↔ C' v m) : FieldFits p name C m ↔ FieldFits p name C' m :=
  Ran.then_congr fun _ _ => Ran.then_congr h

section Request

variable {β : Type} {Q : β → LuaState × List Outcome → Prop} {C : Moment → Prop}

theorem Scripted.returns_setTop (hlength : stack.length = 4) (v : Value) (m : Moment) :
    Returns (onPrivate (luaSetTop 5)) (m.on (v :: .table p :: stack)) ()
      (m.on (.table p :: stack)) := by
  show Result.done _ _ = _
  simp [Moment.on, on, hlength]

theorem settles_stage {populate : Nat → LuaType → ScriptedCode (List (String × String))}
    {name : String} {rest : Nat → List (String × String) → ScriptedCode β}
    (hwalks : Scripted.Walks numberText error emplace populate)
    (hemplace : Emplaces same limit emplace) (hlength : stack.length = 4)
    (hname : cString name = name)
    (hrest : ∀ result m, Settles (fun fuel => rest fuel result) Q (fun thrown _ => Raised thrown)
      (m.on (.table p :: stack)) ↔ C m) :
    Settles (fun fuel => Scripted.populateField name [] (populate fuel) >>= fun result =>
        onPrivate (luaSetTop 5) >>= fun _ => rest fuel result) Q (fun thrown _ => Raised thrown)
        (m.on (.table p :: stack)) ↔
      FieldFits p name (EntriesFit same limit numberText C) m := by
  refine (settles_populateField hlength hname).trans (fieldFits_congr fun v m => ?_)
  refine settles_entries hwalks hemplace hlength (fun result v m => ?_) v m
  have htop := Scripted.returns_setTop (p := p) hlength v m
  exact (settles_bind_of_returns ⟨0, fun _ _ => htop⟩).trans (hrest result m)

theorem settles_params {limit : Nat} {rest : Request → ScriptedCode β} (hJ : J.Strict)
    (hheaders : Emplaces foldCase (some limit) H.emplaceHeader) (hlength : stack.length = 4)
    (hrest : ∀ request v (m : Moment), Settles (fun _ => rest request) Q
      (fun thrown _ => Raised thrown)
      (m.on (v :: .table p :: stack)) ↔ m.Stays) (request : Request) :
    Settles (fun fuel => Scripted.populateAdditionalParams H J fuel numberText request >>= rest) Q
        (fun thrown _ => Raised thrown) (m.on (.table p :: stack)) ↔
      ParamsFit limit numberText p m := by
  have hsplit : ∀ fuel, Scripted.populateAdditionalParams H J fuel numberText request >>= rest =
      Scripted.populateField "query" [] (Scripted.populateQueryParams fuel numberText) >>=
        fun query => onPrivate (luaSetTop 5) >>= fun _ =>
          Scripted.populateField "headers" [] (Scripted.populateHeaders H fuel numberText) >>=
            fun headers => onPrivate (luaSetTop 5) >>= fun _ =>
              Scripted.populateField "body" "" (Scripted.populateBody J fuel) >>=
                fun body => rest { request with query, headers, body } := by
    intro fuel
    simp only [Scripted.populateAdditionalParams, Code.bind_assoc]
    rfl
  have hquery : Emplaces id none emplaceQuery := emplaces_emplaceQuery
  simp only [hsplit]
  refine settles_stage Scripted.walks_queryParams hquery hlength (by decide) fun query m => ?_
  refine settles_stage Scripted.walks_headers hheaders hlength (by decide) fun headers m => ?_
  refine (settles_populateField hlength (by decide)).trans (fieldFits_congr fun v m => ?_)
  exact settles_body hJ (fun body v m => hrest _ v m) v m

end Request

section Arguments

variable {a b : Value} {fuel : Nat}

def Scripted.prepareFrom (H : HttpLibrary) (J : JsonLibrary) (fuel : Nat)
    (numberText : Number → String) (hasParams : Bool) : ScriptedCode Request :=
  Scripted.luaConvertToString numberText 3 >>= fun method =>
    Scripted.luaConvertToString numberText 4 >>= fun url =>
      onPrivate (ofLibrary (H.methodFromString method)) >>= fun name =>
        (if hasParams then Scripted.populateAdditionalParams H J fuel numberText
            { Request.default with method := name, url }
          else pure { Request.default with method := name, url }) >>= fun request =>
            onPrivate luaClear >>= fun _ => pure request

theorem Scripted.prepare_four (hmethod : IsText method) (hurl : IsText url) :
    Scripted.prepare H J fuel numberText (m.on [url, method, a, b]) =
      Scripted.prepareFrom H J fuel numberText false (m.on [url, method, a, b]) := by
  rcases isText_cases hmethod with ⟨s, rfl⟩ | ⟨n, rfl⟩ <;>
    rcases isText_cases hurl with ⟨s', rfl⟩ | ⟨n', rfl⟩ <;> rfl

theorem Scripted.prepare_five (hmethod : IsText method) (hurl : IsText url)
    (hparams : params = .nil ∨ ∃ p, params = .table p) :
    Scripted.prepare H J fuel numberText (m.on [params, url, method, a, b]) =
      Scripted.prepareFrom H J fuel numberText (params ≠ .nil)
        (m.on [params, url, method, a, b]) := by
  rcases isText_cases hmethod with ⟨s, rfl⟩ | ⟨n, rfl⟩ <;>
    rcases isText_cases hurl with ⟨s', rfl⟩ | ⟨n', rfl⟩ <;>
      rcases hparams with rfl | ⟨p, rfl⟩ <;> rfl

theorem endsAs_convertMethod {front : List Value} (hfront : front.length ≤ 1)
    (hmethod : IsText method) :
    EndsAs (Scripted.luaConvertToString numberText 3) (m.on (front ++ [url, method, a, b]))
      (fun _ m => (cString (stringForm numberText method),
        m.on (front ++ [url, .string (stringForm numberText method), a, b])))
      (m.convert method) := by
  rcases isText_cases hmethod with ⟨s, rfl⟩ | ⟨n, rfl⟩
  · match front with
    | [] | [params] => exact rfl
    | _ :: _ :: _ => exact absurd hfront (by simp)
  · have hconverts : Returns (onPrivate (luaType 3)) (m.on (front ++ [url, .number n, a, b]))
          .number (m.on (front ++ [url, .number n, a, b])) ∧
        Returns (onPrivate (luaConvertToString numberText 3))
          (m.on (front ++ [url, .number n, a, b])) (cString (numberText n))
          (m.on (front ++ [url, .string (numberText n), a, b])) := by
      match front with
      | [] | [params] => exact ⟨rfl, rfl⟩
      | _ :: _ :: _ => exact absurd hfront (by simp)
    refine .of_returns hconverts.1 (.of_returns hconverts.2 ?_)
    exact endsAs_scriptCode.then_returns fun _ _ => rfl

theorem endsAs_convertUrl {front : List Value} (hfront : front.length ≤ 1) (hurl : IsText url) :
    EndsAs (Scripted.luaConvertToString numberText 4) (m.on (front ++ [url, method, a, b]))
      (fun _ m => (cString (stringForm numberText url),
        m.on (front ++ [.string (stringForm numberText url), method, a, b])))
      (m.convert url) := by
  rcases isText_cases hurl with ⟨s, rfl⟩ | ⟨n, rfl⟩
  · match front with
    | [] | [params] => exact rfl
    | _ :: _ :: _ => exact absurd hfront (by simp)
  · have hconverts : Returns (onPrivate (luaType 4)) (m.on (front ++ [.number n, method, a, b]))
          .number (m.on (front ++ [.number n, method, a, b])) ∧
        Returns (onPrivate (luaConvertToString numberText 4))
          (m.on (front ++ [.number n, method, a, b])) (cString (numberText n))
          (m.on (front ++ [.string (numberText n), method, a, b])) := by
      match front with
      | [] | [params] => exact ⟨rfl, rfl⟩
      | _ :: _ :: _ => exact absurd hfront (by simp)
    refine .of_returns hconverts.1 (.of_returns hconverts.2 ?_)
    exact endsAs_scriptCode.then_returns fun _ _ => rfl

theorem settles_prepareFrom {hasParams : Bool} {front : List Value} {β : Type}
    {rest : Request → ScriptedCode β} {Q : β → LuaState × List Outcome → Prop} {C : Moment → Prop}
    (hfront : front.length ≤ 1) (hmethod : IsText method) (hurl : IsText url)
    (hrest : ∀ request (m : Moment), Settles (fun fuel => (if hasParams
          then Scripted.populateAdditionalParams H J fuel numberText request else pure request) >>=
        fun request => onPrivate luaClear >>= fun _ => rest request) Q
        (fun thrown _ => Raised thrown)
      (m.on (front ++ [.string (stringForm numberText url),
        .string (stringForm numberText method), a, b])) ↔ C m) :
    Settles (fun fuel => Scripted.prepareFrom H J fuel numberText hasParams >>= rest) Q
        (fun thrown _ => Raised thrown) (m.on (front ++ [url, method, a, b])) ↔
      (convertEntry m method url).Then fun _ m => KnownMethod H numberText method ∧ C m := by
  simp only [Scripted.prepareFrom, Code.bind_assoc]
  rw [(endsAs_convertMethod hfront hmethod).settles_bind, convertEntry, Ran.then_bind]
  refine Ran.then_congr fun _ m => ?_
  rw [(endsAs_convertUrl hfront hurl).settles_bind]
  refine Ran.then_congr fun _ m => ?_
  rw [settles_ofLibrary_bind, KnownMethod, ← exists_and_right]
  exact exists_congr fun name => and_congr_right fun _ => hrest _ m

end Arguments

-- ---------------------------------------------------------------------------
-- The answer
-- ---------------------------------------------------------------------------

theorem returns_setHeaders {t : TableRef} (headers : List (String × String)) (h : Heap) : ∃ h',
    Returns (setHeaders headers) (on h (.table t :: stack)) () (on h' (.table t :: stack)) := by
  induction headers generalizing h with
  | nil => exact ⟨h, rfl⟩
  | cons entry headers ih =>
    obtain ⟨header, value⟩ := entry
    obtain ⟨h', hr⟩ := ih (h.rawset t (.string (cString header)) (.string (cString value)))
    exact ⟨h', Returns.bind rfl (Returns.bind rfl hr)⟩

theorem returns_finish (answer : Except Exception Reply) (L : LuaState) :
    ∃ h' v w, Returns (finish answer) L () (on h' (v :: w :: L.stack)) := by
  obtain ⟨stack, h⟩ := L
  cases answer with
  | error e => exact ⟨h, _, _, rfl⟩
  | ok reply =>
    let t := h.length
    have hbody : ∀ h₁, ∃ h₂, Returns (luaPushString reply.response.body >>= fun _ =>
        luaSetField (-2) "body") (on h₁ (.table t :: stack)) () (on h₂ (.table t :: stack)) :=
      fun h₁ => ⟨_, rfl⟩
    have hresponse : ∃ h₂, Returns (buildLuaResponse reply) (on h stack) ()
        (on h₂ (.table t :: stack)) := by
      unfold buildLuaResponse
      cases reply.hasHeaders with
      | false =>
        obtain ⟨h₂, hr⟩ := hbody _
        exact ⟨h₂, Returns.bind rfl (Returns.bind rfl (Returns.bind rfl hr))⟩
      | true =>
        let h₁ := (h ++ [[]]).rawset t (.string (cString "status"))
          (.number (.integer reply.response.status.toInt64))
        obtain ⟨h₂, hheaders⟩ : ∃ h₂, Returns (setHeaders reply.response.headers)
            (on (h₁ ++ [[]]) (.table h₁.length :: .table t :: stack)) ()
            (on h₂ (.table h₁.length :: .table t :: stack)) := returns_setHeaders _ _
        obtain ⟨h₃, hr⟩ := hbody (h₂.rawset t (.string (cString "headers")) (.table h₁.length))
        exact ⟨h₃, Returns.bind rfl (Returns.bind rfl (Returns.bind rfl (Returns.bind rfl
          (hheaders.bind (Returns.bind rfl hr)))))⟩
    obtain ⟨h₂, hr⟩ := hresponse
    exact ⟨h₂, .nil, .table t, hr.bind rfl⟩

theorem settles_finish (answer : Except Exception Reply) (stack : List Value) (m : Moment) :
    Settles (fun _ => Scripted.finish answer) (fun _ s => 2 ≤ s.1.stack.length)
      (fun thrown _ => Raised thrown) (m.on stack) ↔ m.Stays := by
  refine settles_iff ⟨0, fun _ _ => ?_⟩
  rw [Scripted.finish, wp_bind]
  refine wp_scriptCode_iff _ fun _ s _ => ?_
  obtain ⟨h', v, w, hr⟩ := returns_finish answer s.1
  exact (hr.onPrivate s.2).wp_iff.mpr (by simp [on])

-- ---------------------------------------------------------------------------
-- The whole call
-- ---------------------------------------------------------------------------

def Refuses (H : HttpLibrary) (J : JsonLibrary) (numberText : Number → String) (m : Moment)
    (stack : List Value) : Prop :=
  ∀ fuel Q, wp (Scripted.prepare H J fuel numberText) Q (fun thrown _ => Raised thrown)
    (m.on stack) ↔ m.Stays

theorem returns_getTop (stack : List Value) (m : Moment) :
    Returns (onPrivate luaGetTop) (m.on stack) stack.length (m.on stack) := rfl

theorem refuses_count (hcount : stack.length ≠ 4 ∧ stack.length ≠ 5) :
    Refuses H J numberText m stack := by
  intro fuel Q
  rw [Scripted.prepare, wp_bind]
  refine (returns_getTop stack m).wp_iff.trans ?_
  rw [if_pos hcount]
  exact wp_luaLError _ _ _

theorem refuses_text (hcount : stack.length = 4 ∨ stack.length = 5)
    (hmethod : (on m.heap stack).at 3 = some method) (hurl : (on m.heap stack).at 4 = some url)
    (hwrong : ¬ (IsText method ∧ IsText url)) : Refuses H J numberText m stack := by
  intro fuel Q
  have hright : ¬ (stack.length ≠ 4 ∧ stack.length ≠ 5) := by tauto
  rw [Scripted.prepare, wp_bind]
  refine (returns_getTop stack m).wp_iff.trans ?_
  rw [if_neg hright, wp_bind]
  refine (returns_isString hmethod).wp_iff.trans ?_
  by_cases htext : IsText method
  · have hwrong : ¬ IsText url := fun hurl => hwrong ⟨htext, hurl⟩
    rw [if_neg (by simpa using htext), wp_bind]
    refine (returns_isString hurl).wp_iff.trans ?_
    rw [if_pos (by simpa using hwrong)]
    exact wp_luaLError _ _ _
  · rw [if_pos (by simpa using htext)]
    exact wp_luaLError _ _ _

theorem refuses_params {a b : Value} (hmethod : IsText method) (hurl : IsText url)
    (hnil : params ≠ .nil) (htable : ∀ p, params ≠ .table p) :
    Refuses H J numberText m [params, url, method, a, b] := by
  intro fuel Q
  have hprepare : Scripted.prepare H J fuel numberText (m.on [params, url, method, a, b]) =
      (Scripted.luaLError "Expected a table type of additional params" : ScriptedCode Request)
        (m.on [params, url, method, a, b]) := by
    rcases isText_cases hmethod with ⟨s, rfl⟩ | ⟨n, rfl⟩ <;>
      rcases isText_cases hurl with ⟨s', rfl⟩ | ⟨n', rfl⟩ <;>
        cases params with
        | nil => exact absurd rfl hnil
        | table p => exact absurd rfl (htable p)
        | _ => rfl
  exact (wp_congr hprepare).trans (wp_luaLError _ _ _)

section Execute

variable {limit : Nat} {send : Request → Except Exception Reply}

/-- With enough fuel the call leaves its two results, or raises an error of Lua. -/
def Contains (H : HttpLibrary) (J : JsonLibrary) (numberText : Number → String)
    (send : Request → Except Exception Reply) (m : Moment) (stack : List Value) : Prop :=
  Settles (fun fuel => Scripted.execute H J fuel numberText send)
    (fun _ s => 2 ≤ s.1.stack.length) (fun thrown _ => Raised thrown) (m.on stack)

theorem Refuses.contains_iff (h : Refuses H J numberText m stack) :
    Contains H J numberText send m stack ↔ m.Stays := by
  refine settles_iff ⟨0, fun fuel _ => ?_⟩
  rw [Scripted.execute, wp_bind]
  exact h fuel _

theorem settles_clear_finish (request : Request) (stack : List Value) (m : Moment) :
    Settles (fun _ => onPrivate luaClear >>= fun _ => Scripted.finish (send request))
      (fun _ s => 2 ≤ s.1.stack.length) (fun thrown _ => Raised thrown) (m.on stack) ↔ m.Stays := by
  have hclear : Returns (onPrivate luaClear) (m.on stack) () (m.on []) := rfl
  exact (settles_bind_of_returns ⟨0, fun _ _ => hclear⟩).trans (settles_finish _ [] m)

theorem contains_without_params {front : List Value} {a b : Value} (hfront : front.length ≤ 1)
    (hmethod : IsText method) (hurl : IsText url)
    (hprepare : ∀ fuel, Scripted.prepare H J fuel numberText (m.on (front ++ [url, method, a, b])) =
      Scripted.prepareFrom H J fuel numberText false (m.on (front ++ [url, method, a, b]))) :
    Contains H J numberText send m (front ++ [url, method, a, b]) ↔
      (convertEntry m method url).Then fun _ m => KnownMethod H numberText method ∧ m.Stays := by
  refine (settles_congr fun fuel => bind_congr_apply (hprepare fuel) _).trans ?_
  refine settles_prepareFrom hfront hmethod hurl fun request m => ?_
  exact (settles_bind_of_returns ⟨0, fun _ _ => rfl⟩).trans (settles_clear_finish request _ m)

/-- `client:send` stays inside Lua exactly where its arguments fit. -/
theorem contains_iff (hJ : J.Strict)
    (hheaders : Emplaces foldCase (some limit) H.emplaceHeader) (stack : List Value) :
    Contains H J numberText send m stack ↔ SendFits H limit numberText m stack := by
  unfold SendFits
  split
  · next url method a b =>
    split
    · next htext =>
      exact contains_without_params (show ([] : List Value).length ≤ 1 by simp) htext.1 htext.2
        fun fuel => Scripted.prepare_four htext.1 htext.2
    · next htext => exact (refuses_text (.inl rfl) rfl rfl htext).contains_iff
  · next params url method a b =>
    split
    · next htext =>
      split
      · exact contains_without_params (show [Value.nil].length ≤ 1 by simp) htext.1 htext.2
          fun fuel => Scripted.prepare_five htext.1 htext.2 (.inl rfl)
      · next p =>
        have hprepare : ∀ fuel, Scripted.prepare H J fuel numberText
            (m.on [.table p, url, method, a, b]) =
              Scripted.prepareFrom H J fuel numberText true (m.on [.table p, url, method, a, b]) :=
          fun fuel => Scripted.prepare_five htext.1 htext.2 (.inr ⟨p, rfl⟩)
        refine (settles_congr fun fuel => bind_congr_apply (hprepare fuel) _).trans ?_
        have hfront : [Value.table p].length ≤ 1 := by simp
        refine settles_prepareFrom hfront htext.1 htext.2 fun request m => ?_
        exact settles_params hJ hheaders rfl (fun request v m => settles_clear_finish request _ m)
          request
      · next hnil htable =>
        exact (refuses_params htext.1 htext.2 hnil htable).contains_iff
    · next htext => exact (refuses_text (.inr rfl) rfl rfl htext).contains_iff
  · next hfour hfive =>
    refine (refuses_count ⟨fun hlength => ?_, fun hlength => ?_⟩).contains_iff
    · obtain ⟨url, method, a, b, rfl⟩ := exists_four hlength
      exact hfour url method a b rfl
    · obtain ⟨params, rest, rfl⟩ := List.exists_cons_of_length_eq_add_one hlength
      obtain ⟨url, method, a, b, rfl⟩ := exists_four (Nat.succ.inj hlength)
      exact hfive params url method a b rfl

end Execute

end LambdaExecutor.Http.ClientMethod
