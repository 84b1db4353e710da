import LambdaExecutor.Http.Requests

/-!
# What `client:send` gives back

A call whose arguments stand for a request leaves two results: a new table with the
fields of the response and nil, or nil and the text of the exception.
-/

namespace LambdaExecutor.Http.ClientMethod

open Lua Formats Raii Raii.Code Emplace
open Serializer (on)

variable {H : HttpLibrary} {J : JsonLibrary} {numberText : Number → String} {h : Heap}
  {t u : TableRef} {v : Value} {stack : List Value} {key name : String}

-- ---------------------------------------------------------------------------
-- Tables with string keys
-- ---------------------------------------------------------------------------

theorem rawget_rawset (ht : t < h.length) (hv : v ≠ .nil) :
    (h.rawset t (.string key) v).rawget u (.string name) =
      if u = t ∧ name = key then v else h.rawget u (.string name) := by
  by_cases hu : u = t
  · subst hu
    by_cases hname : name = key
    · subst hname
      rw [if_pos ⟨rfl, rfl⟩, Heap.rawget_rawset_self ht hv]
    · rw [if_neg fun h => hname h.2]
      unfold Heap.rawget
      rw [Heap.getElem?_rawset, if_pos rfl, List.getElem?_eq_getElem ht]
      have hne : Value.string key ≠ .string name := by simpa using Ne.symm hname
      exact Table.get_set_ne v hne
  · rw [if_neg fun h => hu h.1]
    unfold Heap.rawget
    rw [Heap.getElem?_rawset, if_neg (Ne.symm hu)]

theorem rawget_newTable (h : Heap) (name : String) :
    (h ++ [[]]).rawget u (.string name) = h.rawget u (.string name) := by
  unfold Heap.rawget
  rcases Nat.lt_trichotomy u h.length with hlt | rfl | hgt
  · rw [List.getElem?_append_left hlt]
  · rw [List.getElem?_append_right (Nat.le_refl _), List.getElem?_eq_none (Nat.le_refl _)]
    simp [Table.get]
  · have hle : (h ++ [[]]).length ≤ u := by
      rw [List.length_append]
      exact hgt
    rw [List.getElem?_eq_none hle, List.getElem?_eq_none (Nat.le_of_lt hgt)]

def KeepsTables (h h' : Heap) : Prop := h.length ≤ h'.length ∧ ∀ u < h.length, h'[u]? = h[u]?

theorem KeepsTables.trans {h' h'' : Heap} (hfirst : KeepsTables h h')
    (hsecond : KeepsTables h' h'') : KeepsTables h h'' :=
  ⟨Nat.le_trans hfirst.1 hsecond.1, fun u hu =>
    (hsecond.2 u (Nat.lt_of_lt_of_le hu hfirst.1)).trans (hfirst.2 u hu)⟩

theorem keepsTables_newTable (h : Heap) : KeepsTables h (h ++ [[]]) :=
  ⟨by simp, fun u hu => List.getElem?_append_left hu⟩

theorem KeepsTables.rawset {h' : Heap} (hkeeps : KeepsTables h h') (ht : h.length ≤ t) :
    KeepsTables h (h'.rawset t (.string key) v) := by
  refine ⟨by simpa using hkeeps.1, fun u hu => ?_⟩
  rw [Heap.getElem?_rawset, if_neg (Nat.ne_of_gt (Nat.lt_of_lt_of_le hu ht))]
  exact hkeeps.2 u hu

-- ---------------------------------------------------------------------------
-- The headers
-- ---------------------------------------------------------------------------

/-- The value under a name, of which the last one counts. -/
def headerField (headers : List (String × String)) (name : String) : Value :=
  match headers.reverse.find? fun header => cString header.1 = name with
  | some header => .string (cString header.2)
  | none => .nil

theorem headerField_cons (header : String × String) (headers : List (String × String)) :
    headerField (header :: headers) name =
      if headerField headers name = .nil ∧ name = cString header.1
      then .string (cString header.2) else headerField headers name := by
  unfold headerField
  rw [List.reverse_cons, List.find?_append]
  cases hfind : headers.reverse.find? fun header => cString header.1 = name with
  | some found => simp
  | none =>
    by_cases hname : cString header.1 = name
    · simp [hname]
    · simp [hname, Ne.symm hname]

theorem returns_setHeaders_fields (headers : List (String × String)) {h₀ : Heap}
    (hkeeps : KeepsTables h₀ h) (hlow : h₀.length ≤ t) (ht : t < h.length) : ∃ h',
    Returns (setHeaders headers) (on h (.table t :: stack)) () (on h' (.table t :: stack)) ∧
      h'.length = h.length ∧ KeepsTables h₀ h' ∧
      ∀ u name, h'.rawget u (.string name) =
        if u = t ∧ headerField headers name ≠ .nil then headerField headers name
        else h.rawget u (.string name) := by
  induction headers generalizing h with
  | nil =>
    refine ⟨h, rfl, rfl, hkeeps, fun u name => ?_⟩
    rw [if_neg]
    simp [headerField]
  | cons header headers ih =>
    obtain ⟨h', hr, hlength, hkeeps', hfields⟩ := ih
      (h := h.rawset t (.string (cString header.1)) (.string (cString header.2)))
      (hkeeps.rawset hlow) (by simpa using ht)
    refine ⟨h', Returns.bind rfl (Returns.bind rfl hr), by simpa using hlength, hkeeps',
      fun u name => ?_⟩
    rw [hfields, rawget_rawset ht (by simp), headerField_cons]
    by_cases hu : u = t
    · by_cases hnil : headerField headers name = .nil
      · by_cases hname : name = cString header.1
        · subst hname
          simp [hu, hnil]
        · simp [hu, hnil, hname]
      · simp [hu, hnil]
    · simp [hu]

-- ---------------------------------------------------------------------------
-- The response
-- ---------------------------------------------------------------------------

/-- The table at the end of the first heap is the response, with its headers behind it. -/
structure IsReply (h h' : Heap) (reply : Reply) : Prop where
  kept : KeepsTables h h'
  status : h'.rawget h.length (.string "status") =
    .number (.integer reply.response.status.toInt64)
  headers : if reply.hasHeaders then
      h'.rawget h.length (.string "headers") = .table (h.length + 1) ∧ ∀ name,
        h'.rawget (h.length + 1) (.string name) = headerField reply.response.headers name
    else h'.rawget h.length (.string "headers") = .nil
  body : h'.rawget h.length (.string "body") = .string (cString reply.response.body)
  nothingElse : ∀ name, name ∉ ["status", "headers", "body"] →
    h'.rawget h.length (.string name) = .nil

theorem rawget_length (h : Heap) (name : String) : h.rawget h.length (.string name) = .nil := by
  unfold Heap.rawget
  rw [List.getElem?_eq_none (Nat.le_refl _)]

theorem returns_setField (t : TableRef) (key : String) (v : Value) (hkey : cString key = key) :
    Returns (luaSetField (-2) key) (on h (v :: .table t :: stack)) ()
      (on (h.rawset t (.string key) v) (.table t :: stack)) := by
  show Result.done _ _ = _
  rw [hkey]
  rfl

section Response

variable {reply : Reply} {h₂ h₄ : Heap}

structure HasStatus (h h₂ : Heap) (reply : Reply) : Prop where
  kept : KeepsTables h h₂
  length : h₂.length = h.length + 1
  fields : ∀ name, h₂.rawget h.length (.string name) =
    if name = "status" then .number (.integer reply.response.status.toInt64) else .nil

theorem returns_setStatus (reply : Reply) (h : Heap) : ∃ h₂, HasStatus h h₂ reply ∧
    ∀ (rest : LuaCode Unit) L, Returns rest (on h₂ (.table h.length :: stack)) () L →
      Returns (luaNewTable >>= fun _ => luaPushInteger reply.response.status.toInt64 >>= fun _ =>
        luaSetField (-2) "status" >>= fun _ => rest) (on h stack) () L := by
  have ht : h.length < (h ++ [[]]).length := by simp
  refine ⟨(h ++ [[]]).rawset h.length (.string "status")
    (.number (.integer reply.response.status.toInt64)),
    ⟨(keepsTables_newTable h).rawset (Nat.le_refl _), by simp, fun name => ?_⟩,
    fun rest L hrest => ?_⟩
  · rw [rawget_rawset ht (by simp), rawget_newTable, rawget_length]
    simp
  · have hfield : Returns (luaSetField (-2) "status") (on (h ++ [[]])
        (.number (.integer reply.response.status.toInt64) :: .table h.length :: stack)) () _ :=
      returns_setField h.length "status" _ (by decide)
    exact Returns.bind rfl (Returns.bind rfl (hfield.bind hrest))

theorem HasStatus.withBody (hs : HasStatus h h₂ reply) (hnone : reply.hasHeaders = false) :
    IsReply h (h₂.rawset h.length (.string "body") (.string (cString reply.response.body)))
      reply := by
  have ht : h.length < h₂.length := by simp [hs.length]
  have hfields : ∀ name, (h₂.rawset h.length (.string "body")
      (.string (cString reply.response.body))).rawget h.length (.string name) =
        if name = "body" then .string (cString reply.response.body)
        else if name = "status" then .number (.integer reply.response.status.toInt64)
        else .nil := by
    intro name
    rw [rawget_rawset ht (by simp), hs.fields]
    simp
  refine ⟨hs.kept.rawset (Nat.le_refl _), ?_, ?_, ?_, fun name hname => ?_⟩
  · rw [hfields, if_neg (by decide), if_pos rfl]
  · rw [hnone, if_neg (by decide), hfields, if_neg (by decide), if_neg (by decide)]
  · rw [hfields, if_pos rfl]
  · rw [List.mem_cons, List.mem_cons, List.mem_singleton, not_or, not_or] at hname
    rw [hfields, if_neg hname.2.2, if_neg hname.1]

structure HasHeaders (h h₂ h₄ : Heap) (reply : Reply) : Prop where
  kept : KeepsTables h h₄
  length : h₄.length = h.length + 2
  fields : ∀ u name, h₄.rawget u (.string name) =
    if u = h.length + 1 then headerField reply.response.headers name
    else h₂.rawget u (.string name)

theorem HasStatus.returns_setHeaders (hs : HasStatus h h₂ reply) : ∃ h₄,
    HasHeaders h h₂ h₄ reply ∧
      Returns (setHeaders reply.response.headers)
        (on (h₂ ++ [[]]) (.table h₂.length :: .table h.length :: stack)) ()
        (on h₄ (.table (h.length + 1) :: .table h.length :: stack)) := by
  obtain ⟨h₄, hr, hlength, hkept, hfields⟩ := returns_setHeaders_fields
    (h := h₂ ++ [[]]) (t := h₂.length) reply.response.headers
    (hs.kept.trans (keepsTables_newTable h₂)) hs.kept.1 (by simp)
  refine ⟨h₄, ⟨hkept, by simp [hlength, hs.length], fun u name => ?_⟩, ?_⟩
  · rw [hfields, rawget_newTable, hs.length]
    by_cases hu : u = h.length + 1
    · have hnil : h₂.rawget u (.string name) = .nil := by
        rw [hu, ← hs.length, rawget_length]
      by_cases hfield : headerField reply.response.headers name = .nil
      · simp [hu, hfield, ← hnil]
      · simp [hu, hfield]
    · simp [hu]
  · rw [← hs.length]
    exact hr

theorem HasHeaders.withBody (hh : HasHeaders h h₂ h₄ reply) (hs : HasStatus h h₂ reply)
    (hsome : reply.hasHeaders = true) :
    IsReply h ((h₄.rawset h.length (.string "headers") (.table (h.length + 1))).rawset h.length
      (.string "body") (.string (cString reply.response.body))) reply := by
  have ht : h.length < h₄.length := by simp [hh.length]
  have hfields : ∀ u name, ((h₄.rawset h.length (.string "headers")
      (.table (h.length + 1))).rawset h.length (.string "body")
        (.string (cString reply.response.body))).rawget u (.string name) =
      if u = h.length ∧ name = "body" then .string (cString reply.response.body)
      else if u = h.length ∧ name = "headers" then .table (h.length + 1)
      else if u = h.length + 1 then headerField reply.response.headers name
      else h₂.rawget u (.string name) := by
    intro u name
    rw [rawget_rawset (by simpa using ht) (by simp), rawget_rawset ht (by simp), hh.fields]
  have hne : h.length ≠ h.length + 1 := Nat.ne_of_lt (Nat.lt_succ_self _)
  refine ⟨(hh.kept.rawset (Nat.le_refl _)).rawset (Nat.le_refl _), ?_, ?_, ?_, fun name hname => ?_⟩
  · rw [hfields, if_neg (by simp), if_neg (by simp), if_neg hne, hs.fields, if_pos rfl]
  · rw [hsome, if_pos rfl]
    refine ⟨?_, fun name => ?_⟩
    · rw [hfields, if_neg (by simp), if_pos ⟨rfl, rfl⟩]
    · rw [hfields, if_neg fun heq => hne heq.1.symm, if_neg fun heq => hne heq.1.symm, if_pos rfl]
  · rw [hfields, if_pos ⟨rfl, rfl⟩]
  · rw [List.mem_cons, List.mem_cons, List.mem_singleton, not_or, not_or] at hname
    rw [hfields, if_neg fun heq => hname.2.2 heq.2, if_neg fun heq => hname.2.1 heq.2, if_neg hne,
      hs.fields, if_neg hname.1]

theorem returns_setBody (t : TableRef) (body : String) (h' : Heap) :
    Returns (luaPushString body >>= fun _ => luaSetField (-2) "body") (on h' (.table t :: stack)) ()
      (on (h'.rawset t (.string "body") (.string (cString body))) (.table t :: stack)) := by
  have hfield : Returns (luaSetField (-2) "body")
      (on h' (.string (cString body) :: .table t :: stack)) () _ :=
    returns_setField t "body" _ (by decide)
  exact Returns.bind rfl hfield

theorem returns_buildLuaResponse (reply : Reply) (h : Heap) : ∃ h',
    Returns (buildLuaResponse reply) (on h stack) () (on h' (.table h.length :: stack)) ∧
      IsReply h h' reply := by
  obtain ⟨h₂, hs, hrest⟩ := returns_setStatus reply h
  unfold buildLuaResponse
  cases hheaders : reply.hasHeaders with
  | false => exact ⟨_, hrest _ _ (returns_setBody h.length reply.response.body h₂),
      hs.withBody hheaders⟩
  | true =>
    obtain ⟨h₄, hh, hset⟩ : ∃ h₄, HasHeaders h h₂ h₄ reply ∧
        Returns (setHeaders reply.response.headers)
          (on (h₂ ++ [[]]) (.table h₂.length :: .table h.length :: stack)) ()
          (on h₄ (.table (h.length + 1) :: .table h.length :: stack)) := hs.returns_setHeaders
    have hfield : Returns (luaSetField (-2) "headers")
        (on h₄ (.table (h.length + 1) :: .table h.length :: stack)) () _ :=
      returns_setField h.length "headers" _ (by decide)
    exact ⟨_, hrest _ _ (Returns.bind rfl (hset.bind (hfield.bind
      (returns_setBody h.length reply.response.body _)))), hh.withBody hs hheaders⟩

end Response

-- ---------------------------------------------------------------------------
-- The results
-- ---------------------------------------------------------------------------

/-- The state of Lua after a call, with the last result first. -/
def IsAnswer (h : Heap) : Except Exception Reply → LuaState → Prop
  | .ok reply, L => ∃ h', L = on h' [.nil, .table h.length] ∧ IsReply h h' reply
  | .error e, L => L = on h [.string (cString e.what), .nil]

theorem returns_finish_answer (answer : Except Exception Reply) (h : Heap) :
    ∃ L, Returns (finish answer) (on h []) () L ∧ IsAnswer h answer L := by
  cases answer with
  | ok reply =>
    obtain ⟨h', hbuilt, hreply⟩ := returns_buildLuaResponse reply h
    exact ⟨_, hbuilt.bind rfl, h', rfl, hreply⟩
  | error e => exact ⟨_, rfl, rfl⟩

section

variable {fuel limit : Nat} {send : Request → Except Exception Reply} {sent : List Request}
  {request : Request}

theorem returns_execute
    (hprepare : Returns (prepare H J fuel numberText) (on h stack) request (on h [])) :
    ∃ L, Returns (execute H J fuel numberText send) (on h stack, sent) ()
      (L, sent ++ [request]) ∧ IsAnswer h (send request) L := by
  obtain ⟨L, hfinish, hanswer⟩ := returns_finish_answer (send request) h
  have hsent : Returns (modify fun sent => sent ++ [request] : Code Thrown (List Request) Unit)
      sent () (sent ++ [request]) := rfl
  exact ⟨L, (hprepare.onPrivate sent).bind ((hsent.onShared _).bind (hfinish.onPrivate _)),
    hanswer⟩

end

end LambdaExecutor.Http.ClientMethod
