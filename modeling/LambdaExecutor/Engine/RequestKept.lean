import LambdaExecutor.Engine.FailedRun

/-!
# Whether executing consumes the request

The values of headers and query parameters are moved out of the native request,
and nothing puts them back. So an execution leaves the request as it was, and shows
the next script the same table, exactly when there was no value to move.
-/

namespace LambdaExecutor.Http

/-- Every header value and every query value is the empty string. -/
def Request.NothingToMove (request : Request) : Prop :=
  (∀ entry ∈ request.headers, entry.2 = "") ∧ ∀ entry ∈ request.query, entry.2 = ""

instance (request : Request) : Decidable request.NothingToMove :=
  inferInstanceAs (Decidable (_ ∧ _))

theorem movedFrom_eq_self {entries : List (String × String)} :
    movedFrom entries = entries ↔ ∀ entry ∈ entries, entry.2 = "" := by
  induction entries with
  | nil => simp [movedFrom]
  | cons entry entries ih =>
    obtain ⟨name, value⟩ := entry
    simp only [movedFrom, List.map_cons, List.cons.injEq, Prod.mk.injEq, true_and,
      List.forall_mem_cons]
    exact and_congr eq_comm ih

theorem Request.consumed_eq_self {request : Request} :
    request.consumed = request ↔ request.NothingToMove := by
  obtain ⟨⟨headers, body⟩, method, url, query⟩ := request
  simp [Request.consumed, Request.NothingToMove, movedFrom_eq_self]

end LambdaExecutor.Http

namespace LambdaExecutor.Engine

open Lua Raii Raii.Code

variable {T : ThirdParty} {x : Invocation} {s : Session}

/-- What scripts are shown of the request, and what is left of it. -/
def Session.requests (s : Session) : Http.Request × List LuaObject := (s.context.request, s.shown)

theorem leaves_destroyContext :
    Leaves Session.requests (zoom Session.exchange Session.assign (destroyContext T)) :=
  leaves_zoom _ fun _ _ => rfl

theorem leaves_popGlobals : Leaves Session.requests (x.primitives T).popGlobals :=
  (leaves_read _).bind fun _ => (leaves_ofExcept _).bind fun _ => leaves_modify fun _ => rfl

theorem leaves_pcall (scriptEnd : ScriptEnd) :
    Leaves Session.requests (scriptEnd.pcall : Code Exception Session LuaStatus) := by
  cases scriptEnd <;> exact fun _ => rfl

theorem leaves_runScript : Leaves Session.requests (runScript (x.primitives T)) := by
  refine (leaves_pure ()).bind fun _ => (leaves_pcall x.scriptEnd).bind fun res => ?_
  split
  · refine (leaves_pure _).bind fun message => ?_
    split
    · exact (leaves_raise _).bind fun _ => leaves_raise _
    · exact leaves_raise _
  · exact leaves_pure _

def Invocation.guarded (T : ThirdParty) (x : Invocation) : Code Exception Session Unit :=
  leave (fun _ => (x.primitives T).destroyLuaEnv)
    (leave (fun _ => (x.primitives T).destroyContext)
      (leave (fun uncaught => if uncaught then pure () else (x.primitives T).popGlobals)
        (runScript (x.primitives T))))

theorem execute_eq (hupload : x.upload = .ok ()) :
    execute (x.primitives T) s = x.guarded T (x.entered s) := by
  rw [← entered_eq]
  obtain ⟨ndebug, deps, upload, scriptEnd, heap, global⟩ := x
  obtain rfl : upload = .ok () := hupload
  unfold execute scope
  simp only [Invocation.primitives, leave_pure]
  rfl

theorem leaves_guarded : Leaves Session.requests (x.guarded T) := by
  refine Leaves.leave (.leave (leaves_runScript.leave fun uncaught => ?_)
    fun _ => leaves_destroyContext) fun _ => leaves_modify fun _ => rfl
  cases uncaught
  · exact leaves_popGlobals
  · exact leaves_pure ()

theorem execute_entered (hupload : x.upload = .ok ()) :
    (execute (x.primitives T) s).state.requests = (x.entered s).requests := by
  rw [execute_eq hupload]
  exact leaves_guarded (x.entered s)

theorem execute_not_uploaded {e : Exception} (hupload : x.upload = .error e) :
    execute (x.primitives T) s = .threw e s := by
  obtain ⟨ndebug, deps, upload, scriptEnd, heap, global⟩ := x
  obtain rfl : upload = .error e := hupload
  rfl

-- ---------------------------------------------------------------------------
-- One execution after another
-- ---------------------------------------------------------------------------

/-- The request is what it was, and it is what every script has been shown. -/
def Session.Keeps (request : Http.Request) (s : Session) : Prop :=
  s.context.request = request ∧ ∀ table ∈ s.shown, table = populateLuaRequestFrom request

theorem executeAll_not_uploaded {e : Exception} (hupload : x.upload = .error e)
    (xs : List Invocation) : executeAll T (x :: xs) s = executeAll T xs s := by
  simp [executeAll, execute_not_uploaded hupload, Result.state]

theorem executeAll_cases (x : Invocation) (xs : List Invocation) (s : Session) :
    executeAll T (x :: xs) s = (execute (x.primitives T) s).state ∨
      executeAll T (x :: xs) s = executeAll T xs (execute (x.primitives T) s).state := by
  simp only [executeAll]
  cases execute (x.primitives T) s with
  | done a s => exact .inr rfl
  | threw e s => exact .inr rfl
  | terminated s => exact .inl rfl

theorem keeps_execute {request : Http.Request} (hnothing : request.NothingToMove)
    (h : s.Keeps request) : (execute (x.primitives T) s).state.Keeps request := by
  cases hupload : x.upload with
  | error e =>
    rw [execute_not_uploaded hupload]
    exact h
  | ok _ =>
    obtain ⟨hrequest, hshown⟩ := Prod.mk.inj (execute_entered (T := T) (s := s) hupload)
    obtain ⟨rfl, htables⟩ := h
    refine ⟨hrequest.trans (Http.Request.consumed_eq_self.mpr hnothing), ?_⟩
    rw [hshown]
    intro table hmem
    rcases List.mem_append.mp hmem with hold | hnew
    · exact htables table hold
    · exact List.mem_singleton.mp hnew

theorem keeps_executeAll {request : Http.Request} (hnothing : request.NothingToMove)
    (xs : List Invocation) (h : s.Keeps request) : (executeAll T xs s).Keeps request := by
  induction xs generalizing s with
  | nil => exact h
  | cons x xs ih =>
    have hnext : (execute (x.primitives T) s).state.Keeps request := keeps_execute hnothing h
    rcases executeAll_cases (T := T) x xs s with hlast | hrest
    · rw [hlast]
      exact hnext
    · rw [hrest]
      exact ih hnext

theorem executeAll_none_uploaded {xs : List Invocation} (h : ∀ x ∈ xs, x.upload ≠ .ok ()) :
    executeAll T xs s = s := by
  induction xs generalizing s with
  | nil => rfl
  | cons x xs ih =>
    obtain ⟨hx, hxs⟩ := List.forall_mem_cons.mp h
    cases hupload : x.upload with
    | error e => rw [executeAll_not_uploaded hupload, ih hxs]
    | ok _ => exact absurd hupload hx

theorem nothingToMove_of_kept {xs : List Invocation}
    (h : ∀ n, (executeAll T (xs.take n) s).context.request = s.context.request) :
    s.context.request.NothingToMove ∨ ∀ x ∈ xs, x.upload ≠ .ok () := by
  induction xs with
  | nil => exact .inr (List.forall_mem_nil _)
  | cons x xs ih =>
    cases hupload : x.upload with
    | error e =>
      rcases ih fun n => by simpa [executeAll_not_uploaded hupload] using h (n + 1) with hr | hxs
      · exact .inl hr
      · exact .inr (List.forall_mem_cons.mpr ⟨by simp [hupload], hxs⟩)
    | ok _ =>
      have hfirst : (executeAll T [x] s).context.request = s.context.request := h 1
      have hstate : executeAll T [x] s = (execute (x.primitives T) s).state := by
        rcases executeAll_cases (T := T) x [] s with heq | heq <;> exact heq
      have hconsumed := (Prod.mk.inj (execute_entered (T := T) (s := s) hupload)).1
      rw [hstate] at hfirst
      exact .inl (Http.Request.consumed_eq_self.mp (hconsumed.symm.trans hfirst))

/-- Every number of executions of the sequence keeps the request exactly when
there is nothing to move or nothing is executed. -/
theorem request_kept_iff (T : ThirdParty) (context : ExecutionContext) (xs : List Invocation) :
    (∀ n, (executeAll T (xs.take n) (.start context)).Keeps context.request) ↔
      context.request.NothingToMove ∨ ∀ x ∈ xs, x.upload ≠ .ok () := by
  have hstart : (Session.start context).Keeps context.request := ⟨rfl, List.forall_mem_nil _⟩
  constructor
  · intro h
    exact nothingToMove_of_kept (s := .start context) fun n => (h n).1
  · rintro (hnothing | hxs) n
    · exact keeps_executeAll hnothing _ hstart
    · rw [executeAll_none_uploaded fun x hx => hxs x (List.mem_of_mem_take hx)]
      exact hstart

def answers : Invocation := { timedOut with scriptEnd := .ok }

def incoming : ExecutionContext where
  request := { Http.Request.default with
    headers := [("X-My-Header", "value")], query := [("key", "value")] }
  response := .default

theorem second_run_sees_no_values :
    ((executeAll (withHeaderMaps 32768) [answers] (.start incoming)).context.request =
      { incoming.request with headers := [("X-My-Header", "")], query := [("key", "")] }) ∧
    (executeAll (withHeaderMaps 32768) [answers, answers] (.start incoming)).shown =
      [populateLuaRequestFrom incoming.request,
        populateLuaRequestFrom incoming.request.consumed] ∧
    ¬ ∀ n, (executeAll (withHeaderMaps 32768) ([answers, answers].take n)
      (.start incoming)).Keeps incoming.request := by
  have hfirst : (executeAll (withHeaderMaps 32768) [answers] (.start incoming)).context.request =
      { incoming.request with headers := [("X-My-Header", "")], query := [("key", "")] } := by
    decide +kernel
  refine ⟨hfirst, ?_, fun h => ?_⟩
  · rfl
  · have hkept := (h 1).1
    rw [List.take_succ_cons, List.take_zero, hfirst] at hkept
    exact absurd hkept (by decide)

end LambdaExecutor.Engine
