import LambdaExecutor.Exceptions
import LambdaExecutor.Library.CountHook

/-!
# The timeout of a script

`AttachTimeoutChecker` makes `Check` the count hook of the Lua state, and
`Execute` starts the checker right before `lua_pcall`. Times are in nanoseconds,
as `steady_clock` counts them; a timeout is given in milliseconds.
-/

namespace LambdaExecutor.Engine

open Steps CountHook

structure TimeoutChecker where
  timeout : Nat
  deadline : Nat
  deriving DecidableEq, Repr

/-- `TimeoutCheckersFactory::CreateChecker`. The epoch is the default deadline. -/
def TimeoutChecker.create (timeout : Nat) : TimeoutChecker := { timeout, deadline := 0 }

def TimeoutChecker.start (checker : TimeoutChecker) (now : Nat) : TimeoutChecker :=
  { checker with deadline := now + checker.timeout * 1000000 }

def TimeoutChecker.isExpired (checker : TimeoutChecker) (now : Nat) : Bool :=
  decide (checker.deadline < now)

def kInstructionsBeforeHoock : Nat := 100

def check (checker : TimeoutChecker) (now : Nat) : Except Exception Unit :=
  if checker.isExpired now then .error (.executionTimeout "Execution timeout is expired")
  else .ok ()

def stepUnderTimeout (timeout startedAt : Nat) :
    State Exception → Label → Option (State Exception) :=
  CountHook.step kInstructionsBeforeHoock (check ((TimeoutChecker.create timeout).start startedAt))

def underTimeout (startedAt : Nat) : State Exception :=
  State.start kInstructionsBeforeHoock startedAt

theorem counting_underTimeout (startedAt : Nat) :
    (underTimeout startedAt).Counting kInstructionsBeforeHoock := by
  intro count hmem
  obtain rfl := List.mem_singleton.mp hmem
  decide

theorem check_error {timeout startedAt now : Nat} {e : Exception}
    (h : check ((TimeoutChecker.create timeout).start startedAt) now = .error e) :
    e = .executionTimeout "Execution timeout is expired" ∧
      startedAt + timeout * 1000000 < now := by
  simp only [check] at h
  split at h
  · next hexpired =>
    exact ⟨(Except.error.inj h).symm, of_decide_eq_true hexpired⟩
  · cases h

theorem check_of_lt {timeout startedAt now : Nat} (h : startedAt + timeout * 1000000 < now) :
    ∃ e, check ((TimeoutChecker.create timeout).start startedAt) now = .error e := by
  refine ⟨.executionTimeout "Execution timeout is expired", ?_⟩
  simp [check, TimeoutChecker.isExpired, TimeoutChecker.start, TimeoutChecker.create, h]

/-- The hook throws nothing but the timeout, and not before it has passed. As long as the script
leaves the hook on its threads, the hook throws within a hundred instructions of any thread once
the timeout has passed. What is outside of this goes on however long it takes: code in which Lua
does not call the hook, namely finalizers and what `lua_close` runs after the exception, and
threads which have lost the hook to `debug.sethook`. -/
theorem timeout_enforced (timeout startedAt : Nat) {before after : List Label}
    {mid final : State Exception}
    (hbefore : run (stepUnderTimeout timeout startedAt) (underTimeout startedAt) before = some mid)
    (hafter : run (stepUnderTimeout timeout startedAt) mid after = some final) :
    (∀ e, final.thrown = some e → e = .executionTimeout "Execution timeout is expired" ∧
      startedAt + timeout * 1000000 < final.now) ∧
    (mid.thrown = none → startedAt + timeout * 1000000 < mid.now →
      (∀ thread, .setHook thread ∉ before ++ after) → (∀ thread, .unhooked thread ∉ after) →
      ∀ thread, after.count (.instruction thread) ≤ 100 ∧
        (final.thrown = none → after.count (.instruction thread) < 100)) ∧
    (∀ thread < mid.left.length, ∀ labels : List Label,
      (∀ label ∈ labels, label = .unhooked thread ∨ ∃ duration, label = .wait duration) →
      ∃ later, run (stepUnderTimeout timeout startedAt) mid labels = some later ∧
        later.thrown = mid.thrown) ∧
    (∀ thread < mid.left.length, thread ∈ mid.bare → mid.thrown = none → ∀ labels : List Label,
      (∀ label ∈ labels, label = .instruction thread ∨ ∃ duration, label = .wait duration) →
      ∃ later, run (stepUnderTimeout timeout startedAt) mid labels = some later ∧
        later.thrown = none) := by
  have hcounting : mid.Counting kInstructionsBeforeHoock :=
    counting_run (by decide) (counting_underTimeout startedAt) hbefore
  refine ⟨fun e hthrown => ?_, fun hnone hexpired hkept hlabels thread => ?_,
    fun thread hthread labels hlabels => run_unhooked hthread hlabels,
    fun thread hthread hbare hnone labels hlabels => run_bare hthread hbare hnone hlabels⟩
  · have hrun := run_append_some.mpr ⟨mid, hbefore, hafter⟩
    obtain ⟨now, -, hle, herror⟩ := thrown_cases rfl hrun hthrown
    obtain ⟨rfl, hlt⟩ := check_error herror
    exact ⟨rfl, Nat.lt_of_lt_of_le hlt hle⟩
  · have hle := leftOf_le hcounting thread
    have hbare : mid.bare = [] :=
      bare_run rfl (fun other hmem => hkept other (List.mem_append_left _ hmem)) hbefore
    have hrun := count_le_leftOf (by decide) hcounting
      (fun now hnow => check_of_lt (Nat.lt_of_lt_of_le hexpired hnow)) hnone hbare
      (fun other hmem => hkept other (List.mem_append_right _ hmem)) hlabels hafter thread
    exact ⟨Nat.le_trans hrun.1 hle, fun hfinal => Nat.lt_of_lt_of_le (hrun.2 hfinal) hle⟩

/-- A second and a nanosecond go by, and an endless loop has a hundred instructions left. -/
theorem timeout_enforced_loop :
    ∃ mid final, run (stepUnderTimeout 1000 5) (underTimeout 5) [.wait 1000000001] = some mid ∧
      run (stepUnderTimeout 1000 5) mid (List.replicate 100 (.instruction 0)) = some final ∧
      final.thrown = some (.executionTimeout "Execution timeout is expired") ∧
      5 + 1000 * 1000000 < final.now ∧
      (List.replicate 100 (.instruction 0)).count (Label.instruction 0) ≤ 100 := by
  obtain ⟨mid, hbefore, hmid⟩ := Option.map_eq_some_iff.mp
    (show (run (stepUnderTimeout 1000 5) (underTimeout 5) [.wait 1000000001]).map
      (fun s => (s.now, s.left, s.thrown)) = some (1000000006, [100], none) by decide +kernel)
  obtain ⟨final, hrun, hfinal⟩ := Option.map_eq_some_iff.mp
    (show (run (stepUnderTimeout 1000 5) (underTimeout 5)
        ([.wait 1000000001] ++ List.replicate 100 (.instruction 0))).map
      (fun s => (s.now, s.thrown)) =
        some (1000000006, some (.executionTimeout "Execution timeout is expired")) by
      decide +kernel)
  simp only [Prod.mk.injEq] at hmid hfinal
  obtain ⟨mid', hbefore', hafter⟩ := run_append_some.mp hrun
  obtain rfl := Option.some.inj (hbefore.symm.trans hbefore')
  obtain ⟨hthrown, hbound, -⟩ := timeout_enforced 1000 5 hbefore hafter
  refine ⟨mid, final, hbefore, hafter, hfinal.2, (hthrown _ hfinal.2).2,
    (hbound hmid.2.2 (by rw [hmid.1]; decide) (fun thread hmem => ?_) (fun thread hmem => ?_) 0).1⟩
  · rcases List.mem_append.mp hmem with hwait | hloop
    · cases List.mem_singleton.mp hwait
    · cases List.eq_of_mem_replicate hloop
  · cases List.eq_of_mem_replicate hmem

end LambdaExecutor.Engine
