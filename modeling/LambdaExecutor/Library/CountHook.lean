import LambdaExecutor.Library.Steps

/-!
# Hooks that count instructions

Every thread of an interpreter counts its instructions down from a period. When the
count is used up the hook is called before the instruction, and the count starts again;
a new thread inherits the hook of the thread that makes it and counts for itself. Time
passes between instructions. The hook may throw, and nothing catches it. There is code
which is counted like all other code but in which the hook is not called, such as
finalizers, and only such code runs after the exception. A program may also take the
hook off a thread, or put another in its place.
-/

namespace CountHook

open Steps

variable {ε : Type}

structure State (ε : Type) where
  now : Nat
  /-- What each thread has left to count. -/
  left : List Nat
  /-- The threads which have lost the hook. -/
  bare : List Nat
  thrown : Option ε

inductive Label
  | wait (duration : Nat)
  | newThread (creator : Nat)
  | setHook (thread : Nat)
  | instruction (thread : Nat)
  /-- An instruction of code in which the hook is not called. -/
  | unhooked (thread : Nat)
  deriving DecidableEq

def State.start (period now : Nat) : State ε :=
  { now, left := [period], bare := [], thrown := none }

/-- A thread which `creator` makes has the hook if the creator has it. -/
def State.inherit (s : State ε) (creator : Nat) : List Nat :=
  if creator ∈ s.bare then s.left.length :: s.bare else s.bare

section
variable (period : Nat) (hook : Nat → Except ε Unit)

def step (s : State ε) : Label → Option (State ε)
  | .wait duration => some { s with now := s.now + duration }
  | .newThread creator =>
    if s.thrown.isSome then none
    else some { s with left := s.left ++ [period], bare := s.inherit creator }
  | .setHook thread => some { s with bare := thread :: s.bare }
  | .instruction thread =>
    match s.thrown, s.left[thread]? with
    | none, some count =>
      if thread ∈ s.bare then some s
      else if count ≤ 1 then
        match hook s.now with
        | .ok () => some { s with left := s.left.set thread period }
        | .error e => some { s with left := s.left.set thread period, thrown := some e }
      else some { s with left := s.left.set thread (count - 1) }
    | _, _ => none
  | .unhooked thread =>
    (s.left[thread]?).map fun count =>
      { s with left := s.left.set thread (if count ≤ 1 then period else count - 1) }

end

/-- What a thread may count, also one that is still to be made. -/
def State.leftOf (period : Nat) (s : State ε) (thread : Nat) : Nat :=
  (s.left[thread]?).getD period

def State.Counting (period : Nat) (s : State ε) : Prop :=
  ∀ count ∈ s.left, 1 ≤ count ∧ count ≤ period

variable {period : Nat} {hook : Nat → Except ε Unit} {s next final : State ε} {labels : List Label}

-- ---------------------------------------------------------------------------
-- One step
-- ---------------------------------------------------------------------------

theorem step_instruction {thread : Nat} (h : step period hook s (.instruction thread) = some next) :
    s.thrown = none ∧ ∃ count, s.left[thread]? = some count ∧
      ((thread ∈ s.bare ∧ next = s) ∨
       (1 < count ∧ next = { s with left := s.left.set thread (count - 1) }) ∨
       (count ≤ 1 ∧ hook s.now = .ok () ∧ next = { s with left := s.left.set thread period }) ∨
       ∃ e, count ≤ 1 ∧ hook s.now = .error e ∧
         next = { s with left := s.left.set thread period, thrown := some e }) := by
  simp only [step] at h
  split at h
  · next count hthrown hcount =>
    refine ⟨hthrown, count, hcount, ?_⟩
    split at h
    · next hbare => exact .inl ⟨hbare, (Option.some.inj h).symm⟩
    split at h
    · next hle =>
      split at h
      · next hok => exact .inr (.inr (.inl ⟨hle, hok, (Option.some.inj h).symm⟩))
      · next e herror => exact .inr (.inr (.inr ⟨e, hle, herror, (Option.some.inj h).symm⟩))
    · next hlt => exact .inr (.inl ⟨Nat.lt_of_not_le hlt, (Option.some.inj h).symm⟩)
  · cases h

theorem step_newThread {creator : Nat} (h : step period hook s (.newThread creator) = some next) :
    s.thrown = none ∧
      next = { s with left := s.left ++ [period], bare := s.inherit creator } := by
  simp only [step] at h
  split at h
  · cases h
  · next hthrown => exact ⟨by simpa using hthrown, (Option.some.inj h).symm⟩

theorem step_unhooked {thread : Nat} (h : step period hook s (.unhooked thread) = some next) :
    ∃ count, s.left[thread]? = some count ∧
      next = { s with left := s.left.set thread (if count ≤ 1 then period else count - 1) } := by
  obtain ⟨count, hcount, rfl⟩ := Option.map_eq_some_iff.mp h
  exact ⟨count, hcount, rfl⟩

theorem now_le_step {label : Label} (h : step period hook s label = some next) :
    s.now ≤ next.now := by
  cases label with
  | wait duration =>
    obtain rfl := Option.some.inj h
    exact Nat.le_add_right _ _
  | newThread creator =>
    obtain ⟨-, rfl⟩ := step_newThread h
    exact Nat.le_refl _
  | setHook thread =>
    obtain rfl := Option.some.inj h
    exact Nat.le_refl _
  | instruction thread =>
    obtain ⟨-, count, -, ⟨-, rfl⟩ | ⟨-, rfl⟩ | ⟨-, -, rfl⟩ | ⟨e, -, -, rfl⟩⟩ :=
      step_instruction h <;> exact Nat.le_refl _
  | unhooked thread =>
    obtain ⟨count, -, rfl⟩ := step_unhooked h
    exact Nat.le_refl _

theorem counting_set {thread count : Nat} (h : s.Counting period) (hcount : 1 ≤ count)
    (hle : count ≤ period) (thrown : Option ε) :
    State.Counting period { s with left := s.left.set thread count, thrown } := by
  intro other hmem
  rcases List.mem_or_eq_of_mem_set hmem with hold | rfl
  · exact h other hold
  · exact ⟨hcount, hle⟩

theorem State.Counting.step {label : Label} (h : s.Counting period) (hperiod : 1 ≤ period)
    (hstep : step period hook s label = some next) : next.Counting period := by
  cases label with
  | wait duration =>
    obtain rfl := Option.some.inj hstep
    exact h
  | newThread creator =>
    obtain ⟨-, rfl⟩ := step_newThread hstep
    intro count hmem
    rcases List.mem_append.mp hmem with hold | hnew
    · exact h count hold
    · obtain rfl := List.mem_singleton.mp hnew
      exact ⟨hperiod, Nat.le_refl _⟩
  | setHook thread =>
    obtain rfl := Option.some.inj hstep
    exact h
  | instruction thread =>
    obtain ⟨-, count, hcount, ⟨-, rfl⟩ | ⟨hlt, rfl⟩ | ⟨-, -, rfl⟩ | ⟨e, -, -, rfl⟩⟩ :=
      step_instruction hstep
    · exact h
    · have hle := (h count (List.mem_of_getElem? hcount)).2
      exact counting_set h (by omega) (by omega) s.thrown
    · exact counting_set h hperiod (Nat.le_refl _) s.thrown
    · exact counting_set h hperiod (Nat.le_refl _) (some e)
  | unhooked thread =>
    obtain ⟨count, hcount, rfl⟩ := step_unhooked hstep
    have hle := (h count (List.mem_of_getElem? hcount)).2
    exact counting_set h (by split <;> omega) (by split <;> omega) s.thrown

-- ---------------------------------------------------------------------------
-- Runs
-- ---------------------------------------------------------------------------

theorem now_le_run (h : run (step period hook) s labels = some final) : s.now ≤ final.now :=
  run_invariant (fun t => s.now ≤ t.now)
    (fun _ _ _ hle hstep => Nat.le_trans hle (now_le_step hstep)) (Nat.le_refl _) h

theorem counting_run (hperiod : 1 ≤ period) (hs : s.Counting period)
    (h : run (step period hook) s labels = some final) : final.Counting period :=
  run_invariant (State.Counting period) (fun _ _ _ hcounting => hcounting.step hperiod) hs h

theorem bare_step {label : Label} (hs : s.bare = []) (hlabel : ∀ thread, label ≠ .setHook thread)
    (h : step period hook s label = some next) : next.bare = [] := by
  cases label with
  | wait duration =>
    obtain rfl := Option.some.inj h
    exact hs
  | newThread creator =>
    obtain ⟨-, rfl⟩ := step_newThread h
    simp [State.inherit, hs]
  | setHook thread => exact absurd rfl (hlabel thread)
  | instruction thread =>
    obtain ⟨-, count, -, ⟨-, rfl⟩ | ⟨-, rfl⟩ | ⟨-, -, rfl⟩ | ⟨e, -, -, rfl⟩⟩ :=
      step_instruction h <;> exact hs
  | unhooked thread =>
    obtain ⟨count, -, rfl⟩ := step_unhooked h
    exact hs

theorem bare_run (hs : s.bare = []) (hlabels : ∀ thread, .setHook thread ∉ labels)
    (h : run (step period hook) s labels = some final) : final.bare = [] := by
  induction labels generalizing s with
  | nil =>
    cases h
    exact hs
  | cons label labels ih =>
    obtain ⟨next, hstep, hrest⟩ := run_cons_some.mp h
    have hlabel : ∀ thread, label ≠ .setHook thread :=
      fun thread heq => hlabels thread (heq ▸ List.mem_cons_self)
    exact ih (bare_step hs hlabel hstep)
      (fun thread hmem => hlabels thread (List.mem_cons_of_mem _ hmem)) hrest

/-- Once the hook has thrown, only code runs in which it is not called. -/
theorem count_after_throw (hthrown : s.thrown.isSome)
    (h : run (step period hook) s labels = some final) (thread : Nat) :
    labels.count (.instruction thread) = 0 ∧ final.thrown.isSome := by
  induction labels generalizing s with
  | nil =>
    cases h
    exact ⟨rfl, hthrown⟩
  | cons label labels ih =>
    obtain ⟨next, hstep, hrest⟩ := run_cons_some.mp h
    cases label with
    | wait duration =>
      obtain rfl := Option.some.inj hstep
      have hlater := ih (s := { s with now := s.now + duration }) hthrown hrest
      simpa using hlater
    | newThread creator =>
      obtain ⟨hnone, -⟩ := step_newThread hstep
      simp [hnone] at hthrown
    | setHook other =>
      obtain rfl := Option.some.inj hstep
      have hlater := ih (s := { s with bare := other :: s.bare }) hthrown hrest
      simpa using hlater
    | instruction other =>
      obtain ⟨hnone, -⟩ := step_instruction hstep
      simp [hnone] at hthrown
    | unhooked other =>
      obtain ⟨count, -, rfl⟩ := step_unhooked hstep
      have hlater := ih (s := { s with
        left := s.left.set other (if count ≤ 1 then period else count - 1) }) hthrown hrest
      simpa using hlater

/-- Nothing ends code in which the hook is not called: however much time it takes, it may go on. -/
theorem run_unhooked {thread : Nat} (hthread : thread < s.left.length)
    (hlabels : ∀ label ∈ labels, label = .unhooked thread ∨ ∃ duration, label = .wait duration) :
    ∃ final, run (step period hook) s labels = some final ∧ final.thrown = s.thrown := by
  induction labels generalizing s with
  | nil => exact ⟨s, rfl, rfl⟩
  | cons label labels ih =>
    have hrest : ∀ label ∈ labels,
        label = .unhooked thread ∨ ∃ duration, label = .wait duration :=
      fun label hmem => hlabels label (List.mem_cons_of_mem _ hmem)
    rcases hlabels label List.mem_cons_self with rfl | ⟨duration, rfl⟩
    · have hcount : s.left[thread]? = some s.left[thread] := List.getElem?_eq_getElem hthread
      obtain ⟨final, hrun, hthrown⟩ := ih (s := { s with
        left := s.left.set thread (if s.left[thread] ≤ 1 then period else s.left[thread] - 1) })
        (by simpa using hthread) hrest
      exact ⟨final, run_cons_some.mpr ⟨_, by simp [step, hcount], hrun⟩, hthrown⟩
    · obtain ⟨final, hrun, hthrown⟩ := ih (s := { s with now := s.now + duration }) hthread hrest
      exact ⟨final, run_cons_some.mpr ⟨_, rfl, hrun⟩, hthrown⟩

theorem thrown_cases {e : ε} (hs : s.thrown = none)
    (h : run (step period hook) s labels = some final) (hthrown : final.thrown = some e) :
    ∃ now, s.now ≤ now ∧ now ≤ final.now ∧ hook now = .error e := by
  have hstart : ¬ s.thrown = some e := by simp [hs]
  obtain ⟨before, label, after, mid, next, rfl, hbefore, hstep, hmid, hnext⟩ :=
    exists_step_of_run (P := fun t => t.thrown = some e) hstart h hthrown
  obtain ⟨mid', hbefore', hrest⟩ := run_append_some.mp h
  obtain rfl := Option.some.inj (hbefore.symm.trans hbefore')
  refine ⟨mid.now, now_le_run hbefore, now_le_run hrest, ?_⟩
  cases label with
  | wait duration =>
    obtain rfl := Option.some.inj hstep
    exact absurd hnext hmid
  | newThread creator =>
    obtain ⟨-, rfl⟩ := step_newThread hstep
    exact absurd hnext hmid
  | setHook thread =>
    obtain rfl := Option.some.inj hstep
    exact absurd hnext hmid
  | unhooked thread =>
    obtain ⟨count, -, rfl⟩ := step_unhooked hstep
    exact absurd hnext hmid
  | instruction thread =>
    obtain ⟨-, count, -, ⟨-, rfl⟩ | ⟨-, rfl⟩ | ⟨-, -, rfl⟩ | ⟨e', -, herror, rfl⟩⟩ :=
      step_instruction hstep
    · exact absurd hnext hmid
    · exact absurd hnext hmid
    · exact absurd hnext hmid
    · rwa [← Option.some.inj hnext]

theorem leftOf_pos (hperiod : 1 ≤ period) (hs : s.Counting period) (thread : Nat) :
    1 ≤ s.leftOf period thread := by
  unfold State.leftOf
  cases hcount : s.left[thread]? with
  | none => exact hperiod
  | some count => exact (hs count (List.mem_of_getElem? hcount)).1

theorem leftOf_le (hs : s.Counting period) (thread : Nat) : s.leftOf period thread ≤ period := by
  unfold State.leftOf
  cases hcount : s.left[thread]? with
  | none => exact Nat.le_refl _
  | some count => exact (hs count (List.mem_of_getElem? hcount)).2

theorem leftOf_newThread (bare : List Nat) (thread : Nat) :
    State.leftOf period { s with left := s.left ++ [period], bare } thread =
      s.leftOf period thread := by
  unfold State.leftOf
  by_cases hthread : thread < s.left.length
  · rw [List.getElem?_append_left hthread]
  · have hnone : s.left[thread]? = none := List.getElem?_eq_none (Nat.le_of_not_lt hthread)
    rw [hnone, List.getElem?_append_right (Nat.le_of_not_lt hthread)]
    cases thread - s.left.length <;> rfl

theorem leftOf_countdown {thread count : Nat} (hcount : s.left[thread]? = some count)
    (thread' : Nat) :
    State.leftOf period { s with left := s.left.set thread (count - 1) } thread' =
      if thread = thread' then count - 1 else s.leftOf period thread' := by
  have hlength : thread < s.left.length := (List.getElem?_eq_some_iff.mp hcount).1
  by_cases hsame : thread = thread'
  · subst hsame
    simp [State.leftOf, List.getElem?_set_self hlength]
  · simp [State.leftOf, List.getElem?_set_ne hsame, hsame]

theorem run_bare {thread : Nat} (hthread : thread < s.left.length) (hbare : thread ∈ s.bare)
    (hnone : s.thrown = none)
    (hlabels : ∀ label ∈ labels, label = .instruction thread ∨ ∃ duration, label = .wait duration) :
    ∃ final, run (step period hook) s labels = some final ∧ final.thrown = none := by
  induction labels generalizing s with
  | nil => exact ⟨s, rfl, hnone⟩
  | cons label labels ih =>
    have hrest : ∀ label ∈ labels,
        label = .instruction thread ∨ ∃ duration, label = .wait duration :=
      fun label hmem => hlabels label (List.mem_cons_of_mem _ hmem)
    rcases hlabels label List.mem_cons_self with rfl | ⟨duration, rfl⟩
    · have hcount : s.left[thread]? = some s.left[thread] := List.getElem?_eq_getElem hthread
      obtain ⟨final, hrun, hthrown⟩ := ih hthread hbare hnone hrest
      exact ⟨final, run_cons_some.mpr ⟨s, by simp [step, hnone, hcount, hbare], hrun⟩, hthrown⟩
    · obtain ⟨final, hrun, hthrown⟩ := ih (s := { s with now := s.now + duration }) hthread hbare
        hnone hrest
      exact ⟨final, run_cons_some.mpr ⟨_, rfl, hrun⟩, hthrown⟩

/-- From when on the hook throws, every thread has at most its count of instructions left,
and fewer where the run goes on. -/
theorem count_le_leftOf (hperiod : 1 ≤ period) (hs : s.Counting period)
    (hhook : ∀ now, s.now ≤ now → ∃ e, hook now = .error e) (hnone : s.thrown = none)
    (hbare : s.bare = []) (hkept : ∀ thread, .setHook thread ∉ labels)
    (hlabels : ∀ thread, .unhooked thread ∉ labels)
    (h : run (step period hook) s labels = some final) (thread : Nat) :
    labels.count (.instruction thread) ≤ s.leftOf period thread ∧
      (final.thrown = none → labels.count (.instruction thread) < s.leftOf period thread) := by
  induction labels generalizing s with
  | nil =>
    have hpos := leftOf_pos hperiod hs thread
    exact ⟨Nat.zero_le _, fun _ => hpos⟩
  | cons label labels ih =>
    obtain ⟨next, hstep, hrest⟩ := run_cons_some.mp h
    have hnext := hs.step hperiod hstep
    have hlater : ∀ now, next.now ≤ now → ∃ e, hook now = .error e :=
      fun now hle => hhook now (Nat.le_trans (now_le_step hstep) hle)
    have hothers : ∀ thread, .unhooked thread ∉ labels :=
      fun thread hmem => hlabels thread (List.mem_cons_of_mem _ hmem)
    have hkept' : ∀ thread, .setHook thread ∉ labels :=
      fun thread hmem => hkept thread (List.mem_cons_of_mem _ hmem)
    have hbare' : next.bare = [] :=
      bare_step hbare (fun thread heq => hkept thread (heq ▸ List.mem_cons_self)) hstep
    cases label with
    | wait duration =>
      obtain rfl := Option.some.inj hstep
      have hrun := ih (s := { s with now := s.now + duration }) hnext hlater hnone hbare' hkept'
        hothers hrest
      rw [List.count_cons_of_ne (by simp)]
      exact hrun
    | newThread creator =>
      obtain ⟨-, rfl⟩ := step_newThread hstep
      have hrun := ih hnext hlater hnone hbare' hkept' hothers hrest
      rw [leftOf_newThread] at hrun
      rw [List.count_cons_of_ne (by simp)]
      exact hrun
    | setHook other => exact absurd List.mem_cons_self (hkept other)
    | unhooked other => exact absurd List.mem_cons_self (hlabels other)
    | instruction other =>
      obtain ⟨-, count, hcount, ⟨hmem, -⟩ | ⟨hlt, rfl⟩ | ⟨-, hok, rfl⟩ | ⟨e, hle, -, rfl⟩⟩ :=
        step_instruction hstep
      · rw [hbare] at hmem
        exact absurd hmem List.not_mem_nil
      · have hrun := ih (s := { s with left := s.left.set other (count - 1) }) hnext hlater hnone
          hbare' hkept' hothers hrest
        rw [leftOf_countdown hcount] at hrun
        by_cases hother : other = thread
        · subst hother
          have hold : s.leftOf period other = count := by simp [State.leftOf, hcount]
          rw [if_pos rfl] at hrun
          rw [hold, List.count_cons_self]
          exact ⟨by omega, fun hfinal => by have := hrun.2 hfinal; omega⟩
        · rw [if_neg hother] at hrun
          rw [List.count_cons_of_ne (by simpa using hother)]
          exact hrun
      · obtain ⟨e, herror⟩ := hhook s.now (Nat.le_refl _)
        cases hok.symm.trans herror
      · -- The hook throws, and this was the last instruction of all.
        obtain ⟨hzero, hthrown⟩ := count_after_throw (by rfl) hrest thread
        have hpos := leftOf_pos hperiod hs thread
        refine ⟨?_, fun hfinal => absurd hthrown (by simp [hfinal])⟩
        rw [List.count_cons, hzero]
        split <;> omega

end CountHook
