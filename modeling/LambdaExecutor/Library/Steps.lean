import Mathlib.Data.List.Basic

/-!
# Runs of a partial step function

A system is a partial function `step : σ → α → Option σ`; a label which is not
enabled gives `none`. `run` takes a list of labels, so a theorem about every
list is about every reachable state and every order of steps. Invariants are
proved for one step and carried over runs here, also when only the runs whose
steps meet a condition are of interest (`Along`).
-/

namespace Steps

variable {σ τ α : Type*} {step : σ → α → Option σ}

def run (step : σ → α → Option σ) : σ → List α → Option σ
  | s, [] => some s
  | s, a :: as => (step s a).bind fun next => run step next as

@[simp] theorem run_cons (s : σ) (a : α) (as : List α) :
    run step s (a :: as) = (step s a).bind fun next => run step next as := rfl

theorem run_cons_some {s final : σ} {a : α} {as : List α} :
    run step s (a :: as) = some final ↔
      ∃ next, step s a = some next ∧ run step next as = some final := by
  simp [Option.bind_eq_some_iff]

theorem run_append (s : σ) (first second : List α) :
    run step s (first ++ second) =
      (run step s first).bind fun middle => run step middle second := by
  induction first generalizing s with
  | nil => rfl
  | cons a as ih =>
    cases h : step s a with
    | none => simp [h]
    | some next => simpa [h] using ih next

theorem run_append_some {s final : σ} {first second : List α} :
    run step s (first ++ second) = some final ↔
      ∃ middle, run step s first = some middle ∧ run step middle second = some final := by
  simp [run_append, Option.bind_eq_some_iff]

/-- Every label of the list is taken in a state which meets `ok`. -/
def Along (step : σ → α → Option σ) (ok : σ → α → Prop) : σ → List α → Prop
  | _, [] => True
  | s, a :: as => ok s a ∧ ∀ next, step s a = some next → Along step ok next as

theorem Along.append {ok : σ → α → Prop} {s middle : σ} {first second : List α}
    (h : Along step ok s (first ++ second)) (hr : run step s first = some middle) :
    Along step ok s first ∧ Along step ok middle second := by
  induction first generalizing s with
  | nil =>
    cases hr
    exact ⟨trivial, h⟩
  | cons a as ih =>
    obtain ⟨next, hstep, hrest⟩ := run_cons_some.mp hr
    refine ⟨⟨h.1, fun other hother => ?_⟩, (ih (h.2 next hstep) hrest).2⟩
    cases hstep.symm.trans hother
    exact (ih (h.2 next hstep) hrest).1

theorem Along.and_labels {ok : σ → α → Prop} {P : α → Prop} {s : σ} {as : List α}
    (h : Along step ok s as) (hP : ∀ a ∈ as, P a) :
    Along step (fun s a => ok s a ∧ P a) s as := by
  induction as generalizing s with
  | nil => trivial
  | cons a as ih =>
    obtain ⟨hfirst, hrest⟩ := List.forall_mem_cons.mp hP
    exact ⟨⟨h.1, hfirst⟩, fun next hstep => ih (h.2 next hstep) hrest⟩

theorem along_cons_of_none {ok : σ → α → Prop} {s : σ} {a : α} {as : List α}
    (h : step s a = none) : Along step ok s (a :: as) ↔ ok s a :=
  ⟨fun hok => hok.1, fun hok => ⟨hok, fun next hn => by rw [h] at hn; cases hn⟩⟩

theorem along_cons_of_some {ok : σ → α → Prop} {s next : σ} {a : α} {as : List α}
    (h : step s a = some next) :
    Along step ok s (a :: as) ↔ ok s a ∧ Along step ok next as :=
  ⟨fun hok => ⟨hok.1, hok.2 next h⟩, fun hok => ⟨hok.1, fun other hn => by
    cases h.symm.trans hn
    exact hok.2⟩⟩

instance Along.decidable {ok : σ → α → Prop} [∀ s a, Decidable (ok s a)] :
    ∀ s as, Decidable (Along step ok s as)
  | _, [] => isTrue trivial
  | s, a :: as =>
    match h : step s a with
    | none => decidable_of_iff (ok s a) (along_cons_of_none h).symm
    | some next =>
      have : Decidable (Along step ok next as) := Along.decidable next as
      decidable_of_iff (ok s a ∧ Along step ok next as) (along_cons_of_some h).symm

theorem along_of_run {ok : σ → α → Prop} {s final : σ} {as : List α}
    (hr : run step s as = some final)
    (h : ∀ before a after mid next, as = before ++ a :: after → run step s before = some mid →
      step mid a = some next → ok mid a) : Along step ok s as := by
  induction as generalizing s with
  | nil => trivial
  | cons a as ih =>
    obtain ⟨next, hstep, hrest⟩ := run_cons_some.mp hr
    refine ⟨h [] a as s next rfl rfl hstep, fun other hother => ?_⟩
    obtain rfl := Option.some.inj (hstep.symm.trans hother)
    refine ih hrest fun before b after mid later hsplit hbefore => ?_
    exact h (a :: before) b after mid later (by rw [hsplit]; rfl) (by simp [hstep, hbefore])

/-- What a step that meets `ok` preserves, a run whose steps meet `ok` preserves. -/
theorem run_invariant_along {ok : σ → α → Prop} (inv : σ → Prop)
    (hstep : ∀ s a next, inv s → ok s a → step s a = some next → inv next)
    {s final : σ} {as : List α} (hs : inv s) (hok : Along step ok s as)
    (hr : run step s as = some final) : inv final := by
  induction as generalizing s with
  | nil =>
    cases hr
    exact hs
  | cons a as ih =>
    obtain ⟨next, hnext, hrest⟩ := run_cons_some.mp hr
    exact ih (hstep s a next hs hok.1 hnext) (hok.2 next hnext) hrest

theorem along_true (s : σ) (as : List α) : Along step (fun _ _ => True) s as := by
  induction as generalizing s with
  | nil => trivial
  | cons a as ih => exact ⟨trivial, fun next _ => ih next⟩

theorem run_invariant (inv : σ → Prop)
    (hstep : ∀ s a next, inv s → step s a = some next → inv next)
    {s final : σ} {as : List α} (hs : inv s) (hr : run step s as = some final) : inv final :=
  run_invariant_along inv (fun s a next h _ hn => hstep s a next h hn) hs (along_true s as) hr

theorem length_add_le_of_decreases {P : α → Prop} (left : σ → Nat)
    (hstep : ∀ s a next, P a → step s a = some next → left next < left s)
    {s final : σ} {as : List α} (hP : ∀ a ∈ as, P a) (hr : run step s as = some final) :
    as.length + left final ≤ left s := by
  induction as generalizing s with
  | nil =>
    cases hr
    exact Nat.le_of_eq (Nat.zero_add _)
  | cons a as ih =>
    obtain ⟨ha, hrest⟩ := List.forall_mem_cons.mp hP
    obtain ⟨next, hnext, hr⟩ := run_cons_some.mp hr
    have hless := hstep s a next ha hnext
    have hle := ih hrest hr
    rw [List.length_cons]
    omega

theorem exists_step_of_run {P : σ → Prop} {s final : σ} {as : List α} (hs : ¬ P s)
    (hr : run step s as = some final) (hf : P final) :
    ∃ before a after mid next, as = before ++ a :: after ∧ run step s before = some mid ∧
      step mid a = some next ∧ ¬ P mid ∧ P next := by
  induction as generalizing s with
  | nil =>
    cases hr
    exact absurd hf hs
  | cons a as ih =>
    obtain ⟨next, hnext, hrest⟩ := run_cons_some.mp hr
    by_cases hp : P next
    · exact ⟨[], a, as, s, next, rfl, rfl, hnext, hs, hp⟩
    · obtain ⟨before, b, after, mid, later, rfl, hbefore, hstep, hmid⟩ := ih hp hrest
      exact ⟨a :: before, b, after, mid, later, rfl, by simp [hnext, hbefore], hstep, hmid⟩

end Steps
