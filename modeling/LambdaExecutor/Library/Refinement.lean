import LambdaExecutor.Library.Steps

/-!
# Operations that take effect in a run

A step of a system may let one operation on an abstract object take effect. When
every step does to the object what its operation says (`Refines`), the operations
of a run, taken one after another, lead to the object that the run has reached.
-/

namespace Refinement

open Steps

variable {σ τ α ω : Type*} {step : σ → α → Option σ} {effect : σ → α → Option ω}

/-- The operations that take effect in a run, in their order. -/
def effects (step : σ → α → Option σ) (effect : σ → α → Option ω) : σ → List α → List ω
  | _, [] => []
  | s, a :: as =>
    match step s a with
    | none => []
    | some next => (effect s a).toList ++ effects step effect next as

theorem effects_cons {s next : σ} {a : α} (h : step s a = some next) (as : List α) :
    effects step effect s (a :: as) = (effect s a).toList ++ effects step effect next as := by
  simp only [effects, h]

theorem effects_append {s middle : σ} {first : List α} (hr : run step s first = some middle)
    (second : List α) : effects step effect s (first ++ second) =
      effects step effect s first ++ effects step effect middle second := by
  induction first generalizing s with
  | nil =>
    cases hr
    rfl
  | cons a as ih =>
    obtain ⟨next, hstep, hrest⟩ := run_cons_some.mp hr
    rw [List.cons_append, effects_cons hstep, effects_cons hstep, ih hrest, List.append_assoc]

/-- What every step preserves, given what has taken effect so far, holds of a run. -/
theorem effects_invariant (inv : σ → List ω → Prop)
    (hstep : ∀ s done a next, inv s done → step s a = some next →
      inv next (done ++ (effect s a).toList))
    {s final : σ} {as : List α} (hs : inv s []) (hr : run step s as = some final) :
    inv final (effects step effect s as) := by
  suffices h : ∀ done s, inv s done → run step s as = some final →
      inv final (done ++ effects step effect s as) from h [] s hs hr
  clear hs hr s
  induction as with
  | nil =>
    intro done s hs hr
    cases hr
    simpa [effects] using hs
  | cons a as ih =>
    intro done s hs hr
    obtain ⟨next, hnext, hrest⟩ := run_cons_some.mp hr
    rw [effects_cons hnext, ← List.append_assoc]
    exact ih _ next (hstep s done a next hs hnext) hrest

/-- Where `inv` holds, a step does to the object `abs` what its operation says. -/
structure Refines (step : σ → α → Option σ) (effect : σ → α → Option ω)
    (apply : τ → ω → Option τ) (abs : σ → τ) (inv : σ → Prop) : Prop where
  keeps : ∀ s a next, inv s → step s a = some next → inv next
  silent : ∀ s a next, inv s → step s a = some next → effect s a = none → abs next = abs s
  applies : ∀ s a next o, inv s → step s a = some next → effect s a = some o →
    apply (abs s) o = some (abs next)

/-- The operations of a run, one after another, lead to the object that it has reached. -/
theorem Refines.run_effects {apply : τ → ω → Option τ} {abs : σ → τ} {inv : σ → Prop}
    (h : Refines step effect apply abs inv) {s final : σ} {as : List α} (hs : inv s)
    (hr : run step s as = some final) :
    run apply (abs s) (effects step effect s as) = some (abs final) := by
  induction as generalizing s with
  | nil =>
    cases hr
    rfl
  | cons a as ih =>
    obtain ⟨next, hnext, hrest⟩ := run_cons_some.mp hr
    have htail := ih (h.keeps s a next hs hnext) hrest
    rw [effects_cons hnext, run_append]
    cases heffect : effect s a with
    | none => simpa [run, h.silent s a next hs hnext heffect] using htail
    | some o => simpa [run, h.applies s a next o hs hnext heffect] using htail

end Refinement
