import LambdaExecutor.Library.Raii

/-!
# Code with a meter

`Metered level` is code next to the highest level that its state comes to, the first
and the last state included. `code` takes the meter off again, and commutes with
every combinator. Code fits a limit just if each of its parts does, so far as it runs.
-/

namespace Raii

structure Metered {σ : Type} (level : σ → Nat) (ε α : Type) where
  code : Code ε σ α
  highest : σ → Nat
  first_le : ∀ s, level s ≤ highest s
  last_le : ∀ s, level (code s).state ≤ highest s

namespace Metered

open Code

variable {ε σ α β : Type} {level : σ → Nat} {limit : Nat} {s s' : σ} {a : α} {e : ε}

def step (c : Code ε σ α) : Metered level ε α where
  code := c
  highest s := max (level s) (level (c s).state)
  first_le _ := Nat.le_max_left _ _
  last_le _ := Nat.le_max_right _ _

protected def bind (c : Metered level ε α) (f : α → Metered level ε β) : Metered level ε β where
  code := c.code >>= fun a => (f a).code
  highest s :=
    match c.code s with
    | .done a s' => max (c.highest s) ((f a).highest s')
    | _ => c.highest s
  first_le s := by
    have hfirst := c.first_le s
    cases c.code s with
    | done a s' => exact Nat.le_trans hfirst (Nat.le_max_left _ _)
    | threw e s' => exact hfirst
    | terminated s' => exact hfirst
  last_le s := by
    have hlast := c.last_le s
    show level (Code.bind c.code _ s).state ≤ _
    unfold Code.bind
    cases hc : c.code s with
    | done a s' => exact Nat.le_trans ((f a).last_le s') (Nat.le_max_right _ _)
    | threw e s' => rwa [hc] at hlast
    | terminated s' => rwa [hc] at hlast

instance : Monad (Metered level ε) where
  pure a := step (Pure.pure a)
  bind := Metered.bind

def tryCatch (body : Metered level ε α) (handler : ε → Metered level ε α) :
    Metered level ε α where
  code := Code.tryCatch body.code fun e => (handler e).code
  highest s :=
    match body.code s with
    | .threw e s' => max (body.highest s) ((handler e).highest s')
    | _ => body.highest s
  first_le s := by
    have hfirst := body.first_le s
    cases body.code s with
    | done a s' => exact hfirst
    | threw e s' => exact Nat.le_trans hfirst (Nat.le_max_left _ _)
    | terminated s' => exact hfirst
  last_le s := by
    have hlast := body.last_le s
    unfold Code.tryCatch
    cases hc : body.code s with
    | done a s' => rwa [hc] at hlast
    | threw e s' => exact Nat.le_trans ((handler e).last_le s') (Nat.le_max_right _ _)
    | terminated s' => rwa [hc] at hlast

theorem code_bind (c : Metered level ε α) (f : α → Metered level ε β) :
    (c >>= f).code = c.code >>= fun a => (f a).code := rfl

theorem code_tryCatch (body : Metered level ε α) (handler : ε → Metered level ε α) :
    (tryCatch body handler).code = Code.tryCatch body.code fun e => (handler e).code := rfl

theorem code_bind_eq {c : Metered level ε α} {f : α → Metered level ε β} {g : α → Code ε σ β}
    (h : ∀ a, (f a).code = g a) : (c >>= f).code = c.code >>= g :=
  congrArg (c.code >>= ·) (funext h)

/-- No state of the run is above the limit. -/
def Fits (limit : Nat) (c : Metered level ε α) (s : σ) : Prop := c.highest s ≤ limit

variable {c : Metered level ε α} {f : α → Metered level ε β} {handler : ε → Metered level ε α}

theorem Fits.first (h : Fits limit c s) : level s ≤ limit := Nat.le_trans (c.first_le s) h

theorem Fits.last (h : Fits limit c s) : level (c.code s).state ≤ limit :=
  Nat.le_trans (c.last_le s) h

theorem fits_step {c : Code ε σ α} :
    Fits limit (step c : Metered level ε α) s ↔ level s ≤ limit ∧ level (c s).state ≤ limit :=
  Nat.max_le

theorem fits_step_of_stays {c : Code ε σ α} (hc : (c s).state = s) :
    Fits limit (step c : Metered level ε α) s ↔ level s ≤ limit := by
  rw [fits_step, hc]
  exact and_self_iff

theorem fits_step_of_returns {c : Code ε σ α} (hc : Returns c s a s') :
    Fits limit (step c : Metered level ε α) s ↔ level s ≤ limit ∧ level s' ≤ limit := by
  rw [fits_step, hc]
  exact Iff.rfl

theorem fits_pure : Fits limit (Pure.pure a : Metered level ε α) s ↔ level s ≤ limit :=
  fits_step.trans and_self_iff

theorem fits_bind : Fits limit (c >>= f) s ↔
    Fits limit c s ∧ ∀ a s', Returns c.code s a s' → Fits limit (f a) s' := by
  show (match c.code s with
    | .done a s' => max (c.highest s) ((f a).highest s')
    | _ => c.highest s) ≤ limit ↔ _
  unfold Returns
  cases c.code s with
  | done a s' =>
    refine Nat.max_le.trans (and_congr_right fun _ => ⟨fun h a' t heq => ?_, fun h => h a s' rfl⟩)
    cases heq
    exact h
  | threw e s' => simp [Fits]
  | terminated s' => simp [Fits]

theorem fits_tryCatch : Fits limit (tryCatch c handler) s ↔
    Fits limit c s ∧ ∀ e s', Throws c.code s e s' → Fits limit (handler e) s' := by
  show (match c.code s with
    | .threw e s' => max (c.highest s) ((handler e).highest s')
    | _ => c.highest s) ≤ limit ↔ _
  unfold Throws
  cases c.code s with
  | done a s' => simp [Fits]
  | threw e s' =>
    refine Nat.max_le.trans (and_congr_right fun _ => ⟨fun h e' t heq => ?_, fun h => h e s' rfl⟩)
    cases heq
    exact h
  | terminated s' => simp [Fits]

theorem fits_bind_of_returns (hc : Returns c.code s a s') :
    Fits limit (c >>= f) s ↔ Fits limit c s ∧ Fits limit (f a) s' := by
  rw [fits_bind]
  refine and_congr_right fun _ => ⟨fun h => h a s' hc, fun h b s'' hc' => ?_⟩
  obtain ⟨rfl, rfl⟩ := (Result.done.injEq ..).mp (hc.symm.trans hc')
  exact h

end Metered

end Raii
