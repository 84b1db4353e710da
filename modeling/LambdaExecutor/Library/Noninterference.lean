import LambdaExecutor.Library.Raii

/-!
# Noninterference

Actions of many parties run one after another over a shared state. `view` is the
part of the state that belongs to one of the parties. When its own actions
answer by the view alone and the actions of the others leave the view as it is,
the others might as well not have run (`run_filter`), so two runs which differ
in the others only cannot be told apart (`noninterference`).

`Observes` and `LeavesView` are the two conditions for code which works on a
private state next to the shared one; `Separates` asks for the one that applies.
-/

namespace Noninterference

variable {σ ν α β : Type} (step : σ → α → β × σ)

def run : σ → List α → List (α × β) × σ
  | s, [] => ([], s)
  | s, a :: as => ((a, (step s a).1) :: (run (step s a).2 as).1, (run (step s a).2 as).2)

structure Unwinds (mine : α → Prop) (view : σ → ν) : Prop where
  others : ∀ s a, ¬ mine a → view (step s a).2 = view s
  own : ∀ s s' a, mine a → view s = view s' →
    (step s a).1 = (step s' a).1 ∧ view (step s a).2 = view (step s' a).2

variable {step} {mine : α → Prop} [DecidablePred mine] {view : σ → ν}

theorem run_filter (h : Unwinds step mine view) (s s' : σ) (as : List α) (hv : view s = view s') :
    (run step s as).1.filter (fun entry => mine entry.1) =
      (run step s' (as.filter fun a => mine a)).1 ∧
    view (run step s as).2 = view (run step s' (as.filter fun a => mine a)).2 := by
  induction as generalizing s s' with
  | nil => exact ⟨rfl, hv⟩
  | cons a as ih =>
    by_cases ha : mine a
    · obtain ⟨hanswer, hnext⟩ := h.own s s' a ha hv
      obtain ⟨hentries, hfinal⟩ := ih (step s a).2 (step s' a).2 hnext
      simp only [run, ha, decide_true, List.filter_cons_of_pos, hanswer]
      exact ⟨congrArg _ hentries, hfinal⟩
    · have hnext : view (step s a).2 = view s' := (h.others s a ha).trans hv
      simpa [run, ha] using ih (step s a).2 s' hnext

theorem noninterference (h : Unwinds step mine view) {s s' : σ} {as as' : List α}
    (hv : view s = view s')
    (has : as.filter (fun a => mine a) = as'.filter (fun a => mine a)) :
    (run step s as).1.filter (fun entry => mine entry.1) =
      (run step s' as').1.filter (fun entry => mine entry.1) ∧
    view (run step s as).2 = view (run step s' as').2 := by
  obtain ⟨hentries, hfinal⟩ := run_filter h s s as rfl
  obtain ⟨hentries', hfinal'⟩ := run_filter h s' s as' hv.symm
  rw [hentries, hfinal, hentries', hfinal', has]
  exact ⟨rfl, rfl⟩

end Noninterference

-- ---------------------------------------------------------------------------
-- Code over a private and a shared state
-- ---------------------------------------------------------------------------

namespace Raii

variable {ε ε' σ τ ν α β : Type}

namespace Code

def onPrivate (c : Code ε σ α) : Code ε (σ × τ) α := zoom Prod.fst (fun own s => (own, s.2)) c

def onShared (c : Code ε τ α) : Code ε (σ × τ) α := zoom Prod.snd (fun shared s => (s.1, shared)) c

/-- Run to the end of a `try` block and tell how it was left. -/
def attempt (c : Code ε σ α) : Code ε' σ (Except ε α) := fun s =>
  match c s with
  | .done a s => .done (.ok a) s
  | .threw e s => .done (.error e) s
  | .terminated s => .terminated s

/-- What the code does to the private state and to the view does not depend on more. -/
def Observes (view : τ → ν) (c : Code ε (σ × τ) α) : Prop := ∀ s t t', view t = view t' →
  (c (s, t)).mapState (Prod.map id view) = (c (s, t')).mapState (Prod.map id view)

def LeavesView (view : τ → ν) (c : Code ε (σ × τ) α) : Prop := Leaves (fun s => view s.2) c

/-- Code of a party observes the view when it is its own, and leaves it alone otherwise. -/
def Separates (mine : Prop) (view : τ → ν) (c : Code ε (σ × τ) α) : Prop :=
  (mine → Observes view c) ∧ (¬ mine → LeavesView view c)

variable {view : τ → ν} {mine : Prop}

theorem Observes.bind {c : Code ε (σ × τ) α} {f : α → Code ε (σ × τ) β} (hc : Observes view c)
    (hf : ∀ a, Observes view (f a)) : Observes view (c >>= f) := by
  intro s t t' ht
  show (c.bind f (s, t)).mapState _ = (c.bind f (s, t')).mapState _
  have h := hc s t t' ht
  unfold Code.bind
  cases hr : c (s, t) <;> cases hr' : c (s, t') <;>
    simp only [hr, hr', Result.mapState, reduceCtorEq, Result.done.injEq, Result.threw.injEq,
      Result.terminated.injEq, Prod.map, Prod.mk.injEq, id_eq] at h
  · next a u a' u' =>
    obtain ⟨rfl, hs, hview⟩ := h
    have hu : u' = (u.1, u'.2) := Prod.ext hs.symm rfl
    rw [hu]
    exact hf a u.1 u.2 u'.2 hview
  · simpa [Result.mapState, Prod.map] using h
  · simpa [Result.mapState, Prod.map] using h

theorem observes_pure (a : α) : Observes view (Pure.pure a : Code ε (σ × τ) α) := by
  intro s t t' ht
  show Result.done _ _ = Result.done _ _
  simp [Prod.map, ht]

theorem observes_onPrivate (c : Code ε σ α) : Observes view (onPrivate c : Code ε (σ × τ) α) := by
  intro s t t' ht
  unfold onPrivate zoom
  cases c s <;> simp [Result.mapState, Prod.map, ht]

theorem leavesView_onPrivate (c : Code ε σ α) :
    LeavesView view (onPrivate c : Code ε (σ × τ) α) := leaves_zoom c fun _ _ => rfl

theorem onPrivate_bind (c : Code ε σ α) (f : α → Code ε σ β) :
    (onPrivate (c >>= f) : Code ε (σ × τ) β) = onPrivate c >>= fun a => onPrivate (f a) := by
  funext s
  show onPrivate (Code.bind c f) s = Code.bind (onPrivate c) _ s
  unfold onPrivate zoom Code.bind
  cases hc : c s.1 <;> simp [hc, Result.mapState]

theorem Returns.onPrivate {c : Code ε σ α} {s s' : σ} {a : α} (h : Returns c s a s') (t : τ) :
    Returns (onPrivate c) (s, t) a (s', t) := by
  unfold Returns Code.onPrivate zoom
  rw [h]
  rfl

theorem Returns.onShared {c : Code ε τ α} {t t' : τ} {a : α} (h : Returns c t a t') (s : σ) :
    Returns (onShared c) (s, t) a (s, t') := by
  unfold Returns Code.onShared zoom
  rw [h]
  rfl

theorem Yields.onPrivate {c : Code ε σ α} {s : σ × τ} {Q : α → σ → Prop} (h : Yields c s.1 Q) :
    Yields (onPrivate c) s fun a s' => Q a s'.1 ∧ s'.2 = s.2 := by
  intro a s' hdone
  unfold Code.onPrivate zoom at hdone
  cases hr : c s.1 with
  | done b u =>
    simp only [hr, Result.mapState, Result.done.injEq] at hdone
    obtain ⟨rfl, rfl⟩ := hdone
    exact ⟨h b u hr, rfl⟩
  | threw e u => simp [hr, Result.mapState] at hdone
  | terminated u => simp [hr, Result.mapState] at hdone

theorem observes_onShared {c : Code ε τ α}
    (h : ∀ t t', view t = view t' → (c t).mapState view = (c t').mapState view) :
    Observes view (onShared c : Code ε (σ × τ) α) := by
  intro s t t' ht
  have hc := h t t' ht
  unfold onShared zoom
  cases hr : c t <;> cases hr' : c t' <;>
    simp_all [Result.mapState, Prod.map]

theorem leavesView_onShared {c : Code ε τ α} (h : Leaves view c) :
    LeavesView view (onShared c : Code ε (σ × τ) α) := by
  intro s
  have hc := h s.2
  unfold onShared zoom
  cases hr : c s.2 <;> simpa [hr, Result.mapState, Result.state] using hc

theorem Separates.bind {c : Code ε (σ × τ) α} {f : α → Code ε (σ × τ) β}
    (hc : Separates mine view c) (hf : ∀ a, Separates mine view (f a)) :
    Separates mine view (c >>= f) := by
  constructor
  · intro h
    exact (hc.1 h).bind fun a => (hf a).1 h
  · intro h
    exact (hc.2 h).bind fun a => (hf a).2 h

theorem Separates.ite {p : Prop} [Decidable p] {c d : Code ε (σ × τ) α}
    (hc : Separates mine view c) (hd : Separates mine view d) :
    Separates mine view (if p then c else d) := by
  split
  · exact hc
  · exact hd

theorem separates_pure (a : α) : Separates mine view (Pure.pure a : Code ε (σ × τ) α) :=
  ⟨fun _ => observes_pure a, fun _ => leaves_pure a⟩

theorem separates_onPrivate (c : Code ε σ α) :
    Separates mine view (onPrivate c : Code ε (σ × τ) α) :=
  ⟨fun _ => observes_onPrivate c, fun _ => leavesView_onPrivate c⟩

end Code

end Raii
