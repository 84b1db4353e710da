/-!
# Code with destructors

Code over a state `σ` ends with a value, with an exception, or with the process
terminated. `scope` is the life of a C++ object: it is constructed, the rest of
the block runs, and it is destroyed when the block is left, also by an
exception; the destructor is told which. Nested scopes destroy in reverse order
of construction. Destructors are `noexcept`: an exception which leaves one
terminates the process.

`wp` is exact: its rules are equivalences, so they decide whether a piece of
code terminates the process and do not only bound it.
-/

namespace Raii

inductive Result (ε σ α : Type)
  | done (a : α) (s : σ)
  | threw (e : ε) (s : σ)
  | terminated (s : σ)

def Result.state {ε σ α : Type} : Result ε σ α → σ
  | .done _ s | .threw _ s | .terminated s => s

def Result.isTerminated {ε σ α : Type} : Result ε σ α → Bool
  | .terminated _ => true
  | _ => false

def Result.mapState {ε σ τ α : Type} (f : σ → τ) : Result ε σ α → Result ε τ α
  | .done a s => .done a (f s)
  | .threw e s => .threw e (f s)
  | .terminated s => .terminated (f s)

def Code (ε σ α : Type) := σ → Result ε σ α

variable {ε σ τ ν α β : Type}

namespace Code

protected def pure (a : α) : Code ε σ α := fun s => .done a s

protected def bind (c : Code ε σ α) (f : α → Code ε σ β) : Code ε σ β := fun s =>
  match c s with
  | .done a s => f a s
  | .threw e s => .threw e s
  | .terminated s => .terminated s

instance : Monad (Code ε σ) where
  pure := Code.pure
  bind := Code.bind

def raise (e : ε) : Code ε σ α := fun s => .threw e s

def terminate : Code ε σ α := fun s => .terminated s

def modify (f : σ → σ) : Code ε σ Unit := fun s => .done () (f s)

def read (f : σ → α) : Code ε σ α := fun s => .done (f s) s

def ofExcept : Except ε α → Code ε σ α
  | .ok a => fun s => .done a s
  | .error e => fun s => .threw e s

def tryCatch (body : Code ε σ α) (handler : ε → Code ε σ α) : Code ε σ α := fun s =>
  match body s with
  | .threw e s => handler e s
  | r => r

def mapError {ε' : Type} (f : ε → ε') (body : Code ε σ α) : Code ε' σ α := fun s =>
  match body s with
  | .done a s => .done a s
  | .threw e s => .threw (f e) s
  | .terminated s => .terminated s

def noexcept (c : Code ε σ Unit) : Code ε σ Unit := fun s =>
  match c s with
  | .threw _ s => .terminated s
  | r => r

/-- Leave a block: the destructor runs, and is told whether an exception is in flight. -/
def leave (destroy : Bool → Code ε σ Unit) (body : Code ε σ β) : Code ε σ β := fun s =>
  match body s with
  | .done b s => (noexcept (destroy false)).bind (fun _ => Code.pure b) s
  | .threw e s => (noexcept (destroy true)).bind (fun _ => raise e) s
  | .terminated s => .terminated s

/-- An object which lives while `body` runs. -/
def scope (construct : Code ε σ α) (destroy : Bool → Code ε σ Unit) (body : α → Code ε σ β) :
    Code ε σ β := construct.bind fun a => leave destroy (body a)

/-- Code of a part of the state. -/
def zoom (get : τ → σ) (set : σ → τ → τ) (c : Code ε σ α) : Code ε τ α := fun t =>
  (c (get t)).mapState fun s => set s t

theorem leave_pure (body : Code ε σ α) : leave (fun _ => Pure.pure ()) body = body := by
  funext s
  unfold leave
  cases body s <;> rfl

def Returns (c : Code ε σ α) (s : σ) (a : α) (s' : σ) : Prop := c s = .done a s'

theorem Returns.pure (a : α) (s : σ) : Returns (Pure.pure a : Code ε σ α) s a s := rfl

theorem Returns.bind {c : Code ε σ α} {f : α → Code ε σ β} {s s' s'' : σ} {a : α} {b : β}
    (hc : Returns c s a s') (hf : Returns (f a) s' b s'') : Returns (c >>= f) s b s'' := by
  show c.bind f s = _
  rw [Code.bind, hc]
  exact hf

theorem Returns.bind_apply {c : Code ε σ α} {s s' : σ} {a : α} (hc : Returns c s a s')
    (f : α → Code ε σ β) : (c >>= f) s = f a s' := by
  show c.bind f s = _
  rw [Code.bind, hc]

theorem bind_congr_apply {c c' : Code ε σ α} {s s' : σ}
    (h : c s = c' s') (f : α → Code ε σ β) : (c >>= f) s = (c' >>= f) s' := by
  show c.bind f s = c'.bind f s'
  unfold Code.bind
  rw [h]

theorem bind_assoc {γ : Type} (c : Code ε σ α) (f : α → Code ε σ β) (g : β → Code ε σ γ) :
    c >>= f >>= g = c >>= fun a => f a >>= g := by
  funext s
  show Code.bind (Code.bind c f) g s = Code.bind c _ s
  unfold Code.bind
  cases c s <;> rfl

theorem state_bind_pure (c : Code ε σ α) (f : α → β) (s : σ) :
    ((c >>= fun a => Pure.pure (f a)) s).state = (c s).state := by
  show (Code.bind c _ s).state = _
  unfold Code.bind
  cases c s <;> rfl

theorem Returns.of_bind {c : Code ε σ α} {f : α → Code ε σ β} {s s'' : σ} {b : β}
    (h : Returns (c >>= f) s b s'') : ∃ a s', Returns c s a s' ∧ Returns (f a) s' b s'' := by
  replace h : c.bind f s = .done b s'' := h
  unfold Code.bind at h
  cases hc : c s with
  | done a s' => exact ⟨a, s', hc, by rwa [hc] at h⟩
  | threw e s' => simp [hc] at h
  | terminated s' => simp [hc] at h

def Throws (c : Code ε σ α) (s : σ) (e : ε) (s' : σ) : Prop := c s = .threw e s'

theorem Throws.bind {c : Code ε σ α} {s s' : σ} {e : ε} (hc : Throws c s e s')
    (f : α → Code ε σ β) : Throws (c >>= f) s e s' := by
  show c.bind f s = _
  rw [Code.bind, hc]

theorem Throws.of_bind {c : Code ε σ α} {f : α → Code ε σ β} {s s'' : σ} {e : ε}
    (h : Throws (c >>= f) s e s'') :
    Throws c s e s'' ∨ ∃ a s', Returns c s a s' ∧ Throws (f a) s' e s'' := by
  replace h : c.bind f s = .threw e s'' := h
  unfold Code.bind at h
  cases hc : c s with
  | done a s' => exact .inr ⟨a, s', hc, by rwa [hc] at h⟩
  | threw e' s' => exact .inl (by simpa [hc, Throws] using h)
  | terminated s' => simp [hc] at h

theorem Returns.tryCatch {c : Code ε σ α} {s s' : σ} {a : α} (hc : Returns c s a s')
    (handler : ε → Code ε σ α) : Returns (tryCatch c handler) s a s' := by
  unfold Returns Code.tryCatch
  rw [hc]

theorem Throws.tryCatch_apply {c : Code ε σ α} {s s' : σ} {e : ε} (hc : Throws c s e s')
    (handler : ε → Code ε σ α) : tryCatch c handler s = handler e s' := by
  unfold Code.tryCatch
  rw [hc]

theorem Returns.of_tryCatch {c : Code ε σ α} {handler : ε → Code ε σ α} {s s'' : σ} {a : α}
    (h : Returns (Code.tryCatch c handler) s a s'') :
    Returns c s a s'' ∨ ∃ e s', Throws c s e s' ∧ Returns (handler e) s' a s'' := by
  unfold Returns Code.tryCatch at h
  cases hc : c s with
  | done b s' =>
    rw [hc] at h
    exact .inl (hc.trans h)
  | threw e s' => exact .inr ⟨e, s', hc, by rwa [hc] at h⟩
  | terminated s' => simp [hc] at h

theorem Throws.of_tryCatch {c : Code ε σ α} {handler : ε → Code ε σ α} {s s'' : σ} {e : ε}
    (h : Throws (Code.tryCatch c handler) s e s'') :
    ∃ e' s', Throws c s e' s' ∧ Throws (handler e') s' e s'' := by
  unfold Throws Code.tryCatch at h
  cases hc : c s with
  | done b s' => simp [hc] at h
  | threw e' s' => exact ⟨e', s', hc, by rwa [hc] at h⟩
  | terminated s' => simp [hc] at h

-- ---------------------------------------------------------------------------
-- Weakest preconditions
-- ---------------------------------------------------------------------------

/-- The code does not terminate the process, and ends in `Q` or, by an exception, in `E`. -/
def wp (c : Code ε σ α) (Q : α → σ → Prop) (E : ε → σ → Prop) (s : σ) : Prop :=
  match c s with
  | .done a s => Q a s
  | .threw e s => E e s
  | .terminated _ => False

variable {Q : α → σ → Prop} {E : ε → σ → Prop} {s : σ}

@[simp] theorem wp_pure (a : α) : wp (Pure.pure a : Code ε σ α) Q E = Q a := rfl

@[simp] theorem wp_bind (c : Code ε σ α) (f : α → Code ε σ β) (Q : β → σ → Prop) :
    wp (c >>= f) Q E = wp c (fun a => wp (f a) Q E) E := by
  funext s
  show wp (c.bind f) Q E s = _
  unfold wp Code.bind
  cases c s <;> rfl

@[simp] theorem wp_raise (e : ε) : wp (raise e : Code ε σ α) Q E = E e := rfl

@[simp] theorem wp_terminate : wp (terminate : Code ε σ α) Q E = fun _ => False := rfl

@[simp] theorem wp_modify (f : σ → σ) (Q : Unit → σ → Prop) :
    wp (modify f) Q E = fun s => Q () (f s) := rfl

@[simp] theorem wp_read (f : σ → α) : wp (read f) Q E = fun s => Q (f s) s := rfl

@[simp] theorem wp_ofExcept_ok (a : α) : wp (ofExcept (.ok a) : Code ε σ α) Q E = Q a := rfl

@[simp] theorem wp_ofExcept_error (e : ε) :
    wp (ofExcept (.error e) : Code ε σ α) Q E = E e := rfl

theorem wp_ofExcept (r : Except ε α) :
    wp (ofExcept r) Q (fun _ _ => False) s ↔ ∃ a, r = .ok a ∧ Q a s := by
  cases r with
  | ok a => simp
  | error e => simp

theorem wp_mono {c : Code ε σ α} {Q' : α → σ → Prop} {E' : ε → σ → Prop} (h : wp c Q E s)
    (hQ : ∀ a s, Q a s → Q' a s) (hE : ∀ e s, E e s → E' e s) : wp c Q' E' s := by
  unfold wp at h ⊢
  cases hc : c s with
  | done a s => exact hQ a s (by simpa [hc] using h)
  | threw e s => exact hE e s (by simpa [hc] using h)
  | terminated s => simp [hc] at h

@[simp] theorem wp_mapError {ε' : Type} (f : ε → ε') (c : Code ε σ α) (E : ε' → σ → Prop) :
    wp (mapError f c) Q E = wp c Q fun e => E (f e) := by
  funext s
  unfold wp mapError
  cases c s <;> rfl

theorem wp_tryCatch (body : Code ε σ α) (handler : ε → Code ε σ α) :
    wp (tryCatch body handler) Q E = wp body Q fun e => wp (handler e) Q E := by
  funext s
  unfold wp tryCatch
  cases body s <;> rfl

theorem wp_congr {c c' : Code ε σ α} {s' : σ} (h : c s = c' s') : wp c Q E s ↔ wp c' Q E s' := by
  unfold wp
  rw [h]

theorem Returns.wp_iff {c : Code ε σ α} {a : α} {s' : σ} (hc : Returns c s a s') :
    wp c Q E s ↔ Q a s' := by
  unfold wp
  rw [hc]

theorem Throws.wp_iff {c : Code ε σ α} {e : ε} {s' : σ} (hc : Throws c s e s') :
    wp c Q E s ↔ E e s' := by
  unfold wp
  rw [hc]

/-- With enough fuel the code ends as `wp` says. -/
def Settles (c : Nat → Code ε σ α) (Q : α → σ → Prop) (E : ε → σ → Prop) (s : σ) : Prop :=
  ∃ n, ∀ fuel, n ≤ fuel → wp (c fuel) Q E s

/-- One call more needs one more of the fuel. -/
theorem enough_succ {p : Nat → Prop} {n : Nat} (h : ∀ fuel, n ≤ fuel → p (fuel + 1)) :
    ∃ n, ∀ fuel, n ≤ fuel → p fuel := by
  refine ⟨n + 1, fun fuel hfuel => ?_⟩
  obtain ⟨fuel, rfl⟩ := Nat.exists_eq_add_of_le' (Nat.le_trans (Nat.le_add_left 1 n) hfuel)
  exact h fuel (Nat.le_of_succ_le_succ hfuel)

section Fuel
variable {c : Nat → Code ε σ α} {f : Nat → α → Code ε σ β} {P : β → σ → Prop}

theorem settles_bind_of_returns {a : α} {s' : σ}
    (hc : ∃ n, ∀ fuel, n ≤ fuel → Returns (c fuel) s a s') :
    Settles (fun fuel => c fuel >>= f fuel) P E s ↔ Settles (fun fuel => f fuel a) P E s' := by
  obtain ⟨n, hn⟩ := hc
  constructor
  · rintro ⟨m, hm⟩
    refine ⟨max n m, fun fuel hfuel => ?_⟩
    have hwp := hm fuel (Nat.le_trans (Nat.le_max_right n m) hfuel)
    rw [wp_bind] at hwp
    exact (hn fuel (Nat.le_trans (Nat.le_max_left n m) hfuel)).wp_iff.mp hwp
  · rintro ⟨m, hm⟩
    refine ⟨max n m, fun fuel hfuel => ?_⟩
    rw [wp_bind]
    exact (hn fuel (Nat.le_trans (Nat.le_max_left n m) hfuel)).wp_iff.mpr
      (hm fuel (Nat.le_trans (Nat.le_max_right n m) hfuel))

theorem Settles.first (h : Settles (fun fuel => c fuel >>= f fuel) P E s) :
    Settles c (fun _ _ => True) E s := by
  obtain ⟨n, hn⟩ := h
  refine ⟨n, fun fuel hfuel => ?_⟩
  have hwp := hn fuel hfuel
  rw [wp_bind] at hwp
  exact wp_mono hwp (fun _ _ _ => trivial) fun _ _ => id

theorem Settles.both {Q Q' : α → σ → Prop} (h : Settles c Q (fun _ _ => False) s)
    (h' : Settles c Q' (fun _ _ => False) s) : ∃ a s', Q a s' ∧ Q' a s' := by
  obtain ⟨n, hn⟩ := h
  obtain ⟨m, hm⟩ := h'
  have hQ := hn (max n m) (Nat.le_max_left n m)
  have hQ' := hm (max n m) (Nat.le_max_right n m)
  unfold wp at hQ hQ'
  cases hc : c (max n m) s with
  | done a s' =>
    rw [hc] at hQ hQ'
    exact ⟨a, s', hQ, hQ'⟩
  | threw e s' =>
    rw [hc] at hQ
    exact hQ.elim
  | terminated s' =>
    rw [hc] at hQ
    exact hQ.elim

theorem settles_congr {c' : Nat → Code ε σ α} {Q : α → σ → Prop} {s' : σ}
    (h : ∀ fuel, c fuel s = c' fuel s') : Settles c Q E s ↔ Settles c' Q E s' :=
  exists_congr fun _ => forall₂_congr fun fuel _ => wp_congr (h fuel)

theorem settles_iff_of_wp {τ γ : Type} {c' : Nat → Code ε τ γ} {Q : α → σ → Prop}
    {Q' : γ → τ → Prop} {E' : ε → τ → Prop} {t : τ}
    (h : ∃ n, ∀ fuel, n ≤ fuel → (wp (c fuel) Q E s ↔ wp (c' fuel) Q' E' t)) :
    Settles c Q E s ↔ Settles c' Q' E' t := by
  obtain ⟨n, hn⟩ := h
  constructor
  · rintro ⟨m, hm⟩
    refine ⟨max n m, fun fuel hfuel => ?_⟩
    exact (hn fuel (Nat.le_trans (Nat.le_max_left n m) hfuel)).mp
      (hm fuel (Nat.le_trans (Nat.le_max_right n m) hfuel))
  · rintro ⟨m, hm⟩
    refine ⟨max n m, fun fuel hfuel => ?_⟩
    exact (hn fuel (Nat.le_trans (Nat.le_max_left n m) hfuel)).mpr
      (hm fuel (Nat.le_trans (Nat.le_max_right n m) hfuel))

theorem settles_iff {P : Prop} (h : ∃ n, ∀ fuel, n ≤ fuel → (wp (c fuel) Q E s ↔ P)) :
    Settles c Q E s ↔ P := by
  obtain ⟨n, hn⟩ := h
  constructor
  · rintro ⟨m, hm⟩
    exact (hn _ (Nat.le_max_left n m)).mp (hm _ (Nat.le_max_right n m))
  · exact fun hp => ⟨n, fun fuel hfuel => (hn fuel hfuel).mpr hp⟩

end Fuel

theorem wp_noexcept (c : Code ε σ Unit) (Q : Unit → σ → Prop) :
    wp (noexcept c) Q E = wp c Q fun _ _ => False := by
  funext s
  unfold wp noexcept
  cases c s <;> rfl

theorem wp_leave (destroy : Bool → Code ε σ Unit) (body : Code ε σ α) :
    wp (leave destroy body) Q E =
      wp body (fun a => wp (destroy false) (fun _ => Q a) fun _ _ => False)
        fun e => wp (destroy true) (fun _ => E e) fun _ _ => False := by
  funext s
  simp only [← wp_noexcept (E := E)]
  unfold wp leave Code.bind
  cases body s with
  | done a s => dsimp only; cases noexcept (destroy false) s <;> rfl
  | threw e s => dsimp only; cases noexcept (destroy true) s <;> rfl
  | terminated s => rfl

/-- Leaving the block normally and leaving it by an exception both run the destructor. -/
@[simp] theorem wp_scope (construct : Code ε σ α) (destroy : Bool → Code ε σ Unit)
    (body : α → Code ε σ β) (Q : β → σ → Prop) :
    wp (scope construct destroy body) Q E =
      wp construct (fun a => wp (body a)
        (fun b => wp (destroy false) (fun _ => Q b) fun _ _ => False)
        fun e => wp (destroy true) (fun _ => E e) fun _ _ => False) E := by
  show wp (construct >>= _) Q E = _
  simp only [wp_bind, wp_leave]

@[simp] theorem wp_zoom (get : τ → σ) (set : σ → τ → τ) (c : Code ε σ α) (Q : α → τ → Prop)
    (E : ε → τ → Prop) :
    wp (zoom get set c) Q E = fun t =>
      wp c (fun a s => Q a (set s t)) (fun e s => E e (set s t)) (get t) := by
  funext t
  unfold wp zoom
  cases c (get t) <;> rfl

theorem not_wp_of_isTerminated {c : Code ε σ α} (h : (c s).isTerminated) : ¬ wp c Q E s := by
  unfold wp
  cases hc : c s with
  | done a s => simp [hc, Result.isTerminated] at h
  | threw e s => simp [hc, Result.isTerminated] at h
  | terminated s => exact id

-- ---------------------------------------------------------------------------
-- Partial correctness
-- ---------------------------------------------------------------------------

/-- If the code returns, it returns in `Q`. -/
def Yields (c : Code ε σ α) (s : σ) (Q : α → σ → Prop) : Prop := ∀ a s', c s = .done a s' → Q a s'

theorem Yields.bind {c : Code ε σ α} {f : α → Code ε σ β} {P : α → σ → Prop} {Q : β → σ → Prop}
    (hc : Yields c s P) (hf : ∀ a s, P a s → Yields (f a) s Q) : Yields (c >>= f) s Q := by
  intro b s' h
  replace h : c.bind f s = .done b s' := h
  unfold Code.bind at h
  cases hr : c s with
  | done a u => exact hf a u (hc a u hr) b s' (by simpa [hr] using h)
  | threw e u => simp [hr] at h
  | terminated u => simp [hr] at h

theorem Yields.read {f : σ → α} {g : α → Code ε σ β} {Q : β → σ → Prop} (h : Yields (g (f s)) s Q) :
    Yields (read f >>= g) s Q := h

theorem Yields.modify {f : σ → σ} {g : Unit → Code ε σ β} {Q : β → σ → Prop}
    (h : Yields (g ()) (f s) Q) : Yields (modify f >>= g) s Q := h

theorem Yields.ite {p : Prop} [Decidable p] {c d : Code ε σ α} {Q : α → σ → Prop}
    (hc : p → Yields c s Q) (hd : ¬ p → Yields d s Q) : Yields (if p then c else d) s Q := by
  split
  · next h => exact hc h
  · next h => exact hd h

theorem Yields.tryCatch {c : Code ε σ α} {handler : ε → Code ε σ α} {Q : α → σ → Prop}
    (hc : Yields c s Q) (hh : ∀ e s, Yields (handler e) s Q) : Yields (tryCatch c handler) s Q := by
  intro a s' h
  unfold Code.tryCatch at h
  cases hr : c s with
  | done b u =>
    simp only [hr, Result.done.injEq] at h
    obtain ⟨rfl, rfl⟩ := h
    exact hc b u hr
  | threw e u => exact hh e u a s' (by simpa [hr] using h)
  | terminated u => simp [hr] at h

theorem Yields.mono {c : Code ε σ α} {P Q : α → σ → Prop} (hc : Yields c s P)
    (h : ∀ a s, P a s → Q a s) : Yields c s Q := fun a s' hr => h a s' (hc a s' hr)

/-- Unless the code terminates the process, it ends in `Q` or, by an exception, in `E`. -/
def wlp (c : Code ε σ α) (Q : α → σ → Prop) (E : ε → σ → Prop) (s : σ) : Prop :=
  match c s with
  | .done a s => Q a s
  | .threw e s => E e s
  | .terminated _ => True

theorem wlp_iff {c : Code ε σ α} : wlp c Q E s ↔
    (∀ a s', Returns c s a s' → Q a s') ∧ ∀ e s', Throws c s e s' → E e s' := by
  unfold wlp Returns Throws
  cases c s with
  | done a s => simp
  | threw e s => simp
  | terminated s => simp

theorem wlp_bind {c : Code ε σ α} {f : α → Code ε σ β} {Q : β → σ → Prop} :
    wlp (c >>= f) Q E s ↔ wlp c (fun a => wlp (f a) Q E) E s := by
  show wlp (c.bind f) Q E s ↔ _
  unfold wlp Code.bind
  cases c s <;> rfl

theorem wlp_tryCatch {body : Code ε σ α} {handler : ε → Code ε σ α} :
    wlp (tryCatch body handler) Q E s ↔ wlp body Q (fun e => wlp (handler e) Q E) s := by
  unfold wlp tryCatch
  cases body s <;> rfl

theorem wlp_mono {c : Code ε σ α} {Q' : α → σ → Prop} {E' : ε → σ → Prop} (h : wlp c Q E s)
    (hQ : ∀ a s, Q a s → Q' a s) (hE : ∀ e s, E e s → E' e s) : wlp c Q' E' s := by
  rw [wlp_iff] at h ⊢
  exact ⟨fun a s' hr => hQ a s' (h.1 a s' hr), fun e s' ht => hE e s' (h.2 e s' ht)⟩

theorem Returns.wlp_iff {c : Code ε σ α} {a : α} {s' : σ} (hc : Returns c s a s') :
    wlp c Q E s ↔ Q a s' := by
  unfold wlp
  rw [hc]

theorem Throws.wlp_iff {c : Code ε σ α} {e : ε} {s' : σ} (hc : Throws c s e s') :
    wlp c Q E s ↔ E e s' := by
  unfold wlp
  rw [hc]

-- ---------------------------------------------------------------------------
-- What code leaves alone
-- ---------------------------------------------------------------------------

/-- However the code ends, the view of the state is what it was. -/
def Leaves (view : σ → ν) (c : Code ε σ α) : Prop := ∀ s, view (c s).state = view s

variable {view : σ → ν}

theorem leaves_pure (a : α) : Leaves view (Pure.pure a : Code ε σ α) := fun _ => rfl

theorem leaves_raise (e : ε) : Leaves view (raise e : Code ε σ α) := fun _ => rfl

theorem leaves_read (f : σ → α) : Leaves view (read f : Code ε σ α) := fun _ => rfl

theorem leaves_ofExcept (r : Except ε α) : Leaves view (ofExcept r : Code ε σ α) := by
  cases r <;> exact fun _ => rfl

theorem leaves_modify {f : σ → σ} (h : ∀ s, view (f s) = view s) :
    Leaves view (modify f : Code ε σ Unit) := h

theorem leaves_zoom {get : τ → σ} {set : σ → τ → τ} {view : τ → ν} (c : Code ε σ α)
    (h : ∀ s t, view (set s t) = view t) : Leaves view (zoom get set c) := by
  intro t
  unfold zoom
  cases c (get t) <;> exact h _ _

theorem Leaves.bind {c : Code ε σ α} {f : α → Code ε σ β} (hc : Leaves view c)
    (hf : ∀ a, Leaves view (f a)) : Leaves view (c >>= f) := by
  intro s
  show view (c.bind f s).state = _
  have h := hc s
  unfold Code.bind
  cases hr : c s with
  | done a u => exact (hf a u).trans (by simpa [hr, Result.state] using h)
  | threw e u => simpa [hr, Result.state] using h
  | terminated u => simpa [hr, Result.state] using h

theorem Leaves.noexcept {c : Code ε σ Unit} (hc : Leaves view c) : Leaves view (noexcept c) := by
  intro s
  have h := hc s
  unfold Code.noexcept
  cases hr : c s <;> simpa [hr, Result.state] using h

theorem Leaves.leave {destroy : Bool → Code ε σ Unit} {body : Code ε σ α} (hbody : Leaves view body)
    (hdestroy : ∀ uncaught, Leaves view (destroy uncaught)) : Leaves view (leave destroy body) := by
  intro s
  have h := hbody s
  unfold Code.leave
  cases hr : body s with
  | done a u =>
    have hnext := ((hdestroy false).noexcept.bind fun _ => leaves_pure a) u
    exact hnext.trans (by simpa [hr, Result.state] using h)
  | threw e u =>
    have hnext := ((hdestroy true).noexcept.bind fun _ => leaves_raise (α := α) e) u
    exact hnext.trans (by simpa [hr, Result.state] using h)
  | terminated u => simpa [hr, Result.state] using h

theorem Leaves.scope {construct : Code ε σ α} {destroy : Bool → Code ε σ Unit}
    {body : α → Code ε σ β} (hconstruct : Leaves view construct)
    (hdestroy : ∀ uncaught, Leaves view (destroy uncaught)) (hbody : ∀ a, Leaves view (body a)) :
    Leaves view (scope construct destroy body) :=
  hconstruct.bind fun a => (hbody a).leave hdestroy

-- ---------------------------------------------------------------------------
-- Invariants of the state
-- ---------------------------------------------------------------------------

/-- However the code ends, what held of the state before holds of it after. -/
def Keeps (P : σ → Prop) (c : Code ε σ α) : Prop := ∀ s, P s → P (c s).state

variable {P : σ → Prop}

theorem keeps_pure (a : α) : Keeps P (Pure.pure a : Code ε σ α) := fun _ => id

theorem keeps_raise (e : ε) : Keeps P (raise e : Code ε σ α) := fun _ => id

theorem keeps_terminate : Keeps P (terminate : Code ε σ α) := fun _ => id

theorem keeps_ofExcept (r : Except ε α) : Keeps P (ofExcept r : Code ε σ α) := by
  cases r <;> exact fun _ => id

theorem Keeps.bind {c : Code ε σ α} {f : α → Code ε σ β} (hc : Keeps P c)
    (hf : ∀ a, Keeps P (f a)) : Keeps P (c >>= f) := by
  intro s hs
  show P (c.bind f s).state
  have h := hc s hs
  unfold Code.bind
  cases hr : c s with
  | done a u => exact hf a u (by simpa [hr, Result.state] using h)
  | threw e u => simpa [hr, Result.state] using h
  | terminated u => simpa [hr, Result.state] using h

theorem Keeps.tryCatch {c : Code ε σ α} {handler : ε → Code ε σ α} (hc : Keeps P c)
    (hhandler : ∀ e, Keeps P (handler e)) : Keeps P (tryCatch c handler) := by
  intro s hs
  have h := hc s hs
  unfold Code.tryCatch
  cases hr : c s with
  | done a u => simpa [hr, Result.state] using h
  | threw e u => exact hhandler e u (by simpa [hr, Result.state] using h)
  | terminated u => simpa [hr, Result.state] using h

end Code

end Raii
