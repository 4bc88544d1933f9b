import Mathlib.Init

/-!
# Weakest preconditions for programs with a state and a stop

A program passes a state along and can stop with an error.  `wp x s Q E` says
that `x` started in `s` returns a value and a state with `Q`, or stops with an
error that `E` allows.  There is one rule for each way to build a program, all
of them equations for `simp`, and `wp_mono` and `wp_seq` for the use of a
specification that was proved before.  `wp_total` joins a specification to a proof that the program
does not stop.  `zoom` runs a program on a part of a larger state.
-/

namespace SummerOsk.Lib

variable {σ ε α β : Type}

/-- A program over the state `σ` that can stop with an `ε`. -/
abbrev Prog (ε σ α : Type) : Type := StateT σ (Except ε) α

def wp (x : Prog ε σ α) (s : σ) (Q : α → σ → Prop) (E : ε → Prop) : Prop :=
  match x s with
  | .ok (a, t) => Q a t
  | .error e => E e

variable {s t : σ} {Q Q' : α → σ → Prop} {E E' : ε → Prop} {x : Prog ε σ α} {a : α}
  {f : α → Prog ε σ β} {e : ε}

@[simp] theorem wp_pure (a : α) : wp (pure a : Prog ε σ α) s Q E ↔ Q a s := Iff.rfl

@[simp] theorem wp_bind (x : Prog ε σ α) (f : α → Prog ε σ β) (Q : β → σ → Prop) :
    wp (x >>= f) s Q E ↔ wp x s (fun a t => wp (f a) t Q E) E := by
  simp only [wp, bind, StateT.bind, Except.bind]
  cases x s <;> rfl

@[simp] theorem wp_map (f : α → β) (x : Prog ε σ α) (Q : β → σ → Prop) :
    wp (f <$> x) s Q E ↔ wp x s (fun a t => Q (f a) t) E := by
  rw [map_eq_pure_bind, wp_bind]
  rfl

@[simp] theorem wp_get (Q : σ → σ → Prop) : wp (get : Prog ε σ σ) s Q E ↔ Q s s := Iff.rfl

@[simp] theorem wp_set (t : σ) (Q : PUnit → σ → Prop) :
    wp (set t : Prog ε σ PUnit) s Q E ↔ Q ⟨⟩ t := Iff.rfl

@[simp] theorem wp_modify (f : σ → σ) (Q : PUnit → σ → Prop) :
    wp (modify f : Prog ε σ PUnit) s Q E ↔ Q ⟨⟩ (f s) := Iff.rfl

@[simp] theorem wp_throw (e : ε) : wp (throw e : Prog ε σ α) s Q E ↔ E e := Iff.rfl

theorem wp_ite {c : Prop} [Decidable c] {y : Prog ε σ α} (hx : c → wp x s Q E)
    (hy : ¬ c → wp y s Q E) : wp (if c then x else y) s Q E := by
  by_cases h : c
  · rw [if_pos h]
    exact hx h
  · rw [if_neg h]
    exact hy h

/-- The rule of consequence for both ways to end. -/
theorem wp_imp (h : wp x s Q E) (hQ : ∀ a t, Q a t → Q' a t) (hE : ∀ e, E e → E' e) :
    wp x s Q' E' := by
  unfold wp at h ⊢
  cases hx : x s with
  | ok r =>
    rw [hx] at h
    exact hQ r.1 r.2 h
  | error e =>
    rw [hx] at h
    exact hE e h

theorem wp_mono (h : wp x s Q E) (hQ : ∀ a t, Q a t → Q' a t) : wp x s Q' E :=
  wp_imp h hQ fun _ he => he

/-- The rule of composition. -/
theorem wp_seq {R : β → σ → Prop} (h : wp x s Q E) (hf : ∀ a t, Q a t → wp (f a) t R E) :
    wp (x >>= f) s R E :=
  (wp_bind x f R).mpr (wp_mono h hf)

theorem wp_congr (h : ∀ a t, Q a t ↔ Q' a t) : wp x s Q E ↔ wp x s Q' E :=
  ⟨fun hx => wp_mono hx fun a t => (h a t).mp, fun hx => wp_mono hx fun a t => (h a t).mpr⟩

theorem wp_true (x : Prog ε σ α) (s : σ) : wp x s (fun _ _ => True) fun _ => True := by
  unfold wp
  cases x s <;> trivial

theorem wp_self (x : Prog ε σ α) (s : σ) :
    wp x s (fun a t => x s = .ok (a, t)) fun e => x s = .error e := by
  unfold wp
  cases x s <;> rfl

/-- What a specification says about a run that returned. -/
theorem wp_ok (h : wp x s Q E) (hx : x s = .ok (a, t)) : Q a t := by
  rw [wp, hx] at h
  exact h

/-- What a specification says about a run that stopped. -/
theorem wp_error (h : wp x s Q E) (hx : x s = .error e) : E e := by
  rw [wp, hx] at h
  exact h

/-- Two specifications of one program. -/
theorem wp_and (h : wp x s Q E) (h' : wp x s Q' E') :
    wp x s (fun a t => Q a t ∧ Q' a t) fun e => E e ∧ E' e := by
  unfold wp at h h' ⊢
  cases hx : x s with
  | ok r =>
    rw [hx] at h h'
    exact ⟨h, h'⟩
  | error e =>
    rw [hx] at h h'
    exact ⟨h, h'⟩

/-- A specification of a program that does not stop. -/
theorem wp_total (h : wp x s Q E) (h' : wp x s Q' fun _ => False) :
    wp x s (fun a t => Q a t ∧ Q' a t) fun _ => False :=
  wp_imp (wp_and h h') (fun _ _ hr => hr) fun _ he => he.2

theorem wp_returns (h : wp x s Q fun _ => False) : ∃ a t, x s = .ok (a, t) ∧ Q a t := by
  unfold wp at h
  cases hx : x s with
  | ok r =>
    rw [hx] at h
    exact ⟨r.1, r.2, rfl, h⟩
  | error e =>
    rw [hx] at h
    exact h.elim

/-- A specification that leaves one result. -/
theorem run_of_wp (h : wp x s (fun r u => r = a ∧ u = t) fun _ => False) : x s = .ok (a, t) := by
  obtain ⟨r, u, hx, rfl, rfl⟩ := wp_returns h
  exact hx

theorem wp_of_run (hx : x s = .ok (a, t)) (hQ : Q a t) : wp x s Q E := by
  rw [wp, hx]
  exact hQ

theorem bind_of_ok (hx : x s = .ok (a, t)) (f : α → Prog ε σ β) : (x >>= f) s = f a t := by
  simp only [bind, StateT.bind, Except.bind, hx]

theorem bind_of_error (hx : x s = .error e) (f : α → Prog ε σ β) : (x >>= f) s = .error e := by
  simp only [bind, StateT.bind, Except.bind, hx]

/-- Two programs go on alike from where a specification says that `x` ends. -/
theorem bind_eq_of_wp {g : α → Prog ε σ β} (h : wp x s (fun a t => f a t = g a t) fun _ => True) :
    (x >>= f) s = (x >>= g) s := by
  unfold wp at h
  simp only [bind, StateT.bind, Except.bind]
  cases hx : x s with
  | ok r =>
    rw [hx] at h
    exact h
  | error e => rfl

/-! ## Programs on a part of the state -/

variable {τ : Type}

/-- Run a program on the part `part t` of the state `t`. -/
def zoom (part : τ → σ) (put : τ → σ → τ) (x : Prog ε σ α) : Prog ε τ α := fun t =>
  match x (part t) with
  | .ok (a, s) => .ok (a, put t s)
  | .error e => .error e

@[simp] theorem wp_zoom {part : τ → σ} {put : τ → σ → τ} (x : Prog ε σ α) {t : τ}
    {Q : α → τ → Prop} :
    wp (zoom part put x) t Q E ↔ wp x (part t) (fun a s => Q a (put t s)) E := by
  unfold wp zoom
  cases x (part t) <;> rfl

end SummerOsk.Lib
