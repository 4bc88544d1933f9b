import Mathlib.Data.List.Induction

/-!
# Machines with partial steps and their runs

A machine is a partial step function over labelled actions.  An action that
is not enabled in a state has no step.  `Machine.run` plays a list of actions
and fails as soon as one of them is not enabled, so a successful run is one
interleaving of the actions of every party.

The rules that the protocol proofs use are `Machine.run_invariant`, which
carries an invariant from the first state of a run to the last,
`Machine.run_history`, where the invariant may also look at the actions played
so far, and `Machine.run_invariant_of_meets`, for the runs whose steps all meet
a side condition.  `Machine.Meets` is that side condition on a run, and
`Machine.trace` the events of a run.  `Machine.trace_unwind` compares two runs
with the same events.
-/

namespace SummerOsk.Lib

open List

/-- A partial step function over labelled actions. -/
structure Machine (σ α : Type*) where
  /-- The state after one action, when the action is enabled. -/
  step : σ → α → Option σ

namespace Machine

variable {σ α : Type*} (m : Machine σ α) {as bs : List α} {I : σ → Prop} {s u : σ} {a : α}

/-- Play a list of actions in order.  The run fails at the first action that
is not enabled. -/
def run : σ → List α → Option σ
  | s, [] => some s
  | s, a :: as => (m.step s a).bind fun t => run t as

@[simp] theorem run_nil (s : σ) : m.run s [] = some s := rfl

theorem run_cons (s : σ) (a : α) (as : List α) :
    m.run s (a :: as) = (m.step s a).bind fun t => m.run t as := rfl

theorem run_append (s : σ) (as bs : List α) :
    m.run s (as ++ bs) = (m.run s as).bind fun t => m.run t bs := by
  induction as generalizing s with
  | nil => rfl
  | cons a as ih =>
    rw [cons_append, run_cons, run_cons]
    cases m.step s a with
    | none => rfl
    | some t => exact ih t

/-- A run of `as ++ bs` passes through a state between the two halves. -/
theorem run_append_eq_some (h : m.run s (as ++ bs) = some u) :
    ∃ t, m.run s as = some t ∧ m.run t bs = some u := by
  rw [run_append] at h
  exact Option.bind_eq_some_iff.mp h

theorem run_cons_eq_some (h : m.run s (a :: as) = some u) :
    ∃ t, m.step s a = some t ∧ m.run t as = some u :=
  Option.bind_eq_some_iff.mp h

/-- What one step preserves, a whole run preserves. -/
theorem run_invariant (hstep : ∀ s a t, I s → m.step s a = some t → I t) (hs : I s)
    (h : m.run s as = some u) : I u := by
  induction as generalizing s with
  | nil =>
    cases h
    exact hs
  | cons a as ih =>
    obtain ⟨t, hat, htu⟩ := m.run_cons_eq_some h
    exact ih (hstep s a t hs hat) htu

/-- What one action of a kind preserves, a run of actions of this kind
preserves. -/
theorem run_invariant_of_forall {G : α → Prop}
    (hstep : ∀ s a t, I s → G a → m.step s a = some t → I t) (hs : I s) (hG : ∀ a ∈ as, G a)
    (h : m.run s as = some u) : I u := by
  induction as generalizing s with
  | nil =>
    cases h
    exact hs
  | cons a as ih =>
    obtain ⟨t, hat, htu⟩ := m.run_cons_eq_some h
    exact ih (hstep s a t hs (hG a mem_cons_self) hat)
      (fun b hb => hG b (mem_cons_of_mem a hb)) htu

/-- A relation between the actions played so far and the state reached, kept by
every step, holds of a whole run. -/
theorem run_history {P : List α → σ → Prop} (hnil : P [] s)
    (hstep : ∀ as t a v, m.run s as = some t → P as t → m.step t a = some v →
      P (as ++ [a]) v) (h : m.run s as = some u) : P as u := by
  induction as using reverseRecOn generalizing u with
  | nil =>
    cases h
    exact hnil
  | append_singleton as a ih =>
    obtain ⟨t, hat, htu⟩ := m.run_append_eq_some h
    obtain ⟨v, hv, hvu⟩ := m.run_cons_eq_some htu
    cases hvu
    exact hstep as t a u hat (ih hat) hv

/-- The events of a run, each of which may look at the states before and after
its step. -/
def trace {ε : Type*} (ev : σ → α → σ → Option ε) : σ → List α → List ε
  | _, [] => []
  | s, a :: as =>
    match m.step s a with
    | none => []
    | some t => (ev s a t).toList ++ trace ev t as

theorem trace_append_singleton {ε : Type*} (ev : σ → α → σ → Option ε) {t : σ}
    (hrun : m.run s as = some t) (hstep : m.step t a = some u) :
    m.trace ev s (as ++ [a]) = m.trace ev s as ++ (ev t a u).toList := by
  induction as generalizing s with
  | nil =>
    cases hrun
    simp [trace, hstep]
  | cons b as ih =>
    obtain ⟨v, hv, hvt⟩ := m.run_cons_eq_some hrun
    simp only [cons_append, trace, hv]
    rw [ih hvt, append_assoc]

/-- Unwinding: a relation that steps without an event keep on either side, and
that steps with the same event keep together, holds at the ends of two runs with
the same events. -/
theorem trace_unwind {ε : Type*} (ev : σ → α → σ → Option ε) {R : σ → σ → Prop}
    (hleft : ∀ s a t s', R s s' → m.step s a = some t → ev s a t = none → R t s')
    (hright : ∀ s s' a' t', R s s' → m.step s' a' = some t' → ev s' a' t' = none → R s t')
    (hboth : ∀ s a t s' a' t' x, R s s' → m.step s a = some t → m.step s' a' = some t' →
      ev s a t = some x → ev s' a' t' = some x → R t t') {s' u' : σ} (hR : R s s')
    (hrun : m.run s as = some u) (hrun' : m.run s' bs = some u')
    (htrace : m.trace ev s as = m.trace ev s' bs) : R u u' := by
  induction as generalizing s s' bs with
  | nil =>
    cases hrun
    -- the rest of the second run has no event
    induction bs generalizing s' with
    | nil =>
      cases hrun'
      exact hR
    | cons b bs ih =>
      obtain ⟨t', ht', hrest⟩ := m.run_cons_eq_some hrun'
      simp only [trace, ht'] at htrace
      obtain ⟨hnone, hnil⟩ := append_eq_nil_iff.mp htrace.symm
      exact ih hrest (hright _ _ _ _ hR ht' (Option.toList_eq_nil_iff.mp hnone)) hnil.symm
  | cons a as ih =>
    obtain ⟨t, ht, hrest⟩ := m.run_cons_eq_some hrun
    simp only [trace, ht] at htrace
    cases hev : ev s a t with
    | none =>
      rw [hev] at htrace
      exact ih (hleft _ _ _ _ hR ht hev) hrest hrun' htrace
    | some x =>
      rw [hev] at htrace
      -- the second run comes to the same event
      induction bs generalizing s' with
      | nil => cases htrace
      | cons b bs ih' =>
        obtain ⟨t', ht', hrest'⟩ := m.run_cons_eq_some hrun'
        simp only [trace, ht'] at htrace
        cases hev' : ev s' b t' with
        | none =>
          rw [hev'] at htrace
          exact ih' (hright _ _ _ _ hR ht' hev') hrest' htrace
        | some x' =>
          rw [hev'] at htrace
          obtain ⟨rfl, htail⟩ := List.cons.inj htrace
          exact ih (hboth _ _ _ _ _ _ _ hR ht ht' hev hev') hrest hrest' htail

/-- Every step of the run from `s` meets the side condition `G`, which may
look at the state before the step. -/
def Meets (G : σ → α → Prop) : σ → List α → Prop
  | _, [] => True
  | s, a :: as => G s a ∧ ∀ t, m.step s a = some t → Meets G t as

instance decidableMeets (G : σ → α → Prop) [∀ s a, Decidable (G s a)] :
    ∀ (s : σ) (as : List α), Decidable (m.Meets G s as)
  | _, [] => isTrue trivial
  | s, a :: as =>
    match h : m.step s a with
    | none => decidable_of_iff (G s a) ⟨fun hG => ⟨hG, by simp [h]⟩, fun hM => hM.1⟩
    | some t =>
      have := decidableMeets G t as
      decidable_of_iff (G s a ∧ m.Meets G t as)
        ⟨fun hG => ⟨hG.1, by simpa [h] using hG.2⟩, fun hM => ⟨hM.1, hM.2 t h⟩⟩

/-- What one step that meets `G` preserves, a run whose steps all meet `G`
preserves. -/
theorem run_invariant_of_meets {G : σ → α → Prop}
    (hstep : ∀ s a t, I s → G s a → m.step s a = some t → I t) (hs : I s) (hG : m.Meets G s as)
    (h : m.run s as = some u) : I u := by
  induction as generalizing s with
  | nil =>
    cases h
    exact hs
  | cons a as ih =>
    obtain ⟨t, hat, htu⟩ := m.run_cons_eq_some h
    exact ih (hstep s a t hs hG.1 hat) (hG.2 t hat) htu

end Machine

end SummerOsk.Lib
