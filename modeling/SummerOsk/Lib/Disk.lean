import Mathlib.Data.List.Basic

/-!
# Disks, write lists and interrupted recovery

A disk is a function from block numbers to contents, and a program that
writes to it leaves a list of writes.  A crash keeps a prefix of that list.

`applyWrites_absorb` is the fact that makes redo logging work: to replay a
list of writes from its start gives the same disk whether or not a part of it
had already been applied.

`Recovers` is a recovery procedure that may be cut short any number of times
before it runs to its end.  `Recovers.abstract` reduces a statement about it
to two facts about one run of the procedure: every prefix of its writes keeps
an abstraction of the disk, and the whole list exposes it.
-/

namespace SummerOsk.Lib

open Function

variable {ι β : Type*} [DecidableEq ι] {ws : List (ι × β)} {d d' : ι → β} {b : ι}

/-- The disk after a list of block writes, in order. -/
def applyWrites (d : ι → β) (ws : List (ι × β)) : ι → β :=
  ws.foldl (fun d w => update d w.1 w.2) d

@[simp] theorem applyWrites_nil (d : ι → β) : applyWrites d [] = d := rfl

theorem applyWrites_cons (d : ι → β) (w : ι × β) (ws : List (ι × β)) :
    applyWrites d (w :: ws) = applyWrites (update d w.1 w.2) ws := rfl

theorem applyWrites_append (d : ι → β) (vs ws : List (ι × β)) :
    applyWrites d (vs ++ ws) = applyWrites (applyWrites d vs) ws := by
  simp [applyWrites]

@[simp] theorem applyWrites_singleton (d : ι → β) (w : ι × β) :
    applyWrites d [w] = update d w.1 w.2 := rfl

/-- A block that no write names keeps its contents. -/
theorem applyWrites_of_not_mem (h : ∀ w ∈ ws, w.1 ≠ b) : applyWrites d ws b = d b := by
  induction ws generalizing d with
  | nil => rfl
  | cons w ws ih =>
    rw [applyWrites_cons, ih (fun v hv => h v (List.mem_cons_of_mem _ hv)),
      update_of_ne (h w List.mem_cons_self).symm]

/-- The contents of a block that some write names do not depend on the disk
the writes start from. -/
theorem applyWrites_of_mem (h : ∃ w ∈ ws, w.1 = b) : applyWrites d ws b = applyWrites d' ws b := by
  induction ws generalizing d d' with
  | nil => simp at h
  | cons w ws ih =>
    rw [applyWrites_cons, applyWrites_cons]
    by_cases hlater : ∃ v ∈ ws, v.1 = b
    · exact ih hlater
    · have hnot : ∀ v ∈ ws, v.1 ≠ b := fun v hv hb => hlater ⟨v, hv, hb⟩
      have hw : w.1 = b := by
        obtain ⟨v, hv, hb⟩ := h
        rcases List.mem_cons.mp hv with rfl | hv
        · exact hb
        · exact absurd hb (hnot v hv)
      rw [applyWrites_of_not_mem hnot, applyWrites_of_not_mem hnot, hw]
      simp

/-- The contents of a block after a list of writes depend on its contents
before only. -/
theorem applyWrites_congr (ws : List (ι × β))
    (h : d b = d' b) : applyWrites d ws b = applyWrites d' ws b := by
  by_cases hb : ∃ w ∈ ws, w.1 = b
  · exact applyWrites_of_mem hb
  · have hws : ∀ w ∈ ws, w.1 ≠ b := fun w hw he => hb ⟨w, hw, he⟩
    rw [applyWrites_of_not_mem hws, applyWrites_of_not_mem hws, h]

/-- To replay a list of writes from its start hides any earlier writes to the
same blocks. -/
theorem applyWrites_absorb {vs : List (ι × β)} (h : ∀ v ∈ vs, ∃ w ∈ ws, w.1 = v.1) :
    applyWrites (applyWrites d vs) ws = applyWrites d ws := by
  funext b
  by_cases hb : ∃ w ∈ ws, w.1 = b
  · exact applyWrites_of_mem hb
  · have hws : ∀ w ∈ ws, w.1 ≠ b := fun w hw he => hb ⟨w, hw, he⟩
    rw [applyWrites_of_not_mem hws, applyWrites_of_not_mem hws]
    refine applyWrites_of_not_mem fun v hv he => ?_
    obtain ⟨w, hw, hwv⟩ := h v hv
    exact hws w hw (hwv.trans he)

/-- Writes whose contents are given by the block number. -/
theorem applyWrites_map (d f : ι → β) (bs : List ι) (b : ι) :
    applyWrites d (bs.map fun x => (x, f x)) b = if b ∈ bs then f b else d b := by
  induction bs generalizing d with
  | nil => simp
  | cons x bs ih =>
    rw [List.map_cons, applyWrites_cons, ih]
    by_cases hb : b ∈ bs
    · simp [hb]
    · rcases eq_or_ne b x with rfl | hx
      · simp [hb]
      · simp [hb, hx]

/-- The recovery procedure that issues the writes `rec d` on the disk `d`,
cut short by a crash any number of times and then run to its end. -/
inductive Recovers (rec : (ι → β) → List (ι × β)) : (ι → β) → (ι → β) → Prop
  | done (d : ι → β) : Recovers rec d (applyWrites d (rec d))
  | crash {d d' : ι → β} (k : Nat)
      (h : Recovers rec (applyWrites d ((rec d).take k)) d') : Recovers rec d d'

/-- An abstraction that every prefix of the recovery keeps, and that the
whole recovery exposes, is exposed by every interrupted recovery. -/
theorem Recovers.abstract {rec : (ι → β) → List (ι × β)}
    {Wf : (ι → β) → Prop} {abs : (ι → β) → ι → β} {P : ι → Prop}
    (hkeep : ∀ d, Wf d → ∀ k, Wf (applyWrites d ((rec d).take k)) ∧
      ∀ b, P b → abs (applyWrites d ((rec d).take k)) b = abs d b)
    (hdone : ∀ d, Wf d → ∀ b, P b → applyWrites d (rec d) b = abs d b) (h : Recovers rec d d')
    (hd : Wf d) : ∀ b, P b → d' b = abs d b := by
  induction h with
  | done d => exact hdone d hd
  | @crash d d' k _ ih =>
    obtain ⟨hwf, habs⟩ := hkeep d hd k
    intro b hb
    rw [ih hwf b hb, habs b hb]

end SummerOsk.Lib
