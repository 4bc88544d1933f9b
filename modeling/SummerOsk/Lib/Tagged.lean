import Mathlib.Algebra.BigOperators.Group.Finset.Piecewise
import Mathlib.Algebra.Order.BigOperators.Group.Finset

/-!
# Tagged lists

A log of entries, each a list of elements with the tag of the party that added
it.  `untag` is all the elements in the order of the log, and `taggedBy p` those
that party `p` added.
-/

namespace SummerOsk.Lib

open List

variable {ι α : Type*}

def untag (l : List (ι × List α)) : List α := l.flatMap Prod.snd

@[simp] theorem untag_concat (l : List (ι × List α)) (p : ι) (xs : List α) :
    untag (l ++ [(p, xs)]) = untag l ++ xs := by
  simp [untag]

variable [DecidableEq ι]

def taggedBy (p : ι) (l : List (ι × List α)) : List α :=
  l.flatMap fun x => if x.1 = p then x.2 else []

@[simp] theorem taggedBy_concat (l : List (ι × List α)) (p q : ι) (xs : List α) :
    taggedBy q (l ++ [(p, xs)]) = taggedBy q l ++ if p = q then xs else [] := by
  simp [taggedBy]

/-- The parts of all parties make up the log. -/
theorem length_untag (l : List (ι × List α)) {S : Finset ι} (hS : ∀ x ∈ l, x.1 ∈ S) :
    (untag l).length = ∑ p ∈ S, (taggedBy p l).length := by
  induction l with
  | nil => simp [untag, taggedBy]
  | cons x l ih =>
    have hx : x.1 ∈ S := hS x mem_cons_self
    have hl := ih fun y hy => hS y (mem_cons_of_mem x hy)
    have hpart : ∀ p, (taggedBy p (x :: l)).length =
        (if x.1 = p then x.2.length else 0) + (taggedBy p l).length := by
      intro p
      simp only [taggedBy, flatMap_cons, length_append]
      split_ifs <;> rfl
    simp only [hpart, Finset.sum_add_distrib, Finset.sum_ite_eq, if_pos hx, ← hl]
    simp [untag]

/-- A log in which no party has more than in another is no longer. -/
theorem length_untag_le {l m : List (ι × List α)}
    (h : ∀ p, (taggedBy p l).length ≤ (taggedBy p m).length) :
    (untag l).length ≤ (untag m).length := by
  have hmem : ∀ x ∈ l ++ m, x.1 ∈ ((l ++ m).map Prod.fst).toFinset := fun x hx =>
    mem_toFinset.mpr (mem_map_of_mem hx)
  rw [length_untag l fun x hx => hmem x (mem_append_left m hx),
    length_untag m fun x hx => hmem x (mem_append_right l hx)]
  exact Finset.sum_le_sum fun p _ => h p

end SummerOsk.Lib
