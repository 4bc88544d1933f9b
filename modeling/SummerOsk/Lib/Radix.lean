import Mathlib.Data.List.Induction
import Mathlib.Data.Option.Basic
import Mathlib.Data.Set.Basic

/-!
# Trees in a store

A node of the tree has a child for some indices, by a function `child` of the
store.  A path from the root is a list of indices, and `nodeAt` follows it.
`Unshared d` says that no node is at the end of two paths of length at most
`d`.

A change of the store that does not touch the nodes on the way leaves a path
where it was (`nodeAt_congr`), and a new node without children that is hung
under a free index appears at the end of one path (`nodeAt_graft`).  `below` is
the set of the nodes of a tree; without sharing, the trees under two children
of a node are disjoint.
-/

namespace SummerOsk.Lib

open List Option

variable {ν ι : Type*}

/-- The node at the end of a path. -/
def nodeAt (child : ν → ι → Option ν) : ν → List ι → Option ν
  | t, [] => some t
  | t, i :: is => (child t i).bind fun c => nodeAt child c is

variable {child child' : ν → ι → Option ν} {r t p : ν} {d : Nat} {P Q : List ι} {i : ι}

@[simp] theorem nodeAt_nil : nodeAt child r [] = some r := rfl

theorem nodeAt_snoc : nodeAt child r (P ++ [i]) = (nodeAt child r P).bind (child · i) := by
  induction P generalizing r with
  | nil => simp [nodeAt]
  | cons j P ih =>
    rw [cons_append, nodeAt, nodeAt]
    cases child r j with
    | none => rfl
    | some c => exact ih

/-- The path to a child passes through its parent. -/
theorem nodeAt_snoc_eq_some (h : nodeAt child r (P ++ [i]) = some t) :
    ∃ q, nodeAt child r P = some q ∧ child q i = some t := by
  rw [nodeAt_snoc] at h
  exact bind_eq_some_iff.mp h

/-- No node is at the end of two paths of length at most `d`. -/
def Unshared (child : ν → ι → Option ν) (d : Nat) (r : ν) : Prop :=
  ∀ P Q t, P.length ≤ d → Q.length ≤ d → nodeAt child r P = some t →
    nodeAt child r Q = some t → P = Q

/-- A path depends on the nodes before its end. -/
theorem nodeAt_congr
    (h : ∀ P t i, P.length < d → nodeAt child r P = some t → child' t i = child t i)
    (hQ : Q.length ≤ d) : nodeAt child' r Q = nodeAt child r Q := by
  induction Q using reverseRecOn with
  | nil => rfl
  | append_singleton Q i ih =>
    rw [length_append, length_singleton] at hQ
    rw [nodeAt_snoc, nodeAt_snoc, ih (by omega)]
    cases hq : nodeAt child r Q with
    | none => rfl
    | some q =>
      exact h Q q i (by omega) hq

/-- A new node is hung under index `i` of the node at the end of `P`. -/
theorem nodeAt_graft (hu : Unshared child d r) (hP : P.length < d) (ht : nodeAt child r P = some t)
    (hfree : child t i = none) (hnew : child' t i = some p) (hempty : ∀ j, child' p j = none)
    (hrest : ∀ q j, q ≠ p → (q ≠ t ∨ j ≠ i) → child' q j = child q j)
    (hfresh : ∀ Q, Q.length ≤ d → nodeAt child r Q ≠ some p) (hQ : Q.length ≤ d) [DecidableEq ι] :
    nodeAt child' r Q = if Q = P ++ [i] then some p else nodeAt child r Q := by
  induction Q using reverseRecOn with
  | nil => simp
  | append_singleton Q j ih =>
    rw [length_append, length_singleton] at hQ
    rw [nodeAt_snoc, ih (by omega), nodeAt_snoc]
    by_cases hQP : Q = P ++ [i]
    · -- below the new node there is nothing
      have hold : nodeAt child r Q = none := by rw [hQP, nodeAt_snoc, ht, bind_some, hfree]
      have hne : Q ++ [j] ≠ P ++ [i] := by
        intro he
        have := congrArg List.length he
        rw [hQP] at this
        simp at this
      rw [if_pos hQP, if_neg hne, bind_some, hempty, hold, bind_none]
    · rw [if_neg hQP]
      cases hq : nodeAt child r Q with
      | none =>
        have hne : Q ++ [j] ≠ P ++ [i] := by
          intro he
          obtain ⟨rfl, -⟩ := append_inj' he rfl
          rw [ht] at hq
          cases hq
        rw [if_neg hne]
        rfl
      | some q =>
        rw [bind_some, bind_some]
        have hqp : q ≠ p := fun he => hfresh Q (by omega) (he ▸ hq)
        by_cases hqt : q = t ∧ j = i
        · obtain ⟨rfl, rfl⟩ := hqt
          rw [hu Q P q (by omega) (by omega) hq ht, if_pos rfl, hnew]
        · have hne : Q ++ [j] ≠ P ++ [i] := by
            intro he
            obtain ⟨rfl, hji⟩ := append_inj' he rfl
            rw [ht] at hq
            exact hqt ⟨(Option.some.inj hq).symm, singleton_inj.mp hji⟩
          rw [if_neg hne]
          refine hrest q j hqp ?_
          by_contra hboth
          push Not at hboth
          exact hqt hboth

/-- The graft does not share the new node. -/
theorem Unshared.graft (hu : Unshared child d r) {P : List ι} [DecidableEq ι]
    (hgraft : ∀ Q, Q.length ≤ d →
      nodeAt child' r Q = if Q = P ++ [i] then some p else nodeAt child r Q)
    (hfresh : ∀ Q, Q.length ≤ d → nodeAt child r Q ≠ some p) : Unshared child' d r := by
  intro Q Q' t hQ hQ' h h'
  rw [hgraft Q hQ] at h
  rw [hgraft Q' hQ'] at h'
  split_ifs at h h' with h1 h2 h2
  · rw [h1, h2]
  · cases h
    exact absurd h' (hfresh Q' hQ')
  · cases h'
    exact absurd h (hfresh Q hQ)
  · exact hu Q Q' t hQ hQ' h h'

/-! ## The nodes of a tree -/

/-- The nodes at depth at most `d` under `r`. -/
def below (child : ν → ι → Option ν) (d : Nat) (r : ν) : Set ν :=
  {t | ∃ P : List ι, P.length ≤ d ∧ nodeAt child r P = some t}

theorem mem_below_self : r ∈ below child d r := ⟨[], Nat.zero_le d, rfl⟩

theorem mem_below_zero : t ∈ below child 0 r ↔ t = r := by
  constructor
  · rintro ⟨P, hP, ht⟩
    rw [length_eq_zero_iff.mp (Nat.le_zero.mp hP)] at ht
    exact (Option.some.inj ht).symm
  · rintro rfl
    exact mem_below_self

/-- A node of the tree is the root or a node under one of its children. -/
theorem mem_below_succ :
    t ∈ below child (d + 1) r ↔ t = r ∨ ∃ i c, child r i = some c ∧ t ∈ below child d c := by
  constructor
  · rintro ⟨P, hP, ht⟩
    cases P with
    | nil => exact .inl (Option.some.inj ht).symm
    | cons i P =>
      obtain ⟨c, hc, hct⟩ := bind_eq_some_iff.mp ht
      rw [length_cons] at hP
      exact .inr ⟨i, c, hc, P, by omega, hct⟩
  · rintro (rfl | ⟨i, c, hc, P, hP, ht⟩)
    · exact mem_below_self
    · refine ⟨i :: P, by rw [length_cons]; omega, ?_⟩
      rw [nodeAt, hc, bind_some, ht]

section Children

variable {c c' : ν} {j : ι} (hu : Unshared child (d + 1) r) (hc : child r i = some c)
include hu hc

theorem Unshared.under : Unshared child d c := by
  intro P Q t hP hQ ht ht'
  have hpath (R : List ι) (hR : nodeAt child c R = some t) : nodeAt child r (i :: R) = some t := by
    rw [nodeAt, hc, bind_some, hR]
  have := hu (i :: P) (i :: Q) t (by rw [length_cons]; omega)
    (by rw [length_cons]; omega) (hpath P ht) (hpath Q ht')
  exact (List.cons.inj this).2

theorem Unshared.root_not_under : r ∉ below child d c := by
  rintro ⟨P, hP, hr⟩
  have := hu [] (i :: P) r (Nat.zero_le _) (by rw [length_cons]; omega) rfl
    (by rw [nodeAt, hc, bind_some, hr])
  cases this

theorem Unshared.disjoint_under (hij : i ≠ j) (hc' : child r j = some c')
    (ht : t ∈ below child d c) : t ∉ below child d c' := by
  rintro ⟨Q, hQ, hq⟩
  obtain ⟨P, hP, hp⟩ := ht
  have := hu (i :: P) (j :: Q) t (by rw [length_cons]; omega)
    (by rw [length_cons]; omega) (by rw [nodeAt, hc, bind_some, hp])
    (by rw [nodeAt, hc', bind_some, hq])
  exact hij (List.cons.inj this).1

end Children

section Congr

variable (h : ∀ t ∈ below child d r, ∀ i, child' t i = child t i)
include h

theorem nodeAt_congr_below {Q : List ι} (hQ : Q.length ≤ d) :
    nodeAt child' r Q = nodeAt child r Q :=
  nodeAt_congr (fun P t i hP ht => h t ⟨P, by omega, ht⟩ i) hQ

theorem below_congr : below child' d r = below child d r := by
  ext t
  refine exists_congr fun P => and_congr_right fun hP => ?_
  rw [nodeAt_congr_below h hP]

theorem Unshared.congr (hu : Unshared child d r) : Unshared child' d r := by
  intro P Q t hP hQ ht ht'
  rw [nodeAt_congr_below h hP] at ht
  rw [nodeAt_congr_below h hQ] at ht'
  exact hu P Q t hP hQ ht ht'

end Congr

end SummerOsk.Lib
