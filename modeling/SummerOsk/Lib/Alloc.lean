import Mathlib.Logic.Function.Basic

/-!
# Allocation of units to places

A pool of units `β`, some of which are always in use (`base`), and places `ρ`
that each refer to at most one unit.  `Allocated` says that no unit is referred
to from two places and that the units marked as used are those of the base and
those referred to.  Allocating a free unit for an empty place keeps it, and so
does freeing the unit of a place.
-/

namespace SummerOsk.Lib

variable {β ρ : Type} {dom base used : β → Prop} {ref : ρ → Option β}

/-- The units of `dom` that are marked as used are exactly those of the base
and those that a place refers to, and no two places refer to one unit. -/
structure Allocated (dom base used : β → Prop) (ref : ρ → Option β) : Prop where
  inj : ∀ p q b, ref p = some b → ref q = some b → p = q
  range : ∀ p b, ref p = some b → dom b ∧ ¬ base b
  used_iff : ∀ b, dom b → (used b ↔ base b ∨ ∃ p, ref p = some b)

namespace Allocated

variable {b : β} {p : ρ}

theorem used_of_ref (h : Allocated dom base used ref) (hp : ref p = some b) : used b :=
  (h.used_iff b (h.range p b hp).1).mpr (.inr ⟨p, hp⟩)

/-- A free unit of the pool is not referred to. -/
theorem ref_ne (h : Allocated dom base used ref) (hfree : ¬ used b) (p : ρ) :
    ref p ≠ some b := fun hp => hfree (h.used_of_ref hp)

theorem not_base (h : Allocated dom base used ref) (hdom : dom b)
    (hfree : ¬ used b) : ¬ base b := fun hb => hfree ((h.used_iff b hdom).mpr (.inl hb))

variable {ref' : ρ → Option β} {used' : β → Prop}

/-- The place `p` gets the free unit `b`. -/
theorem alloc (h : Allocated dom base used ref) (hdom : dom b) (hfree : ¬ used b)
    (hempty : ref p = none) (hused : ∀ x, dom x → (used' x ↔ x = b ∨ used x)) (hp : ref' p = some b)
    (href : ∀ q, q ≠ p → ref' q = ref q) : Allocated dom base used' ref' where
  inj q r x hq hr := by
    by_cases hqp : q = p
    · by_cases hrp : r = p
      · rw [hqp, hrp]
      · rw [hqp, hp] at hq
        rw [href r hrp, ← hq] at hr
        exact absurd hr (h.ref_ne hfree r)
    · rw [href q hqp] at hq
      by_cases hrp : r = p
      · rw [hrp, hp] at hr
        rw [← hr] at hq
        exact absurd hq (h.ref_ne hfree q)
      · rw [href r hrp] at hr
        exact h.inj q r x hq hr
  range q x hq := by
    by_cases hqp : q = p
    · rw [hqp, hp] at hq
      cases hq
      exact ⟨hdom, h.not_base hdom hfree⟩
    · rw [href q hqp] at hq
      exact h.range q x hq
  used_iff x hx := by
    rw [hused x hx, h.used_iff x hx]
    constructor
    · rintro (rfl | hbase | ⟨q, hq⟩)
      · exact .inr ⟨p, hp⟩
      · exact .inl hbase
      · have hqp : q ≠ p := by
          rintro rfl
          simp [hempty] at hq
        exact .inr ⟨q, by rw [href q hqp, hq]⟩
    · rintro (hbase | ⟨q, hq⟩)
      · exact .inr (.inl hbase)
      · by_cases hqp : q = p
        · rw [hqp, hp] at hq
          exact .inl (Option.some.inj hq).symm
        · rw [href q hqp] at hq
          exact .inr (.inr ⟨q, hq⟩)

/-- The place `p` gives up its unit. -/
theorem free (h : Allocated dom base used ref) (hp : ref p = some b)
    (hused : ∀ x, dom x → (used' x ↔ x ≠ b ∧ used x)) (hempty : ref' p = none)
    (href : ∀ q, q ≠ p → ref' q = ref q) : Allocated dom base used' ref' where
  inj q r x hq hr := by
    have hqp : q ≠ p := by
      rintro rfl
      simp [hempty] at hq
    have hrp : r ≠ p := by
      rintro rfl
      simp [hempty] at hr
    rw [href q hqp] at hq
    rw [href r hrp] at hr
    exact h.inj q r x hq hr
  range q x hq := by
    have hqp : q ≠ p := by
      rintro rfl
      simp [hempty] at hq
    rw [href q hqp] at hq
    exact h.range q x hq
  used_iff x hx := by
    rw [hused x hx, h.used_iff x hx]
    constructor
    · rintro ⟨hne, hbase | ⟨q, hq⟩⟩
      · exact .inl hbase
      · have hqp : q ≠ p := by
          rintro rfl
          exact hne (Option.some.inj (hq.symm.trans hp))
        exact .inr ⟨q, by rw [href q hqp, hq]⟩
    · rintro (hbase | ⟨q, hq⟩)
      · refine ⟨?_, .inl hbase⟩
        rintro rfl
        exact (h.range p x hp).2 hbase
      · have hqp : q ≠ p := by
          rintro rfl
          simp [hempty] at hq
        rw [href q hqp] at hq
        refine ⟨?_, .inr ⟨q, hq⟩⟩
        rintro rfl
        exact hqp (h.inj q p x hq hp)

/-- Only the marks of the pool and the references matter. -/
theorem congr (h : Allocated dom base used ref) (hused : ∀ b, dom b → (used' b ↔ used b))
    (href : ∀ p, ref' p = ref p) : Allocated dom base used' ref' := by
  have heq : ref' = ref := funext href
  subst heq
  exact ⟨h.inj, h.range, fun b hb => (hused b hb).trans (h.used_iff b hb)⟩

end Allocated

end SummerOsk.Lib
