import Mathlib.Data.Fintype.Card
import Mathlib.Algebra.BigOperators.Group.Finset.Piecewise

/-!
# A counted gate with one owner

Parties enter and leave a gate that counts who is inside.  The last one to
leave becomes the owner of the closed gate, works alone, and opens it again.
`Gate` ties the counter and the closed flag to the roles of the parties.  The
rules `Gate.enter`, `Gate.exit`, `Gate.last` and `Gate.reopen` say that the
four moves keep it, and `Gate.open_of_inside` and `Gate.zero_of_owner` are what
it is for: nobody owns the gate while a party is inside, and nobody is inside
while a party owns it.
-/

namespace SummerOsk.Lib

open Function Finset

/-- One party changes its value: the count of the parties whose value passes a
test changes by that party only. -/
theorem card_filter_update {ι α : Type*} [Fintype ι] [DecidableEq ι] (f : α → Bool)
    (g : ι → α) (p : ι) (a : α) :
    (univ.filter fun q => f (update g p a q) = true).card +
        (if f (g p) = true then 1 else 0) =
      (univ.filter fun q => f (g q) = true).card + if f a = true then 1 else 0 := by
  have hrest : ∑ q ∈ univ.erase p, (if f (update g p a q) = true then 1 else 0) =
      ∑ q ∈ univ.erase p, if f (g q) = true then 1 else 0 := by
    refine sum_congr rfl fun q hq => ?_
    rw [update_of_ne (ne_of_mem_erase hq)]
  rw [card_filter, card_filter, ← add_sum_erase _ _ (mem_univ p), ← add_sum_erase univ (fun q => if
    f (g q) = true then 1 else 0) (mem_univ p), hrest, update_self]
  omega

/-- What a party is to the gate. -/
inductive Role where
  | outside
  | inside
  | owner
  deriving DecidableEq, Repr

variable {ι : Type*} [Fintype ι]

/-- The parties inside the gate. -/
def insiders (role : ι → Role) : Finset ι := Finset.univ.filter fun p => role p = .inside

theorem mem_insiders {role : ι → Role} {p : ι} : p ∈ insiders role ↔ role p = .inside := by
  simp [insiders]

/-- The counter `n` and the flag `closed` agree with the roles. -/
structure Gate (role : ι → Role) (n : Int) (closed : Bool) : Prop where
  count : n = (insiders role).card
  closed_iff : closed = true ↔ ∃ p, role p = .owner
  unique : ∀ p q, role p = .owner → role q = .owner → p = q
  alone : ∀ p q, role p = .owner → role q ≠ .inside

namespace Gate

variable {role : ι → Role} {n : Int} {closed : Bool} {p : ι}

theorem init (h : ∀ p, role p = .outside) : Gate role 0 false where
  count := by
    have hempty : insiders role = ∅ := by
      ext p
      simp [mem_insiders, h p]
    rw [hempty]
    rfl
  closed_iff := by simp [h]
  unique p q hp := by simp [h p] at hp
  alone p q hp := by simp [h p] at hp

/-- The gate is open while a party is inside. -/
theorem open_of_inside (h : Gate role n closed) (hp : role p = .inside) : closed = false := by
  by_contra hc
  obtain ⟨q, hq⟩ := h.closed_iff.mp (by simpa using hc)
  exact h.alone q p hq hp

theorem not_owner_of_open (h : Gate role n false) (p : ι) : role p ≠ .owner := by
  intro hp
  have := h.closed_iff.mpr ⟨p, hp⟩
  cases this

theorem not_owner_of_inside (h : Gate role n closed) (hp : role p = .inside) (q : ι) :
    role q ≠ .owner :=
  fun hq => h.alone q p hq hp

theorem zero_of_owner (h : Gate role n closed) (hp : role p = .owner) : n = 0 ∧ closed = true := by
  have hempty : insiders role = ∅ := by
    ext q
    simp [mem_insiders, h.alone p q hp]
  refine ⟨?_, h.closed_iff.mpr ⟨p, hp⟩⟩
  rw [h.count, hempty]
  rfl

theorem pos_of_inside (h : Gate role n closed) (hp : role p = .inside) : 1 ≤ n := by
  have hpos := card_pos.mpr ⟨p, mem_insiders.mpr hp⟩
  have := h.count
  omega

/-- With nobody inside an open gate, everybody is outside. -/
theorem outside_of_zero (h : Gate role 0 false) (p : ι) : role p = .outside := by
  cases hp : role p with
  | outside => rfl
  | inside => exact absurd (h.pos_of_inside hp) (by omega)
  | owner => exact absurd hp (h.not_owner_of_open p)

variable [DecidableEq ι] {r : Role}

omit [Fintype ι] in
/-- A party that takes a role other than owner does not add one. -/
theorem owner_of_update (hr : r ≠ .owner) {q : ι}
    (hq : update role p r q = .owner) : q ≠ p ∧ role q = .owner := by
  rcases eq_or_ne q p with rfl | hqp
  · rw [update_self] at hq
    exact absurd hq hr
  · rw [update_of_ne hqp] at hq
    exact ⟨hqp, hq⟩

theorem insiders_enter : insiders (update role p .inside) = insert p (insiders role) := by
  ext q
  rcases eq_or_ne q p with rfl | hq
  · simp [mem_insiders]
  · simp [mem_insiders, hq]

theorem insiders_exit (hr : r ≠ .inside) :
    insiders (update role p r) = (insiders role).erase p := by
  ext q
  rcases eq_or_ne q p with rfl | hq
  · simp [mem_insiders, hr]
  · simp [mem_insiders, hq]

theorem card_insiders_exit (hp : role p = .inside) (hr : r ≠ .inside) :
    (insiders (update role p r)).card + 1 = (insiders role).card := by
  rw [insiders_exit hr]
  exact card_erase_add_one (mem_insiders.mpr hp)

/-- A party enters an open gate. -/
theorem enter (h : Gate role n false) (hp : role p = .outside) :
    Gate (update role p .inside) (n + 1) false where
  count := by
    have hmem : p ∉ insiders role := by simp [mem_insiders, hp]
    rw [insiders_enter, card_insert_of_notMem hmem, h.count]
    rfl
  closed_iff := by
    simp only [Bool.false_eq_true, false_iff, not_exists]
    intro q hq
    exact h.not_owner_of_open q (owner_of_update (by simp) hq).2
  unique q r hq := absurd (owner_of_update (by simp) hq).2 (h.not_owner_of_open q)
  alone q r hq := absurd (owner_of_update (by simp) hq).2 (h.not_owner_of_open q)

/-- A party leaves the gate while others are inside. -/
theorem exit (h : Gate role n closed) (hp : role p = .inside) :
    Gate (update role p .outside) (n - 1) closed where
  count := by
    have hcard := card_insiders_exit hp (show Role.outside ≠ .inside by simp)
    rw [h.count]
    omega
  closed_iff := by
    rw [h.open_of_inside hp]
    simp only [Bool.false_eq_true, false_iff, not_exists]
    intro q hq
    exact h.not_owner_of_inside hp q (owner_of_update (by simp) hq).2
  unique q r hq := absurd (owner_of_update (by simp) hq).2 (h.not_owner_of_inside hp q)
  alone q r hq := absurd (owner_of_update (by simp) hq).2 (h.not_owner_of_inside hp q)

/-- The last party inside becomes the owner of the closed gate. -/
theorem last (h : Gate role 1 closed) (hp : role p = .inside) :
    Gate (update role p .owner) 0 true := by
  have hcard := card_insiders_exit hp (show Role.owner ≠ .inside by simp)
  have hcount := h.count
  have howner : ∀ q, update role p .owner q = .owner → q = p := by
    intro q hq
    by_contra hqp
    rw [update_of_ne hqp] at hq
    exact h.not_owner_of_inside hp q hq
  have hempty : insiders (update role p .owner) = ∅ := by
    rw [← card_eq_zero]
    omega
  refine ⟨by rw [hempty]; rfl, ?_, ?_, ?_⟩
  · simp only [true_iff]
    exact ⟨p, update_self _ _ _⟩
  · intro q r hq hr
    rw [howner q hq, howner r hr]
  · intro q r _ hr
    rw [← mem_insiders, hempty] at hr
    simp at hr

/-- The owner opens the gate and goes. -/
theorem reopen (h : Gate role n closed) (hp : role p = .owner) :
    Gate (update role p .outside) n false := by
  have hnone : ∀ q, update role p .outside q ≠ .owner := by
    intro q hq
    obtain ⟨hqp, hq⟩ := owner_of_update (by simp) hq
    exact hqp (h.unique q p hq hp)
  refine ⟨?_, by simp [hnone], fun q r hq => absurd hq (hnone q),
    fun q r hq => absurd hq (hnone q)⟩
  have hmem : p ∉ insiders role := by simp [mem_insiders, hp]
  rw [insiders_exit (by simp), erase_eq_of_notMem hmem]
  exact h.count

end Gate

end SummerOsk.Lib
