import Mathlib.Data.Fintype.BigOperators

/-!
# Reference counts

Slots `κ` that each refer to at most one object `φ`.  `refCount` is the number
of slots that refer to an object; a change of one slot changes it by the
difference at that slot (`refCount_update`).
-/

namespace SummerOsk.Lib

open Function

variable {κ φ : Type} [Fintype κ] [DecidableEq κ] [DecidableEq φ]

omit [DecidableEq φ] in
/-- Two sums that differ in one term. -/
theorem sum_eq_of_one {f g : κ → Nat} (k : κ) (h : ∀ j, j ≠ k → g j = f j) :
    ∑ j, g j + f k = ∑ j, f j + g k := by
  have hrest : ∑ j ∈ {k}ᶜ, g j = ∑ j ∈ {k}ᶜ, f j :=
    Finset.sum_congr rfl fun j hj => h j (by simpa using hj)
  rw [Fintype.sum_eq_add_sum_compl k, Fintype.sum_eq_add_sum_compl k f, hrest]
  omega

/-- The number of slots that refer to `f`. -/
def refCount (slot : κ → Option φ) (f : φ) : Nat := ∑ k, if slot k = some f then 1 else 0

theorem refCount_update (slot : κ → Option φ) (k : κ) (x : Option φ) (f : φ) :
    refCount (update slot k x) f + (if slot k = some f then 1 else 0) =
      refCount slot f + if x = some f then 1 else 0 := by
  have hsum := sum_eq_of_one (f := fun j => if slot j = some f then 1 else 0)
    (g := fun j => if update slot k x j = some f then 1 else 0) k
    fun j hj => by rw [update_of_ne hj]
  rw [update_self] at hsum
  exact hsum

theorem refCount_pos {slot : κ → Option φ} {k : κ} {f : φ} (h : slot k = some f) :
    0 < refCount slot f := by
  rw [refCount, Fintype.sum_eq_add_sum_compl k, if_pos h]
  omega

omit [DecidableEq κ] in
theorem refCount_none (f : φ) : refCount (fun _ : κ => none) f = 0 :=
  Finset.sum_eq_zero fun _ _ => if_neg (by simp)

end SummerOsk.Lib
