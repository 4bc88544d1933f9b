import Mathlib.Init

/-!
# Computations that can fail

`bind_eq_ok` turns a `do` block that returned a value into the values of its
steps.  It is what the inversion of a step function goes through.
-/

namespace SummerOsk.Lib

universe u

theorem bind_eq_ok {ε : Type*} {α β : Type u} {x : Except ε α} {f : α → Except ε β} {b : β} :
    x >>= f = .ok b ↔ ∃ a, x = .ok a ∧ f a = .ok b := by
  cases x with
  | error e => simp [bind, Except.bind]
  | ok a => simp [bind, Except.bind]

end SummerOsk.Lib
