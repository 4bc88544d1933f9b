import Mathlib.Data.List.GetD
import Mathlib.Data.List.TakeWhile

/-!
# Strings in a memory with holes

The memory has a byte at some addresses.  A string is copied from it byte by
byte, up to a NUL, to a limit or to an address without a byte.
-/

namespace SummerOsk.Lib

open List

variable {mem : Nat → Option UInt8} {va max j n : Nat}

/-- The bytes that are copied: up to a NUL, which is the last of them, or to an
address without a byte. -/
def copied (mem : Nat → Option UInt8) (va : Nat) : Nat → List UInt8
  | 0 => []
  | max + 1 =>
    match mem va with
    | none => []
    | some x => x :: if x = 0 then [] else copied mem (va + 1) max

theorem copied_none (h : mem va = none) (max : Nat) : copied mem va (max + 1) = [] := by
  rw [copied, h]

theorem copied_zero (h : mem va = some 0) (max : Nat) : copied mem va (max + 1) = [0] := by
  rw [copied, h]
  rfl

theorem copied_succ {x : UInt8} (h : mem va = some x) (hx : x ≠ 0) (max : Nat) :
    copied mem va (max + 1) = x :: copied mem (va + 1) max := by
  rw [copied, h]
  simp only [hx, if_false]

/-- What is at an address: nothing, a NUL, or another byte. -/
theorem byte_cases (mem : Nat → Option UInt8) (va : Nat) :
    mem va = none ∨ mem va = some 0 ∨ ∃ x, mem va = some x ∧ x ≠ 0 := by
  cases h : mem va with
  | none => exact .inl rfl
  | some x =>
    by_cases hx : x = 0
    · exact .inr (.inl (by rw [hx]))
    · exact .inr (.inr ⟨x, rfl, hx⟩)

theorem copied_length_le (mem : Nat → Option UInt8) (va max : Nat) :
    (copied mem va max).length ≤ max := by
  induction max generalizing va with
  | zero => exact le_rfl
  | succ max ih =>
    rcases byte_cases mem va with h | h | ⟨x, h, hx⟩
    · rw [copied_none h]
      exact Nat.zero_le _
    · rw [copied_zero h]
      exact Nat.succ_le_succ (Nat.zero_le max)
    · rw [copied_succ h hx]
      exact Nat.succ_le_succ (ih _)

/-- Where the copy goes on: no byte before it is a NUL, and all can be read. -/
theorem lt_copied_length : j < (copied mem va max).length ↔
    j < max ∧ (∀ i ≤ j, mem (va + i) ≠ none) ∧ ∀ i < j, mem (va + i) ≠ some 0 := by
  induction max generalizing va j with
  | zero => simp [copied]
  | succ max ih =>
    rcases byte_cases mem va with h | h | ⟨x, h, hx⟩
    · rw [copied_none h]
      refine iff_of_false (Nat.not_lt_zero j) fun hall => ?_
      exact hall.2.1 0 (Nat.zero_le j) h
    · rw [copied_zero h, length_singleton]
      constructor
      · intro hj
        obtain rfl : j = 0 := by omega
        refine ⟨Nat.succ_pos max, fun i hi => ?_, fun i hi => absurd hi (Nat.not_lt_zero i)⟩
        obtain rfl : i = 0 := by omega
        rw [Nat.add_zero, h]
        simp
      · intro hall
        by_contra hj
        exact hall.2.2 0 (by omega) h
    · rw [copied_succ h hx, length_cons]
      cases j with
      | zero =>
        refine iff_of_true (by omega) ⟨by omega, fun i hi => ?_, fun i hi => absurd hi (by omega)⟩
        obtain rfl : i = 0 := by omega
        rw [Nat.add_zero, h]
        simp
      | succ j =>
        rw [Nat.add_lt_add_iff_right, ih, Nat.add_lt_add_iff_right]
        refine and_congr_right fun _ => and_congr ?_ ?_
        · constructor
          · intro hall i hi
            cases i with
            | zero =>
              rw [Nat.add_zero, h]
              simp
            | succ i =>
              rw [← Nat.add_assoc, Nat.add_right_comm]
              exact hall i (by omega)
          · intro hall i hi
            rw [Nat.add_right_comm, Nat.add_assoc]
            exact hall (i + 1) (by omega)
        · constructor
          · intro hall i hi
            cases i with
            | zero =>
              rw [Nat.add_zero, h]
              simpa using hx
            | succ i =>
              rw [← Nat.add_assoc, Nat.add_right_comm]
              exact hall i (by omega)
          · intro hall i hi
            rw [Nat.add_right_comm, Nat.add_assoc]
            exact hall (i + 1) (by omega)

/-- A copied string ends with its NUL. -/
theorem copied_eq_of_mem (h : 0 ∈ copied mem va max) :
    copied mem va max = (copied mem va max).takeWhile (· ≠ 0) ++ [0] := by
  induction max generalizing va with
  | zero => exact absurd h not_mem_nil
  | succ max ih =>
    rcases byte_cases mem va with hm | hm | ⟨x, hm, hx⟩
    · rw [copied_none hm] at h
      exact absurd h not_mem_nil
    · rw [copied_zero hm]
      rfl
    · rw [copied_succ hm hx] at h ⊢
      have hmem : 0 ∈ copied mem (va + 1) max := by
        rcases mem_cons.mp h with he | hmem
        · exact absurd he.symm hx
        · exact hmem
      rw [takeWhile_cons_of_pos (by simpa using hx), cons_append, ← ih hmem]

/-- The bytes of a copy are those of the memory. -/
theorem getD_copied (h : j < (copied mem va max).length) :
    mem (va + j) = some ((copied mem va max).getD j 0) := by
  induction max generalizing va j with
  | zero => exact absurd h (Nat.not_lt_zero j)
  | succ max ih =>
    rcases byte_cases mem va with hm | hm | ⟨x, hm, hx⟩
    · rw [copied_none hm] at h
      exact absurd h (Nat.not_lt_zero j)
    · rw [copied_zero hm, length_singleton] at h
      obtain rfl : j = 0 := by omega
      rw [copied_zero hm, Nat.add_zero, hm]
      rfl
    · rw [copied_succ hm hx, length_cons] at h
      rw [copied_succ hm hx]
      cases j with
      | zero =>
        rw [Nat.add_zero, hm]
        rfl
      | succ j =>
        rw [getD_cons_succ, ← ih (by omega)]
        congr 1
        omega

/-- A NUL is copied if it comes before the limit and before any hole. -/
theorem zero_mem_copied : 0 ∈ copied mem va max ↔
    ∃ i < max, mem (va + i) = some 0 ∧ ∀ j ≤ i, mem (va + j) ≠ none := by
  induction max generalizing va with
  | zero => simp [copied]
  | succ max ih =>
    rcases byte_cases mem va with hm | hm | ⟨x, hm, hx⟩
    · rw [copied_none hm]
      refine iff_of_false not_mem_nil ?_
      rintro ⟨i, -, -, hall⟩
      exact hall 0 (Nat.zero_le i) hm
    · rw [copied_zero hm]
      refine iff_of_true (mem_singleton.mpr rfl) ⟨0, Nat.succ_pos max, hm, fun j hj => ?_⟩
      obtain rfl : j = 0 := by omega
      rw [Nat.add_zero, hm]
      simp
    · have hne : (0 : UInt8) ≠ x := fun h => hx h.symm
      rw [copied_succ hm hx, mem_cons, ih, or_iff_right hne]
      constructor
      · rintro ⟨i, hi, hnul, hall⟩
        refine ⟨i + 1, by omega, by rwa [Nat.add_right_comm] at hnul, fun j hj => ?_⟩
        cases j with
        | zero =>
          rw [Nat.add_zero, hm]
          simp
        | succ j =>
          rw [← Nat.add_assoc, Nat.add_right_comm]
          exact hall j (by omega)
      · rintro ⟨i, hi, hnul, hall⟩
        cases i with
        | zero =>
          rw [Nat.add_zero, hm, Option.some.injEq] at hnul
          exact absurd hnul hx
        | succ i =>
          refine ⟨i, by omega, by rwa [Nat.add_right_comm], fun j hj => ?_⟩
          rw [Nat.add_right_comm]
          exact hall (j + 1) (by omega)

/-! ## Copies in parts -/

theorem copied_congr {mem' : Nat → Option UInt8} {wa : Nat}
    (h : ∀ j < max, mem (va + j) = mem' (wa + j)) : copied mem va max = copied mem' wa max := by
  induction max generalizing va wa with
  | zero => rfl
  | succ max ih =>
    have hfirst : mem va = mem' wa := h 0 (Nat.succ_pos max)
    have hrest : copied mem (va + 1) max = copied mem' (wa + 1) max := by
      apply ih
      intro j hj
      rw [Nat.add_right_comm, Nat.add_right_comm wa]
      exact h (j + 1) (by omega)
    rw [copied, copied, hfirst, hrest]

/-- After a NUL nothing is copied. -/
theorem copied_add_of_mem (k : Nat) (h : 0 ∈ copied mem va n) :
    copied mem va (n + k) = copied mem va n := by
  induction n generalizing va with
  | zero => exact absurd h not_mem_nil
  | succ n ih =>
    rw [Nat.add_right_comm]
    rcases byte_cases mem va with hm | hm | ⟨x, hm, hx⟩
    · rw [copied_none hm, copied_none hm]
    · rw [copied_zero hm, copied_zero hm]
    · rw [copied_succ hm hx, mem_cons] at h
      rw [copied_succ hm hx, copied_succ hm hx, ih (h.resolve_left fun he => hx he.symm)]

/-- Bytes that are all there and no NUL are copied, and the copy goes on. -/
theorem copied_add_of_not_mem (k : Nat) (hall : ∀ j < n, mem (va + j) ≠ none)
    (h : 0 ∉ copied mem va n) :
    copied mem va (n + k) = copied mem va n ++ copied mem (va + n) k := by
  induction n generalizing va with
  | zero => rw [Nat.zero_add, Nat.add_zero, copied, nil_append]
  | succ n ih =>
    rw [Nat.add_right_comm]
    rcases byte_cases mem va with hm | hm | ⟨x, hm, hx⟩
    · exact absurd hm (hall 0 (Nat.succ_pos n))
    · rw [copied_zero hm] at h
      exact absurd (mem_singleton.mpr rfl) h
    · rw [copied_succ hm hx, mem_cons, not_or] at h
      have hrest : ∀ j < n, mem (va + 1 + j) ≠ none := by
        intro j hj
        rw [Nat.add_right_comm]
        exact hall (j + 1) (by omega)
      rw [copied_succ hm hx, copied_succ hm hx, ih hrest h.2, cons_append, Nat.add_right_comm va]
      rfl

end SummerOsk.Lib
