import Mathlib.Data.List.Basic
import Mathlib.Data.Nat.ModEq

/-!
# Ring buffers with wrapping counters

A buffer of `n` cells is used through counters that only grow and wrap around
at `2 ^ w`.  The cell of a counter is its value modulo `n`.  As long as `n`
divides `2 ^ w`, the cells of up to `n` successive counters differ, also where
the counters wrap around.

`queue n data r e` is the list of the cells from counter `r` up to counter `e`.
The lemmas say what it becomes when a cell is appended at `e`
(`queue_push`), taken from `r` (`queue_pop`), or when `e` steps back
(`queue_unpush`).
-/

namespace SummerOsk.Lib

open Function List

variable {α : Type*} {w n k : Nat} {data : Nat → α} {r e : BitVec w}

/-! ## Counters -/

theorem counter_add_sub (r e : BitVec w) : r + BitVec.ofNat w (e - r).toNat = e := by
  rw [BitVec.ofNat_toNat, BitVec.setWidth_eq, BitVec.add_comm, BitVec.sub_add_cancel]

theorem toNat_succ {x : BitVec w} (h : x.toNat + 1 < 2 ^ w) : (x + 1).toNat = x.toNat + 1 := by
  have hone : (1 : BitVec w).toNat = 1 := by
    exact Nat.mod_eq_of_lt (Nat.lt_of_le_of_lt (Nat.le_add_left 1 _) h)
  rw [BitVec.toNat_add, hone, Nat.mod_eq_of_lt h]

theorem toNat_pred {x : BitVec w} (h : x ≠ 0) : (x - 1).toNat = x.toNat - 1 := by
  have hpos : x.toNat ≠ 0 := fun h0 => h (BitVec.eq_of_toNat_eq (by simpa using h0))
  have hsucc : (BitVec.ofNat w (x.toNat - 1) : BitVec w).toNat = x.toNat - 1 := by
    exact Nat.mod_eq_of_lt (by omega)
  have hx : x = BitVec.ofNat w (x.toNat - 1) + 1 := by
    apply BitVec.eq_of_toNat_eq
    rw [toNat_succ (by omega), hsucc]
    omega
  rw [← hsucc]
  congr 1
  nth_rewrite 1 [hx]
  exact BitVec.add_sub_cancel _ _

theorem toNat_sub_eq_zero : (e - r).toNat = 0 ↔ r = e := by
  constructor
  · intro h
    have he := counter_add_sub r e
    rw [h] at he
    simpa using he
  · rintro rfl
    simp

/-- The distance grows with the front counter. -/
theorem toNat_succ_sub (h : (e - r).toNat + 1 < 2 ^ w) : (e + 1 - r).toNat = (e - r).toNat + 1 := by
  have hsub : e + 1 - r = e - r + 1 := by
    rw [BitVec.sub_eq_add_neg, BitVec.sub_eq_add_neg, BitVec.add_assoc, BitVec.add_assoc,
      BitVec.add_comm 1]
  rw [hsub, toNat_succ h]

/-- The distance shrinks with the rear counter. -/
theorem toNat_sub_succ (h : r ≠ e) : (e - (r + 1)).toNat = (e - r).toNat - 1 := by
  have hsub : e - (r + 1) = e - r - 1 := by
    rw [BitVec.sub_eq_add_neg, BitVec.sub_eq_add_neg, BitVec.sub_eq_add_neg, BitVec.neg_add,
      BitVec.sub_eq_add_neg, BitVec.add_assoc]
  rw [hsub, toNat_pred fun h0 => h (toNat_sub_eq_zero.mp (by rw [h0]; rfl))]

/-! ## Cells -/

/-- The `k` cells from counter `r` on. -/
def slice (n : Nat) (data : Nat → α) (r : BitVec w) (k : Nat) : List α :=
  (List.range k).map fun i => data ((r + BitVec.ofNat w i).toNat % n)

/-- The cells from counter `r` up to counter `e`. -/
def queue (n : Nat) (data : Nat → α) (r e : BitVec w) : List α :=
  slice n data r (e - r).toNat

@[simp] theorem length_slice (k : Nat) : (slice n data r k).length = k := by
  simp [slice]

@[simp] theorem length_queue : (queue n data r e).length = (e - r).toNat := length_slice _

@[simp] theorem queue_self : queue n data r r = [] := by
  simp [queue, slice]

theorem slice_succ (k : Nat) : slice n data r (k + 1) =
    slice n data r k ++ [data ((r + BitVec.ofNat w k).toNat % n)] := by
  simp [slice, range_succ]

theorem slice_succ' (k : Nat) : slice n data r (k + 1) =
    data (r.toNat % n) :: slice n data (r + 1) k := by
  have hnext : ∀ i, r + BitVec.ofNat w (i + 1) = r + 1 + BitVec.ofNat w i := by
    intro i
    rw [BitVec.add_assoc, BitVec.ofNat_add, BitVec.add_comm (BitVec.ofNat w i)]
    rfl
  rw [slice, range_succ_eq_map, map_cons, map_map, slice]
  refine congrArg₂ _ (by simp) (map_congr_left fun i _ => ?_)
  rw [Function.comp_apply, Nat.succ_eq_add_one, hnext]

/-- The cell of the counter `i` steps after `r`. -/
theorem cell_add (hn : n ∣ 2 ^ w) (i : Nat) :
    (r + BitVec.ofNat w i).toNat % n = (r.toNat + i) % n := by
  rw [BitVec.toNat_add, BitVec.toNat_ofNat, Nat.mod_mod_of_dvd _ hn, Nat.add_mod,
    Nat.mod_mod_of_dvd _ hn, ← Nat.add_mod]

/-- The cells of two counters that are less than `n` steps apart differ. -/
theorem cell_ne (hn : n ∣ 2 ^ w) {i : Nat} (hik : i < k) (hk : k < n) :
    (r + BitVec.ofNat w i).toNat % n ≠ (r + BitVec.ofNat w k).toNat % n := by
  rw [cell_add hn, cell_add hn]
  intro h
  have hmod : Nat.ModEq n i k := Nat.ModEq.add_left_cancel' r.toNat h
  rw [Nat.ModEq, Nat.mod_eq_of_lt (hik.trans hk), Nat.mod_eq_of_lt hk] at hmod
  omega

/-- A store in the cell after the slice. -/
theorem slice_update (hn : n ∣ 2 ^ w) (hk : k < n) (x : α) :
    slice n (update data ((r + BitVec.ofNat w k).toNat % n) x) r k = slice n data r k := by
  refine map_congr_left fun i hi => ?_
  exact update_of_ne (cell_ne hn (mem_range.mp hi) hk) _ _

/-! ## Queues -/

theorem queue_push (hn : n ∣ 2 ^ w) (hlt : n < 2 ^ w) (h : (e - r).toNat < n) (x : α) :
    queue n (update data (e.toNat % n) x) r (e + 1) = queue n data r e ++ [x] := by
  have hkeep : slice n (update data ((r + BitVec.ofNat w (e - r).toNat).toNat % n) x) r
      (e - r).toNat = slice n data r (e - r).toNat := slice_update hn h x
  rw [counter_add_sub] at hkeep
  rw [queue, toNat_succ_sub (by omega), slice_succ, counter_add_sub, hkeep, update_self, queue]

theorem queue_pop (h : r ≠ e) :
    queue n data r e = data (r.toNat % n) :: queue n data (r + 1) e := by
  have hpos : (e - r).toNat ≠ 0 := fun h0 => h (toNat_sub_eq_zero.mp h0)
  obtain ⟨k, hk⟩ := Nat.exists_eq_succ_of_ne_zero hpos
  rw [queue, hk, slice_succ', queue, toNat_sub_succ h, hk, Nat.succ_sub_one]

theorem queue_unpush (h : r ≠ e) :
    queue n data r e = queue n data r (e - 1) ++ [data ((e - 1).toNat % n)] := by
  have hpos : (e - r).toNat ≠ 0 := fun h0 => h (toNat_sub_eq_zero.mp h0)
  have hback : (e - 1 - r).toNat = (e - r).toNat - 1 := by
    rw [← toNat_sub_succ h]
    congr 1
    rw [BitVec.sub_eq_add_neg, BitVec.sub_eq_add_neg, BitVec.sub_eq_add_neg, BitVec.neg_add,
      BitVec.sub_eq_add_neg, BitVec.add_assoc, BitVec.add_comm (-1)]
  obtain ⟨k, hk⟩ := Nat.exists_eq_succ_of_ne_zero hpos
  have hcell : r + BitVec.ofNat w k = e - 1 := by
    rw [← counter_add_sub r (e - 1), hback, hk, Nat.succ_sub_one]
  rw [queue, hk, slice_succ, hcell, queue, hback, hk, Nat.succ_sub_one]

end SummerOsk.Lib
