import SummerOsk.Trace.Defs
import SummerOsk.Vm.UserCopy

/-!
# Strings in buffers

What `copyinstr` stores, and what reading a string or a number of bytes from a
buffer gives.  A buffer that is large enough holds the string of the user, and
nothing that was in the buffer before can be seen.
-/

namespace SummerOsk.Trace

open Lib List

variable {mem : Nat → Option UInt8} {va i max k : Nat} {b dst : Buf}

/-- A buffer after bytes were stored from index `i` on. -/
def Buf.put (b : Buf) (i : Nat) (bs : List UInt8) : Buf := { b with data := putBytes b.data i bs }

theorem Buf.put_nil (b : Buf) (i : Nat) : b.put i [] = b := by
  rw [put, putBytes_nil]

theorem Buf.put_cons (b : Buf) (i : Nat) (x : UInt8) (bs : List UInt8) :
    b.put i (x :: bs) = Buf.put { b with data := Function.update b.data i x } (i + 1) bs := by
  rw [put, putBytes_cons, put]

/-- `copyinstr` stores a run of bytes, if the buffer has room for it. -/
theorem copyinstrFrom_eq (hi : i ≤ dst.len) :
    copyinstrFrom mem va i max dst =
      if i + (copied mem va max).length ≤ dst.len then
        .ok (dst.put i (copied mem va max), decide (0 ∈ copied mem va max))
      else .error (.outOfBounds dst.name dst.len) := by
  induction max generalizing va i dst with
  | zero =>
    rw [copyinstrFrom, copied, if_pos (by exact hi), Buf.put_nil]
    rfl
  | succ max ih =>
    rw [copyinstrFrom]
    rcases byte_cases mem va with h | h | ⟨x, h, hx⟩
    · rw [h, copied_none h, if_pos (by exact hi), Buf.put_nil]
      rfl
    · rw [h, copied_zero h]
      simp only [Buf.store]
      by_cases hlt : i < dst.len
      · rw [if_pos hlt, if_pos (by exact hlt), Buf.put_cons, Buf.put_nil]
        rfl
      · rw [if_neg hlt, if_neg (by exact hlt), Nat.le_antisymm hi (Nat.not_lt.mp hlt)]
        rfl
    · rw [h, copied_succ h hx]
      simp only [Buf.store]
      by_cases hlt : i < dst.len
      · rw [if_pos hlt]
        simp only [bind, Except.bind]
        rw [if_neg hx, ih (by exact hlt), length_cons, Buf.put_cons]
        have hzero : (0 ∈ x :: copied mem (va + 1) max) ↔ 0 ∈ copied mem (va + 1) max := by
          rw [mem_cons]
          exact or_iff_right fun he => hx he.symm
        rw [decide_eq_decide.mpr hzero]
        refine if_congr ?_ rfl rfl
        show i + 1 + _ ≤ dst.len ↔ _
        omega
      · rw [if_neg hlt, if_neg (by rw [length_cons]; omega),
          Nat.le_antisymm hi (Nat.not_lt.mp hlt)]
        rfl

/-- On the memory of a page table it is `copyinstr` of `vm.c`, with the array that
the bytes go to. -/
theorem copyinstrFrom_of_copyinstr {m m' : Vm.Mem} {pt : Nat} {bs : List UInt8} {ok : Bool}
    (h : Vm.copyinstr pt va max m = .ok ((bs, ok), m')) :
    copyinstrFrom (m.user pt) va 0 max dst =
      if bs.length ≤ dst.len then .ok (dst.put 0 bs, ok)
      else .error (.outOfBounds dst.name dst.len) := by
  rw [Vm.copyinstr_eq] at h
  cases h
  rw [copyinstrFrom_eq (Nat.zero_le _), Nat.zero_add]

/-- The bytes before the NUL. -/
def userStr (mem : Nat → Option UInt8) (va max : Nat) : Option (List UInt8) :=
  if 0 ∈ copied mem va max then some ((copied mem va max).takeWhile (· ≠ 0)) else none

/-- A string in a buffer. -/
theorem strFrom_eq {s : List UInt8} (hs : ∀ x ∈ s, x ≠ 0)
    (hdata : ∀ j < s.length, b.data (i + j) = s.getD j 0) (hend : b.data (i + s.length) = 0)
    (hlen : i + s.length < b.len) (hk : s.length < k) : b.strFrom i k = .ok s := by
  induction s generalizing i k with
  | nil =>
    obtain ⟨k, rfl⟩ := Nat.exists_eq_succ_of_ne_zero (Nat.ne_of_gt hk)
    have hload : b.load i = .ok 0 := by
      rw [Buf.load, if_pos (by exact hlen)]
      exact congrArg _ hend
    rw [Buf.strFrom, hload]
    rfl
  | cons x s ih =>
    rw [length_cons] at hdata hend hlen hk
    obtain ⟨k, rfl⟩ := Nat.exists_eq_succ_of_ne_zero (Nat.ne_of_gt (Nat.zero_lt_of_lt hk))
    have hload : b.load i = .ok x := by
      rw [Buf.load, if_pos (by omega)]
      exact congrArg _ (hdata 0 (Nat.zero_lt_succ _))
    have hrest := ih (i := i + 1) (k := k) (fun y hy => hs y (mem_cons_of_mem x hy))
      (fun j hj => by rw [Nat.add_right_comm i 1 j]; exact hdata (j + 1) (by omega))
      (by rw [Nat.add_right_comm]; exact hend) (by omega) (by omega)
    rw [Buf.strFrom, hload]
    simp only [bind, Except.bind, hrest]
    rw [if_neg (hs x mem_cons_self)]
    rfl

/-- A buffer holds the string that was copied into it. -/
theorem str_put_copied (h : 0 ∈ copied mem va max) (hlen : (copied mem va max).length ≤ b.len) :
    (b.put 0 (copied mem va max)).str = .ok ((copied mem va max).takeWhile (· ≠ 0)) := by
  have hshape := copied_eq_of_mem h
  generalize hs : (copied mem va max).takeWhile (· ≠ 0) = s at hshape
  rw [hshape] at hlen ⊢
  rw [length_append, length_singleton] at hlen
  have hne : ∀ x ∈ s, x ≠ 0 := by
    intro x hx
    rw [← hs] at hx
    simpa using mem_takeWhile_imp hx
  refine strFrom_eq hne (fun j hj => ?_) ?_ (by rw [Nat.zero_add]; exact hlen) ?_
  · show putBytes b.data 0 (s ++ [0]) (0 + j) = _
    rw [Nat.zero_add, putBytes_of_mem _ _ (Nat.zero_le _) (by simp; omega), Nat.sub_zero,
      getD_append _ _ _ _ hj]
  · show putBytes b.data 0 (s ++ [0]) (0 + s.length) = 0
    rw [Nat.zero_add, putBytes_of_mem _ _ (Nat.zero_le _) (by simp), Nat.sub_zero,
      getD_append_right _ _ _ _ le_rfl, Nat.sub_self]
    rfl
  · show s.length < b.len + 1
    omega

/-- `fetchstr`, into a buffer with room for the string. -/
theorem fetchstr_eq {addr : BitVec 64} {n : Int} {w : List UInt8}
    (hw : copied mem addr.toNat (n % 2 ^ 64).toNat = w) :
    fetchstr mem addr b n =
      if w.length ≤ b.len then
        .ok (b.put 0 w, if 0 ∈ w then ((w.takeWhile (· ≠ 0)).length : Int) else -1)
      else .error (.outOfBounds b.name b.len) := by
  rw [fetchstr, copyinstrFrom_eq (Nat.zero_le _), hw, Nat.zero_add]
  by_cases hlen : w.length ≤ b.len
  · rw [if_pos hlen, if_pos hlen]
    simp only [bind, Except.bind]
    by_cases hmem : 0 ∈ w
    · have hstr := str_put_copied (b := b) (hw ▸ hmem) (hw ▸ hlen)
      rw [hw] at hstr
      simp only [hmem, decide_true, if_true, hstr]
      rfl
    · simp only [hmem, decide_false, if_false]
      rfl
  · rw [if_neg hlen, if_neg hlen]
    rfl

/-- `cprintfn` prints bytes of the buffer, if it has that many. -/
theorem cprintfnFrom_eq (hi : i ≤ b.len) :
    cprintfnFrom b i k =
      if i + k ≤ b.len then .ok ((getBytes b.data i k).flatMap cputcEncoded)
      else .error (.outOfBounds b.name b.len) := by
  induction k generalizing i with
  | zero =>
    rw [cprintfnFrom, if_pos (by exact hi)]
    rfl
  | succ k ih =>
    rw [cprintfnFrom, Buf.load]
    by_cases hlt : i < b.len
    · rw [if_pos hlt]
      simp only [bind, Except.bind]
      rw [ih hlt]
      by_cases hle : i + (k + 1) ≤ b.len
      · rw [if_pos hle, if_pos (by omega)]
        have hbytes : getBytes b.data i (k + 1) = b.data i :: getBytes b.data (i + 1) k := by
          simp [getBytes, range_succ_eq_map, Nat.add_assoc, Nat.add_comm 1]
        rw [hbytes]
        rfl
      · rw [if_neg hle, if_neg (by omega)]
    · rw [if_neg hlt, if_neg (by omega), Nat.le_antisymm hi (Nat.not_lt.mp hlt)]
      rfl

end SummerOsk.Trace
