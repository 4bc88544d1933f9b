import SummerOsk.Lib.Bytes

/-!
# The two memmoves

`memmove` of `kernel/string.c` copies downwards when the destination begins
inside the source.  `memmove` of `user/ulib.c` always copies upwards, so that a
destination of this kind repeats the bytes before it, and its length is an `int`.
-/

namespace SummerOsk

open Lib Function

variable {m : Bytes} {d s n : Nat}

/-- `while(n-- > 0) *d++ = *s++;` -/
def copyUp (m : Bytes) (d s : Nat) : Nat → Bytes
  | 0 => m
  | n + 1 => copyUp (update m d (m s)) (d + 1) (s + 1) n

/-- `while(n-- > 0) *--d = *--s;` -/
def copyDown (m : Bytes) (d s : Nat) : Nat → Bytes
  | 0 => m
  | n + 1 => copyDown (update m (d - 1) (m (s - 1))) (d - 1) (s - 1) n

/-- `memmove` of the kernel, with a `uint` for the length. -/
def Kernel.memmove (m : Bytes) (dst src : Nat) (n : BitVec 32) : Bytes :=
  let k := n.toNat
  if src < dst ∧ src + k > dst then copyDown m (dst + k) (src + k) k else copyUp m dst src k

/-- `memmove` of the user library, with an `int` for the length. -/
def Ulib.memmove (m : Bytes) (dst src : Nat) (n : BitVec 32) : Bytes :=
  copyUp m dst src n.toInt.toNat

/-- The destination holds what the source held, and nothing else has changed. -/
structure Moved (m m' : Bytes) (dst src n : Nat) : Prop where
  copied : ∀ i < n, m' (dst + i) = m (src + i)
  frame : ∀ a, a < dst ∨ dst + n ≤ a → m' a = m a

theorem copyUp_frame {a : Nat} (ha : a < d ∨ d + n ≤ a) : copyUp m d s n a = m a := by
  induction n generalizing m d s with
  | zero => rfl
  | succ n ih => rw [copyUp, ih (by omega), update_of_ne (by omega)]

/-- Copying from the first byte on, to a place before the source. -/
theorem copyUp_moved (h : d ≤ s) : Moved m (copyUp m d s n) d s n := by
  refine ⟨fun i hi => ?_, fun a ha => copyUp_frame ha⟩
  induction n generalizing m d s i with
  | zero => omega
  | succ n ih =>
    rw [copyUp]
    cases i with
    | zero => exact (copyUp_frame (by omega)).trans (update_self ..)
    | succ i =>
      have hrest := ih (m := update m d (m s)) (Nat.succ_le_succ h) i (by omega)
      rw [update_of_ne (by omega)] at hrest
      rw [← Nat.add_assoc, ← Nat.add_assoc, Nat.add_right_comm d, Nat.add_right_comm s]
      exact hrest

/-- Copying upwards to a place behind the source, each byte of the destination is
the one at the same distance before it. -/
theorem copyUp_repeats (h : s < d) {i : Nat} (hi : i < n) :
    copyUp m d s n (d + i) = copyUp m d s n (s + i) := by
  induction n generalizing m d s i with
  | zero => omega
  | succ n ih =>
    rw [copyUp]
    cases i with
    | zero =>
      rw [copyUp_frame (by omega), copyUp_frame (by omega)]
      exact (update_self ..).trans (update_of_ne h.ne ..).symm
    | succ i =>
      rw [← Nat.add_assoc, ← Nat.add_assoc, Nat.add_right_comm d, Nat.add_right_comm s]
      exact ih (Nat.succ_lt_succ h) (by omega)

/-- Then it is right exactly when the source has the distance as a period. -/
theorem copyUp_moved_iff (h : s < d) : Moved m (copyUp m d s n) d s n ↔
    ∀ i, i + (d - s) < n → m (s + i + (d - s)) = m (s + i) := by
  have hshift : ∀ i, s + (i + (d - s)) = d + i := fun i => by omega
  constructor
  · intro hmoved i hi
    calc m (s + i + (d - s)) = copyUp m d s n (d + (i + (d - s))) := by
          rw [Nat.add_assoc, hmoved.copied _ hi]
      _ = copyUp m d s n (d + i) := by rw [copyUp_repeats h hi, hshift]
      _ = m (s + i) := hmoved.copied i (by omega)
  · intro hperiod
    refine ⟨fun i hi => ?_, fun a ha => copyUp_frame ha⟩
    induction i using Nat.strong_induction_on with
    | h i ih =>
      rw [copyUp_repeats h hi]
      by_cases hlt : s + i < d
      · exact copyUp_frame (.inl hlt)
      · obtain ⟨j, rfl⟩ : ∃ j, i = j + (d - s) := ⟨i - (d - s), by omega⟩
        rw [hshift, ih j (by omega) (by omega), ← hperiod j hi, Nat.add_assoc, hshift]

theorem copyDown_moved (h : s < d) : Moved m (copyDown m (d + n) (s + n) n) d s n := by
  induction n generalizing m with
  | zero => exact ⟨fun i hi => absurd hi (Nat.not_lt_zero i), fun _ _ => rfl⟩
  | succ n ih =>
    have hrest := ih (m := update m (d + n) (m (s + n)))
    refine ⟨fun i hi => ?_, fun a ha => ?_⟩
    · by_cases hlast : i = n
      · rw [hlast]
        exact (hrest.frame _ (.inr le_rfl)).trans (update_self ..)
      · exact (hrest.copied i (by omega)).trans (update_of_ne (by omega) ..)
    · exact (hrest.frame a (by omega)).trans (update_of_ne (by omega) ..)

/-- The memmove of the kernel is right for every overlap. -/
theorem Kernel.memmove_moved (m : Bytes) (dst src : Nat) (n : BitVec 32) :
    Moved m (memmove m dst src n) dst src n.toNat := by
  unfold memmove
  dsimp only
  split_ifs with h
  · exact copyDown_moved h.1
  · by_cases hle : dst ≤ src
    · exact copyUp_moved hle
    · exact (copyUp_moved_iff (by omega)).mpr fun i hi => by omega

/-- When the memmove of the user library is right: the length is not negative, and
the destination does not begin inside the source unless the bytes there repeat at
this distance.  With a negative length it does nothing. -/
def Ulib.CopyRight (m : Bytes) (dst src : Nat) (n : BitVec 32) : Prop :=
  if n.toNat < 2 ^ 31 then
    dst ≤ src ∨ ∀ i, i + (dst - src) < n.toNat → m (src + i + (dst - src)) = m (src + i)
  else ∀ i < n.toNat, m (dst + i) = m (src + i)

theorem Ulib.memmove_moved_iff (m : Bytes) (dst src : Nat) (n : BitVec 32) :
    Moved m (memmove m dst src n) dst src n.toNat ↔ CopyRight m dst src n := by
  unfold memmove CopyRight
  split_ifs with hn
  · have hlen : n.toInt.toNat = n.toNat := by
      rw [BitVec.toInt_eq_toNat_of_lt (by omega), Int.toNat_natCast]
    rw [hlen]
    by_cases hle : dst ≤ src
    · exact iff_of_true (copyUp_moved hle) (.inl hle)
    · rw [copyUp_moved_iff (by omega), or_iff_right hle]
  · have hlen : n.toInt.toNat = 0 := by
      rw [BitVec.toInt_eq_toNat_cond, if_neg (by omega)]
      omega
    rw [hlen]
    exact ⟨fun h => h.copied, fun h => ⟨h, fun _ _ => rfl⟩⟩

/-- Both are right exactly when that of the user library is. -/
theorem memmoves_moved_iff (m : Bytes) (dst src : Nat) (n : BitVec 32) :
    Moved m (Kernel.memmove m dst src n) dst src n.toNat ∧
      Moved m (Ulib.memmove m dst src n) dst src n.toNat ↔ Ulib.CopyRight m dst src n := by
  rw [Ulib.memmove_moved_iff]
  exact and_iff_right (Kernel.memmove_moved m dst src n)

/-- Two bytes moved up by one: the user library writes the first of them twice. -/
theorem ulib_memmove_repeats :
    ¬ Moved (fun a => UInt8.ofNat a) (Ulib.memmove (fun a => UInt8.ofNat a) 1 0 2) 1 0 2 := by
  intro h
  have hlast := h.copied 1 (by decide)
  revert hlast
  decide

end SummerOsk
