import Mathlib.Tactic.Ring
import Mathlib.Tactic.IntervalCases

/-!
# Byte stores and little-endian words

A byte store is a total function from offsets to bytes.  A disk block, a page
of memory and the image of a C structure are all byte stores with a size that
the accesses stay below.

`getLE` and `putLE` read and write an unsigned word of any width.  The lemmas
say that a word reads back as what was written modulo its range
(`getLE_putLE`), that a word depends on its own bytes only (`getLE_congr`),
and that a write leaves the other words alone (`getLE_putLE_of_disjoint`).
`getInt` and `putInt` are the signed words, `getBit`, `setBit` and `clearBit`
the single bits, and `getBytes` and `putBytes` the runs of bytes.
-/

namespace SummerOsk.Lib

open Function List

/-- A byte store. -/
abbrev Bytes := Nat → UInt8

/-- The unsigned little-endian word of `w` bytes at offset `o`. -/
def getLE (m : Bytes) (o : Nat) : Nat → Nat
  | 0 => 0
  | w + 1 => (m o).toNat + 256 * getLE m (o + 1) w

/-- Store `x` as a little-endian word of `w` bytes at offset `o`.  The bits of
`x` above the word are dropped. -/
def putLE (m : Bytes) (o w x : Nat) : Bytes := fun i =>
  if o ≤ i ∧ i < o + w then UInt8.ofNat (x / 256 ^ (i - o)) else m i

variable {o k w i : Nat} {m m' : Bytes}

theorem putLE_of_not_mem (m : Bytes) (x : Nat) (h : i < o ∨ o + w ≤ i) : putLE m o w x i = m i := by
  rw [putLE, if_neg (by omega)]

theorem putLE_congr (x : Nat) (h : i < o ∨ o + w ≤ i → m i = m' i) :
    putLE m o w x i = putLE m' o w x i := by
  simp only [putLE]
  split_ifs
  · rfl
  · exact h (by omega)

/-- A word depends on its own bytes only. -/
theorem getLE_congr (h : ∀ i, o ≤ i → i < o + w → m i = m' i) : getLE m o w = getLE m' o w := by
  induction w generalizing o with
  | zero => rfl
  | succ w ih =>
    rw [getLE, getLE, h o (by omega) (by omega), ih (fun i hi hi' => h i (by omega) (by omega))]

theorem getLE_lt (m : Bytes) (o w : Nat) : getLE m o w < 256 ^ w := by
  induction w generalizing o with
  | zero => simp [getLE]
  | succ w ih =>
    have hb : (m o).toNat < 256 := (m o).toNat_lt
    have hrest := ih (o + 1)
    rw [getLE, Nat.pow_succ]
    omega

/-- A word reads back as what was written, modulo the range of the word. -/
@[simp] theorem getLE_putLE (m : Bytes) (o w x : Nat) :
    getLE (putLE m o w x) o w = x % 256 ^ w := by
  induction w generalizing m o x with
  | zero => simp [getLE, Nat.mod_one]
  | succ w ih =>
    have hhead : (putLE m o (w + 1) x o).toNat = x % 256 := by
      rw [putLE, if_pos (by omega)]
      simp
    have htail : getLE (putLE m o (w + 1) x) (o + 1) w =
        getLE (putLE m (o + 1) w (x / 256)) (o + 1) w := by
      apply getLE_congr
      intro i hi hi'
      have hsplit : x / 256 ^ (i - o) = x / 256 / 256 ^ (i - (o + 1)) := by
        rw [Nat.div_div_eq_div_mul, ← Nat.pow_succ']
        congr 2
        omega
      rw [putLE, if_pos (by omega), putLE, if_pos (by omega), hsplit]
    rw [getLE, hhead, htail, ih, Nat.pow_succ', Nat.mod_mul]

/-- A write leaves a disjoint word alone. -/
theorem getLE_putLE_of_disjoint (m : Bytes) {o' w' : Nat} (x : Nat) (h : o' + w' ≤ o ∨ o + w ≤ o') :
    getLE (putLE m o w x) o' w' = getLE m o' w' :=
  getLE_congr fun _ _ _ => putLE_of_not_mem m x (by omega)

/-- The signed little-endian word of `w` bytes at offset `o`. -/
def getInt (m : Bytes) (o w : Nat) : Int := (getLE m o w : Int).bmod (256 ^ w)

/-- A word below half its range reads the same signed and unsigned. -/
theorem getInt_of_lt (h : 2 * getLE m o w < 256 ^ w) : getInt m o w = getLE m o w := by
  unfold getInt
  exact Int.bmod_eq_of_le (by omega) (by omega)

theorem getInt_congr (h : ∀ i, o ≤ i → i < o + w → m i = m' i) : getInt m o w = getInt m' o w := by
  rw [getInt, getInt, getLE_congr h]

/-- Store `x` as a signed little-endian word of `w` bytes at offset `o`. -/
def putInt (m : Bytes) (o w : Nat) (x : Int) : Bytes :=
  putLE m o w (x % (256 ^ w : Nat)).toNat

theorem getInt_putInt (m : Bytes) (o w : Nat) (x : Int) :
    getInt (putInt m o w x) o w = x.bmod (256 ^ w) := by
  have hpos : (0 : Int) < (256 ^ w : Nat) := by
    have := Nat.pow_pos (n := w) (show 0 < 256 by decide)
    omega
  have hnonneg := Int.emod_nonneg x hpos.ne'
  rw [getInt, putInt, getLE_putLE, Int.natCast_mod, Int.toNat_of_nonneg hnonneg,
    Int.emod_emod_of_dvd _ (dvd_refl _), Int.emod_bmod]

/-! ## Bits -/

/-- Bit `i` of the store, from the lowest bit of byte 0 on. -/
def getBit (m : Bytes) (i : Nat) : Bool := (m (i / 8)).toNat.testBit (i % 8)

/-- `m[i/8] |= 1 << (i % 8)` -/
def setBit (m : Bytes) (i : Nat) : Bytes :=
  update m (i / 8) (m (i / 8) ||| 1 <<< UInt8.ofNat (i % 8))

/-- `m[i/8] &= ~(1 << (i % 8))` -/
def clearBit (m : Bytes) (i : Nat) : Bytes :=
  update m (i / 8) (m (i / 8) &&& ~~~(1 <<< UInt8.ofNat (i % 8)))

theorem testBit_or_shift (x : UInt8) (j : Nat) (hk : k < 8) :
    (x ||| 1 <<< UInt8.ofNat k).toNat.testBit j = (decide (j = k) || x.toNat.testBit j) := by
  have hshift : ((1 : UInt8) <<< UInt8.ofNat k).toNat = 2 ^ k := by
    interval_cases k <;> rfl
  rw [UInt8.toNat_or, Nat.testBit_or, hshift, Nat.testBit_two_pow, Bool.or_comm]
  congr 1
  simp [eq_comm]

theorem testBit_and_not_shift (x : UInt8) {j : Nat} (hj : j < 8) (hk : k < 8) :
    (x &&& ~~~(1 <<< UInt8.ofNat k)).toNat.testBit j = (!decide (j = k) && x.toNat.testBit j) := by
  have hshift : (~~~((1 : UInt8) <<< UInt8.ofNat k)).toNat.testBit j = !decide (j = k) := by
    interval_cases k <;> interval_cases j <;> rfl
  rw [UInt8.toNat_and, Nat.testBit_and, hshift, Bool.and_comm]

theorem getBit_setBit (m : Bytes) (i j : Nat) :
    getBit (setBit m i) j = (decide (j = i) || getBit m j) := by
  unfold getBit setBit
  by_cases h : j / 8 = i / 8
  · rw [h, update_self, testBit_or_shift _ _ (by omega)]
    congr 2
    apply propext
    omega
  · have hne : j ≠ i := fun he => h (by rw [he])
    rw [update_of_ne h]
    simp [hne]

theorem getBit_clearBit (m : Bytes) (i j : Nat) :
    getBit (clearBit m i) j = (!decide (j = i) && getBit m j) := by
  unfold getBit clearBit
  by_cases h : j / 8 = i / 8
  · rw [h, update_self, testBit_and_not_shift _ (by omega) (by omega)]
    congr 3
    apply propext
    omega
  · have hne : j ≠ i := fun he => h (by rw [he])
    rw [update_of_ne h]
    simp [hne]

/-! ## Runs of bytes -/

/-- The `n` bytes from offset `o`. -/
def getBytes (m : Bytes) (o n : Nat) : List UInt8 :=
  (List.range n).map fun i => m (o + i)

/-- Store a list of bytes from offset `o`. -/
def putBytes (m : Bytes) (o : Nat) (bs : List UInt8) : Bytes := fun i =>
  if o ≤ i ∧ i < o + bs.length then bs.getD (i - o) 0 else m i

@[simp] theorem getBytes_length (m : Bytes) (o n : Nat) : (getBytes m o n).length = n := by
  simp [getBytes]

theorem getBytes_getD {n : Nat} (h : i < n) : (getBytes m o n).getD i 0 = m (o + i) := by
  simp [getBytes, h]

theorem putBytes_of_not_mem (m : Bytes) (bs : List UInt8)
    (h : i < o ∨ o + bs.length ≤ i) : putBytes m o bs i = m i := by
  rw [putBytes, if_neg (by omega)]

theorem putBytes_of_mem (m : Bytes) (bs : List UInt8) (h : o ≤ i) (h' : i < o + bs.length) :
    putBytes m o bs i = bs.getD (i - o) 0 := by
  rw [putBytes, if_pos ⟨h, h'⟩]

theorem putBytes_nil (m : Bytes) (o : Nat) : putBytes m o [] = m :=
  funext fun _ => putBytes_of_not_mem m [] (by rw [length_nil]; omega)

/-- Bytes are stored one after the other. -/
theorem putBytes_cons (m : Bytes) (o : Nat) (x : UInt8) (bs : List UInt8) :
    putBytes m o (x :: bs) = putBytes (update m o x) (o + 1) bs := by
  funext i
  by_cases hin : o + 1 ≤ i ∧ i < o + 1 + bs.length
  · rw [putBytes_of_mem _ _ hin.1 hin.2,
      putBytes_of_mem _ _ (by omega) (by rw [length_cons]; omega)]
    obtain ⟨k, hk⟩ : ∃ k, i - o = k + 1 := ⟨i - o - 1, by omega⟩
    rw [hk, getD_cons_succ]
    congr 1
    omega
  · rw [putBytes_of_not_mem _ bs (by omega)]
    by_cases heq : i = o
    · rw [heq, update_self, putBytes_of_mem _ _ le_rfl (by rw [length_cons]; omega),
        Nat.sub_self, getD_cons_zero]
    · rw [update_of_ne heq, putBytes_of_not_mem _ _ (by rw [length_cons]; omega)]

end SummerOsk.Lib
