import SummerOsk.Fs.Defs
import SummerOsk.Lib.Alloc

/-!
# The layout of the disk

Where the inodes and the bitmap lie, how a dinode is stored in its block, and
which places of the inodes refer to which blocks.  `Geometry` is what the
superblock has to satisfy: the inode blocks, the bitmap and the data blocks do
not overlap.  It is what `mkfs` computes.

Everything here is about a function from block numbers to blocks, so that it
applies to `cache` and to `disk`.
-/

namespace SummerOsk.Fs

open Lib Log Function

/-! ## Dinodes -/

/-- The fields are in the ranges of their C types. -/
structure Dinode.Fits (d : Dinode) : Prop where
  type : d.type.bmod (2 ^ 16) = d.type
  major : d.major.bmod (2 ^ 16) = d.major
  minor : d.minor.bmod (2 ^ 16) = d.minor
  nlink : d.nlink.bmod (2 ^ 16) = d.nlink
  size_lt : d.size < 2 ^ 32
  addrs : ∀ j, d.addrs j < 2 ^ 32
  addrs_zero : ∀ j, NDIRECT < j → d.addrs j = 0

/-- And the file is not larger than `MAXFILE` blocks. -/
structure Dinode.Ok (d : Dinode) : Prop extends d.Fits where
  size : d.size ≤ MAXFILE * BSIZE
  size_lt := lt_of_le_of_lt size (by decide)

variable {d : Dinode} {n j o b inum' b' : Nat}

theorem Dinode.Ok.withSize (h : d.Ok) (hn : n ≤ MAXFILE * BSIZE) : Dinode.Ok { d with size := n } :=
  { h with size := hn, size_lt := lt_of_le_of_lt hn (by decide) }

theorem zeroDinode_ok : zeroDinode.Ok where
  type := by decide
  major := by decide
  minor := by decide
  nlink := by decide
  size := by decide
  addrs _ := by
    show 0 < 2 ^ 32
    decide
  addrs_zero _ _ := rfl

theorem getDinode_zeroBlock (k : Nat) : getDinode zeroBlock k = zeroDinode := by
  have hint : ∀ o, getInt zeroBlock o 2 = 0 := fun o => by
    simp [getInt, getLE, zeroBlock]
  simp [getDinode, hint, getLE, zeroBlock, zeroDinode]

theorem putAddrs_of_not_mem (x : Block) (k : Nat) (addrs : Nat → Nat)
    (h : o < 64 * k + 12 + 4 * j ∨ 64 * k + 12 + 4 * (j + n) ≤ o) :
    putAddrs x k j addrs n o = x o := by
  induction n generalizing x j with
  | zero => rfl
  | succ n ih =>
    rw [putAddrs, ih _ (by omega)]
    exact putLE_of_not_mem x _ (by omega)

theorem getLE_putAddrs (x : Block) (k : Nat) (addrs : Nat → Nat) {i : Nat} (hij : j ≤ i)
    (hin : i < j + n) :
    getLE (putAddrs x k j addrs n) (64 * k + 12 + 4 * i) 4 = addrs i % 256 ^ 4 := by
  induction n generalizing x j with
  | zero => omega
  | succ n ih =>
    rw [putAddrs]
    rcases Nat.eq_or_lt_of_le hij with rfl | hlt
    · have hkeep : getLE (putAddrs (putLE x (64 * k + 12 + 4 * j) 4 (addrs j)) k (j + 1) addrs n)
          (64 * k + 12 + 4 * j) 4 =
          getLE (putLE x (64 * k + 12 + 4 * j) 4 (addrs j)) (64 * k + 12 + 4 * j) 4 :=
        getLE_congr fun o _ ho => putAddrs_of_not_mem _ k addrs (by omega)
      rw [hkeep, getLE_putLE]
    · exact ih _ hlt (by omega)

theorem putDinode_of_not_mem (x : Block) (k : Nat) (d : Dinode) (h : o < 64 * k ∨ 64 * k + 64 ≤ o) :
    putDinode x k d o = x o := by
  unfold putDinode
  rw [putAddrs_of_not_mem _ k d.addrs (by simp only [NDIRECT]; omega)]
  rw [putLE_of_not_mem _ _ (by omega)]
  simp only [putInt]
  rw [putLE_of_not_mem _ _ (by omega), putLE_of_not_mem _ _ (by omega),
    putLE_of_not_mem _ _ (by omega), putLE_of_not_mem _ _ (by omega)]

/-- The slots are stored over whatever was there. -/
theorem putAddrs_congr {x y : Block} (k : Nat) (addrs : Nat → Nat)
    (h : ∀ o, o < 64 * k + 12 + 4 * j ∨ 64 * k + 12 + 4 * (j + n) ≤ o → x o = y o) :
    putAddrs x k j addrs n = putAddrs y k j addrs n := by
  induction n generalizing x y j with
  | zero => exact funext fun o => h o (by omega)
  | succ n ih =>
    refine ih fun o ho => putLE_congr _ fun hout => ?_
    exact h o (by omega)

/-- The last of two dinodes stored at one place stays. -/
theorem putDinode_putDinode (x : Block) (k : Nat) (d d' : Dinode) :
    putDinode (putDinode x k d) k d' = putDinode x k d' := by
  refine putAddrs_congr k d'.addrs fun o ho => ?_
  simp only [NDIRECT] at ho
  iterate 5 refine putLE_congr _ fun _ => ?_
  exact putDinode_of_not_mem x k d (by omega)

/-- The other dinodes of the block stay. -/
theorem getDinode_putDinode_of_ne (x : Block) {k k' : Nat} (d : Dinode) (h : k' ≠ k) :
    getDinode (putDinode x k d) k' = getDinode x k' := by
  have hmem : ∀ o, 64 * k' ≤ o → o < 64 * k' + 64 → putDinode x k d o = x o :=
    fun o _ _ => putDinode_of_not_mem x k d (by omega)
  have hint : ∀ o, o + 2 ≤ 64 →
      getInt (putDinode x k d) (64 * k' + o) 2 = getInt x (64 * k' + o) 2 :=
    fun o ho => getInt_congr fun i _ _ => hmem i (by omega) (by omega)
  have hword : ∀ o, o + 4 ≤ 64 →
      getLE (putDinode x k d) (64 * k' + o) 4 = getLE x (64 * k' + o) 4 :=
    fun o ho => getLE_congr fun i _ _ => hmem i (by omega) (by omega)
  simp only [getDinode, Dinode.mk.injEq]
  refine ⟨?_, ?_, ?_, ?_, ?_, ?_⟩
  · exact hint 0 (by omega)
  · exact hint 2 (by omega)
  · exact hint 4 (by omega)
  · exact hint 6 (by omega)
  · exact hword 8 (by omega)
  · funext j
    by_cases hj : j ≤ NDIRECT
    · rw [if_pos hj, if_pos hj]
      have hj' : j ≤ 12 := hj
      have := hword (12 + 4 * j) (by omega)
      rwa [← Nat.add_assoc] at this
    · rw [if_neg hj, if_neg hj]

theorem getInt_putLE_of_disjoint (m : Bytes) {w o' w' : Nat} (x : Nat)
    (h : o' + w' ≤ o ∨ o + w ≤ o') : getInt (putLE m o w x) o' w' = getInt m o' w' := by
  rw [getInt, getInt, getLE_putLE_of_disjoint m x h]

/-- A dinode reads back as it was stored. -/
theorem getDinode_putDinode (x : Block) (k : Nat) (h : d.Fits) :
    getDinode (putDinode x k d) k = d := by
  have haddrs : ∀ (y : Block) (o w : Nat), o + w ≤ 64 * k + 12 →
      getLE (putAddrs y k 0 d.addrs (NDIRECT + 1)) o w = getLE y o w :=
    fun y o w how => getLE_congr fun i _ _ => putAddrs_of_not_mem y k d.addrs (by omega)
  have hint : ∀ (y : Block) (o w : Nat), o + w ≤ 64 * k + 12 →
      getInt (putAddrs y k 0 d.addrs (NDIRECT + 1)) o w = getInt y o w :=
    fun y o w how => by rw [getInt, getInt, haddrs y o w how]
  have hrange : 256 ^ 4 = 2 ^ 32 := by norm_num
  have hsize : d.size < 256 ^ 4 := by
    exact h.size_lt
  unfold getDinode putDinode
  cases d with
  | mk type major minor nlink size addrs =>
    simp only [Dinode.mk.injEq]
    refine ⟨?_, ?_, ?_, ?_, ?_, ?_⟩
    · rw [hint _ _ _ (by omega), getInt_putLE_of_disjoint _ _ (by omega)]
      rw [putInt, getInt_putLE_of_disjoint _ _ (by omega)]
      rw [putInt, getInt_putLE_of_disjoint _ _ (by omega)]
      rw [putInt, getInt_putLE_of_disjoint _ _ (by omega), getInt_putInt]
      exact h.type
    · rw [hint _ _ _ (by omega), getInt_putLE_of_disjoint _ _ (by omega)]
      rw [putInt, getInt_putLE_of_disjoint _ _ (by omega)]
      rw [putInt, getInt_putLE_of_disjoint _ _ (by omega), getInt_putInt]
      exact h.major
    · rw [hint _ _ _ (by omega), getInt_putLE_of_disjoint _ _ (by omega)]
      rw [putInt, getInt_putLE_of_disjoint _ _ (by omega), getInt_putInt]
      exact h.minor
    · rw [hint _ _ _ (by omega), getInt_putLE_of_disjoint _ _ (by omega), getInt_putInt]
      exact h.nlink
    · rw [haddrs _ _ _ (by omega), getLE_putLE]
      exact Nat.mod_eq_of_lt hsize
    · funext j
      by_cases hj : j ≤ NDIRECT
      · rw [if_pos hj, getLE_putAddrs _ k addrs (Nat.zero_le j) (by omega),
          hrange, Nat.mod_eq_of_lt (h.addrs j)]
      · rw [if_neg hj]
        exact (h.addrs_zero j (by omega)).symm

/-! ## The regions -/

/-- The number of blocks before the data blocks. -/
def Superblock.nmeta (sb : Superblock) : Nat := sb.size - sb.nblocks

structure Geometry (sb : Superblock) : Prop where
  inodes : sb.inodestart + sb.ninodes / IPB + 1 ≤ sb.bmapstart
  bitmap : sb.bmapstart + sb.size / BPB + 1 ≤ sb.nmeta
  small : sb.size < 2 ^ 31
  root : 1 < sb.ninodes

variable {sb : Superblock}

theorem Geometry.bmapstart_lt (h : Geometry sb) : sb.bmapstart < sb.nmeta :=
  lt_of_lt_of_le (Nat.lt_succ_of_le (Nat.le_add_right _ _)) h.bitmap

theorem Geometry.iblock_lt (h : Geometry sb) {inum : Nat} (hi : inum < sb.ninodes) :
    sb.iblock inum < sb.bmapstart := by
  have hle : inum / IPB ≤ sb.ninodes / IPB := Nat.div_le_div_right hi.le
  have := h.inodes
  unfold Superblock.iblock
  omega

theorem Superblock.le_bblock (sb : Superblock) (b : Nat) : sb.bmapstart ≤ sb.bblock b :=
  Nat.le_add_left _ _

theorem Geometry.bblock_lt (h : Geometry sb) (hb : b < sb.size) : sb.bblock b < sb.nmeta := by
  have hle : b / BPB ≤ sb.size / BPB := Nat.div_le_div_right hb.le
  have := h.bitmap
  unfold Superblock.bblock
  omega

theorem Geometry.iblock_lt_nmeta (h : Geometry sb) {inum : Nat} (hi : inum < sb.ninodes) :
    sb.iblock inum < sb.nmeta := by
  exact (h.iblock_lt hi).trans h.bmapstart_lt

theorem Geometry.iblock_ne_bblock (h : Geometry sb) {inum : Nat} (hi : inum < sb.ninodes)
    (b : Nat) : sb.iblock inum ≠ sb.bblock b := by
  have := h.iblock_lt hi
  have := sb.le_bblock b
  omega

theorem Geometry.nmeta_pos (h : Geometry sb) : 0 < sb.nmeta :=
  lt_of_le_of_lt (Nat.zero_le _) h.bmapstart_lt

/-- The dinode of inode `inum`. -/
def dinodeAt (sb : Superblock) (C : Nat → Block) (inum : Nat) : Dinode :=
  getDinode (C (sb.iblock inum)) (inum % IPB)

/-- The bitmap bit of block `b`. -/
def usedBit (sb : Superblock) (C : Nat → Block) (b : Nat) : Bool :=
  getBit (C (sb.bblock b)) (b % BPB)

variable {C : Nat → Block} {x : Nat}

theorem dinodeAt_update_of_ne {inum : Nat} (x : Block) (h : sb.iblock inum ≠ b) :
    dinodeAt sb (update C b x) inum = dinodeAt sb C inum := by
  rw [dinodeAt, update_of_ne h, dinodeAt]

theorem dinodeAt_putDinode_of_ne (C : Nat → Block) {inum : Nat} (d : Dinode) (hne : inum' ≠ inum) :
    dinodeAt sb (update C (sb.iblock inum)
      (putDinode (C (sb.iblock inum)) (inum % IPB) d)) inum' = dinodeAt sb C inum' := by
  by_cases hblock : sb.iblock inum' = sb.iblock inum
  · have hmod : inum' % IPB ≠ inum % IPB := by
      intro hmod
      have hdiv : inum' / IPB = inum / IPB := by
        unfold Superblock.iblock at hblock
        omega
      exact hne (by rw [← Nat.div_add_mod inum' IPB, hdiv, hmod, Nat.div_add_mod])
    rw [dinodeAt, hblock, update_self, getDinode_putDinode_of_ne _ _ hmod, dinodeAt, hblock]
  · exact dinodeAt_update_of_ne _ hblock

theorem dinodeAt_putDinode (C : Nat → Block) {inum : Nat} (inum' : Nat) (h : d.Fits) :
    dinodeAt sb (update C (sb.iblock inum)
      (putDinode (C (sb.iblock inum)) (inum % IPB) d)) inum' =
      if inum' = inum then d else dinodeAt sb C inum' := by
  split_ifs with heq
  · subst heq
    rw [dinodeAt, update_self, getDinode_putDinode _ _ h]
  · exact dinodeAt_putDinode_of_ne C d heq

theorem usedBit_update_of_ne (x : Block) (h : sb.bblock b' ≠ b) :
    usedBit sb (update C b x) b' = usedBit sb C b' := by
  rw [usedBit, update_of_ne h, usedBit]

theorem eq_of_bblock_eq (h : sb.bblock b' = sb.bblock b) (hmod : b' % BPB = b % BPB) : b' = b := by
  have hdiv : b' / BPB = b / BPB := by
    unfold Superblock.bblock at h
    omega
  rw [← Nat.div_add_mod b' BPB, hdiv, hmod, Nat.div_add_mod]

theorem usedBit_setBit (C : Nat → Block) (b b' : Nat) :
    usedBit sb (update C (sb.bblock b) (setBit (C (sb.bblock b)) (b % BPB))) b' =
      (decide (b' = b) || usedBit sb C b') := by
  by_cases h : sb.bblock b' = sb.bblock b
  · have hiff : b' % BPB = b % BPB ↔ b' = b := ⟨eq_of_bblock_eq h, fun he => by rw [he]⟩
    rw [usedBit, h, update_self, getBit_setBit, usedBit, h]
    simp only [hiff]
  · have hne : b' ≠ b := fun he => h (by rw [he])
    rw [usedBit_update_of_ne _ h]
    simp [hne]

theorem usedBit_clearBit (C : Nat → Block) (b b' : Nat) :
    usedBit sb (update C (sb.bblock b) (clearBit (C (sb.bblock b)) (b % BPB))) b' =
      (!decide (b' = b) && usedBit sb C b') := by
  by_cases h : sb.bblock b' = sb.bblock b
  · have hiff : b' % BPB = b % BPB ↔ b' = b := ⟨eq_of_bblock_eq h, fun he => by rw [he]⟩
    rw [usedBit, h, update_self, getBit_clearBit, usedBit, h]
    simp only [hiff]
  · have hne : b' ≠ b := fun he => h (by rw [he])
    rw [usedBit_update_of_ne _ h]
    simp [hne]

/-! ## References -/

/-- The places that refer to blocks. -/
inductive Place where
  /-- A direct slot of an inode. -/
  | direct (inum i : Nat)
  /-- The indirect pointer of an inode. -/
  | indirect (inum : Nat)
  /-- An entry of the indirect block of an inode. -/
  | entry (inum j : Nat)
  deriving DecidableEq, Repr

def Place.inum : Place → Nat
  | .direct inum _ | .indirect inum | .entry inum _ => inum

/-- The slot of `addrs` through which a place is reached. -/
def Place.slot : Place → Nat
  | .direct _ i => i
  | .indirect _ | .entry _ _ => NDIRECT

/-- A block number, or no block. -/
def ptr (x : Nat) : Option Nat := if x = 0 then none else some x

@[simp] theorem ptr_zero : ptr 0 = none := rfl

theorem ptr_of_ne (h : x ≠ 0) : ptr x = some x := if_neg h

@[simp] theorem ptr_eq_some : ptr x = some b ↔ x = b ∧ x ≠ 0 := by
  unfold ptr
  split_ifs with h
  · simp [h]
  · simp [h]

@[simp] theorem ptr_eq_none : ptr x = none ↔ x = 0 := by
  unfold ptr
  split_ifs with h
  · simp [h]
  · simp [h]

/-- The block that each place refers to, for inodes with the dinodes `A` on a
disk with the blocks `C`. -/
def refOf (n : Nat) (A : Nat → Dinode) (C : Nat → Block) : Place → Option Nat
  | .direct inum i => if inum < n ∧ i < NDIRECT then ptr ((A inum).addrs i) else none
  | .indirect inum => if inum < n then ptr ((A inum).addrs NDIRECT) else none
  | .entry inum j =>
    if inum < n ∧ j < NINDIRECT then
      (ptr ((A inum).addrs NDIRECT)).bind fun ib => ptr (getLE (C ib) (4 * j) 4)
    else none

/-- The place of block `bn` of an inode. -/
def place (inum bn : Nat) : Place :=
  if bn < NDIRECT then .direct inum bn else .entry inum (bn - NDIRECT)

theorem place_inj {inum bn bn' : Nat} (h : place inum bn = place inum' bn') :
    inum = inum' ∧ bn = bn' := by
  unfold place at h
  split_ifs at h with h1 h2 h2
  · cases h
    exact ⟨rfl, rfl⟩
  · rw [Place.entry.injEq] at h
    omega

theorem place_ne_indirect (inum bn inum' : Nat) : place inum bn ≠ .indirect inum' := by
  unfold place
  split_ifs <;> simp

@[simp] theorem place_inum (inum bn : Nat) : (place inum bn).inum = inum := by
  unfold place
  split_ifs <;> rfl

/-- No block is referred to from two places, and the bitmap marks the blocks
before the data blocks and those referred to. -/
def Owned (sb : Superblock) (A : Nat → Dinode) (C : Nat → Block) : Prop :=
  Allocated (· < sb.size) (· < sb.nmeta) (fun b => usedBit sb C b = true)
    (refOf sb.ninodes A C)

end SummerOsk.Fs
