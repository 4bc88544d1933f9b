import SummerOsk.Mkfs.Defs

/-!
# Images

What a disk must look like for the file system to start from it, and the image
that `mkfs` writes when it is given no files.
-/

namespace SummerOsk.Fs

open Lib Log Function

/-- An image that a file system checker would accept: the regions do not
overlap, the dinodes are in range, a free one has no blocks, files have no
holes, directory entries name inodes of the disk, and the bitmap is right. -/
structure Image (sb : Superblock) (D : Nat → Block) : Prop where
  geom : Geometry sb
  ok : ∀ inum < sb.ninodes, (dinodeAt sb D inum).Ok
  free : ∀ inum < sb.ninodes, (dinodeAt sb D inum).type = 0 →
    ∀ j, (dinodeAt sb D inum).addrs j = 0
  whole : ∀ inum < sb.ninodes, ∀ bn, bn * BSIZE < (dinodeAt sb D inum).size →
    refOf sb.ninodes (dinodeAt sb D) D (place inum bn) ≠ none
  dirs : ∀ inum < sb.ninodes, (dinodeAt sb D inum).type = T_DIR → ∀ off b, off % 16 = 0 →
    off < (dinodeAt sb D inum).size →
    refOf sb.ninodes (dinodeAt sb D) D (place inum (off / BSIZE)) = some b →
    getLE (D b) (off % BSIZE) 2 < sb.ninodes
  owned : Owned sb (dinodeAt sb D) D

/-- The state of the file system after the boot: nothing is cached. -/
structure FsState.Boot (s : FsState) : Prop where
  image : Image s.sb s.disk
  cache : s.cache = s.disk
  refs : ∀ i < NINODE, (s.icache i).ref = 0

/-- The world after the boot. -/
structure World.Boot (w : World) : Prop where
  fs : w.fs.Boot
  files : w.files = []
  cwds : w.cwds = []
  stopped : w.stopped = none

/-! ## `mkfs` -/

/-- The inode of the root directory, with its size rounded up to a block. -/
def rootDinode : Dinode where
  type := T_DIR
  major := 0
  minor := 0
  nlink := 1
  size := BSIZE
  addrs := fun j => if j = 0 then Mkfs.sb.nmeta else 0

/-- The two entries of the root directory. -/
def rootEntries : Block :=
  putBytes (putBytes zeroBlock 0 (dirent ROOTINO dot)) 16 (dirent ROOTINO dotdot)

/-- The blocks of the root directory, as `iappend` and `winode` leave them. -/
def mkfsRoot : Nat → Block :=
  let D := update (update (fun _ => zeroBlock) 1 Mkfs.sbBlock) Mkfs.sb.nmeta rootEntries
  update D (Mkfs.sb.iblock ROOTINO)
    (putDinode (D (Mkfs.sb.iblock ROOTINO)) (ROOTINO % IPB) rootDinode)

/-- The disk that `mkfs` writes without files (`Mkfs.mkfsWorld_of_main`). -/
def mkfsDisk : Nat → Block :=
  update mkfsRoot Mkfs.sb.bmapstart (Mkfs.markUsed zeroBlock (Mkfs.sb.nmeta + 1))

/-- The kernel after the boot from that disk. -/
def mkfsWorld : World where
  fs := ⟨mkfsDisk, mkfsDisk, Mkfs.sb, fun _ => ⟨zeroDinode, 0, 0, false, false⟩⟩
  files := []
  cwds := []
  stopped := none

theorem rootDinode_ok : rootDinode.Ok where
  type := by decide
  major := by decide
  minor := by decide
  nlink := by decide
  size := by decide
  addrs j := by
    show (if j = 0 then Mkfs.sb.nmeta else 0) < 2 ^ 32
    split_ifs <;> decide
  addrs_zero j hj := if_neg (by omega)

theorem dinodeAt_mkfsDisk {inum : Nat} (hi : inum < Mkfs.sb.ninodes) :
    dinodeAt Mkfs.sb mkfsDisk inum = if inum = ROOTINO then rootDinode else zeroDinode := by
  have hbitmap := Mkfs.geometry.iblock_lt hi
  have hdata := Mkfs.geometry.iblock_lt_nmeta hi
  have hsb : 1 < Mkfs.sb.iblock inum := lt_of_lt_of_le (by decide) (Nat.le_add_left _ _)
  rw [mkfsDisk, dinodeAt_update_of_ne _ hbitmap.ne, mkfsRoot, dinodeAt_putDinode _ _
    rootDinode_ok.toFits, dinodeAt_update_of_ne _ hdata.ne, dinodeAt_update_of_ne _ hsb.ne',
    dinodeAt, getDinode_zeroBlock]

theorem addrs_mkfsDisk {inum : Nat} (hi : inum < Mkfs.sb.ninodes) (j : Nat) :
    (dinodeAt Mkfs.sb mkfsDisk inum).addrs j =
      if inum = ROOTINO ∧ j = 0 then Mkfs.sb.nmeta else 0 := by
  rw [dinodeAt_mkfsDisk hi]
  by_cases h : inum = ROOTINO
  · rw [if_pos h, if_congr (and_iff_right h) rfl rfl]
    rfl
  · rw [if_neg h, if_neg fun hc => h hc.1]
    rfl

theorem usedBit_mkfsDisk {b : Nat} (hb : b < Mkfs.sb.size) :
    usedBit Mkfs.sb mkfsDisk b = decide (b < Mkfs.sb.nmeta + 1) :=
  Mkfs.usedBit_markUsed mkfsRoot hb _

/-- The only reference is that of the root directory to its block. -/
theorem refOf_mkfsDisk (p : Place) :
    refOf Mkfs.sb.ninodes (dinodeAt Mkfs.sb mkfsDisk) mkfsDisk p =
      if p = .direct ROOTINO 0 then some Mkfs.sb.nmeta else none := by
  cases p with
  | direct inum i =>
    rw [refOf]
    split_ifs with hlt heq heq
    · cases heq
      decide
    · rw [addrs_mkfsDisk hlt.1, if_neg fun hc => heq (by rw [hc.1, hc.2])]
      rfl
    · cases heq
      exact absurd hlt (by decide)
    · rfl
  | indirect inum =>
    have hne : Place.indirect inum ≠ .direct ROOTINO 0 := by simp
    rw [refOf, if_neg hne]
    split_ifs with hlt
    · rw [addrs_mkfsDisk hlt, if_neg (by simp [NDIRECT])]
      rfl
    · rfl
  | entry inum j =>
    have hne : Place.entry inum j ≠ .direct ROOTINO 0 := by simp
    rw [refOf, if_neg hne]
    split_ifs with hlt
    · rw [addrs_mkfsDisk hlt.1, if_neg (by simp [NDIRECT])]
      rfl
    · rfl

theorem rootEntries_inum_lt {off : Nat} (hoff : off % 16 = 0) :
    getLE rootEntries off 2 < Mkfs.sb.ninodes := by
  rcases eq_or_ne off 0 with rfl | h0
  · decide
  rcases eq_or_ne off 16 with rfl | h1
  · decide
  · have hzero : getLE rootEntries off 2 = getLE zeroBlock off 2 := by
      apply getLE_congr
      intro i hi _
      rw [rootEntries, putBytes_of_not_mem _ _ (.inr ?_), putBytes_of_not_mem _ _ (.inr ?_)]
      all_goals
        simp only [dirent, dot, dotdot, DIRSIZ, List.length_cons, List.length_append,
          List.length_take, List.length_replicate, List.length_nil]
        omega
    rw [hzero]
    simp [getLE, zeroBlock, Mkfs.sb, Mkfs.NINODES]

theorem mkfs_image : Image Mkfs.sb mkfsDisk where
  geom := Mkfs.geometry
  ok inum hi := by
    rw [dinodeAt_mkfsDisk hi]
    split_ifs
    · exact rootDinode_ok
    · exact zeroDinode_ok
  free inum hi := by
    rw [dinodeAt_mkfsDisk hi]
    split_ifs
    · intro h
      exact absurd h (by decide)
    · exact fun _ _ => rfl
  whole inum hi bn := by
    rw [dinodeAt_mkfsDisk hi, refOf_mkfsDisk]
    intro hbn
    split_ifs at hbn with hroot
    · have hbn : bn = 0 := by
        simp only [rootDinode, BSIZE] at hbn
        omega
      subst hroot hbn
      decide
    · exact absurd hbn (Nat.not_lt_zero _)
  dirs inum hi _ off b hoff _ href := by
    rw [refOf_mkfsDisk, Option.ite_none_right_eq_some, Option.some.injEq] at href
    have hdisk : mkfsDisk Mkfs.sb.nmeta = rootEntries := by
      rw [mkfsDisk, update_of_ne (by decide), mkfsRoot, update_of_ne (by decide), update_self]
    rw [← href.2, hdisk]
    apply rootEntries_inum_lt
    simp only [BSIZE]
    omega
  owned := by
    refine ⟨fun p q b hp hq => ?_, fun p b hp => ?_, fun b hb => ?_⟩
    · rw [refOf_mkfsDisk, Option.ite_none_right_eq_some] at hp hq
      rw [hp.1, hq.1]
    · rw [refOf_mkfsDisk, Option.ite_none_right_eq_some, Option.some.injEq] at hp
      rw [← hp.2]
      decide
    · have hex : (∃ p, refOf Mkfs.sb.ninodes (dinodeAt Mkfs.sb mkfsDisk) mkfsDisk p = some b) ↔
          b = Mkfs.sb.nmeta := by
        simp only [refOf_mkfsDisk, Option.ite_none_right_eq_some, Option.some.injEq]
        exact ⟨fun ⟨_, _, he⟩ => he.symm, fun he => ⟨_, rfl, he.symm⟩⟩
      rw [usedBit_mkfsDisk hb, hex, decide_eq_true_iff]
      omega

theorem mkfsWorld_boot : mkfsWorld.Boot where
  fs := ⟨mkfs_image, rfl, fun _ _ => rfl⟩
  files := rfl
  cwds := rfl
  stopped := rfl

end SummerOsk.Fs
