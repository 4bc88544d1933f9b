import SummerOsk.Mkfs.Files
import SummerOsk.Fs.Space

/-!
# Consistent images

When a run of mkfs that succeeds leaves a consistent file system.  Two counts
are not checked.  `freeinode` can pass `NINODES`, so that an inode is written
beyond the inode blocks.  And the size of the root directory is rounded up even
if it is a multiple of `BSIZE` already, so that the directory has a block that
does not exist.
-/

namespace SummerOsk.Mkfs

open Lib Log Fs List

variable {α β : Type} {s t : State} {A : Nat → Dinode} {files : List HostFile} {n : Nat} {m : M α}

/-! ## The inode numbers -/

/-- A program that does not allocate inodes. -/
def Quiet (m : M α) : Prop :=
  ∀ s, wp m s (fun _ t => t.freeinode = s.freeinode ∧ t.inodes = s.inodes) fun _ => True

theorem Quiet.pure (a : α) : Quiet (Pure.pure a : M α) := fun _ => ⟨rfl, rfl⟩

theorem Quiet.throw (e : Exit) : Quiet (MonadExcept.throw e : M α) := fun _ => trivial

theorem Quiet.bind {f : α → M β} (hm : Quiet m) (hf : ∀ a, Quiet (f a)) : Quiet (m >>= f) := by
  intro s
  refine wp_seq (hm s) fun a t ht => ?_
  refine wp_mono (hf a t) fun _ u hu => ?_
  exact ⟨hu.1.trans ht.1, hu.2.trans ht.2⟩

theorem Quiet.ite {p : Prop} [Decidable p] {m' : M α} (h : Quiet m) (h' : Quiet m') :
    Quiet (if p then m else m') := by
  split_ifs
  · exact h
  · exact h'

theorem quiet_wsect (sec : Nat) (buf : Block) : Quiet (wsect sec buf) := fun _ => ⟨rfl, rfl⟩

theorem quiet_rsect (sec : Nat) : Quiet (rsect sec) := by
  intro s
  exact Quiet.ite (Quiet.pure _) (Quiet.throw _) s

theorem quiet_winode (inum : Nat) (ip : Dinode) : Quiet (winode inum ip) :=
  (quiet_rsect _).bind fun _ => (quiet_wsect _ _).bind fun _ => fun _ => ⟨rfl, rfl⟩

theorem quiet_rinode (inum : Nat) : Quiet (rinode inum) :=
  (quiet_rsect _).bind fun _ => Quiet.pure _

theorem quiet_nextBlock : Quiet nextBlock := fun _ => ⟨rfl, rfl⟩

theorem quiet_balloc (used : Nat) : Quiet (balloc used) :=
  Quiet.ite (quiet_wsect _ _) (Quiet.throw _)

theorem quiet_slotBlock (din : Dinode) (j : Nat) : Quiet (slotBlock din j) :=
  Quiet.ite (quiet_nextBlock.bind fun _ => Quiet.pure _) (Quiet.pure _)

theorem quiet_fileBlock (din : Dinode) (fbn : Nat) : Quiet (fileBlock din fbn) := by
  refine Quiet.ite ((quiet_slotBlock _ _).bind fun _ => Quiet.pure _) ?_
  refine (quiet_slotBlock _ _).bind fun _ => (quiet_rsect _).bind fun _ => Quiet.ite ?_ ?_
  · exact quiet_nextBlock.bind fun _ => (quiet_wsect _ _).bind fun _ => Quiet.pure _
  · exact Quiet.pure _

theorem quiet_iappendLoop (k : Nat) (din : Dinode) (off : Nat) (p : List UInt8) :
    Quiet (iappendLoop din off p k) := by
  induction k generalizing din off p with
  | zero => exact Quiet.pure _
  | succ k ih =>
    refine Quiet.ite (Quiet.ite ?_ (Quiet.throw _)) (Quiet.pure _)
    exact (quiet_fileBlock _ _).bind fun _ => (quiet_rsect _).bind fun _ =>
      (quiet_wsect _ _).bind fun _ => ih _ _ _

theorem quiet_iappend (inum : Nat) (p : List UInt8) : Quiet (iappend inum p) :=
  (quiet_rinode _).bind fun _ => (quiet_iappendLoop _ _ _ _).bind fun _ => quiet_winode _ _

theorem quiet_copyFile (inum : Nat) (reads : List (List UInt8)) : Quiet (copyFile inum reads) := by
  induction reads with
  | nil => exact Quiet.pure _
  | cons buf rest ih => exact Quiet.ite ((quiet_iappend _ _).bind fun _ => ih) (Quiet.pure _)

theorem quiet_clear (n : Nat) : Quiet (clear n) := by
  induction n with
  | zero =>
    rw [clear_zero]
    exact Quiet.pure _
  | succ n ih =>
    rw [clear_succ]
    exact ih.bind fun _ => quiet_wsect _ _

theorem quiet_fixRoot (rootino : Nat) : Quiet (fixRoot rootino) :=
  (quiet_rinode _).bind fun _ => quiet_winode _ _

/-- The inode numbers in use are those from 1 to `n`. -/
def Numbered (n : Nat) (s : State) : Prop := s.freeinode = n + 1 ∧ s.inodes = List.range' 1 n

theorem Quiet.numbered (hm : Quiet m) (h : Numbered n s) :
    wp m s (fun _ t => Numbered n t) fun _ => True :=
  wp_mono (hm s) fun _ _ ht => ⟨ht.1.trans h.1, ht.2.trans h.2⟩

theorem ialloc_numbered (type : Int) (h : Numbered n s) :
    wp (ialloc type) s (fun _ t => Numbered (n + 1) t) fun _ => True := by
  simp only [ialloc, wp_bind, wp_get, wp_modify]
  refine wp_mono ((quiet_winode _ _).numbered (n := n + 1) ?_) fun _ t ht => ht
  refine ⟨congrArg (· + 1) h.1, ?_⟩
  show s.inodes ++ [s.freeinode] = _
  rw [h.1, h.2, range'_concat, Nat.one_mul, Nat.add_comm 1]

theorem addFile_numbered (rootino : Nat) (f : HostFile) (h : Numbered n s) :
    wp (addFile rootino f) s (fun _ t => Numbered (n + 1) t) fun _ => True := by
  refine wp_ite (fun _ => trivial) fun _ => ?_
  cases f.reads with
  | none => trivial
  | some reads =>
    refine wp_seq (ialloc_numbered _ h) fun inum t ht => ?_
    exact ((quiet_iappend _ _).bind fun _ => quiet_copyFile _ _).numbered ht

theorem addFiles_numbered (rootino : Nat) (files : List HostFile) (h : Numbered n s) :
    wp (addFiles rootino files) s (fun _ t => Numbered (n + files.length) t) fun _ => True := by
  induction files generalizing s n with
  | nil => exact h
  | cons f rest ih =>
    refine wp_seq (addFile_numbered rootino f h) fun _ t ht => ?_
    rw [length_cons, Nat.add_comm rest.length, ← Nat.add_assoc]
    exact ih ht

/-- `ialloc` hands out the inode numbers in order, however many there are. -/
theorem main_numbered (files : List HostFile) :
    wp (main files) start (fun _ t => Numbered (files.length + 1) t) fun _ => True := by
  have hstart : Numbered 0 start := ⟨rfl, rfl⟩
  simp only [main, wp_bind]
  refine wp_mono ((quiet_clear _).numbered hstart) fun _ t1 h1 => ?_
  refine wp_mono ((quiet_wsect _ _).numbered h1) fun _ t2 h2 => ?_
  refine wp_mono (ialloc_numbered _ h2) fun rootino t3 h3 => ?_
  refine wp_ite (fun _ => ?_) fun _ => trivial
  simp only [wp_bind]
  refine wp_mono ((quiet_iappend _ _).numbered h3) fun _ t4 h4 => ?_
  refine wp_mono ((quiet_iappend _ _).numbered h4) fun _ t5 h5 => ?_
  refine wp_mono (addFiles_numbered _ files h5) fun _ t6 h6 => ?_
  refine wp_mono ((quiet_fixRoot _).numbered h6) fun _ t7 h7 => ?_
  rw [wp_get, Nat.add_comm files.length]
  exact (quiet_balloc _).numbered h7

/-! ## Consistent images -/

/-- A consistent file system.  The fields of `owned` say that no two places in
inodes refer to the same block, and that the bitmap marks the blocks before the
data blocks and those referred to. -/
structure Consistent (s : State) : Prop where
  inums : ∀ inum ∈ s.inodes, inum < sb.ninodes
  writes : ∀ b ∈ s.inodeWrites, sb.inodestart ≤ b ∧ b < sb.bmapstart
  mapped : ∀ inum < sb.ninodes, ∀ bn < ((dinodeAt sb s.img inum).size + BSIZE - 1) / BSIZE,
    refOf sb.ninodes (dinodeAt sb s.img) s.img (place inum bn) ≠ none
  owned : Owned sb (dinodeAt sb s.img) s.img

section

variable (h : Finished files A s)

include h

theorem Finished.dinodeAt_of_ne {inum : Nat} (hi : inum < NINODES) (hne : inum ≠ ROOTINO) :
    dinodeAt sb s.img inum = A inum :=
  h.built.synced inum hi fun he => hne (Option.some.inj he).symm

/-- The dinodes of the image have the blocks of `A`. -/
theorem Finished.refOf_img (p : Place) :
    refOf NINODES (dinodeAt sb s.img) s.img p = refOf NINODES A s.view p := by
  rw [h.bitmap]
  refine refOf_eq_of_addrs (fun inum hi => ?_) (fun _ _ _ => rfl) p
  by_cases heq : inum = ROOTINO
  · rw [heq, h.rounded, roundUp]
  · rw [h.dinodeAt_of_ne hi heq]

theorem Finished.size_root :
    (dinodeAt sb s.img ROOTINO).size = (16 * (files.length + 2) / BSIZE + 1) * BSIZE := by
  rw [h.rounded, roundUp, h.size, rootBytes_length]

/-- The root directory has the blocks of its entries. -/
theorem Finished.refOf_root {bn : Nat} (hbn : bn < MAXFILE) :
    refOf NINODES (dinodeAt sb s.img) s.img (place ROOTINO bn) = none ↔
      16 * (files.length + 2) ≤ bn * BSIZE := by
  have hlen : (fileBytes files ROOTINO).length = 16 * (files.length + 2) :=
    (congrArg List.length (if_pos rfl)).trans (rootBytes_length files)
  rw [h.refOf_img, h.built.mapped _ (by decide) _ hbn, hlen]

end

theorem root_blocks_lt (hn : files.length + 1 < NINODES) :
    16 * (files.length + 2) / BSIZE < MAXFILE := by
  simp only [NINODES, MAXFILE, NDIRECT, NINDIRECT, BSIZE] at hn ⊢
  omega

/-- The image is consistent if the directory has its last block. -/
theorem Finished.consistent (h : Finished files A s) (hn : files.length + 1 < NINODES)
    (hmod : (files.length + 2) % (BSIZE / 16) ≠ 0) : Consistent s where
  inums inum hi := by
    rw [h.inodes, mem_range'_1] at hi
    have hninodes : sb.ninodes = NINODES := rfl
    omega
  writes := h.built.writes
  mapped inum hi bn hbn := by
    by_cases heq : inum = ROOTINO
    · have hmax := root_blocks_lt hn
      rw [heq, h.size_root] at hbn
      have hle : bn ≤ 16 * (files.length + 2) / BSIZE := by
        simp only [BSIZE] at hbn ⊢
        omega
      intro hnone
      rw [heq] at hnone
      have hlen := (h.refOf_root (by omega)).mp hnone
      simp only [BSIZE] at hle hlen hmod
      omega
    · rw [h.dinodeAt_of_ne hi heq] at hbn
      refine (h.refOf_img _).trans_ne (h.built.good.whole inum hi bn ?_)
      simp only [BSIZE] at hbn ⊢
      omega
  owned := by
    refine Allocated.congr h.built.good.owned (fun b _ => ?_) h.refOf_img
    rw [h.bitmap]

/-- The rounding adds a block that does not exist. -/
theorem Finished.not_consistent (h : Finished files A s) (hn : files.length + 1 < NINODES)
    (hmod : (files.length + 2) % (BSIZE / 16) = 0) : ¬ Consistent s := by
  intro hc
  have hmax := root_blocks_lt hn
  refine hc.mapped ROOTINO (by decide) (16 * (files.length + 2) / BSIZE) ?_
    ((h.refOf_root hmax).mpr ?_)
  · rw [h.size_root]
    simp only [BSIZE]
    omega
  · simp only [BSIZE] at hmod ⊢
    omega

/-- More files than inodes. -/
theorem Numbered.not_consistent (h : Numbered n s) (hn : NINODES ≤ n) : ¬ Consistent s := by
  intro hc
  have hmem : n ∈ s.inodes := by
    have : 0 < NINODES := by decide
    rw [h.2, mem_range'_1]
    omega
  exact absurd (hc.inums n hmem) (Nat.not_lt.mpr hn)

/-- A run that succeeds leaves a consistent image exactly if there is an inode
for every file, and the entries of the root directory do not fill its last
block. -/
theorem consistent_iff (files : List HostFile) (s : State)
    (hrun : main files start = .ok ((), s)) :
    Consistent s ↔
      files.length ≤ NINODES - 2 ∧ (files.length + 2) % (BSIZE / 16) ≠ 0 := by
  have hnum : Numbered (files.length + 1) s :=
    wp_ok (Q := fun _ t => Numbered (files.length + 1) t) (main_numbered files) hrun
  have htwo : NINODES - 2 + 2 = NINODES := rfl
  by_cases hn : files.length + 1 < NINODES
  · obtain ⟨A, hA⟩ := wp_ok (Q := fun _ t => ∃ A, Finished files A t) (main_spec hn) hrun
    by_cases hmod : (files.length + 2) % (BSIZE / 16) = 0
    · exact iff_of_false (hA.not_consistent hn hmod) fun h => h.2 hmod
    · exact iff_of_true (hA.consistent hn hmod) ⟨by omega, hmod⟩
  · exact iff_of_false (hnum.not_consistent (by omega)) fun h => hn (by omega)

/-! ## Runs that succeed -/

theorem sum_range_getElem (l : List Nat) {m : Nat} (hm : l.length ≤ m) :
    ∑ i ∈ Finset.range m, (l[i]?).getD 0 = l.sum := by
  induction l generalizing m with
  | nil => simp
  | cons a l ih =>
    obtain ⟨m, rfl⟩ : ∃ k, m = k + 1 := ⟨m - 1, by rw [length_cons] at hm; omega⟩
    rw [length_cons] at hm
    rw [Finset.sum_range_succ']
    simp only [getElem?_cons_succ, getElem?_cons_zero, Option.getD_some]
    rw [ih (by omega), sum_cons, Nat.add_comm]

/-- The blocks that the files take. -/
theorem sum_blocksFor (hn : files.length + 1 < NINODES) :
    ∑ i ∈ Finset.range NINODES, blocksFor (fileBytes files i).length =
      blocksFor (16 * (files.length + 2)) +
        (files.map fun f => blocksFor f.bytes.length).sum := by
  have hinodes : NINODES = 198 + 1 + 1 := rfl
  have hfile : ∀ i, blocksFor (fileBytes files (i + 1 + 1)).length =
      ((files.map fun f => blocksFor f.bytes.length)[i]?).getD 0 := by
    intro i
    rw [fileBytes, if_neg (by rw [ROOTINO]; omega), if_pos (by omega), getElem?_map]
    show blocksFor (Option.getD (Option.map HostFile.bytes files[i]?) []).length = _
    cases files[i]? with
    | none => decide
    | some f => rfl
  have hnil : fileBytes files 0 = [] := by
    rw [fileBytes, if_neg (by decide), if_neg (by decide)]
  have hzero : blocksFor ([] : List UInt8).length = 0 := by decide
  have hroot : fileBytes files (0 + 1) = rootBytes files := if_pos rfl
  rw [hinodes, Finset.sum_range_succ', Finset.sum_range_succ', hnil, hzero, hroot, rootBytes_length]
  simp only [hfile]
  rw [sum_range_getElem _ (by rw [length_map]; omega), Nat.add_zero, Nat.add_comm]

/-- The files fit into the image. -/
structure Fits (files : List HostFile) : Prop where
  count : files.length ≤ NINODES - 2
  opened : ∀ f ∈ files, ¬ f.Bad
  each : ∀ f ∈ files, f.bytes.length ≤ MAXFILE * BSIZE
  all : nmeta + blocksFor (16 * (files.length + 2)) +
    (files.map fun f => blocksFor f.bytes.length).sum ≤ FSSIZE

theorem Fits.length_le (h : Fits files) (inum : Nat) :
    (fileBytes files inum).length ≤ MAXFILE * BSIZE := by
  rw [fileBytes]
  by_cases hroot : inum = ROOTINO
  · have hcount := h.count
    rw [if_pos hroot, rootBytes_length]
    simp only [NINODES, MAXFILE, NDIRECT, NINDIRECT, BSIZE] at hcount ⊢
    omega
  · split_ifs
    · cases hf : files[inum - 2]? with
      | none => exact Nat.zero_le _
      | some f => exact h.each f (mem_of_getElem? hf)
    · exact Nat.zero_le _

theorem Fits.count_lt (h : Fits files) : files.length + 1 < NINODES := by
  have htwo : NINODES - 2 + 2 = NINODES := rfl
  have hcount := h.count
  omega

/-- `mkfs` succeeds if the files fit. -/
theorem Fits.finished (h : Fits files) :
    ∃ A s, main files start = .ok ((), s) ∧ Finished files A s := by
  have hspec : wp (main files) start (fun _ t => ∃ A, Finished files A t) fun _ => False := by
    refine wp_imp (main_spec h.count_lt) (fun _ _ ht => ht) fun _ he => ?_
    rcases he with (hall | ⟨inum, _, heach⟩) | ⟨f, hf, hbad⟩
    · have hfit := h.all
      rw [sum_blocksFor h.count_lt] at hall
      omega
    · exact absurd (h.length_le inum) (Nat.not_le.mpr heach)
    · exact h.opened f hf hbad
  obtain ⟨_, s, hrun, A, hA⟩ := wp_returns hspec
  exact ⟨A, s, hrun, hA⟩

theorem fits_nil : Fits [] where
  count := by decide
  opened _ hf := absurd hf not_mem_nil
  each _ hf := absurd hf not_mem_nil
  all := by decide

/-- `user/_cat`, which was read in two pieces, and an empty `README`. -/
def catFiles : List HostFile :=
  [⟨[117, 115, 101, 114, 47, 95, 99, 97, 116], some [[1], [2, 3]]⟩,
    ⟨[82, 69, 65, 68, 77, 69], some []⟩]

theorem catFiles_fits : Fits catFiles :=
  ⟨by decide, by decide, by decide, by decide⟩

theorem consistent_iff_cat : ∃ s, main catFiles start = .ok ((), s) ∧
    (Consistent s ↔ catFiles.length ≤ NINODES - 2 ∧ (catFiles.length + 2) % (BSIZE / 16) ≠ 0) ∧
    Consistent s := by
  obtain ⟨A, s, hrun, _⟩ := catFiles_fits.finished
  have hiff := consistent_iff catFiles s hrun
  exact ⟨s, hrun, hiff, hiff.mpr (by decide)⟩

/-- Empty files `a0`, `a1` and so on. -/
def emptyFiles (n : Nat) : List HostFile :=
  (List.range n).map fun i => ⟨[97, UInt8.ofNat (48 + i)], some []⟩

theorem emptyFiles_fits : Fits (emptyFiles 62) where
  count := by decide
  opened := by decide +kernel
  each f hf := by
    obtain ⟨i, _, rfl⟩ := mem_map.mp hf
    exact Nat.zero_le _
  all := by decide +kernel

/-- With 62 files the root directory has 64 entries, which fill its block. -/
theorem emptyFiles_not_consistent :
    ∃ s, main (emptyFiles 62) start = .ok ((), s) ∧ ¬ Consistent s := by
  obtain ⟨A, s, hrun, hA⟩ := emptyFiles_fits.finished
  exact ⟨s, hrun, hA.not_consistent (by decide) (by decide)⟩

end SummerOsk.Mkfs
