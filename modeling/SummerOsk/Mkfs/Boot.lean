import Mathlib.Data.List.TakeWhile
import SummerOsk.Mkfs.Consistent
import SummerOsk.Fs.ByteArray

/-!
# The kernel on an image of mkfs

`mkfs` and the kernel agree on the format of the disk: after a boot from the
image, `namei` finds every file by its name, and the inode has the length and
the contents of the file.
-/

namespace SummerOsk.Fs

open Lib Log Function List

/-! ## Boot -/

/-- An entry of the inode cache after the boot. -/
def emptyInode : Inode := ⟨zeroDinode, 0, 0, false, false⟩

/-- `readsb`, the fields that the file system uses. -/
def readsb (D : Nat → Block) : Superblock where
  size := getLE (D 1) 4 4
  nblocks := getLE (D 1) 8 4
  ninodes := getLE (D 1) 12 4
  inodestart := getLE (D 1) 24 4
  bmapstart := getLE (D 1) 28 4

/-- `fsinit`, with the empty inode cache that the kernel starts with. -/
def fsinit (D : Nat → Block) : Except String FsState :=
  if getLE (D 1) 0 4 ≠ Mkfs.FSMAGIC then .error "invalid file system"
  else
    let log := initlog (getLE (D 1) 20 4) (getLE (D 1) 16 4) D
    .ok ⟨log.data, log.disk, readsb D, fun _ => emptyInode⟩

theorem putHead_zeroBlock : putHead zeroBlock [] = zeroBlock := by
  funext o
  simp [putHead, putBlocks, putLE, zeroBlock]

/-- The recovery of an empty log changes nothing. -/
theorem initlog_empty {start : Nat} (size : Nat) {D : Nat → Block} (h : D start = zeroBlock) :
    (initlog start size D).data = D ∧ (initlog start size D).disk = D := by
  have hhead : headList zeroBlock = [] := by
    have hn : headN zeroBlock = 0 := by decide
    rfl
  have hput : putHead (D start) [] = D start := by rw [h, putHead_zeroBlock]
  have hread : (boot start size D).readHead = boot start size D := by
    simp only [LogState.readHead, boot, h, hhead]
  have hinit : initlog start size D =
      (LogState.setData (boot start size D) start (putHead (D start) [])).bwrite start := by
    rw [initlog, LogState.recoverFromLog, hread]
    rfl
  rw [hinit, hput]
  simp only [LogState.setData, LogState.bwrite, boot, update_eq_self]
  trivial

/-! ## `iget` and `readi` in a cache that is almost empty -/

variable {s : FsState} {i : Nat} {E : Stop → Prop}

/-- `iget` of an inode that is not in the cache takes the first free entry. -/
theorem iget_first_free {inum : Nat}
    (hnone : ∀ j < NINODE, 0 < (s.icache j).ref → (s.icache j).inum ≠ inum)
    (hi : i < NINODE) (hfree : (s.icache i).ref = 0) (hbefore : ∀ j < i, (s.icache j).ref ≠ 0) :
    wp (iget inum) s
      (fun r t => r = i ∧ t = { s with
        icache := update s.icache i
          { s.icache i with inum := inum, ref := 1, valid := false } }) E := by
  have hfound : ((List.range NINODE).find? fun j =>
      0 < (s.icache j).ref ∧ (s.icache j).inum = inum) = none := by
    rw [find?_eq_none]
    intro j hj
    simpa using hnone j (mem_range.mp hj)
  have hfirst : ((List.range NINODE).find? fun j => (s.icache j).ref = 0) = some i := by
    simpa [hfree, hi] using hbefore
  simp only [iget, wp_bind, wp_get]
  rw [hfound]
  rw [hfirst]
  simp

/-- Read an entry in a direct block that exists. -/
theorem readDirent_direct {off : Nat} {msg : String} (hoff : off % 16 = 0)
    (hsize : off + 16 ≤ (s.icache i).size) (hmax : (s.icache i).size < 2 ^ 32)
    (hbn : off / BSIZE < NDIRECT) (haddr : (s.icache i).addrs (off / BSIZE) ≠ 0) :
    wp (readDirent i off msg) s
      (fun de t => t = s ∧
        de = getBytes (s.cache ((s.icache i).addrs (off / BSIZE))) (off % BSIZE) 16) E := by
  have hmin : min 16 (BSIZE - off % BSIZE) = 16 := by
    simp only [BSIZE]
    omega
  have hfuel : 16 / BSIZE + 2 = 2 := rfl
  simp only [readDirent, readi, wp_bind, wp_getInode]
  refine wp_ite (fun hbad => ?_) fun _ => ?_
  · omega
  · rw [if_neg (by omega), hfuel]
    rw [readLoop]
    simp only [wp_bind, Nat.zero_lt_succ, if_true]
    have hbmap : wp (bmap i (off / BSIZE)) s
        (fun b t => b = (s.icache i).addrs (off / BSIZE) ∧ t = s) E := by
      simp only [bmap, wp_bind, wp_getInode]
      rw [if_pos hbn, if_neg haddr, wp_pure]
      exact ⟨rfl, rfl⟩
    refine wp_mono hbmap fun b t hb => ?_
    obtain ⟨rfl, rfl⟩ := hb
    rw [wp_bread, hmin, readLoop, if_neg (by decide)]
    simp

/-- `ilock` of an entry that was not read yet. -/
theorem ilock_invalid (href : 0 < (s.icache i).ref) (hlocked : (s.icache i).locked = false)
    (hvalid : (s.icache i).valid = false)
    (htype : (dinodeAt s.sb s.cache (s.icache i).inum).type ≠ 0) :
    ilock i s = .ok ((), { s with
      icache := update s.icache i
        { s.icache i with
          toDinode := dinodeAt s.sb s.cache (s.icache i).inum
          locked := true
          valid := true } }) := by
  apply run_of_wp
  simp only [ilock, wp_bind, wp_getInode]
  rw [if_neg (by omega), hlocked, if_neg Bool.false_ne_true]
  rw [if_pos hvalid]
  simp only [wp_bind, wp_getSb, wp_bread, wp_setInode, update_idem]
  rw [dinodeAt] at htype
  rw [if_neg htype]
  exact ⟨trivial, rfl⟩

/-- `iunlockput` of an inode with links. -/
theorem iunlockput_linked (hlocked : (s.icache i).locked) (href : 0 < (s.icache i).ref)
    (hnlink : (s.icache i).nlink ≠ 0) :
    wp (iunlockput i) s
      (fun _ t => t = { s with
        icache := update s.icache i
          { s.icache i with locked := false, ref := (s.icache i).ref - 1 } }) E := by
  simp only [iunlockput, iunlock, iput, wp_bind, wp_getInode]
  rw [if_neg (by rw [hlocked]; simp; omega), wp_setInode]
  simp only [update_self]
  rw [if_neg fun hc => hnlink hc.2.2]
  simp only [wp_modifyInode, update_self, update_idem]

end SummerOsk.Fs

namespace SummerOsk.Mkfs

open Lib Log Fs Function List State

variable {s : State} {A : Nat → Dinode} {files : List HostFile} {E : Stop → Prop} {f : HostFile}
  {e1 : Inode} {k j idx : Nat} {name : Name} {e : Nat × Name}

/-! ## The image boots -/

theorem readsb_sbBlock {D : Nat → Block} (h : D 1 = sbBlock) : readsb D = sb := by
  rw [readsb, h]
  decide +kernel

theorem Finished.fsinit_img (h : Finished files A s) : fsinit s.img = .ok s.fs := by
  have hone : s.img 1 = sbBlock := (h.built.head 1 (by decide)).trans (if_pos rfl)
  have htwo : s.img 2 = zeroBlock := (h.built.head 2 (by decide)).trans (if_neg (by decide))
  have hmagic : getLE sbBlock 0 4 = FSMAGIC := by decide +kernel
  have hstart : getLE sbBlock 20 4 = 2 := by decide +kernel
  have hlog := initlog_empty (getLE sbBlock 16 4) htwo
  rw [fsinit, hone, hmagic, if_neg (not_not.mpr rfl), hstart]
  simp only [hlog.1, hlog.2, readsb_sbBlock hone, State.fs, h.bitmap, emptyInode]

/-! ## The image without files -/

/-- The image while the root directory is all it holds, with the dinode `d` and
the entries `x`. -/
structure RootOnly (d : Dinode) (x : Block) (freeblock : Nat) (s : State) : Prop where
  sectors : s.sectors = FSSIZE
  img : s.img = update (update (update (fun _ => zeroBlock) 1 sbBlock) nmeta x)
    (sb.iblock ROOTINO) (putDinode zeroBlock (ROOTINO % IPB) d)
  ok : d.Ok
  free : s.freeblock = freeblock

section

variable {d d' : Dinode} {x : Block} {n : Nat} {X : Exit → Prop} {p : List UInt8}

section

variable (h : RootOnly d x n s)

include h

theorem RootOnly.dinodeAt_eq : dinodeAt sb s.img ROOTINO = d := by
  rw [h.img, dinodeAt, update_self, getDinode_putDinode _ _ h.ok.toFits]

/-- Only the last dinode that `winode` wrote is left. -/
theorem RootOnly.putInode (hok : d'.Ok) :
    RootOnly d' x n (s.putInode ROOTINO d') where
  sectors := h.sectors
  img := by rw [State.putInode, h.img, update_self, update_idem, putDinode_putDinode]
  ok := hok
  free := h.free

theorem RootOnly.putBlock (y : Block) :
    RootOnly d y n { s with img := update s.img nmeta y } where
  sectors := h.sectors
  img := by
    dsimp only
    rw [h.img, update_comm (by decide), update_idem]
  ok := h.ok
  free := h.free

section

variable (hslot : d.addrs 0 = 0 ∧ n = nmeta ∨ d.addrs 0 = nmeta ∧ n = nmeta + 1)

include hslot

/-- The first append takes the first block after the meta blocks, the second one
finds it. -/
theorem RootOnly.fileBlock :
    wp (fileBlock d 0) s
      (fun r t => r = (d.setAddr 0 nmeta, nmeta) ∧ RootOnly d x (nmeta + 1) t) X := by
  simp only [Mkfs.fileBlock, slotBlock]
  rw [if_pos (by decide), wp_bind]
  rcases hslot with ⟨haddr, rfl⟩ | ⟨haddr, rfl⟩
  · rw [if_pos haddr, wp_bind, wp_nextBlock, h.free]
    refine ⟨?_, h.sectors, h.img, h.ok, rfl⟩
    simp [Dinode.setAddr]
  · have hsame : d.setAddr 0 nmeta = d := by rw [Dinode.setAddr, ← haddr, update_eq_self]
    rw [if_neg (by rw [haddr]; decide), hsame]
    exact ⟨by rw [haddr], h⟩

/-- An entry is appended to the only block of the root directory. -/
theorem RootOnly.iappend (hp : p.length = 16) (hsize : d.size + 16 ≤ BSIZE) :
    wp (iappend ROOTINO p) s
      (fun _ t => RootOnly { d.setAddr 0 nmeta with size := d.size + 16 }
        (putBytes x d.size p) (nmeta + 1) t) X := by
  have hroot : ROOTINO < NINODES := by decide
  have hfuel : 16 / BSIZE + 2 = 2 := rfl
  have hfbn : d.size / BSIZE = 0 := Nat.div_eq_of_lt (by omega)
  have hall : min p.length ((0 + 1) * BSIZE - d.size) = p.length := by omega
  have hnil : ¬ 0 < ([] : List UInt8).length := Nat.lt_irrefl 0
  simp only [Mkfs.iappend, wp_bind]
  rw [wp_rinode h.sectors hroot, h.dinodeAt_eq, hp, hfuel, iappendLoop, hfbn, if_pos (by omega),
    if_pos (by decide), wp_bind]
  refine wp_mono (h.fileBlock hslot) fun r t hr => ?_
  obtain ⟨rfl, ht⟩ := hr
  have hblock : t.img nmeta = x := by rw [ht.img, update_of_ne (by decide), update_self]
  simp only [wp_bind]
  rw [wp_rsect ht.sectors (by decide), wp_wsect ht.sectors (by decide), hall, take_length,
    drop_length, iappendLoop, if_neg hnil, wp_pure, Nat.zero_mul, Nat.sub_zero,
    hblock, wp_winode (ht.putBlock _).sectors hroot, hp]
  exact (ht.putBlock _).putInode
    ((h.ok.setAddr (Nat.zero_le _) (by decide)).withSize (hsize.trans (by decide)))

end

end

/-- The root directory before its first entry. -/
theorem ialloc_root :
    wp (ialloc T_DIR) formatted
      (fun inum t => inum = ROOTINO ∧ RootOnly (newDinode T_DIR) zeroBlock nmeta t) X := by
  have hsame : update (update (fun _ => zeroBlock) 1 sbBlock) nmeta zeroBlock =
      update (fun _ => zeroBlock) 1 sbBlock := update_eq_self nmeta _
  simp only [ialloc, wp_bind, wp_get, wp_modify]
  refine (wp_winode (s := { formatted with freeinode := 2, inodes := [1] }) rfl (by decide)).mpr
    ⟨rfl, rfl, ?_, newDinode_ok (by decide), rfl⟩
  rw [hsame]
  rfl

end

theorem main_nil : wp (main []) start (fun _ t => t.img = mkfsDisk) fun _ => False := by
  have hroot : ROOTINO < NINODES := by decide
  simp only [main, wp_bind]
  refine wp_mono (clear_spec le_rfl) fun _ t ht => ?_
  rw [ht, wp_wsect rfl (by decide)]
  refine wp_mono ialloc_root fun inum t0 h0 => ?_
  obtain ⟨rfl, h0⟩ := h0
  rw [if_pos rfl]
  simp only [wp_bind]
  refine wp_mono (h0.iappend (.inl ⟨rfl, rfl⟩) (by decide) (by decide)) fun _ t1 h1 => ?_
  refine wp_mono (h1.iappend (.inr ⟨rfl, rfl⟩) (by decide) (by decide)) fun _ t2 h2 => ?_
  simp only [addFiles, wp_pure, fixRoot, wp_bind]
  have haddrs : update (update (fun _ => 0) 0 nmeta) 0 nmeta = rootDinode.addrs := by
    rw [update_idem]
    exact funext fun _ => update_apply ..
  have hround : { Dinode.setAddr { (newDinode T_DIR).setAddr 0 nmeta with size := 16 } 0 nmeta
      with size := (32 / BSIZE + 1) * BSIZE } = rootDinode := by
    rw [Dinode.setAddr, Dinode.setAddr]
    exact congrArg (fun a => { rootDinode with addrs := a }) haddrs
  have hfixed : RootOnly rootDinode rootEntries (nmeta + 1) (t2.putInode ROOTINO rootDinode) :=
    h2.putInode rootDinode_ok
  have hballoc : wp (balloc (nmeta + 1)) (t2.putInode ROOTINO rootDinode)
      (fun _ t => t.img = mkfsDisk) fun _ => False := by
    rw [balloc, if_pos (by decide), wp_wsect hfixed.sectors (by decide)]
    exact congrArg (update · sb.bmapstart _) hfixed.img
  rw [← hfixed.free, ← hround] at hballoc
  rw [wp_rinode h2.sectors hroot, h2.dinodeAt_eq, wp_winode h2.sectors hroot, wp_get]
  exact hballoc

/-- The disk from which the runs of the file system start is the one that `mkfs`
writes without files. -/
theorem mkfsWorld_of_main : ∃ s, main [] start = .ok ((), s) ∧ s.img = mkfsDisk ∧
    fsinit s.img = .ok mkfsWorld.fs := by
  obtain ⟨A, s, hrun, hA⟩ := fits_nil.finished
  have himg : s.img = mkfsDisk := wp_ok (Q := fun _ t => t.img = mkfsDisk) main_nil hrun
  refine ⟨s, hrun, himg, ?_⟩
  rw [hA.fsinit_img, State.fs, hA.bitmap, himg]
  rfl

/-! ## The entries of the root directory -/

theorem flatMap_getD {α : Type} {f : α → List UInt8} (hf : ∀ a, (f a).length = 16) {es : List α}
    {e : α} (he : es[k]? = some e) (hj : j < 16) :
    (es.flatMap f).getD (16 * k + j) 0 = (f e).getD j 0 := by
  induction es generalizing k with
  | nil => simp at he
  | cons a es ih =>
    rw [flatMap_cons]
    cases k with
    | zero =>
      rw [getElem?_cons_zero, Option.some.injEq] at he
      rw [Nat.mul_zero, Nat.zero_add, getD_append _ _ _ _ (by rw [hf]; exact hj), he]
    | succ k =>
      rw [getD_append_right _ _ _ _ (by rw [hf]; omega), hf, ← ih he]
      congr 1
      omega

theorem entries_length (files : List HostFile) : (entries files).length = files.length + 2 := by
  simp [entries]

theorem entries_file (hf : files[idx]? = some f) :
    (entries files)[idx + 2]? = some (idx + 2, f.name) := by
  rw [entries, getElem?_cons_succ, getElem?_cons_succ, getElem?_mapIdx, hf]
  rfl

theorem direntName_dirent (h : 0 ∉ name) (inum : Nat) :
    direntName (dirent inum name) = name.take DIRSIZ := by
  have hname : ∀ x ∈ name.take DIRSIZ, x ≠ 0 := fun x hx he => h (he ▸ mem_of_mem_take hx)
  rw [direntName, dirent, drop_succ_cons, drop_succ_cons, drop_zero,
    takeWhile_append_of_pos (by simpa using hname)]
  cases DIRSIZ - name.length with
  | zero => simp
  | succ n => simp [replicate_succ]

theorem direntInum_dirent {inum : Nat} (h : inum < 2 ^ 16) (name : Name) :
    direntInum (dirent inum name) = inum := by
  simp only [direntInum, dirent, getD_cons_zero, getD_cons_succ, UInt8.toNat_ofNat']
  omega

/-- The kernel on the image, with two entries of the inode cache. -/
def State.kernel (s : State) (e0 e1 : Inode) : FsState :=
  ⟨s.view, s.view, sb, fun j => if j = 0 then e0 else if j = 1 then e1 else emptyInode⟩

theorem State.fs_eq_kernel (s : State) : s.fs = s.kernel emptyInode emptyInode := by
  simp only [State.fs, State.kernel, ite_self]
  rfl

theorem State.kernel_set_zero (s : State) (e0 e1 e : Inode) :
    { s.kernel e0 e1 with icache := update (s.kernel e0 e1).icache 0 e } =
      s.kernel e e1 := by
  rw [kernel, kernel, FsState.mk.injEq]
  refine ⟨rfl, rfl, rfl, funext fun j => ?_⟩
  rw [update_apply]
  by_cases hj : j = 0
  · rw [if_pos hj, if_pos hj]
  · rw [if_neg hj, if_neg hj]
    exact if_neg hj

theorem State.kernel_set_one (s : State) (e0 e1 e : Inode) :
    { s.kernel e0 e1 with icache := update (s.kernel e0 e1).icache 1 e } =
      s.kernel e0 e := by
  rw [kernel, kernel, FsState.mk.injEq]
  refine ⟨rfl, rfl, rfl, funext fun j => ?_⟩
  rw [update_apply]
  by_cases hj : j = 1
  · rw [if_pos hj, hj, if_neg Nat.one_ne_zero, if_pos rfl]
  · rw [if_neg hj, if_neg hj]
    show (if j = 0 then e0 else if j = 1 then e1 else emptyInode) = _
    rw [if_neg hj]

section

variable (s : State) (e0 e1 : Inode)

@[simp] theorem State.kernel_cache : (s.kernel e0 e1).cache = s.view := rfl

@[simp] theorem State.kernel_disk : (s.kernel e0 e1).disk = s.view := rfl

@[simp] theorem State.kernel_sb : (s.kernel e0 e1).sb = sb := rfl

@[simp] theorem State.kernel_icache_zero : (s.kernel e0 e1).icache 0 = e0 := rfl

@[simp] theorem State.kernel_icache_one : (s.kernel e0 e1).icache 1 = e1 := rfl

theorem State.kernel_icache_of_ne (h0 : j ≠ 0) (h1 : j ≠ 1) :
    (s.kernel e0 e1).icache j = emptyInode := by
  rw [kernel]
  simp only [h0, h1, if_false]

end

-- the programs are not to be evaluated on this state
attribute [irreducible] State.kernel

/-- The entry of the root directory. -/
def rootInode (A : Nat → Dinode) (ref : Int) (locked : Bool) : Inode :=
  ⟨roundUp (A ROOTINO), ROOTINO, ref, locked, true⟩

section

variable (h : Finished files A s) (hn : files.length + 1 < NINODES)
include h hn

theorem readDirent_entry (he : (entries files)[k]? = some e) (msg : String) :
    wp (readDirent 0 (16 * k) msg) (s.kernel (rootInode A 1 true) e1)
      (fun de t => t = s.kernel (rootInode A 1 true) e1 ∧ de = dirent e.1 e.2) E := by
  have hk : k < files.length + 2 := by
    rw [← entries_length]
    exact (List.getElem?_eq_some_iff.mp he).1
  have hbytes : fileBytes files ROOTINO = rootBytes files := if_pos rfl
  have hsize : (roundUp (A ROOTINO)).size = (16 * (files.length + 2) / BSIZE + 1) * BSIZE := by
    rw [roundUp, h.size, rootBytes_length]
  have hbn : 16 * k / BSIZE < NDIRECT := by
    simp only [NINODES, BSIZE, NDIRECT] at hn ⊢
    omega
  -- the bytes of the entry, as mkfs wrote them
  have hbyte : ∀ j < 16, byteAt NINODES A s.view ROOTINO (16 * k + j) =
      some ((dirent e.1 e.2).getD j 0) := by
    intro j hj
    have hat := h.built.bytes ROOTINO (by decide) (16 * k + j)
      (by rw [hbytes, rootBytes_length]; omega)
    rwa [hbytes, rootBytes, flatMap_getD (fun e => dirent_length e.1 e.2) he hj] at hat
  have hdiv : ∀ j < 16, (16 * k + j) / BSIZE = 16 * k / BSIZE ∧
      (16 * k + j) % BSIZE = 16 * k % BSIZE + j := by
    intro j hj
    simp only [BSIZE]
    omega
  have href : refOf NINODES A s.view (place ROOTINO (16 * k / BSIZE)) =
      ptr ((A ROOTINO).addrs (16 * k / BSIZE)) := by
    rw [place, if_pos hbn, refOf, if_pos ⟨by decide, hbn⟩]
  have haddr : (A ROOTINO).addrs (16 * k / BSIZE) ≠ 0 := by
    intro hzero
    have h0 := hbyte 0 (by decide)
    rw [byteAt, (hdiv 0 (by decide)).1, href, hzero] at h0
    cases h0
  refine wp_mono (readDirent_direct (by omega) ?_ ?_ hbn ?_)
    fun de t hde => ⟨hde.1, hde.2.trans ?_⟩
  · rw [kernel_icache_zero, rootInode, hsize]
    simp only [BSIZE]
    omega
  · rw [kernel_icache_zero, rootInode, hsize]
    simp only [NINODES, BSIZE] at hn ⊢
    omega
  · rw [kernel_icache_zero]
    exact haddr
  · rw [kernel_icache_zero, kernel_cache]
    refine bytes_ext (by rw [getBytes_length, dirent_length]) fun j hj => ?_
    rw [getBytes_length] at hj
    have hat := hbyte j hj
    rw [byteAt, (hdiv j hj).1, (hdiv j hj).2, href, ptr, if_neg haddr] at hat
    rw [getBytes_getD hj]
    exact Option.some.inj hat

/-- `dirlookup` finds the first entry with the name. -/
theorem dirlookupFrom_finds {K : Nat} {nm : Name}
    {Q : Option (Nat × Nat) → FsState → Prop}
    (hK : (entries files)[K]? = some (inum, nm)) (hinum : inum ≠ 0 ∧ inum < 2 ^ 16)
    (hname : direntName (dirent inum nm) = name)
    (hskip : ∀ k < K, ∀ e, (entries files)[k]? = some e → direntName (dirent e.1 e.2) ≠ name)
    (hget : wp (iget inum) (s.kernel (rootInode A 1 true) e1)
      (fun j t => Q (some (j, 16 * K)) t) E) {fuel : Nat}
    (hk : k ≤ K) (hfuel : K - k < fuel) :
    wp (dirlookupFrom 0 name (16 * k) fuel) (s.kernel (rootInode A 1 true) e1) Q E := by
  induction fuel generalizing k with
  | zero => omega
  | succ fuel ih =>
    have hlt : K < files.length + 2 := by
      rw [← entries_length]
      exact (List.getElem?_eq_some_iff.mp hK).1
    have hsize : 16 * k < ((s.kernel (rootInode A 1 true) e1).icache 0).size := by
      rw [kernel_icache_zero, rootInode, roundUp, h.size, rootBytes_length]
      simp only [BSIZE]
      omega
    obtain ⟨e, he⟩ : ∃ e, (entries files)[k]? = some e :=
      ⟨_, getElem?_eq_getElem (by rw [entries_length]; omega)⟩
    simp only [dirlookupFrom, wp_bind, wp_getInode]
    rw [if_pos hsize]
    refine wp_seq (readDirent_entry h hn he _) fun de t hde => ?_
    obtain ⟨rfl, rfl⟩ := hde
    rcases eq_or_ne k K with rfl | heq
    · obtain rfl : (inum, nm) = e := Option.some.inj (hK.symm.trans he)
      rw [if_pos ⟨by rw [direntInum_dirent hinum.2]; exact hinum.1, hname⟩, wp_bind,
        direntInum_dirent hinum.2]
      exact hget
    · rw [if_neg fun hc => hskip k (by omega) e he hc.2]
      exact ih (k := k + 1) (by omega) (by omega)

end

/-! ## The steps of a lookup -/

theorem iget_root (s : State) :
    wp (iget ROOTINO) (s.kernel emptyInode emptyInode)
      (fun i t => i = 0 ∧ t = s.kernel ⟨zeroDinode, ROOTINO, 1, false, false⟩ emptyInode) E := by
  refine wp_mono (iget_first_free (i := 0) (fun j _ hj => ?_) (by decide) ?_
    fun j hj => absurd hj (Nat.not_lt_zero j)) fun i t ht => ?_
  · rw [← fs_eq_kernel] at hj
    exact absurd hj (lt_irrefl 0)
  · rw [kernel_icache_zero]
    rfl
  · rw [kernel_set_zero, kernel_icache_zero] at ht
    exact ht

theorem iget_file (s : State) {ref : Int} {d : Dinode} {l v : Bool} (hinum : inum ≠ ROOTINO)
    (href : ref ≠ 0) :
    wp (iget inum) (s.kernel ⟨d, ROOTINO, ref, l, v⟩ emptyInode)
      (fun i t => i = 1 ∧
        t = s.kernel ⟨d, ROOTINO, ref, l, v⟩ ⟨zeroDinode, inum, 1, false, false⟩) E := by
  refine wp_mono (iget_first_free (i := 1) (fun j _ hj => ?_) (by decide) ?_ fun j hj => ?_)
    fun i t ht => ?_
  · by_cases hzero : j = 0
    · rw [hzero, kernel_icache_zero]
      exact hinum.symm
    · have hfree : (s.kernel ⟨d, ROOTINO, ref, l, v⟩ emptyInode).icache j = emptyInode := by
        by_cases hone : j = 1
        · rw [hone, kernel_icache_one]
        · exact kernel_icache_of_ne _ _ _ hzero hone
      rw [hfree] at hj
      exact absurd hj (lt_irrefl 0)
  · rw [kernel_icache_one]
    rfl
  · obtain rfl : j = 0 := by omega
    rw [kernel_icache_zero]
    exact href
  · rw [kernel_set_one, kernel_icache_one] at ht
    exact ht

theorem ilock_root (h : Finished files A s) :
    ilock 0 (s.kernel ⟨zeroDinode, ROOTINO, 1, false, false⟩ e1) =
      .ok ((), s.kernel (rootInode A 1 true) e1) := by
  have hdin : dinodeAt sb s.view ROOTINO = roundUp (A ROOTINO) := by rw [h.bitmap, h.rounded]
  have htype : (roundUp (A ROOTINO)).type = T_DIR := h.root.1
  have hrun := ilock_invalid (s := s.kernel ⟨zeroDinode, ROOTINO, 1, false, false⟩ e1) (i := 0)
  rw [kernel_set_zero, kernel_icache_zero, kernel_sb, kernel_cache, hdin, htype] at hrun
  exact hrun Int.one_pos rfl rfl (by decide)

theorem iunlockput_root (h : Finished files A s) :
    wp (iunlockput 0) (s.kernel (rootInode A 1 true) e1)
      (fun _ t => t = s.kernel (rootInode A 0 false) e1) E := by
  have hnlink : (roundUp (A ROOTINO)).nlink ≠ 0 := by
    rw [roundUp, h.root.2]
    decide
  refine wp_mono (iunlockput_linked ?_ ?_ ?_) fun _ t ht => ?_
  · rw [kernel_icache_zero]
    rfl
  · rw [kernel_icache_zero]
    exact Int.one_pos
  · rw [kernel_icache_zero]
    exact hnlink
  · rw [kernel_set_zero, kernel_icache_zero] at ht
    exact ht

/-! ## `namei` -/

/-- The names on the command line, as C strings. -/
structure Named (files : List HostFile) : Prop where
  nul : ∀ f ∈ files, 0 ∉ f.path
  nonempty : ∀ f ∈ files, f.name ≠ []
  dots : ∀ f ∈ files, f.name ≠ dot ∧ f.name ≠ dotdot
  distinct : files.Pairwise fun f g => f.name.take DIRSIZ ≠ g.name.take DIRSIZ

theorem HostFile.shortname_subset (f : HostFile) : f.shortname ⊆ f.path := by
  rw [shortname]
  split_ifs
  · exact drop_subset 5 f.path
  · exact Subset.refl _

theorem HostFile.name_subset (f : HostFile) : f.name ⊆ f.shortname := by
  rw [name]
  split_ifs
  · exact drop_subset 1 f.shortname
  · exact Subset.refl _

theorem Named.nul_name (hnames : Named files) (hf : f ∈ files) : 0 ∉ f.name :=
  fun hc => hnames.nul f hf (f.shortname_subset (f.name_subset hc))

theorem skipelem_name (hne : name ≠ []) (hslash : slash ∉ name) :
    skipelem (slash :: name) = some (name.take DIRSIZ, []) := by
  obtain ⟨c, cs, rfl⟩ := exists_cons_of_ne_nil hne
  have hc : c ≠ slash := fun he => hslash (he ▸ mem_cons_self)
  have hdrop : (slash :: c :: cs).dropWhile (· = slash) = c :: cs := by
    simp [hc]
  have htake : (c :: cs).takeWhile (· ≠ slash) = c :: cs := by
    rw [takeWhile_eq_self_iff]
    intro x hx
    simpa using fun he : x = slash => hslash (he ▸ hx)
  rw [skipelem, hdrop]
  simp only [htake, drop_length, dropWhile_nil]

/-- No entry before that of a file has its name. -/
theorem Named.skip (hnames : Named files) (hf : files[idx]? = some f) (hk : k < idx + 2)
    (he : (entries files)[k]? = some e) : direntName (dirent e.1 e.2) ≠ f.name.take DIRSIZ := by
  have hmem := mem_of_getElem? hf
  -- a name that is cut off is longer than the two dots
  have hshort : ∀ d : Name, d.length < DIRSIZ → f.name ≠ d → d ≠ f.name.take DIRSIZ := by
    intro d hd hne he
    have hlen := congrArg List.length he
    rw [length_take] at hlen
    rw [take_of_length_le (by omega)] at he
    exact hne he.symm
  match k with
  | 0 =>
    obtain rfl : (ROOTINO, dot) = e := Option.some.inj he
    exact hshort dot (by decide) (hnames.dots f hmem).1
  | 1 =>
    obtain rfl : (ROOTINO, dotdot) = e := Option.some.inj he
    exact hshort dotdot (by decide) (hnames.dots f hmem).2
  | k + 2 =>
    obtain ⟨hidx, hget⟩ := List.getElem?_eq_some_iff.mp hf
    have hk' : k < files.length := by omega
    have hg := getElem?_eq_getElem hk'
    obtain rfl := Option.some.inj ((entries_file hg).symm.trans he)
    rw [direntName_dirent (hnames.nul_name (getElem_mem hk')), ← hget]
    exact pairwise_iff_getElem.mp hnames.distinct k idx hk' hidx (by omega)

theorem namei_finds (h : Finished files A s) (hn : files.length + 1 < NINODES)
    (hnames : Named files) (hf : files[idx]? = some f) (cwd : Nat) :
    wp (namei cwd (slash :: f.name)) s.fs
      (fun r t => r = some 1 ∧
        t = s.kernel (rootInode A 0 false) ⟨zeroDinode, idx + 2, 1, false, false⟩) E := by
  have hmem := mem_of_getElem? hf
  have hopened := h.opened f hmem
  have hslash : slash ∉ f.name := fun hc => hopened (.inl (f.name_subset hc))
  have hidx : idx < files.length := (List.getElem?_eq_some_iff.mp hf).1
  have htype : ((s.kernel (rootInode A 1 true) emptyInode).icache 0).type = T_DIR := by
    rw [kernel_icache_zero]
    exact h.root.1
  have hbound : NINODES < 2 ^ 16 := by decide
  rw [fs_eq_kernel]
  simp only [namei, namex, wp_bind]
  refine wp_seq (iget_root s) fun i t ht => ?_
  obtain ⟨rfl, rfl⟩ := ht
  rw [namexFrom, skipelem_name (hnames.nonempty f hmem) hslash]
  simp only [wp_bind]
  refine wp_of_run (ilock_root h) ?_
  rw [wp_getInode, if_neg (not_not.mpr htype), if_neg (by simp)]
  simp only [wp_bind, dirlookup, wp_getInode]
  rw [if_neg (not_not.mpr htype)]
  refine dirlookupFrom_finds h hn (k := 0) (entries_file hf) ⟨by omega, by omega⟩
    (direntName_dirent (hnames.nul_name hmem) _) (fun k hk e he => hnames.skip hf hk he) ?_
    (Nat.zero_le _) ?_
  · refine wp_mono (iget_file s (by rw [ROOTINO]; omega) one_ne_zero) fun i t ht => ?_
    obtain ⟨rfl, rfl⟩ := ht
    simp only [wp_bind]
    refine wp_mono (iunlockput_root h) fun _ t ht => ?_
    have hskip : skipelem [] = none := rfl
    exact ⟨rfl, ht⟩
  · rw [kernel_icache_zero, rootInode, roundUp, h.size, rootBytes_length]
    simp only [BSIZE]
    omega

/-! ## The files -/

/-- The entry of a file. -/
def fileInode (A : Nat → Dinode) (inum : Nat) : Inode := ⟨A inum, inum, 1, true, true⟩

theorem fileBytes_file (hf : files[idx]? = some f) : fileBytes files (idx + 2) = f.bytes := by
  rw [fileBytes, if_neg (by rw [ROOTINO]; omega), if_pos (by omega), Nat.add_sub_cancel, hf]
  rfl

section

variable (h : Finished files A s) (hn : files.length + 1 < NINODES)
  (hf : files[idx]? = some f)
include h hn hf

theorem Finished.dinodeAt_file : dinodeAt sb s.view (idx + 2) = A (idx + 2) := by
  have hidx : idx < files.length := (List.getElem?_eq_some_iff.mp hf).1
  rw [h.bitmap]
  exact h.dinodeAt_of_ne (by omega) (by rw [ROOTINO]; omega)

theorem ilock_file {e0 : Inode} :
    ilock 1 (s.kernel e0 ⟨zeroDinode, idx + 2, 1, false, false⟩) =
      .ok ((), s.kernel e0 (fileInode A (idx + 2))) := by
  have hidx : idx < files.length := (List.getElem?_eq_some_iff.mp hf).1
  have hrun := ilock_invalid (s := s.kernel e0 ⟨zeroDinode, idx + 2, 1, false, false⟩) (i := 1)
  rw [kernel_set_one, kernel_icache_one, kernel_sb, kernel_cache,
    h.dinodeAt_file hn hf, (h.file idx hidx).1] at hrun
  exact hrun Int.one_pos rfl rfl (by decide)

/-- The file is open in entry 1. -/
theorem Finished.inv_file :
    Inv False A (some 0) (fun j => if j = 1 then 1 else 0)
      (s.kernel (rootInode A 0 false) (fileInode A (idx + 2))) := by
  have hidx : idx < files.length := (List.getElem?_eq_some_iff.mp hf).1
  have hone : ∀ {j : Nat}, 0 < (if j = 1 then 1 else 0) → j = 1 := by
    intro j hj
    by_contra hne
    rw [if_neg hne] at hj
    exact lt_irrefl 0 hj
  refine ⟨?_, ⟨fun j hj => ?_, fun j _ => ?_, fun j hj => ?_, fun j k hj hk _ => ?_,
    fun j hj _ => ?_, fun j hj _ => ?_⟩, fun inum hi hx => ?_⟩
  · rw [kernel_sb, kernel_cache, kernel_disk]
    exact h.built.good
  · rw [hone hj]
    decide
  · by_cases hj : j = 1
    · rw [hj, kernel_icache_one]
      rfl
    · rw [if_neg hj]
      by_cases hzero : j = 0
      · rw [hzero, kernel_icache_zero]
        rfl
      · rw [kernel_icache_of_ne _ _ _ hzero hj]
        rfl
  · rw [hone hj, kernel_icache_one, kernel_sb]
    show idx + 2 < NINODES
    omega
  · rw [hone hj, hone hk]
  · rw [hone hj, kernel_icache_one]
    rfl
  · rw [hone hj, kernel_icache_one]
    show (A (idx + 2)).type ≠ 0
    rw [(h.file idx hidx).1]
    decide
  · have hne : inum ≠ ROOTINO := by
      have := hx 0 rfl
      rw [kernel_icache_zero] at this
      exact this.symm
    rw [kernel_sb] at hi
    rw [kernel_cache, kernel_sb, h.bitmap]
    exact h.dinodeAt_of_ne hi hne

theorem Finished.size_file : (A (idx + 2)).size = f.bytes.length := by
  have hidx : idx < files.length := (List.getElem?_eq_some_iff.mp hf).1
  rw [h.built.sizes (idx + 2) (by omega) (by simp [ROOTINO]), fileBytes_file hf]

theorem Finished.contents_file {e0 : Inode} : contents A (s.kernel e0 e1) (idx + 2) = f.bytes := by
  have hidx : idx < files.length := (List.getElem?_eq_some_iff.mp hf).1
  have hsize := h.size_file hn hf
  refine bytes_ext (by rw [contents_length, hsize]) fun j hj => ?_
  rw [contents_length] at hj
  have hbyte := h.built.bytes (idx + 2) (by omega) j (by rw [fileBytes_file hf]; omega)
  rw [fileBytes_file hf] at hbyte
  rw [contents, kernel_sb, kernel_cache, getD_eq_getElem?_getD,
    getElem?_map, getElem?_range hj, Option.map_some, Option.getD_some]
  show (byteAt NINODES A s.view (idx + 2) j).getD 0 = _
  rw [hbyte, Option.getD_some]

end

/-- `mkfs` succeeds if the files fit, and the kernel finds in its image every
file by its name, with its length and its contents. -/
theorem kernel_reads_files (files : List HostFile) (hcount : files.length ≤ NINODES - 2)
    (hnames : Named files) :
    (Fits files → ∃ s, main files start = .ok ((), s)) ∧
      ∀ s, main files start = .ok ((), s) → ∃ fs, fsinit s.img = .ok fs ∧
        ∀ f ∈ files, ∀ cwd, ∃ i t u,
          namei cwd (slash :: f.name) fs = .ok (some i, t) ∧ ilock i t = .ok ((), u) ∧
          (u.icache i).type = T_FILE ∧ (u.icache i).nlink = 1 ∧
          (u.icache i).size = f.bytes.length ∧
          ∀ off n, n < 2 ^ 32 → readi i off n u =
            .ok (if f.bytes.length < off ∨ 2 ^ 32 ≤ off + n then none
              else some ((f.bytes.drop off).take n), u) := by
  have htwo : NINODES - 2 + 2 = NINODES := rfl
  have hn : files.length + 1 < NINODES := by omega
  constructor
  · intro hfits
    obtain ⟨_, s, hrun, _⟩ := hfits.finished
    exact ⟨s, hrun⟩
  · intro s hrun
    obtain ⟨A, h⟩ := wp_ok (Q := fun _ t => ∃ A, Finished files A t) (main_spec hn) hrun
    refine ⟨s.fs, h.fsinit_img, fun f hmem cwd => ?_⟩
    obtain ⟨idx, hf⟩ := mem_iff_getElem?.mp hmem
    have hidx : idx < files.length := (List.getElem?_eq_some_iff.mp hf).1
    have hsize : (fileInode A (idx + 2)).size = f.bytes.length := h.size_file hn hf
    refine ⟨1, _, _, run_of_wp (namei_finds h hn hnames hf cwd), ilock_file h hn hf, ?_, ?_, ?_,
      fun off n hlt => ?_⟩
    · rw [kernel_icache_one]
      exact (h.file idx hidx).1
    · rw [kernel_icache_one]
      exact (h.file idx hidx).2
    · rw [kernel_icache_one]
      exact hsize
    · rw [readi_eq (h.inv_file hn hf) (i := 1) Nat.one_pos (by rw [kernel_icache_one]; rfl)
        hlt, kernel_icache_one]
      have hinum : (fileInode A (idx + 2)).inum = idx + 2 := rfl
      rw [hinum, h.contents_file hn hf, hsize]

theorem catFiles_named : Named catFiles :=
  ⟨by decide, by decide, by decide, by decide⟩

theorem kernel_reads_cat : ∃ s fs i t u, main catFiles start = .ok ((), s) ∧
    fsinit s.img = .ok fs ∧ namei 0 [47, 99, 97, 116] fs = .ok (some i, t) ∧
    ilock i t = .ok ((), u) ∧ (u.icache i).size = 3 ∧
    readi i 1 2 u = .ok (some [2, 3], u) := by
  obtain ⟨hok, hread⟩ := kernel_reads_files catFiles (by decide) catFiles_named
  obtain ⟨s, hrun⟩ := hok catFiles_fits
  obtain ⟨fs, hfs, hfiles⟩ := hread s hrun
  obtain ⟨i, t, u, hnamei, hlock, _, _, hsize, hreadi⟩ :=
    hfiles _ (mem_cons_self) 0
  exact ⟨s, fs, i, t, u, hrun, hfs, hnamei, hlock, hsize, hreadi 1 2 (by decide)⟩

end SummerOsk.Mkfs
