import SummerOsk.Fs.Dirs

/-!
# System calls

Every system call of `kernel/sysfile.c` that changes directories or files keeps
the invariant of the file system.  `sys_open` never returns a directory for
writing, so that `filewrite` does not write to one.
-/

namespace SummerOsk.Fs

open Lib

variable {s t u : FsState} {h : Nat → Nat} {cwd i : Nat}

theorem FsInv.inum_lt (hI : FsInv h s) (hi : 0 < h i) : (s.icache i).inum < s.sb.ninodes := by
  obtain ⟨A, hI⟩ := hI
  exact hI.cached.inum i hi

theorem bmod_short (x : Int) : (short x).bmod (2 ^ 16) = short x := by
  simp [short]

/-- The links of an inode are changed and written back. -/
theorem set_nlink_spec (hI : FsInv h s) (hi : 0 < h i) (hv : (s.icache i).valid) (x : Int) :
    wp (iupdate i)
      { s with icache := Function.update s.icache i { s.icache i with nlink := short x } }
      (fun _ t => FsInv h t ∧ Stable h s t) Allowed := by
  obtain ⟨A, hIA⟩ := id hI
  have hok := hIA.good.ok _ (hIA.cached.inum i hi)
  rw [← hIA.data_eq hi hv] at hok
  exact set_links_spec hI hi hv hok.major hok.minor (bmod_short x)

/-! ## `create` -/

section

variable {dp ip : Nat} {type : Int}

/-- Within a call: the directory `dp` and the inode `ip` are held and valid. -/
structure Holding (h : Nat → Nat) (dp ip : Nat) (type : Int) (s t : FsState) : Prop where
  inv : FsInv (hold (hold h dp) ip) t
  stable : Stable h s t
  parent : (t.icache dp).valid = true
  valid : (t.icache ip).valid = true
  type : (t.icache ip).type = type

theorem Holding.dp_pos (h : Nat → Nat) (dp ip : Nat) : 0 < hold (hold h dp) ip dp :=
  hold_pos_of_pos ip (hold_pos h dp)

theorem Holding.ip_pos (h : Nat → Nat) (dp ip : Nat) : 0 < hold (hold h dp) ip ip :=
  hold_pos (hold h dp) ip

/-- What keeps the references keeps both. -/
theorem Holding.step (hc : Holding h dp ip type s t) (hI : FsInv (hold (hold h dp) ip) u)
    (hS : Stable (hold (hold h dp) ip) t u) : Holding h dp ip type s u := by
  obtain ⟨hv, ht⟩ := hS.valid ip (Holding.ip_pos h dp ip) hc.valid
  exact ⟨hI, hc.stable.trans hS.of_hold.of_hold,
    (hS.valid dp (Holding.dp_pos h dp ip) hc.parent).1, hv, ht.trans hc.type⟩

/-- The end of `create`: the entry in the parent. -/
theorem create_link_spec (hc : Holding h dp ip type s t) (name : Name) :
    wp (do
        let r ← dirlink dp name (← getInode ip).inum
        if r < 0 then panic "create: dirlink"
        iunlockput dp
        return some ip : FsM (Option Nat)) t
      (fun r t => FsInv (holdOpt h r) t ∧ Stable h s t ∧ ∀ ip', r = some ip' →
        (t.icache ip').valid = true ∧ (t.icache ip').type = type) Allowed := by
  simp only [wp_bind, wp_getInode]
  refine wp_mono (dirlink_spec hc.inv (Holding.dp_pos h dp ip) hc.parent name
    (hc.inv.inum_lt (Holding.ip_pos h dp ip))) ?_
  rintro r u ⟨hI, hS⟩
  have hc' := hc.step hI hS
  refine wp_ite (fun _ => by simp [Allowed]) fun _ => ?_
  rw [wp_bind]
  have hI' : FsInv (hold (hold h ip) dp) u := by
    rw [hold_comm]
    exact hc'.inv
  refine wp_mono (iunlockput_spec hI') ?_
  rintro - v ⟨hI2, hS2⟩
  obtain ⟨hv, ht⟩ := hS2.valid ip (hold_pos h ip) hc'.valid
  refine ⟨hI2, hc'.stable.trans hS2.of_hold, fun ip' hr => ?_⟩
  cases hr
  exact ⟨hv, ht.trans hc'.type⟩

/-- `create` returns the new or the existing inode, and a directory only when it
was asked for one. -/
theorem create_spec (hI : FsInv h s) (hcwd : 0 < h cwd) (path : List UInt8) {major minor : Int}
    (htype : type.bmod (2 ^ 16) = type) (hmajor : major.bmod (2 ^ 16) = major)
    (hminor : minor.bmod (2 ^ 16) = minor) :
    wp (create cwd path type major minor) s
      (fun r t => FsInv (holdOpt h r) t ∧ Stable h s t ∧ ∀ ip, r = some ip →
        (t.icache ip).valid = true ∧ ((t.icache ip).type = T_DIR → type = T_DIR)) Allowed := by
  refine wp_seq (namex_spec hI hcwd true path) ?_
  rintro r t ⟨hI1, hS1⟩
  cases r with
  | none => exact ⟨hI1, hS1, fun _ hr => by cases hr⟩
  | some dn =>
    obtain ⟨dp, name⟩ := dn
    obtain ⟨A1, hI1⟩ := hI1
    refine wp_seq (ilock_spec hI1 (hold_pos h dp)) ?_
    rintro - u ⟨hI2, hS2, hvdp⟩
    have hI2 : FsInv (hold h dp) u := ⟨A1, hI2⟩
    refine wp_seq (dirlookup_spec hI2 (hold_pos h dp) hvdp name) ?_
    rintro r v ⟨hnone, hI3, hS3, -⟩
    have hS : Stable h s v := hS1.trans (hS2.trans hS3).of_hold
    cases r with
    | some jo =>
      obtain ⟨ip, o⟩ := jo
      rw [wp_bind]
      have hI3 : FsInv (hold (hold h ip) dp) v := by
        rw [hold_comm]
        exact hI3
      refine wp_mono (iunlockput_spec hI3) ?_
      rintro - w ⟨⟨A4, hI4⟩, hS4⟩
      refine wp_seq (ilock_spec hI4 (hold_pos h ip)) ?_
      rintro - x ⟨hI5, hS5, hv⟩
      have hS' : Stable h s x := (hS.trans hS4.of_hold).trans hS5.of_hold
      refine wp_ite (fun hfile => ?_) fun _ => ?_
      · refine ⟨⟨A4, hI5⟩, hS', fun ip' hr => ?_⟩
        cases hr
        refine ⟨hv, fun ht => ?_⟩
        rw [ht] at hfile
        simp [T_DIR, T_FILE, T_DEVICE] at hfile
      · refine wp_seq (iunlockput_spec ⟨A4, hI5⟩) ?_
        rintro - y ⟨hI6, hS6⟩
        exact ⟨hI6, hS'.trans hS6, fun _ hr => by cases hr⟩
    | none =>
      obtain rfl := hnone rfl
      refine wp_seq (ialloc_spec hI3 htype) ?_
      rintro ip w ⟨A4, hI4, hS4, htip⟩
      refine wp_seq (ilock_spec hI4 (Holding.ip_pos h dp ip)) ?_
      rintro - x ⟨hI5, hS5, hv⟩
      have hc : Holding h dp ip type s x := by
        refine ⟨⟨A4, hI5⟩, (hS.trans hS4.of_hold).trans hS5.of_hold.of_hold, ?_, hv, ?_⟩
        · have := (hS4.valid dp (hold_pos h dp) hvdp).1
          exact (hS5.valid dp (Holding.dp_pos h dp ip) this).1
        · rw [hI5.data_eq (Holding.ip_pos h dp ip) hv, hS5.inum ip (Holding.ip_pos h dp ip), htip]
      simp only [wp_bind, wp_modifyInode]
      refine wp_mono (set_links_spec hc.inv (Holding.ip_pos h dp ip) hc.valid hmajor hminor
        (by rfl)) ?_
      rintro - y ⟨hI6, hS6⟩
      have hc := hc.step hI6 hS6
      have hlink : ∀ {z : FsState}, Holding h dp ip type s z → wp (do
          let r ← dirlink dp name (← getInode ip).inum
          if r < 0 then panic "create: dirlink"
          iunlockput dp
          return some ip : FsM (Option Nat)) z
          (fun r t => FsInv (holdOpt h r) t ∧ Stable h s t ∧ ∀ ip, r = some ip →
            (t.icache ip).valid = true ∧ ((t.icache ip).type = T_DIR → type = T_DIR))
          Allowed := by
        intro z hz
        refine wp_mono (create_link_spec hz name) fun r z' hr => ⟨hr.1, hr.2.1, fun ip' he => ?_⟩
        obtain ⟨hv, ht⟩ := hr.2.2 ip' he
        exact ⟨hv, fun hd => ht ▸ hd⟩
      refine wp_ite (fun _ => ?_) fun _ => hlink hc
      -- the entries of the new directory
      simp only [wp_bind, wp_modifyInode]
      refine wp_mono (set_nlink_spec hc.inv (Holding.dp_pos h dp ip) hc.parent _) ?_
      rintro - z ⟨hI7, hS7⟩
      have hc := hc.step hI7 hS7
      simp only [wp_getInode]
      refine wp_mono (dirlink_spec hc.inv (Holding.ip_pos h dp ip) hc.valid dot
        (hc.inv.inum_lt (Holding.ip_pos h dp ip))) ?_
      rintro r z1 ⟨hI8, hS8⟩
      have hc := hc.step hI8 hS8
      refine wp_ite (fun _ => by simp [Allowed]) fun _ => ?_
      simp only [wp_bind, wp_getInode]
      refine wp_mono (dirlink_spec hc.inv (Holding.ip_pos h dp ip) hc.valid dotdot
        (hc.inv.inum_lt (Holding.dp_pos h dp ip))) ?_
      rintro r z2 ⟨hI9, hS9⟩
      have hc := hc.step hI9 hS9
      exact wp_ite (fun _ => by simp [Allowed]) fun _ => hlink hc

end

theorem sysMkdir_spec (hI : FsInv h s) (hcwd : 0 < h cwd) (path : List UInt8) :
    wp (sysMkdir cwd path) s (fun _ t => FsInv h t ∧ Stable h s t) Allowed := by
  refine wp_seq (create_spec hI hcwd path (by decide) (by decide) (by decide)) ?_
  rintro r t ⟨hI1, hS1, -⟩
  cases r with
  | none => exact ⟨hI1, hS1⟩
  | some ip =>
    simp only [wp_bind]
    refine wp_mono (iunlockput_spec hI1) ?_
    rintro - u ⟨hI2, hS2⟩
    exact ⟨hI2, hS1.trans hS2⟩

theorem sysMknod_spec (hI : FsInv h s) (hcwd : 0 < h cwd) (path : List UInt8) (major minor : Int) :
    wp (sysMknod cwd path major minor) s (fun _ t => FsInv h t ∧ Stable h s t) Allowed := by
  refine wp_seq (create_spec hI hcwd path (by decide) (bmod_short _) (bmod_short _)) ?_
  rintro r t ⟨hI1, hS1, -⟩
  cases r with
  | none => exact ⟨hI1, hS1⟩
  | some ip =>
    simp only [wp_bind]
    refine wp_mono (iunlockput_spec hI1) ?_
    rintro - u ⟨hI2, hS2⟩
    exact ⟨hI2, hS1.trans hS2⟩

/-! ## `sys_link` and `sys_unlink` -/

theorem sysLink_spec (hI : FsInv h s) (hcwd : 0 < h cwd) (old new : List UInt8) :
    wp (sysLink cwd old new) s (fun _ t => FsInv h t ∧ Stable h s t) Allowed := by
  refine wp_seq (namei_spec hI hcwd old) ?_
  rintro r t ⟨hI1, hS1⟩
  cases r with
  | none => exact ⟨hI1, hS1⟩
  | some ip =>
    obtain ⟨A1, hI1⟩ := hI1
    have hip := hold_pos h ip
    refine wp_seq (ilock_spec hI1 hip) ?_
    rintro - u ⟨hI2, hS2, hv⟩
    have hI2 : FsInv (hold h ip) u := ⟨A1, hI2⟩
    have hS : Stable h s u := hS1.trans hS2.of_hold
    refine wp_ite (fun _ => ?_) fun _ => ?_
    · refine wp_seq (iunlockput_spec hI2) ?_
      rintro - v ⟨hI3, hS3⟩
      exact ⟨hI3, hS.trans hS3⟩
    · simp only [wp_bind, wp_modifyInode]
      refine wp_mono (set_nlink_spec hI2 hip hv _) ?_
      rintro - v ⟨hI3, hS3⟩
      refine wp_mono (iunlock_spec hI3) ?_
      rintro - w ⟨hI4, hS4⟩
      have hS : Stable h s w := hS.trans (hS3.trans hS4).of_hold
      -- what follows whether the entry was made or not
      have hend : ∀ {z : FsState} (linked : Bool), FsInv (hold h ip) z → Stable h s z →
          wp (if linked = true then do
              iput ip
              return 0
            else do
              ilock ip
              modifyInode ip fun n => { n with nlink := short (n.nlink - 1) }
              iupdate ip
              iunlockput ip
              return -1 : FsM Int) z (fun _ t => FsInv h t ∧ Stable h s t) Allowed := by
        rintro z linked ⟨A5, hI5⟩ hS5
        refine wp_ite (fun _ => ?_) fun _ => ?_
        · refine wp_seq (iput_spec ⟨A5, hI5⟩) ?_
          rintro - z' ⟨hI6, hS6⟩
          exact ⟨hI6, hS5.trans hS6⟩
        · refine wp_seq (ilock_spec hI5 hip) ?_
          rintro - z1 ⟨hI6, hS6, hv6⟩
          simp only [wp_bind, wp_modifyInode]
          refine wp_mono (set_nlink_spec ⟨A5, hI6⟩ hip hv6 _) ?_
          rintro - z2 ⟨hI7, hS7⟩
          refine wp_mono (iunlockput_spec hI7) ?_
          rintro - z3 ⟨hI8, hS8⟩
          exact ⟨hI8, (hS5.trans (hS6.trans hS7).of_hold).trans hS8⟩
      refine wp_mono (namex_spec hI4 (hold_pos_of_pos ip hcwd) true new) ?_
      rintro r x ⟨hI5, hS5⟩
      cases r with
      | none => exact hend false hI5 (hS.trans hS5.of_hold)
      | some dn =>
        obtain ⟨dp, name⟩ := dn
        obtain ⟨A5, hI5⟩ := hI5
        simp only [wp_bind, wp_getInode]
        refine wp_mono (ilock_spec hI5 (hold_pos (hold h ip) dp)) ?_
        rintro - y ⟨hI6, hS6, hv6⟩
        have hI6 : FsInv (hold (hold h ip) dp) y := ⟨A5, hI6⟩
        refine wp_mono (dirlink_spec hI6 (hold_pos (hold h ip) dp) hv6 name
          (hI6.inum_lt (hold_pos_of_pos dp hip))) ?_
        rintro r z ⟨hI7, hS7⟩
        refine wp_mono (iunlockput_spec hI7) ?_
        rintro - z' ⟨hI8, hS8⟩
        refine hend (decide (0 ≤ r)) hI8 (hS.trans ?_)
        exact ((hS5.trans (hS6.trans hS7).of_hold).trans hS8).of_hold

theorem unlinkEntry_spec {dp ip off : Nat} {type : Int} (hc : Holding h dp ip type s t)
    (hoff : off % 16 = 0) :
    wp (unlinkEntry dp ip off) t (fun _ t => FsInv h t ∧ Stable h s t) Allowed := by
  have hzero : direntInum (List.replicate 16 0) < t.sb.ninodes :=
    lt_of_le_of_lt (Nat.zero_le _) (hc.inv.inum_lt (Holding.ip_pos h dp ip))
  refine wp_seq (writei_inv hc.inv (Holding.dp_pos h dp ip) hc.parent (by omega)
    fun _ => .inr (isEntry_ofBytes (by simp) hzero hoff)) ?_
  rintro r u ⟨hI1, hS1⟩
  have hc := hc.step hI1 hS1
  refine wp_ite (fun _ => by simp [Allowed]) fun _ => ?_
  -- what follows whether the entry was of a directory or not
  have hend : ∀ {z : FsState}, Holding h dp ip type s z → wp (do
      iunlockput dp
      modifyInode ip fun n => { n with nlink := short (n.nlink - 1) }
      iupdate ip
      iunlockput ip
      return 0 : FsM Int) z (fun _ t => FsInv h t ∧ Stable h s t) Allowed := by
    intro z hz
    have hI2 : FsInv (hold (hold h ip) dp) z := by
      rw [hold_comm]
      exact hz.inv
    refine wp_seq (iunlockput_spec hI2) ?_
    rintro - z1 ⟨hI3, hS3⟩
    have hv := (hS3.valid ip (hold_pos h ip) hz.valid).1
    simp only [wp_bind, wp_modifyInode]
    refine wp_mono (set_nlink_spec hI3 (hold_pos h ip) hv _) ?_
    rintro - z2 ⟨hI4, hS4⟩
    refine wp_mono (iunlockput_spec hI4) ?_
    rintro - z3 ⟨hI5, hS5⟩
    exact ⟨hI5, (hz.stable.trans (hS3.trans hS4).of_hold).trans hS5⟩
  refine wp_ite (fun _ => ?_) fun _ => hend hc
  rw [wp_bind, wp_modifyInode]
  refine wp_seq (set_nlink_spec hc.inv (Holding.dp_pos h dp ip) hc.parent _) ?_
  rintro - z ⟨hI2, hS2⟩
  exact hend (hc.step hI2 hS2)

theorem sysUnlink_spec (hI : FsInv h s) (hcwd : 0 < h cwd) (path : List UInt8) :
    wp (sysUnlink cwd path) s (fun _ t => FsInv h t ∧ Stable h s t) Allowed := by
  refine wp_seq (namex_spec hI hcwd true path) ?_
  rintro r t ⟨hI1, hS1⟩
  cases r with
  | none => exact ⟨hI1, hS1⟩
  | some dn =>
    obtain ⟨dp, name⟩ := dn
    obtain ⟨A1, hI1⟩ := hI1
    have hdp := hold_pos h dp
    refine wp_seq (ilock_spec hI1 hdp) ?_
    rintro - u ⟨hI2, hS2, hvdp⟩
    have hI2 : FsInv (hold h dp) u := ⟨A1, hI2⟩
    have hS : Stable h s u := hS1.trans hS2.of_hold
    have hput : ∀ {z : FsState}, FsInv (hold h dp) z → Stable h s z →
        wp (do
            iunlockput dp
            return -1 : FsM Int) z (fun _ t => FsInv h t ∧ Stable h s t) Allowed := by
      intro z hIz hSz
      refine wp_seq (iunlockput_spec hIz) ?_
      rintro - z' ⟨hI', hS'⟩
      exact ⟨hI', hSz.trans hS'⟩
    refine wp_ite (fun _ => hput hI2 hS) fun _ => ?_
    refine wp_seq (dirlookup_spec hI2 hdp hvdp name) ?_
    rintro r v ⟨-, hI3, hS3, hoff⟩
    cases r with
    | none => exact hput hI3 (hS.trans hS3.of_hold)
    | some jo =>
      obtain ⟨ip, off⟩ := jo
      have hoff := hoff ip off rfl
      obtain ⟨A3, hI3⟩ := hI3
      refine wp_seq (ilock_spec hI3 (Holding.ip_pos h dp ip)) ?_
      rintro - w ⟨hI4, hS4, hv⟩
      have hc : Holding h dp ip (w.icache ip).type s w := by
        refine ⟨⟨A3, hI4⟩, (hS.trans hS3.of_hold).trans hS4.of_hold.of_hold, ?_, hv, rfl⟩
        have := (hS3.valid dp hdp hvdp).1
        exact (hS4.valid dp (Holding.dp_pos h dp ip) this).1
      refine wp_ite (fun _ => by simp [Allowed]) fun _ => ?_
      refine wp_ite (fun _ => ?_) fun _ => unlinkEntry_spec hc hoff
      refine wp_seq (isdirempty_spec hc.inv (Holding.ip_pos h dp ip) hc.valid) ?_
      rintro b _ rfl
      refine wp_ite (fun _ => ?_) fun _ => unlinkEntry_spec hc hoff
      refine wp_seq (iunlockput_spec hc.inv) ?_
      rintro - x ⟨hI5, hS5⟩
      exact hput hI5 (hc.stable.trans hS5.of_hold)

/-! ## Files and current directories -/

/-- What is known about an inode that `sys_open` returns. -/
def Opened (h : Nat → Nat) (omode : Nat) (s : FsState) (r : Option Nat) (t : FsState) : Prop :=
  FsInv (holdOpt h r) t ∧ Stable h s t ∧ ∀ ip, r = some ip →
    (t.icache ip).valid = true ∧ (isWritable omode = true → (t.icache ip).type ≠ T_DIR)

theorem openInode_spec (hI : FsInv h s) (hcwd : 0 < h cwd) (path : List UInt8) (omode : Nat) :
    wp (openInode cwd path omode) s (Opened h omode s) Allowed := by
  refine wp_ite (fun _ => ?_) fun _ => ?_
  · refine wp_mono (create_spec hI hcwd path (by decide) (by decide) (by decide)) ?_
    rintro r t ⟨hI1, hS1, hr⟩
    refine ⟨hI1, hS1, fun ip he => ?_⟩
    obtain ⟨hv, ht⟩ := hr ip he
    exact ⟨hv, fun _ hd => absurd (ht hd) (by decide)⟩
  · refine wp_seq (namei_spec hI hcwd path) ?_
    rintro r t ⟨hI1, hS1⟩
    cases r with
    | none => exact ⟨hI1, hS1, fun _ hr => by cases hr⟩
    | some ip =>
      obtain ⟨A1, hI1⟩ := hI1
      refine wp_seq (ilock_spec hI1 (hold_pos h ip)) ?_
      rintro - u ⟨hI2, hS2, hv⟩
      have hS : Stable h s u := hS1.trans hS2.of_hold
      refine wp_ite (fun _ => ?_) fun hmode => ?_
      · refine wp_seq (iunlockput_spec ⟨A1, hI2⟩) ?_
        rintro - v ⟨hI3, hS3⟩
        exact ⟨hI3, hS.trans hS3, fun _ hr => by cases hr⟩
      · refine ⟨⟨A1, hI2⟩, hS, fun ip' hr => ?_⟩
        cases hr
        refine ⟨hv, fun hw hd => ?_⟩
        -- a directory is opened with `O_RDONLY` only
        have hro : omode = O_RDONLY := not_not.mp fun hne => hmode ⟨hd, hne⟩
        rw [hro] at hw
        exact absurd hw (by decide)

/-- `sys_open` returns a valid inode, which is not a directory if the file can
be written. -/
theorem sysOpen_spec (hI : FsInv h s) (hcwd : 0 < h cwd) (path : List UInt8) (omode : Nat)
    (room : Bool) : wp (sysOpen cwd path omode room) s (Opened h omode s) Allowed := by
  refine wp_seq (openInode_spec hI hcwd path omode) ?_
  rintro r t ⟨hI1, hS1, hr⟩
  cases r with
  | none => exact ⟨hI1, hS1, fun _ hr => by cases hr⟩
  | some ip =>
    refine wp_ite (fun _ => ?_) fun _ => ?_
    · refine wp_seq (iunlockput_spec hI1) ?_
      rintro - u ⟨hI2, hS2⟩
      exact ⟨hI2, hS1.trans hS2, fun _ hr => by cases hr⟩
    · refine wp_seq (iunlock_spec hI1) ?_
      rintro - u ⟨hI2, hS2⟩
      refine ⟨hI2, hS1.trans hS2.of_hold, fun ip' he => ?_⟩
      cases he
      obtain ⟨hv, hdir⟩ := hr ip rfl
      obtain ⟨hv2, ht2⟩ := hS2.valid ip (hold_pos h ip) hv
      exact ⟨hv2, fun hw hd => hdir hw (ht2 ▸ hd)⟩

theorem writeChunk_spec (hI : FsInv h s) (hi : 0 < h i) (hv : (s.icache i).valid)
    (hdir : (s.icache i).type ≠ T_DIR) (src : Source) (off : Nat) {n : Nat} (hn : n < 2 ^ 32) :
    wp (writeChunk i src off n) s (fun _ t => FsInv h t ∧ Stable h s t) Allowed := by
  obtain ⟨A, hI⟩ := hI
  simp only [writeChunk, wp_bind]
  refine wp_mono (ilock_spec hI hi) ?_
  rintro - t ⟨hI1, hS1, hv1⟩
  have htype := (hS1.valid i hi hv).2
  refine wp_mono (writei_inv ⟨A, hI1⟩ hi hv1 hn fun ht => absurd (htype ▸ ht) hdir) ?_
  rintro r u ⟨hI2, hS2⟩
  refine wp_mono (iunlock_spec hI2) ?_
  rintro - v ⟨hI3, hS3⟩
  exact ⟨hI3, (hS1.trans hS2).trans hS3⟩

/-- `sys_chdir` exchanges the reference to the old directory for one to the
new. -/
theorem sysChdir_spec (hI : FsInv (hold h cwd) s) (path : List UInt8) :
    wp (sysChdir cwd path) s
      (fun r t => FsInv (hold h (r.getD cwd)) t ∧ Stable h s t) Allowed := by
  refine wp_seq (namei_spec hI (hold_pos h cwd) path) ?_
  rintro r t ⟨hI1, hS1⟩
  cases r with
  | none => exact ⟨hI1, hS1.of_hold⟩
  | some ip =>
    obtain ⟨A1, hI1⟩ := hI1
    refine wp_seq (ilock_spec hI1 (hold_pos (hold h cwd) ip)) ?_
    rintro - u ⟨hI2, hS2, -⟩
    have hI2 : FsInv (hold (hold h cwd) ip) u := ⟨A1, hI2⟩
    have hS : Stable h s u := (hS1.trans hS2.of_hold).of_hold
    refine wp_ite (fun _ => ?_) fun _ => ?_
    · refine wp_seq (iunlockput_spec hI2) ?_
      rintro - v ⟨hI3, hS3⟩
      exact ⟨hI3, hS.trans hS3.of_hold⟩
    · refine wp_seq (iunlock_spec hI2) ?_
      rintro - v ⟨hI3, hS3⟩
      rw [wp_bind]
      rw [hold_comm] at hI3
      refine wp_mono (iput_spec hI3) ?_
      rintro - w ⟨hI4, hS4⟩
      exact ⟨hI4, (hS.trans hS3.of_hold.of_hold).trans hS4.of_hold⟩

end SummerOsk.Fs
