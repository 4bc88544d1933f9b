import SummerOsk.Task.ExecCall
import SummerOsk.Fs.Dirs
import SummerOsk.Fs.ByteArray

/-!
# The file system of `exec`

`FsView` against the models of `kernel/fs.c` and `kernel/log.c`.  When a call that
`exec` makes returns there, its model on the view returns as well, with the same
inode, and the view still has the references, the lock and the operations.  What a
path names and what a file contains are not state of the view: they are what `namei`
finds and what `readi` then returns.
-/

namespace SummerOsk.Task

open Lib Fs Function

/-! ## References -/

/-- `ref` counts by inode what `h` counts by entry of the inode cache. -/
structure Counts (h : Nat → Nat) (s : FsState) (ref : Nat → Nat) : Prop where
  entry : ∀ i, 0 < h i → ref (s.icache i).inum = h i
  absent : ∀ inum, (∀ i, 0 < h i → (s.icache i).inum ≠ inum) → ref inum = 0

variable {h ref : Nat → Nat} {s t u w : FsState} {i : Nat}

theorem Counts.stable (hc : Counts h s ref) (hst : Stable h s t) : Counts h t ref where
  entry j hj := by
    rw [hst.inum j hj]
    exact hc.entry j hj
  absent inum hno := hc.absent inum fun j hj => by
    rw [← hst.inum j hj]
    exact hno j hj

theorem hold_cases {j : Nat} (hj : 0 < hold h i j) : j = i ∨ j ≠ i ∧ 0 < h j := by
  by_cases hji : j = i
  · exact .inl hji
  · exact .inr ⟨hji, by rwa [hold_of_ne h hji] at hj⟩

/-- One more reference to entry `i`, which may be a new one. -/
theorem Counts.take (hc : Counts h t ref) (hI : FsInv (hold h i) t) :
    Counts (hold h i) t (update ref (t.icache i).inum (ref (t.icache i).inum + 1)) := by
  obtain ⟨A, hI⟩ := hI
  have huniq : ∀ j, 0 < h j → (t.icache j).inum = (t.icache i).inum → j = i := fun j hj =>
    hI.cached.uniq j i (hold_pos_of_pos i hj) (hold_pos h i)
  refine ⟨fun j hj => ?_, fun inum hno => ?_⟩
  · rcases hold_cases hj with rfl | ⟨hji, hpos⟩
    · rw [update_self, hold, update_self]
      by_cases hpos : 0 < h j
      · rw [hc.entry j hpos]
      · rw [hc.absent _ fun j' hj' hsame => hpos (huniq j' hj' hsame ▸ hj')]
        omega
    · rw [update_of_ne fun hsame => hji (huniq j hpos hsame), hold_of_ne h hji]
      exact hc.entry j hpos
  · rw [update_of_ne (hno i (hold_pos h i)).symm]
    exact hc.absent inum fun j hj => hno j (hold_pos_of_pos i hj)

/-- One reference less to entry `i`, which may be free then. -/
theorem Counts.drop (hc : Counts (hold h i) u ref) (hI : FsInv (hold h i) u)
    (hst : Stable h u w) :
    Counts h w (update ref (u.icache i).inum (ref (u.icache i).inum - 1)) := by
  obtain ⟨A, hI⟩ := hI
  have hself : ref (u.icache i).inum = h i + 1 := by
    rw [hc.entry i (hold_pos h i), hold, update_self]
  refine ⟨fun j hj => ?_, fun inum hno => ?_⟩
  · rw [hst.inum j hj]
    by_cases hji : j = i
    · rw [hji, update_self, hself]
      rfl
    · have hj' : 0 < hold h i j := by rwa [hold_of_ne h hji]
      rw [update_of_ne fun hsame => hji (hI.cached.uniq j i hj' (hold_pos h i) hsame),
        hc.entry j hj', hold_of_ne h hji]
  · by_cases hsame : inum = (u.icache i).inum
    · have hzero : ¬ 0 < h i := fun hpos => hno i hpos ((hst.inum i hpos).trans hsame.symm)
      rw [hsame, update_self, hself]
      omega
    · rw [update_of_ne hsame]
      refine hc.absent inum fun j hj => ?_
      rcases hold_cases hj with rfl | ⟨-, hpos⟩
      · exact Ne.symm hsame
      · rw [← hst.inum j hpos]
        exact hno j hpos

/-! ## Locks -/

/-- `ilock` takes the lock or sleeps for it, and fills the entry. -/
theorem ilock_takes :
    wp (Fs.ilock i) t
      (fun _ u => (t.icache i).locked = false ∧ (u.icache i).locked = true ∧
        (u.icache i).inum = (t.icache i).inum ∧ u.cache = t.cache ∧ u.sb = t.sb)
      (fun e => e = .sleep → (t.icache i).locked = true) := by
  simp only [Fs.ilock, wp_bind, wp_getInode]
  refine wp_ite (fun _ => by simp) fun _ => ?_
  refine wp_ite (fun hl _ => hl) fun hl => ?_
  have hfree : (t.icache i).locked = false := by simpa using hl
  simp only [wp_bind, wp_setInode]
  refine wp_ite (fun _ => ?_) fun _ => ⟨hfree, by simp⟩
  simp only [wp_bind, wp_getSb, wp_bread, wp_setInode]
  generalize getDinode (t.cache (t.sb.iblock (t.icache i).inum)) ((t.icache i).inum % IPB) = d
  exact wp_ite (fun _ => by simp) fun _ => ⟨hfree, by simp⟩

theorem iunlockput_unlocks (hI : FsInv h u) (hi : 0 < h i) :
    wp (Fs.iunlockput i) u (fun _ w => (w.icache i).locked = false) fun _ => True := by
  obtain ⟨A, hI⟩ := hI
  simp only [Fs.iunlockput, iunlock, wp_bind, wp_getInode]
  refine wp_ite (fun _ => trivial) fun _ => ?_
  rw [wp_setInode]
  have hI' := hI.set_locked i false
  simp only [iput, wp_bind, wp_getInode, update_self]
  refine wp_ite (fun hlast => ?_) fun _ => ?_
  · rw [if_neg Bool.false_ne_true]
    refine wp_seq (wp_imp (itrunc_spec hI' hi (by simpa using hlast.2.1)) (fun _ _ hr => hr)
      fun _ _ => trivial) fun _ t ht => ?_
    obtain ⟨A1, -, -, hic⟩ := ht
    simp only [iupdate, wp_bind, wp_getInode, wp_getSb, wp_bread, wp_logWrite, wp_modifyInode, hic]
    simp
  · simp

/-! ## The calls of `fs.c` -/

/-- The view has the references of the file system and, for the inode of entry `i`,
its lock and its contents. -/
structure Follows (h : Nat → Nat) (i : Nat) (s : FsState) (v : FsView) : Prop where
  counts : Counts h s v.ref
  locked : v.locked (s.icache i).inum = (s.icache i).locked
  contents : ∃ A, Fs.Inv True A none h s ∧
    v.contents (s.icache i).inum = contents A s (s.icache i).inum

variable {k : Kernel} {path : List UInt8} {cwd : Nat}

/-- A path that names nothing. -/
theorem namei_none_follows (hI : FsInv h s) (hcwd : 0 < h cwd) (hc : Counts h s k.fs.ref)
    (hrun : Fs.namei cwd path s = .ok (none, t)) (hnone : k.fs.lookup path = none) :
    FsInv h t ∧ wp (namei path) k (fun r k' => r = none ∧ Counts h t k'.fs.ref) fun _ => False := by
  obtain ⟨hI', hst⟩ := wp_ok (namei_spec hI hcwd path) hrun
  refine ⟨hI', ?_⟩
  simp only [namei, wp_bind, wp_get, hnone, wp_pure]
  exact ⟨trivial, hc.stable hst⟩

/-- A path that names the inode of entry `i`, of which the view has the lock and the
contents. -/
theorem namei_some_follows (hI : FsInv h s) (hcwd : 0 < h cwd) (hc : Counts h s k.fs.ref)
    (hrun : Fs.namei cwd path s = .ok (some i, t))
    (hsome : k.fs.lookup path = some (t.icache i).inum)
    (hlocked : k.fs.locked (t.icache i).inum = (t.icache i).locked)
    (hcontents : ∃ A, Fs.Inv True A none (hold h i) t ∧
      k.fs.contents (t.icache i).inum = contents A t (t.icache i).inum) :
    wp (namei path) k
      (fun r k' => r = some (t.icache i).inum ∧ Follows (hold h i) i t k'.fs) fun _ => False := by
  obtain ⟨hI', hst⟩ := wp_ok (namei_spec hI hcwd path) hrun
  simp only [namei, modifyFs, wp_bind, wp_get, hsome, wp_modify, wp_pure]
  exact ⟨trivial, (hc.stable hst).take hI', hlocked, hcontents⟩

/-- The lock is taken, or both wait for it. -/
theorem ilock_follows (hi : 0 < h i) (hf : Follows h i t k.fs) :
    (Fs.ilock i t = .error .sleep →
      wp (ilock (t.icache i).inum) k (fun _ _ => False) fun e => e = .sleep) ∧
    ∀ u, Fs.ilock i t = .ok ((), u) →
      (u.icache i).inum = (t.icache i).inum ∧ (u.icache i).valid = true ∧
      wp (ilock (t.icache i).inum) k (fun _ k' => Follows h i u k'.fs) fun _ => False := by
  obtain ⟨A, hI, hcontents⟩ := hf.contents
  have htakes := ilock_takes (i := i) (t := t)
  simp only [ilock, modifyFs, wp_bind, wp_get, hf.locked]
  refine ⟨fun hrun => ?_, fun u hrun => ?_⟩
  · rw [wp, hrun] at htakes
    rw [if_pos (htakes rfl)]
    rfl
  · obtain ⟨hI', hst, hvalid⟩ := wp_ok (ilock_spec hI hi) hrun
    obtain ⟨hfree, hlocked, hinum, hcache, hsb⟩ := wp_ok htakes hrun
    refine ⟨hinum, hvalid, ?_⟩
    rw [if_neg (by rw [hfree]; decide)]
    refine ⟨hf.counts.stable hst, ?_, A, hI', ?_⟩
    · rw [hinum, hlocked]
      exact update_self ..
    · rw [hinum, contents, hcache, hsb]
      exact hcontents

/-- What is read under the lock are the contents of the view. -/
theorem readi_follows {off n : Nat} (hi : 0 < h i) (hf : Follows h i u k.fs)
    (hvalid : (u.icache i).valid)
    (hoff : off ≤ (k.fs.contents (u.icache i).inum).length) (hn : off + n < 2 ^ 32) :
    Fs.readi i off n u =
      .ok (some (((k.fs.contents (u.icache i).inum).drop off).take n), u) := by
  obtain ⟨A, hI, hcontents⟩ := hf.contents
  rw [hcontents, contents_length, ← hI.data_eq hi hvalid] at hoff
  rw [readi_eq hI hi hvalid (by omega), if_neg (by omega), hcontents]

/-- The lock and the reference are given back. -/
theorem iunlockput_follows (hf : Follows (hold h i) i u k.fs)
    (hrun : Fs.iunlockput i u = .ok ((), w)) :
    FsInv h w ∧ wp (iunlockput (u.icache i).inum) k (fun _ k' => Counts h w k'.fs.ref ∧
      k'.fs.locked (u.icache i).inum = (w.icache i).locked) fun _ => False := by
  obtain ⟨A, hI, -⟩ := hf.contents
  obtain ⟨hI', hst⟩ := wp_ok (iunlockput_spec ⟨A, hI⟩) hrun
  have hfree := wp_ok (iunlockput_unlocks ⟨A, hI⟩ (hold_pos h i)) hrun
  refine ⟨hI', hf.counts.drop ⟨A, hI⟩ hst, ?_⟩
  rw [hfree]
  exact update_self ..

/-! ## The calls of `log.c` -/

variable {l l' : Log.LogState}

theorem beginOp_follows (hop : (k.fs.outstanding : Int) = l.outstanding)
    (hrun : l.beginOp = some l') :
    wp beginOp k (fun _ k' => (k'.fs.outstanding : Int) = l'.outstanding) fun _ => False := by
  unfold Log.LogState.beginOp at hrun
  split_ifs at hrun
  cases hrun
  exact congrArg (· + 1) hop

/-- The first critical section of `end_op`; the rest leaves `outstanding` alone. -/
theorem endOp_follows {doCommit : Bool} (hop : (k.fs.outstanding : Int) = l.outstanding)
    (hpos : 0 < k.fs.outstanding) (hrun : l.endOpEnter = .ok (doCommit, l')) :
    wp endOp k (fun _ k' => (k'.fs.outstanding : Int) = l'.outstanding) fun _ => False := by
  have hless : ((k.fs.outstanding - 1 : Nat) : Int) = l.outstanding - 1 := by omega
  unfold Log.LogState.endOpEnter at hrun
  split_ifs at hrun
  · cases hrun
    exact hless
  · cases hrun
    exact hless

end SummerOsk.Task
