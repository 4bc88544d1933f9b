import SummerOsk.Fs.Trunc

/-!
# The inode cache

The specifications of the functions that take, lock and drop references to
inodes.  A specification names the references before and after the call:
`hold h i` has one reference to entry `i` more than `h`.  `Stable h s t` is the
frame: an entry that `h` has a reference to keeps its inode, and if it is
valid it stays valid and keeps its type.
-/

namespace SummerOsk.Fs

open Lib Function List

variable {s t u : FsState} {A A' : Nat → Dinode} {h h' : Nat → Nat} {i j inum : Nat} {ip : Inode}
  {strict : Prop} {type : Int}

/-! ## References -/

/-- One more reference to entry `i`. -/
def hold (h : Nat → Nat) (i : Nat) : Nat → Nat := update h i (h i + 1)

theorem hold_pos (h : Nat → Nat) (i : Nat) : 0 < hold h i i := by
  simp [hold]

theorem hold_of_ne (h : Nat → Nat) (hne : j ≠ i) : hold h i j = h j := by
  simp [hold, hne]

theorem le_hold (h : Nat → Nat) (i : Nat) : h ≤ hold h i := by
  intro j
  rcases eq_or_ne j i with rfl | hj
  · simp [hold]
  · rw [hold_of_ne h hj]

theorem hold_comm (h : Nat → Nat) (i j : Nat) : hold (hold h i) j = hold (hold h j) i := by
  funext k
  by_cases hij : i = j
  · rw [hij]
  · rcases eq_or_ne k i with rfl | hki
    · simp [hold, hij]
    · rcases eq_or_ne k j with rfl | hkj
      · simp [hold, hki]
      · rw [hold_of_ne _ hkj, hold_of_ne _ hki, hold_of_ne _ hki, hold_of_ne _ hkj]

theorem hold_pos_of_pos (i : Nat) (hj : 0 < h j) : 0 < hold h i j :=
  lt_of_lt_of_le hj (le_hold h i j)

/-! ## The frame -/

structure Stable (h : Nat → Nat) (s t : FsState) : Prop where
  sb : t.sb = s.sb
  inum : ∀ i, 0 < h i → (t.icache i).inum = (s.icache i).inum
  valid : ∀ i, 0 < h i → (s.icache i).valid = true →
    (t.icache i).valid = true ∧ (t.icache i).type = (s.icache i).type

theorem Stable.refl (h : Nat → Nat) (s : FsState) : Stable h s s :=
  ⟨rfl, fun _ _ => rfl, fun _ _ hv => ⟨hv, rfl⟩⟩

theorem Stable.trans (h1 : Stable h s t) (h2 : Stable h t u) : Stable h s u := by
  refine ⟨h2.sb.trans h1.sb, fun i hi => (h2.inum i hi).trans (h1.inum i hi), ?_⟩
  intro i hi hv
  obtain ⟨hv1, ht1⟩ := h1.valid i hi hv
  obtain ⟨hv2, ht2⟩ := h2.valid i hi hv1
  exact ⟨hv2, ht2.trans ht1⟩

theorem Stable.mono (hst : Stable h' s t) (hle : h ≤ h') : Stable h s t :=
  ⟨hst.sb, fun i hi => hst.inum i (lt_of_lt_of_le hi (hle i)),
    fun i hi => hst.valid i (lt_of_lt_of_le hi (hle i))⟩

theorem Stable.of_hold (hst : Stable (hold h i) s t) : Stable h s t := hst.mono (le_hold h i)

/-- Only the entry `i` changed, and not its inode, its type or its validity. -/
theorem Stable.of_update (hsb : t.sb = s.sb) (hic : t.icache = update s.icache i ip)
    (hinum : ip.inum = (s.icache i).inum)
    (hvalid : (s.icache i).valid = true → ip.valid = true ∧ ip.type = (s.icache i).type) :
    Stable h s t := by
  refine ⟨hsb, fun j _ => ?_, fun j _ hv => ?_⟩
  · by_cases hj : j = i
    · rw [hj, hic, update_self, hinum]
    · rw [hic, update_of_ne hj]
  · rcases eq_or_ne j i with rfl | hj
    · rw [hic, update_self]
      exact hvalid hv
    · rw [hic, update_of_ne hj]
      exact ⟨hv, rfl⟩

/-- Only the entry `i`, which is not referred to, changed. -/
theorem Stable.of_free (hsb : t.sb = s.sb) (hic : t.icache = update s.icache i ip)
    (hfree : h i = 0) : Stable h s t := by
  have hother : ∀ j, 0 < h j → t.icache j = s.icache j := by
    intro j hj
    have hne : j ≠ i := by
      rintro rfl
      omega
    rw [hic, update_of_ne hne]
  exact ⟨hsb, fun j hj => by rw [hother j hj], fun j hj hv => by
    rw [hother j hj]
    exact ⟨hv, rfl⟩⟩

/-! ## The entries under a change of the references -/

section

variable {sb : Superblock} {ic : Nat → Inode}

/-- Entry `i` changes together with its number of references. -/
theorem Cached.set_ref (hc : Cached sb A ic h) (hi : i < NINODE) {k : Nat} (href : ip.ref = k)
    (hinum : 0 < k → ip.inum < sb.ninodes)
    (huniq : 0 < k → ∀ j, j ≠ i → 0 < h j → (ic j).inum ≠ ip.inum)
    (hdata : 0 < k → ip.valid = true → ip.toDinode = A ip.inum)
    (hlive : 0 < k → ip.valid = true → ip.type ≠ 0) :
    Cached sb A (update ic i ip) (update h i k) where
  bound j hj := by
    by_cases hji : j = i
    · rw [hji]
      exact hi
    · rw [update_of_ne hji] at hj
      exact hc.bound j hj
  refs j hj := by
    by_cases hji : j = i
    · rw [hji, update_self, update_self, href]
    · rw [update_of_ne hji, update_of_ne hji]
      exact hc.refs j hj
  inum j hj := by
    rcases eq_or_ne j i with rfl | hji
    · rw [update_self] at hj ⊢
      exact hinum hj
    · rw [update_of_ne hji] at hj ⊢
      exact hc.inum j hj
  uniq j l hj hl he := by
    by_cases hji : j = i
    · by_cases hli : l = i
      · rw [hji, hli]
      · subst hji
        rw [update_self] at hj he
        rw [update_of_ne hli] at hl he
        exact absurd he.symm (huniq hj l hli hl)
    · rw [update_of_ne hji] at hj he
      rcases eq_or_ne l i with rfl | hli
      · rw [update_self] at hl he
        exact absurd he (huniq hl j hji hj)
      · rw [update_of_ne hli] at hl he
        exact hc.uniq j l hj hl he
  data j hj hv := by
    rcases eq_or_ne j i with rfl | hji
    · rw [update_self] at hj hv ⊢
      exact hdata hj hv
    · rw [update_of_ne hji] at hj hv ⊢
      exact hc.data j hj hv
  live j hj hv := by
    rcases eq_or_ne j i with rfl | hji
    · rw [update_self] at hj hv ⊢
      exact hlive hj hv
    · rw [update_of_ne hji] at hj hv ⊢
      exact hc.live j hj hv

/-- Only the dinodes of the valid entries matter. -/
theorem Cached.congr (hc : Cached sb A ic h)
    (hA : ∀ j, 0 < h j → (ic j).valid = true → A' (ic j).inum = A (ic j).inum) :
    Cached sb A' ic h :=
  ⟨hc.bound, hc.refs, hc.inum, hc.uniq, fun j hj hv => (hc.data j hj hv).trans (hA j hj hv).symm,
    hc.live⟩

end

/-- The file system is consistent, and the references are `h`. -/
def FsInv (h : Nat → Nat) (s : FsState) : Prop := ∃ A, Inv True A none h s

/-- The blocks stay and entry `i` changes. -/
theorem Inv.set_cached (hI : Inv strict A none h s) {ic : Nat → Inode} (hc : Cached s.sb A ic h') :
    Inv strict A none h' { s with icache := ic } :=
  ⟨hI.good, hc, fun inum hlt _ => hI.synced inum hlt fun _ hj => by cases hj⟩

/-! ## `iget` and `idup` -/

/-- One more reference to an entry in use. -/
theorem Inv.ref_succ (hI : Inv True A none h s) (hi : 0 < h i) :
    Inv True A none (hold h i)
      { s with
        icache := update s.icache i { s.icache i with ref := (s.icache i).ref + 1 } } := by
  refine hI.set_cached (hI.cached.set_ref (hI.cached.bound i hi) ?_
    (fun _ => hI.cached.inum i hi) ?_ (fun _ => hI.cached.data i hi)
    fun _ => hI.cached.live i hi)
  · have := hI.cached.refs i (hI.cached.bound i hi)
    simp [this]
  · exact fun _ j hj hpos he => hj (hI.cached.uniq j i hpos hi he)

theorem idup_spec (hI : FsInv h s) (hi : 0 < h i) :
    wp (idup i) s (fun r t => r = i ∧ FsInv (hold h i) t ∧ Stable h s t) Allowed := by
  obtain ⟨A, hI⟩ := hI
  simp only [idup, wp_bind, wp_modifyInode, wp_pure]
  exact ⟨trivial, ⟨A, hI.ref_succ hi⟩, Stable.of_update rfl rfl rfl fun hv => ⟨hv, rfl⟩⟩

/-- `iget` returns an entry for the inode. -/
theorem iget_spec (hI : Inv True A none h s) (hinum : inum < s.sb.ninodes) :
    wp (iget inum) s
      (fun i t => Inv True A none (hold h i) t ∧ Stable h s t ∧ (t.icache i).inum = inum)
      Allowed := by
  simp only [iget, wp_bind, wp_get]
  cases hfound : (List.range NINODE).find? fun i =>
      0 < (s.icache i).ref ∧ (s.icache i).inum = inum with
  | some i =>
    have hp := find?_some hfound
    have hlt := mem_range.mp (mem_of_find?_eq_some hfound)
    simp only [decide_eq_true_eq] at hp
    have hpos : 0 < h i := by
      have := hI.cached.refs i hlt
      omega
    exact ⟨hI.ref_succ hpos, Stable.of_update rfl rfl rfl fun hv => ⟨hv, rfl⟩, by
      simpa using hp.2⟩
  | none =>
    cases hfree : (List.range NINODE).find? fun i => (s.icache i).ref = 0 with
    | some i =>
      have hp := find?_some hfree
      have hlt := mem_range.mp (mem_of_find?_eq_some hfree)
      simp only [decide_eq_true_eq] at hp
      have hzero : h i = 0 := by
        have := hI.cached.refs i hlt
        omega
      refine ⟨hI.set_cached (hI.cached.set_ref hlt ?_ (fun _ => hinum) ?_ ?_ ?_),
        Stable.of_free rfl rfl hzero, by simp⟩
      · simp [hzero]
      · intro _ j _ hpos he
        have hjlt := hI.cached.bound j hpos
        have hjref := hI.cached.refs j hjlt
        have hnot := find?_eq_none.mp hfound j (mem_range.mpr hjlt)
        simp only [decide_eq_true_eq, not_and] at hnot
        exact hnot (by omega) he
      · exact fun _ hv => by cases hv
      · exact fun _ hv => by cases hv
    | none => simp [Allowed]

/-! ## Locks -/

/-- The lock of an entry does not matter. -/
theorem Inv.set_locked (hI : Inv strict A none h s) (i : Nat) (l : Bool) :
    Inv strict A none h
      { s with icache := update s.icache i { s.icache i with locked := l } } := by
  refine hI.set_cached ?_
  have hfields : ∀ j, (update s.icache i { s.icache i with locked := l } j).toDinode =
        (s.icache j).toDinode ∧
      (update s.icache i { s.icache i with locked := l } j).ref = (s.icache j).ref ∧
      (update s.icache i { s.icache i with locked := l } j).inum = (s.icache j).inum ∧
      (update s.icache i { s.icache i with locked := l } j).valid =
        (s.icache j).valid := by
    intro j
    rcases eq_or_ne j i with rfl | hj
    · rw [update_self]
      exact ⟨rfl, rfl, rfl, rfl⟩
    · rw [update_of_ne hj]
      exact ⟨rfl, rfl, rfl, rfl⟩
  have hc := hI.cached
  refine ⟨hc.bound, fun j hj => ?_, fun j hj => ?_, fun j k hj hk he => ?_, fun j hj hv => ?_,
    fun j hj hv => ?_⟩
  · rw [(hfields j).2.1]
    exact hc.refs j hj
  · rw [(hfields j).2.2.1]
    exact hc.inum j hj
  · rw [(hfields j).2.2.1, (hfields k).2.2.1] at he
    exact hc.uniq j k hj hk he
  · rw [(hfields j).2.2.2] at hv
    rw [(hfields j).1, (hfields j).2.2.1]
    exact hc.data j hj hv
  · rw [(hfields j).2.2.2] at hv
    rw [(hfields j).1]
    exact hc.live j hj hv

/-- `ilock` of an entry in use leaves it valid. -/
theorem ilock_spec (hI : Inv True A none h s) (hi : 0 < h i) :
    wp (ilock i) s
      (fun _ t => Inv True A none h t ∧ Stable h s t ∧ (t.icache i).valid = true) Allowed := by
  refine wp_ite (fun _ => by simp [Allowed]) fun _ => ?_
  refine wp_ite (fun _ => by simp [Allowed]) fun _ => ?_
  refine wp_ite (fun hinv => ?_) fun hval => ?_
  · simp only [wp_bind, wp_getSb, wp_bread, wp_setInode]
    have hsync := hI.synced _ (hI.cached.inum i hi) fun _ hj => by cases hj
    rw [dinodeAt] at hsync
    generalize getDinode (s.cache (s.sb.iblock (s.icache i).inum)) ((s.icache i).inum % IPB) = d
      at hsync ⊢
    refine wp_ite (fun _ => by simp [Allowed]) fun htype => ?_
    rw [wp_pure, update_idem]
    have hset : Cached s.sb (update A (s.icache i).inum d)
        (update s.icache i
          { s.icache i with toDinode := d, locked := true, valid := true }) h :=
      hI.cached.set_data hi rfl rfl (fun _ => rfl) fun _ => htype
    rw [hsync, update_eq_self] at hset
    rw [hsync]
    refine ⟨hI.set_cached hset, ?_, by simp⟩
    refine Stable.of_update rfl rfl rfl fun hv => ?_
    rw [hinv] at hv
    cases hv
  · exact ⟨hI.set_locked i true, Stable.of_update rfl rfl rfl fun hv => ⟨hv, rfl⟩, by
      simpa using hval⟩

theorem iunlock_spec (hI : FsInv h s) :
    wp (iunlock i) s (fun _ t => FsInv h t ∧ Stable h s t) Allowed := by
  obtain ⟨A, hI⟩ := hI
  refine wp_ite (fun _ => by simp [Allowed]) fun _ => ?_
  exact ⟨⟨A, hI.set_locked i false⟩, Stable.of_update rfl rfl rfl fun hv => ⟨hv, rfl⟩⟩

/-! ## `iput` -/

/-- The state after the dinode of an inode was changed and passed to
`log_write`. -/
def FsState.storeDinode (s : FsState) (inum : Nat) (d : Dinode) : FsState :=
  let y := putDinode (s.cache (s.sb.iblock inum)) (inum % IPB) d
  { s with
    cache := update s.cache (s.sb.iblock inum) y
    disk := update s.disk (s.sb.iblock inum) y }

/-- The dinode of an inode without blocks is written, when no valid entry holds
the inode. -/
theorem Inv.write_dinode (hI : Inv True A none h s) (hlt : inum < s.sb.ninodes) {d : Dinode}
    (hd : d.Ok) (hsize : d.size = 0) (hzero : ∀ j, d.addrs j = 0) (hA : ∀ j, (A inum).addrs j = 0)
    (hnone : ∀ j, 0 < h j → (s.icache j).valid = true → (s.icache j).inum ≠ inum) :
    Inv True (update A inum d) none h (s.storeDinode inum d) where
  good := by
    have haddrs : d.addrs = (A inum).addrs := funext fun j => by rw [hzero, hA]
    have hgood : Good True s.sb (update A inum d) s.cache s.disk := by
      refine hI.good.set_inode haddrs hd (fun _ _ => hzero) ?_ ?_ fun _ _ => .inr hzero
      · intro _ bn hbn
        omega
      · intro _ _ _ off _ _ hs
        omega
    exact hgood.write_meta (hI.good.geom.iblock_lt_nmeta hlt) fun b' =>
      (hI.good.geom.iblock_ne_bblock hlt b').symm
  cached := hI.cached.congr fun j hj hv => update_of_ne (hnone j hj hv) _ _
  synced inum' hlt' _ := by
    have hstored : dinodeAt s.sb (s.storeDinode inum d).cache inum' =
        if inum' = inum then d else dinodeAt s.sb s.cache inum' :=
    dinodeAt_putDinode _ _ hd.toFits
    refine hstored.trans ?_
    split_ifs with he
    · rw [he, update_self]
    · rw [update_of_ne he]
      exact hI.synced inum' hlt' fun _ hj => by cases hj

theorem update_hold (h : Nat → Nat) (i : Nat) : update (hold h i) i (h i) = h := by
  rw [hold, update_idem, update_eq_self]

/-- A reference is dropped. -/
theorem Inv.ref_pred (hI : Inv True A none (hold h i) s) :
    Inv True A none h
      { s with
        icache := update s.icache i { s.icache i with ref := (s.icache i).ref - 1 } } := by
  have hi := hold_pos h i
  have hlt := hI.cached.bound i hi
  have hset : Cached s.sb A
      (update s.icache i { s.icache i with ref := (s.icache i).ref - 1 })
      (update (hold h i) i (h i)) := by
    refine hI.cached.set_ref hlt ?_ (fun _ => hI.cached.inum i hi) ?_
      (fun _ => hI.cached.data i hi) fun _ => hI.cached.live i hi
    · have := hI.cached.refs i hlt
      simp [this, hold]
    · exact fun _ j hj hpos he => hj (hI.cached.uniq j i hpos hi he)
  rw [update_hold] at hset
  exact hI.set_cached hset

/-- The last reference to an entry is dropped, and its contents do not matter
any more. -/
theorem Inv.ref_last (hI : Inv True A none (hold h i) s) (hzero : h i = 0) (href : ip.ref = 0) :
    Inv True A none h { s with icache := update s.icache i ip } := by
  have hset : Cached s.sb A (update s.icache i ip)
      (update (hold h i) i (h i)) := by
    refine hI.cached.set_ref (hI.cached.bound i (hold_pos h i)) ?_ ?_ ?_ ?_ ?_
    · rw [href, hzero]
      rfl
    all_goals
      intro hpos
      omega
  rw [update_hold] at hset
  exact hI.set_cached hset

/-- `iput` drops a reference, and frees the inode if it was the last one and
the inode has no links. -/
theorem iput_spec (hI : FsInv (hold h i) s) :
    wp (iput i) s (fun _ t => FsInv h t ∧ Stable h s t) Allowed := by
  obtain ⟨A, hI⟩ := hI
  have hi := hold_pos h i
  refine wp_ite (fun hlast => ?_) fun hmore => ?_
  · refine wp_ite (fun _ => by simp [Allowed]) fun _ => ?_
    have hv : (s.icache i).valid = true := hlast.2.1
    have hzero : h i = 0 := by
      have := hI.cached.refs i (hI.cached.bound i hi)
      rw [hlast.1, hold, update_self] at this
      omega
    refine wp_seq (itrunc_spec hI hi hv) ?_
    rintro - u ⟨A1, hI1, hsb, hic⟩
    have hu : u.icache i = { s.icache i with addrs := fun _ => 0, size := 0 } := by
      rw [hic, update_self]
    have hvu : (u.icache i).valid = true := by rw [hu]; exact hv
    have hrefu : (u.icache i).ref = 1 := by rw [hu]; exact hlast.1
    have hdata := hI1.data_eq hi hvu
    have hinum := hI1.cached.inum i hi
    have hok := hI1.good.ok _ hinum
    rw [← hdata] at hok
    simp only [wp_bind, wp_modifyInode, iupdate, wp_getInode, wp_getSb, wp_bread, wp_logWrite,
      update_self, update_idem]
    have hdrop : Inv True A1 none h
        { u with
          icache := update u.icache i
            { u.icache i with type := 0, valid := false, ref := (u.icache i).ref - 1 } } :=
      hI1.ref_last hzero (by simp [hrefu])
    have hfree : Inv True (update A1 (u.icache i).inum { (u.icache i).toDinode with type := 0 })
        none h (FsState.storeDinode
          { u with
            icache := update u.icache i
              { u.icache i with type := 0, valid := false, ref := (u.icache i).ref - 1 } }
          (u.icache i).inum { (u.icache i).toDinode with type := 0 }) := by
      refine hdrop.write_dinode hinum ?_ (by simp [hu]) (by simp [hu])
        (by rw [← hdata]; simp [hu]) fun j hj _ => ?_
      · exact { hok with type := rfl }
      · have hji : j ≠ i := by
          rintro rfl
          omega
        simp only [update_of_ne hji]
        exact fun he => hji (hI1.cached.uniq j i (hold_pos_of_pos i hj) hi he)
    exact ⟨⟨_, hfree⟩, Stable.of_free hsb (by rw [hic, update_idem]) hzero⟩
  · exact ⟨⟨A, hI.ref_pred⟩, Stable.of_update rfl rfl rfl fun hv => ⟨hv, rfl⟩⟩

theorem iunlockput_spec (hI : FsInv (hold h i) s) :
    wp (iunlockput i) s (fun _ t => FsInv h t ∧ Stable h s t) Allowed := by
  simp only [iunlockput, wp_bind]
  refine wp_mono (iunlock_spec hI) ?_
  rintro - t ⟨hI1, hS1⟩
  refine wp_mono (iput_spec hI1) ?_
  rintro - u ⟨hI2, hS2⟩
  exact ⟨hI2, hS1.of_hold.trans hS2⟩

/-! ## `ialloc` -/

theorem iallocFrom_spec (hI : FsInv h s) (htype : type.bmod (2 ^ 16) = type) (inum n : Nat) :
    wp (iallocFrom type inum n) s
      (fun i t => ∃ A, Inv True A none (hold h i) t ∧ Stable h s t ∧
        (A (t.icache i).inum).type = type) Allowed := by
  obtain ⟨A, hI⟩ := hI
  induction n generalizing inum with
  | zero => simp [iallocFrom, Allowed]
  | succ n ih =>
    refine wp_ite (fun hlt => ?_) fun _ => by simp [Allowed]
    simp only [wp_bind, wp_bread]
    have hsync := hI.synced inum hlt fun _ hj => by cases hj
    rw [dinodeAt] at hsync
    rw [hsync]
    refine wp_ite (fun hA => ?_) fun _ => ih (inum + 1)
    have hnew : Inv True (update A inum { zeroDinode with type := type }) none h
        (s.storeDinode inum { zeroDinode with type := type }) := by
      refine hI.write_dinode hlt ?_ rfl (fun _ => rfl) (hI.good.free trivial inum hlt hA)
        fun j hj hv he => ?_
      · exact { zeroDinode_ok with type := htype }
      · -- a valid entry is not of a free inode
        exact hI.type_ne hj hv (he ▸ hA)
    refine wp_mono (iget_spec hnew hlt) ?_
    rintro i t ⟨hI', hS, hinum⟩
    exact ⟨_, hI', ⟨hS.sb, hS.inum, hS.valid⟩, by rw [hinum, update_self]⟩

/-- `ialloc` returns an entry for a new inode of the type. -/
theorem ialloc_spec (hI : FsInv h s) (htype : type.bmod (2 ^ 16) = type) :
    wp (ialloc type) s
      (fun i t => ∃ A, Inv True A none (hold h i) t ∧ Stable h s t ∧
        (A (t.icache i).inum).type = type) Allowed := by
  exact iallocFrom_spec hI htype 1 _

/-! ## Changes of the other fields -/

/-- Device numbers and the number of links are changed and written back. -/
theorem set_links_spec (hI : FsInv h s) (hi : 0 < h i) (hv : (s.icache i).valid)
    {major minor nlink : Int} (hmajor : major.bmod (2 ^ 16) = major)
    (hminor : minor.bmod (2 ^ 16) = minor) (hnlink : nlink.bmod (2 ^ 16) = nlink) :
    wp (iupdate i)
      { s with
        icache := update s.icache i
          { s.icache i with major := major, minor := minor, nlink := nlink } }
      (fun _ t => FsInv h t ∧ Stable h s t) Allowed := by
  obtain ⟨A, hI⟩ := hI
  have hinum := hI.cached.inum i hi
  have hok := hI.good.ok _ hinum
  have hset : Inv True (update A (s.icache i).inum
      { A (s.icache i).inum with major := major, minor := minor, nlink := nlink }) (some i) h
      { s with
        icache := update s.icache i
          { s.icache i with major := major, minor := minor, nlink := nlink } } := by
    refine hI.out.set_entry hi rfl rfl (fun _ => by rw [← hI.data_eq hi hv])
      (fun _ => hI.cached.live i hi hv) ?_ fun _ _ => rfl
    refine hI.good.set_inode rfl ?_ ?_ (hI.good.whole _)
      (fun ht => hI.good.dirs ht _) fun _ ht => .inl ht
    · exact { hok with major := hmajor, minor := hminor, nlink := hnlink }
    · exact fun ht => hI.good.free ht _ hinum
  refine wp_mono (iupdate_spec hset hi (by simpa using hv)) ?_
  rintro - t ⟨hI', hsb, hic, -⟩
  exact ⟨⟨_, hI'⟩, Stable.of_update hsb hic rfl fun hv => ⟨hv, rfl⟩⟩

/-- `writei` keeps the invariant, whatever it returns. -/
theorem writei_inv (hI : FsInv h s) (hi : 0 < h i) (hv : (s.icache i).valid)
    {src : Source} {off n : Nat} (hn : n < 2 ^ 32)
    (hdir : (s.icache i).type = T_DIR → n = 0 ∨ IsEntry s.sb.ninodes src 0 off n) :
    wp (writei i src off n) s (fun _ t => FsInv h t ∧ Stable h s t) Allowed := by
  obtain ⟨A, hI⟩ := hI
  refine wp_mono (writei_spec hI hi hv hn fun _ => hdir) fun r t hr => ?_
  split_ifs at hr with hfits
  · obtain ⟨-, A', stop, hI', hw⟩ := hr
    obtain ⟨a, hic, -⟩ := hw.entry
    exact ⟨⟨A', hI'⟩, Stable.of_update hw.sb hic rfl fun hv => ⟨hv, rfl⟩⟩
  · obtain ⟨-, rfl⟩ := hr
    exact ⟨⟨A, hI⟩, Stable.refl h _⟩

end SummerOsk.Fs
