import SummerOsk.Fs.Layout

/-!
# The invariant of the file system

`A inum` is the current dinode of inode `inum`: its entry in the inode cache
when it has one that is valid, and otherwise the dinode on disk.  `Inv` is stated
with it.
-/

namespace SummerOsk.Fs

open Lib Log Function

/-- The dinodes are in range, and a file has a block for every offset below its
size.  If `strict`, then also a free inode has no blocks, the entries of a
directory name inodes of the disk, and a block whose buffer was changed without
`log_write` is a data block of a file or a free one.  The system calls need this,
but the contents of files can be described without it. -/
structure Body (strict : Prop) (sb : Superblock) (A : Nat → Dinode) (C D : Nat → Block) : Prop where
  geom : Geometry sb
  ok : ∀ inum < sb.ninodes, (A inum).Ok
  free : strict → ∀ inum < sb.ninodes, (A inum).type = 0 → ∀ j, (A inum).addrs j = 0
  whole : ∀ inum < sb.ninodes, ∀ bn, bn * BSIZE < (A inum).size →
    refOf sb.ninodes A C (place inum bn) ≠ none
  dirs : strict → ∀ inum < sb.ninodes, (A inum).type = T_DIR → ∀ off b, off % 16 = 0 →
    off < (A inum).size → refOf sb.ninodes A C (place inum (off / BSIZE)) = some b →
    getLE (C b) (off % BSIZE) 2 < sb.ninodes
  torn : strict → ∀ b, C b ≠ D b → sb.nmeta ≤ b ∧
    (∀ inum, refOf sb.ninodes A C (.indirect inum) ≠ some b) ∧
    ∀ inum bn, (A inum).type = T_DIR → refOf sb.ninodes A C (place inum bn) ≠ some b

/-- And every block is owned as the bitmap says. -/
structure Good (strict : Prop) (sb : Superblock) (A : Nat → Dinode) (C D : Nat → Block) : Prop
    extends Body strict sb A C D where
  owned : Owned sb A C

/-- The entries of the inode cache have as many references as `h` says, no two
hold the same inode, and a valid entry agrees with `A` and is not of a free
inode. -/
structure Cached (sb : Superblock) (A : Nat → Dinode) (ic : Nat → Inode) (h : Nat → Nat) :
    Prop where
  bound : ∀ i, 0 < h i → i < NINODE
  refs : ∀ i < NINODE, (ic i).ref = h i
  inum : ∀ i, 0 < h i → (ic i).inum < sb.ninodes
  uniq : ∀ i j, 0 < h i → 0 < h j → (ic i).inum = (ic j).inum → i = j
  data : ∀ i, 0 < h i → (ic i).valid = true → (ic i).toDinode = A (ic i).inum
  live : ∀ i, 0 < h i → (ic i).valid = true → (ic i).type ≠ 0

/-- The invariant of the file system: the disk and the inode cache are in order,
and the dinodes on disk agree with `A`, except for the inode of entry `x`, which a
function is about to write back. -/
structure Inv (strict : Prop) (A : Nat → Dinode) (x : Option Nat) (h : Nat → Nat) (s : FsState) :
    Prop where
  good : Good strict s.sb A s.cache s.disk
  cached : Cached s.sb A s.icache h
  synced : ∀ inum < s.sb.ninodes, (∀ i, x = some i → (s.icache i).inum ≠ inum) →
    dinodeAt s.sb s.cache inum = A inum

variable {strict : Prop} {sb : Superblock} {A A' : Nat → Dinode} {C C' D D' : Nat → Block}
  {n j i b inum : Nat} {p : Place} {d : Dinode} {x : Block} {h : Nat → Nat} {ip : Inode}

/-! ## References under a change of the dinodes and the blocks -/

theorem refOf_of_le (h : n ≤ p.inum) : refOf n A C p = none := by
  cases p with
  | direct inum i => exact if_neg fun hc => absurd hc.1 (Nat.not_lt.mpr h)
  | indirect inum => exact if_neg (Nat.not_lt.mpr h)
  | entry inum j => exact if_neg fun hc => absurd hc.1 (Nat.not_lt.mpr h)

theorem inum_lt_of_refOf (h : refOf n A C p = some b) : p.inum < n := by
  by_contra hle
  rw [refOf_of_le (Nat.le_of_not_lt hle)] at h
  cases h

/-- A reference depends on one slot of the inode and on its indirect block. -/
theorem refOf_congr (hA : (A' p.inum).addrs p.slot = (A p.inum).addrs p.slot)
    (hC : ∀ ib, refOf n A C (.indirect p.inum) = some ib → C' ib = C ib) :
    refOf n A' C' p = refOf n A C p := by
  cases p with
  | direct inum i =>
    simp only [Place.inum, Place.slot] at hA
    simp only [refOf, hA]
  | indirect inum =>
    simp only [Place.inum, Place.slot] at hA
    simp only [refOf, hA]
  | entry inum j =>
    simp only [Place.inum, Place.slot] at hA hC
    simp only [refOf]
    split_ifs with hj
    · rw [hA]
      cases hib : ptr ((A inum).addrs NDIRECT) with
      | none => rfl
      | some ib =>
        have hind : refOf n A C (.indirect inum) = some ib := by
          rw [refOf, if_pos hj.1, hib]
        rw [Option.bind_some, Option.bind_some, hC ib hind]
    · rfl

/-- The entry of an indirect block. -/
theorem refOf_entry {ib : Nat} (hib : refOf n A C (.indirect inum) = some ib) (hj : j < NINDIRECT) :
    refOf n A C (.entry inum j) = ptr (getLE (C ib) (4 * j) 4) := by
  have hn : inum < n := inum_lt_of_refOf hib
  rw [refOf, if_pos hn] at hib
  rw [refOf, if_pos ⟨hn, hj⟩, hib, Option.bind_some]

theorem refOf_entry_eq_none (hib : refOf n A C (.indirect inum) = none) :
    refOf n A C (.entry inum j) = none := by
  rw [refOf]
  split_ifs with hj
  · rw [refOf, if_pos hj.1] at hib
    rw [hib]
    rfl
  · rfl

/-! ## Writes to the blocks before the data -/

/-- The references do not depend on the blocks before the data. -/
theorem Owned.refOf_eq (h : Owned sb A C) (hC : ∀ b, sb.nmeta ≤ b → C' b = C b) (p : Place) :
    refOf sb.ninodes A C' p = refOf sb.ninodes A C p :=
  refOf_congr rfl fun ib hib =>
    hC ib (Nat.le_of_not_lt (h.range _ ib hib).2)

theorem Body.of_meta (h : Body strict sb A C D)
    (href : ∀ p, refOf sb.ninodes A C' p = refOf sb.ninodes A C p)
    (hrange : ∀ p b, refOf sb.ninodes A C p = some b → sb.nmeta ≤ b)
    (hC : ∀ b, sb.nmeta ≤ b → C' b = C b)
    (hCD : ∀ b, C' b ≠ D' b → C b ≠ D b) : Body strict sb A C' D' where
  geom := h.geom
  ok := h.ok
  free := h.free
  whole inum hi bn hbn := by
    rw [href]
    exact h.whole inum hi bn hbn
  dirs hf inum hi ht off b ho hs hb := by
    rw [href] at hb
    rw [hC b (hrange _ b hb)]
    exact h.dirs hf inum hi ht off b ho hs hb
  torn hf b hb := by
    obtain ⟨hm, hind, hdir⟩ := h.torn hf b (hCD b hb)
    exact ⟨hm, fun inum => by rw [href]; exact hind inum,
      fun inum bn ht => by rw [href]; exact hdir inum bn ht⟩

theorem Owned.nmeta_le (h : Owned sb A C)
    (hp : refOf sb.ninodes A C p = some b) : sb.nmeta ≤ b :=
  Nat.le_of_not_lt (h.range p b hp).2

theorem Owned.lt_size (h : Owned sb A C) (hp : refOf sb.ninodes A C p = some b) : b < sb.size :=
    (h.range p b hp).1

/-- `log_write` of an inode block. -/
theorem Good.write_meta (h : Good strict sb A C D) (hb : b < sb.nmeta)
    (hbit : ∀ b', sb.bblock b' ≠ b) : Good strict sb A (update C b x) (update D b x) := by
  have hC : ∀ b', sb.nmeta ≤ b' → update C b x b' = C b' := by
    intro b' hb'
    exact update_of_ne (by omega) _ _
  have href := h.owned.refOf_eq hC
  refine ⟨h.toBody.of_meta href (fun p b => h.owned.nmeta_le) hC fun b' hne => ?_, ?_⟩
  · by_cases hb' : b' = b
    · subst hb'
      simp at hne
    · simpa [update_of_ne hb'] using hne
  · refine Allocated.congr h.owned (fun b' _ => ?_) href
    rw [usedBit_update_of_ne _ (hbit b')]

/-! ## Changes of the dinodes and of the data -/

/-- Place `p` gets the free block `b`. -/
theorem Good.assign (h : Good strict sb A C D) (hb : b < sb.size)
    (hfree : usedBit sb C b = false) (hempty : refOf sb.ninodes A C p = none)
    (hp : refOf sb.ninodes A' C' p = some b)
    (hrest : ∀ q, q ≠ p → refOf sb.ninodes A' C' q = refOf sb.ninodes A C q)
    (hused : ∀ b' < sb.size, usedBit sb C' b' = (decide (b' = b) || usedBit sb C b'))
    (hA : ∀ inum, (A' inum).type = (A inum).type ∧ (A' inum).size = (A inum).size)
    (hok : ∀ inum < sb.ninodes, (A' inum).Ok)
    (hlive : strict → ∀ inum < sb.ninodes, (A inum).type = 0 → A' inum = A inum)
    (hC : ∀ b', sb.nmeta ≤ b' → b' ≠ b →
      (∀ inum, refOf sb.ninodes A C (.indirect inum) ≠ some b') → C' b' = C b')
    (hCD : ∀ b', C' b' ≠ D' b' → C b' ≠ D b' ∧ b' ≠ b) : Good strict sb A' C' D' where
  geom := h.geom
  ok := hok
  free hf inum hi ht j := by
    rw [(hA inum).1] at ht
    rw [hlive hf inum hi ht]
    exact h.free hf inum hi ht j
  whole inum hi bn hbn := by
    rw [(hA inum).2] at hbn
    have hold := h.whole inum hi bn hbn
    have hne : place inum bn ≠ p := by
      rintro rfl
      exact hold hempty
    rw [hrest _ hne]
    exact hold
  dirs hf inum hi ht off b' ho hs hb' := by
    rw [(hA inum).1] at ht
    rw [(hA inum).2] at hs
    have hold := h.whole inum hi (off / BSIZE) (by
      have := Nat.div_mul_le_self off BSIZE
      omega)
    have hne : place inum (off / BSIZE) ≠ p := by
      rintro rfl
      exact hold hempty
    rw [hrest _ hne] at hb'
    -- a block of the directory is neither the new block nor an indirect one
    have hb'b : b' ≠ b := by
      rintro rfl
      exact h.owned.ref_ne (by simp [hfree]) _ hb'
    have hind : ∀ inum', refOf sb.ninodes A C (.indirect inum') ≠ some b' := fun inum' hi' =>
      place_ne_indirect _ _ _ (h.owned.inj _ _ _ hb' hi')
    rw [hC b' (h.owned.nmeta_le hb') hb'b hind]
    exact h.dirs hf inum hi ht off b' ho hs hb'
  torn hf b' hb' := by
    obtain ⟨hne, hb'b⟩ := hCD b' hb'
    obtain ⟨hm, hind, hdir⟩ := h.torn hf b' hne
    have hkeep : ∀ q, refOf sb.ninodes A C q ≠ some b' →
        refOf sb.ninodes A' C' q ≠ some b' := by
      intro q hq
      by_cases hqp : q = p
      · rw [hqp, hp]
        exact fun he => hb'b (Option.some.inj he).symm
      · rw [hrest q hqp]
        exact hq
    exact ⟨hm, fun inum => hkeep _ (hind inum),
      fun inum bn ht => hkeep _ (hdir inum bn ((hA inum).1 ▸ ht))⟩
  owned := by
    refine Allocated.alloc h.owned hb (by simp [hfree]) hempty (fun b' hb' => ?_) hp hrest
    rw [hused b' hb']
    simp

/-- Files of size 0 lose references. -/
theorem Body.shrink (h : Body strict sb A C D)
    (hrange : ∀ p b, refOf sb.ninodes A C p = some b → sb.nmeta ≤ b)
    (hkeep : ∀ p, refOf sb.ninodes A' C' p = refOf sb.ninodes A C p ∨
      refOf sb.ninodes A' C' p = none ∧ (A p.inum).size = 0)
    (hA : ∀ inum, (A' inum).type = (A inum).type ∧ (A' inum).size = (A inum).size)
    (hok : ∀ inum < sb.ninodes, (A' inum).Ok)
    (hfree : ∀ inum < sb.ninodes, (A inum).type = 0 → A' inum = A inum)
    (hC : ∀ b, sb.nmeta ≤ b → C' b = C b)
    (hCD : ∀ b, C' b ≠ D' b → C b ≠ D b) : Body strict sb A' C' D' where
  geom := h.geom
  ok := hok
  free hf inum hi ht j := by
    rw [(hA inum).1] at ht
    rw [hfree inum hi ht]
    exact h.free hf inum hi ht j
  whole inum hi bn hbn := by
    rw [(hA inum).2] at hbn
    rcases hkeep (place inum bn) with heq | ⟨-, hsize⟩
    · rw [heq]
      exact h.whole inum hi bn hbn
    · rw [place_inum] at hsize
      omega
  dirs hf inum hi ht off b ho hs hb := by
    rw [(hA inum).1] at ht
    rw [(hA inum).2] at hs
    rcases hkeep (place inum (off / BSIZE)) with heq | ⟨hnone, -⟩
    · rw [heq] at hb
      rw [hC b (hrange _ b hb)]
      exact h.dirs hf inum hi ht off b ho hs hb
    · rw [hnone] at hb
      cases hb
  torn hf b hb := by
    obtain ⟨hm, hind, hdir⟩ := h.torn hf b (hCD b hb)
    have hless : ∀ q, refOf sb.ninodes A C q ≠ some b → refOf sb.ninodes A' C' q ≠ some b := by
      intro q hq
      rcases hkeep q with heq | ⟨hnone, -⟩
      · rw [heq]
        exact hq
      · rw [hnone]
        simp
    exact ⟨hm, fun inum => hless _ (hind inum),
      fun inum bn ht => hless _ (hdir inum bn ((hA inum).1 ▸ ht))⟩

/-- A place of a file of size 0 gives up its block. -/
theorem Good.release (h : Good strict sb A C D) (hp : refOf sb.ninodes A C p = some b)
    (hempty : refOf sb.ninodes A' C' p = none)
    (hrest : ∀ q, q ≠ p → refOf sb.ninodes A' C' q = refOf sb.ninodes A C q)
    (hused : ∀ b' < sb.size, usedBit sb C' b' = (!decide (b' = b) && usedBit sb C b'))
    (hA : ∀ inum, (A' inum).type = (A inum).type ∧ (A' inum).size = (A inum).size)
    (hsize : (A p.inum).size = 0) (hok : ∀ inum < sb.ninodes, (A' inum).Ok)
    (hfree : ∀ inum < sb.ninodes, (A inum).type = 0 → A' inum = A inum)
    (hC : ∀ b', sb.nmeta ≤ b' → C' b' = C b')
    (hCD : ∀ b', C' b' ≠ D' b' → C b' ≠ D b') : Good strict sb A' C' D' := by
  refine ⟨h.toBody.shrink (fun _ _ => h.owned.nmeta_le) (fun q => ?_) hA hok hfree hC hCD, ?_⟩
  · rcases eq_or_ne q p with rfl | hq
    · exact .inr ⟨hempty, hsize⟩
    · exact .inl (hrest q hq)
  · refine Allocated.free h.owned hp (fun b' hb' => ?_) hempty hrest
    rw [hused b' hb']
    simp

/-- A data block of inode `inum` gets new contents.  A block of a directory is
logged, and its entries name inodes. -/
theorem Good.write_data (h : Good strict sb A C D) {bn : Nat}
    (hp : refOf sb.ninodes A C (place inum bn) = some b)
    (hdir : strict → (A inum).type = T_DIR → ∀ off, off % 16 = 0 → off < (A inum).size →
      off / BSIZE = bn → getLE x (off % BSIZE) 2 < sb.ninodes)
    (hD : D' = update D b x ∨ D' = D ∧ (strict → (A inum).type ≠ T_DIR)) :
    Good strict sb A (update C b x) D' ∧
      ∀ p, refOf sb.ninodes A (update C b x) p = refOf sb.ninodes A C p := by
  have hind : ∀ inum', refOf sb.ninodes A C (.indirect inum') ≠ some b := fun inum' hi' =>
    place_ne_indirect _ _ _ (h.owned.inj _ _ _ hp hi')
  have href : ∀ p, refOf sb.ninodes A (update C b x) p = refOf sb.ninodes A C p := by
    intro p
    refine refOf_congr rfl fun ib hib => update_of_ne ?_ _ _
    rintro rfl
    exact hind _ hib
  refine ⟨?_, href⟩
  exact
    { geom := h.geom
      ok := h.ok
      free := h.free
      whole := fun inum' hi bn' hbn => by
        rw [href]
        exact h.whole inum' hi bn' hbn
      dirs := fun hf inum' hi ht off b' ho hs hb' => by
        rw [href] at hb'
        rcases eq_or_ne b' b with rfl | hbb
        · obtain ⟨rfl, hbn⟩ := place_inj (h.owned.inj _ _ _ hb' hp)
          rw [update_self]
          exact hdir hf ht off ho hs hbn
        · rw [update_of_ne hbb]
          exact h.dirs hf inum' hi ht off b' ho hs hb'
      torn := fun hf b' hb' => by
        rcases eq_or_ne b' b with rfl | hbb
        · rcases hD with rfl | ⟨rfl, htype⟩
          · simp at hb'
          · refine ⟨h.owned.nmeta_le hp, fun inum' => by rw [href]; exact hind inum', ?_⟩
            intro inum' bn' ht hq
            rw [href] at hq
            obtain ⟨rfl, -⟩ := place_inj (h.owned.inj _ _ _ hq hp)
            exact htype hf ht
        · have hne : C b' ≠ D b' := by
            rcases hD with rfl | ⟨rfl, -⟩
            · simpa [update_of_ne hbb] using hb'
            · simpa [update_of_ne hbb] using hb'
          obtain ⟨hm, hi, hd⟩ := h.torn hf b' hne
          exact ⟨hm, fun inum' => by rw [href]; exact hi inum',
            fun inum' bn' ht => by rw [href]; exact hd inum' bn' ht⟩
      owned := by
        refine Allocated.congr h.owned (fun b' hb' => ?_) href
        rw [usedBit_update_of_ne]
        have := h.geom.bblock_lt hb'
        have := h.owned.nmeta_le hp
        omega }

/-- The fields of a dinode other than the blocks change. -/
theorem Good.set_inode (h : Good strict sb A C D)
    (haddrs : d.addrs = (A inum).addrs) (hok : d.Ok)
    (hfree : strict → d.type = 0 → ∀ j, d.addrs j = 0)
    (hwhole : inum < sb.ninodes → ∀ bn, bn * BSIZE < d.size →
      refOf sb.ninodes A C (place inum bn) ≠ none)
    (hdirs : strict → inum < sb.ninodes → d.type = T_DIR → ∀ off b, off % 16 = 0 → off < d.size →
      refOf sb.ninodes A C (place inum (off / BSIZE)) = some b →
      getLE (C b) (off % BSIZE) 2 < sb.ninodes)
    (htorn : strict → d.type = T_DIR → (A inum).type = T_DIR ∨ ∀ j, d.addrs j = 0) :
    Good strict sb (update A inum d) C D := by
  have href : ∀ p, refOf sb.ninodes (update A inum d) C p =
      refOf sb.ninodes A C p := by
    intro p
    refine refOf_congr ?_ fun _ _ => rfl
    by_cases hp : p.inum = inum
    · rw [hp, update_self, haddrs]
    · rw [update_of_ne hp]
  have hcases : ∀ inum', inum' = inum ∧ update A inum d inum' = d ∨
      update A inum d inum' = A inum' := by
    intro inum'
    by_cases hi : inum' = inum
    · exact .inl ⟨hi, by rw [hi, update_self]⟩
    · exact .inr (update_of_ne hi _ _)
  exact
    { geom := h.geom
      ok := fun inum' hi => by
        rcases hcases inum' with ⟨-, heq⟩ | heq
        · rw [heq]
          exact hok
        · rw [heq]
          exact h.ok inum' hi
      free := fun hf inum' hi ht j => by
        rcases hcases inum' with ⟨-, heq⟩ | heq
        · rw [heq] at ht ⊢
          exact hfree hf ht j
        · rw [heq] at ht ⊢
          exact h.free hf inum' hi ht j
      whole := fun inum' hi bn hbn => by
        rw [href]
        rcases hcases inum' with ⟨rfl, heq⟩ | heq
        · rw [heq] at hbn
          exact hwhole hi bn hbn
        · rw [heq] at hbn
          exact h.whole inum' hi bn hbn
      dirs := fun hf inum' hi ht off b ho hs hb => by
        rw [href] at hb
        rcases hcases inum' with ⟨rfl, heq⟩ | heq
        · rw [heq] at ht hs
          exact hdirs hf hi ht off b ho hs hb
        · rw [heq] at ht hs
          exact h.dirs hf inum' hi ht off b ho hs hb
      torn := fun hf b hb => by
        obtain ⟨hm, hi, hd⟩ := h.torn hf b hb
        refine ⟨hm, fun inum' => by rw [href]; exact hi inum', fun inum' bn ht => ?_⟩
        rw [href]
        rcases hcases inum' with ⟨rfl, heq⟩ | heq
        · rw [heq] at ht
          rcases htorn hf ht with hold | hzero
          · exact hd inum' bn hold
          · rw [haddrs] at hzero
            rw [place]
            split_ifs with hbn
            · simp [refOf, hzero]
            · simp [refOf, hzero]
        · rw [heq] at ht
          exact hd inum' bn ht
      owned := Allocated.congr h.owned (fun _ _ => Iff.rfl) href }

/-! ## The inode cache -/

/-- Entry `i` and the dinode of its inode change together. -/
theorem Cached.set_data {ic : Nat → Inode} (hc : Cached sb A ic h) (hi : 0 < h i)
    (hinum : ip.inum = (ic i).inum) (href : ip.ref = (ic i).ref)
    (hd : ip.valid = true → ip.toDinode = d) (hlive : ip.valid = true → ip.type ≠ 0) :
    Cached sb (update A (ic i).inum d) (update ic i ip) h := by
  have hkeep : ∀ j, (update ic i ip j).inum = (ic j).inum := by
    intro j
    by_cases hj : j = i
    · rw [hj, update_self, hinum]
    · rw [update_of_ne hj]
  refine ⟨hc.bound, fun j hj => ?_, fun j hj => ?_, fun j k hj hk he => ?_, fun j hj hv => ?_,
    fun j hj hv => ?_⟩
  · by_cases hji : j = i
    · rw [hji, update_self, href]
      exact hc.refs i (hji ▸ hj)
    · rw [update_of_ne hji]
      exact hc.refs j hj
  · rw [hkeep]
    exact hc.inum j hj
  · rw [hkeep, hkeep] at he
    exact hc.uniq j k hj hk he
  · rcases eq_or_ne j i with rfl | hji
    · rw [update_self] at hv ⊢
      rw [hinum, update_self, hd hv]
    · rw [update_of_ne hji] at hv ⊢
      have hne : (ic j).inum ≠ (ic i).inum := fun he => hji (hc.uniq j i hj hi he)
      rw [update_of_ne hne]
      exact hc.data j hj hv
  · rcases eq_or_ne j i with rfl | hji
    · rw [update_self] at hv ⊢
      exact hlive hv
    · rw [update_of_ne hji] at hv ⊢
      exact hc.live j hj hv

/-- Entry `i`, the dinode of its inode and the blocks change together. -/
theorem Inv.set_entry {s : FsState} (hI : Inv strict A (some i) h s) (hi : 0 < h i)
    (hinum : ip.inum = (s.icache i).inum) (href : ip.ref = (s.icache i).ref)
    (hd : ip.valid = true → ip.toDinode = d) (hlive : ip.valid = true → ip.type ≠ 0)
    (hgood : Good strict s.sb (update A (s.icache i).inum d) C' D')
    (hdin : ∀ inum < s.sb.ninodes, dinodeAt s.sb C' inum = dinodeAt s.sb s.cache inum) :
    Inv strict (update A (s.icache i).inum d) (some i) h
      { s with cache := C', disk := D', icache := update s.icache i ip } where
  good := hgood
  cached := hI.cached.set_data hi hinum href hd hlive
  synced inum hlt hne := by
    have hother : inum ≠ (s.icache i).inum := by
      have := hne i rfl
      simp only [update_self, hinum] at this
      exact this.symm
    rw [update_of_ne hother]
    refine (hdin inum hlt).trans (hI.synced inum hlt fun j hj => ?_)
    cases hj
    exact hother.symm

end SummerOsk.Fs
