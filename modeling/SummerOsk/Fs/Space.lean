import SummerOsk.Fs.Contents
import Mathlib.Order.Interval.Finset.Nat

/-!
# Free blocks

`writei` panics in `balloc` when the disk is full.  `nfree` counts the free
blocks and `missing` the blocks that a range of a file still needs; when there
are enough, `writei` returns (`writei_total`).
-/

namespace SummerOsk.Fs

open Lib Log Function Finset

variable {strict : Prop} {s t : FsState} {A A' : Nat → Dinode} {x : Option Nat} {h : Nat → Nat}
  {i j k o m n off bn b inum : Nat} {C C' : Nat → Block} {p : Place} {src : Source}
  {P : Finset Place}

/-! ## `balloc` -/

/-- The number of free blocks. -/
def FsState.nfree (s : FsState) : Nat :=
  ((Finset.range s.sb.size).filter fun b => usedBit s.sb s.cache b = false).card

theorem exists_free (hfree : 0 < s.nfree) : ∃ b < s.sb.size, usedBit s.sb s.cache b = false := by
  obtain ⟨b, hb⟩ := card_pos.mp hfree
  rw [mem_filter, mem_range] at hb
  exact ⟨b, hb⟩

theorem freeBit_eq_none {size bi : Nat} {y : Block} (hf : freeBit size y b bi n = none)
    (hj : bi ≤ j) (hjn : j < bi + n) (hsize : b + j < size) : getBit y j = true := by
  induction n generalizing bi with
  | zero => omega
  | succ n ih =>
    rw [freeBit] at hf
    split_ifs at hf with hlt hbit
    · rcases eq_or_ne j bi with rfl | heq
      · simpa using hbit
      · exact ih hf (by omega) (by omega)
    · omega

/-- The search meets every free block from `b` on. -/
theorem ballocFrom_total (hb : BPB ∣ b) (hn : s.sb.size ≤ b + n * BPB)
    (hfree : ∃ b', b ≤ b' ∧ b' < s.sb.size ∧ usedBit s.sb s.cache b' = false) :
    wp (ballocFrom b n) s (fun _ _ => True) fun _ => False := by
  obtain ⟨b', hle, hlt, hbit⟩ := hfree
  induction n generalizing b with
  | zero => omega
  | succ n ih =>
    simp only [ballocFrom, wp_bind, wp_getSb]
    rw [if_pos (by omega)]
    simp only [wp_bind, wp_bread]
    cases hf : freeBit s.sb.size (s.cache (s.sb.bblock b)) b 0 BPB with
    | some bi =>
      simp only [wp_bind, wp_logWrite, bzero, wp_pure]
    | none =>
      -- the free block is not one of this bitmap block
      have hnext : b + BPB ≤ b' := by
        by_contra hnear
        have hbi : b' - b < BPB := by omega
        obtain ⟨hblock, hmod⟩ := bblock_add s.sb hb hbi
        rw [Nat.add_sub_cancel' hle] at hblock hmod
        have hused := freeBit_eq_none hf (Nat.zero_le (b' - b)) (by omega) (by omega)
        rw [usedBit, hblock, hmod, hused] at hbit
        cases hbit
      refine ih (Nat.dvd_add hb (Nat.dvd_refl BPB)) ?_ hnext
      rw [Nat.succ_mul] at hn
      omega

theorem balloc_total (hfree : 0 < s.nfree) :
    wp balloc s (fun b t => b < s.sb.size ∧ usedBit s.sb s.cache b = false ∧ t = s.take b)
      fun _ => False := by
  obtain ⟨b, hb, hbit⟩ := exists_free hfree
  have htotal : wp balloc s (fun _ _ => True) fun _ => False := by
    refine ballocFrom_total (Nat.dvd_zero BPB) ?_ ⟨b, Nat.zero_le b, hb, hbit⟩
    have hpos : 0 < BPB := by decide
    rw [Nat.zero_add, Nat.mul_comm]
    exact (Nat.lt_mul_div_succ s.sb.size hpos).le
  exact wp_mono (wp_total balloc_spec htotal) fun _ _ hr => hr.1

theorem nfree_take (hg : Geometry s.sb) (hm : s.sb.nmeta ≤ b) (hb : b < s.sb.size)
    (hbit : usedBit s.sb s.cache b = false) : (s.take b).nfree + 1 = s.nfree := by
  have herase : ((Finset.range s.sb.size).filter fun b' =>
        usedBit s.sb (s.take b).cache b' = false) =
      ((Finset.range s.sb.size).filter fun b' => usedBit s.sb s.cache b' = false).erase b := by
    ext b'
    rw [mem_erase, mem_filter, mem_filter, mem_range]
    constructor
    · intro h'
      rw [usedBit_take hg hm h'.1, Bool.or_eq_false_iff, decide_eq_false_iff_not] at h'
      exact ⟨h'.2.1, h'.1, h'.2.2⟩
    · intro h'
      rw [usedBit_take hg hm h'.2.1, Bool.or_eq_false_iff, decide_eq_false_iff_not]
      exact ⟨h'.2.1, h'.1, h'.2.2⟩
  have hmem : b ∈ (Finset.range s.sb.size).filter fun b' => usedBit s.sb s.cache b' = false := by
    rw [mem_filter, mem_range]
    exact ⟨hb, hbit⟩
  have hcard := card_erase_add_one hmem
  rw [← herase] at hcard
  exact hcard

/-- The count depends on the bitmap only. -/
theorem nfree_congr (hg : Geometry s.sb) (hsb : t.sb = s.sb)
    (hC : ∀ b < s.sb.nmeta, t.cache b = s.cache b) : t.nfree = s.nfree := by
  rw [FsState.nfree, FsState.nfree, hsb]
  congr 1
  refine filter_congr fun b hb => ?_
  rw [usedBit, usedBit, hC _ (hg.bblock_lt (mem_range.mp hb))]

/-! ## The blocks that a range needs -/

/-- How many of the places have no block. -/
def missing (n : Nat) (A : Nat → Dinode) (C : Nat → Block) (P : Finset Place) : Nat :=
  (P.filter fun p => refOf n A C p = none).card

/-- The places on the way to block `bn` of an inode. -/
def blockPlaces (inum bn : Nat) : Finset Place :=
  if bn < NDIRECT then {place inum bn} else {place inum bn, .indirect inum}

/-- The blocks of the range of `n` bytes from `off` on. -/
def blockRange (off n : Nat) : Finset Nat :=
  if n = 0 then ∅ else Finset.Icc (off / BSIZE) ((off + n - 1) / BSIZE)

/-- The places on the way to the blocks of a range. -/
def touched (inum off n : Nat) : Finset Place := (blockRange off n).biUnion (blockPlaces inum)

theorem missing_union_le (n : Nat) (A : Nat → Dinode) (C : Nat → Block) (P Q : Finset Place) :
    missing n A C (P \ Q) + missing n A C Q = missing n A C (P ∪ Q) := by
  rw [missing, missing, missing, ← card_union_of_disjoint]
  · rw [← filter_union, sdiff_union_self_eq_union]
  · exact disjoint_filter_filter sdiff_disjoint

theorem missing_le_of_imp {Q : Finset Place}
    (hP : ∀ p ∈ P, refOf n A' C' p = none → p ∈ Q ∧ refOf n A C p = none) :
    missing n A' C' P ≤ missing n A C Q := by
  refine card_le_card fun p hp => ?_
  rw [mem_filter] at hp ⊢
  exact hP p hp.1 hp.2

theorem missing_congr (href : ∀ p, refOf n A' C' p = refOf n A C p) (P : Finset Place) :
    missing n A' C' P = missing n A C P := by
  simp only [missing, href]

theorem place_mem_blockPlaces (inum bn : Nat) : place inum bn ∈ blockPlaces inum bn := by
  unfold blockPlaces
  split_ifs <;> simp

theorem mem_blockPlaces (hp : p ∈ blockPlaces inum bn) :
    p = place inum bn ∨ p = .indirect inum ∧ ¬ bn < NDIRECT := by
  unfold blockPlaces at hp
  split_ifs at hp with hbn
  · exact .inl (mem_singleton.mp hp)
  · rw [mem_insert, mem_singleton] at hp
    exact hp.imp_right fun he => ⟨he, hbn⟩

theorem place_or_indirect_of_mem_touched
    (hp : p ∈ touched inum off n) : (∃ bn, p = place inum bn) ∨ p = .indirect inum := by
  rw [touched, mem_biUnion] at hp
  obtain ⟨bn, -, hp⟩ := hp
  exact (mem_blockPlaces hp).imp (fun he => ⟨bn, he⟩) fun he => he.1

theorem missing_pos (hp : p ∈ P) (hnone : refOf n A C p = none) : 0 < missing n A C P :=
  card_pos.mpr ⟨p, mem_filter.mpr ⟨hp, hnone⟩⟩

theorem missing_pair {q : Place} (hne : p ≠ q) (hp : refOf n A C p = none)
    (hq : refOf n A C q = none) : missing n A C {p, q} = 2 := by
  rw [missing, filter_true_of_mem, card_pair hne]
  intro r hr
  rw [mem_insert, mem_singleton] at hr
  rcases hr with rfl | rfl
  · exact hp
  · exact hq

/-! ## `bmap` -/

/-- The allocation of a block for an empty slot. -/
theorem allocSlot_total (hI : Inv strict A x h s) (hfree : 0 < s.nfree) :
    wp (do
        let b ← balloc
        modifyInode i fun ip => { ip with addrs := update ip.addrs j b }
        pure b : FsM Nat) s
      (fun b t => t.nfree + 1 = s.nfree ∧ b ≠ 0 ∧ t.cache b = zeroBlock ∧
        (t.icache i).addrs = update (s.icache i).addrs j b) fun _ => False := by
  simp only [wp_bind]
  refine wp_mono (balloc_total hfree) ?_
  rintro b _ ⟨hb, hbit, rfl⟩
  have hm := hI.good.nmeta_le_of_free hb hbit
  have hb0 : b ≠ 0 := by
    have := hI.good.geom.nmeta_pos
    omega
  refine ⟨nfree_take hI.good.geom hm hb hbit, hb0, take_cache_self, ?_⟩
  simp [FsState.take]

theorem loadIndirect_total (hI : Inv strict A x h s)
    (hfree : (s.icache i).addrs NDIRECT = 0 → 0 < s.nfree) :
    wp (loadIndirect i) s
      (fun ib t => ((s.icache i).addrs NDIRECT = 0 ∧ t.nfree + 1 = s.nfree ∧
          t.cache ib = zeroBlock ∨
        (s.icache i).addrs NDIRECT ≠ 0 ∧ t = s ∧ ib = (s.icache i).addrs NDIRECT) ∧
        (t.icache i).addrs NDIRECT ≠ 0) fun _ => False := by
  refine wp_ite (fun hzero => ?_) fun hne => ?_
  · refine wp_mono (allocSlot_total hI (hfree hzero)) ?_
    rintro ib t ⟨hcount, hib, hblock, haddrs⟩
    refine ⟨.inl ⟨hzero, hcount, hblock⟩, ?_⟩
    rw [haddrs, update_self]
    exact hib
  · exact ⟨.inr ⟨hne, rfl, rfl⟩, hne⟩

theorem mapEntry_total (hI : Inv strict A x h s) {ib : Nat} (hm : s.sb.nmeta ≤ ib)
    (hfree : getLE (s.cache ib) (4 * k) 4 = 0 → 0 < s.nfree) :
    wp (mapEntry ib k) s
      (fun _ t => (getLE (s.cache ib) (4 * k) 4 = 0 ∧ t.nfree + 1 = s.nfree ∨
        getLE (s.cache ib) (4 * k) 4 ≠ 0 ∧ t.nfree = s.nfree) ∧ t.icache = s.icache)
      fun _ => False := by
  refine wp_ite (fun hzero => ?_) fun hne => ?_
  · simp only [wp_bind]
    refine wp_mono (balloc_total (hfree hzero)) ?_
    rintro b _ ⟨hb, hbit, rfl⟩
    refine ⟨.inl ⟨hzero, ?_⟩, rfl⟩
    have hsame := nfree_congr (s := s.take b) (t := { s.take b with
        cache := update (s.take b).cache ib (putLE (s.cache ib) (4 * k) 4 b)
        disk := update (s.take b).disk ib (putLE (s.cache ib) (4 * k) 4 b) })
      hI.good.geom rfl fun b' hb' => ?_
    · rw [hsame]
      exact nfree_take hI.good.geom (hI.good.nmeta_le_of_free hb hbit) hb hbit
    · have hb' : b' < s.sb.nmeta := hb'
      exact update_of_ne (by omega) _ _
  · exact ⟨.inr ⟨hne, rfl⟩, rfl⟩

/-- `bmap` returns when there are blocks for the places on the way. -/
theorem bmap_total (hI : Inv strict A (some i) h s) (hi : 0 < h i) (hv : (s.icache i).valid)
    (hbn : bn < MAXFILE)
    (hneed : missing s.sb.ninodes A s.cache (blockPlaces (s.icache i).inum bn) ≤ s.nfree) :
    wp (bmap i bn) s
      (fun _ t =>
        s.nfree ≤
          t.nfree + missing s.sb.ninodes A s.cache (blockPlaces (s.icache i).inum bn) ∧
        ((s.icache i).addrs NDIRECT ≠ 0 → (t.icache i).addrs NDIRECT ≠ 0)) fun _ => False := by
  have hinum := hI.cached.inum i hi
  have haddrs := hI.addrs_eq hi hv
  refine wp_ite (fun hlt => ?_) fun hge => ?_
  · refine wp_ite (fun hzero => ?_) fun _ => ⟨Nat.le_add_right _ _, id⟩
    have hnone : refOf s.sb.ninodes A s.cache (place (s.icache i).inum bn) = none := by
      rw [place, if_pos hlt, refOf, if_pos ⟨hinum, hlt⟩, ← haddrs, hzero, ptr_zero]
    have hpos := missing_pos (place_mem_blockPlaces (s.icache i).inum bn) hnone
    refine wp_mono (allocSlot_total hI (by omega)) ?_
    rintro b t ⟨hcount, -, -, ha⟩
    refine ⟨by omega, fun hne => ?_⟩
    rw [ha, update_of_ne (by omega)]
    exact hne
  · have hk : bn - NDIRECT < NINDIRECT := by
      rw [MAXFILE] at hbn
      omega
    have hplace : place (s.icache i).inum bn = .entry (s.icache i).inum (bn - NDIRECT) := by
      rw [place, if_neg hge]
    have hind : refOf s.sb.ninodes A s.cache (.indirect (s.icache i).inum) =
        ptr ((s.icache i).addrs NDIRECT) := by
      rw [refOf, if_pos hinum, haddrs]
    rw [blockPlaces, if_neg hge, hplace] at hneed ⊢
    rw [if_pos hk, wp_bind]
    have hboth : (s.icache i).addrs NDIRECT = 0 → missing s.sb.ninodes A s.cache
        {.entry (s.icache i).inum (bn - NDIRECT), .indirect (s.icache i).inum} = 2 := by
      intro hzero
      rw [hzero, ptr_zero] at hind
      exact missing_pair (by simp) (refOf_entry_eq_none hind) hind
    have hfirst : (s.icache i).addrs NDIRECT = 0 → 0 < s.nfree := by
      intro hzero
      omega
    refine wp_mono (wp_total (loadIndirect_spec hI hi hv) (loadIndirect_total hI hfirst)) ?_
    rintro ib t ⟨⟨A1, hI1, hgrow, hib⟩, hload, hset⟩
    rw [← hgrow.sb] at hib
    -- what is left for the entry
    have hleft : (getLE (t.cache ib) (4 * (bn - NDIRECT)) 4 = 0 → 0 < t.nfree) ∧
        s.nfree + (if getLE (t.cache ib) (4 * (bn - NDIRECT)) 4 = 0 then 1 else 0) ≤
          t.nfree + missing s.sb.ninodes A s.cache
            {.entry (s.icache i).inum (bn - NDIRECT), .indirect (s.icache i).inum} := by
      rcases hload with ⟨hzero, hcount, hblock⟩ | ⟨hne, rfl, rfl⟩
      · rw [hblock, getLE_zeroBlock, if_pos rfl]
        omega
      · rw [ptr_of_ne hne] at hind
        have hentry := refOf_entry hind hk
        split_ifs with hempty
        · rw [hempty, ptr_zero] at hentry
          have hpos := missing_pos (P := {Place.entry (t.icache i).inum (bn - NDIRECT),
            Place.indirect (t.icache i).inum}) (by simp) hentry
          omega
        · omega
    refine wp_mono (mapEntry_total hI1 (hI1.good.owned.nmeta_le hib) hleft.1) ?_
    rintro b u ⟨hcount, hic⟩
    rw [hic]
    refine ⟨?_, fun _ => hset⟩
    rcases hcount with ⟨hempty, hcount⟩ | ⟨hne, hcount⟩
    · rw [if_pos hempty] at hleft
      omega
    · omega

/-! ## `writei` -/

/-- Without what concerns directories the invariant is weaker. -/
theorem Inv.relax (hI : Inv strict A x h s) : Inv False A x h s :=
  ⟨⟨⟨hI.good.geom, hI.good.ok, False.elim, hI.good.whole, False.elim, False.elim⟩,
    hI.good.owned⟩, hI.cached, hI.synced⟩

/-- After `bmap` of the first block of a range, the rest needs no more than it
needed before. -/
theorem missing_after_bmap (hI : Inv strict A x h s) (hI' : Inv strict A' x h t) (hi : 0 < h i)
    (hv : (s.icache i).valid) (hgrow : Grows i A s A' t) (off n : Nat)
    (hb : refOf s.sb.ninodes A' t.cache (place (s.icache i).inum bn) = some b)
    (hset : (s.icache i).addrs NDIRECT ≠ 0 → (t.icache i).addrs NDIRECT ≠ 0) :
    missing s.sb.ninodes A' t.cache (touched (s.icache i).inum off n) ≤
      missing s.sb.ninodes A s.cache
        (touched (s.icache i).inum off n \ blockPlaces (s.icache i).inum bn) := by
  obtain ⟨a, hic, -⟩ := hgrow.entry
  have hinum : (t.icache i).inum = (s.icache i).inum := by rw [hic, update_self]
  have hv' : (t.icache i).valid = true := by rw [hic, update_self]; exact hv
  have hlt := hI.cached.inum i hi
  have hind' : refOf s.sb.ninodes A' t.cache (.indirect (s.icache i).inum) =
      ptr ((t.icache i).addrs NDIRECT) := by
    rw [refOf, if_pos hlt, hI'.addrs_eq hi hv', hinum]
  refine missing_le_of_imp fun p hp hnone => ?_
  rw [mem_sdiff]
  refine ⟨⟨hp, fun hmem => ?_⟩, ?_⟩
  · -- the places on the way to the block have their blocks now
    rcases mem_blockPlaces hmem with rfl | ⟨rfl, hge⟩
    · rw [hb] at hnone
      cases hnone
    · rw [place, if_neg hge, refOf_entry_eq_none hnone] at hb
      cases hb
  · rcases place_or_indirect_of_mem_touched hp with ⟨bn', rfl⟩ | rfl
    · cases hold : refOf s.sb.ninodes A s.cache (place (s.icache i).inum bn') with
      | none => rfl
      | some b' =>
        rw [(hgrow.keeps _ _ _ hold).1] at hnone
        cases hnone
    · rw [hind', ptr_eq_none] at hnone
      rw [refOf, if_pos hlt, ← hI.addrs_eq hi hv, ptr_eq_none]
      by_contra hne
      exact hset hne hnone

theorem blockPlaces_subset_touched (hlo : off / BSIZE ≤ bn) (hhi : bn * BSIZE < off + n)
    (hn : 0 < n) : blockPlaces inum bn ⊆ touched inum off n := by
  refine subset_biUnion_of_mem (blockPlaces inum) ?_
  rw [blockRange, if_neg hn.ne', mem_Icc]
  simp only [BSIZE] at hlo hhi ⊢
  omega

/-- References depend on the addresses of the inodes and on their indirect
blocks. -/
theorem refOf_eq_of_addrs (haddrs : ∀ inum < n, (A' inum).addrs = (A inum).addrs)
    (hC : ∀ inum ib, refOf n A C (.indirect inum) = some ib → C' ib = C ib) (p : Place) :
    refOf n A' C' p = refOf n A C p := by
  by_cases hp : p.inum < n
  · exact refOf_congr (congrFun (haddrs _ hp) _) fun ib => hC _ ib
  · rw [refOf_of_le (Nat.le_of_not_lt hp), refOf_of_le (Nat.le_of_not_lt hp)]

/-- `iupdate` of an inode that is out of step with the disk, after a change of
its size, does not change what a range needs. -/
theorem room_of_synced (hI : Inv False A (some i) h s) (hI' : Inv False A' none h t) (hi : 0 < h i)
    (hv : (s.icache i).valid) (hv' : (t.icache i).valid) (hsb : t.sb = s.sb)
    (hinum : (t.icache i).inum = (s.icache i).inum)
    (haddrs : (t.icache i).addrs = (s.icache i).addrs) (hdinode : ∀ inum, inum ≠ (s.icache i).inum →
      dinodeAt s.sb t.cache inum = dinodeAt s.sb s.cache inum)
    (hbits : ∀ b < s.sb.size, t.cache (s.sb.bblock b) = s.cache (s.sb.bblock b))
    (hdata : ∀ b, s.sb.nmeta ≤ b → t.cache b = s.cache b)
    (hneed : missing s.sb.ninodes A s.cache P ≤ s.nfree) :
    missing t.sb.ninodes A' t.cache P ≤ t.nfree := by
  have hfree : t.nfree = s.nfree := by
    rw [FsState.nfree, FsState.nfree, hsb]
    congr 1
    refine filter_congr fun b hb => ?_
    rw [usedBit, usedBit, hbits b (mem_range.mp hb)]
  have hA : ∀ inum < s.sb.ninodes, (A' inum).addrs = (A inum).addrs := by
    intro inum hlt
    by_cases heq : inum = (s.icache i).inum
    · rw [heq, ← hI.data_eq hi hv, ← hinum, ← hI'.data_eq hi hv', haddrs]
    · rw [← hI'.synced inum (hsb.symm ▸ hlt) fun _ hj => (by cases hj), hsb, hdinode inum heq,
        hI.synced inum hlt fun j hj => by cases hj; exact Ne.symm heq]
  rw [hfree, hsb, missing_congr (refOf_eq_of_addrs hA fun _ ib hib =>
    hdata ib (hI.good.owned.nmeta_le hib))]
  exact hneed

/-- `bmap` of a block of a range keeps enough free blocks for the whole range. -/
theorem bmap_room (hI : Inv False A (some i) h s) (hi : 0 < h i) (hv : (s.icache i).valid)
    (hbn : bn < MAXFILE) (hmem : blockPlaces (s.icache i).inum bn ⊆ touched (s.icache i).inum off n)
    (hneed : missing s.sb.ninodes A s.cache (touched (s.icache i).inum off n) ≤ s.nfree) :
    wp (bmap i bn) s
      (fun b t => ∃ A', Inv False A' (some i) h t ∧ Grows i A s A' t ∧
        refOf s.sb.ninodes A' t.cache (place (s.icache i).inum bn) = some b ∧
        missing s.sb.ninodes A' t.cache (touched (s.icache i).inum off n) ≤ t.nfree)
      fun _ => False := by
  have hsplit := missing_union_le s.sb.ninodes A s.cache (touched (s.icache i).inum off n)
    (blockPlaces (s.icache i).inum bn)
  rw [union_eq_left.mpr hmem] at hsplit
  refine wp_mono (wp_total (bmap_spec hI hi hv bn) (bmap_total hI hi hv hbn (by omega))) ?_
  rintro b t ⟨⟨A', hI', hgrow, hb⟩, hcount, hset⟩
  have hrest := missing_after_bmap hI hI' hi hv hgrow off n hb hset
  exact ⟨A', hI', hgrow, hb, by omega⟩

/-- The loop of `writei` over a part of a range keeps enough free blocks for
the whole range. -/
theorem writeLoop_room (hI : Inv False A (some i) h s) (hi : 0 < h i)
    (hv : (s.icache i).valid) {tot : Nat} (hmax : off + n ≤ MAXFILE * BSIZE) (ho : o ≤ off)
    (hm : off + n ≤ o + m)
    (hneed : missing s.sb.ninodes A s.cache (touched (s.icache i).inum o m) ≤ s.nfree) :
    wp (writeLoop i src tot off n k) s
      (fun _ t => t.sb = s.sb ∧ (t.icache i).inum = (s.icache i).inum ∧
        (t.icache i).valid = true ∧ ∃ A', Inv False A' (some i) h t ∧
          missing s.sb.ninodes A' t.cache (touched (s.icache i).inum o m) ≤ t.nfree)
      fun _ => False := by
  induction k generalizing s A tot off n with
  | zero => exact ⟨rfl, rfl, hv, A, hI, hneed⟩
  | succ k ih =>
    refine wp_ite (fun hpos => ?_) fun _ => ⟨rfl, rfl, hv, A, hI, hneed⟩
    rw [wp_bind]
    have hbn : off / BSIZE < MAXFILE := by
      simp only [MAXFILE, NDIRECT, NINDIRECT, BSIZE] at hmax ⊢
      omega
    have hmem : blockPlaces (s.icache i).inum (off / BSIZE) ⊆ touched (s.icache i).inum o m := by
      refine blockPlaces_subset_touched (Nat.div_le_div_right ho) ?_ (by omega)
      have := Nat.div_mul_le_self off BSIZE
      omega
    refine wp_mono (bmap_room hI hi hv hbn hmem hneed) ?_
    rintro b t ⟨A1, hI1, hgrow, hb, hneed1⟩
    obtain ⟨a, hic, -⟩ := hgrow.entry
    have hinum : (t.icache i).inum = (s.icache i).inum := by rw [hic, update_self]
    have hv1 : (t.icache i).valid = true := by rw [hic, update_self]; exact hv
    rw [← hgrow.sb, ← hinum] at hb hneed1
    have hmeta := hI1.good.owned.nmeta_le hb
    have hlt := hI1.cached.inum i hi
    -- the bytes are stored in a data block, which is not in the bitmap
    have hstore : ∀ D' bs, (D' = update t.disk b (putBytes (t.cache b) (off % BSIZE) bs) ∨
        D' = t.disk ∧ (False → (A1 (t.icache i).inum).type ≠ T_DIR)) →
        let u : FsState := { t with
          cache := update t.cache b (putBytes (t.cache b) (off % BSIZE) bs), disk := D' }
        Inv False A1 (some i) h u ∧
          missing u.sb.ninodes A1 u.cache (touched (t.icache i).inum o m) ≤ u.nfree := by
      intro D' bs hD u
      obtain ⟨hI2, href⟩ := hI1.put_bytes hb (fun hst : False => hst.elim) hlt hD
      have hsame : u.nfree = t.nfree :=
        nfree_congr hI1.good.geom rfl fun b' hb' => update_of_ne (by omega) _ _
      refine ⟨hI2, ?_⟩
      rw [hsame]
      change missing t.sb.ninodes A1 _ _ ≤ _
      rw [missing_congr href]
      exact hneed1
    refine wp_ite (fun _ => ?_) fun _ => ?_
    · obtain ⟨hI2, hneed2⟩ := hstore t.disk (src.fetch tot (min n (BSIZE - off % BSIZE)))
        (.inr ⟨rfl, False.elim⟩)
      refine ⟨hgrow.sb, hinum, hv1, A1, hI2, ?_⟩
      rw [← hgrow.sb, ← hinum]
      exact hneed2
    · obtain ⟨hI2, hneed2⟩ := hstore _ (src.fetch tot (min n (BSIZE - off % BSIZE))) (.inl rfl)
      refine wp_mono (ih hI2 hv1 (by omega) (by omega) (by omega) hneed2) ?_
      rintro stop u ⟨hsb, hinumu, hvu, hAu⟩
      refine ⟨hsb.trans hgrow.sb, hinumu.trans hinum, hvu, ?_⟩
      rw [← hgrow.sb, ← hinum]
      exact hAu

section

variable (hI : Inv strict A none h s) (hi : 0 < h i) (hv : (s.icache i).valid) (hn : n < 2 ^ 32)

include hI hi hv hn

/-- `writei` of a part of a range returns when there are blocks for the range,
and there are enough blocks for the range afterwards. -/
theorem writei_room (ho : o ≤ off) (hm : off + n ≤ o + m)
    (hneed : missing s.sb.ninodes A s.cache (touched (s.icache i).inum o m) ≤ s.nfree) :
    wp (writei i src off n) s
      (fun _ t => ∀ A', Inv False A' none h t →
        missing t.sb.ninodes A' t.cache (touched (s.icache i).inum o m) ≤ t.nfree)
      fun _ => False := by
  have hI := hI.relax.out (i := i)
  refine wp_ite (fun _ A' hI' => ?_) fun hok => ?_
  · exact room_of_synced hI hI' hi hv hv rfl rfl rfl (fun _ _ => rfl) (fun _ _ => rfl)
      (fun _ _ => rfl) hneed
  refine wp_ite (fun _ A' hI' => ?_) fun hok' => ?_
  · exact room_of_synced hI hI' hi hv hv rfl rfl rfl (fun _ _ => rfl) (fun _ _ => rfl)
      (fun _ _ => rfl) hneed
  refine wp_seq (writeLoop_room hI hi hv (by omega) ho hm hneed) ?_
  rintro stop t ⟨hsb, hinum, hvt, A1, hI1, hneed1⟩
  rw [← hsb] at hneed1
  refine wp_ite (fun _ => ?_) fun _ A' hI' => ?_
  · intro A' hI'
    have hlt := hI1.cached.inum i hi
    have hmeta := hI1.good.geom.iblock_lt_nmeta hlt
    refine room_of_synced hI1 hI' hi hvt ?_ rfl ?_ ?_ (fun inum hne => ?_) (fun b _ => ?_)
      (fun b hb => ?_) hneed1
    · simpa using hvt
    · simp
    · simp
    · simp only [update_self]
      exact dinodeAt_putDinode_of_ne _ _ hne
    · simp only [update_self]
      exact update_of_ne (hI1.good.geom.iblock_ne_bblock hlt b).symm _ _
    · simp only [update_self]
      exact update_of_ne (by omega) _ _
  · exact room_of_synced hI1 hI' hi hvt hvt rfl rfl rfl (fun _ _ => rfl) (fun _ _ => rfl)
      (fun _ _ => rfl) hneed1

/-- `writei` returns when there are blocks for the range. -/
theorem writei_total
    (hneed : missing s.sb.ninodes A s.cache (touched (s.icache i).inum off n) ≤ s.nfree) :
    wp (writei i src off n) s (fun _ _ => True) fun _ => False :=
  wp_mono (writei_room hI hi hv hn le_rfl le_rfl hneed) fun _ _ _ => trivial

end

end SummerOsk.Fs
