import SummerOsk.Fs.Invariant

/-!
# The block allocator

The specifications of `balloc`, `bfree` and `bmap`.  The first two are stated
as the exact state they leave.  `bmap_spec` then says that the block of a file
that `bmap` returns is referred to from the place of that file block, that the
invariant holds, and that the blocks which files had before stay with them.
-/

namespace SummerOsk.Fs

open Lib Log Function

/-- The ways for a call to stop other than the panic of `bfree`. -/
def Allowed (e : Stop) : Prop := e ≠ .panic "freeing free block"

instance (e : Stop) : Decidable (Allowed e) := inferInstanceAs (Decidable (_ ≠ _))

/-! ## The primitive operations -/

section

variable {α : Type} {s : FsState} {E : Stop → Prop} {Q : Unit → FsState → Prop}

@[simp] theorem wp_panic (msg : String) {Q : α → FsState → Prop} :
    wp (panic msg) s Q E ↔ E (.panic msg) := Iff.rfl

@[simp] theorem wp_getSb {Q : Superblock → FsState → Prop} :
    wp getSb s Q E ↔ Q s.sb s := Iff.rfl

@[simp] theorem wp_getInode (i : Nat) {Q : Inode → FsState → Prop} :
    wp (getInode i) s Q E ↔ Q (s.icache i) s := Iff.rfl

@[simp] theorem wp_setInode (i : Nat) (ip : Inode) :
    wp (setInode i ip) s Q E ↔
      Q () { s with icache := update s.icache i ip } := Iff.rfl

@[simp] theorem wp_modifyInode (i : Nat) (f : Inode → Inode) :
    wp (modifyInode i f) s Q E ↔
      Q () { s with icache := update s.icache i (f (s.icache i)) } := Iff.rfl

@[simp] theorem wp_bread (b : Nat) {Q : Block → FsState → Prop} :
    wp (bread b) s Q E ↔ Q (s.cache b) s := Iff.rfl

@[simp] theorem wp_logWrite (b : Nat) (x : Block) :
    wp (logWrite b x) s Q E ↔ Q () { s with
      cache := update s.cache b x, disk := update s.disk b x } := Iff.rfl

end

/-! ## `balloc` and `bfree` -/

variable {strict : Prop} {s t : FsState} {A A' A1 A2 A3 : Nat → Dinode} {x : Option Nat}
  {h : Nat → Nat} {i bi ib k b b' n j inum : Nat} {C : Nat → Block} {q : Place}

/-- The state after `balloc` returned block `b`. -/
def FsState.take (s : FsState) (b : Nat) : FsState :=
  let y := setBit (s.cache (s.sb.bblock b)) (b % BPB)
  { s with
    cache := update (update s.cache (s.sb.bblock b) y) b zeroBlock
    disk := update (update s.disk (s.sb.bblock b) y) b zeroBlock }

/-- The state after `bfree` of block `b`. -/
def FsState.give (s : FsState) (b : Nat) : FsState :=
  let y := clearBit (s.cache (s.sb.bblock b)) (b % BPB)
  { s with
    cache := update s.cache (s.sb.bblock b) y
    disk := update s.disk (s.sb.bblock b) y }

theorem freeBit_eq_some {size bi' : Nat} {y : Block} (hf : freeBit size y b bi n = some bi') :
    bi' < bi + n ∧ b + bi' < size ∧ getBit y bi' = false := by
  induction n generalizing bi with
  | zero => simp [freeBit] at hf
  | succ n ih =>
    rw [freeBit] at hf
    split_ifs at hf with hsize hbit
    · cases hf
      exact ⟨by omega, hsize, hbit⟩
    · obtain ⟨hlt, hrest⟩ := ih hf
      exact ⟨by omega, hrest⟩

theorem bblock_add (sb : Superblock) (hb : BPB ∣ b) (hbi : bi < BPB) :
    sb.bblock (b + bi) = sb.bblock b ∧ (b + bi) % BPB = bi := by
  obtain ⟨k, rfl⟩ := hb
  have hpos : 0 < BPB := Nat.lt_of_le_of_lt (Nat.zero_le _) hbi
  constructor
  · rw [Superblock.bblock, Superblock.bblock, Nat.mul_add_div hpos, Nat.div_eq_of_lt hbi,
      Nat.mul_div_cancel_left _ hpos, Nat.add_zero]
  · rw [Nat.mul_add_mod, Nat.mod_eq_of_lt hbi]

theorem ballocFrom_spec (hb : BPB ∣ b) (n : Nat) :
    wp (ballocFrom b n) s
      (fun b t => b < s.sb.size ∧ usedBit s.sb s.cache b = false ∧ t = s.take b) Allowed := by
  induction n generalizing b with
  | zero => simp [ballocFrom, Allowed]
  | succ n ih =>
    refine wp_ite (fun hlt => ?_) fun _ => by simp [Allowed]
    simp only [wp_bind, wp_bread]
    cases hf : freeBit s.sb.size (s.cache (s.sb.bblock b)) b 0 BPB with
    | none => exact ih (Nat.dvd_add hb (Nat.dvd_refl BPB))
    | some bi =>
      obtain ⟨hbi, hsize, hbit⟩ := freeBit_eq_some hf
      obtain ⟨hblock, hmod⟩ := bblock_add s.sb hb hbi
      refine ⟨hsize, ?_, ?_⟩
      · rw [usedBit, hblock, hmod, hbit]
      · rw [FsState.take, hblock, hmod]

theorem balloc_spec :
    wp balloc s
      (fun b t => b < s.sb.size ∧ usedBit s.sb s.cache b = false ∧ t = s.take b) Allowed := by
  exact ballocFrom_spec (Nat.dvd_zero BPB) _

theorem bfree_spec (hb : usedBit s.sb s.cache b) :
    wp (bfree b) s (fun _ t => t = s.give b) Allowed := by
  have hbit : getBit (s.cache (s.sb.bblock b)) (b % BPB) ≠ false := by
    rw [usedBit] at hb
    simp [hb]
  simp only [bfree, wp_bind, wp_getSb, wp_bread]
  rw [if_neg hbit]
  rfl

/-! ## A new block for a file -/

theorem getLE_zeroBlock (o w : Nat) : getLE zeroBlock o w = 0 := by
  induction w generalizing o with
  | zero => rfl
  | succ w ih => simp [getLE, ih, zeroBlock]

theorem Good.nmeta_le_of_free {sb : Superblock} {D : Nat → Block} (hg : Good strict sb A C D)
    (hb : b < sb.size) (hfree : usedBit sb C b = false) : sb.nmeta ≤ b :=
  Nat.le_of_not_lt (hg.owned.not_base hb (by simp [hfree]))

theorem take_cache_of_ne (hb : b' ≠ b) (hbit : b' ≠ s.sb.bblock b) :
    (s.take b).cache b' = s.cache b' := by
  simp only [FsState.take, update_of_ne hb, update_of_ne hbit]

/-- `balloc` changes nothing above the metadata but the new block. -/
theorem take_cache_of_le (hg : Geometry s.sb) (hb : b < s.sb.size) (hm : s.sb.nmeta ≤ b')
    (hne : b' ≠ b) : (s.take b).cache b' = s.cache b' := by
  have := hg.bblock_lt hb
  exact take_cache_of_ne hne (by omega)

theorem take_cache_self : (s.take b).cache b = zeroBlock := by
  simp only [FsState.take, update_self]

theorem usedBit_take (hg : Geometry s.sb) (hm : s.sb.nmeta ≤ b) (hb' : b' < s.sb.size) :
    usedBit s.sb (s.take b).cache b' = (decide (b' = b) || usedBit s.sb s.cache b') := by
  have := hg.bblock_lt hb'
  simp only [FsState.take]
  rw [usedBit_update_of_ne _ (by omega), usedBit_setBit]

theorem dinodeAt_take (hg : Geometry s.sb) (hm : s.sb.nmeta ≤ b) (hi : inum < s.sb.ninodes) :
    dinodeAt s.sb (s.take b).cache inum = dinodeAt s.sb s.cache inum := by
  have := hg.iblock_lt_nmeta hi
  simp only [FsState.take]
  rw [dinodeAt_update_of_ne _ (by omega), dinodeAt_update_of_ne _ (hg.iblock_ne_bblock hi b)]

theorem take_torn (hne : (s.take b).cache b' ≠ (s.take b).disk b') :
    s.cache b' ≠ s.disk b' ∧ b' ≠ b := by
  rcases eq_or_ne b' b with rfl | hb
  · simp [FsState.take] at hne
  · by_cases hbit : b' = s.sb.bblock b
    · subst hbit
      simp [FsState.take, update_of_ne hb] at hne
    · simp only [FsState.take, update_of_ne hb, update_of_ne hbit] at hne
      exact ⟨hne, hb⟩

/-- The place of a slot of `addrs`. -/
def slotPlace (inum j : Nat) : Place := if j < NDIRECT then .direct inum j else .indirect inum

/-- The dinode with slot `j` set. -/
def Dinode.setAddr (d : Dinode) (j b : Nat) : Dinode :=
  { d with addrs := update d.addrs j b }

theorem Dinode.Ok.setAddr {d : Dinode} (hd : d.Ok) (hj : j ≤ NDIRECT)
    (hb : b < 2 ^ 32) : (d.setAddr j b).Ok := by
  refine { hd with addrs := fun k => ?_, addrs_zero := fun k hk => ?_ }
  · by_cases hkj : k = j
    · simpa [Dinode.setAddr, hkj] using hb
    · simpa [Dinode.setAddr, update_of_ne hkj] using hd.addrs k
  · have hkj : k ≠ j := by omega
    simpa [Dinode.setAddr, update_of_ne hkj] using hd.addrs_zero k hk

theorem refOf_slotPlace (hi : inum < n) (hj : j ≤ NDIRECT) :
    refOf n A C (slotPlace inum j) = ptr ((A inum).addrs j) := by
  unfold slotPlace
  split_ifs with hlt
  · rw [refOf, if_pos ⟨hi, hlt⟩]
  · rw [refOf, if_pos hi, Nat.le_antisymm hj (Nat.le_of_not_lt hlt)]

/-- The references after an empty slot got block `b`, which is zero. -/
theorem refOf_setAddr_of_ne {C' : Nat → Block} (hempty : (A inum).addrs j = 0)
    (hzero : C' b = zeroBlock) (hC : ∀ ib p, refOf n A C p = some ib → C' ib = C ib)
    (hq : q ≠ slotPlace inum j) :
    refOf n (update A inum ((A inum).setAddr j b)) C' q = refOf n A C q := by
  by_cases hslot : q.inum = inum ∧ q.slot = j
  · obtain ⟨rfl, rfl⟩ := hslot
    cases q with
    | direct inum i =>
      -- a direct place that is not the place of its slot is out of range
      have hi : ¬ i < NDIRECT := fun hi => hq (by simp [slotPlace, Place.inum, Place.slot, hi])
      simp [refOf, hi]
    | indirect inum => exact absurd (by simp [slotPlace, Place.inum, Place.slot]) hq
    | entry inum k =>
      simp only [Place.inum, Place.slot] at hempty ⊢
      simp only [refOf, update_self, Dinode.setAddr, hempty]
      split_ifs with hk
      · by_cases hb : b = 0
        · simp [hb]
        · simp [ptr_of_ne hb, hzero, getLE_zeroBlock]
      · rfl
  · refine refOf_congr ?_ fun ib hib => hC ib _ hib
    by_cases hi : q.inum = inum
    · have hj : q.slot ≠ j := fun hj => hslot ⟨hi, hj⟩
      simp only [hi, update_self, Dinode.setAddr, update_of_ne hj]
    · rw [update_of_ne hi]

/-- The blocks of the files stay with them, with their contents. -/
def Keeps (n : Nat) (A : Nat → Dinode) (C : Nat → Block) (A' : Nat → Dinode)
    (C' : Nat → Block) : Prop :=
  ∀ inum bn b, refOf n A C (place inum bn) = some b →
    refOf n A' C' (place inum bn) = some b ∧ C' b = C b

theorem Keeps.refl (n : Nat) (A : Nat → Dinode) (C : Nat → Block) : Keeps n A C A C :=
  fun _ _ _ hb => ⟨hb, rfl⟩

theorem Keeps.trans {C1 C2 C3 : Nat → Block} (h1 : Keeps n A1 C1 A2 C2) (h2 : Keeps n A2 C2 A3 C3) :
    Keeps n A1 C1 A3 C3 := by
  intro inum bn b hb
  obtain ⟨hb2, hc2⟩ := h1 inum bn b hb
  obtain ⟨hb3, hc3⟩ := h2 inum bn b hb2
  exact ⟨hb3, hc3.trans hc2⟩

section

variable (hg : Good strict s.sb A s.cache s.disk) (hb : b < s.sb.size)
  (hfree : usedBit s.sb s.cache b = false)
include hg hb hfree

/-- A block that is referred to is not changed by `balloc`. -/
theorem Good.take_cache_of_refOf {p : Place} (hp : refOf s.sb.ninodes A s.cache p = some b') :
    b' ≠ b ∧ (s.take b).cache b' = s.cache b' := by
  have hne : b' ≠ b := by
    rintro rfl
    exact hg.owned.ref_ne (by simp [hfree]) p hp
  exact ⟨hne, take_cache_of_le hg.geom hb (hg.owned.nmeta_le hp) hne⟩

/-- An empty slot of an inode gets the block that `balloc` returned. -/
theorem Good.take_slot (hi : inum < s.sb.ninodes) (hj : j ≤ NDIRECT)
    (htype : (A inum).type ≠ 0) (hempty : (A inum).addrs j = 0) :
    Good strict s.sb (update A inum ((A inum).setAddr j b)) (s.take b).cache
        (s.take b).disk ∧
      Keeps s.sb.ninodes A s.cache (update A inum ((A inum).setAddr j b))
        (s.take b).cache := by
  have hm := hg.nmeta_le_of_free hb hfree
  have hb0 : b ≠ 0 := by
    have := hg.geom.nmeta_pos
    omega
  have hsmall : b < 2 ^ 32 := by
    have := hg.geom.small
    omega
  have hnone : refOf s.sb.ninodes A s.cache (slotPlace inum j) = none := by
    rw [refOf_slotPlace hi hj, hempty, ptr_zero]
  have hrest : ∀ q, q ≠ slotPlace inum j →
      refOf s.sb.ninodes (update A inum ((A inum).setAddr j b)) (s.take b).cache q =
        refOf s.sb.ninodes A s.cache q := fun q hq =>
    refOf_setAddr_of_ne hempty take_cache_self
      (fun ib p hp => (hg.take_cache_of_refOf hb hfree hp).2) hq
  constructor
  · refine hg.assign hb hfree hnone ?_ hrest (fun b' hb' => usedBit_take hg.geom hm hb') ?_ ?_
      ?_ (fun b' hb' hne _ => take_cache_of_le hg.geom hb hb' hne) fun b' hne => take_torn hne
    · rw [refOf_slotPlace hi hj, update_self]
      simp [Dinode.setAddr, ptr_of_ne hb0]
    · intro inum'
      by_cases hi' : inum' = inum
      · subst hi'
        simp [Dinode.setAddr]
      · simp [update_of_ne hi']
    · intro inum' hlt
      by_cases hi' : inum' = inum
      · subst hi'
        rw [update_self]
        exact (hg.ok inum' hlt).setAddr hj hsmall
      · rw [update_of_ne hi']
        exact hg.ok inum' hlt
    · intro _ inum' _ ht
      have hi' : inum' ≠ inum := by
        rintro rfl
        exact htype ht
      rw [update_of_ne hi']
  · intro inum' bn b' hb'
    have hne : place inum' bn ≠ slotPlace inum j := by
      intro he
      rw [he, hnone] at hb'
      cases hb'
    rw [hrest _ hne]
    exact ⟨hb', (hg.take_cache_of_refOf hb hfree hb').2⟩

/-- The references other than an entry of an indirect block do not change when
the entry gets a new block. -/
theorem Good.refOf_take_entry_of_ne (hib : refOf s.sb.ninodes A s.cache (.indirect inum) = some ib)
    (hq : q ≠ .entry inum k) :
    refOf s.sb.ninodes A (update (s.take b).cache ib (putLE (s.cache ib) (4 * k) 4 b)) q =
      refOf s.sb.ninodes A s.cache q := by
  set C' := update (s.take b).cache ib (putLE (s.cache ib) (4 * k) 4 b) with hC'
  have hib' : refOf s.sb.ninodes A C' (.indirect inum) = some ib := by
    rw [← hib]
    rfl
  rcases eq_or_ne q.inum inum with rfl | hqi
  · cases q with
    | direct inum i => rfl
    | indirect inum => rfl
    | entry inum k' =>
      have hne : k' ≠ k := fun he => hq (by rw [he]; rfl)
      simp only [Place.inum] at hib hib'
      by_cases hk' : k' < NINDIRECT
      · rw [refOf_entry hib' hk', refOf_entry hib hk', hC', update_self,
          getLE_putLE_of_disjoint _ _ (by omega)]
      · simp [refOf, hk']
  · -- the indirect block of another inode is another block
    refine refOf_congr rfl fun ib' hib2 => ?_
    have hne : ib' ≠ ib := by
      rintro rfl
      exact hqi (Place.indirect.inj (hg.owned.inj _ _ _ hib2 hib))
    rw [hC', update_of_ne hne]
    exact (hg.take_cache_of_refOf hb hfree hib2).2

/-- An empty entry of an indirect block gets the block that `balloc`
returned. -/
theorem Good.take_entry (hib : refOf s.sb.ninodes A s.cache (.indirect inum) = some ib)
    (hk : k < NINDIRECT) (hempty : getLE (s.cache ib) (4 * k) 4 = 0) :
    Good strict s.sb A
        (update (s.take b).cache ib (putLE (s.cache ib) (4 * k) 4 b))
        (update (s.take b).disk ib (putLE (s.cache ib) (4 * k) 4 b)) ∧
      Keeps s.sb.ninodes A s.cache A
        (update (s.take b).cache ib (putLE (s.cache ib) (4 * k) 4 b)) ∧
      refOf s.sb.ninodes A
        (update (s.take b).cache ib (putLE (s.cache ib) (4 * k) 4 b))
        (.entry inum k) = some b := by
  have hm := hg.nmeta_le_of_free hb hfree
  have hb0 : b ≠ 0 := by
    have := hg.geom.nmeta_pos
    omega
  have hsmall : b < 256 ^ 4 := by
    have := hg.geom.small
    omega
  have hrest : ∀ q, q ≠ Place.entry inum k → refOf s.sb.ninodes A
      (update (s.take b).cache ib (putLE (s.cache ib) (4 * k) 4 b)) q =
        refOf s.sb.ninodes A s.cache q := fun q hq => hg.refOf_take_entry_of_ne hb hfree hib hq
  have hibm := hg.owned.nmeta_le hib
  set C' := update (s.take b).cache ib (putLE (s.cache ib) (4 * k) 4 b) with hC'
  have hnone : refOf s.sb.ninodes A s.cache (.entry inum k) = none := by
    rw [refOf_entry hib hk, hempty, ptr_zero]
  have hib' : refOf s.sb.ninodes A C' (.indirect inum) = some ib := by
    rw [← hib]
    rfl
  have hCib : C' ib = putLE (s.cache ib) (4 * k) 4 b := by rw [hC', update_self]
  have hentry : refOf s.sb.ninodes A C' (.entry inum k) = some b := by
    rw [refOf_entry hib' hk, hCib, getLE_putLE, Nat.mod_eq_of_lt hsmall, ptr_of_ne hb0]
  refine ⟨?_, ?_, hentry⟩
  · refine hg.assign hb hfree hnone hentry hrest (fun b' hb' => ?_) (fun _ => ⟨rfl, rfl⟩) hg.ok
      (fun _ _ _ _ => rfl) (fun b' hb' hne hind => ?_) fun b' hne => ?_
    · have := hg.geom.bblock_lt hb'
      rw [hC', usedBit_update_of_ne _ (by omega), usedBit_take hg.geom hm hb']
    · have hbib : b' ≠ ib := by
        rintro rfl
        exact hind inum hib
      rw [hC', update_of_ne hbib]
      exact take_cache_of_le hg.geom hb hb' hne
    · have hbib : b' ≠ ib := by
        rintro rfl
        simp [hC'] at hne
      rw [hC', update_of_ne hbib, update_of_ne hbib] at hne
      exact take_torn hne
  · intro inum' bn b' hb'
    have hne : place inum' bn ≠ .entry inum k := by
      intro he
      rw [he, hnone] at hb'
      cases hb'
    have hbib : b' ≠ ib := by
      rintro rfl
      exact place_ne_indirect _ _ _ (hg.owned.inj _ _ _ hb' hib)
    rw [hrest _ hne, hC', update_of_ne hbib]
    exact ⟨hb', (hg.take_cache_of_refOf hb hfree hb').2⟩

end

/-! ## `bmap` -/

/-- From `s` to `t` only blocks were added to the inode of entry `i`. -/
structure Grows (i : Nat) (A : Nat → Dinode) (s : FsState) (A' : Nat → Dinode) (t : FsState) :
    Prop where
  sb : t.sb = s.sb
  entry : ∃ a, t.icache = update s.icache i { s.icache i with addrs := a } ∧
    A' = update A (s.icache i).inum { A (s.icache i).inum with addrs := a }
  keeps : Keeps s.sb.ninodes A s.cache A' t.cache

theorem Grows.refl (i : Nat) (A : Nat → Dinode) (s : FsState)
    (hdata : (s.icache i).toDinode = A (s.icache i).inum) : Grows i A s A s := by
  refine ⟨rfl, ⟨(s.icache i).addrs, ?_, ?_⟩, Keeps.refl _ _ _⟩
  · simp
  · simp [hdata]

theorem Grows.trans {s1 s2 s3 : FsState} (h1 : Grows i A1 s1 A2 s2) (h2 : Grows i A2 s2 A3 s3) :
    Grows i A1 s1 A3 s3 := by
  obtain ⟨a, hic, hA⟩ := h1.entry
  obtain ⟨a', hic', hA'⟩ := h2.entry
  refine ⟨h2.sb.trans h1.sb, ⟨a', ?_, ?_⟩, h1.keeps.trans (h1.sb ▸ h2.keeps)⟩
  · simp [hic', hic]
  · simp [hA', hA, hic]

section

variable (hI : Inv strict A x h s) (hi : 0 < h i) (hv : (s.icache i).valid)

include hI hi hv

theorem Inv.data_eq :
    (s.icache i).toDinode = A (s.icache i).inum := hI.cached.data i hi hv

theorem Inv.addrs_eq : (s.icache i).addrs = (A (s.icache i).inum).addrs := by
  rw [← hI.data_eq hi hv]

theorem Inv.type_ne : (A (s.icache i).inum).type ≠ 0 := by
  rw [← hI.data_eq hi hv]
  exact hI.cached.live i hi hv

end

section

variable (hI : Inv strict A (some i) h s) (hi : 0 < h i) (hv : (s.icache i).valid)

include hI hi hv

/-- The allocation of a block for an empty slot. -/
theorem allocSlot_spec (hj : j ≤ NDIRECT) (hempty : (s.icache i).addrs j = 0) :
    wp (do
        let b ← balloc
        modifyInode i fun ip => { ip with addrs := update ip.addrs j b }
        pure b : FsM Nat) s
      (fun b t => ∃ A', Inv strict A' (some i) h t ∧ Grows i A s A' t ∧
        refOf s.sb.ninodes A' t.cache (slotPlace (s.icache i).inum j) = some b) Allowed := by
  simp only [wp_bind]
  refine wp_mono balloc_spec ?_
  rintro b _ ⟨hb, hfree, rfl⟩
  have hinum := hI.cached.inum i hi
  have haddrs := hI.addrs_eq hi hv
  have hm := hI.good.nmeta_le_of_free hb hfree
  obtain ⟨hgood, hkeeps⟩ := hI.good.take_slot hb hfree hinum hj (hI.type_ne hi hv)
    (by rw [← haddrs, hempty])
  rw [Dinode.setAddr, ← haddrs] at hgood hkeeps
  refine ⟨_, hI.set_entry hi rfl rfl (fun _ => ?_) (fun _ => hI.cached.live i hi hv) hgood
    fun inum hlt => dinodeAt_take hI.good.geom hm hlt, ⟨rfl, ⟨_, rfl, rfl⟩, hkeeps⟩, ?_⟩
  · rw [← hI.data_eq hi hv]
    rfl
  · have hb0 : b ≠ 0 := by
      have := hI.good.geom.nmeta_pos
      omega
    rw [refOf_slotPlace hinum hj, update_self, ptr_eq_some]
    simp [hb0]

/-- The second half of the indirect case of `bmap`: a block for entry `k` of
the indirect block, when it is empty. -/
def mapEntry (ib k : Nat) : FsM Nat := do
  let x ← bread ib
  if getLE x (4 * k) 4 = 0 then
    let b ← balloc
    logWrite ib (putLE x (4 * k) 4 b)
    return b
  else return getLE x (4 * k) 4

theorem mapEntry_spec (hib : refOf s.sb.ninodes A s.cache (.indirect (s.icache i).inum) = some ib)
    (hk : k < NINDIRECT) :
    wp (mapEntry ib k) s
      (fun b t => ∃ A', Inv strict A' (some i) h t ∧ Grows i A s A' t ∧
        refOf s.sb.ninodes A' t.cache (.entry (s.icache i).inum k) = some b) Allowed := by
  refine wp_ite (fun hempty => ?_) fun hne => ?_
  · simp only [wp_bind]
    refine wp_mono balloc_spec ?_
    rintro b _ ⟨hb, hfree, rfl⟩
    obtain ⟨hgood, hkeeps, hentry⟩ := hI.good.take_entry hb hfree hib hk hempty
    have hm := hI.good.nmeta_le_of_free hb hfree
    have hibm := hI.good.owned.nmeta_le hib
    have hself : update A (s.icache i).inum
        { A (s.icache i).inum with addrs := (s.icache i).addrs } = A := by
      rw [hI.addrs_eq hi hv]
      simp
    refine ⟨A, ?_, ⟨rfl, ⟨(s.icache i).addrs, ?_, hself.symm⟩, hkeeps⟩, hentry⟩
    · refine ⟨hgood, hI.cached, fun inum hlt hx => ?_⟩
      have := hI.good.geom.iblock_lt_nmeta hlt
      have hne : s.sb.iblock inum ≠ ib := by omega
      rw [← hI.synced inum hlt hx, ← dinodeAt_take hI.good.geom hm hlt]
      exact dinodeAt_update_of_ne _ hne
    · simp [FsState.take]
  · exact ⟨A, hI, Grows.refl i A s (hI.data_eq hi hv), by
      rw [refOf_entry hib hk, ptr_of_ne hne]⟩

theorem loadIndirect_spec :
    wp (loadIndirect i) s
      (fun ib t => ∃ A', Inv strict A' (some i) h t ∧ Grows i A s A' t ∧
        refOf s.sb.ninodes A' t.cache (.indirect (s.icache i).inum) = some ib) Allowed := by
  refine wp_ite (fun hempty => allocSlot_spec hI hi hv le_rfl hempty) fun hne => ?_
  refine ⟨A, hI, Grows.refl i A s (hI.data_eq hi hv), ?_⟩
  rw [refOf, if_pos (hI.cached.inum i hi), ← hI.addrs_eq hi hv, ptr_of_ne hne]

/-- `bmap` returns the block of the file, after allocating it if need be. -/
theorem bmap_spec (bn : Nat) :
    wp (bmap i bn) s
      (fun b t => ∃ A', Inv strict A' (some i) h t ∧ Grows i A s A' t ∧
        refOf s.sb.ninodes A' t.cache (place (s.icache i).inum bn) = some b) Allowed := by
  have hinum := hI.cached.inum i hi
  have hrefl := Grows.refl i A s (hI.data_eq hi hv)
  refine wp_ite (fun hbn => ?_) fun hbn => ?_
  · have hplace : place (s.icache i).inum bn = slotPlace (s.icache i).inum bn := by
      rw [place, slotPlace, if_pos hbn, if_pos hbn]
    rw [hplace]
    refine wp_ite (fun hempty => allocSlot_spec hI hi hv hbn.le hempty) fun hne => ?_
    refine ⟨A, hI, hrefl, ?_⟩
    rw [refOf_slotPlace hinum hbn.le, ← hI.addrs_eq hi hv, ptr_of_ne hne]
  · refine wp_ite (fun hlt => ?_) fun _ => by simp [Allowed]
    have hplace : place (s.icache i).inum bn = .entry (s.icache i).inum (bn - NDIRECT) := by
      rw [place, if_neg hbn]
    rw [hplace]
    refine wp_seq (loadIndirect_spec hI hi hv) ?_
    rintro ib t ⟨A1, hI1, hgrow, hib⟩
    obtain ⟨a, hic, -⟩ := hgrow.entry
    have hsame : (t.icache i).inum = (s.icache i).inum := by rw [hic, update_self]
    have hv1 : (t.icache i).valid = true := by rw [hic, update_self]; exact hv
    rw [← hgrow.sb, ← hsame] at hib
    refine wp_mono (mapEntry_spec hI1 hi hv1 hib hlt) ?_
    rintro b u ⟨A2, hI2, hgrow2, hb⟩
    rw [hgrow.sb, hsame] at hb
    exact ⟨A2, hI2, hgrow.trans hgrow2, hb⟩

end

end SummerOsk.Fs
