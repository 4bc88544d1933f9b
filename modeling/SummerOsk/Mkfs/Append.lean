import SummerOsk.Mkfs.Defs
import SummerOsk.Fs.Contents
import Mathlib.Algebra.Order.BigOperators.Group.Finset

/-!
# Appending to files of the image

While `mkfs` runs there is no bitmap: the blocks in use are those below
`freeblock`.  `State.view` is the image with the bitmap that `balloc` would write
now, and with it the invariant of the kernel's file system holds at every moment.
`Built` adds what each file contains and that a file has no more blocks than its
length needs, and `iappend_spec` says that `iappend` keeps it.
-/

namespace SummerOsk.Mkfs

open Lib Log Fs Function List Option

theorem sb_nmeta : sb.nmeta = nmeta := rfl

/-- The image with the bitmap of the blocks handed out so far. -/
def State.view (s : State) : Nat → Block :=
  update s.img sb.bmapstart (markUsed zeroBlock s.freeblock)

/-- The kernel on that image, with an empty inode cache. -/
def State.fs (s : State) : FsState :=
  ⟨s.view, s.view, sb, fun _ => ⟨zeroDinode, 0, 0, false, false⟩⟩

/-- The number of blocks of a file, with the indirect block. -/
def blocksFor (len : Nat) : Nat :=
  (len + BSIZE - 1) / BSIZE + if NDIRECT * BSIZE < len then 1 else 0

variable {s t : State} {A A' : Nat → Dinode} {b inum j ib k : Nat}

theorem view_of_ne (hb : b ≠ sb.bmapstart) : s.view b = s.img b := update_of_ne hb _ _

theorem bmapstart_ne (hb : nmeta ≤ b) : sb.bmapstart ≠ b := by
  have : sb.bmapstart < nmeta := by decide
  omega

theorem view_of_le (hb : nmeta ≤ b) : s.view b = s.img b := view_of_ne (bmapstart_ne hb).symm

theorem dinodeAt_view (hi : inum < NINODES) : dinodeAt sb s.view inum = dinodeAt sb s.img inum :=
  dinodeAt_update_of_ne _ (geometry.iblock_lt hi).ne

theorem usedBit_view (hb : b < FSSIZE) : usedBit sb s.view b = decide (b < s.freeblock) :=
  usedBit_markUsed s.img hb s.freeblock

/-- `freeblock++` is `balloc` of the kernel. -/
theorem view_take (hb : s.freeblock < FSSIZE) (hlow : nmeta ≤ s.freeblock)
    (hzero : s.img s.freeblock = zeroBlock) :
    (s.fs.take s.freeblock).cache = State.view { s with freeblock := s.freeblock + 1 } := by
  obtain ⟨hblock, hmod⟩ := bblock_eq hb
  change update (update s.view (sb.bblock s.freeblock)
    (setBit (s.view (sb.bblock s.freeblock)) (s.freeblock % BPB))) s.freeblock zeroBlock = _
  have hkeep : update s.img s.freeblock zeroBlock = s.img := by
    rw [← hzero, update_eq_self]
  rw [hblock, hmod, State.view, update_self, update_idem, update_comm (bmapstart_ne hlow), hkeep]
  rfl

/-! ## New blocks -/

/-- The image while `mkfs` fills it, with the dinodes `A`. -/
structure Core (A : Nat → Dinode) (s : State) : Prop where
  good : Good False sb A s.view s.view
  fresh : ∀ b, s.freeblock ≤ b → s.img b = zeroBlock
  low : nmeta ≤ s.freeblock
  high : s.freeblock ≤ FSSIZE
  sectors : s.sectors = FSSIZE
  head : ∀ b < sb.inodestart, s.img b = if b = 1 then sbBlock else zeroBlock

/-- The parts of the state that `iappend` does not touch before it writes the
inode back. -/
structure SameInodes (s t : State) : Prop where
  freeinode : t.freeinode = s.freeinode
  inodes : t.inodes = s.inodes
  inodeWrites : t.inodeWrites = s.inodeWrites
  dinodes : ∀ inum < NINODES, dinodeAt sb t.img inum = dinodeAt sb s.img inum

theorem SameInodes.refl (s : State) : SameInodes s s := ⟨rfl, rfl, rfl, fun _ _ => rfl⟩

theorem SameInodes.write (hb : nmeta ≤ b) (buf : Block) :
    SameInodes s { s with img := update s.img b buf } := by
  refine ⟨rfl, rfl, rfl, fun inum hi => ?_⟩
  have := geometry.iblock_lt_nmeta hi
  rw [sb_nmeta] at this
  exact dinodeAt_update_of_ne _ (by omega)

theorem SameInodes.trans {u : State} (h : SameInodes s t) (h' : SameInodes t u) : SameInodes s u :=
  ⟨h'.freeinode.trans h.freeinode, h'.inodes.trans h.inodes, h'.inodeWrites.trans h.inodeWrites,
    fun inum hi => (h'.dinodes inum hi).trans (h.dinodes inum hi)⟩

/-- Only the blocks of inode `x` change. -/
structure SameNodes (x : Nat) (A A' : Nat → Dinode) : Prop where
  other : ∀ inum, inum ≠ x → A' inum = A inum
  self : A' x = { A x with addrs := (A' x).addrs }

theorem SameNodes.refl (x : Nat) (A : Nat → Dinode) : SameNodes x A A := ⟨fun _ _ => rfl, rfl⟩

theorem SameNodes.trans {x : Nat} {A1 A2 A3 : Nat → Dinode} (h : SameNodes x A1 A2)
    (h' : SameNodes x A2 A3) : SameNodes x A1 A3 := by
  refine ⟨fun inum hne => (h'.other inum hne).trans (h.other inum hne), ?_⟩
  rw [h'.self, h.self]

/-- Place `p` of inode `x` gets the next block. -/
structure Assigned (x : Nat) (p : Place) (A : Nat → Dinode) (s : State) (A' : Nat → Dinode)
    (t : State) : Prop where
  core : Core A' t
  keeps : Keeps NINODES A s.view A' t.view
  self : refOf NINODES A' t.view p = some s.freeblock
  rest : ∀ q, q ≠ p → refOf NINODES A' t.view q = refOf NINODES A s.view q
  next : t.freeblock = s.freeblock + 1
  inodes : SameInodes s t
  nodes : SameNodes x A A'

theorem head_lt_nmeta {b' : Nat} (hb : b < sb.inodestart) (hb' : nmeta ≤ b') : b < b' := by
  have : sb.inodestart < nmeta := by decide
  omega

/-- The blocks of a file were handed out. -/
theorem Core.lt_freeblock {q : Place} (h : Core A s) (hb : refOf NINODES A s.view q = some b) :
    b < s.freeblock := by
  have hused := h.good.owned.used_of_ref hb
  rw [usedBit_view (h.good.owned.lt_size hb)] at hused
  simpa using hused

theorem next_not_used (hroom : s.freeblock < FSSIZE) : usedBit sb s.view s.freeblock = false := by
  rw [usedBit_view hroom]
  simp

section

variable {x : Nat} (h : Core A s) (hroom : s.freeblock < FSSIZE)
include h hroom

/-- A slot of `din.addrs` gets the next block. -/
theorem Core.slot (hx : x < NINODES) (hj : j ≤ NDIRECT) (htype : (A x).type ≠ 0)
    (hempty : (A x).addrs j = 0) :
    Assigned x (slotPlace x j) A s (update A x ((A x).setAddr j s.freeblock))
      { s with freeblock := s.freeblock + 1 } := by
  have hview := view_take hroom h.low (h.fresh _ le_rfl)
  have hfree := next_not_used hroom
  obtain ⟨hgood, hkeeps⟩ := Good.take_slot (s := s.fs) h.good hroom hfree hx hj htype hempty
  have hdisk : (s.fs.take s.freeblock).disk = (s.fs.take s.freeblock).cache := rfl
  rw [hdisk, hview] at hgood
  rw [hview] at hkeeps
  refine ⟨⟨hgood, fun b hb => h.fresh b (Nat.le_of_succ_le hb), ?_, hroom, h.sectors,
    h.head⟩, hkeeps, ?_, fun q hq => ?_, rfl, ⟨rfl, rfl, rfl, fun _ _ => rfl⟩,
    fun inum hne => ?_, ?_⟩
  · have := h.low
    change nmeta ≤ s.freeblock + 1
    omega
  · have hb0 : s.freeblock ≠ 0 := by
      have := h.low
      have : 0 < nmeta := by decide
      omega
    rw [refOf_slotPlace hx hj, update_self]
    simp [Dinode.setAddr, ptr_of_ne hb0]
  · rw [← hview]
    exact refOf_setAddr_of_ne hempty take_cache_self
      (fun ib p hp => (Good.take_cache_of_refOf (s := s.fs) h.good hroom hfree hp).2) hq
  · exact update_of_ne hne _ _
  · rw [update_self]
    rfl

/-- An entry of the indirect block gets the next block. -/
theorem Core.entry (hib : refOf NINODES A s.view (.indirect x) = some ib) (hk : k < NINDIRECT)
    (hempty : getLE (s.img ib) (4 * k) 4 = 0) :
    Assigned x (.entry x k) A s A
      { s with
        freeblock := s.freeblock + 1
        img := update s.img ib (putLE (s.img ib) (4 * k) 4 s.freeblock) } := by
  have hview := view_take hroom h.low (h.fresh _ le_rfl)
  have hfree := next_not_used hroom
  have hmeta : nmeta ≤ ib := h.good.owned.nmeta_le hib
  have hused : ib < s.freeblock := h.lt_freeblock hib
  have hibv : s.view ib = s.img ib := view_of_le hmeta
  rw [← hibv] at hempty
  obtain ⟨hgood, hkeeps, hself⟩ := Good.take_entry (s := s.fs) h.good hroom hfree hib hk hempty
  have hrest := fun q => Good.refOf_take_entry_of_ne (s := s.fs) h.good hroom hfree hib (k := k)
    (q := q)
  have hdisk : (s.fs.take s.freeblock).disk = (s.fs.take s.freeblock).cache := rfl
  have hcache : update (s.fs.take s.freeblock).cache ib
      (putLE (s.fs.cache ib) (4 * k) 4 s.freeblock) =
      State.view { s with
        freeblock := s.freeblock + 1
        img := update s.img ib (putLE (s.img ib) (4 * k) 4 s.freeblock) } := by
    rw [hview]
    change update (update s.img sb.bmapstart _) ib
      (putLE (s.view ib) (4 * k) 4 s.freeblock) = update (update s.img ib _) _ _
    rw [hibv, update_comm (bmapstart_ne hmeta)]
  rw [hdisk, hcache] at hgood
  rw [hcache] at hkeeps hself
  simp only [hcache] at hrest
  have hinodes := SameInodes.write (s := s) hmeta (putLE (s.img ib) (4 * k) 4 s.freeblock)
  refine ⟨⟨hgood, fun b hb => ?_, ?_, hroom, h.sectors, fun b hb => ?_⟩, hkeeps, hself, hrest, rfl,
    ⟨rfl, rfl, rfl, hinodes.dinodes⟩, SameNodes.refl x A⟩
  · have hb : s.freeblock + 1 ≤ b := hb
    have hbib : b ≠ ib := by omega
    exact (update_of_ne hbib _ _).trans (h.fresh b (by omega))
  · change nmeta ≤ s.freeblock + 1
    omega
  · exact (update_of_ne (head_lt_nmeta hb hmeta).ne _ _).trans (h.head b hb)

end

/-! ## Sectors -/

section

variable {α : Type} {E : Exit → Prop} {Q : Block → State → Prop}

theorem sector_of_lt (hb : b < FSSIZE) : sector b = b := by
  have : FSSIZE < 2 ^ 22 := by decide
  exact Nat.mod_eq_of_lt (by omega)

theorem wp_rsect (hs : s.sectors = FSSIZE) (hb : b < FSSIZE) :
    wp (rsect b) s Q E ↔ Q (s.img b) s := by
  simp only [rsect, wp_bind, wp_get, sector_of_lt hb, hs, if_pos hb, wp_pure]

/-- `rsect` of the first blocks beyond the image. -/
theorem wp_rsect_beyond (hs : s.sectors = FSSIZE) (hb : FSSIZE ≤ b) (hb' : b < 2 ^ 22) :
    wp (rsect b) s Q E ↔ E (.error "read") := by
  have hsec : sector b = b := Nat.mod_eq_of_lt hb'
  simp only [rsect, wp_bind, wp_get, hsec, hs, if_neg (Nat.not_lt.mpr hb), wp_throw]

theorem wp_wsect {Q : Unit → State → Prop} {buf : Block} (hs : s.sectors = FSSIZE)
    (hb : b < FSSIZE) : wp (wsect b buf) s Q E ↔ Q () { s with img := update s.img b buf } := by
  have hmax : max FSSIZE (b + 1) = FSSIZE := max_eq_left hb
  simp only [wsect, wp_modify, sector_of_lt hb, hs, hmax]

@[simp] theorem wp_nextBlock {Q : Nat → State → Prop} :
    wp nextBlock s Q E ↔ Q s.freeblock { s with freeblock := s.freeblock + 1 } := Iff.rfl

end

/-! ## Files -/

/-- `A` are the dinodes, of which that of inode `x` is not written back yet,
`len` the lengths for which the files have blocks, and `F` what they contain. -/
structure Built (A : Nat → Dinode) (x : Option Nat) (len : Nat → Nat) (F : Nat → List UInt8)
    (s : State) : Prop extends Core A s where
  synced : ∀ inum < NINODES, x ≠ some inum → dinodeAt sb s.img inum = A inum
  sizes : ∀ inum < NINODES, x ≠ some inum → (A inum).size = len inum
  mapped : ∀ inum < NINODES, ∀ bn < MAXFILE,
    refOf NINODES A s.view (place inum bn) = none ↔ len inum ≤ bn * BSIZE
  indirect : ∀ inum < NINODES,
    refOf NINODES A s.view (.indirect inum) = none ↔ len inum ≤ NDIRECT * BSIZE
  count : s.freeblock = nmeta + ∑ inum ∈ Finset.range NINODES, blocksFor (len inum)
  bytes : ∀ inum < NINODES, ∀ o < (F inum).length,
    byteAt NINODES A s.view inum o = some ((F inum).getD o 0)
  short : ∀ inum < NINODES, len inum ≤ MAXFILE * BSIZE
  writes : ∀ b ∈ s.inodeWrites, sb.inodestart ≤ b ∧ b < sb.bmapstart

/-- The blocks of a file that is one step longer. -/
theorem blocksFor_step {off l : Nat} (hlt : off < l) (hle : l ≤ (off / BSIZE + 1) * BSIZE) :
    blocksFor l = blocksFor off + (if off % BSIZE = 0 then 1 else 0) +
      if off = NDIRECT * BSIZE then 1 else 0 := by
  have hdata : (l + BSIZE - 1) / BSIZE =
      (off + BSIZE - 1) / BSIZE + if off % BSIZE = 0 then 1 else 0 := by
    split_ifs with hmod <;> simp only [BSIZE] at hmod hle ⊢ <;> omega
  have hind : (if NDIRECT * BSIZE < l then 1 else 0) =
      (if NDIRECT * BSIZE < off then 1 else 0) + if off = NDIRECT * BSIZE then 1 else 0 := by
    have hsame : off ≠ NDIRECT * BSIZE → (NDIRECT * BSIZE < l ↔ NDIRECT * BSIZE < off) := by
      simp only [BSIZE, NDIRECT] at hle ⊢
      omega
    by_cases heq : off = NDIRECT * BSIZE
    · rw [if_pos heq, if_pos (by omega), if_neg (by omega)]
    · rw [if_neg heq, if_congr (hsame heq) rfl rfl, Nat.add_zero]
  rw [blocksFor, blocksFor, hdata, hind]
  omega

theorem sum_blocksFor_update {len : Nat → Nat} {x : Nat} (hx : x < NINODES) {l d : Nat}
    (hl : blocksFor l = blocksFor (len x) + d) :
    ∑ i ∈ Finset.range NINODES, blocksFor (update len x l i) =
      ∑ i ∈ Finset.range NINODES, blocksFor (len i) + d := by
  have hmem : x ∈ Finset.range NINODES := Finset.mem_range.mpr hx
  rw [← Finset.add_sum_erase _ _ hmem, ← Finset.add_sum_erase _ (fun i => blocksFor (len i)) hmem,
    update_self, hl]
  have hrest : ∑ i ∈ (Finset.range NINODES).erase x, blocksFor (update len x l i) =
      ∑ i ∈ (Finset.range NINODES).erase x, blocksFor (len i) :=
    Finset.sum_congr rfl fun i hi => by rw [update_of_ne (Finset.ne_of_mem_erase hi)]
  omega

section

variable {x l' l : Nat} {len : Nat → Nat} {F : Nat → List UInt8} {E : Exit → Prop} {d : Dinode}
  {p : List UInt8} {y : Option Nat}

/-- A block of the file of inode `x`, for `l` bytes. -/
def Grown (x : Nat) (A : Nat → Dinode) (len : Nat → Nat) (F : Nat → List UInt8) (s : State)
    (l : Nat) (r : Dinode × Nat) (t : State) : Prop :=
  ∃ A', r.1 = A' x ∧ Built A' (some x) (update len x l) F t ∧
    refOf NINODES A' t.view (place x (len x / BSIZE)) = some r.2 ∧ SameNodes x A A' ∧
    SameInodes s t

/-- The image has no room for `l` bytes of inode `x`. -/
def Over (len : Nat → Nat) (x l : Nat) : Prop :=
  FSSIZE < nmeta + ∑ i ∈ Finset.range NINODES, blocksFor (update len x l i)

/-- The next block is beyond the image. -/
def Beyond (b : Nat) (t : State) : Prop := FSSIZE ≤ b ∧ b < 2 ^ 22 ∧ t.sectors = FSSIZE

section Extend

variable (h : Built A (some x) len F s) (hx : x < NINODES) (hlt : len x < l)
  (hle : l ≤ (len x / BSIZE + 1) * BSIZE) (hmax : len x / BSIZE < MAXFILE)
include h hx hlt hle

theorem Built.over_iff :
    Over len x l ↔ FSSIZE < s.freeblock + (if len x % BSIZE = 0 then 1 else 0) +
      if len x = NDIRECT * BSIZE then 1 else 0 := by
  have hstep := blocksFor_step hlt hle
  rw [Nat.add_assoc] at hstep
  rw [Over, sum_blocksFor_update hx hstep, h.count]
  omega

include hmax

/-- The file of inode `x` got the block at its end, and is `l` bytes long now. -/
theorem Built.extend (hcore : Core A' t)
    (hkeeps : Keeps NINODES A s.view A' t.view) (hinodes : SameInodes s t)
    (hnodes : SameNodes x A A')
    (hself : refOf NINODES A' t.view (place x (len x / BSIZE)) ≠ none)
    (hind : NDIRECT * BSIZE ≤ len x → refOf NINODES A' t.view (.indirect x) ≠ none)
    (hrest : ∀ q, q ≠ place x (len x / BSIZE) → (q = .indirect x → ¬ NDIRECT * BSIZE ≤ len x) →
      refOf NINODES A' t.view q = refOf NINODES A s.view q)
    (hfree : t.freeblock = s.freeblock + (if len x % BSIZE = 0 then 1 else 0) +
      if len x = NDIRECT * BSIZE then 1 else 0) : Built A' (some x) (update len x l) F t := by
  have hother : ∀ inum, some x ≠ some inum → inum ≠ x := fun inum hne he => hne (by rw [he])
  refine ⟨hcore, fun inum hi hne => ?_, fun inum hi hne => ?_, fun inum hi bn hbn => ?_,
    fun inum hi => ?_, ?_, fun inum hi o ho => ?_, fun inum hi => ?_, ?_⟩
  · rw [hinodes.dinodes inum hi, h.synced inum hi hne, hnodes.other inum (hother inum hne)]
  · rw [hnodes.other inum (hother inum hne), update_of_ne (hother inum hne), h.sizes inum hi hne]
  · rcases eq_or_ne inum x with rfl | heq
    · rw [update_self]
      by_cases hbneq : bn = len inum / BSIZE
      · subst hbneq
        refine iff_of_false hself ?_
        have := Nat.div_mul_le_self (len inum) BSIZE
        omega
      · rw [hrest _ (fun he => hbneq (place_inj he).2)
          (fun he => absurd he (place_ne_indirect _ _ _)), h.mapped inum hi bn hbn]
        simp only [BSIZE] at hbneq hle ⊢
        omega
    · rw [update_of_ne heq, hrest _ (fun he => heq (place_inj he).1)
        (fun he => absurd he (place_ne_indirect _ _ _)), h.mapped inum hi bn hbn]
  · rcases eq_or_ne inum x with rfl | heq
    · rw [update_self]
      by_cases hlarge : NDIRECT * BSIZE ≤ len inum
      · exact iff_of_false (hind hlarge) (by omega)
      · rw [hrest _ (fun he => absurd he.symm (place_ne_indirect _ _ _)) fun _ => hlarge,
          h.indirect inum hi]
        simp only [BSIZE, NDIRECT] at hlarge hle ⊢
        omega
    · rw [update_of_ne heq, hrest _ (fun he => absurd he.symm (place_ne_indirect _ _ _))
        (fun he => absurd (Place.indirect.inj he) heq), h.indirect inum hi]
  · have hstep := blocksFor_step hlt hle
    rw [Nat.add_assoc] at hstep
    rw [sum_blocksFor_update hx hstep, hfree, h.count]
    omega
  · exact hkeeps.byteAt (h.bytes inum hi o ho)
  · by_cases heq : inum = x
    · rw [heq, update_self]
      exact hle.trans (Nat.mul_le_mul_right BSIZE hmax)
    · rw [update_of_ne heq]
      exact h.short inum hi
  · rw [hinodes.inodeWrites]
    exact h.writes

/-- The block at the end is there: the file was not full. -/
theorem Built.grown_same {b : Nat}
    (hsome : refOf NINODES A s.view (place x (len x / BSIZE)) = some b) :
    Grown x A len F s l (A x, b) s := by
  have hmod : len x % BSIZE ≠ 0 := by
    have hmapped := h.mapped x hx _ hmax
    rw [hsome] at hmapped
    simp only [BSIZE, reduceCtorEq, false_iff] at hmapped ⊢
    omega
  refine ⟨A, rfl, ?_, hsome, SameNodes.refl x A, SameInodes.refl s⟩
  refine h.extend hx hlt hle hmax h.toCore (Keeps.refl _ _ _) (SameInodes.refl s)
    (SameNodes.refl x A) ?_ (fun hlarge => ?_) (fun _ _ _ => rfl) ?_
  · rw [hsome]
    exact some_ne_none _
  · rw [Ne, h.indirect x hx]
    simp only [BSIZE, NDIRECT] at hmod hlarge ⊢
    omega
  · rw [if_neg hmod, if_neg]
    · rfl
    · simp only [BSIZE, NDIRECT] at hmod ⊢
      omega

section Full

variable (hnone : refOf NINODES A s.view (place x (len x / BSIZE)) = none)
include hnone

omit hlt hle in
theorem Built.mod_eq_zero : len x % BSIZE = 0 := by
  have := (h.mapped x hx _ hmax).mp hnone
  simp only [BSIZE] at this ⊢
  omega

/-- The block at the end is new, and the indirect block is not. -/
theorem Built.grown_new (hne : len x ≠ NDIRECT * BSIZE)
    (ha : Assigned x (place x (len x / BSIZE)) A s A' t) :
    Grown x A len F s l (A' x, s.freeblock) t := by
  refine ⟨A', rfl, ?_, ha.self, ha.nodes, ha.inodes⟩
  refine h.extend hx hlt hle hmax ha.core ha.keeps ha.inodes ha.nodes ?_ (fun hlarge => ?_)
    (fun q hq _ => ha.rest q hq) ?_
  · rw [ha.self]
    exact some_ne_none _
  · rw [ha.rest _ (place_ne_indirect _ _ _).symm, Ne, h.indirect x hx]
    omega
  · rw [if_pos (h.mod_eq_zero hx hmax hnone), if_neg hne, ha.next]

theorem Built.over_of_full (hfull : s.freeblock = FSSIZE) : Over len x l := by
  rw [h.over_iff hx hlt hle, if_pos (h.mod_eq_zero hx hmax hnone)]
  omega

end Full

end Extend

/-- The indirect half of `fileBlock`. -/
theorem entryBlock_spec (h : Core A s) (din : Dinode)
    (hib : refOf NINODES A s.view (.indirect x) = some ib) (hk : k < NINDIRECT) :
    wp (do
        let indirect ← rsect ib
        if getLE indirect (4 * k) 4 = 0 then
          let b ← nextBlock
          wsect ib (putLE indirect (4 * k) 4 b)
          return (din, b)
        else return (din, getLE indirect (4 * k) 4) : M (Dinode × Nat)) s
      (fun r t => r.1 = din ∧
        (refOf NINODES A s.view (.entry x k) = some r.2 ∧ t = s ∨
          refOf NINODES A s.view (.entry x k) = none ∧ r.2 = s.freeblock ∧
            (s.freeblock < FSSIZE ∧ Assigned x (.entry x k) A s A t ∨
              s.freeblock = FSSIZE ∧ Beyond r.2 t))) E := by
  have hmeta : nmeta ≤ ib := h.good.owned.nmeta_le hib
  have hlt : ib < FSSIZE := h.good.owned.lt_size hib
  have hentry : refOf NINODES A s.view (.entry x k) = ptr (getLE (s.img ib) (4 * k) 4) := by
    rw [refOf_entry hib hk, view_of_le hmeta]
  rw [wp_bind, wp_rsect h.sectors hlt]
  refine wp_ite (fun hempty => ?_) fun hne => ?_
  · rw [hempty, ptr_zero] at hentry
    simp only [wp_bind, wp_nextBlock]
    rw [wp_wsect (by exact h.sectors) hlt, wp_pure]
    refine ⟨rfl, .inr ⟨hentry, rfl, ?_⟩⟩
    rcases Nat.lt_or_eq_of_le h.high with hroom | hfull
    · exact .inl ⟨hroom, h.entry hroom hib hk hempty⟩
    · refine .inr ⟨hfull, hfull.ge, ?_, h.sectors⟩
      change s.freeblock < 2 ^ 22
      rw [hfull]
      decide
  · exact ⟨rfl, .inl ⟨hentry.trans (ptr_of_ne hne), rfl⟩⟩

theorem slotBlock_spec (h : Core A s) (hx : x < NINODES) (hj : j ≤ NDIRECT)
    (htype : (A x).type ≠ 0) :
    wp (slotBlock (A x) j) s
      (fun din t =>
        refOf NINODES A s.view (slotPlace x j) = some (din.addrs j) ∧ din = A x ∧ t = s ∨
        refOf NINODES A s.view (slotPlace x j) = none ∧ din.addrs j = s.freeblock ∧
          (s.freeblock < FSSIZE ∧ Assigned x (slotPlace x j) A s (update A x din) t ∨
            s.freeblock = FSSIZE ∧ Beyond (din.addrs j) t)) E := by
  have hslot : refOf NINODES A s.view (slotPlace x j) = ptr ((A x).addrs j) :=
    refOf_slotPlace hx hj
  refine wp_ite (fun hempty => ?_) fun hne => ?_
  · rw [hempty, ptr_zero] at hslot
    simp only [wp_bind, wp_nextBlock, wp_pure, update_self]
    refine .inr ⟨hslot, trivial, ?_⟩
    rcases Nat.lt_or_eq_of_le h.high with hroom | hfull
    · exact .inl ⟨hroom, h.slot hroom hx hj htype hempty⟩
    · refine .inr ⟨hfull, hfull.ge, ?_, h.sectors⟩
      rw [hfull]
      decide
  · exact .inl ⟨hslot.trans (ptr_of_ne hne), rfl, rfl⟩

section FileBlock

variable (h : Built A (some x) len F s) (hx : x < NINODES) (htype : (A x).type ≠ 0)
  (hlt : len x < l) (hle : l ≤ (len x / BSIZE + 1) * BSIZE) (hmax : len x / BSIZE < MAXFILE)
include h hx htype hlt hle hmax

theorem fileBlock_direct (hbn : len x / BSIZE < NDIRECT) :
    wp (fileBlock (A x) (len x / BSIZE)) s
      (fun r t => Grown x A len F s l r t ∨ Over len x l ∧ Beyond r.2 t)
      fun _ => Over len x l := by
  have hplace : slotPlace x (len x / BSIZE) = place x (len x / BSIZE) := by
    rw [slotPlace, place, if_pos hbn, if_pos hbn]
  have hne : len x ≠ NDIRECT * BSIZE := by
    simp only [BSIZE, NDIRECT] at hbn ⊢
    omega
  rw [fileBlock, if_pos hbn]
  refine wp_seq (slotBlock_spec h.toCore hx hbn.le htype) fun din t hr => ?_
  rw [hplace] at hr
  rcases hr with ⟨hsome, rfl, rfl⟩ | ⟨hnone, hnext, ⟨hroom, ha⟩ | ⟨hfull, hbeyond⟩⟩
  · exact .inl (h.grown_same hx hlt hle hmax hsome)
  · have hgrown := h.grown_new hx hlt hle hmax hnone hne ha
    rw [update_self, ← hnext] at hgrown
    exact .inl hgrown
  · exact .inr ⟨h.over_of_full hx hlt hle hmax hnone hfull, hbeyond⟩

theorem fileBlock_indirect (hbn : ¬ len x / BSIZE < NDIRECT) :
    wp (fileBlock (A x) (len x / BSIZE)) s
      (fun r t => Grown x A len F s l r t ∨ Over len x l ∧ Beyond r.2 t)
      fun _ => Over len x l := by
  have hk : len x / BSIZE - NDIRECT < NINDIRECT := by
    rw [MAXFILE] at hmax
    omega
  have hplace : place x (len x / BSIZE) = .entry x (len x / BSIZE - NDIRECT) := by
    rw [place, if_neg hbn]
  have hslot : slotPlace x NDIRECT = .indirect x := by
    rw [slotPlace, if_neg (lt_irrefl _)]
  have hlarge : NDIRECT * BSIZE ≤ len x := by
    simp only [BSIZE, NDIRECT] at hbn ⊢
    omega
  have hindirect := h.indirect x hx
  rw [fileBlock, if_neg hbn]
  refine wp_seq (slotBlock_spec h.toCore hx le_rfl htype) fun din t hr => ?_
  rw [hslot] at hr
  rcases hr with ⟨hsome, rfl, rfl⟩ | ⟨hnone, hnext, ⟨hroom, ha⟩ | ⟨hfull, hbeyond⟩⟩
  · -- the indirect block is there
    have hgt : len x ≠ NDIRECT * BSIZE := by
      rw [hsome] at hindirect
      simp only [reduceCtorEq, false_iff] at hindirect
      omega
    refine wp_mono (entryBlock_spec h.toCore (A x) hsome hk) fun r u hr => ?_
    obtain ⟨rdin, rb⟩ := r
    rw [← hplace] at hr
    obtain ⟨rfl, ⟨hentry, rfl⟩ | ⟨hempty, rfl, ⟨hroom, ha⟩ | ⟨hfull, hbeyond⟩⟩⟩ := hr
    · exact .inl (h.grown_same hx hlt hle hmax hentry)
    · exact .inl (h.grown_new hx hlt hle hmax hempty hgt ha)
    · exact .inr ⟨h.over_of_full hx hlt hle hmax hempty hfull, hbeyond⟩
  · -- it is new, and so is its first entry
    have heq : len x = NDIRECT * BSIZE := Nat.le_antisymm (hindirect.mp hnone) hlarge
    have hmod : len x % BSIZE = 0 := by
      rw [heq]
      decide
    have hib : refOf NINODES (update A x din) t.view (.indirect x) =
        some (din.addrs NDIRECT) := by rw [ha.self, hnext]
    have hempty : refOf NINODES (update A x din) t.view
        (.entry x (len x / BSIZE - NDIRECT)) = none := by
      rw [ha.rest _ (fun he => by cases he)]
      exact refOf_entry_eq_none hnone
    refine wp_mono (entryBlock_spec ha.core din hib hk) fun r u hr => ?_
    obtain ⟨hdin, ⟨hentry, rfl⟩ | ⟨-, hb, ⟨hroom', ha'⟩ | ⟨hfull, hbeyond⟩⟩⟩ := hr
    · rw [hempty] at hentry
      cases hentry
    · refine .inl ⟨_, hdin.trans (update_self x din A).symm, ?_, ?_,
        ha.nodes.trans ha'.nodes, ha.inodes.trans ha'.inodes⟩
      · refine h.extend hx hlt hle hmax ha'.core (ha.keeps.trans ha'.keeps)
          (ha.inodes.trans ha'.inodes) (ha.nodes.trans ha'.nodes) ?_ (fun _ => ?_)
          (fun q hq hq' => ?_) ?_
        · rw [hplace, ha'.self]
          exact some_ne_none _
        · rw [ha'.rest _ (fun he => by cases he), hib]
          exact some_ne_none _
        · rw [ha'.rest q (hplace ▸ hq), ha.rest q fun he => hq' he hlarge]
        · rw [if_pos hmod, if_pos heq, ha'.next, ha.next]
      · rw [hplace, ha'.self, hb]
    · refine .inr ⟨(h.over_iff hx hlt hle).mpr ?_, hbeyond⟩
      rw [if_pos hmod, if_pos heq]
      have := ha.next
      omega
  · have heq : len x = NDIRECT * BSIZE := Nat.le_antisymm (hindirect.mp hnone) hlarge
    rw [wp_bind, wp_rsect_beyond hbeyond.2.2 hbeyond.1 hbeyond.2.1, h.over_iff hx hlt hle,
      if_pos heq]
    omega

theorem fileBlock_spec :
    wp (fileBlock (A x) (len x / BSIZE)) s
      (fun r t => Grown x A len F s l r t ∨ Over len x l ∧ Beyond r.2 t)
      fun _ => Over len x l := by
  by_cases hbn : len x / BSIZE < NDIRECT
  · exact fileBlock_direct h hx htype hlt hle hmax hbn
  · exact fileBlock_indirect h hx htype hlt hle hmax hbn

end FileBlock

/-! ## The loop of `iappend` -/

/-- Bytes are written into a block of the file, after those it had. -/
theorem Built.write (h : Built A (some x) len F s) (hx : x < NINODES) {q : List UInt8} {b : Nat}
    (hb : refOf NINODES A s.view (place x ((F x).length / BSIZE)) = some b)
    (hq : (F x).length % BSIZE + q.length ≤ BSIZE) :
    Built A (some x) len (update F x (F x ++ q))
      { s with
        img := update s.img b (putBytes (s.img b) ((F x).length % BSIZE) q) } := by
  have hmeta : nmeta ≤ b := h.good.owned.nmeta_le hb
  have hused : b < s.freeblock := h.lt_freeblock hb
  obtain ⟨hgood, href⟩ := h.good.write_data (x := putBytes (s.img b) ((F x).length % BSIZE) q) hb
    False.elim (.inl rfl)
  have hview : update s.view b (putBytes (s.img b) ((F x).length % BSIZE) q) =
      State.view { s with
        img := update s.img b (putBytes (s.img b) ((F x).length % BSIZE) q) } :=
    update_comm (bmapstart_ne hmeta) _ _ s.img
  rw [hview] at hgood
  simp only [hview] at href
  refine ⟨⟨hgood, fun b' hb' => ?_, h.low, h.high, h.sectors, fun b' hb' => ?_⟩,
    fun inum hi hx' => ?_, h.sizes, fun inum hi bn hbn => ?_, fun inum hi => ?_, h.count,
    fun inum hi o ho => ?_, h.short,
    h.writes⟩
  · have hb' : s.freeblock ≤ b' := hb'
    have hne' : b' ≠ b := by omega
    exact (update_of_ne hne' _ _).trans (h.fresh b' hb')
  · exact (update_of_ne (head_lt_nmeta hb' hmeta).ne _ _).trans (h.head b' hb')
  · rw [← h.synced inum hi hx']
    exact (SameInodes.write (s := s) hmeta _).dinodes inum hi
  · rw [← h.mapped inum hi bn hbn]
    exact Eq.congr_left (href _)
  · rw [← h.indirect inum hi]
    exact Eq.congr_left (href _)
  · rw [← hview]
    have hold : o < (F inum).length → byteAt NINODES A
        (update s.view b (putBytes (s.img b) ((F x).length % BSIZE) q)) inum o =
          some ((F inum).getD o 0) := by
      intro ho
      have hbyte := h.bytes inum hi o ho
      rw [byteAt, map_eq_some_iff] at hbyte
      obtain ⟨b', hb', hv⟩ := hbyte
      rw [byteAt_of_refOf (((hview ▸ href _)).trans hb'), ← hv]
      rcases eq_or_ne b' b with rfl | hbb
      · obtain ⟨rfl, hdiv⟩ := place_inj (h.good.owned.inj _ _ _ hb' hb)
        rw [update_self, putBytes_of_not_mem, view_of_le hmeta]
        simp only [BSIZE] at hdiv ⊢
        omega
      · rw [update_of_ne hbb]
    rcases eq_or_ne inum x with rfl | heq
    · rw [update_self] at ho ⊢
      rw [length_append] at ho
      by_cases hlt : o < (F inum).length
      · rw [hold hlt, getD_append _ _ _ _ hlt]
      · have hdiv : o / BSIZE = (F inum).length / BSIZE := by
          simp only [BSIZE] at hq ⊢
          omega
        rw [byteAt_of_refOf ((hview ▸ href _).trans (hdiv ▸ hb)), update_self,
          putBytes_of_mem, getD_append_right _ _ _ _ (by omega)]
        · congr 2
          simp only [BSIZE] at hdiv ⊢
          omega
        · simp only [BSIZE] at hdiv hq ⊢
          omega
        · simp only [BSIZE] at hdiv hq ⊢
          omega
    · rw [update_of_ne heq] at ho ⊢
      exact hold ho

theorem blocksFor_mono {l : Nat} (hle : l ≤ l') : blocksFor l ≤ blocksFor l' := by
  have hdata : (l + BSIZE - 1) / BSIZE ≤ (l' + BSIZE - 1) / BSIZE :=
    Nat.div_le_div_right (by omega)
  unfold blocksFor
  by_cases hlarge : NDIRECT * BSIZE < l
  · rw [if_pos hlarge, if_pos (by omega)]
    omega
  · rw [if_neg hlarge]
    omega

theorem Over.mono {l : Nat} (h : Over len x l) (hle : l ≤ l') : Over len x l' := by
  refine lt_of_lt_of_le h (Nat.add_le_add_left (Finset.sum_le_sum fun i _ => ?_) _)
  exact blocksFor_mono (update_le_update_iff.mpr ⟨hle, fun _ _ => le_rfl⟩ i)

/-- What the loop of `iappend` leaves: the bytes `p` are in the file, and its
dinode is `r.1`. -/
def Appended (x : Nat) (A : Nat → Dinode) (len : Nat → Nat) (F : Nat → List UInt8) (s : State)
    (p : List UInt8) (r : Dinode × Nat) (t : State) : Prop :=
  ∃ A', r = (A' x, len x + p.length) ∧
    Built A' (some x) (update len x (len x + p.length))
      (update F x (F x ++ p)) t ∧
    SameNodes x A A' ∧ SameInodes s t

theorem Built.append_nil (h : Built A (some x) len F s) (hp : p.length = 0) :
    Appended x A len F s p (A x, len x) s := by
  obtain rfl := eq_nil_of_length_eq_zero hp
  refine ⟨A, rfl, ?_, SameNodes.refl x A, SameInodes.refl s⟩
  rw [length_nil, Nat.add_zero, append_nil, update_eq_self, update_eq_self]
  exact h

theorem iappendLoop_spec (h : Built A (some x) len F s) (hx : x < NINODES) (htype : (A x).type ≠ 0)
    (hlen : len x = (F x).length) (hk : p.length = 0 ∨ p.length + len x % BSIZE ≤ k * BSIZE) :
    wp (iappendLoop (A x) (len x) p k) s (Appended x A len F s p)
      fun _ => Over len x (len x + p.length) ∨ MAXFILE * BSIZE < len x + p.length := by
  induction k generalizing s A len F p with
  | zero =>
    exact h.append_nil (by omega)
  | succ k ih =>
    refine wp_ite (fun hpos => ?_) fun hzero => h.append_nil (by omega)
    refine wp_ite (fun hmax => ?_) fun hmax => ?_
    · set n1 := min p.length ((len x / BSIZE + 1) * BSIZE - len x) with hn1
      have hroom : len x < (len x / BSIZE + 1) * BSIZE := by
        simp only [BSIZE]
        omega
      have hn1le : n1 ≤ p.length := min_le_left _ _
      have hlt : len x < len x + n1 := by omega
      have hle : len x + n1 ≤ (len x / BSIZE + 1) * BSIZE := by omega
      have htake : (p.take n1).length = n1 := length_take_of_le hn1le
      rw [wp_bind]
      refine wp_imp (fileBlock_spec h hx htype hlt hle hmax) (fun r t hr => ?_)
        fun e he => .inl (he.mono (by omega))
      obtain ⟨din, b⟩ := r
      rcases hr with ⟨A1, hdin, hB, hb, hnodes, hinodes⟩ | ⟨hover, hge, hsmall, hsec⟩
      · have hbt : b < FSSIZE := hB.good.owned.lt_size hb
        have hoff : len x - len x / BSIZE * BSIZE = (F x).length % BSIZE := by
          simp only [BSIZE]
          omega
        rw [hlen] at hb
        have hW := hB.write hx (q := p.take n1) hb (by
          simp only [BSIZE] at hle ⊢
          omega)
        have hself : update len x (len x + n1) x = len x + n1 := update_self ..
        subst hdin
        simp only [wp_bind]
        rw [wp_rsect hB.sectors hbt, wp_wsect hB.sectors hbt, hoff]
        have hstep := ih hW (by rw [hnodes.self]; exact htype)
          (by rw [hself, update_self, length_append, htake, hlen])
          (p := p.drop n1) (by
            rw [hself, length_drop]
            simp only [BSIZE] at hk hn1 ⊢
            omega)
        have hdrop : len x + n1 + (p.drop n1).length = len x + p.length := by
          rw [length_drop]
          omega
        rw [hself, hdrop, Over, update_idem] at hstep
        refine wp_mono hstep fun r u hr => ?_
        obtain ⟨A2, hres, hB2, hnodes2, hinodes2⟩ := hr
        rw [hself, hdrop] at hres
        rw [hself, hdrop, update_idem, update_idem, update_self,
          append_assoc, take_append_drop] at hB2
        have hmeta : nmeta ≤ b := hB.good.owned.nmeta_le hb
        exact ⟨A2, hres, hB2, hnodes.trans hnodes2,
          (hinodes.trans (SameInodes.write hmeta _)).trans hinodes2⟩
      · rw [wp_bind, wp_rsect_beyond hsec hge hsmall]
        exact .inl (hover.mono (by omega))
    · have hfull : MAXFILE * BSIZE ≤ len x :=
        (Nat.le_div_iff_mul_le (by decide)).mp (Nat.le_of_not_lt hmax)
      exact .inr (by omega)

/-! ## Inodes -/

/-- The state after `winode` of an inode of the disk. -/
def State.putInode (s : State) (inum : Nat) (d : Dinode) : State :=
  { s with
    img := update s.img (sb.iblock inum)
      (putDinode (s.img (sb.iblock inum)) (inum % IPB) d)
    inodeWrites := s.inodeWrites ++ [sb.iblock inum] }

theorem iblock_lt_FSSIZE (hi : inum < NINODES) : sb.iblock inum < FSSIZE :=
  (geometry.iblock_lt_nmeta hi).trans (by decide)

theorem wp_winode {Q : Unit → State → Prop} (hs : s.sectors = FSSIZE) (hi : inum < NINODES) :
    wp (winode inum d) s Q E ↔ Q () (s.putInode inum d) := by
  have hb := iblock_lt_FSSIZE hi
  simp only [winode, wp_bind, sector_of_lt hb]
  rw [wp_rsect hs hb, wp_wsect hs hb]
  rfl

theorem wp_rinode {Q : Dinode → State → Prop} (hs : s.sectors = FSSIZE)
    (hi : inum < NINODES) : wp (rinode inum) s Q E ↔ Q (dinodeAt sb s.img inum) s := by
  simp only [rinode, wp_bind]
  rw [wp_rsect hs (iblock_lt_FSSIZE hi)]
  rfl

theorem dinodeAt_putInode (hd : d.Ok) (inum : Nat) :
    dinodeAt sb (s.putInode x d).img inum = if inum = x then d else dinodeAt sb s.img inum :=
  dinodeAt_putDinode s.img inum hd.toFits

/-- The dinode of the inode that is being changed is written. -/
theorem Built.write_dinode (h : Built A y len F s) (hx : x < NINODES) (hy : y = some x ∨ y = none)
    (hd : d.Ok) : Built A (some x) len F (s.putInode x d) := by
  have hbm := (geometry.iblock_lt hx).ne
  have hview : (s.putInode x d).view = update s.view (sb.iblock x)
      (putDinode (s.img (sb.iblock x)) (x % IPB) d) := update_comm hbm _ _ s.img
  have hmeta := geometry.iblock_lt_nmeta hx
  rw [sb_nmeta] at hmeta
  have hdata : ∀ b, nmeta ≤ b → (s.putInode x d).view b = s.view b := by
    intro b hb
    rw [hview, update_of_ne (by omega)]
  have href : ∀ p, refOf NINODES A (s.putInode x d).view p = refOf NINODES A s.view p := fun p =>
    refOf_congr rfl fun ib hib => hdata ib (h.good.owned.nmeta_le hib)
  have hother : ∀ inum, some x ≠ some inum → inum ≠ x ∧ y ≠ some inum := by
    intro inum hne
    refine ⟨fun he => hne (congrArg some he.symm), fun he => ?_⟩
    rcases hy with hy | hy
    · exact hne (hy.symm.trans he)
    · exact absurd (he.symm.trans hy) (some_ne_none inum)
  have hgood : Good False sb A (s.putInode x d).view (s.putInode x d).view := by
    refine ⟨⟨h.good.geom, h.good.ok, False.elim, fun inum hi bn hbn => ?_, False.elim,
      False.elim⟩, Allocated.congr h.good.owned (fun b _ => ?_) href⟩
    · exact (href _).trans_ne (h.good.whole inum hi bn hbn)
    · rw [hview, usedBit_update_of_ne _ (geometry.iblock_ne_bblock hx b).symm]
  refine ⟨⟨hgood, fun b hb => ?_, h.low, h.high, h.sectors, fun b hb => ?_⟩,
    fun inum hi hne => ?_, fun inum hi hne => h.sizes inum hi (hother inum hne).2,
    fun inum hi bn hbn => ?_, fun inum hi => ?_, h.count, fun inum hi o ho => ?_, h.short,
    fun b hb => ?_⟩
  · have hlow := h.low
    have hb : s.freeblock ≤ b := hb
    have hne : b ≠ sb.iblock x := by omega
    exact (update_of_ne hne _ _).trans (h.fresh b hb)
  · have hstart : sb.inodestart ≤ sb.iblock x := Nat.le_add_left _ _
    have hne : b ≠ sb.iblock x := by omega
    exact (update_of_ne hne _ _).trans (h.head b hb)
  · rw [dinodeAt_putInode hd, if_neg (hother inum hne).1, h.synced inum hi (hother inum hne).2]
  · rw [← h.mapped inum hi bn hbn, href]
  · rw [← h.indirect inum hi, href]
  · rw [← h.bytes inum hi o ho, byteAt, byteAt, href]
    cases hb : refOf NINODES A s.view (place inum (o / BSIZE)) with
    | none => rfl
    | some b => rw [map_some, map_some, hdata b (h.good.owned.nmeta_le hb)]
  · rcases mem_append.mp hb with hb | hb
    · exact h.writes b hb
    · rw [mem_singleton.mp hb]
      exact ⟨Nat.le_add_left _ _, geometry.iblock_lt hx⟩

/-- The dinode on the image becomes the current one. -/
theorem Built.sync (h : Built A (some x) len F s) (hd : d.Ok) (hdisk : dinodeAt sb s.img x = d)
    (haddrs : d.addrs = (A x).addrs) (hsize : d.size = len x) :
    Built (update A x d) none len F s := by
  have hA : ∀ inum, (update A x d inum).addrs = (A inum).addrs :=
    (Function.forall_update_iff A fun inum d => d.addrs = (A inum).addrs).mpr
      ⟨haddrs, fun _ _ => rfl⟩
  have href : ∀ p, refOf NINODES (update A x d) s.view p = refOf NINODES A s.view p :=
    fun p => refOf_congr (congrFun (hA _) _) fun _ _ => rfl
  have hother : ∀ inum, inum ≠ x → some x ≠ some inum := fun inum hne he =>
    hne (Option.some.inj he).symm
  have hgood : Good False sb (update A x d) s.view s.view := by
    refine ⟨⟨h.good.geom, fun inum hi => ?_, False.elim, fun inum hi bn hbn => ?_, False.elim,
      False.elim⟩, Allocated.congr h.good.owned (fun b _ => Iff.rfl) href⟩
    · by_cases heq : inum = x
      · rw [heq, update_self]
        exact hd
      · rw [update_of_ne heq]
        exact h.good.ok inum hi
    · refine (href _).trans_ne ?_
      rcases eq_or_ne inum x with rfl | heq
      · rw [update_self, hsize] at hbn
        have hlt : bn < MAXFILE :=
          Nat.lt_of_mul_lt_mul_right (lt_of_lt_of_le hbn (h.short inum hi))
        rw [Ne, h.mapped inum hi bn hlt]
        omega
      · rw [update_of_ne heq] at hbn
        exact h.good.whole inum hi bn hbn
  refine ⟨⟨hgood, h.fresh, h.low, h.high, h.sectors, h.head⟩, fun inum hi _ => ?_,
    fun inum hi _ => ?_, fun inum hi bn hbn => ?_, fun inum hi => ?_, h.count,
    fun inum hi o ho => ?_, h.short, h.writes⟩
  · by_cases heq : inum = x
    · rw [heq, update_self, hdisk]
    · rw [update_of_ne heq, h.synced inum hi (hother inum heq)]
  · by_cases heq : inum = x
    · rw [heq, update_self, hsize]
    · rw [update_of_ne heq, h.sizes inum hi (hother inum heq)]
  · rw [← h.mapped inum hi bn hbn, href]
  · rw [← h.indirect inum hi, href]
  · rw [← h.bytes inum hi o ho, byteAt, byteAt, href]

/-- A dinode with the blocks of the file is written. -/
theorem Built.putInode (h : Built A y len F s) (hx : x < NINODES) (hy : y = some x ∨ y = none)
    (hd : d.Ok) (haddrs : d.addrs = (A x).addrs) (hsize : d.size = len x) :
    Built (update A x d) none len F (s.putInode x d) :=
  (h.write_dinode hx hy hd).sync hd ((dinodeAt_putInode hd x).trans (if_pos rfl)) haddrs hsize

/-- Everything that is written back. -/
abbrev Complete (A : Nat → Dinode) (F : Nat → List UInt8) (s : State) : Prop :=
  Built A none (fun inum => (F inum).length) F s

/-- `iappend` adds bytes to the end of a file, or the image has no room for
them. -/
theorem iappend_spec (h : Complete A F s) (hx : x < NINODES) (htype : (A x).type ≠ 0)
    (p : List UInt8) :
    wp (iappend x p) s
      (fun _ t => ∃ A', Complete A' (update F x (F x ++ p)) t ∧
        (∀ inum, inum ≠ x → A' inum = A inum) ∧
        (A' x).type = (A x).type ∧ (A' x).nlink = (A x).nlink ∧
        t.freeinode = s.freeinode ∧ t.inodes = s.inodes)
      fun _ => Over (fun inum => (F inum).length) x ((F x).length + p.length) ∨
        MAXFILE * BSIZE < (F x).length + p.length := by
  have hopen : Built A (some x) (fun inum => (F inum).length) F s :=
    { h with
      synced := fun inum hi _ => h.synced inum hi (some_ne_none inum).symm
      sizes := fun inum hi _ => h.sizes inum hi (some_ne_none inum).symm }
  have hdin : dinodeAt sb s.img x = A x := h.synced x hx (some_ne_none x).symm
  have hsize : (A x).size = (F x).length := h.sizes x hx (some_ne_none x).symm
  simp only [iappend, wp_bind]
  rw [wp_rinode h.sectors hx, hdin, hsize]
  refine wp_mono (iappendLoop_spec hopen hx htype rfl ?_) fun r t hr => ?_
  · simp only [BSIZE]
    omega
  · obtain ⟨A1, rfl, hB, hnodes, hinodes⟩ := hr
    rw [wp_winode hB.sectors hx]
    have hok := hB.good.ok x hx
    have hshort := hB.short x hx
    rw [update_self] at hshort
    have hP := hB.putInode hx (d := { A1 x with size := (F x).length + p.length }) (.inl rfl)
      (hok.withSize hshort) rfl
      (by rw [update_self])
    have hlens : (fun inum => (update F x (F x ++ p) inum).length) =
        update (fun inum => (F inum).length) x ((F x).length + p.length) := by
      rw [← length_append]
      exact funext fun inum => Function.apply_update (fun _ => List.length) F x (F x ++ p) inum
    refine ⟨_, hlens ▸ hP, fun inum hne => ?_, ?_, ?_, hinodes.freeinode, hinodes.inodes⟩
    · rw [update_of_ne hne, hnodes.other inum hne]
    · rw [update_self, hnodes.self]
    · rw [update_self, hnodes.self]

end

end SummerOsk.Mkfs
