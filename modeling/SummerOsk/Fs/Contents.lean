import SummerOsk.Fs.Blocks
import SummerOsk.Fs.Names
import Mathlib.Data.List.GetD

/-!
# The contents of files

`byteAt` is the byte of a file at an offset.  `readi_spec` says that `readi`
returns these bytes and changes nothing, since a file has a block for every
offset below its size.  `writei_spec` says which bytes `writei` leaves: those
of the source up to the offset where it stopped, and the old ones outside the
range it was asked to write.
-/

namespace SummerOsk.Fs

open Lib Log Function

variable {strict : Prop} {s t : FsState} {A A' : Nat → Dinode} {x : Option Nat} {h : Nat → Nat}
  {i o n off j k : Nat} {C C' D : Nat → Block} {v : UInt8} {sb : Superblock}

/-! ## `iupdate` -/

/-- The disk may be behind for the inode of entry `i`. -/
theorem Inv.out (hI : Inv strict A none h s) : Inv strict A (some i) h s :=
  ⟨hI.good, hI.cached, fun inum hlt _ => hI.synced inum hlt fun _ hj => by cases hj⟩

/-- `iupdate` brings the disk up to date. -/
theorem iupdate_spec (hI : Inv strict A (some i) h s) (hi : 0 < h i)
    (hv : (s.icache i).valid) :
    wp (iupdate i) s
      (fun _ t => Inv strict A none h t ∧ t.sb = s.sb ∧ t.icache = s.icache ∧
        ∀ b, s.sb.nmeta ≤ b → t.cache b = s.cache b) Allowed := by
  have hinum := hI.cached.inum i hi
  have hmeta := hI.good.geom.iblock_lt_nmeta hinum
  have hok : (s.icache i).toDinode.Ok := by
    rw [hI.data_eq hi hv]
    exact hI.good.ok _ hinum
  simp only [iupdate, wp_bind, wp_getInode, wp_getSb, wp_bread, wp_logWrite]
  refine ⟨⟨hI.good.write_meta hmeta fun b' => (hI.good.geom.iblock_ne_bblock hinum b').symm,
    hI.cached, fun inum hlt _ => ?_⟩, trivial, trivial, fun b hb => ?_⟩
  · change dinodeAt s.sb _ inum = _
    rw [dinodeAt_putDinode _ _ hok.toFits]
    split_ifs with heq
    · rw [heq, hI.data_eq hi hv]
    · refine hI.synced inum hlt fun j hj => ?_
      cases hj
      exact fun he => heq he.symm
  · exact update_of_ne (by omega) _ _

/-! ## Bytes -/

/-- The byte of inode `inum` at offset `o`. -/
def byteAt (n : Nat) (A : Nat → Dinode) (C : Nat → Block) (inum o : Nat) : Option UInt8 :=
  (refOf n A C (place inum (o / BSIZE))).map fun b => C b (o % BSIZE)

theorem byteAt_of_refOf {inum b : Nat} (hb : refOf n A C (place inum (o / BSIZE)) = some b) :
    byteAt n A C inum o = some (C b (o % BSIZE)) := by
  rw [byteAt, hb, Option.map_some]

theorem Keeps.byteAt (hk : Keeps n A C A' C') {inum : Nat} (hv : byteAt n A C inum o = some v) :
    byteAt n A' C' inum o = some v := by
  rw [Fs.byteAt, Option.map_eq_some_iff] at hv
  obtain ⟨b, hb, rfl⟩ := hv
  obtain ⟨hb', hc⟩ := hk _ _ b hb
  rw [byteAt_of_refOf hb', hc]

/-- A file has a byte at every offset below its size. -/
theorem Good.exists_block (hg : Good strict sb A C D) {inum : Nat} (hi : inum < sb.ninodes)
    (ho : o < (A inum).size) : ∃ b, refOf sb.ninodes A C (place inum (o / BSIZE)) = some b := by
  refine Option.ne_none_iff_exists'.mp (hg.whole inum hi (o / BSIZE) ?_)
  exact lt_of_le_of_lt (Nat.div_mul_le_self o BSIZE) ho

/-! ## One round of the loops -/

/-- The bytes of a round lie in one block. -/
theorem round_block (hj : j < min n (BSIZE - off % BSIZE)) :
    (off + j) / BSIZE = off / BSIZE ∧ (off + j) % BSIZE = off % BSIZE + j := by
  simp only [BSIZE] at hj ⊢
  omega

/-- The fuel is enough for what is left after a round. -/
theorem round_fuel (hk : n = 0 ∨ n + off % BSIZE ≤ (k + 1) * BSIZE) :
    n - min n (BSIZE - off % BSIZE) = 0 ∨
      n - min n (BSIZE - off % BSIZE) + (off + min n (BSIZE - off % BSIZE)) % BSIZE ≤
        k * BSIZE := by
  simp only [BSIZE] at hk ⊢
  omega

theorem fuel_start (off n : Nat) : n = 0 ∨ n + off % BSIZE ≤ (n / BSIZE + 2) * BSIZE := by
  simp only [BSIZE]
  omega

/-! ## `readi` -/

variable {E : Stop → Prop} {src : Source}

section

variable (hI : Inv strict A x h s) (hi : 0 < h i) (hv : (s.icache i).valid)

include hI hi hv

/-- `bmap` of a block that the file has. -/
theorem bmap_of_refOf {bn b : Nat}
    (hb : refOf s.sb.ninodes A s.cache (place (s.icache i).inum bn) = some b) :
    wp (bmap i bn) s (fun r t => r = b ∧ t = s) E := by
  have hinum := hI.cached.inum i hi
  have haddrs := hI.addrs_eq hi hv
  simp only [bmap, wp_bind, wp_getInode]
  by_cases hbn : bn < NDIRECT
  · rw [place, if_pos hbn, refOf, if_pos ⟨hinum, hbn⟩, ptr_eq_some, ← haddrs] at hb
    rw [if_pos hbn, if_neg hb.2]
    exact ⟨hb.1, rfl⟩
  · rw [place, if_neg hbn] at hb
    have hlt : bn - NDIRECT < NINDIRECT := by
      by_contra hge
      simp [refOf, hge] at hb
    rw [if_neg hbn, if_pos hlt]
    cases hib : refOf s.sb.ninodes A s.cache (.indirect (s.icache i).inum) with
    | none =>
      rw [refOf_entry_eq_none hib] at hb
      cases hb
    | some ib =>
      rw [refOf_entry hib hlt, ptr_eq_some] at hb
      rw [refOf, if_pos hinum, ptr_eq_some, ← haddrs] at hib
      obtain ⟨rfl, hib0⟩ := hib
      simp only [wp_bind, loadIndirect, wp_getInode]
      rw [if_neg hib0]
      simp only [wp_pure, wp_bread]
      rw [if_neg hb.2]
      exact ⟨hb.1, rfl⟩

theorem readLoop_spec (hn : off + n ≤ (s.icache i).size)
    (hk : n = 0 ∨ n + off % BSIZE ≤ k * BSIZE) :
    wp (readLoop i off n k) s
      (fun bs t => t = s ∧ bs.length = n ∧ ∀ j < n,
        byteAt s.sb.ninodes A s.cache (s.icache i).inum (off + j) = some (bs.getD j 0))
      E := by
  induction k generalizing off n with
  | zero =>
    have hn0 : n = 0 := by omega
    subst hn0
    exact ⟨rfl, rfl, by simp⟩
  | succ k ih =>
    refine wp_ite (fun hpos => ?_) fun hzero => ?_
    · have hsize : off < (A (s.icache i).inum).size := by
        rw [← hI.data_eq hi hv]
        omega
      obtain ⟨b, hb⟩ := hI.good.exists_block (hI.cached.inum i hi) hsize
      refine wp_seq (bmap_of_refOf hI hi hv hb) ?_
      rintro r _ ⟨rfl, rfl⟩
      simp only [wp_bind, wp_bread]
      set m := min n (BSIZE - off % BSIZE) with hm
      refine wp_mono (ih (by omega) (round_fuel hk)) ?_
      rintro rest _ ⟨rfl, hlen, hrest⟩
      simp only [wp_pure]
      refine ⟨trivial, by simp; omega, fun j hj => ?_⟩
      by_cases hjm : j < m
      · obtain ⟨hdiv, hmod⟩ := round_block (hm ▸ hjm)
        rw [byteAt_of_refOf (hdiv ▸ hb), hmod,
          List.getD_append _ _ _ _ (by simpa using hjm), getBytes_getD hjm]
      · have := hrest (j - m) (by omega)
        rw [List.getD_append_right _ _ _ _ (by simp; omega), getBytes_length, ← this]
        congr 1
        omega
    · have hn0 : n = 0 := by omega
      subst hn0
      exact ⟨rfl, rfl, by simp⟩

/-- `readi` returns the bytes of the file, up to its end. -/
theorem readi_spec (off n : Nat) :
    wp (readi i off n) s
      (fun r t => t = s ∧
        if off > (s.icache i).size ∨ (off + n) % 2 ^ 32 < off then r = none
        else ∃ bs, r = some bs ∧ bs.length = min n ((s.icache i).size - off) ∧
          ∀ j < bs.length,
            byteAt s.sb.ninodes A s.cache (s.icache i).inum (off + j) = some (bs.getD j 0))
      E := by
  refine wp_ite (fun hbad => ?_) fun hgood => ?_
  · simp only [wp_pure]
    rw [if_pos hbad]
    exact ⟨trivial, trivial⟩
  · have hlen : (if off + n > (s.icache i).size then (s.icache i).size - off else n) =
        min n ((s.icache i).size - off) := by
      split_ifs with hlong
      · omega
      · omega
    simp only [hlen, wp_bind]
    refine wp_mono (readLoop_spec hI hi hv (by omega) (fuel_start off _)) ?_
    rintro bs _ ⟨rfl, hbs, hbytes⟩
    simp only [wp_pure]
    rw [if_neg hgood]
    exact ⟨trivial, bs, rfl, hbs, fun j hj => hbytes j (hbs ▸ hj)⟩

end

/-! ## `writei` -/

theorem fetch_length_le (src : Source) (o m : Nat) : (src.fetch o m).length ≤ m := by
  induction m generalizing o with
  | zero => simp [Source.fetch]
  | succ m ih =>
    rw [Source.fetch]
    cases src o with
    | none => simp
    | some v => simpa using ih (o + 1)

/-- What was fetched comes from the source. -/
theorem fetch_getD {m : Nat} (hj : j < (src.fetch o m).length) :
    src (o + j) = some ((src.fetch o m).getD j 0) := by
  induction m generalizing o j with
  | zero => simp [Source.fetch] at hj
  | succ m ih =>
    rw [Source.fetch] at hj ⊢
    cases hv : src o with
    | none => simp [hv] at hj
    | some v =>
      rw [hv] at hj
      cases j with
      | zero => simpa using hv
      | succ j =>
        have hlt : j < (src.fetch (o + 1) m).length := by simpa using hj
        have hrest := ih hlt
        rw [Nat.add_right_comm] at hrest
        simpa [Nat.add_assoc] using hrest

/-- A fetch that falls short met an address that cannot be read. -/
theorem fetch_short {m : Nat} (hlt : (src.fetch o m).length < m) :
    src (o + (src.fetch o m).length) = none := by
  induction m generalizing o with
  | zero => simp at hlt
  | succ m ih =>
    rw [Source.fetch] at hlt ⊢
    cases hv : src o with
    | none => simpa using hv
    | some v =>
      rw [hv] at hlt
      have hrest := ih (o := o + 1) (by simpa using hlt)
      rw [Nat.add_right_comm] at hrest
      simpa [Nat.add_assoc] using hrest

/-- The write of a directory entry. -/
def IsEntry (ninodes : Nat) (src : Source) (tot off n : Nat) : Prop :=
  off % 16 = 0 ∧ n = 16 ∧ (src.fetch tot 16).length = 16 ∧
    direntInum (src.fetch tot 16) < ninodes

/-- From `off` to `stop` the file of entry `i` has the bytes of the source, and
outside the `n` bytes from `off` on nothing changed. -/
structure Stored (i : Nat) (src : Source) (tot off n stop : Nat) (A : Nat → Dinode)
    (s : FsState) (A' : Nat → Dinode) (t : FsState) : Prop where
  le_stop : off ≤ stop
  stop_le : stop ≤ off + n
  new : ∀ o, off ≤ o → o < stop → ∃ v, src (tot + (o - off)) = some v ∧
    byteAt s.sb.ninodes A' t.cache (s.icache i).inum o = some v
  old : ∀ inum o v, byteAt s.sb.ninodes A s.cache inum o = some v →
    (inum = (s.icache i).inum → o < off ∨ off + n ≤ o) →
    byteAt s.sb.ninodes A' t.cache inum o = some v
  full : stop = off + n ∨ ∃ o, stop ≤ o ∧ o < off + n ∧ src (tot + (o - off)) = none

/-- What the loop of `writei` did. -/
structure Writes (i : Nat) (src : Source) (tot off n stop : Nat) (A : Nat → Dinode)
    (s : FsState) (A' : Nat → Dinode) (t : FsState) : Prop
    extends Stored i src tot off n stop A s A' t where
  sb : t.sb = s.sb
  entry : ∃ a, t.icache = update s.icache i { s.icache i with addrs := a } ∧
    A' = update A (s.icache i).inum { A (s.icache i).inum with addrs := a }

/-- What `writei` did. -/
structure Wrote (i : Nat) (src : Source) (off n stop : Nat) (A : Nat → Dinode)
    (s : FsState) (A' : Nat → Dinode) (t : FsState) : Prop
    extends Stored i src 0 off n stop A s A' t where
  sb : t.sb = s.sb
  entry : ∃ a, t.icache = update s.icache i
      { s.icache i with addrs := a, size := max (s.icache i).size stop } ∧
    A' = update A (s.icache i).inum
      { A (s.icache i).inum with addrs := a, size := max (s.icache i).size stop }

theorem getLE_two (y : Bytes) (o : Nat) : getLE y o 2 = (y o).toNat + 256 * (y (o + 1)).toNat := by
  simp [getLE]

/-- The entries of a directory block after the write of an entry. -/
theorem entry_lt {ninodes off' : Nat} {y : Block} {de : List UInt8} (hoff : off % 16 = 0)
    (hoff' : off' % 16 = 0) (hdiv : off' / BSIZE = off / BSIZE) (hlen : de.length = 16)
    (hde : direntInum de < ninodes) (hold : off' ≠ off → getLE y (off' % BSIZE) 2 < ninodes) :
    getLE (putBytes y (off % BSIZE) de) (off' % BSIZE) 2 < ninodes := by
  rcases eq_or_ne off' off with rfl | heq
  · rw [getLE_two, putBytes_of_mem _ _ le_rfl (by omega), putBytes_of_mem _ _ (by omega) (by omega)]
    simpa [direntInum] using hde
  · have hsame : getLE (putBytes y (off % BSIZE) de) (off' % BSIZE) 2 =
        getLE y (off' % BSIZE) 2 := by
      refine getLE_congr fun o ho ho' => putBytes_of_not_mem _ _ ?_
      simp only [BSIZE] at hdiv ho ho' ⊢
      omega
    rw [hsame]
    exact hold heq

section

variable {inum b : Nat} {bs : List UInt8}
  (hb : refOf s.sb.ninodes A s.cache (place inum (off / BSIZE)) = some b)
  (href : ∀ p, refOf s.sb.ninodes A
    (update s.cache b (putBytes (s.cache b) (off % BSIZE) bs)) p =
      refOf s.sb.ninodes A s.cache p)
include hb href

/-- The bytes that were stored in a block of a file. -/
theorem byteAt_putBytes (hlen : bs.length ≤ BSIZE - off % BSIZE) (hj : j < bs.length) :
    byteAt s.sb.ninodes A (update s.cache b (putBytes (s.cache b) (off % BSIZE) bs))
      inum (off + j) = some (bs.getD j 0) := by
  have hround : j < min bs.length (BSIZE - off % BSIZE) := by omega
  obtain ⟨hdiv, hmod⟩ := round_block hround
  have hb' : refOf s.sb.ninodes A
      (update s.cache b (putBytes (s.cache b) (off % BSIZE) bs))
      (place inum ((off + j) / BSIZE)) = some b := by
    rw [href, hdiv, hb]
  rw [byteAt_of_refOf hb', update_self, hmod,
    putBytes_of_mem _ _ (by omega) (by omega), Nat.add_sub_cancel_left]

/-- The other bytes of the files. -/
theorem byteAt_putBytes_of_ne (hg : Good strict s.sb A s.cache s.disk) {inum' : Nat}
    (hv : byteAt s.sb.ninodes A s.cache inum' o = some v)
    (ho : inum' = inum → o < off ∨ off + bs.length ≤ o) :
    byteAt s.sb.ninodes A (update s.cache b (putBytes (s.cache b) (off % BSIZE) bs))
      inum' o = some v := by
  rw [byteAt, Option.map_eq_some_iff] at hv
  obtain ⟨b', hb', rfl⟩ := hv
  rw [byteAt_of_refOf (b := b') (by rw [href, hb'])]
  rcases eq_or_ne b' b with rfl | hbb
  · -- one block has one place, so this is the same block of the same file
    obtain ⟨rfl, hdiv⟩ := place_inj (hg.owned.inj _ _ _ hb' hb)
    rw [update_self, putBytes_of_not_mem]
    have := Nat.div_add_mod o BSIZE
    have := Nat.div_add_mod off BSIZE
    rw [hdiv] at *
    omega
  · rw [update_of_ne hbb]

end

/-- Bytes are stored in a block of the file of entry `i`, and logged unless it
is not a directory. -/
theorem Inv.put_bytes (hI : Inv strict A (some i) h s) {b : Nat} {bs : List UInt8}
    {D' : Nat → Block}
    (hb : refOf s.sb.ninodes A s.cache (place (s.icache i).inum (off / BSIZE)) = some b)
    (hdir : strict → (A (s.icache i).inum).type = T_DIR → off % 16 = 0 ∧ bs.length = 16 ∧
      direntInum bs < s.sb.ninodes)
    (hinum : (s.icache i).inum < s.sb.ninodes)
    (hD : D' = update s.disk b (putBytes (s.cache b) (off % BSIZE) bs) ∨
      D' = s.disk ∧ (strict → (A (s.icache i).inum).type ≠ T_DIR)) :
    Inv strict A (some i) h
        { s with
          cache := update s.cache b (putBytes (s.cache b) (off % BSIZE) bs)
          disk := D' } ∧
      ∀ p, refOf s.sb.ninodes A
        (update s.cache b (putBytes (s.cache b) (off % BSIZE) bs)) p =
          refOf s.sb.ninodes A s.cache p := by
  have hentry : strict → (A (s.icache i).inum).type = T_DIR → ∀ off', off' % 16 = 0 →
      off' < (A (s.icache i).inum).size → off' / BSIZE = off / BSIZE →
      getLE (putBytes (s.cache b) (off % BSIZE) bs) (off' % BSIZE) 2 < s.sb.ninodes := by
    intro hst ht off' ho' hs' hdiv
    obtain ⟨ho, hlen, hde⟩ := hdir hst ht
    refine entry_lt ho ho' hdiv hlen hde fun _ => ?_
    exact hI.good.dirs hst _ hinum ht off' b ho' hs' (by rw [hdiv]; exact hb)
  obtain ⟨hgood, href⟩ := hI.good.write_data hb hentry hD
  refine ⟨⟨hgood, hI.cached, fun inum hlt hx => ?_⟩, href⟩
  have := hI.good.geom.iblock_lt_nmeta hlt
  have := hI.good.owned.nmeta_le hb
  have hne : s.sb.iblock inum ≠ b := by omega
  rw [← hI.synced inum hlt hx]
  exact dinodeAt_update_of_ne _ hne

theorem Writes.nil (hI : Inv strict A x h s) (hi : 0 < h i) (hv : (s.icache i).valid)
    (src : Source) (tot off : Nat) : Writes i src tot off 0 off A s A s where
  sb := rfl
  entry := (Grows.refl i A s (hI.data_eq hi hv)).entry
  le_stop := le_rfl
  stop_le := le_rfl
  new o ho ho' := by omega
  old _ _ _ hv _ := hv
  full := .inl rfl

section

variable {tot m stop b : Nat} {A1 A2 : Nat → Dinode} {s1 u : FsState}
  {D' : Nat → Block} (hgrow : Grows i A s A1 s1) (hgood : Good strict s1.sb A1 s1.cache s1.disk)
  (hb : refOf s1.sb.ninodes A1 s1.cache (place (s.icache i).inum (off / BSIZE)) = some b)
  (href : ∀ p, refOf s1.sb.ninodes A1
    (update s1.cache b (putBytes (s1.cache b) (off % BSIZE) (src.fetch tot m))) p =
      refOf s1.sb.ninodes A1 s1.cache p)
include hgrow hgood hb href

/-- A round that met an address that cannot be read is the last one. -/
theorem Writes.torn (hm : m ≤ n) (hlen : (src.fetch tot m).length < m) :
    Writes i src tot off n off A s A1
      { s1 with
        cache := update s1.cache b
          (putBytes (s1.cache b) (off % BSIZE) (src.fetch tot m)) } where
  sb := hgrow.sb
  entry := hgrow.entry
  le_stop := le_rfl
  stop_le := Nat.le_add_right _ _
  new o ho ho' := by omega
  old inum o v hv ho := by
    have hv1 := hgrow.keeps.byteAt hv
    rw [← hgrow.sb] at hv1 ⊢
    exact byteAt_putBytes_of_ne hb href hgood hv1 fun he => by
      omega
  full := by
    refine .inr ⟨off + (src.fetch tot m).length, by omega, by omega, ?_⟩
    rw [Nat.add_sub_cancel_left]
    exact fetch_short hlen

/-- A whole round and the rounds after it. -/
theorem Writes.cons (hm : m ≤ n) (hm' : m ≤ BSIZE - off % BSIZE)
    (hlen : (src.fetch tot m).length = m)
    (hw : Writes i src (tot + m) (off + m) (n - m) stop A1
      { s1 with
        cache := update s1.cache b
          (putBytes (s1.cache b) (off % BSIZE) (src.fetch tot m))
        disk := D' } A2 u) : Writes i src tot off n stop A s A2 u := by
  obtain ⟨a, hic, hA⟩ := hgrow.entry
  obtain ⟨a', hic', hA'⟩ := hw.entry
  have hinum : (s1.icache i).inum = (s.icache i).inum := by rw [hic, update_self]
  have hle := hw.le_stop
  have hle' := hw.stop_le
  refine ⟨⟨by omega, by omega, ?_, ?_, ?_⟩, hw.sb.trans hgrow.sb, ⟨a', ?_, ?_⟩⟩
  · intro o ho ho'
    by_cases hround : o < off + m
    · obtain ⟨j, rfl⟩ := Nat.exists_eq_add_of_le ho
      have hj : j < (src.fetch tot m).length := by omega
      refine ⟨_, by rw [Nat.add_sub_cancel_left]; exact fetch_getD hj, ?_⟩
      have hnew := byteAt_putBytes hb href (by omega) hj
      have hkept := hw.old _ _ _ hnew fun _ => .inl hround
      rwa [← hgrow.sb]
    · obtain ⟨v, hsrc, hnew⟩ := hw.new o (by omega) ho'
      refine ⟨v, ?_, ?_⟩
      · rw [← hsrc]
        congr 1
        omega
      · simp only [hinum] at hnew
        rwa [← hgrow.sb]
  · intro inum o v hv ho
    have hv1 := hgrow.keeps.byteAt hv
    rw [← hgrow.sb] at hv1 ⊢
    have hv2 := byteAt_putBytes_of_ne hb href hgood hv1 fun he => by
      omega
    refine hw.old inum o v hv2 fun he => ?_
    have := ho (he.trans hinum)
    omega
  · rcases hw.full with hstop | ⟨o, hso, hon, hnone⟩
    · exact .inl (by omega)
    · refine .inr ⟨o, hso, by omega, ?_⟩
      rw [← hnone]
      congr 1
      omega
  · simp [hic', hic]
  · simp [hA', hA, hic]

end

theorem writeLoop_spec (hI : Inv strict A (some i) h s) (hi : 0 < h i)
    (hv : (s.icache i).valid) {tot : Nat} (hk : n = 0 ∨ n + off % BSIZE ≤ k * BSIZE)
    (hdir : strict → (s.icache i).type = T_DIR → n = 0 ∨ IsEntry s.sb.ninodes src tot off n) :
    wp (writeLoop i src tot off n k) s
      (fun stop t => ∃ A', Inv strict A' (some i) h t ∧ Writes i src tot off n stop A s A' t)
      Allowed := by
  induction k generalizing s A tot off n with
  | zero =>
    have hn0 : n = 0 := by omega
    subst hn0
    exact ⟨A, hI, Writes.nil hI hi hv src tot off⟩
  | succ k ih =>
    refine wp_ite (fun hpos => ?_) fun hzero => ?_
    · refine wp_seq (bmap_spec hI hi hv _) ?_
      rintro b s1 ⟨A1, hI1, hgrow, hb⟩
      obtain ⟨a, hic, hA⟩ := hgrow.entry
      have hinum : (s1.icache i).inum = (s.icache i).inum := by rw [hic, update_self]
      have hv1 : (s1.icache i).valid = true := by rw [hic, update_self]; exact hv
      have htype : (s1.icache i).type = (s.icache i).type := by rw [hic, update_self]
      have hA1 : (A1 (s1.icache i).inum).type = (s.icache i).type := by
        rw [← hI1.data_eq hi hv1, htype]
      have hlt := hI1.cached.inum i hi
      rw [← hgrow.sb] at hb hdir
      set m := min n (BSIZE - off % BSIZE) with hm
      -- a directory entry is written in one round
      have hentry : strict → (s.icache i).type = T_DIR → off % 16 = 0 ∧ m = n ∧
          (src.fetch tot m).length = 16 ∧ direntInum (src.fetch tot m) < s1.sb.ninodes := by
        intro hst ht
        obtain hn0 | ⟨ho, hn, hl, hd⟩ := hdir hst ht
        · omega
        · have hm16 : m = 16 := by
            simp only [BSIZE] at hm
            omega
          rw [hm16]
          exact ⟨ho, hn.symm, hl, hd⟩
      refine wp_ite (fun hshort => ?_) fun hwhole => ?_
      · have hnodir : strict → (A1 (s1.icache i).inum).type ≠ T_DIR := by
          rw [hA1]
          intro hst ht
          obtain ⟨-, hmn, hl, -⟩ := hentry hst ht
          obtain hn0 | ⟨-, hn, -⟩ := hdir hst ht
          · omega
          · omega
        obtain ⟨hI2, href⟩ := hI1.put_bytes (hinum ▸ hb) (fun hst ht => absurd ht (hnodir hst)) hlt
          (.inr ⟨rfl, hnodir⟩)
        exact ⟨A1, hI2, Writes.torn hgrow hI1.good hb href (min_le_left _ _) hshort⟩
      · have hlen : (src.fetch tot m).length = m :=
          Nat.le_antisymm (fetch_length_le src tot m) (Nat.le_of_not_lt hwhole)
        obtain ⟨hI2, href⟩ := hI1.put_bytes (hinum ▸ hb)
          (fun hst ht => by
            obtain ⟨ho, -, hl, hd⟩ := hentry hst (hA1 ▸ ht)
            exact ⟨ho, hl, hd⟩) hlt (.inl rfl)
        refine wp_mono (ih hI2 hv1 (round_fuel hk) fun hst ht => .inl ?_) ?_
        · obtain ⟨-, hmn, -, -⟩ := hentry hst (htype ▸ ht)
          omega
        · rintro stop u ⟨A2, hI3, hw⟩
          exact ⟨A2, hI3, Writes.cons hgrow hI1.good hb href (min_le_left _ _)
            (min_le_right _ _) hlen hw⟩
    · have hn0 : n = 0 := by omega
      subst hn0
      exact ⟨A, hI, Writes.nil hI hi hv src tot off⟩

/-- The contents do not depend on the blocks before the data. -/
theorem Good.byteAt_eq (hg : Good strict sb A C D)
    (haddrs : ∀ inum j, (A' inum).addrs j = (A inum).addrs j) (hC : ∀ b, sb.nmeta ≤ b → C' b = C b)
    (inum o : Nat) : byteAt sb.ninodes A' C' inum o = byteAt sb.ninodes A C inum o := by
  have href : ∀ p, refOf sb.ninodes A' C' p = refOf sb.ninodes A C p := fun p =>
    refOf_congr (haddrs _ _) fun ib hib => hC ib (hg.owned.nmeta_le hib)
  rw [byteAt, byteAt, href]
  cases hb : refOf sb.ninodes A C (place inum (o / BSIZE)) with
  | none => rfl
  | some b => rw [Option.map_some, Option.map_some, hC b (hg.owned.nmeta_le hb)]

/-- The directory entry that was written. -/
theorem Writes.entry_lt {tot stop b : Nat} (hw : Writes i src tot off n stop A s A' t)
    (hentry : IsEntry s.sb.ninodes src tot off n)
    (hb : refOf s.sb.ninodes A' t.cache (place (s.icache i).inum (off / BSIZE)) = some b) :
    getLE (t.cache b) (off % BSIZE) 2 < s.sb.ninodes := by
  obtain ⟨ho, rfl, hlen, hde⟩ := hentry
  have hsrc : ∀ j < 16, src (tot + j) = some ((src.fetch tot 16).getD j 0) :=
    fun j hj => fetch_getD (by omega)
  have hstop : stop = off + 16 := by
    rcases hw.full with hstop | ⟨o, hso, hon, hnone⟩
    · exact hstop
    · rw [hsrc (o - off) (by omega)] at hnone
      cases hnone
  have hbyte : ∀ j < 16, t.cache b (off % BSIZE + j) = (src.fetch tot 16).getD j 0 := by
    intro j hj
    obtain ⟨v, hv, hnew⟩ := hw.new (off + j) (by omega) (by omega)
    rw [Nat.add_sub_cancel_left, hsrc j hj] at hv
    have hround : j < min 16 (BSIZE - off % BSIZE) := by
      simp only [BSIZE]
      omega
    obtain ⟨hdiv, hmod⟩ := round_block hround
    rw [byteAt_of_refOf (hdiv ▸ hb), hmod, ← hv] at hnew
    exact Option.some.inj hnew
  have h0 := hbyte 0 (by omega)
  have h1 := hbyte 1 (by omega)
  rw [Nat.add_zero] at h0
  rw [getLE_two, h0, h1]
  exact hde

/-- The size of the file after the loop of `writei`: every offset below it has
a block, and the entries of a directory name inodes. -/
theorem Writes.set_size (hI' : Inv strict A' (some i) h t) (hi : 0 < h i)
    (hv : (s.icache i).valid) {stop : Nat} (hw : Writes i src 0 off n stop A s A' t)
    (hoff : off ≤ (s.icache i).size) (hmax : off + n ≤ MAXFILE * BSIZE)
    (hdir : strict → (s.icache i).type = T_DIR → IsEntry s.sb.ninodes src 0 off n) :
    Inv strict (update A' (t.icache i).inum
        { A' (t.icache i).inum with size := max (s.icache i).size stop }) (some i) h
      { t with
        icache := update t.icache i
          { t.icache i with size := max (s.icache i).size stop } } := by
  have hinum := hI'.cached.inum i hi
  obtain ⟨a, hic, hA⟩ := hw.entry
  have hsame : (t.icache i).inum = (s.icache i).inum := by rw [hic, update_self]
  have hv' : (t.icache i).valid = true := by rw [hic, update_self]; exact hv
  have htype : (t.icache i).type = (s.icache i).type := by rw [hic, update_self]
  have hstop := hw.stop_le
  have hsize' : (A' (t.icache i).inum).size = (s.icache i).size := by
    rw [← hI'.data_eq hi hv', hic, update_self]
  have hgood : Good strict t.sb (update A' (t.icache i).inum
      { A' (t.icache i).inum with size := max (s.icache i).size stop }) t.cache t.disk := by
    refine hI'.good.set_inode rfl ?_ ?_ ?_ ?_ ?_
    · have hok := hI'.good.ok _ hinum
      refine hok.withSize ?_
      have hle := hok.size
      simp only [sup_le_iff]
      omega
    · exact fun _ ht => absurd ht (hI'.type_ne hi hv')
    · intro _ bn hbn
      by_cases hlt : bn * BSIZE < (A' (t.icache i).inum).size
      · exact hI'.good.whole _ hinum bn hlt
      · -- beyond the old size the block was written
        obtain ⟨v, -, hbyte⟩ := hw.new (bn * BSIZE) (by omega) (by
          simp only [lt_sup_iff] at hbn
          omega)
        intro hnone
        rw [hsame, hw.sb] at hnone
        rw [byteAt, Nat.mul_div_cancel _ (by decide), hnone] at hbyte
        cases hbyte
    · intro hst _ ht off' b ho' hs' hb
      by_cases hlt : off' < (A' (t.icache i).inum).size
      · exact hI'.good.dirs hst _ hinum ht off' b ho' hlt hb
      · -- beyond the old size there is one entry, the new one
        have hentry := hdir hst (by rw [← htype, hI'.data_eq hi hv']; exact ht)
        obtain ⟨ho, hn16, -, -⟩ := id hentry
        simp only [lt_sup_iff] at hs'
        obtain rfl : off' = off := by omega
        rw [hw.sb] at hb ⊢
        rw [hsame] at hb
        exact hw.entry_lt hentry hb
    · exact fun _ ht => .inl ht
  refine hI'.set_entry hi rfl rfl (fun _ => ?_) (fun _ => hI'.cached.live i hi hv') hgood
    fun _ _ => rfl
  rw [← hI'.data_eq hi hv']

/-- `writei` writes all of the range or up to an address that cannot be read,
unless the range starts beyond the end of the file or is too large. -/
theorem writei_spec (hI : Inv strict A none h s) (hi : 0 < h i) (hv : (s.icache i).valid)
    (hn : n < 2 ^ 32)
    (hdir : strict → (s.icache i).type = T_DIR → n = 0 ∨ IsEntry s.sb.ninodes src 0 off n) :
    wp (writei i src off n) s
      (fun r t =>
        if off ≤ (s.icache i).size ∧ off + n ≤ MAXFILE * BSIZE then
          r = n ∧ ∃ A' stop, Inv strict A' none h t ∧ Wrote i src off n stop A s A' t
        else r = -1 ∧ t = s) Allowed := by
  have hsmall : MAXFILE * BSIZE < 2 ^ 31 := by decide
  refine wp_ite (fun hbad => ?_) fun hok => ?_
  · rw [wp_pure, if_neg (by omega)]
    exact ⟨rfl, rfl⟩
  · refine wp_ite (fun hbad => ?_) fun hok' => ?_
    · rw [wp_pure, if_neg (by omega)]
      exact ⟨rfl, rfl⟩
    · have hfits : off ≤ (s.icache i).size ∧ off + n ≤ MAXFILE * BSIZE := by omega
      rcases Nat.eq_zero_or_pos n with rfl | hpos
      · simp only [writeLoop, lt_irrefl, if_false, wp_bind, wp_pure, gt_iff_lt]
        rw [if_pos hfits]
        have hw := Writes.nil hI hi hv src 0 off
        obtain ⟨a, hic, hA⟩ := hw.entry
        have hsize : (s.icache i).size = (A (s.icache i).inum).size := by rw [hI.data_eq hi hv]
        refine ⟨trivial, A, off, hI, hw.toStored, rfl, a, ?_⟩
        rw [max_eq_left hfits.1]
        refine ⟨hic, ?_⟩
        rw [hsize]
        exact hA
      · refine wp_seq (writeLoop_spec hI.out hi hv (fuel_start off n) hdir) ?_
        rintro stop t ⟨A', hI', hw⟩
        obtain ⟨a, hic, hA⟩ := hw.entry
        have hsize : (if stop > (t.icache i).size then stop else (t.icache i).size) =
            max (s.icache i).size stop := by
          rw [hic, update_self]
          split_ifs with hlt
          · exact (max_eq_right hlt.le).symm
          · exact (max_eq_left (Nat.le_of_not_lt hlt)).symm
        have hI2 := hw.set_size hI' hi hv hfits.1 hfits.2 fun hst ht => by
          rcases hdir hst ht with h0 | hentry
          · omega
          · exact hentry
        have hv' : (t.icache i).valid = true := by rw [hic, update_self]; exact hv
        rw [if_pos hpos]
        simp only [wp_bind, wp_modifyInode, hsize]
        refine wp_mono (iupdate_spec hI2 hi (by simpa using hv')) ?_
        rintro - u ⟨hI3, hsb, hicu, hcache⟩
        simp only [wp_pure]
        rw [if_pos hfits]
        have haddrs : ∀ inum' j, (update A' (t.icache i).inum
            { A' (t.icache i).inum with size := max (s.icache i).size stop } inum').addrs j =
            (A' inum').addrs j := by
          intro inum' j
          by_cases he : inum' = (t.icache i).inum
          · rw [he, update_self]
          · rw [update_of_ne he]
        have hbyte := hI'.good.byteAt_eq haddrs hcache
        rw [hw.sb] at hbyte
        refine ⟨trivial, _, stop, hI3, ⟨hw.le_stop, hw.stop_le, ?_, ?_, hw.full⟩,
          hsb.trans hw.sb, a, ?_⟩
        · intro o ho ho'
          rw [hbyte]
          exact hw.new o ho ho'
        · intro inum o v hv ho
          rw [hbyte]
          exact hw.old inum o v hv ho
        · simp [hicu, hic, hA]

end SummerOsk.Fs
