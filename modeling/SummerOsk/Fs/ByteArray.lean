import SummerOsk.Fs.Space
import SummerOsk.Fs.Image

/-!
# Files as byte arrays

`contents` is the array of bytes that a file holds.  `byte_array` says that
`readi` reads a slice of it and that `writei` overwrites one and extends the
array where the slice goes beyond its end, and that both reject exactly the
ranges that are out of bounds.  It holds in every state where blocks are owned
as the bitmap says and files have no holes, whatever the files contain.
-/

namespace SummerOsk.Fs

open Lib Function List

variable {strict : Prop} {s t : FsState} {A A' : Nat → Dinode} {x : Option Nat} {h : Nat → Nat}
  {i off n : Nat} {bs new : List UInt8} {src : Source}

/-- A state with the dinodes `A` in which blocks are owned as the bitmap says,
and every block of a file below its size is allocated.  The valid entries of the
inode cache, of which `h i` references are held, and the disk agree with `A`. -/
structure Mounted (A : Nat → Dinode) (h : Nat → Nat) (s : FsState) : Prop where
  geom : Geometry s.sb
  ok : ∀ inum < s.sb.ninodes, (A inum).Ok
  owned : Owned s.sb A s.cache
  whole : ∀ inum < s.sb.ninodes, ∀ bn, bn * BSIZE < (A inum).size →
    refOf s.sb.ninodes A s.cache (place inum bn) ≠ none
  cached : Cached s.sb A s.icache h
  synced : ∀ inum < s.sb.ninodes, dinodeAt s.sb s.cache inum = A inum

theorem mounted_iff : Mounted A h s ↔ Inv False A none h s := by
  constructor
  · intro hM
    exact ⟨⟨⟨hM.geom, hM.ok, False.elim, hM.whole, False.elim, False.elim⟩, hM.owned⟩,
      hM.cached, fun inum hlt _ => hM.synced inum hlt⟩
  · intro hI
    exact ⟨hI.good.geom, hI.good.ok, hI.good.owned, hI.good.whole, hI.cached,
      fun inum hlt => hI.synced inum hlt fun _ hj => by cases hj⟩

/-- The bytes of inode `inum`. -/
def contents (A : Nat → Dinode) (s : FsState) (inum : Nat) : List UInt8 :=
  (List.range (A inum).size).map fun o => (byteAt s.sb.ninodes A s.cache inum o).getD 0

/-- The array `bs` with the bytes from `off` on overwritten by `new`. -/
def overwrite (bs : List UInt8) (off : Nat) (new : List UInt8) : List UInt8 :=
  bs.take off ++ new ++ bs.drop (off + new.length)

@[simp] theorem contents_length (A : Nat → Dinode) (s : FsState) (inum : Nat) :
    (contents A s inum).length = (A inum).size := by
  simp [contents]

theorem overwrite_length (hoff : off ≤ bs.length) :
    (overwrite bs off new).length = max bs.length (off + new.length) := by
  simp only [overwrite, length_append, length_take, length_drop]
  omega

theorem overwrite_getD (hoff : off ≤ bs.length) (o : Nat) :
    (overwrite bs off new).getD o 0 =
      if off ≤ o ∧ o < off + new.length then new.getD (o - off) 0 else bs.getD o 0 := by
  have hlen : (bs.take off).length = off := by
    rw [length_take]
    omega
  rw [overwrite, append_assoc]
  by_cases hlt : o < off
  · rw [getD_append _ _ _ _ (by omega), if_neg (by omega), getD_eq_getElem?_getD,
      getElem?_take_of_lt hlt, ← getD_eq_getElem?_getD]
  · rw [getD_append_right _ _ _ _ (by omega), hlen]
    split_ifs with hin
    · rw [getD_append _ _ _ _ (by omega)]
    · rw [getD_append_right _ _ _ _ (by omega), getD_eq_getElem?_getD,
        getElem?_drop, ← getD_eq_getElem?_getD]
      congr 1
      omega

/-- Two arrays are equal when they have the same length and the same bytes. -/
theorem bytes_ext {cs : List UInt8} (hlen : bs.length = cs.length)
    (hbyte : ∀ j < bs.length, bs.getD j 0 = cs.getD j 0) : bs = cs := by
  refine ext_getElem hlen fun j hj hj' => ?_
  have := hbyte j hj
  rwa [getD_eq_getElem _ _ hj, getD_eq_getElem _ _ hj'] at this

theorem Good.byteAt_eq_contents (hg : Good strict s.sb A s.cache s.disk) {inum o : Nat}
    (hi : inum < s.sb.ninodes) (ho : o < (A inum).size) :
    byteAt s.sb.ninodes A s.cache inum o = some ((contents A s inum).getD o 0) := by
  obtain ⟨b, hb⟩ := hg.exists_block hi ho
  rw [byteAt_of_refOf hb, contents, getD_eq_getElem?_getD, getElem?_map,
    getElem?_range ho, Option.map_some, Option.getD_some, byteAt_of_refOf hb, Option.getD_some]

/-- `readi` returns a slice of the contents. -/
theorem readi_eq (hI : Inv strict A x h s) (hi : 0 < h i) (hv : (s.icache i).valid)
    (hn : n < 2 ^ 32) :
    readi i off n s = .ok (if (s.icache i).size < off ∨ 2 ^ 32 ≤ off + n then none
      else some (((contents A s (s.icache i).inum).drop off).take n), s) := by
  have hinum := hI.cached.inum i hi
  have hsize : (s.icache i).size = (A (s.icache i).inum).size := by rw [hI.data_eq hi hv]
  obtain ⟨r, t, hres, rfl, hr⟩ := wp_returns (readi_spec hI hi hv off n)
  rw [hres]
  congr 2
  by_cases hbad : (t.icache i).size < off ∨ 2 ^ 32 ≤ off + n
  · rw [if_pos hbad]
    rw [if_pos (by omega)] at hr
    exact hr
  · rw [if_neg hbad]
    rw [if_neg (by omega)] at hr
    obtain ⟨bs, rfl, hlen, hbytes⟩ := hr
    congr 1
    refine bytes_ext ?_ fun j hj => ?_
    · rw [hlen, length_take, length_drop, contents_length, hsize]
    · have hbyte := hbytes j hj
      rw [hI.good.byteAt_eq_contents hinum (by omega)] at hbyte
      rw [← Option.some.inj hbyte, getD_eq_getElem?_getD, getD_eq_getElem?_getD,
        getElem?_take_of_lt (by omega), getElem?_drop]

/-- `writei` of a range that is out of bounds changes nothing. -/
theorem writei_rejects (hoff : off < 2 ^ 32) (hn : n < 2 ^ 32)
    (hbad : (s.icache i).size < off ∨ 2 ^ 32 ≤ off + n ∨ MAXFILE * BSIZE < off + n) :
    writei i src off n s = .ok (-1, s) := by
  have hrej : wp (writei i src off n) s (fun r t => r = -1 ∧ t = s) fun _ => False := by
    refine wp_ite (fun _ => ⟨rfl, rfl⟩) fun hok => ?_
    refine wp_ite (fun _ => ⟨rfl, rfl⟩) fun hok' => ?_
    omega
  obtain ⟨r, t, hres, rfl, rfl⟩ := wp_returns hrej
  exact hres

/-- What a write leaves of the arrays of all inodes. -/
theorem Wrote.contents_eq (hI : Inv strict A none h s) (hI' : Inv strict A' none h t) (hi : 0 < h i)
    (hv : (s.icache i).valid) (hoff : off ≤ (s.icache i).size)
    (hlen : (src.fetch 0 n).length = n) (hw : Wrote i src off n (off + n) A s A' t) :
    contents A' t (s.icache i).inum =
        overwrite (contents A s (s.icache i).inum) off (src.fetch 0 n) ∧
      ∀ inum < s.sb.ninodes, inum ≠ (s.icache i).inum →
        A' inum = A inum ∧ contents A' t inum = contents A s inum := by
  obtain ⟨a, -, hA⟩ := hw.entry
  have hinum := hI.cached.inum i hi
  have hsize : (s.icache i).size = (A (s.icache i).inum).size := by rw [hI.data_eq hi hv]
  have hsize' : (A' (s.icache i).inum).size = max (s.icache i).size (off + n) := by
    rw [hA, update_self]
  have hg' := hI'.good
  constructor
  · refine bytes_ext ?_ fun o ho => ?_
    · rw [overwrite_length (by rw [contents_length]; omega), contents_length, contents_length,
        hlen, hsize', hsize]
    · rw [contents_length] at ho
      have hbyte := hg'.byteAt_eq_contents (hw.sb.symm ▸ hinum) ho
      rw [hw.sb] at hbyte
      rw [overwrite_getD (by rw [contents_length]; omega), hlen]
      split_ifs with hin
      · obtain ⟨v, hsrc, hnew⟩ := hw.new o hin.1 hin.2
        rw [Nat.zero_add] at hsrc
        have hfetch : src (0 + (o - off)) = some ((src.fetch 0 n).getD (o - off) 0) :=
          fetch_getD (by omega)
        rw [Nat.zero_add, hsrc] at hfetch
        rw [hbyte] at hnew
        rw [Option.some.inj hnew, Option.some.inj hfetch]
      · have hold := hI.good.byteAt_eq_contents hinum (o := o) (by omega)
        have hkeep := hw.old _ _ _ hold fun _ => by omega
        rw [hbyte] at hkeep
        exact Option.some.inj hkeep
  · intro inum hlt hne
    have hAe : A' inum = A inum := by rw [hA, update_of_ne hne]
    refine ⟨hAe, bytes_ext (by simp [hAe]) fun o ho => ?_⟩
    rw [contents_length] at ho
    have hbyte := hg'.byteAt_eq_contents (hw.sb.symm ▸ hlt) ho
    rw [hAe] at ho
    have hold := hI.good.byteAt_eq_contents hlt ho
    have hkeep := hw.old _ _ _ hold fun he => absurd he hne
    rw [hw.sb, hkeep] at hbyte
    exact (Option.some.inj hbyte).symm

/-- `readi` and `writei` implement a byte array. -/
theorem byte_array (hM : Mounted A h s) (hi : 0 < h i) (hv : (s.icache i).valid)
    {off n : Nat} (hoff : off < 2 ^ 32) (hn : n < 2 ^ 32) :
    -- reading
    (∀ o m, o < 2 ^ 32 → m < 2 ^ 32 →
      readi i o m s = .ok (if (s.icache i).size < o ∨ 2 ^ 32 ≤ o + m then none
        else some (((contents A s (s.icache i).inum).drop o).take m), s)) ∧
    -- the ranges that `writei` rejects
    ((s.icache i).size < off ∨ 2 ^ 32 ≤ off + n ∨ MAXFILE * BSIZE < off + n →
      writei i src off n s = .ok (-1, s)) ∧
    (off ≤ (s.icache i).size → off + n ≤ MAXFILE * BSIZE →
      -- and no others
      (∀ r t, writei i src off n s = .ok (r, t) → r = n) ∧
      -- writing
      ((∀ k < n, src k ≠ none) →
        missing s.sb.ninodes A s.cache (touched (s.icache i).inum off n) ≤ s.nfree →
        ∃ A' t, writei i src off n s = .ok ((n : Int), t) ∧ Mounted A' h t ∧
          (t.icache i).inum = (s.icache i).inum ∧
          (t.icache i).size = max (s.icache i).size (off + n) ∧
          (∀ o m, o < 2 ^ 32 → m < 2 ^ 32 →
            readi i o m t = .ok (if (t.icache i).size < o ∨ 2 ^ 32 ≤ o + m then none
              else some (((overwrite (contents A s (s.icache i).inum) off
                (src.fetch 0 n)).drop o).take m), t)) ∧
          ∀ inum < s.sb.ninodes, inum ≠ (s.icache i).inum →
            A' inum = A inum ∧ contents A' t inum = contents A s inum)) := by
  have hI := mounted_iff.mp hM
  have hspec : wp (writei i src off n) s _ Allowed := writei_spec hI hi hv hn False.elim
  refine ⟨fun o m _ hm => readi_eq hI hi hv hm, writei_rejects hoff hn, fun hle hmax => ⟨?_, ?_⟩⟩
  · intro r t hres
    have hr := wp_ok hspec hres
    rw [if_pos ⟨hle, hmax⟩] at hr
    exact hr.1
  · intro hsrc hneed
    obtain ⟨r, t, hres, hr, -⟩ := wp_returns (wp_total hspec (writei_total hI hi hv hn hneed))
    rw [if_pos ⟨hle, hmax⟩] at hr
    obtain ⟨rfl, A', stop, hI', hw⟩ := hr
    -- every byte can be read, so the loop went to the end
    have hstop : stop = off + n := by
      rcases hw.full with hstop | ⟨o, hso, hon, hnone⟩
      · exact hstop
      · have := hw.le_stop
        exact absurd hnone (by rw [Nat.zero_add]; exact hsrc _ (by omega))
    subst hstop
    have hlen : (src.fetch 0 n).length = n := by
      by_contra hne
      have hshort := Nat.lt_of_le_of_ne (fetch_length_le src 0 n) hne
      have hnone := fetch_short hshort
      rw [Nat.zero_add] at hnone
      exact hsrc _ hshort hnone
    obtain ⟨hnew, hothers⟩ := hw.contents_eq hI hI' hi hv hle hlen
    obtain ⟨a, hic, -⟩ := hw.entry
    have hinum : (t.icache i).inum = (s.icache i).inum := by rw [hic, update_self]
    have hv' : (t.icache i).valid = true := by rw [hic, update_self]; exact hv
    refine ⟨A', t, hres, mounted_iff.mpr hI', hinum, ?_, fun o m _ hm => ?_, hothers⟩
    · rw [hic, update_self]
    · rw [readi_eq hI' hi hv' hm, hinum, hnew]

/-- The state of `mkfsWorld` with the root directory in entry 0. -/
def rootOpen : FsState :=
  { mkfsWorld.fs with
    icache := update mkfsWorld.fs.icache 0 ⟨rootDinode, ROOTINO, 1, true, true⟩ }

theorem rootOpen_mounted :
    Mounted (dinodeAt Mkfs.sb mkfsDisk) (fun j => if j = 0 then 1 else 0) rootOpen where
  geom := Mkfs.geometry
  ok := mkfs_image.ok
  owned := mkfs_image.owned
  whole := mkfs_image.whole
  cached := by
    have hroot : ∀ j, 0 < (if j = 0 then 1 else 0) → j = 0 := fun j hj => by
      by_contra hne
      rw [if_neg hne] at hj
      exact absurd hj (lt_irrefl 0)
    refine ⟨fun j hj => ?_, fun j _ => ?_, fun j hj => ?_, fun j k hj hk _ => ?_,
      fun j hj _ => ?_, fun j hj _ => ?_⟩
    · rw [hroot j hj]
      decide
    · rcases eq_or_ne j 0 with rfl | hj
      · rfl
      · simp [rootOpen, mkfsWorld, hj]
    · rw [hroot j hj]
      decide
    · rw [hroot j hj, hroot k hk]
    · rw [hroot j hj]
      have hlt : ROOTINO < Mkfs.sb.ninodes := by decide
      exact (dinodeAt_mkfsDisk hlt).symm
    · rw [hroot j hj]
      decide
  synced _ _ := rfl

theorem byte_array_root : ∃ t, writei 0 (.ofBytes [1, 2, 3]) 1024 3 rootOpen = .ok (3, t) ∧
    (t.icache 0).size = 1027 := by
  have hfree : 0 < rootOpen.nfree := Finset.card_pos.mpr ⟨999, by decide +kernel⟩
  have hone : missing Mkfs.sb.ninodes (dinodeAt Mkfs.sb mkfsDisk) mkfsDisk
      (touched ROOTINO 1024 3) ≤ 1 := (Finset.card_filter_le _ _).trans (by decide)
  have hoff : 1024 < 2 ^ 32 := by decide
  have hn : 3 < 2 ^ 32 := by decide
  have hsrc : ∀ k < 3, Source.ofBytes [1, 2, 3] k ≠ none := by decide
  obtain ⟨-, -, hok⟩ := byte_array rootOpen_mounted (i := 0) (by decide) rfl hoff hn
  obtain ⟨A', t, hres, -, -, hsize, -⟩ :=
    (hok (by decide) (by decide)).2 hsrc (hone.trans hfree)
  exact ⟨t, hres, hsize⟩

end SummerOsk.Fs
