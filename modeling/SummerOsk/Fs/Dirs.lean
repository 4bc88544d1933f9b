import SummerOsk.Fs.Icache

/-!
# Directories and paths

The specifications of the functions of `kernel/fs.c` that read and write
directories and resolve paths.  Every reference that they take is either
returned to the caller or dropped again.
-/

namespace SummerOsk.Fs

open Lib List

variable {s t u : FsState} {A : Nat → Dinode} {h : Nat → Nat} {i off cwd : Nat}

/-! ## Directory entries -/

section

variable (hI : Inv True A none h s) (hi : 0 < h i) (hv : (s.icache i).valid)

include hI hi hv

theorem readDirent_spec (off : Nat) {msg : String} (hmsg : Allowed (.panic msg)) :
    wp (readDirent i off msg) s
      (fun de t => t = s ∧ de.length = 16 ∧ off + 16 ≤ (s.icache i).size ∧ ∀ j < 16,
        byteAt s.sb.ninodes A s.cache (s.icache i).inum (off + j) = some (de.getD j 0))
      Allowed := by
  simp only [readDirent, wp_bind]
  refine wp_mono (readi_spec hI hi hv off 16) fun r t hr => ?_
  obtain ⟨rfl, hr⟩ := hr
  split_ifs at hr with hbad
  · rw [hr]
    exact hmsg
  · obtain ⟨de, rfl, hlen, hbytes⟩ := hr
    refine wp_ite (fun h16 => ?_) fun _ => hmsg
    exact ⟨rfl, h16, by omega, fun j hj => hbytes j (by omega)⟩

/-- The entries of a directory name inodes. -/
theorem direntInum_lt (htype : (s.icache i).type = T_DIR) (hoff : off % 16 = 0)
    (hsize : off + 16 ≤ (s.icache i).size) {de : List UInt8} (hbytes : ∀ j < 16,
      byteAt s.sb.ninodes A s.cache (s.icache i).inum (off + j) = some (de.getD j 0)) :
    direntInum de < s.sb.ninodes := by
  have hinum := hI.cached.inum i hi
  have hdata := hI.data_eq hi hv
  obtain ⟨b, hb⟩ := hI.good.exists_block (o := off) hinum (by rw [← hdata]; omega)
  have hlt := hI.good.dirs trivial _ hinum (by rw [← hdata]; exact htype) off b hoff
    (by rw [← hdata]; omega) hb
  have hbyte : ∀ j < 16, s.cache b (off % BSIZE + j) = de.getD j 0 := by
    intro j hj
    have hround : j < min 16 (BSIZE - off % BSIZE) := by
      simp only [BSIZE]
      omega
    obtain ⟨hdiv, hmod⟩ := round_block hround
    have := hbytes j hj
    rw [byteAt_of_refOf (hdiv ▸ hb), hmod] at this
    exact Option.some.inj this
  have h0 := hbyte 0 (by omega)
  have h1 := hbyte 1 (by omega)
  rw [Nat.add_zero] at h0
  rw [getLE_two, h0, h1] at hlt
  exact hlt

end

/-- The references with the one that a call returned, if any. -/
def holdOpt (h : Nat → Nat) : Option Nat → Nat → Nat
  | none => h
  | some i => hold h i

theorem dirlookupFrom_spec (hI : Inv True A none h s) (hi : 0 < h i)
    (hv : (s.icache i).valid) (htype : (s.icache i).type = T_DIR) (name : Name)
    (hoff : off % 16 = 0) (k : Nat) :
    wp (dirlookupFrom i name off k) s
      (fun r t => (r = none → t = s) ∧ FsInv (holdOpt h (r.map Prod.fst)) t ∧ Stable h s t ∧
        ∀ j o, r = some (j, o) → o % 16 = 0) Allowed := by
  have hnone : FsInv (holdOpt h ((none : Option (Nat × Nat)).map Prod.fst)) s := ⟨A, hI⟩
  induction k generalizing off with
  | zero => exact ⟨fun _ => rfl, hnone, Stable.refl h s, fun _ _ hr => by cases hr⟩
  | succ k ih =>
    refine wp_ite (fun _ => ?_) fun _ => ?_
    · refine wp_seq (readDirent_spec hI hi hv off (by simp [Allowed])) ?_
      rintro de _ ⟨rfl, -, hsize, hbytes⟩
      refine wp_ite (fun hfound => ?_) fun _ => ih (by omega)
      refine wp_seq (iget_spec hI (direntInum_lt hI hi hv htype hoff hsize hbytes)) ?_
      rintro j t ⟨hI', hS, -⟩
      refine ⟨fun hr => (by cases hr), ⟨A, hI'⟩, hS, fun _ _ hr => ?_⟩
      cases hr
      exact hoff
    · exact ⟨fun _ => rfl, hnone, Stable.refl h s, fun _ _ hr => by cases hr⟩

/-- `dirlookup` returns a reference to the inode of the entry. -/
theorem dirlookup_spec (hI : FsInv h s) (hi : 0 < h i) (hv : (s.icache i).valid)
    (name : Name) :
    wp (dirlookup i name) s
      (fun r t => (r = none → t = s) ∧ FsInv (holdOpt h (r.map Prod.fst)) t ∧ Stable h s t ∧
        ∀ j o, r = some (j, o) → o % 16 = 0) Allowed := by
  obtain ⟨A, hI⟩ := hI
  refine wp_ite (fun _ => by simp [Allowed]) fun htype => ?_
  exact dirlookupFrom_spec hI hi hv (not_not.mp htype) name rfl _

section

variable (hI : Inv True A none h s) (hi : 0 < h i) (hv : (s.icache i).valid)

include hI hi hv

theorem emptyDirent_spec (hoff : off % 16 = 0) (k : Nat) :
    wp (emptyDirent i off k) s (fun o t => t = s ∧ o % 16 = 0) Allowed := by
  induction k generalizing off with
  | zero => exact ⟨rfl, hoff⟩
  | succ k ih =>
    refine wp_ite (fun _ => ?_) fun _ => ⟨rfl, hoff⟩
    refine wp_seq (readDirent_spec hI hi hv off (by simp [Allowed])) ?_
    rintro de _ ⟨rfl, -⟩
    exact wp_ite (fun _ => ⟨rfl, hoff⟩) fun _ => ih (by omega)

theorem isdiremptyFrom_spec (off k : Nat) :
    wp (isdiremptyFrom i off k) s (fun _ t => t = s) Allowed := by
  induction k generalizing off with
  | zero => exact rfl
  | succ k ih =>
    refine wp_ite (fun _ => ?_) fun _ => rfl
    refine wp_seq (readDirent_spec hI hi hv off (by simp [Allowed])) ?_
    rintro de _ ⟨rfl, -⟩
    exact wp_ite (fun _ => rfl) fun _ => ih _

end

theorem isdirempty_spec (hI : FsInv h s) (hi : 0 < h i) (hv : (s.icache i).valid) :
    wp (isdirempty i) s (fun _ t => t = s) Allowed := by
  obtain ⟨A, hI⟩ := hI
  exact isdiremptyFrom_spec hI hi hv 32 _

/-! ## New entries -/

theorem fetch_ofBytes (bs : List UInt8) (o m : Nat) :
    (Source.ofBytes bs).fetch o m = (bs.drop o).take m := by
  induction m generalizing o with
  | zero => simp [Source.fetch]
  | succ m ih =>
    rw [Source.fetch, Source.ofBytes]
    cases hb : bs[o]? with
    | none =>
      rw [List.getElem?_eq_none_iff] at hb
      rw [drop_eq_nil_of_le hb]
      rfl
    | some v =>
      obtain ⟨hlt, rfl⟩ := List.getElem?_eq_some_iff.mp hb
      rw [drop_eq_getElem_cons hlt, take_succ_cons]
      exact congrArg _ (ih (o + 1))

/-- A kernel buffer with a directory entry. -/
theorem isEntry_ofBytes {ninodes : Nat} {bs : List UInt8} (hlen : bs.length = 16)
    (hbs : direntInum bs < ninodes) (hoff : off % 16 = 0) :
    IsEntry ninodes (.ofBytes bs) 0 off 16 := by
  have hfetch : (Source.ofBytes bs).fetch 0 16 = bs := by
    rw [fetch_ofBytes, drop_zero, ← hlen, take_length]
  rw [IsEntry, hfetch]
  exact ⟨hoff, rfl, hlen, hbs⟩

theorem dirent_length (inum : Nat) (name : Name) : (dirent inum name).length = 16 := by
  simp only [dirent, DIRSIZ, length_cons, length_append, length_take, length_replicate]
  omega

theorem direntInum_dirent_le (inum : Nat) (name : Name) : direntInum (dirent inum name) ≤ inum := by
  simp only [direntInum, dirent, getD_cons_zero, getD_cons_succ, UInt8.toNat_ofNat']
  omega

/-- `dirlink` keeps the invariant. -/
theorem dirlink_spec (hI : FsInv h s) (hi : 0 < h i) (hv : (s.icache i).valid)
    (name : Name) {inum : Nat} (hinum : inum < s.sb.ninodes) :
    wp (dirlink i name inum) s (fun _ t => FsInv h t ∧ Stable h s t) Allowed := by
  simp only [dirlink, wp_bind]
  refine wp_mono (dirlookup_spec hI hi hv name) ?_
  rintro r t ⟨hnone, hI', hS, -⟩
  cases r with
  | some jo =>
    simp only [wp_bind]
    refine wp_mono (iput_spec hI') ?_
    rintro - u ⟨hI2, hS2⟩
    exact ⟨hI2, hS.trans hS2⟩
  | none =>
    rw [hnone rfl]
    obtain ⟨A, hIA⟩ := id hI
    simp only [wp_bind, wp_getInode]
    refine wp_mono (emptyDirent_spec hIA hi hv rfl _) ?_
    rintro off _ ⟨rfl, hoff⟩
    have hentry := isEntry_ofBytes (dirent_length inum name)
      (lt_of_le_of_lt (direntInum_dirent_le inum name) hinum) hoff
    refine wp_mono (writei_inv hI hi hv (by omega) fun _ => .inr hentry) fun n u hu => ?_
    exact wp_ite (fun _ => by simp [Allowed]) fun _ => hu

/-! ## Paths -/

/-- `namex` from an inode that the caller holds a reference to. -/
theorem namexFrom_spec (hI : FsInv (hold h i) s) (parent : Bool) (path : List UInt8) (k : Nat) :
    wp (namexFrom parent i path k) s
      (fun r t => FsInv (holdOpt h (r.map Prod.fst)) t ∧ Stable h s t) Allowed := by
  induction k generalizing i path s with
  | zero => simp [namexFrom, Allowed]
  | succ k ih =>
    rw [namexFrom]
    cases hskip : skipelem path with
    | none =>
      refine wp_ite (fun _ => ?_) fun _ => ⟨hI, Stable.refl h s⟩
      exact wp_seq (iput_spec hI) fun _ _ hu => hu
    | some er =>
      obtain ⟨name, rest⟩ := er
      obtain ⟨A, hIA⟩ := hI
      refine wp_seq (ilock_spec hIA (hold_pos h i)) ?_
      rintro - t ⟨hI1, hS1, hv⟩
      have hI1 : FsInv (hold h i) t := ⟨A, hI1⟩
      have hput : ∀ {v : FsState}, FsInv (hold h i) v → Stable (hold h i) s v →
          wp (do
              iunlockput i
              return none) v
            (fun r t => FsInv (holdOpt h (r.map (Prod.fst : Nat × Name → Nat))) t ∧
              Stable h s t) Allowed := by
        intro v hv hS
        refine wp_seq (iunlockput_spec hv) ?_
        rintro - u ⟨hI', hS'⟩
        exact ⟨hI', hS.of_hold.trans hS'⟩
      refine wp_ite (fun _ => hput hI1 hS1) fun htype => ?_
      refine wp_ite (fun _ => ?_) fun _ => ?_
      · refine wp_seq (iunlock_spec hI1) ?_
        rintro - u ⟨hI2, hS2⟩
        exact ⟨hI2, (hS1.trans hS2).of_hold⟩
      · refine wp_seq (dirlookup_spec hI1 (hold_pos h i) hv name) ?_
        rintro r u ⟨-, hI2, hS2, -⟩
        cases r with
        | none => exact hput hI2 (hS1.trans hS2)
        | some jo =>
          obtain ⟨j, o⟩ := jo
          rw [wp_bind]
          have hI3 : FsInv (hold (hold h j) i) u := by
            rw [hold_comm]
            exact hI2
          refine wp_mono (iunlockput_spec hI3) ?_
          rintro - v ⟨hI4, hS4⟩
          refine wp_mono (ih hI4 rest) ?_
          rintro r' w ⟨hI5, hS5⟩
          exact ⟨hI5, ((hS1.trans hS2).of_hold.trans hS4.of_hold).trans hS5⟩

/-- `namex` returns a reference to the inode it found. -/
theorem namex_spec (hI : FsInv h s) (hcwd : 0 < h cwd) (parent : Bool) (path : List UInt8) :
    wp (namex cwd parent path) s
      (fun r t => FsInv (holdOpt h (r.map Prod.fst)) t ∧ Stable h s t) Allowed := by
  refine wp_ite (fun _ => ?_) fun _ => ?_
  · obtain ⟨A, hIA⟩ := hI
    refine wp_seq (iget_spec hIA hIA.good.geom.root) ?_
    rintro i t ⟨hI1, hS1, -⟩
    refine wp_mono (namexFrom_spec ⟨A, hI1⟩ parent path _) ?_
    rintro r u ⟨hI2, hS2⟩
    exact ⟨hI2, hS1.trans hS2⟩
  · refine wp_seq (idup_spec hI hcwd) ?_
    rintro i t ⟨rfl, hI1, hS1⟩
    refine wp_mono (namexFrom_spec hI1 parent path _) ?_
    rintro r u ⟨hI2, hS2⟩
    exact ⟨hI2, hS1.trans hS2⟩

theorem namei_spec (hI : FsInv h s) (hcwd : 0 < h cwd) (path : List UInt8) :
    wp (namei cwd path) s (fun r t => FsInv (holdOpt h r) t ∧ Stable h s t) Allowed := by
  simp only [namei, wp_bind]
  exact namex_spec hI hcwd false path

end SummerOsk.Fs
