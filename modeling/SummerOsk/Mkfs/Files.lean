import SummerOsk.Mkfs.Append
import SummerOsk.Fs.Dirs

/-!
# The run of mkfs

`main_spec` describes the image after a run with at most `NINODES - 2` files:
every inode, what each file contains, and the directory.  The run fails only if
a file cannot be opened or has a slash in its name, or if the files do not fit.
-/

namespace SummerOsk.Mkfs

open Lib Fs Function List

variable {s t : State} {A A' : Nat → Dinode} {F : Nat → List UInt8} {x : Nat} {L len : Nat → Nat}
  {type : Int} {done files : List HostFile}

/-! ## `ialloc` and the copy of a file -/

/-- A new inode. -/
def newDinode (type : Int) : Dinode := { zeroDinode with type := type, nlink := 1 }

theorem newDinode_ok (ht : type.bmod (2 ^ 16) = type) : (newDinode type).Ok :=
  have hnlink : (1 : Int).bmod (2 ^ 16) = 1 := by decide
  { zeroDinode_ok with type := ht, nlink := hnlink }

theorem ialloc_spec {E : Exit → Prop} (h : Complete A F s) (ht : type.bmod (2 ^ 16) = type)
    (hk : s.freeinode < NINODES) (hA : A s.freeinode = zeroDinode) (hF : F s.freeinode = []) :
    wp (ialloc type) s
      (fun inum t => inum = s.freeinode ∧
        Complete (update A s.freeinode (newDinode type)) F t ∧
        t.freeinode = s.freeinode + 1 ∧ t.inodes = s.inodes ++ [s.freeinode]) E := by
  simp only [ialloc, wp_bind, wp_get, wp_modify]
  rw [wp_winode (by exact h.sectors) hk, wp_pure]
  have hnext : Complete A F { s with
      freeinode := s.freeinode + 1, inodes := s.inodes ++ [s.freeinode] } :=
    ⟨⟨h.good, h.fresh, h.low, h.high, h.sectors, h.head⟩, h.synced, h.sizes, h.mapped, h.indirect,
      h.count, h.bytes, h.short, h.writes⟩
  have hput := hnext.putInode hk (d := newDinode type) (.inr rfl) (newDinode_ok ht)
    (by rw [hA]; rfl) (by rw [hF]; rfl)
  exact ⟨rfl, hput, rfl, rfl⟩

/-- The bytes that `mkfs` reads from a file. -/
def readBytes (reads : List (List UInt8)) : List UInt8 :=
  (reads.takeWhile fun buf => 0 < buf.length).flatten

/-- The files with the lengths `len` do not fit into the image. -/
def TooLarge (len : Nat → Nat) : Prop :=
  FSSIZE < nmeta + ∑ i ∈ Finset.range NINODES, blocksFor (len i) ∨
    ∃ inum < NINODES, MAXFILE * BSIZE < len inum

/-- What is too large now is too large at the end. -/
theorem tooLarge_of_over {l : Nat} (hx : x < NINODES) (hlen : ∀ inum, len inum ≤ L inum)
    (hl : l ≤ L x) (h : Over len x l ∨ MAXFILE * BSIZE < l) : TooLarge L := by
  rcases h with h | h
  · refine .inl (lt_of_lt_of_le h (Nat.add_le_add_left (Finset.sum_le_sum fun i _ => ?_) _))
    refine blocksFor_mono ?_
    by_cases heq : i = x
    · rw [heq, update_self]
      exact hl
    · rw [update_of_ne heq]
      exact hlen i
  · exact .inr ⟨x, hx, lt_of_lt_of_le h hl⟩

/-- The bound on the lengths, after bytes were added to a file. -/
theorem length_append_le {p : List UInt8} (hL : ∀ inum, (F inum).length ≤ L inum)
    (hp : (F x).length + p.length ≤ L x) (inum : Nat) :
    (update F x (F x ++ p) inum).length ≤ L inum := by
  by_cases heq : inum = x
  · rw [heq, update_self, length_append]
    exact hp
  · rw [update_of_ne heq]
    exact hL inum

/-- What `iappend` and the copy of a file do to the dinodes. -/
structure SameKind (x : Nat) (A A' : Nat → Dinode) (s t : State) : Prop where
  other : ∀ inum, inum ≠ x → A' inum = A inum
  type : (A' x).type = (A x).type
  nlink : (A' x).nlink = (A x).nlink
  freeinode : t.freeinode = s.freeinode
  inodes : t.inodes = s.inodes

theorem SameKind.trans {A1 A2 A3 : Nat → Dinode} {u : State} (h : SameKind x A1 A2 s t)
    (h' : SameKind x A2 A3 t u) : SameKind x A1 A3 s u :=
  ⟨fun inum hne => (h'.other inum hne).trans (h.other inum hne), h'.type.trans h.type,
    h'.nlink.trans h.nlink, h'.freeinode.trans h.freeinode, h'.inodes.trans h.inodes⟩

/-- `iappend`, with a bound `L` on the lengths at the end of the run. -/
theorem append_spec (h : Complete A F s) (hx : x < NINODES) (htype : (A x).type ≠ 0)
    (p : List UInt8) (hL : ∀ inum, (F inum).length ≤ L inum) (hp : (F x).length + p.length ≤ L x) :
    wp (iappend x p) s
      (fun _ t => ∃ A', Complete A' (update F x (F x ++ p)) t ∧ SameKind x A A' s t)
      fun _ => TooLarge L := by
  refine wp_imp (iappend_spec h hx htype p) (fun _ t ht => ?_) fun _ he =>
    tooLarge_of_over hx hL hp he
  obtain ⟨A', hC, hother, ht, hn, hfree, hinodes⟩ := ht
  exact ⟨A', hC, hother, ht, hn, hfree, hinodes⟩

theorem copyFile_spec (h : Complete A F s) (hx : x < NINODES) (htype : (A x).type ≠ 0)
    {reads : List (List UInt8)} (hL : ∀ inum, (F inum).length ≤ L inum)
    (hp : (F x).length + (readBytes reads).length ≤ L x) :
    wp (copyFile x reads) s
      (fun _ t => ∃ A', Complete A' (update F x (F x ++ readBytes reads)) t ∧
        SameKind x A A' s t)
      fun _ => TooLarge L := by
  induction reads generalizing s A F with
  | nil =>
    refine ⟨A, ?_, fun _ _ => rfl, rfl, rfl, rfl, rfl⟩
    simpa [readBytes] using h
  | cons buf rest ih =>
    refine wp_ite (fun hpos => ?_) fun hzero => ?_
    · have hread : readBytes (buf :: rest) = buf ++ readBytes rest := by
        simp [readBytes, hpos]
      rw [hread, length_append] at hp
      refine wp_seq (append_spec h hx htype buf hL (by omega)) fun _ t ht => ?_
      obtain ⟨A1, hC, hsame⟩ := ht
      have hstep := ih hC (by rw [hsame.type]; exact htype) (length_append_le hL (by omega))
        (by rw [update_self, length_append]; omega)
      refine wp_mono hstep fun _ u hu => ?_
      obtain ⟨A2, hC2, hsame2⟩ := hu
      rw [update_self, update_idem, append_assoc, ← hread] at hC2
      exact ⟨A2, hC2, hsame.trans hsame2⟩
    · have hread : readBytes (buf :: rest) = [] := by
        simp [readBytes, hzero]
      refine ⟨A, ?_, fun _ _ => rfl, rfl, rfl, rfl, rfl⟩
      rw [hread, append_nil, update_eq_self]
      exact h

/-! ## The directory -/

/-- The contents of a file named on the command line. -/
def HostFile.bytes (f : HostFile) : List UInt8 := (f.reads.map readBytes).getD []

/-- The entries of the root directory. -/
def entries (files : List HostFile) : List (Nat × Name) :=
  (ROOTINO, dot) :: (ROOTINO, dotdot) :: files.mapIdx fun i f => (i + 2, f.name)

def rootBytes (files : List HostFile) : List UInt8 :=
  (entries files).flatMap fun e => dirent e.1 e.2

theorem rootBytes_concat (files : List HostFile) (f : HostFile) :
    rootBytes (files ++ [f]) = rootBytes files ++ dirent (files.length + 2) f.name := by
  simp [rootBytes, entries]

theorem rootBytes_length (files : List HostFile) :
    (rootBytes files).length = 16 * (files.length + 2) := by
  have hlen : ∀ es : List (Nat × Name),
      (es.flatMap fun e => dirent e.1 e.2).length = 16 * es.length := by
    intro es
    induction es with
    | nil => rfl
    | cons e es ih =>
      rw [flatMap_cons, length_append, dirent_length, ih, length_cons]
      omega
  rw [rootBytes, hlen]
  simp [entries]

/-- The contents of the inodes after the files were added. -/
def fileBytes (files : List HostFile) (inum : Nat) : List UInt8 :=
  if inum = ROOTINO then rootBytes files
  else if 2 ≤ inum then ((files[inum - 2]?).map HostFile.bytes).getD [] else []

/-- A file that `mkfs` does not accept. -/
def HostFile.Bad (f : HostFile) : Prop := slash ∈ f.shortname ∨ f.reads = none

instance (f : HostFile) : Decidable f.Bad :=
  inferInstanceAs (Decidable (slash ∈ f.shortname ∨ f.reads = none))

/-- The image after some of the files were added. -/
structure Added (files : List HostFile) (A : Nat → Dinode) (s : State) : Prop where
  complete : Complete A (fileBytes files) s
  freeinode : s.freeinode = files.length + 2
  inodes : s.inodes = List.range' 1 (files.length + 1)
  root : (A ROOTINO).type = T_DIR ∧ (A ROOTINO).nlink = 1
  file : ∀ i < files.length, (A (i + 2)).type = T_FILE ∧ (A (i + 2)).nlink = 1
  free : ∀ inum, files.length + 2 ≤ inum → A inum = zeroDinode
  opened : ∀ f ∈ files, ¬ f.Bad

/-- The lengths at the end of a run bound those before. -/
theorem fileBytes_le_append (files rest : List HostFile) (inum : Nat) :
    fileBytes files inum <+: fileBytes (files ++ rest) inum := by
  induction rest using reverseRecOn with
  | nil => rw [append_nil]
  | append_singleton rest f ih =>
    refine ih.trans ?_
    rw [← append_assoc]
    generalize files ++ rest = done
    unfold fileBytes
    split_ifs with hroot htwo
    · rw [rootBytes_concat]
      exact prefix_append _ _
    · by_cases hlt : inum - 2 < done.length
      · rw [getElem?_append_left hlt]
      · rw [getElem?_eq_none (by omega)]
        exact nil_prefix
    · exact nil_prefix

theorem fileBytes_new (done : List HostFile) : fileBytes done (done.length + 2) = [] := by
  rw [fileBytes, if_neg (by rw [ROOTINO]; omega), if_pos (by omega), Nat.add_sub_cancel,
    getElem?_eq_none le_rfl]
  rfl

/-- One more file. -/
theorem fileBytes_concat (done : List HostFile) (f : HostFile) :
    fileBytes (done ++ [f]) = update
      (update (fileBytes done) ROOTINO
        (rootBytes done ++ dirent (done.length + 2) f.name)) (done.length + 2) f.bytes := by
  funext inum
  have hne : done.length + 2 ≠ ROOTINO := by
    rw [ROOTINO]
    omega
  by_cases hnew : inum = done.length + 2
  · rw [hnew, update_self, fileBytes, if_neg hne, if_pos (by omega), Nat.add_sub_cancel]
    simp
  · rw [update_of_ne hnew]
    by_cases hroot : inum = ROOTINO
    · rw [hroot, update_self, fileBytes, if_pos rfl, rootBytes_concat]
    · rw [update_of_ne hroot, fileBytes, fileBytes, if_neg hroot, if_neg hroot]
      split_ifs with htwo
      · by_cases hlt : inum - 2 < done.length
        · rw [getElem?_append_left hlt]
        · rw [getElem?_eq_none (by rw [length_append, length_singleton]; omega),
            getElem?_eq_none (by omega)]
      · rfl

theorem addFile_spec {f : HostFile} (h : Added done A s) (hlt : done.length + 2 < NINODES)
    (hL : ∀ inum, (fileBytes (done ++ [f]) inum).length ≤ L inum) :
    wp (addFile ROOTINO f) s (fun _ t => ∃ A', Added (done ++ [f]) A' t)
      fun _ => TooLarge L ∨ f.Bad := by
  have hne : done.length + 2 ≠ ROOTINO := by
    rw [ROOTINO]
    omega
  have hroot : ROOTINO < NINODES := by decide
  have hold : ∀ inum, (fileBytes done inum).length ≤ L inum := fun inum =>
    (fileBytes_le_append done [f] inum).length_le.trans (hL inum)
  have hLroot := hL ROOTINO
  have hLnew := hL (done.length + 2)
  rw [fileBytes_concat, update_of_ne hne.symm, update_self, length_append] at hLroot
  rw [fileBytes_concat, update_self] at hLnew
  have hbytes : fileBytes done ROOTINO = rootBytes done := if_pos rfl
  refine wp_ite (fun hslash => .inr (.inl hslash)) fun hslash => ?_
  cases hreads : f.reads with
  | none => exact .inr (.inr hreads)
  | some reads =>
    have hf : f.bytes = readBytes reads := by
      rw [HostFile.bytes, hreads]
      rfl
    simp only [wp_bind]
    refine wp_mono (ialloc_spec h.complete (by decide) (by rw [h.freeinode]; exact hlt)
      (h.free _ h.freeinode.ge) (by rw [h.freeinode, fileBytes_new])) fun inum t1 h1 => ?_
    obtain ⟨rfl, hC1, hfree1, hinodes1⟩ := h1
    rw [h.freeinode] at hC1 hfree1 hinodes1 ⊢
    -- the entry in the directory
    have hA1 : update A (done.length + 2) (newDinode T_FILE) ROOTINO = A ROOTINO :=
      update_of_ne hne.symm _ _
    refine wp_imp (append_spec hC1 hroot (by rw [hA1, h.root.1]; decide)
      (dirent (done.length + 2) f.name) hold (by rw [hbytes]; exact hLroot)) (fun _ t2 h2 => ?_)
      fun _ he => .inl he
    obtain ⟨A2, hC2, hsame2⟩ := h2
    have hold2 := length_append_le hold (x := ROOTINO) (by rw [hbytes]; exact hLroot)
    rw [hbytes] at hC2 hold2
    have hA2 : A2 (done.length + 2) = newDinode T_FILE := by
      rw [hsame2.other _ hne, update_self]
    have hnew : update (fileBytes done) ROOTINO
        (rootBytes done ++ dirent (done.length + 2) f.name) (done.length + 2) = [] := by
      rw [update_of_ne hne, fileBytes_new]
    -- and the contents
    refine wp_imp (copyFile_spec hC2 hlt (by rw [hA2]; decide) hold2 ?_) (fun _ t3 h3 => ?_)
      fun _ he => .inl he
    · rw [hnew, length_nil, Nat.zero_add, ← hf]
      exact hLnew
    · obtain ⟨A3, hC3, hsame3⟩ := h3
      rw [hnew, nil_append, ← hf, ← fileBytes_concat] at hC3
      have hA3 : ∀ inum, inum ≠ done.length + 2 → inum ≠ ROOTINO → A3 inum = A inum := by
        intro inum hnew hnroot
        rw [hsame3.other _ hnew, hsame2.other _ hnroot, update_of_ne hnew]
      refine ⟨A3, hC3, ?_, ?_, ?_, fun i hi => ?_, fun inum hi => ?_, fun g hg => ?_⟩
      · rw [hsame3.freeinode, hsame2.freeinode, hfree1, length_append]
        rfl
      · rw [hsame3.inodes, hsame2.inodes, hinodes1, h.inodes, length_append, length_singleton,
          range'_concat (s := 1) (n := done.length + 1), Nat.one_mul, Nat.add_comm 1]
      · rw [hsame3.other _ hne.symm, hsame2.type, hsame2.nlink, hA1]
        exact h.root
      · rw [length_append, length_singleton] at hi
        by_cases heq : i = done.length
        · rw [heq, hsame3.type, hsame3.nlink, hA2]
          exact ⟨rfl, rfl⟩
        · rw [hA3 _ (by omega) (by rw [ROOTINO]; omega)]
          exact h.file i (by omega)
      · rw [length_append, length_singleton] at hi
        rw [hA3 _ (by omega) (by rw [ROOTINO]; omega)]
        exact h.free inum (by omega)
      · rcases mem_append.mp hg with hg | hg
        · exact h.opened g hg
        · rw [mem_singleton.mp hg, HostFile.Bad, hreads]
          simp [hslash]

theorem addFiles_spec {rest : List HostFile} (h : Added done A s)
    (hlt : (done ++ rest).length + 1 < NINODES)
    (hL : ∀ inum, (fileBytes (done ++ rest) inum).length ≤ L inum) :
    wp (addFiles ROOTINO rest) s (fun _ t => ∃ A', Added (done ++ rest) A' t)
      fun _ => TooLarge L ∨ ∃ f ∈ rest, f.Bad := by
  induction rest generalizing s A done with
  | nil =>
    rw [append_nil]
    exact ⟨A, h⟩
  | cons f rest ih =>
    have hsplit : done ++ f :: rest = (done ++ [f]) ++ rest := by simp
    rw [hsplit] at hlt hL ⊢
    rw [addFiles, wp_bind]
    refine wp_imp (addFile_spec h ?_ (L := L) fun inum => ?_) (fun _ t ht => ?_) fun _ he => ?_
    · simp only [length_append, length_singleton] at hlt
      omega
    · exact (fileBytes_le_append (done ++ [f]) rest inum).length_le.trans (hL inum)
    · obtain ⟨A', hA'⟩ := ht
      refine wp_imp (ih hA' hlt hL) (fun _ _ hu => hu) fun _ he => ?_
      exact he.imp id fun ⟨g, hg, hbad⟩ => ⟨g, mem_cons_of_mem f hg, hbad⟩
    · exact he.imp id fun hbad => ⟨f, mem_cons_self, hbad⟩

/-! ## `main` -/

section

variable {E : Exit → Prop}

theorem clear_spec {n : Nat} (hn : n ≤ FSSIZE) :
    wp (clear n) start (fun _ t => t = { start with sectors := n }) E := by
  induction n with
  | zero =>
    rw [clear_zero, wp_pure]
    rfl
  | succ n ih =>
    rw [clear_succ]
    refine wp_seq (ih (by omega)) fun _ t ht => ?_
    rw [ht, wsect, wp_modify, sector_of_lt hn]
    have himg : update start.img n zeroBlock = start.img := update_eq_self n _
    rw [himg, max_eq_right (Nat.le_succ n)]

/-- The image with the superblock. -/
def formatted : State :=
  { start with img := update start.img 1 sbBlock, sectors := FSSIZE }

theorem refOf_formatted (p : Place) :
    refOf NINODES (fun _ => zeroDinode) formatted.view p = none := by
  cases p with
  | direct inum i => simp [refOf, zeroDinode, ptr]
  | indirect inum => simp [refOf, zeroDinode, ptr]
  | entry inum j => simp [refOf, zeroDinode, ptr]

theorem formatted_complete : Complete (fun _ => zeroDinode) (fun _ => []) formatted := by
  have howned : Owned sb (fun _ => zeroDinode) formatted.view := by
    refine ⟨fun p q b hp => ?_, fun p b hp => ?_, fun b hb => ?_⟩
    · exact absurd (hp.symm.trans (refOf_formatted p)) (Option.some_ne_none b)
    · exact absurd (hp.symm.trans (refOf_formatted p)) (Option.some_ne_none b)
    · have hno : ¬ ∃ p, refOf NINODES (fun _ => zeroDinode) formatted.view p = some b :=
        fun ⟨p, hp⟩ => absurd (hp.symm.trans (refOf_formatted p)) (Option.some_ne_none b)
      rw [usedBit_view hb, decide_eq_true_iff]
      exact ⟨.inl, fun h => h.resolve_right hno⟩
  refine ⟨⟨⟨⟨geometry, fun _ _ => zeroDinode_ok, False.elim, fun inum _ bn hbn => ?_, False.elim,
    False.elim⟩, howned⟩, fun b hb => ?_, le_rfl, by decide, rfl, fun b _ => ?_⟩,
    fun inum hi _ => ?_, fun _ _ _ => rfl, fun inum _ bn _ => ?_, fun inum _ => ?_, ?_,
    fun inum _ o ho => ?_, fun _ _ => Nat.zero_le _, fun b hb => ?_⟩
  · exact absurd hbn (Nat.not_lt_zero _)
  · have hne : b ≠ 1 := by
      have : 1 < nmeta := by decide
      have : nmeta ≤ b := hb
      omega
    exact update_of_ne hne _ _
  · exact update_apply _ _ _ _
  · have hne : sb.iblock inum ≠ 1 := by
      have : 1 < sb.inodestart := by decide
      have : sb.inodestart ≤ sb.iblock inum := Nat.le_add_left _ _
      omega
    exact (dinodeAt_update_of_ne _ hne).trans (getDinode_zeroBlock _)
  · exact iff_of_true (refOf_formatted _) (Nat.zero_le _)
  · exact iff_of_true (refOf_formatted _) (Nat.zero_le _)
  · have hzero : blocksFor 0 = 0 := by decide
    have hsum : ∑ _inum ∈ Finset.range NINODES, blocksFor 0 = 0 := by
      rw [hzero, Finset.sum_const_zero]
    exact (Nat.add_zero nmeta).symm.trans (congrArg (nmeta + ·) hsum.symm)
  · exact absurd ho (Nat.not_lt_zero _)
  · exact absurd hb not_mem_nil

end

theorem fileBytes_nil :
    fileBytes [] = update (update (fun _ => []) ROOTINO (dirent ROOTINO dot))
      ROOTINO (dirent ROOTINO dot ++ dirent ROOTINO dotdot) := by
  funext inum
  rw [update_idem, fileBytes, update_apply]
  refine if_congr Iff.rfl ?_ ?_
  · simp [rootBytes, entries]
  · simp

/-- The first two entries of the root directory. -/
theorem root_spec (h : Complete (update (fun _ => zeroDinode) ROOTINO (newDinode T_DIR))
      (fun _ => []) s) (hfree : s.freeinode = 2) (hinodes : s.inodes = [ROOTINO])
      (hL : ∀ inum, (fileBytes [] inum).length ≤ L inum) :
    wp (iappend ROOTINO (dirent ROOTINO dot)) s
      (fun _ t => wp (iappend ROOTINO (dirent ROOTINO dotdot)) t (fun _ u => ∃ A, Added [] A u)
        fun _ => TooLarge L)
      fun _ => TooLarge L := by
  have hroot : ROOTINO < NINODES := by decide
  have hLroot := hL ROOTINO
  rw [fileBytes_nil, update_self, length_append] at hLroot
  refine wp_mono (append_spec h hroot (by rw [update_self]; decide)
    (dirent ROOTINO dot) (fun _ => Nat.zero_le _) ?_) fun _ t ht => ?_
  · rw [length_nil]
    omega
  obtain ⟨A1, hC1, hsame1⟩ := ht
  have htype1 : (A1 ROOTINO).type = T_DIR := by
    rw [hsame1.type, update_self]
    rfl
  have hnlink1 : (A1 ROOTINO).nlink = 1 := by
    rw [hsame1.nlink, update_self]
    rfl
  refine wp_mono (append_spec hC1 hroot (by rw [htype1]; decide) (dirent ROOTINO dotdot)
    (length_append_le (fun _ => Nat.zero_le _) (by rw [length_nil]; omega)) ?_)
    fun _ u hu => ?_
  · exact hLroot
  · obtain ⟨A2, hC2, hsame2⟩ := hu
    rw [update_self, nil_append, ← fileBytes_nil] at hC2
    refine ⟨A2, hC2, ?_, ?_, ?_, fun i hi => absurd hi (Nat.not_lt_zero i), fun inum hi => ?_,
      fun f hf => absurd hf not_mem_nil⟩
    · rw [hsame2.freeinode, hsame1.freeinode, hfree]
      rfl
    · rw [hsame2.inodes, hsame1.inodes, hinodes]
      rfl
    · rw [hsame2.type, hsame2.nlink]
      exact ⟨htype1, hnlink1⟩
    · have hne : inum ≠ ROOTINO := by
        rw [ROOTINO]
        omega
      rw [hsame2.other inum hne, hsame1.other inum hne, update_of_ne hne]

/-- The dinode of the root directory, with the size rounded up. -/
def roundUp (d : Dinode) : Dinode := { d with size := (d.size / BSIZE + 1) * BSIZE }

/-- The image that `main` leaves.  The dinode of the root directory in `A` has
the length of its entries. -/
structure Finished (files : List HostFile) (A : Nat → Dinode) (s : State) : Prop where
  built : Built A (some ROOTINO) (fun inum => (fileBytes files inum).length) (fileBytes files) s
  bitmap : s.view = s.img
  inodes : s.inodes = List.range' 1 (files.length + 1)
  size : (A ROOTINO).size = (rootBytes files).length
  root : (A ROOTINO).type = T_DIR ∧ (A ROOTINO).nlink = 1
  rounded : dinodeAt sb s.img ROOTINO = roundUp (A ROOTINO)
  file : ∀ i < files.length, (A (i + 2)).type = T_FILE ∧ (A (i + 2)).nlink = 1
  opened : ∀ f ∈ files, ¬ f.Bad

/-- The bitmap is written. -/
theorem Built.write_bitmap {y : Option Nat} (h : Built A y len F s) :
    Built A y len F { s with img := s.view } := by
  have hview : State.view { s with img := s.view } = s.view := update_idem _ _ _
  have hbm : sb.inodestart < sb.bmapstart ∧ sb.bmapstart < nmeta := by decide
  refine ⟨⟨by rw [hview]; exact h.good, fun b hb => ?_, h.low, h.high, h.sectors, fun b hb => ?_⟩,
    fun inum hi hy => ?_, h.sizes, by rw [hview]; exact h.mapped, by rw [hview]; exact h.indirect,
    h.count, by rw [hview]; exact h.bytes, h.short, h.writes⟩
  · exact (view_of_le (h.low.trans hb)).trans (h.fresh b hb)
  · exact (view_of_ne (by omega)).trans (h.head b hb)
  · exact (dinodeAt_view hi).trans (h.synced inum hi hy)

/-- The end of `main`. -/
theorem finish_spec {E : Exit → Prop} (h : Added files A s) (hn : files.length + 1 < NINODES) :
    wp (fixRoot ROOTINO) s
      (fun _ t => wp (balloc t.freeblock) t (fun _ u => Finished files A u) E) E := by
  have hroot : ROOTINO < NINODES := by decide
  have hdin : dinodeAt sb s.img ROOTINO = A ROOTINO := h.complete.synced _ hroot nofun
  have hsize : (A ROOTINO).size = (rootBytes files).length :=
    (h.complete.sizes _ hroot nofun).trans (congrArg List.length (if_pos rfl))
  have hok := h.complete.good.ok ROOTINO hroot
  have hd : (roundUp (A ROOTINO)).Ok := by
    refine hok.withSize ?_
    show ((A ROOTINO).size / BSIZE + 1) * BSIZE ≤ _
    rw [hsize, rootBytes_length]
    simp only [NINODES, MAXFILE, NDIRECT, NINDIRECT, BSIZE] at hn ⊢
    omega
  have hB := h.complete.write_dinode hroot (.inr rfl) hd
  simp only [fixRoot, wp_bind]
  rw [wp_rinode h.complete.sectors hroot, hdin, wp_winode h.complete.sectors hroot]
  refine wp_ite (fun _ => ?_) fun hlarge => ?_
  · rw [wp_wsect (by exact h.complete.sectors) (by decide)]
    exact ⟨hB.write_bitmap, update_idem _ _ _, h.inodes, hsize, h.root,
      (dinodeAt_view hroot).trans ((dinodeAt_putInode hd ROOTINO).trans (if_pos rfl)), h.file,
      h.opened⟩
  · have hhigh : s.freeblock ≤ FSSIZE := h.complete.high
    have : FSSIZE < BSIZE * 8 := by decide
    exact absurd (lt_of_le_of_lt hhigh this) hlarge

/-- A run with at most `NINODES - 2` files. -/
theorem main_spec (hn : files.length + 1 < NINODES) :
    wp (main files) start (fun _ t => ∃ A, Finished files A t)
      fun _ => TooLarge (fun inum => (fileBytes files inum).length) ∨ ∃ f ∈ files, f.Bad := by
  have hroot : ROOTINO < NINODES := by decide
  have hform := formatted_complete
  simp only [main, wp_bind]
  refine wp_mono (clear_spec le_rfl) fun _ t ht => ?_
  rw [ht, wp_wsect rfl (by decide)]
  refine wp_mono (ialloc_spec (s := formatted) hform (by decide) hroot rfl rfl)
    fun inum t1 h1 => ?_
  obtain ⟨rfl, hC1, hfree1, hinodes1⟩ := h1
  refine wp_ite (fun _ => ?_) fun hne => absurd rfl hne
  simp only [wp_bind]
  have hempty : ∀ inum, (fileBytes [] inum).length ≤ (fileBytes files inum).length := fun inum =>
    (fileBytes_le_append [] files inum).length_le
  refine wp_imp (root_spec hC1 hfree1 hinodes1 hempty) (fun _ t2 h2 => ?_) fun _ he => .inl he
  refine wp_imp h2 (fun _ t3 h3 => ?_) fun _ he => .inl he
  obtain ⟨A3, hA3⟩ := h3
  refine wp_mono (addFiles_spec hA3 hn fun _ => le_rfl) fun _ t4 h4 => ?_
  obtain ⟨A4, hA4⟩ := h4
  refine wp_mono (finish_spec hA4 hn) fun _ t5 h5 => ?_
  rw [wp_get]
  exact wp_mono h5 fun _ u hu => ⟨A4, hu⟩

end SummerOsk.Mkfs
