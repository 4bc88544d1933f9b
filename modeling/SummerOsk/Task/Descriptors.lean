import SummerOsk.Task.Files

/-!
# The calls on descriptors

`close`, `pipe` and `exit` keep the invariant and lose no page.  In between, a
reference that is in no slot is held by the call; `fdalloc` and `clearFd` move
it.  The loop of `fork` over the descriptors is here too.
-/

namespace SummerOsk.Task

open Lib Vm Function List

variable {s s' : Sys} {p np : Fin NPROC} {fd : Fin NOFILE} {f : Fin NFILE}
  {pend' : List (Fin NFILE)} {E : Stop → Prop}

/-! ## Slots -/

def Proc.setFd (pr : Proc) (fd : Fin NOFILE) (x : Option (Fin NFILE)) : Proc :=
  { pr with ofile := update pr.ofile fd x }

/-- The state after a descriptor of `p` was changed. -/
def Sys.setFd (s : Sys) (p : Fin NPROC) (fd : Fin NOFILE) (x : Option (Fin NFILE)) : Sys :=
  { s with proc := update s.proc p ((s.proc p).setFd fd x) }

theorem Sys.slot_setFd (s : Sys) (p : Fin NPROC) (fd : Fin NOFILE) (x : Option (Fin NFILE)) :
    (s.setFd p fd x).slot = update s.slot (p, fd) x := by
  funext k
  unfold Sys.slot Sys.setFd
  dsimp only
  by_cases hp : k.1 = p
  · by_cases hfd : k.2 = fd
    · have hk : k = (p, fd) := Prod.ext hp hfd
      rw [hk, update_self, update_self]
      exact update_self ..
    · have hk : k ≠ (p, fd) := fun he => hfd (congrArg Prod.snd he)
      rw [update_of_ne hk, hp, update_self]
      exact update_of_ne hfd ..
  · have hk : k ≠ (p, fd) := fun he => hp (congrArg Prod.fst he)
    rw [update_of_ne hk, update_of_ne hp]

theorem Sys.sameSpace_setFd (s : Sys) (p : Fin NPROC) (fd : Fin NOFILE)
    (x : Option (Fin NFILE)) (q : Fin NPROC) : (s.proc q).SameSpace ((s.setFd p fd x).proc q) := by
  unfold Sys.setFd
  dsimp only
  rcases eq_or_ne q p with rfl | hq
  · rw [update_self]
    exact ⟨Iff.rfl, rfl, rfl, rfl⟩
  · rw [update_of_ne hq]
    exact Proc.SameSpace.refl _

theorem MemInv.setFd (h : MemInv s) (p : Fin NPROC) (fd : Fin NOFILE) (x : Option (Fin NFILE)) :
    MemInv (s.setFd p fd x) ∧ (s.setFd p fd x).total = s.total :=
  h.sameSpace (s.sameSpace_setFd p fd x)

@[simp] theorem wp_clearFd {Q : Unit → Sys → Prop} :
    wp (clearFd p fd) s Q E ↔ Q () (s.setFd p fd none) := Iff.rfl

theorem Sys.setFd_state (s : Sys) (p q : Fin NPROC) (fd : Fin NOFILE) (x : Option (Fin NFILE)) :
    ((s.setFd p fd x).proc q).state = (s.proc q).state := by
  unfold Sys.setFd
  dsimp only
  rcases eq_or_ne q p with rfl | hq
  · rw [update_self]
    rfl
  · rw [update_of_ne hq]

/-- The state `s1` inside a call of `p` that started in `s` and holds the
references `pend`. -/
structure Within (s : Sys) (p : Fin NPROC) (pend : List (Fin NFILE)) (s1 : Sys) : Prop where
  mem : MemInv s1
  files : Files s1.file s1.pipe s1.slot pend
  live : (s1.proc p).state = .live
  other : ∀ q, q ≠ p → s1.proc q = s.proc q
  total : s1.total = s.total

theorem slot_congr (h : s'.proc = s.proc) : s'.slot = s.slot := by
  unfold Sys.slot
  rw [h]

section Within

variable {s1 s2 : Sys} {pend : List (Fin NFILE)}

theorem Within.start (h : Inv s) (hp : (s.proc p).state = .live) : Within s p [] s :=
  ⟨h.mem, h.files, hp, fun _ _ => rfl, rfl⟩

/-- At the end no reference is left. -/
theorem Within.done (hw : Within s p [] s1) (h : Inv s) : Inv s1 ∧ s1.total = s.total := by
  have hne : ∀ q, (s1.proc q).state ≠ .live → q ≠ p := by
    rintro q hq rfl
    exact hq hw.live
  refine ⟨⟨hw.mem, hw.files, fun q hq => ?_, fun q hq => ?_⟩, hw.total⟩
  · have hqp := hne q (by rw [hq]; decide)
    rw [hw.other q hqp] at *
    exact h.idle q hq
  · have hqp := hne q hq
    rw [hw.other q hqp] at *
    exact h.closed q hq

/-- The process table stays. -/
theorem Within.tables (hw : Within s p pend s1) (hm : MemInv s2) (hproc : s2.proc = s1.proc)
    (htotal : s2.total = s1.total)
    (hf : Files s2.file s2.pipe s1.slot pend') : Within s p pend' s2 := by
  refine ⟨hm, ?_, ?_, fun q hq => ?_, htotal.trans hw.total⟩
  · rw [slot_congr hproc]
    exact hf
  · rw [hproc]
    exact hw.live
  · rw [hproc]
    exact hw.other q hq

/-- A slot of `p` changes. -/
theorem Within.setFd {x : Option (Fin NFILE)} (hw : Within s p pend s1)
    (hf : Files s1.file s1.pipe (update s1.slot (p, fd) x) pend') :
    Within s p pend' (s1.setFd p fd x) := by
  have hm := hw.mem.setFd p fd x
  refine ⟨hm.1, ?_, ?_, fun q hq => ?_, hm.2.trans hw.total⟩
  · rw [Sys.slot_setFd]
    exact hf
  · rw [Sys.setFd_state]
    exact hw.live
  · rw [← hw.other q hq]
    exact update_of_ne hq _ _

/-- `clearFd` hands the reference to the call. -/
theorem Within.clear (hw : Within s p pend s1) (hfd : s1.slot (p, fd) = some f) :
    Within s p (f :: pend) (s1.setFd p fd none) :=
  hw.setFd (hw.files.drain hfd)

/-- `fileclose` drops a reference. -/
theorem Within.fileclose (hw : Within s p (f :: pend) s1) :
    wp (fileclose f) s1 (fun _ s2 => Within s p pend s2) fun _ => False := by
  refine wp_mono (fileclose_spec hw.mem hw.files) fun _ s2 hs2 => ?_
  obtain ⟨hm, hf, hproc, -, htotal⟩ := hs2
  exact hw.tables hm hproc htotal hf

end Within

/-! ## `close` -/

/-- `sys_close`. -/
theorem sysClose_spec (h : Inv s) (hp : (s.proc p).state = .live) :
    wp (sysClose p fd) s (fun _ s' => Inv s' ∧ s'.total = s.total) fun _ => False := by
  unfold sysClose
  rw [wp_bind, wp_getProc]
  cases hfd : (s.proc p).ofile fd with
  | none => exact ⟨h, rfl⟩
  | some f =>
    rw [wp_bind, wp_clearFd]
    refine wp_seq ((Within.start h hp).clear hfd).fileclose fun _ s' hs' => ?_
    exact hs'.done h

/-! ## `pipe` -/

section Pipe

variable {slot : Fin NPROC × Fin NOFILE → Option (Fin NFILE)} {pend : List (Fin NFILE)}
  {file : Fin NFILE → File} {pipe : Nat → Pipe} {f0 f1 : Fin NFILE} {q : Nat} {s1 : Sys}

theorem Files.perm (h : Files file pipe slot pend)
    (hp : pend.Perm pend') : Files file pipe slot pend' :=
  ⟨fun g => by rw [h.ref, hp.count_eq], h.closed, h.ends, h.unique, h.opened⟩

/-- A file becomes an end of a pipe. -/
def File.asEnd (x : File) (q : Nat) (w : Bool) : File :=
  { x with type := .pipe, readable := !w, writable := w, pipe := q }

/-- Two files become the ends of a new pipe. -/
def bothEnds (file : Fin NFILE → File) (f0 f1 : Fin NFILE) (q : Nat) : Fin NFILE → File :=
  update (update file f0 ((file f0).asEnd q false)) f1
    ((file f1).asEnd q true)

/-- A file after `bothEnds` is the read end, the write end, or as before. -/
theorem bothEnds_cases (file : Fin NFILE → File) (q : Nat) (hne : f0 ≠ f1) (g : Fin NFILE) :
    (g = f0 ∧ bothEnds file f0 f1 q g = (file g).asEnd q false) ∨
      (g = f1 ∧ bothEnds file f0 f1 q g = (file g).asEnd q true) ∨
      (g ≠ f0 ∧ g ≠ f1 ∧ bothEnds file f0 f1 q g = file g) := by
  unfold bothEnds
  rcases eq_or_ne g f1 with rfl | h1
  · exact .inr (.inl ⟨rfl, update_self ..⟩)
  · rcases eq_or_ne g f0 with rfl | h0
    · exact .inl ⟨rfl, by rw [update_of_ne h1, update_self]⟩
    · exact .inr (.inr ⟨h0, h1, by rw [update_of_ne h1, update_of_ne h0]⟩)

/-- Both ends of a pipe in an unused page are opened. -/
theorem Files.openPipe (h : Files file pipe slot pend) (hne : f0 ≠ f1)
    (hq : ∀ w, (pipe q).isOpen w = false) (h0 : 0 < (file f0).ref) (h1 : 0 < (file f1).ref)
    (ht0 : (file f0).type = .none) (ht1 : (file f1).type = .none) :
    Files (bothEnds file f0 f1 q) (update pipe q ⟨true, true⟩) slot pend := by
  -- a pipe that was there before is in another page
  have hold : ∀ g, (file g).type = .pipe → (file g).pipe ≠ q := by
    intro g hg he
    have hopen := h.ends g hg
    rw [he, hq] at hopen
    cases hopen
  have hboth : ∀ w, (⟨true, true⟩ : Pipe).isOpen w = true := by
    intro w
    cases w <;> rfl
  refine ⟨fun g => ?_, fun g hg => ?_, fun g hg => ?_, fun g g' hg hg' hp hw => ?_,
    fun r w hr => ?_⟩
  · rw [← h.ref g]
    rcases bothEnds_cases file q hne g with ⟨-, he⟩ | ⟨-, he⟩ | ⟨-, -, he⟩ <;>
      rw [he] <;> rfl
  · rcases bothEnds_cases file q hne g with ⟨rfl, he⟩ | ⟨rfl, he⟩ | ⟨-, -, he⟩
    · rw [he] at hg
      exact absurd hg h0.ne'
    · rw [he] at hg
      exact absurd hg h1.ne'
    · rw [he] at hg ⊢
      exact h.closed g hg
  · rcases bothEnds_cases file q hne g with ⟨-, he⟩ | ⟨-, he⟩ | ⟨-, -, he⟩
    · rw [he, show ((file g).asEnd q false).pipe = q from rfl, update_self]
      exact hboth _
    · rw [he, show ((file g).asEnd q true).pipe = q from rfl, update_self]
      exact hboth _
    · rw [he] at hg ⊢
      rw [update_of_ne (hold g hg)]
      exact h.ends g hg
  · rcases bothEnds_cases file q hne g with ⟨rfl, he⟩ | ⟨rfl, he⟩ | ⟨-, -, he⟩ <;>
      rcases bothEnds_cases file q hne g' with
        ⟨rfl, he'⟩ | ⟨rfl, he'⟩ | ⟨-, -, he'⟩ <;> rw [he] at hg hp hw <;> rw [he'] at hg' hp hw
    · cases hw
    · exact absurd hp.symm (hold g' hg')
    · cases hw
    · exact absurd hp.symm (hold g' hg')
    · exact absurd hp (hold g hg)
    · exact absurd hp (hold g hg)
    · exact h.unique g g' hg hg' hp hw
  · rcases eq_or_ne r q with rfl | hrq
    · cases w
      · have he := (bothEnds_cases file r hne f0).resolve_right (by tauto)
        exact ⟨f0, by rw [he.2]; exact ⟨rfl, rfl, rfl⟩⟩
      · have he := ((bothEnds_cases file r hne f1).resolve_left
          (fun hc => hne hc.1.symm)).resolve_right (by tauto)
        exact ⟨f1, by rw [he.2]; exact ⟨rfl, rfl, rfl⟩⟩
    · rw [update_of_ne hrq] at hr
      obtain ⟨g, hg, hgr, hgw⟩ := h.opened r w hr
      have hg0 : g ≠ f0 := by
        rintro rfl
        rw [ht0] at hg
        cases hg
      have hg1 : g ≠ f1 := by
        rintro rfl
        rw [ht1] at hg
        cases hg
      have he := ((bothEnds_cases file q hne g).resolve_left
        (fun hc => hg0 hc.1)).resolve_left (fun hc => hg1 hc.1)
      exact ⟨g, by rw [he.2.2]; exact ⟨hg, hgr, hgw⟩⟩

/-- The buffer of a new pipe comes from the free list. -/
theorem MemInv.openPipe {m' : Mem} (h : MemInv s) (ht : Taken s.mem m' q) :
    MemInv { s with mem := m', pipe := update s.pipe q ⟨true, true⟩ } ∧
      ({ s with mem := m', pipe := update s.pipe q ⟨true, true⟩ } : Sys).total =
        s.total := by
  have hhold : ({ s with mem := m', pipe := update s.pipe q ⟨true, true⟩ } : Sys).hold
      none = insert q (s.hold none) := by
    ext r
    rw [Sys.mem_hold_none, Set.mem_insert_iff, Sys.mem_hold_none]
    dsimp only
    rcases eq_or_ne r q with rfl | hr
    · rw [update_self]
      exact iff_of_true ⟨true, rfl⟩ (.inl rfl)
    · rw [update_of_ne hr]
      exact ⟨.inr, fun hx => hx.resolve_left hr⟩
  have hc : Conserves s.mem m' (s.hold none) (insert q (s.hold none)) :=
    ht.conserves h.parted.free fun r hr => (h.parted.held none r hr).2
  have hstep := h.exchange { s with mem := m', pipe := update s.pipe q ⟨true, true⟩ }
    (i := none) (L := ∅) (by rw [hhold, Set.union_empty]; exact hc)
    (fun p _ => Proc.SameSpace.refl _) (fun hne => absurd rfl hne) rfl fun p hp => by cases hp
  refine ⟨hstep.1, Set.ext fun r => ?_⟩
  rw [← hstep.2 r, Set.mem_empty_iff_false, or_false]

/-- `pipealloc` holds a reference to each of the two files. -/
theorem pipealloc_spec (hm : MemInv s) (hf : Files s.file s.pipe slot pend) :
    wp pipealloc s
      (fun r s' => MemInv s' ∧ s'.proc = s.proc ∧ s'.total = s.total ∧
        match r with
        | none => Files s'.file s'.pipe slot pend
        | some (f0, f1) => Files s'.file s'.pipe slot (f0 :: f1 :: pend))
      fun _ => False := by
  refine wp_seq (filealloc_spec hf) fun r s1 hr => ?_
  rcases hr with ⟨rfl, rfl⟩ | ⟨f0, rfl, hf1, hone1, htype1, -, hs1⟩
  · exact ⟨hm, rfl, rfl, hf⟩
  have hm1 : MemInv s1 := by
    rw [hs1]
    exact hm.setFile _
  have hproc1 : s1.proc = s.proc := by rw [hs1]
  have htotal1 : s1.total = s.total := by rw [hs1]; rfl
  refine wp_seq (filealloc_spec hf1) fun r s2 hr => ?_
  rcases hr with ⟨rfl, rfl⟩ | ⟨f1, rfl, hf2, hone2, htype2, hsame2, hs2⟩
  · refine wp_seq (fileclose_spec hm1 hf1) fun _ s3 hs3 => ?_
    obtain ⟨hm3, hf3, hproc3, -, htotal3⟩ := hs3
    exact ⟨hm3, hproc3.trans hproc1, htotal3.trans htotal1, hf3⟩
  have hm2 : MemInv s2 := by
    rw [hs2]
    exact hm1.setFile _
  have hproc2 : s2.proc = s.proc := by rw [hs2]; exact hproc1
  have htotal2 : s2.total = s.total := by rw [hs2]; exact htotal1
  have hne : f0 ≠ f1 := by
    rintro rfl
    have := hf2.ref f0
    rw [hone2, count_cons_self, count_cons_self] at this
    omega
  have hswap : Files s2.file s2.pipe slot (f0 :: f1 :: pend) := hf2.perm (List.Perm.swap ..)
  rw [wp_bind, wp_vm]
  refine wp_mono kalloc_spec fun r m' hr => ?_
  rcases hr with ⟨rfl, -, rfl⟩ | ⟨q, rfl, ht⟩
  · refine wp_seq (fileclose_spec hm2 hswap) fun _ s3 hs3 => ?_
    obtain ⟨hm3, hf3, hproc3, -, htotal3⟩ := hs3
    refine wp_seq (fileclose_spec hm3 hf3) fun _ s4 hs4 => ?_
    obtain ⟨hm4, hf4, hproc4, -, htotal4⟩ := hs4
    exact ⟨hm4, hproc4.trans (hproc3.trans hproc2), htotal4.trans (htotal3.trans htotal2), hf4⟩
  · have hclosed : ∀ w, (s2.pipe q).isOpen w = false := by
      intro w
      by_contra hw
      have hheld : q ∈ s2.hold none := (Sys.mem_hold_none q).mpr ⟨w, by simpa using hw⟩
      exact (hm2.parted.held none q hheld).2 (by rw [ht.free]; exact mem_cons_self)
    have hopen := hm2.openPipe ht
    have htype : (s2.file f0).type = .none := by
      rw [hsame2 f0 hne]
      exact htype1
    rw [wp_bind, wp_setPipe, wp_bind, wp_modifyFile, wp_bind, wp_modifyFile, wp_pure]
    dsimp only
    rw [update_of_ne hne.symm]
    exact ⟨hopen.1.setFile _, hproc2, hopen.2.trans htotal2,
      hswap.openPipe hne hclosed hswap.pos hf2.pos htype htype2⟩

/-- `fdalloc` puts a reference of the call into a slot. -/
theorem Within.fdalloc (hw : Within s p (f :: pend) s1) :
    wp (fdalloc p f) s1
      (fun r s2 => (r = none ∧ s2 = s1) ∨ ∃ fd, r = some fd ∧ s2 = s1.setFd p fd (some f) ∧
        s1.slot (p, fd) = none ∧ Within s p pend s2)
      E := by
  unfold Task.fdalloc
  rw [wp_bind, wp_getProc]
  cases hfind : (finRange NOFILE).find? fun fd => (s1.proc p).ofile fd = none with
  | none => exact .inl ⟨rfl, rfl⟩
  | some fd =>
    have hnone : s1.slot (p, fd) = none := by
      have := find?_some hfind
      unfold Sys.slot
      simpa using this
    show wp (setProc p _ >>= _) s1 _ E
    exact .inr ⟨fd, rfl, rfl, hnone, hw.setFd (hw.files.fill hnone)⟩

/-- Both references of a pipe are dropped. -/
theorem Within.closeBoth (hw : Within s p [f0, f1] s1) (h : Inv s) :
    wp (closeBoth f0 f1) s1 (fun _ s' => Inv s' ∧ s'.total = s.total) fun _ => False := by
  refine wp_seq hw.fileclose fun _ s2 hw2 => ?_
  refine wp_seq hw2.fileclose fun _ s3 hw3 => ?_
  exact hw3.done h

/-- Only user pages are open to `copyout`. -/
theorem procTop_guarded (trampoline tf : Nat) : Guarded (procTop trampoline tf) := by
  have hperm (x perm : Nat) (h : perm &&& PTE_U = 0) :
      (pa2pte x ||| perm ||| PTE_V) &&& PTE_U = 0 := by
    have hpa : pa2pte x &&& PTE_U = 0 := by
      show x / 2 ^ 12 * 2 ^ 10 &&& 2 ^ 4 = 0
      rw [Nat.and_two_pow, Nat.testBit_mul_two_pow]
      rfl
    rw [Nat.and_or_distrib_right, Nat.and_or_distrib_right, h, hpa]
    rfl
  intro v e he
  by_cases h₁ : v = TRAPFRAME / PGSIZE
  · rw [h₁, procTop_trapframe] at he
    cases he
    exact hperm _ _ (by decide)
  · by_cases h2 : v = TRAMPOLINE / PGSIZE
    · rw [h2, procTop_trampoline] at he
      cases he
      exact hperm _ _ (by decide)
    · rw [procTop_other h2 h₁] at he
      cases he

/-- `copyout` to the calling process. -/
theorem Within.copyout {dstva : Nat} {src : List UInt8} (hw : Within s p pend s1) :
    wp (vm (copyout (s1.proc p).pagetable dstva src)) s1
      (fun _ s2 => Within s p pend s2 ∧ s2 = { s1 with mem := s2.mem })
      fun _ => False := by
  have hp : (s1.proc p).state ≠ .unused := by
    rw [hw.live]
    decide
  rw [wp_vm]
  refine wp_mono ((hw.mem.sound p hp).space.copyout (procTop_guarded _ _)) fun r m' hr => ?_
  obtain ⟨-, hsp, hc, -⟩ := hr
  have htouch := hw.mem.touch hp hsp hc
  exact ⟨hw.tables htouch.1 rfl htouch.2 hw.files, rfl⟩

/-- The descriptors of a pipe are taken back. -/
theorem Within.takeBack {fd0 fd1 : Fin NOFILE} (hw : Within s p [] s1) (h : Inv s)
    (h0 : s1.slot (p, fd0) = some f0) (h1 : s1.slot (p, fd1) = some f1) (hne : fd1 ≠ fd0) :
    wp (do clearFd p fd0; clearFd p fd1; Task.closeBoth f0 f1) s1
      (fun _ s' => Inv s' ∧ s'.total = s.total) fun _ => False := by
  have hslot : (s1.setFd p fd0 none).slot (p, fd1) = some f1 := by
    rw [Sys.slot_setFd, update_of_ne (fun he => hne (congrArg Prod.snd he)), h1]
  have hw3 := (hw.clear h0).clear hslot
  refine Within.closeBoth ⟨hw3.mem, hw3.files.perm (List.Perm.swap ..), hw3.live, hw3.other,
    hw3.total⟩ h

/-- `sys_pipe`. -/
theorem sysPipe_spec {fdarray : Nat} (h : Inv s) (hp : (s.proc p).state = .live) :
    wp (sysPipe p fdarray) s (fun _ s' => Inv s' ∧ s'.total = s.total) fun _ => False := by
  have hw := Within.start h hp
  refine wp_seq (pipealloc_spec hw.mem hw.files) fun r s1 hr => ?_
  obtain ⟨hm1, hproc1, htotal1, hf1⟩ := hr
  cases r with
  | none => exact (hw.tables hm1 hproc1 htotal1 hf1).done h
  | some ff =>
    obtain ⟨rf, wf⟩ := ff
    have hw1 := hw.tables hm1 hproc1 htotal1 hf1
    refine wp_seq hw1.fdalloc fun r s2 hr2 => ?_
    rcases hr2 with ⟨rfl, rfl⟩ | ⟨fd0, rfl, hs2, -, hw2⟩
    · exact hw1.closeBoth h
    have hslot0 : s2.slot (p, fd0) = some rf := by
      rw [hs2, Sys.slot_setFd, update_self]
    refine wp_seq hw2.fdalloc fun r s3 hr3 => ?_
    rcases hr3 with ⟨rfl, rfl⟩ | ⟨fd1, rfl, hs3, hnone1, hw3⟩
    · exact (hw2.clear hslot0).closeBoth h
    have hne : fd1 ≠ fd0 := by
      rintro rfl
      rw [hslot0] at hnone1
      cases hnone1
    have hslots : ∀ s4 : Sys, s4.proc = s3.proc →
        s4.slot (p, fd0) = some rf ∧ s4.slot (p, fd1) = some wf := by
      intro s4 hs4
      rw [slot_congr hs4, hs3, Sys.slot_setFd, update_self,
        update_of_ne (fun he => hne (congrArg Prod.snd he).symm)]
      exact ⟨hslot0, rfl⟩
    rw [wp_bind, wp_getProc]
    refine wp_seq hw3.copyout fun r s4 hr4 => ?_
    obtain ⟨hw4, hs4⟩ := hr4
    have hproc4 : s4.proc = s3.proc := by rw [hs4]
    refine wp_ite (fun _ => ?_) fun _ => ?_
    · exact hw4.takeBack h (hslots s4 hproc4).1 (hslots s4 hproc4).2 hne
    rw [wp_bind, ← hproc4]
    refine wp_mono hw4.copyout fun r s5 hr5 => ?_
    obtain ⟨hw5, hs5⟩ := hr5
    have hproc5 : s5.proc = s3.proc := by rw [hs5, hproc4]
    refine wp_ite (fun _ => ?_) fun _ => ?_
    · exact hw5.takeBack h (hslots s5 hproc5).1 (hslots s5 hproc5).2 hne
    · exact hw5.done h

end Pipe

/-! ## `exit` -/

/-- The loop of `exit` over the descriptors. -/
theorem Within.closeFiles (L : List (Fin NOFILE)) : ∀ {s1 : Sys}, Within s p [] s1 →
    wp (closeFiles p L) s1
      (fun _ s2 => Within s p [] s2 ∧ ∀ fd, fd ∈ L ∨ s1.slot (p, fd) = none →
        s2.slot (p, fd) = none)
      fun _ => False := by
  induction L with
  | nil =>
    intro s1 hw
    exact ⟨hw, fun fd hfd => hfd.resolve_left (not_mem_nil)⟩
  | cons fd L ih =>
    intro s1 hw
    unfold Task.closeFiles
    rw [wp_bind, wp_getProc]
    cases hfd : (s1.proc p).ofile fd with
    | none =>
      refine wp_mono (ih hw) fun _ s2 hs2 => ⟨hs2.1, fun fd' hfd' => hs2.2 fd' ?_⟩
      rcases hfd' with hin | hnone
      · rcases mem_cons.mp hin with rfl | hin
        · exact .inr hfd
        · exact .inl hin
      · exact .inr hnone
    | some f =>
      have hslot : s1.slot (p, fd) = some f := hfd
      rw [wp_bind]
      -- `fileclose` comes before the slot is cleared
      refine wp_mono (fileclose_spec hw.mem (hw.files.drain hslot)) fun _ s2 hs2 => ?_
      obtain ⟨hm, hf, hproc, -, htotal⟩ := hs2
      rw [wp_bind, wp_clearFd]
      have hclear := hm.setFd p fd none
      have hslots : (s2.setFd p fd none).slot = update s1.slot (p, fd) none := by
        rw [Sys.slot_setFd, slot_congr hproc]
      have hw2 : Within s p [] (s2.setFd p fd none) := by
        refine ⟨hclear.1, ?_, ?_, fun q hq => ?_, hclear.2.trans (htotal.trans hw.total)⟩
        · rw [hslots]
          exact hf
        · rw [Sys.setFd_state, hproc]
          exact hw.live
        · rw [← hw.other q hq, ← hproc]
          exact update_of_ne hq _ _
      refine wp_mono (ih hw2) fun _ s3 hs3 => ⟨hs3.1, fun fd' hfd' => hs3.2 fd' ?_⟩
      rcases eq_or_ne fd' fd with rfl | hsame
      · rw [hslots, update_self]
        exact .inr rfl
      · rw [hslots, update_of_ne (fun he => hsame (congrArg Prod.snd he))]
        exact hfd'.imp_left fun hin => (mem_cons.mp hin).resolve_left hsame

/-- `exit`; the first process panics. -/
theorem exit_spec {status : Int} (h : Inv s) (hp : (s.proc p).state = .live) :
    wp (exit p status) s (fun _ s' => Inv s' ∧ s'.total = s.total) fun _ => True := by
  refine wp_ite (fun _ => trivial) fun _ => ?_
  rw [wp_bind]
  refine wp_imp ((Within.start h hp).closeFiles _) (fun _ s1 hs1 => ?_) fun _ _ => trivial
  obtain ⟨hw, hnone⟩ := hs1
  have hempty : ∀ fd, (s1.proc p).ofile fd = none := fun fd =>
    hnone fd (.inl (mem_finRange fd))
  unfold reparent
  rw [wp_bind, wp_modify, wp_modifyProc]
  dsimp only
  generalize hproc : update (fun q => if (s1.proc q).parent = some p then
    { s1.proc q with parent := some initproc } else s1.proc q) p _ = proc
  have hcases : ∀ q, (s1.proc q).SameSpace (proc q) ∧ (proc q).ofile = (s1.proc q).ofile ∧
      (q ≠ p → (proc q).state = (s1.proc q).state) := by
    intro q
    rw [← hproc]
    rcases eq_or_ne q p with rfl | hq
    · rw [update_self]
      split <;> exact ⟨⟨by simp [hw.live], rfl, rfl, rfl⟩, rfl, fun hne => absurd rfl hne⟩
    · rw [update_of_ne hq]
      split <;> exact ⟨⟨Iff.rfl, rfl, rfl, rfl⟩, rfl, fun _ => rfl⟩
  have hsame := hw.mem.sameSpace fun q => (hcases q).1
  have hslot : ({ s1 with proc := proc } : Sys).slot = s1.slot := by
    funext k
    exact congrFun (hcases k.1).2.1 k.2
  have hdone := (hw.done h).1
  refine ⟨⟨hsame.1, by rw [hslot]; exact hw.files, fun q hq => ?_, fun q hq => ?_⟩,
    hsame.2.trans hw.total⟩
  · rw [(hcases q).1.sz]
    exact hdone.idle q ((hcases q).1.unused.mp hq)
  · rw [(hcases q).2.1]
    by_cases hqp : q = p
    · rw [hqp]
      exact hempty
    · rw [(hcases q).2.2 hqp] at hq
      exact hdone.closed q hq

/-! ## The descriptors of a child -/

/-- The loop of `fork` over the descriptors changes the file table and the
descriptors of the child. -/
theorem dupFiles_spec (p np : Fin NPROC) (L : List (Fin NOFILE)) (hL : L.Nodup) : ∀ {s : Sys},
    Files s.file s.pipe s.slot [] → (∀ fd ∈ L, (s.proc np).ofile fd = none) →
    wp (dupFiles p np L) s
      (fun _ s' => Files s'.file s'.pipe s'.slot [] ∧ ∃ file ofile, s' = { s with
        file := file, proc := update s.proc np { s.proc np with ofile := ofile } })
      fun _ => False := by
  induction L with
  | nil =>
    intro s hf _
    exact ⟨hf, s.file, (s.proc np).ofile, by rw [update_eq_self]⟩
  | cons fd L ih =>
    intro s hf hnone
    have hnd := nodup_cons.mp hL
    unfold dupFiles
    rw [wp_bind, wp_getProc]
    cases hfd : (s.proc p).ofile fd with
    | none => exact ih hnd.2 hf fun fd' hin => hnone fd' (mem_cons_of_mem _ hin)
    | some f =>
      have hpos : 0 < (s.file f).ref := by
        rw [hf.ref]
        have : 0 < refCount s.slot f := refCount_pos (k := (p, fd)) hfd
        omega
      refine wp_seq (filedup_spec hf hpos) fun _ s1 hs1 => ?_
      obtain ⟨hf1, hs1⟩ := hs1
      have hproc1 : s1.proc = s.proc := by rw [hs1]
      have hempty : s.slot (np, fd) = none := hnone fd mem_cons_self
      have hfill : Files (s1.setFd np fd (some f)).file (s1.setFd np fd (some f)).pipe
          (s1.setFd np fd (some f)).slot [] := by
        rw [Sys.slot_setFd, slot_congr hproc1]
        exact hf1.fill hempty
      refine wp_mono (ih hnd.2 hfill fun fd' hin => ?_) fun _ s2 hs2 => ?_
      · have hslot : (s1.setFd np fd (some f)).slot (np, fd') = s.slot (np, fd') := by
          rw [Sys.slot_setFd, slot_congr hproc1]
          refine update_of_ne (fun he => ?_) _ _
          have hsame : fd' = fd := congrArg Prod.snd he
          exact hnd.1 (hsame ▸ hin)
        exact hslot.trans (hnone fd' (mem_cons_of_mem _ hin))
      · obtain ⟨hf2, file, ofile, hs2⟩ := hs2
        refine ⟨hf2, file, ofile, ?_⟩
        rw [hs2, hs1]
        dsimp only
        rw [update_idem, update_self]

end SummerOsk.Task
