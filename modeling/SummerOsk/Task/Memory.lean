import SummerOsk.Task.Descriptors

/-!
# `fork`, `sbrk` and `wait`

`allocproc` gives an unused slot a trapframe and a page table, `freeproc` takes
them back.  `proc_pagetable` ignores that its allocations can fail, so every
specification here asks for the pages it needs (`CanAllocproc`).

A call can lose pages: `proc_freepagetable` does not free the page table of a
process whose size is zero.  Each specification names the lost pages and says
when there are none.
-/

namespace SummerOsk.Task

open Lib Vm Function List

variable {s s' : Sys} {m m' : Mem} {p np : Fin NPROC} {A L : Set Nat} {x : Proc} {q tf pt sz : Nat}

theorem write_conserves (hfree : m.FreeList) (hA : ∀ r ∈ A, r ∉ m.free) (hq : q ∈ A)
    (x : Bytes) : Conserves m (m.setPage q x) A A := by
  refine ⟨⟨hfree.nodup, hfree.range, hfree.base⟩, rfl, fun _ => Iff.rfl, hA, fun r _ hr => ?_⟩
  exact m.page_setPage_of_ne x fun he => hr (by rwa [he])

theorem ne_zero_of_freeable (h : m.Freeable q) (hfree : m.FreeList) : q ≠ 0 := by
  have hbase := hfree.base
  unfold Mem.Freeable KERNBASE at *
  omega

theorem MemInv.trampoline_lt (h : MemInv s) : s.trampoline < 2 ^ 64 := by
  have h1 := h.trampoline
  have h2 := h.kend
  unfold PHYSTOP KERNBASE at h2
  omega

/-! ## `allocproc` and `freeproc` -/

/-- The memory that `allocproc` takes is there, or it fails before it takes
any. -/
def CanAllocproc (s : Sys) : Prop :=
  (∀ q, (s.proc q).state ≠ .unused) ∨ s.mem.free = [] ∨ 4 ≤ s.mem.free.length

instance (s : Sys) : Decidable (CanAllocproc s) := inferInstanceAs (Decidable (_ ∨ _ ∨ _))

/-- A trapframe and a page table of size zero were taken from the free list. -/
structure NewSpace (m m' : Mem) (trampoline tf pt : Nat) : Prop where
  space : Space m' pt 0 (procTop trampoline tf)
  conserves : Conserves m m' ∅ (insert tf (m'.holds pt 0))
  apart : tf ∉ m'.holds pt 0
  freeable : m'.Freeable tf
  count : m.free.length ≤ m'.free.length + 4

/-- The address space grows; the trapframe stays apart from it. -/
theorem NewSpace.grow {m0 : Mem} {trampoline : Nat} (h : NewSpace m0 m trampoline tf pt)
    (hc : Conserves m m' (m.holds pt 0) A) :
    Conserves m0 m' ∅ (insert tf A) ∧ tf ∉ A ∧ m'.Freeable tf := by
  have htf : tf ∉ m.free := h.conserves.apart tf (.inl rfl)
  have hwide := hc.widen (B := {tf}) (fun q hq => by rw [Set.mem_singleton_iff.mp hq]; exact htf)
    fun q hq => by rw [Set.mem_singleton_iff.mp hq]; exact h.apart
  rw [Set.union_singleton, Set.union_singleton] at hwide
  exact ⟨h.conserves.trans hwide, (hc.not_mem htf h.apart).2,
    (freeable_congr hc.kend tf).mpr h.freeable⟩

/-- `allocproc`. -/
theorem allocproc_spec (hfree : s.mem.FreeList) (htr : s.trampoline < 2 ^ 64)
    (hcan : CanAllocproc s) :
    wp allocproc s
      (fun r s' => (r = none ∧ s' = s) ∨ ∃ np tf pt m', r = some np ∧
        (s.proc np).state = .unused ∧ NewSpace s.mem m' s.trampoline tf pt ∧
        s' = { s with
          mem := m'
          proc := update s.proc np { s.proc np with tf := tf, pagetable := pt } })
      fun _ => False := by
  unfold allocproc
  rw [wp_bind, wp_get]
  cases hfind : (finRange NPROC).find? fun p => (s.proc p).state = .unused with
  | none => exact .inl ⟨rfl, rfl⟩
  | some np =>
    have hunused : (s.proc np).state = .unused := by simpa using find?_some hfind
    rw [wp_bind, wp_vm]
    refine wp_mono kalloc_spec fun r m1 hr => ?_
    rcases hr with ⟨rfl, -, rfl⟩ | ⟨tf, rfl, ht⟩
    · exact .inl ⟨rfl, rfl⟩
    have hcount : 4 ≤ s.mem.free.length := by
      rcases hcan with hused | hempty | hcount
      · exact absurd hunused (hused np)
      · rw [ht.free] at hempty
        cases hempty
      · exact hcount
    have hlen : s.mem.free.length = m1.free.length + 1 := by rw [ht.free, length_cons]
    have hfree1 := ht.freeList hfree
    have htf := ht.freeable hfree
    have hc1 : Conserves s.mem m1 ∅ {tf} := by
      have := ht.conserves (A := ∅) hfree fun _ hq => hq.elim
      rwa [insert_empty_eq] at this
    rw [wp_bind, wp_modifyProc, wp_bind, wp_vm]
    dsimp only
    refine wp_mono (procPagetable_spec hfree1 (by omega) htr htf.lt) fun pt m2 hr => ?_
    obtain ⟨hsp, hc2, hcount2⟩ := hr
    have htf1 : tf ∉ m1.free := hc1.apart tf rfl
    have hwide : Conserves m1 m2 {tf} (insert tf (m2.holds pt 0)) := by
      have := hc2.widen (B := {tf}) (fun q hq => by rw [Set.mem_singleton_iff.mp hq]; exact htf1)
        fun _ _ hq => hq.elim
      rwa [Set.empty_union, Set.union_singleton] at this
    refine .inr ⟨np, tf, pt, m2, rfl, hunused, ⟨hsp, hc1.trans hwide, ?_, ?_, by omega⟩, ?_⟩
    · exact (hc2.not_mem htf1 fun hq => hq.elim).2
    · exact (freeable_congr hc2.kend tf).mpr htf
    · dsimp only
      rw [update_self, update_idem]

/-- A process after `freeproc`. -/
def Proc.freed (pr : Proc) : Proc :=
  { pr with tf := 0, pagetable := 0, sz := 0, parent := none, xstate := 0, state := .unused }

/-- `freeproc` of a process with `n` pages mapped.  Without a size they are
lost. -/
theorem freeproc_spec (trampoline n : Nat)
    (hsp : Space s.mem (s.proc p).pagetable n (procTop trampoline (s.proc p).tf))
    (hn : (s.proc p).sz = 0 ∨ n = pages (s.proc p).sz) (hok : s.mem.Freeable (s.proc p).tf)
    (hfree : (s.proc p).tf ∉ s.mem.free)
    (htf : (s.proc p).tf ∉ s.mem.holds (s.proc p).pagetable n) :
    wp (freeproc p) s
      (fun _ s' => ∃ m' lost,
        Conserves s.mem m' (insert (s.proc p).tf (s.mem.holds (s.proc p).pagetable n)) lost ∧
        (0 < (s.proc p).sz → lost = ∅) ∧ ((s.proc p).sz = 0 → (s.proc p).pagetable ∈ lost) ∧
        s' = { s with mem := m', proc := update s.proc p (s.proc p).freed })
      fun _ => False := by
  have hlist := hsp.wf.free
  have hpt : (s.proc p).pagetable ≠ 0 := by
    refine ne_zero_of_freeable (hsp.tables _ ⟨[], by simp, rfl⟩) hlist
  unfold freeproc
  rw [wp_bind, wp_getProc, if_pos (ne_zero_of_freeable hok hlist), if_pos hpt]
  rw [wp_bind, wp_vm]
  refine kfree_spec (fun _ => ?_) fun hbad => hbad hok
  have hc1 : Conserves s.mem (s.mem.release (s.proc p).tf) {(s.proc p).tf} ∅ := by
    have := release_conserves (A := ∅) hlist hfree (fun hq => hq.elim) hok fun _ hq => hq.elim
    rwa [insert_empty_eq] at this
  obtain ⟨hsp1, hholds1⟩ := hsp.conserved hc1 fun q hq hin =>
    htf (by rwa [← Set.mem_singleton_iff.mp hin])
  rw [wp_bind, wp_vm]
  refine wp_mono (procFreepagetable_spec hsp1 hn) fun _ m' hr => ?_
  obtain ⟨lost, hc2, hlost, hzero⟩ := hr
  refine ⟨m', lost, ?_, hlost, hzero, rfl⟩
  rw [hholds1] at hc2
  exact (release_conserves hlist hfree htf hok fun q hq => hsp.not_free hq).trans hc2

/-! ## Slots of the process table -/

/-- The pages `L` are neither free nor in use any more. -/
def Loses (s s' : Sys) (L : Set Nat) : Prop := ∀ q, q ∈ s'.total ∨ q ∈ L ↔ q ∈ s.total

theorem Loses.of_eq {t : Sys} (h : Loses s s' L) (ht : t.total = s.total) : Loses t s' L := by
  intro q
  rw [ht]
  exact h q

theorem loses_empty (h : s'.total = s.total) : Loses s s' ∅ := by
  intro q
  rw [h, Set.mem_empty_iff_false, or_false]

theorem sameSpace_update {q : Fin NPROC} (hq : some q ≠ some p) :
    (s.proc q).SameSpace (update s.proc p x q) := by
  rw [update_of_ne (fun he => hq (congrArg some he))]
  exact Proc.SameSpace.refl _

/-- An unused slot gets an address space. -/
theorem MemInv.newSlot (h : MemInv s) (hun : (s.proc np).state = .unused) (hx : x.state ≠ .unused)
    (hsound : x.Sound m' s.trampoline) (hc : Conserves s.mem m' ∅ (x.pages m'))
    (file : Fin NFILE → File) :
    MemInv { s with mem := m', file := file, proc := update s.proc np x } ∧
      Loses s { s with mem := m', file := file, proc := update s.proc np x } ∅ := by
  have hnew : ({ s with mem := m', file := file, proc := update s.proc np x } : Sys).hold
      (some np) = x.pages m' := by
    have hx' : (update s.proc np x np).state ≠ .unused := by rwa [update_self]
    rw [Sys.hold_used hx']
    dsimp only
    rw [update_self]
  refine h.exchange _ (i := some np) ?_ (fun q hq => sameSpace_update hq) (fun _ => rfl) rfl
    fun q hq _ => ?_
  · rw [Sys.hold_unused hun, hnew, Set.union_empty]
    exact hc
  · cases hq
    dsimp only
    rw [update_self]
    exact hsound

section

variable (h : MemInv s) (hx : x.state = .unused) (hc : Conserves s.mem m' (s.hold (some np)) L)

include h hx hc

/-- A slot becomes unused. -/
theorem MemInv.dropSlot :
    MemInv { s with mem := m', proc := update s.proc np x } ∧
      Loses s { s with mem := m', proc := update s.proc np x } L := by
  have hx' : (update s.proc np x np).state = .unused := by rwa [update_self]
  refine h.exchange _ (i := some np) ?_ (fun q hq => sameSpace_update hq) (fun _ => rfl) rfl
    fun q hq hne => ?_
  · have hnew := Sys.hold_unused
      (s := { s with mem := m', proc := update s.proc np x }) hx'
    rw [hnew, Set.empty_union]
    exact hc
  · cases hq
    exact absurd hx' hne

/-- What a slot held and loses is in use by no other. -/
theorem MemInv.lost (hheld : q ∈ s.hold (some np)) (hq : q ∈ L) :
    q ∉ ({ s with mem := m', proc := update s.proc np x } : Sys).total := by
  rintro (hfree | ⟨i, hi⟩)
  · exact hc.apart q hq hfree
  · by_cases hnp : i = some np
    · have hx' : (update s.proc np x np).state = .unused := by rwa [update_self]
      have hnew := Sys.hold_unused
        (s := { s with mem := m', proc := update s.proc np x }) hx'
      rw [hnp, hnew] at hi
      exact hi
    · refine h.parted.apart (some np) i (Ne.symm hnp) q hheld ?_
      cases i with
      | none => exact hi
      | some p =>
        have hother := h.other { s with mem := m', proc := update s.proc np x } (p := p)
          stray_empty (by rw [Set.union_empty]; exact hc) (sameSpace_update hnp) rfl hnp
        rw [← hother.1]
        exact hi

end

/-- `freeproc` of a process without open files. -/
theorem Inv.freed (h : Inv s) (np : Fin NPROC) (m' : Mem)
    (hfiles : ∀ fd, (s.proc np).ofile fd = none) (hc : Conserves s.mem m' (s.hold (some np)) L) :
    Inv { s with mem := m', proc := update s.proc np (s.proc np).freed } ∧
      Loses s { s with mem := m', proc := update s.proc np (s.proc np).freed } L := by
  have hdrop := h.mem.dropSlot (x := (s.proc np).freed) rfl hc
  have hfile : ∀ q, (update s.proc np (s.proc np).freed q).ofile =
      (s.proc q).ofile := by
    intro q
    by_cases hq : q = np
    · rw [hq, update_self]
      rfl
    · rw [update_of_ne hq]
  have hslot : ({ s with mem := m', proc := update s.proc np (s.proc np).freed }
      : Sys).slot = s.slot := funext fun k => congrFun (hfile k.1) k.2
  refine ⟨⟨hdrop.1, by rw [hslot]; exact h.files, fun q hq => ?_, fun q hq fd => ?_⟩, hdrop.2⟩
  · dsimp only at hq ⊢
    by_cases hqn : q = np
    · rw [hqn, update_self]
      rfl
    · rw [update_of_ne hqn] at hq ⊢
      exact h.idle q hq
  · dsimp only at hq ⊢
    rw [hfile]
    by_cases hqn : q = np
    · rw [hqn]
      exact hfiles fd
    · rw [update_of_ne hqn] at hq
      exact h.closed q hq fd

/-! ## `wait` -/

/-- The child that `wait` finds. -/
def zombieChild (s : Sys) (p : Fin NPROC) : Option (Fin NPROC) :=
  (List.finRange NPROC).find? fun q => (s.proc q).parent = some p ∧ (s.proc q).state = .zombie

theorem zombieChild_zombie (h : zombieChild s p = some np) : (s.proc np).state = .zombie := by
  have := find?_some h
  simp only [decide_eq_true_eq] at this
  exact this.2

/-- The end of `wait`: the page table of a child whose size is zero is lost. -/
theorem reap_spec {s1 : Sys} {r : Int} (h : Inv s) (hw : Within s p [] s1)
    (hproc : s1.proc = s.proc) (hzombie : (s.proc np).state = .zombie) :
    wp (if r < 0 then return -1
      else do
        freeproc np
        return (np.val : Int)) s1
      (fun ret s' => (∃ L, Inv s' ∧ Loses s s' L ∧ ((ret ≠ -1 → 0 < (s.proc np).sz) → L = ∅)) ∧
        (¬ r < 0 → (s.proc np).sz = 0 → ∃ q ∈ s.total, q ∉ s'.total))
      fun _ => False := by
  have hdone := hw.done h
  refine wp_ite (fun hr => ?_) fun _ => ?_
  · exact ⟨⟨∅, hdone.1, loses_empty hdone.2, fun _ => rfl⟩, fun hne => absurd hr hne⟩
  have hused : (s1.proc np).state ≠ .unused := by
    rw [hproc, hzombie]
    decide
  have hsound := hdone.1.mem.sound np hused
  have hhold := Sys.hold_used hused
  have htf : (s1.proc np).tf ∈ s1.hold (some np) := by
    rw [hhold]
    exact .inl rfl
  have htf' := hdone.1.mem.parted.held (some np) _ htf
  refine wp_seq (freeproc_spec _ _ hsound.space (.inr rfl) htf'.1 htf'.2 hsound.tf) fun _ s2 hs2 =>
    ?_
  obtain ⟨m2, lost, hc, hlost, hzero, rfl⟩ := hs2
  have hfreed := hdone.1.freed np m2 (fun fd => hdone.1.closed np
    (by rw [hproc, hzombie]; decide) fd)
    (by rw [hhold]; exact hc)
  rw [hproc] at hlost hzero
  refine ⟨⟨lost, hfreed.1, hfreed.2.of_eq hdone.2.symm, fun hsz => hlost (hsz (by omega))⟩,
    fun _ hsz => ?_⟩
  have hroot : (s.proc np).pagetable ∈ s1.hold (some np) := by
    rw [hhold, ← hproc]
    exact .inr (Mem.holds_of_table ⟨[], by simp, rfl⟩)
  refine ⟨(s.proc np).pagetable, ?_, ?_⟩
  · rw [← hdone.2]
    exact .inr ⟨some np, hroot⟩
  · exact hdone.1.mem.lost rfl (by rw [hhold]; exact hc) hroot (hzero hsz)

/-- `wait`. -/
theorem wait_spec {addr : Nat} (h : Inv s) (hp : (s.proc p).state = .live) :
    wp (wait p addr) s
      (fun r s' => ∃ L, Inv s' ∧ Loses s s' L ∧
        ((∀ np, zombieChild s p = some np → r ≠ -1 → 0 < (s.proc np).sz) → L = ∅))
      fun _ => False := by
  unfold wait
  rw [wp_bind, wp_get, ← zombieChild]
  cases hfind : zombieChild s p with
  | none => exact ⟨∅, h, loses_empty rfl, fun _ => rfl⟩
  | some np =>
    have hzombie := zombieChild_zombie hfind
    have hw := Within.start h hp
    refine wp_ite (fun _ => ?_) fun _ => ?_
    · refine wp_mono (reap_spec (r := 0) h hw rfl hzombie) fun _ s' hs' => ?_
      obtain ⟨⟨L, hinv, hloses, hL⟩, -⟩ := hs'
      exact ⟨L, hinv, hloses, fun hsz => hL (hsz np rfl)⟩
    · refine wp_seq hw.copyout fun r s1 hs1 => ?_
      refine wp_mono (reap_spec h hs1.1 (by rw [hs1.2]) hzombie) fun _ s' hs' => ?_
      obtain ⟨⟨L, hinv, hloses, hL⟩, -⟩ := hs'
      exact ⟨L, hinv, hloses, fun hsz => hL (hsz np rfl)⟩

/-- `wait` without an address loses the page table of a child of size zero. -/
theorem wait_loses (h : Inv s) (hp : (s.proc p).state = .live)
    (hchild : zombieChild s p = some np) (hsz : (s.proc np).sz = 0) :
    wp (wait p 0) s (fun _ s' => ∃ q ∈ s.total, q ∉ s'.total) fun _ => False := by
  unfold wait
  rw [wp_bind, wp_get, ← zombieChild, hchild]
  refine wp_mono (reap_spec (r := 0) h (Within.start h hp) rfl (zombieChild_zombie hchild))
    fun _ s' hs' => hs'.2 (by decide) hsz

/-! ## `sbrk` -/

/-- A size whose pages fit into the memory fits into a `uint`. -/
theorem lt_of_pages_le (h : pages sz ≤ NPAGES) : sz < 2 ^ 32 := by
  unfold pages NPAGES PHYSTOP KERNBASE PGSIZE at h
  omega

/-- A change of memory, files and one slot, whose process is then alive. -/
theorem Inv.of_live (h : Inv s) {file : Fin NFILE → File} (hx : x.state = .live)
    (hmem : MemInv { s with mem := m', file := file, proc := update s.proc p x })
    (hf : Files file s.pipe
      ({ s with mem := m', file := file, proc := update s.proc p x } : Sys).slot []) :
    Inv { s with mem := m', file := file, proc := update s.proc p x } := by
  have hother : ∀ q, (update s.proc p x q).state ≠ .live → update s.proc p x q = s.proc q := by
    intro q hq
    refine update_of_ne (fun he => hq ?_) _ _
    rw [he, update_self, hx]
  refine ⟨hmem, hf, fun q hq => ?_, fun q hq => ?_⟩
  · dsimp only at hq ⊢
    have hsame := hother q (by rw [hq]; decide)
    rw [hsame] at hq ⊢
    exact h.idle q hq
  · dsimp only at hq ⊢
    have hsame := hother q hq
    rw [hsame] at hq ⊢
    exact h.closed q hq

/-- The calling process gets another address space. -/
theorem Inv.respace (h : Inv s) (hp : (s.proc p).state = .live) (hx : x.state = .live)
    (hfile : x.ofile = (s.proc p).ofile) (hsound : x.Sound m' s.trampoline)
    (hc : Conserves s.mem m' ((s.proc p).pages s.mem) (x.pages m' ∪ L)) :
    Inv { s with mem := m', proc := update s.proc p x } ∧
      Loses s { s with mem := m', proc := update s.proc p x } L := by
  have hstep := h.mem.respace (by rw [hp]; decide) (by rw [hx]; decide) hsound hc
  have hslot : ({ s with mem := m', proc := update s.proc p x } : Sys).slot = s.slot := by
    funext k
    unfold Sys.slot
    dsimp only
    by_cases hk : k.1 = p
    · rw [hk, update_self, hfile]
    · rw [update_of_ne hk]
  exact ⟨h.of_live hx hstep.1 (by rw [hslot]; exact h.files), hstep.2⟩

/-- The calling process gets another size. -/
theorem Inv.resize (h : Inv s) (hp : (s.proc p).state = .live)
    (hsp : Space m' (s.proc p).pagetable (pages sz) (procTop s.trampoline (s.proc p).tf))
    (hc : Conserves s.mem m' (s.mem.holds (s.proc p).pagetable (pages (s.proc p).sz))
      (m'.holds (s.proc p).pagetable (pages sz))) :
    Inv { s with mem := m', proc := update s.proc p { s.proc p with sz := sz } } ∧
      Loses s { s with mem := m', proc := update s.proc p { s.proc p with sz := sz } } ∅ := by
  have hwith := h.mem.withTf (x := { s.proc p with sz := sz }) (by rw [hp]; decide) rfl hsp hc
  refine h.respace hp hp rfl hwith.1 ?_
  rw [Set.union_empty]
  exact hwith.2

/-- The stray pages `B` go to the free list, and the pages `L` of the free list
become stray. -/
theorem Inv.pool {B : Set Nat} (h : Inv s) (hB : Stray s.mem s.hold B)
    (hc : Conserves s.mem m' B L) :
    Inv { s with mem := m' } ∧
      (∀ q, q ∈ ({ s with mem := m' } : Sys).total ∨ q ∈ L ↔ q ∈ s.total ∨ q ∈ B) ∧
      ∀ q ∈ L, q ∉ ({ s with mem := m' } : Sys).total := by
  have hwide : Conserves s.mem m' (s.hold none ∪ B) (s.hold none ∪ L) := by
    rw [Set.union_comm, Set.union_comm _ L]
    exact hc.widen (fun q hq => (h.mem.parted.held none q hq).2) fun q hq hin =>
      (hB q hin).2 none hq
  have hstep := h.mem.step { s with mem := m' } (i := none) (L := L) hB hwide
    (fun q _ => Proc.SameSpace.refl _) (fun hne => absurd rfl hne) rfl fun q hq => by cases hq
  have hhold : ∀ j, ({ s with mem := m' } : Sys).hold j = s.hold j
    | none => rfl
    | some q => (h.mem.other { s with mem := m' } hB hwide (Proc.SameSpace.refl _) rfl
        (by simp)).1
  refine ⟨⟨hstep.1, h.files, h.idle, h.closed⟩, hstep.2, fun q hq hin => ?_⟩
  rcases hin with hfree | ⟨j, hj⟩
  · exact hc.apart q hq hfree
  · rw [hhold] at hj
    exact (hc.not_mem (h.mem.parted.held j q hj).2 fun hin => (hB q hin).2 j hj).2 hq

/-- `growproc`. -/
theorem growproc_spec {n : Int} (h : Inv s) (hp : (s.proc p).state = .live) :
    wp (growproc p n) s (fun _ s' => Inv s' ∧ Loses s s' ∅) fun _ => False := by
  have hused : (s.proc p).state ≠ .unused := by
    rw [hp]
    decide
  have hsp := (h.mem.sound p hused).space
  have hsz : (s.proc p).sz % 2 ^ 32 = (s.proc p).sz :=
    Nat.mod_eq_of_lt (lt_of_pages_le hsp.le_npages)
  have hkeep : ∀ m', Space m' (s.proc p).pagetable (pages (s.proc p).sz)
        (procTop s.trampoline (s.proc p).tf) →
      Conserves s.mem m' (s.mem.holds (s.proc p).pagetable (pages (s.proc p).sz))
        (m'.holds (s.proc p).pagetable (pages (s.proc p).sz)) →
      Inv { s with mem := m' } ∧ Loses s { s with mem := m' } ∅ := by
    intro m' hsp' hc'
    have hresize := h.resize hp hsp' hc'
    rwa [update_eq_self] at hresize
  unfold growproc
  rw [wp_bind, wp_getProc]
  dsimp only
  rw [hsz]
  generalize (((s.proc p).sz + n) % (2 ^ 32 : Nat) : Int).toNat = newsz
  refine wp_ite (fun _ => ?_) fun _ => wp_ite (fun _ => ?_) fun _ => ?_
  · rw [wp_bind, wp_vm]
    by_cases hle : (s.proc p).sz ≤ newsz
    · refine wp_mono (hsp.uvmalloc hle) fun r m' hr => ?_
      rcases hr with ⟨rfl, hsp', hc', -⟩ | ⟨rfl, hsp', hc', -⟩
      · have hr : r % 2 ^ 32 = r := Nat.mod_eq_of_lt (lt_of_pages_le hsp'.le_npages)
        rw [hr]
        refine wp_ite (fun hzero => ?_) fun _ => ?_
        · have hold : (s.proc p).sz = r := by omega
          rw [hold] at hkeep hc'
          exact hkeep m' hsp' hc'
        · exact h.resize hp hsp' hc'
      · exact hkeep m' hsp' hc'
    · -- the sum wrapped around
      unfold uvmalloc
      rw [if_pos (by omega), wp_pure, hsz]
      refine wp_ite (fun _ => ⟨h, loses_empty rfl⟩) fun _ => ?_
      exact h.resize hp hsp hsp.conserves_refl
  · rw [wp_bind, wp_vm]
    refine wp_mono (hsp.uvmdealloc newsz) fun r m' hr => ?_
    obtain ⟨-, hsp', hc', -⟩ := hr
    have hr : r % 2 ^ 32 = r := Nat.mod_eq_of_lt (lt_of_pages_le hsp'.le_npages)
    rw [hr]
    exact h.resize hp hsp' hc'
  · exact h.resize hp hsp hsp.conserves_refl

/-! ## `fork` -/

/-- The pages for a copy of `p` are there, or `fork` fails before it takes
any. -/
def CanFork (s : Sys) (p : Fin NPROC) : Prop :=
  (∀ q, (s.proc q).state ≠ .unused) ∨ s.mem.free = [] ∨
    4 + growth 0 (pages (s.proc p).sz) ≤ s.mem.free.length

instance (s : Sys) (p : Fin NPROC) : Decidable (CanFork s p) :=
  inferInstanceAs (Decidable (_ ∨ _ ∨ _))

theorem CanFork.allocproc (h : CanFork s p) : CanAllocproc s :=
  h.imp_right fun h => h.imp_right fun h => by omega

/-- The copy of the address space of `p` for a child. -/
theorem NewSpace.copy (hm : MemInv s) (hp : (s.proc p).state ≠ .unused)
    (hnew : NewSpace s.mem m s.trampoline tf pt) :
    wp (uvmcopy (s.proc p).pagetable pt (s.proc p).sz) m
      (fun r m' => m'.Freeable tf ∧
        (r = 0 ∧ Space m' pt (pages (s.proc p).sz) (procTop s.trampoline tf) ∧
          Conserves s.mem m' ∅ (insert tf (m'.holds pt (pages (s.proc p).sz))) ∧
          tf ∉ m'.holds pt (pages (s.proc p).sz) ∨
        r = -1 ∧ Space m' pt 0 (procTop s.trampoline tf) ∧
          Conserves s.mem m' ∅ (insert tf (m'.holds pt 0)) ∧ tf ∉ m'.holds pt 0 ∧
          s.mem.free.length < 4 + growth 0 (pages (s.proc p).sz)))
      fun _ => True := by
  have hsp := (hm.sound p hp).space
  obtain ⟨hsp1, hholds1⟩ := hsp.conserved hnew.conserves fun _ _ hq => hq
  have hapart : Apart (m.holds (s.proc p).pagetable (pages (s.proc p).sz)) (m.holds pt 0) := by
    intro q hq hin
    rw [hholds1] at hq
    exact (hnew.conserves.not_mem (hsp.not_free hq) fun hq => hq).2 (.inr hin)
  have hcount := hnew.count
  refine wp_imp (uvmcopy_spec hsp1 hnew.space hapart) (fun r m' hr => ?_) fun _ _ => trivial
  rcases hr with ⟨rfl, hsp', hc', -, -⟩ | ⟨rfl, hsp', hc', hless⟩
  · obtain ⟨hall, hapart', hfree'⟩ := hnew.grow hc'
    exact ⟨hfree', .inl ⟨rfl, hsp', hall, hapart'⟩⟩
  · obtain ⟨hall, hapart', hfree'⟩ := hnew.grow hc'
    exact ⟨hfree', .inr ⟨rfl, hsp', hall, hapart', by omega⟩⟩

/-- The state with a child in the slot `np`. -/
theorem Inv.child {file : Fin NFILE → File} (h : Inv s)
    (hun : (s.proc np).state = .unused) (hx : x.state = .live)
    (hsound : x.Sound m' s.trampoline) (hc : Conserves s.mem m' ∅ (x.pages m'))
    (hf : Files file s.pipe
      ({ s with mem := m', file := file, proc := update s.proc np x } : Sys).slot []) :
    Inv { s with mem := m', file := file, proc := update s.proc np x } ∧
      Loses s { s with mem := m', file := file, proc := update s.proc np x } ∅ := by
  have hnew := h.mem.newSlot hun (by rw [hx]; decide) hsound hc file
  exact ⟨h.of_live hx hnew.1 hf, hnew.2⟩

/-- The end of `fork`: the child gets the descriptors of its parent. -/
theorem Inv.dupChild (h : Inv s) (p np : Fin NPROC) (m' : Mem) (npr : Proc)
    (hun : (s.proc np).state = .unused) (hfile : npr.ofile = (s.proc np).ofile)
    (hsound : npr.Sound m' s.trampoline) (hc : Conserves s.mem m' ∅ (npr.pages m')) :
    wp (do
        dupFiles p np (finRange NOFILE)
        modifyProc np fun npr => { npr with state := .live }
        return (np.val : Int))
      { s with mem := m', proc := update s.proc np npr }
      (fun _ s' => Inv s' ∧ Loses s s' ∅) fun _ => False := by
  have hslot : ({ s with mem := m', proc := update s.proc np npr } : Sys).slot =
      s.slot := by
    funext k
    unfold Sys.slot
    dsimp only
    by_cases hk : k.1 = np
    · rw [hk, update_self, hfile]
    · rw [update_of_ne hk]
  have hdup := dupFiles_spec p np (finRange NOFILE) (nodup_finRange _)
    (s := { s with mem := m', proc := update s.proc np npr }) (by
      rw [hslot]
      exact h.files) fun fd _ => by
      dsimp only
      rw [update_self, hfile]
      exact h.closed np (by rw [hun]; decide) fd
  refine wp_seq hdup fun _ s1 hs1 => ?_
  obtain ⟨hf1, file, ofile, rfl⟩ := hs1
  rw [wp_bind, wp_modifyProc, wp_pure]
  dsimp only at hf1 ⊢
  rw [update_idem, update_self, update_idem, update_self]
  rw [update_idem, update_self] at hf1
  refine h.child (x := { npr with ofile := ofile, state := .live }) hun rfl
    ⟨hsound.space, hsound.tf⟩ hc ?_
  have hslot1 : ∀ x : Proc, x.ofile = ofile →
      ({ s with mem := m', file := file, proc := update s.proc np x } : Sys).slot =
        fun k => if k.1 = np then ofile k.2 else (s.proc k.1).ofile k.2 := by
    intro x hx
    funext k
    unfold Sys.slot
    dsimp only
    by_cases hk : k.1 = np
    · rw [hk, update_self, if_pos rfl, hx]
    · rw [update_of_ne hk, if_neg hk]
  rw [hslot1 _ rfl]
  rw [hslot1 _ rfl] at hf1
  exact hf1

/-- `fork` loses a page table and a trapframe when the copy fails. -/
theorem fork_spec (h : Inv s) (hp : (s.proc p).state = .live) (hcan : CanAllocproc s) :
    wp (fork p) s
      (fun _ s' => ∃ L, Inv s' ∧ Loses s s' L ∧ (CanFork s p → L = ∅))
      fun _ => True := by
  have hused : (s.proc p).state ≠ .unused := by
    rw [hp]
    decide
  unfold fork
  rw [wp_bind]
  refine wp_imp (allocproc_spec h.mem.parted.free h.mem.trampoline_lt hcan) (fun r s1 hr => ?_)
    fun _ hf => hf.elim
  rcases hr with ⟨rfl, rfl⟩ | ⟨np, tf, pt, m1, rfl, hun, hnew, rfl⟩
  · exact ⟨∅, h, loses_empty rfl, fun _ => rfl⟩
  have hne : p ≠ np := by
    rintro rfl
    exact hused hun
  rw [wp_bind, wp_getProc, wp_bind, wp_getProc, wp_bind, wp_vm]
  dsimp only
  rw [update_of_ne hne, update_self]
  refine wp_mono (hnew.copy h.mem hused) fun r m2 hr => ?_
  obtain ⟨htf2, hr⟩ := hr
  rcases hr with ⟨rfl, hsp2, hc2, hapart2⟩ | ⟨rfl, hsp2, hc2, hapart2, hless⟩
  · rw [if_neg (by decide), wp_bind, wp_modifyProc, wp_bind, wp_vm, wp_modify]
    dsimp only
    rw [update_self, update_idem]
    generalize hm3 : m2.setPage tf _ = m3
    have hheld : ∀ q ∈ insert tf (m2.holds pt (pages (s.proc p).sz)), q ∉ m2.free := hc2.apart
    have hwrite : Conserves m2 m3 {tf} {tf} := by
      rw [← hm3]
      exact write_conserves hsp2.wf.free (fun q hq => hheld q (.inl hq)) rfl _
    obtain ⟨hsp3, hholds3⟩ := hsp2.conserved hwrite fun q hq hin =>
      hapart2 (by rwa [← Set.mem_singleton_iff.mp hin])
    have hc3 : Conserves s.mem m3 ∅ (insert tf (m3.holds pt (pages (s.proc p).sz))) := by
      rw [hholds3]
      refine hc2.trans ?_
      rw [← hm3]
      exact write_conserves hsp2.wf.free hheld (.inl rfl) _
    have hdup := h.dupChild p np m3 { s.proc np with
      tf := tf, pagetable := pt, sz := (s.proc p).sz, parent := some p } hun rfl
      ⟨hsp3, by rw [hholds3]; exact hapart2⟩ hc3
    refine wp_imp hdup (fun _ s' hs' => ?_) fun _ hf => hf.elim
    exact ⟨∅, hs'.1, hs'.2, fun _ => rfl⟩
  · rw [if_pos (by decide), wp_bind]
    have hsz : (s.proc np).sz = 0 := h.idle np hun
    have hfreeproc := freeproc_spec s.trampoline 0 (p := np) (s := { s with
      mem := m2
      proc := update s.proc np { s.proc np with tf := tf, pagetable := pt } })
    dsimp only at hfreeproc
    rw [update_self] at hfreeproc
    refine wp_imp (hfreeproc hsp2 (.inl hsz) htf2 (hc2.apart tf (.inl rfl)) hapart2)
      (fun _ s3 hs3 => ?_) fun _ hf => hf.elim
    obtain ⟨m3, lost, hc3, -, -, rfl⟩ := hs3
    rw [update_idem, wp_pure]
    have hfreed := h.freed np m3 (L := lost)
      (h.closed np (by rw [hun]; decide)) (by rw [Sys.hold_unused hun]; exact hc2.trans hc3)
    refine ⟨lost, hfreed.1, hfreed.2, fun hfork => ?_⟩
    have htaken : tf ∈ s.mem.free :=
      ((hnew.conserves.same tf).mp (.inr (.inl rfl))).resolve_right fun hq => hq
    rcases hfork with hall | hempty | hcount
    · exact absurd hun (hall np)
    · rw [hempty] at htaken
      cases htaken
    · omega

end SummerOsk.Task
