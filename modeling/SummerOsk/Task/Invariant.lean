import SummerOsk.Task.Defs
import SummerOsk.Vm.User
import SummerOsk.Lib.RefCount

/-!
# The invariant of processes and their memory

Every page that the allocator manages is free, held by one process, the buffer
of one pipe, or lost.  `Parted` is the part of this that is always true: no page
is held twice, and no page that is held is free.

`MemInv` says so for the pages of a system state and says what the page tables
of the processes map.  `Files` is the invariant of the file table and the pipes,
with a list of references that are held by the kernel in the middle of a call.
-/

namespace SummerOsk.Task

open Lib Vm Function

/-! ## Pages in parts -/

/-- The sets `H i` are disjoint from each other and from the free list. -/
structure Parted {ι : Type} (m : Mem) (H : ι → Set Nat) : Prop where
  free : m.FreeList
  held : ∀ i, ∀ p ∈ H i, m.Freeable p ∧ p ∉ m.free
  apart : ∀ i j, i ≠ j → Apart (H i) (H j)

section Parted

variable {ι : Type} {m m' : Mem} {H : ι → Set Nat} {i : ι} {A B L : Set Nat}

theorem freeable_congr (hkend : m'.kend = m.kend) (p : Nat) : m'.Freeable p ↔ m.Freeable p := by
  unfold Mem.Freeable
  rw [hkend]

/-- Pages that are in no part. -/
def Stray (m : Mem) (H : ι → Set Nat) (B : Set Nat) : Prop :=
  ∀ p ∈ B, m.Freeable p ∧ ∀ j, p ∉ H j

theorem stray_empty : Stray m H ∅ := fun _ hp => hp.elim

/-- One part exchanges pages with the free list, the stray pages `B` come back
and the pages `L` are lost. -/
theorem Parted.update [DecidableEq ι] (h : Parted m H) (hB : Stray m H B)
    (hc : Conserves m m' (H i ∪ B) (A ∪ L)) : Parted m' (update H i A) := by
  have hnew : ∀ p ∈ A, m'.Freeable p ∧ p ∉ m'.free := by
    intro p hp
    refine ⟨(freeable_congr hc.kend p).mpr ?_, hc.apart p (.inl hp)⟩
    rcases (hc.same p).mp (.inr (.inl hp)) with hfree | hheld | hstray
    · exact h.free.range p hfree
    · exact (h.held i p hheld).1
    · exact (hB p hstray).1
  have hother : ∀ j, j ≠ i → ∀ p ∈ H j, p ∉ m'.free ∧ p ∉ A := by
    intro j hj p hp
    have hno := hc.not_mem (h.held j p hp).2 fun hin => hin.elim (h.apart j i hj p hp)
      fun hstray => (hB p hstray).2 j hp
    exact ⟨hno.1, fun hA => hno.2 (.inl hA)⟩
  refine ⟨hc.free, fun j p hp => ?_, fun j k hjk p hp => ?_⟩
  · rcases eq_or_ne j i with rfl | hj
    · rw [update_self] at hp
      exact hnew p hp
    · rw [update_of_ne hj] at hp
      exact ⟨(freeable_congr hc.kend p).mpr (h.held j p hp).1, (hother j hj p hp).1⟩
  · rcases eq_or_ne j i with rfl | hj
    · rw [update_self] at hp
      rw [update_of_ne (Ne.symm hjk)]
      exact fun hk => (hother k (Ne.symm hjk) p hk).2 hp
    · rw [update_of_ne hj] at hp
      rcases eq_or_ne k i with rfl | hk
      · rw [update_self]
        exact (hother j hj p hp).2
      · rw [update_of_ne hk]
        exact h.apart j k hjk p hp

theorem exists_mem_iff [DecidableEq ι] (i : ι) (p : Nat) :
    (∃ j, p ∈ H j) ↔ p ∈ H i ∨ ∃ j, j ≠ i ∧ p ∈ H j := by
  constructor
  · rintro ⟨j, hj⟩
    by_cases hji : j = i
    · exact .inl (hji ▸ hj)
    · exact .inr ⟨j, hji, hj⟩
  · rintro (hi | ⟨j, -, hj⟩)
    · exact ⟨i, hi⟩
    · exact ⟨j, hj⟩

/-- What one part gains, another or the free list has lost. -/
theorem Parted.total [DecidableEq ι] (hc : Conserves m m' (H i ∪ B) (A ∪ L)) (p : Nat) :
    (p ∈ m'.free ∨ ∃ j, p ∈ Function.update H i A j) ∨ p ∈ L ↔
      (p ∈ m.free ∨ ∃ j, p ∈ H j) ∨ p ∈ B := by
  have hsame := hc.same p
  rw [Set.mem_union, Set.mem_union] at hsame
  have hrest : (∃ j, j ≠ i ∧ p ∈ Function.update H i A j) ↔ ∃ j, j ≠ i ∧ p ∈ H j :=
    exists_congr fun j => and_congr_right fun hj => by rw [update_of_ne hj]
  rw [exists_mem_iff i p, exists_mem_iff i p, update_self, hrest]
  generalize (∃ j, j ≠ i ∧ p ∈ H j) = rest
  tauto

end Parted

/-! ## The memory of the processes -/

/-- The pages of one process: its trapframe, its tables and its user pages. -/
def Proc.pages (pr : Proc) (m : Mem) : Set Nat :=
  insert pr.tf (m.holds pr.pagetable (Vm.pages pr.sz))

/-- The pages that a process holds, and the buffers of the pipes. -/
def Sys.hold (s : Sys) : Option (Fin NPROC) → Set Nat
  | some p => if (s.proc p).state = .unused then ∅ else (s.proc p).pages s.mem
  | none => {q | (s.pipe q).readopen = true ∨ (s.pipe q).writeopen = true}

/-- The pages that are free or in use. -/
def Sys.total (s : Sys) : Set Nat := {p | p ∈ s.mem.free ∨ ∃ i, p ∈ s.hold i}

/-- The address space of a process, with its trapframe apart from it. -/
structure Proc.Sound (pr : Proc) (m : Mem) (trampoline : Nat) : Prop where
  space : Space m pr.pagetable (Vm.pages pr.sz) (procTop trampoline pr.tf)
  tf : pr.tf ∉ m.holds pr.pagetable (Vm.pages pr.sz)

/-- No page is in two places, and every process maps the pages of its size. -/
structure MemInv (s : Sys) : Prop where
  parted : Parted s.mem s.hold
  sound : ∀ p, (s.proc p).state ≠ .unused → (s.proc p).Sound s.mem s.trampoline
  trampoline : s.trampoline < s.mem.kend
  kend : s.mem.kend ≤ PHYSTOP

/-- Two versions of a process have the same memory. -/
structure Proc.SameSpace (pr pr' : Proc) : Prop where
  unused : pr'.state = .unused ↔ pr.state = .unused
  sz : pr'.sz = pr.sz
  pagetable : pr'.pagetable = pr.pagetable
  tf : pr'.tf = pr.tf

theorem Proc.SameSpace.refl (pr : Proc) : pr.SameSpace pr := ⟨Iff.rfl, rfl, rfl, rfl⟩

section Step

variable {s s' : Sys} {p : Fin NPROC} {i : Option (Fin NPROC)} {L : Set Nat} {m' : Mem} {x : Proc}

theorem Sys.hold_unused (h : (s.proc p).state = .unused) : s.hold (some p) = ∅ := if_pos h

theorem Sys.hold_used (h : (s.proc p).state ≠ .unused) :
    s.hold (some p) = (s.proc p).pages s.mem := if_neg h

/-- A process keeps its memory while others change theirs. -/
theorem MemInv.other (h : MemInv s) (s' : Sys) {A B : Set Nat} (hB : Stray s.mem s.hold B)
    (hc : Conserves s.mem s'.mem (s.hold i ∪ B) A) (hsame : (s.proc p).SameSpace (s'.proc p))
    (htr : s'.trampoline = s.trampoline) (hi : some p ≠ i) :
    s'.hold (some p) = s.hold (some p) ∧
      ((s'.proc p).state ≠ .unused → (s'.proc p).Sound s'.mem s'.trampoline) := by
  by_cases hun : (s.proc p).state = .unused
  · have hun' := hsame.unused.mpr hun
    rw [Sys.hold_unused hun, Sys.hold_unused hun']
    exact ⟨rfl, fun hne => absurd hun' hne⟩
  · have hsp := h.sound p hun
    have hapart : ∀ q ∈ s.mem.holds (s.proc p).pagetable (Vm.pages (s.proc p).sz),
        q ∉ s.hold i ∪ B := by
      intro q hq
      have hheld : q ∈ s.hold (some p) := by
        rw [Sys.hold_used hun]
        exact .inr hq
      rintro (hin | hin)
      · exact h.parted.apart (some p) i hi q hheld hin
      · exact (hB q hin).2 (some p) hheld
    obtain ⟨hspace, hholds⟩ := hsp.space.conserved hc hapart
    have hun' : (s'.proc p).state ≠ .unused := fun hu => hun (hsame.unused.mp hu)
    rw [Sys.hold_used hun, Sys.hold_used hun']
    unfold Proc.pages
    rw [hsame.sz, hsame.pagetable, hsame.tf, hholds]
    refine ⟨rfl, fun _ => ⟨?_, ?_⟩⟩
    · rw [hsame.sz, hsame.pagetable, hsame.tf, htr]
      exact hspace
    · rw [hsame.sz, hsame.pagetable, hsame.tf, hholds]
      exact hsp.tf

/-- One process or the pipes exchange pages with the free list, the stray pages
`B` come back, and the pages `L` are lost. -/
theorem MemInv.step {B : Set Nat} (h : MemInv s) (s' : Sys)
    (hB : Stray s.mem s.hold B)
    (hc : Conserves s.mem s'.mem (s.hold i ∪ B) (s'.hold i ∪ L))
    (hsame : ∀ p, some p ≠ i → (s.proc p).SameSpace (s'.proc p))
    (hpipe : i ≠ none → s'.pipe = s.pipe) (htr : s'.trampoline = s.trampoline)
    (hi : ∀ p, i = some p → (s'.proc p).state ≠ .unused →
      (s'.proc p).Sound s'.mem s'.trampoline) :
    MemInv s' ∧ ∀ q, q ∈ s'.total ∨ q ∈ L ↔ q ∈ s.total ∨ q ∈ B := by
  have hhold : s'.hold = update s.hold i (s'.hold i) := by
    funext j
    by_cases hj : j = i
    · rw [hj, update_self]
    · rw [update_of_ne hj]
      cases j with
      | none =>
        unfold Sys.hold
        rw [hpipe (Ne.symm hj)]
      | some p => exact (h.other s' hB hc (hsame p hj) htr hj).1
  refine ⟨⟨?_, fun p hp => ?_, ?_, hc.kend ▸ h.kend⟩, fun q => ?_⟩
  · rw [hhold]
    exact h.parted.update hB hc
  · by_cases hpi : some p = i
    · exact hi p hpi.symm hp
    · exact (h.other s' hB hc (hsame p hpi) htr hpi).2 hp
  · rw [htr, hc.kend]
    exact h.trampoline
  · unfold Sys.total
    rw [hhold]
    exact Parted.total hc q

/-- `MemInv.step` without stray pages. -/
theorem MemInv.exchange (h : MemInv s) (s' : Sys)
    (hc : Conserves s.mem s'.mem (s.hold i) (s'.hold i ∪ L))
    (hsame : ∀ p, some p ≠ i → (s.proc p).SameSpace (s'.proc p))
    (hpipe : i ≠ none → s'.pipe = s.pipe) (htr : s'.trampoline = s.trampoline)
    (hi : ∀ p, i = some p → (s'.proc p).state ≠ .unused →
      (s'.proc p).Sound s'.mem s'.trampoline) :
    MemInv s' ∧ ∀ q, q ∈ s'.total ∨ q ∈ L ↔ q ∈ s.total := by
  have hstep := h.step s' (B := ∅) stray_empty (by rwa [Set.union_empty]) hsame hpipe htr hi
  refine ⟨hstep.1, fun q => (hstep.2 q).trans ?_⟩
  rw [Set.mem_empty_iff_false, or_false]

/-- The fields of a process that are not about its memory may change. -/
theorem MemInv.sameSpace (h : MemInv s) {proc : Fin NPROC → Proc}
    (hsame : ∀ p, (s.proc p).SameSpace (proc p)) :
    MemInv { s with proc := proc } ∧ ({ s with proc := proc } : Sys).total = s.total := by
  have hc : Conserves s.mem s.mem (s.hold none) (s.hold none ∪ ∅) := by
    rw [Set.union_empty]
    exact Conserves.refl h.parted.free fun q hq => (h.parted.held none q hq).2
  have hstep := h.exchange { s with proc := proc } (i := none) hc (fun p _ => hsame p)
    (fun hne => absurd rfl hne) rfl fun p hp => by cases hp
  refine ⟨hstep.1, Set.ext fun q => ?_⟩
  rw [← hstep.2 q, Set.mem_empty_iff_false, or_false]

section

variable (h : MemInv s) (hp : (s.proc p).state ≠ .unused)

include h hp

/-- A process gets another address space, and the pages `L` of the old one are
lost. -/
theorem MemInv.respace (hx : x.state ≠ .unused) (hsound : x.Sound m' s.trampoline)
    (hc : Conserves s.mem m' ((s.proc p).pages s.mem) (x.pages m' ∪ L)) :
    MemInv { s with mem := m', proc := update s.proc p x } ∧
      ∀ q, q ∈ ({ s with mem := m', proc := update s.proc p x } : Sys).total ∨ q ∈ L ↔
        q ∈ s.total := by
  have hnew : ({ s with mem := m', proc := update s.proc p x } : Sys).hold (some p) =
      x.pages m' := by
    have hx' : (update s.proc p x p).state ≠ .unused := by rwa [update_self]
    rw [Sys.hold_used hx']
    dsimp only
    rw [update_self]
  refine h.exchange _ (i := some p) ?_ (fun q hq => ?_) (fun _ => rfl) rfl fun q hq _ => ?_
  · rw [Sys.hold_used hp, hnew]
    exact hc
  · have hqp : q ≠ p := fun he => hq (congrArg some he)
    dsimp only
    rw [update_of_ne hqp]
    exact Proc.SameSpace.refl _
  · have hqp : q = p := (Option.some.inj hq).symm
    subst hqp
    dsimp only
    rw [update_self]
    exact hsound

/-- The pages of the address space change and the trapframe stays. -/
theorem MemInv.withTf (htf : x.tf = (s.proc p).tf)
    (hsp : Space m' x.pagetable (Vm.pages x.sz) (procTop s.trampoline x.tf))
    (hc : Conserves s.mem m' (s.mem.holds (s.proc p).pagetable (Vm.pages (s.proc p).sz))
      (m'.holds x.pagetable (Vm.pages x.sz))) :
    x.Sound m' s.trampoline ∧ Conserves s.mem m' ((s.proc p).pages s.mem) (x.pages m') := by
  have hsound := h.sound p hp
  have hfree : (s.proc p).tf ∉ s.mem.free := by
    refine (h.parted.held (some p) _ ?_).2
    rw [Sys.hold_used hp]
    exact .inl rfl
  have hone : ∀ q ∈ ({(s.proc p).tf} : Set Nat), q = (s.proc p).tf := fun q hq => hq
  have hwide := hc.widen (B := {(s.proc p).tf}) (fun q hq => by rw [hone q hq]; exact hfree)
    fun q hq => by rw [hone q hq]; exact hsound.tf
  rw [Set.union_singleton, Set.union_singleton, ← htf] at hwide
  refine ⟨⟨hsp, ?_⟩, ?_⟩
  · rw [htf]
    exact (hc.not_mem hfree hsound.tf).2
  · unfold Proc.pages
    rw [← htf]
    exact hwide

/-- `MemInv.respace` for a process whose table entry stays. -/
theorem MemInv.touch (hsp : Space m' (s.proc p).pagetable (Vm.pages (s.proc p).sz)
      (procTop s.trampoline (s.proc p).tf))
    (hc : Conserves s.mem m' (s.mem.holds (s.proc p).pagetable (Vm.pages (s.proc p).sz))
      (m'.holds (s.proc p).pagetable (Vm.pages (s.proc p).sz))) :
    MemInv { s with mem := m' } ∧ ({ s with mem := m' } : Sys).total = s.total := by
  have hwith := h.withTf hp rfl hsp hc
  have hstep := h.respace (L := ∅) hp hp hwith.1 (by rw [Set.union_empty]; exact hwith.2)
  rw [update_eq_self] at hstep
  refine ⟨hstep.1, Set.ext fun q => ?_⟩
  rw [← hstep.2 q, Set.mem_empty_iff_false, or_false]

end

end Step

/-! ## Files and pipes -/

/-- The descriptor slots of all processes. -/
def Sys.slot (s : Sys) : Fin NPROC × Fin NOFILE → Option (Fin NFILE) := fun k =>
  (s.proc k.1).ofile k.2

/-- One end of a pipe. -/
def Pipe.isOpen (pi : Pipe) (writable : Bool) : Bool :=
  if writable then pi.writeopen else pi.readopen

/-- Each file counts the slots and the references `pend` that a call holds, and
each open end of a pipe has one file. -/
structure Files (file : Fin NFILE → File) (pipe : Nat → Pipe)
    (slot : Fin NPROC × Fin NOFILE → Option (Fin NFILE)) (pend : List (Fin NFILE)) : Prop where
  ref : ∀ f, (file f).ref = refCount slot f + pend.count f
  closed : ∀ f, (file f).ref = 0 → (file f).type = .none
  ends : ∀ f, (file f).type = .pipe → (pipe (file f).pipe).isOpen (file f).writable = true
  unique : ∀ f g, (file f).type = .pipe → (file g).type = .pipe →
    (file f).pipe = (file g).pipe → (file f).writable = (file g).writable → f = g
  opened : ∀ q w, (pipe q).isOpen w = true →
    ∃ f, (file f).type = .pipe ∧ (file f).pipe = q ∧ (file f).writable = w

/-- The invariant of a system state between two calls. -/
structure Inv (s : Sys) : Prop where
  mem : MemInv s
  files : Files s.file s.pipe s.slot []
  idle : ∀ p, (s.proc p).state = .unused → (s.proc p).sz = 0
  closed : ∀ p, (s.proc p).state ≠ .live → ∀ fd, (s.proc p).ofile fd = none

end SummerOsk.Task
