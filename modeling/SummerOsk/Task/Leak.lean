import SummerOsk.Task.Spaces
import Mathlib.Data.Set.Card

/-!
# Lost pages

A run loses pages in four places: `wait` reaps a process of size zero, `exec`
replaces an image of size zero, `fork` runs out of memory during the copy, and
`exec` fails while its size is zero.  In a run without these every page is free
or held by a process or an open pipe that is still there.
-/

namespace SummerOsk.Task

open Lib Vm

variable {s s' : Sys} {mem : Mem} {trampoline : Nat} {ops : List Op}

instance (s : Sys) : (op : Op) → Decidable (LosesNothing s op)
  | .fork p => inferInstanceAs (Decidable (CanFork s p))
  | .exec _ _ _ _ => inferInstanceAs (Decidable (_ ∧ _))
  | .sbrk _ _ => isTrue trivial
  | .exit _ _ => isTrue trivial
  | .wait p addr => inferInstanceAs (Decidable (∀ np, zombieChild s p = some np →
      succeeds s (.wait p addr) → 0 < (s.proc np).sz))
  | .pipe _ _ => isTrue trivial
  | .close _ _ => isTrue trivial

/-! ## The condition covers `proc_pagetable` -/

theorem growth_pos {sz : Nat} (h : 0 < sz) : 0 < growth (pages 0) (pages sz) := by
  have : 0 < pages sz := by
    unfold pages PGSIZE
    omega
  have hzero : pages 0 = 0 := rfl
  unfold growth
  omega

/-- Without a free page nothing fits. -/
theorem not_segmentsFit {bs : List UInt8} (n : Nat) : ∀ {off : Nat},
    segmentsFit bs n off 0 0 = false := by
  induction n with
  | zero =>
    intro off
    rfl
  | succ n ih =>
    intro off
    by_cases hfit : segmentsFit bs (n + 1) off 0 0 = true
    · by_cases hrej : Rejected bs off
      · rw [segmentsFit_rejected hrej] at hfit
        cases hfit
      have hread : Readable bs off 56 := by
        by_contra hread
        exact hrej (.inl hread)
      by_cases htype : (proghdrAt bs off).type = ELF_PROG_LOAD
      · obtain ⟨hpos, hneed, -⟩ := segmentsFit_load hread htype hrej hfit
        have := growth_pos (Nat.pos_of_ne_zero hpos)
        omega
      · rw [segmentsFit_skip hread htype, ih] at hfit
        cases hfit
    · simpa using hfit

theorem LosesNothing.pagetable {op : Op} (h : LosesNothing s op) : ProcPagetableSucceeds s op := by
  cases op with
  | fork p => exact CanFork.allocproc h
  | exec p file uargv bad =>
    intro hfetched hbad bs hbs hgood
    have hfit := h.1 hfetched hbad bs hbs hgood
    by_contra hless
    have hzero : s.mem.free.length - uargv.length - 3 = 0 := by omega
    unfold imageFits at hfit
    rw [hzero, not_segmentsFit] at hfit
    cases hfit
  | sbrk p n => trivial
  | exit p status => trivial
  | wait p addr => trivial
  | pipe p fdarray => trivial
  | close p fd => trivial

/-! ## Runs -/

/-- No page of a state is lost: each page of `mem` is free or in use, and the
free pages are those that are not in use. -/
structure NothingLost (mem : Mem) (s : Sys) : Prop where
  total : ∀ q, q ∈ mem.free ↔ q ∈ s.mem.free ∨ ∃ i, q ∈ s.hold i
  count : s.mem.free.length + (⋃ i, s.hold i).ncard = mem.free.length

theorem Inv.nothingLost (h : Inv s) (hfree : mem.FreeList)
    (htotal : s.total = {q | q ∈ mem.free}) : NothingLost mem s := by
  have hcard : ∀ l : List Nat, l.Nodup → {q | q ∈ l}.ncard = l.length := by
    intro l hl
    rw [← List.toFinset_card_of_nodup hl, ← Set.ncard_coe_finset]
    congr 1
    ext q
    simp
  have hset : {q | q ∈ mem.free} = {q | q ∈ s.mem.free} ∪ ⋃ i, s.hold i := by
    rw [← htotal]
    ext q
    simp [Sys.total]
  have hfin : ({q | q ∈ mem.free}).Finite := List.finite_toSet _
  have hdisj : Disjoint {q | q ∈ s.mem.free} (⋃ i, s.hold i) := by
    rw [Set.disjoint_left]
    intro q hq hin
    obtain ⟨i, hi⟩ := Set.mem_iUnion.mp hin
    exact (h.mem.parted.held i q hi).2 hq
  refine ⟨fun q => ?_, ?_⟩
  · have := Set.ext_iff.mp htotal q
    exact this.symm
  · have hle : (⋃ i, s.hold i) ⊆ {q | q ∈ mem.free} := by
      rw [hset]
      exact Set.subset_union_right
    rw [← hcard _ hfree.nodup, hset, Set.ncard_union_eq hdisj (List.finite_toSet _)
      (hfin.subset hle), hcard _ h.mem.parted.free.nodup]

/-- The pages of a run whose calls meet `LosesNothing`. -/
theorem run_total {s0 : Sys} (hfree : mem.FreeList) (htr : trampoline < mem.kend)
    (hcount : 7 ≤ mem.free.length) (hinit : userinit (blank mem trampoline) = .ok ((), s0))
    (hops : system.Meets LosesNothing s0 ops) (hrun : system.run s0 ops = some s) :
    Inv s ∧ s.total = {q | q ∈ mem.free} := by
  have h0 := wp_ok (userinit_spec hfree htr hcount) hinit
  have heq : ∀ {t t' : Sys}, Loses t t' ∅ → t'.total = t.total := by
    intro t t' hloses
    ext q
    rw [← hloses q, Set.mem_empty_iff_false, or_false]
  refine system.run_invariant_of_meets (G := LosesNothing)
    (I := fun s => Inv s ∧ s.total = {q | q ∈ mem.free}) (fun s op s' hs hop hstep => ?_)
    ⟨h0.1, (heq h0.2).trans blank_total⟩ hops hrun
  obtain ⟨L, hinv, hloses, hL⟩ := step_spec hs.1 hop.pagetable hstep
  rw [hL hop] at hloses
  exact ⟨hinv, (heq hloses).trans hs.2⟩

/-- A run whose calls meet `LosesNothing` loses no page. -/
theorem no_page_lost {s₀ : Sys} (hfree : mem.FreeList) (htr : trampoline < mem.kend)
    (hcount : 7 ≤ mem.free.length) (hinit : userinit (blank mem trampoline) = .ok ((), s₀))
    (hops : system.Meets LosesNothing s₀ ops) (hrun : system.run s₀ ops = some s) :
    NothingLost mem s := by
  obtain ⟨hinv, htotal⟩ := run_total hfree htr hcount hinit hops hrun
  exact hinv.nothingLost hfree htotal

set_option maxRecDepth 20000 in
/-- A child shrinks to nothing and exits, and its parent calls `wait` with an
address that `copyout` cannot write, so that the child stays. -/
theorem no_page_lost_of_failed_wait : ∃ s₀ s,
    userinit (blank bootMem 0x80007000) = .ok ((), s₀) ∧
      system.run s₀ [.fork slot0, .sbrk slot1 (-4096), .exit slot1 0, .wait slot0 MAXVA] =
        some s ∧ NothingLost bootMem s := by
  have hboots : boots LosesNothing [.fork slot0, .sbrk slot1 (-4096), .exit slot1 0,
      .wait slot0 MAXVA] (fun _ => true) = true := by decide +kernel
  obtain ⟨s₀, s, hinit, hrun, hmeets, -⟩ := boots_cases hboots
  exact ⟨s₀, s, hinit, hrun,
    no_page_lost bootMem_free (by decide) (by decide) hinit hmeets hrun⟩

/-- The child in slot 1 is a zombie of size zero, and `wait` reaps it. -/
def shrunkChild (s : Sys) : Bool :=
  (s.proc slot0).state = .live ∧ zombieChild s slot0 = some slot1 ∧ (s.proc slot1).sz = 0

set_option maxRecDepth 20000 in
/-- A child shrinks to nothing, exits and is reaped.  Its page table is lost. -/
theorem page_lost_by_wait : ∃ s₀ s,
    userinit (blank bootMem 0x80007000) = .ok ((), s₀) ∧
      system.run s₀ [.fork slot0, .sbrk slot1 (-4096), .exit slot1 0, .wait slot0 0] = some s ∧
      ¬ NothingLost bootMem s := by
  have hboots : boots LosesNothing [.fork slot0, .sbrk slot1 (-4096), .exit slot1 0] shrunkChild =
      true := by decide +kernel
  obtain ⟨s₀, s, hinit, hrun, hmeets, htest⟩ := boots_cases hboots
  obtain ⟨hlive, hchild, hsz⟩ := of_decide_eq_true htest
  obtain ⟨hinv, htotal⟩ := run_total bootMem_free (by decide) (by decide) hinit hmeets hrun
  obtain ⟨r, s', hwait, q, hq, hlost⟩ := wp_returns (wait_loses hinv hlive hchild hsz)
  have hstep : system.step s (.wait slot0 0) = some s' := by
    unfold system
    dsimp only
    rw [show (Op.wait slot0 0).caller = slot0 from rfl, if_pos hlive,
      show (Op.wait slot0 0).call = wait slot0 0 from rfl, hwait]
  refine ⟨s₀, s', hinit, ?_, fun hall => ?_⟩
  · have happ := system.run_append s₀ [.fork slot0, .sbrk slot1 (-4096), .exit slot1 0]
      [.wait slot0 0]
    rw [hrun, Option.bind_some, system.run_cons, hstep] at happ
    exact happ
  · rw [htotal] at hq
    exact hlost ((hall.total q).mp hq)

end SummerOsk.Task
