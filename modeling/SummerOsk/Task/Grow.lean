import SummerOsk.Task.Spaces

/-!
# The size of a process

`growproc` changes the size of a process by `n`, or fails and changes nothing,
but for two cases.  When `sz + n` is negative the sum wraps around,
`uvmdealloc` sees a larger size and does nothing, and `growproc` returns 0.  And
when the free pages run out after a page table went into the tree, the table
stays there.
-/

namespace SummerOsk.Task

open Lib Vm Function

variable {s s' : Sys} {p : Fin NPROC} {n r : Int} {top : Nat → Option Nat}

/-- The size is `n` larger, and a page that was not mapped and now is holds zeros. -/
structure GrewBy (s s' : Sys) (p : Fin NPROC) (n : Int) : Prop where
  sz : ((s'.proc p).sz : Int) = (s.proc p).sz + n
  zero : ∀ v e, s.mem.entry (s.proc p).pagetable v = none →
    s'.mem.entry (s.proc p).pagetable v = some e → s'.mem.page (pte2pa e) = fun _ => 0

/-- The size, the mappings, the contents of the user pages and the free pages are
the same. -/
structure KeptSize (s s' : Sys) (p : Fin NPROC) : Prop where
  sz : (s'.proc p).sz = (s.proc p).sz
  entry : s'.mem.entry (s.proc p).pagetable = s.mem.entry (s.proc p).pagetable
  page : ∀ v e, v < pages (s.proc p).sz → s.mem.entry (s.proc p).pagetable v = some e →
    s'.mem.page (pte2pa e) = s.mem.page (pte2pa e)
  free : ∀ q, q ∈ s'.mem.free ↔ q ∈ s.mem.free

/-- `growproc` returns 0 and the process has grown by `n`, or -1 and nothing has
changed. -/
def GrowsOrKeeps (s : Sys) (p : Fin NPROC) (n : Int) : Prop :=
  ∃ r s', growproc p n s = .ok (r, s') ∧ (r = 0 ∧ GrewBy s s' p n ∨ r = -1 ∧ KeptSize s s' p)

/-- The free pages suffice for `n` more bytes, or the page tables for them are all
there. -/
def RoomToGrow (s : Sys) (p : Fin NPROC) (n : Int) : Prop :=
  let k := pages (s.proc p).sz
  let k' := pages ((s.proc p).sz + n).toNat
  s.mem.need (s.proc p).pagetable k k' ≤ s.mem.free.length ∨
    s.mem.TablesReady (s.proc p).pagetable k k'

theorem growsOrKeeps_iff (hrun : growproc p n s = .ok (r, s')) :
    GrowsOrKeeps s p n ↔ (r = 0 ∧ GrewBy s s' p n ∨ r = -1 ∧ KeptSize s s' p) := by
  constructor
  · rintro ⟨r', s'', hrun', hres⟩
    rw [hrun] at hrun'
    cases hrun'
    exact hres
  · exact fun hres => ⟨r, s', hrun, hres⟩

section Growproc

variable (hsp : Space s.mem (s.proc p).pagetable (pages (s.proc p).sz) top) {m' : Mem} {k : Nat}
include hsp

theorem sz_lt : (s.proc p).sz < 2 ^ 31 := by
  have hle := hsp.le_npages
  unfold pages NPAGES PHYSTOP KERNBASE PGSIZE at hle
  omega

/-- The process with the size `k`, if its new pages hold zeros. -/
theorem GrewBy.of_space (hsp' : Space m' (s.proc p).pagetable (pages k) top)
    (hzero : ZeroPages m' (s.proc p).pagetable (pages (s.proc p).sz) (pages k))
    (hk : (k : Int) = (s.proc p).sz + n) :
    GrewBy s { s with
      mem := m'
      proc := update s.proc p { s.proc p with sz := k } } p n := by
  refine ⟨?_, fun v e hnone he => ?_⟩
  · dsimp only
    rwa [update_self]
  · have hv : pages (s.proc p).sz ≤ v := by
      by_contra hlt
      obtain ⟨e, he, -⟩ := hsp.user v (by omega)
      rw [hnone] at he
      cases he
    by_cases hvk : v < pages k
    · obtain ⟨e', he', hpage⟩ := hzero v hv hvk
      rw [he] at he'
      cases he'
      exact hpage
    · -- above both sizes the mappings are the same
      have hsame := (hsp'.rest v (by omega)).trans (hsp.rest v hv).symm
      rw [hsame, hnone] at he
      cases he

/-- A failing `uvmalloc` leaves everything as it was, but for the tables it
added. -/
theorem keptSize_iff
    (hfails : GrowFails s.mem m' (s.proc p).pagetable (pages (s.proc p).sz) (pages (s.proc p).sz)
      k top) :
    KeptSize s { s with mem := m' } p ↔
      s.mem.TablesReady (s.proc p).pagetable (pages (s.proc p).sz) k := by
  rw [← hfails.free_iff hsp]
  refine ⟨fun h => h.free, fun hfree => ⟨rfl, funext fun v => ?_, fun v e hv he => ?_, hfree⟩⟩
  · by_cases hv : v < pages (s.proc p).sz
    · obtain ⟨e, he, -⟩ := hsp.user v hv
      rw [he]
      exact (hfails.keeps v e hv he).1
    · exact (hfails.space.rest v (by omega)).trans (hsp.rest v (by omega)).symm
  · exact (hfails.keeps v e hv he).2

/-- For `0 < n`, `growproc` returns 0 and has grown the process, or `uvmalloc` fails. -/
theorem growproc_result (hn : 0 < n) (hmax : n < 2 ^ 31) :
    ∃ r s', growproc p n s = .ok (r, s') ∧
      (r = 0 ∧ GrewBy s s' p n ∧ s.mem.need (s.proc p).pagetable (pages (s.proc p).sz)
          (pages ((s.proc p).sz + n).toNat) ≤ s.mem.free.length ∨
        r = -1 ∧ ∃ m', s' = { s with mem := m' } ∧ GrowFails s.mem m' (s.proc p).pagetable
          (pages (s.proc p).sz) (pages (s.proc p).sz) (pages ((s.proc p).sz + n).toNat) top) := by
  have hlt := sz_lt hsp
  refine wp_returns ?_
  unfold growproc
  rw [wp_bind, wp_getProc]
  dsimp only
  have hnew : (((s.proc p).sz + n) % (2 ^ 32 : Nat) : Int) = (s.proc p).sz + n :=
    Int.emod_eq_of_lt (by omega) (by omega)
  rw [Nat.mod_eq_of_lt (by omega : (s.proc p).sz < 2 ^ 32), hnew, if_pos hn, wp_bind, wp_vm]
  refine wp_mono (hsp.uvmalloc_grows (by omega)) fun r m' hr => ?_
  rcases hr with ⟨rfl, hgrows⟩ | ⟨rfl, hfails⟩
  · rw [Nat.mod_eq_of_lt (by omega), if_neg (by omega)]
    exact .inl ⟨rfl, .of_space hsp hgrows.space hgrows.zero (by omega), hgrows.room⟩
  · exact .inr ⟨rfl, m', rfl, hfails⟩

theorem growproc_grow (hn : 0 < n) (hmax : n < 2 ^ 31) : GrowsOrKeeps s p n ↔ RoomToGrow s p n := by
  obtain ⟨r, s', hrun, ⟨rfl, hgrew, hroom⟩ | ⟨rfl, m', rfl, hfails⟩⟩ := growproc_result hsp hn hmax
  · exact iff_of_true ⟨0, s', hrun, .inl ⟨rfl, hgrew⟩⟩ (.inl hroom)
  · rw [growsOrKeeps_iff hrun]
    refine (or_iff_right (fun h => by simp at h)).trans (Iff.trans ?_
      (or_iff_right (Nat.not_le.mpr hfails.short)).symm)
    exact (and_iff_right rfl).trans (keptSize_iff hsp hfails)

theorem growproc_shrink (hn : n ≤ 0) (hmin : -2 ^ 31 ≤ n) :
    GrowsOrKeeps s p n ↔ 0 ≤ (s.proc p).sz + n := by
  have hlt := sz_lt hsp
  have hwp : wp (growproc p n) s
      (fun r s' => (r = 0 ∧ GrewBy s s' p n ∨ r = -1 ∧ KeptSize s s' p) ↔
        0 ≤ (s.proc p).sz + n)
      fun _ => False := by
    unfold growproc
    rw [wp_bind, wp_getProc]
    rw [Nat.mod_eq_of_lt (by omega : (s.proc p).sz < 2 ^ 32), if_neg (by omega)]
    refine wp_ite (fun hneg => ?_) fun hzero => ?_
    · rw [wp_bind, wp_vm]
      refine wp_mono (hsp.uvmdealloc _) fun r m' hr => ?_
      obtain ⟨hr, hsp', -⟩ := hr
      have hpages : pages r ≤ pages (s.proc p).sz := pages_mono (by omega)
      rw [Nat.mod_eq_of_lt (by omega : r < 2 ^ 32)]
      by_cases hpos : 0 ≤ (s.proc p).sz + n
      · refine iff_of_true (.inl ⟨rfl, .of_space hsp hsp' (fun v hv hv' => ?_) ?_⟩) hpos
        · omega
        · omega
      · -- the sum wraps around: `uvmdealloc` does nothing
        refine iff_of_false (fun h => ?_) hpos
        rcases h with ⟨-, h⟩ | ⟨h, -⟩
        · have hsz := h.sz
          omega
        · cases h
    · refine iff_of_true (.inl ⟨rfl, .of_space hsp hsp (fun v hv hv' => ?_) ?_⟩) (by omega)
      · omega
      · omega
  obtain ⟨r, s', hrun, hiff⟩ := wp_returns hwp
  rw [growsOrKeeps_iff hrun, hiff]

/-- `growproc` grows the process by `n` or changes nothing exactly when `sz + n` is
not negative and a growth has room. -/
theorem growproc_exact_iff (hmin : -2 ^ 31 ≤ n) (hmax : n < 2 ^ 31) :
    GrowsOrKeeps s p n ↔ 0 ≤ (s.proc p).sz + n ∧ (0 < n → RoomToGrow s p n) := by
  by_cases hn : 0 < n
  · rw [growproc_grow hsp hn hmax]
    exact ⟨fun h => ⟨by omega, fun _ => h⟩, fun h => h.2 hn⟩
  · rw [growproc_shrink hsp (by omega) hmin]
    exact ⟨fun h => ⟨h, fun h' => absurd h' hn⟩, And.left⟩

end Growproc

/-- The first process has one page and memory for another. -/
def firstPage (s : Sys) : Bool :=
  (s.proc slot0).state = .live ∧ (s.proc slot0).sz = PGSIZE ∧
    s.mem.need (s.proc slot0).pagetable 1 2 ≤ s.mem.free.length

set_option maxRecDepth 20000 in
theorem firstPage_at_boot : ∃ s, userinit (blank bootMem 0x80007000) = .ok ((), s) ∧
    (s.proc slot0).sz = PGSIZE ∧
    s.mem.need (s.proc slot0).pagetable 1 2 ≤ s.mem.free.length ∧
    Space s.mem (s.proc slot0).pagetable (pages (s.proc slot0).sz)
      (procTop s.trampoline (s.proc slot0).tf) := by
  have hboots : boots ProcPagetableSucceeds [] firstPage = true := by decide +kernel
  obtain ⟨s, s', hinit, hrun, -, htest⟩ := boots_cases hboots
  obtain rfl : s = s' := by simpa using hrun
  obtain ⟨hlive, hsz, hneed⟩ := of_decide_eq_true htest
  have hinv := (wp_ok (userinit_spec bootMem_free (by decide) (by decide)) hinit).1
  exact ⟨s, hinit, hsz, hneed, (hinv.mem.sound slot0 (by rw [hlive]; decide)).space⟩

/-- `sbrk` of the first process by less than minus its size returns 0 and changes
nothing. -/
theorem growproc_wraps_at_boot : ∃ s, userinit (blank bootMem 0x80007000) = .ok ((), s) ∧
    ¬ GrowsOrKeeps s slot0 (-8192) := by
  obtain ⟨s, hinit, hsz, -, hsp⟩ := firstPage_at_boot
  refine ⟨s, hinit, fun h => ?_⟩
  rw [growproc_shrink hsp (by decide) (by decide), hsz] at h
  revert h
  decide

theorem growproc_exact_at_boot : ∃ s, userinit (blank bootMem 0x80007000) = .ok ((), s) ∧
    GrowsOrKeeps s slot0 4096 := by
  obtain ⟨s, hinit, hsz, hneed, hsp⟩ := firstPage_at_boot
  refine ⟨s, hinit, (growproc_exact_iff hsp (by decide) (by decide)).mpr ⟨by omega, fun _ => ?_⟩⟩
  unfold RoomToGrow
  rw [hsz]
  exact .inl hneed

end SummerOsk.Task
