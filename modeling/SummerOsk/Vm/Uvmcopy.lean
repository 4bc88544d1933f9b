import SummerOsk.Vm.Copy

/-!
# Copy or undo

`fork` copies the user pages of the parent into the address space of the child.
The copy can run out of pages at every data page and at both levels of tables.
`uvmcopy` then removes what it mapped, with a length that is the address it got
to.  At the first page this length is zero, and `uvmunmap` reads a length of zero
as the whole address space and panics.
-/

namespace SummerOsk.Vm

open Lib

variable {m m' : Mem} {old new sz : Nat} {top oldTop : Nat → Option Nat}

/-- The child maps the same pages with the same flags, to distinct pages that were
free, with equal contents. -/
structure Copied (m m' : Mem) (old new sz : Nat) (top : Nat → Option Nat) : Prop where
  space : Space m' new (pages sz) top
  copies : ∀ v < pages sz, CopyOf m m' old new v

/-- The child has no user page, and of the pages that were free only page tables
of the child are not free any more. -/
structure Undone (m m' : Mem) (new : Nat) (top : Nat → Option Nat) : Prop where
  space : Space m' new 0 top
  free : ∀ p ∈ m.free, p ∈ m'.free ∨ m'.IsTable new p

/-- The map of the parent, its page tables and the contents of its pages are the
same. -/
structure ParentKept (m m' : Mem) (old sz : Nat) : Prop where
  entry : m'.entry old = m.entry old
  page : ∀ p ∈ m.holds old (pages sz), m'.page p = m.page p

/-- `uvmcopy` returns, and it has copied all or undone all. -/
def CopiesOrUndoes (m : Mem) (old new sz : Nat) (top : Nat → Option Nat) : Prop :=
  ∃ r m', uvmcopy old new sz m = .ok (r, m') ∧ ParentKept m m' old sz ∧
    (r = 0 ∧ Copied m m' old new sz top ∨ r = -1 ∧ Undone m m' new top)

theorem Conserves.parentKept {A A' : Set Nat} (hc : Conserves m m' A A')
    (hold : Space m old (pages sz) oldTop) (hapart : Apart (m.holds old (pages sz)) A) :
    ParentKept m m' old sz := by
  have hpage : ∀ p ∈ m.holds old (pages sz), m'.page p = m.page p := fun p hp =>
    hc.frame p (hold.not_free hp) (hapart p hp)
  exact ⟨entry_frame fun p hp => hpage p (.inl hp), hpage⟩

/-- Nothing is copied and nothing can fail. -/
theorem uvmcopy_empty (h : Space m new 0 top) (hsz : sz = 0) : CopiesOrUndoes m old new sz top := by
  subst hsz
  refine ⟨0, m, rfl, ⟨rfl, fun _ _ => rfl⟩, .inl ⟨rfl, h, fun v hv => ?_⟩⟩
  exact absurd hv (Nat.not_lt_zero v)

section Uvmcopy

variable (hold : Space m old (pages sz) oldTop) (h : Space m new 0 top)
  (hapart : Apart (m.holds old (pages sz)) (m.holds new 0))
include hold h

include hapart in
theorem uvmcopy_returns (hfirst : ¬ NoFirst m new) : CopiesOrUndoes m old new sz top := by
  have hspec := wp_imp (uvmcopy_spec hold h hapart) (fun _ _ hr => hr) fun _ he => hfirst he
  obtain ⟨r, m', hrun, hr⟩ := wp_returns hspec
  rcases hr with ⟨hr, hsp, hc, -, hcopies⟩ | ⟨hr, hsp, hc, -⟩
  · exact ⟨r, m', hrun, hc.parentKept hold hapart, .inl ⟨hr, hsp, hcopies⟩⟩
  · refine ⟨r, m', hrun, hc.parentKept hold hapart, .inr ⟨hr, hsp, fun p hp => ?_⟩⟩
    rcases (hc.same p).mpr (.inl hp) with hfree | htable | ⟨v, e, hv, -⟩
    · exact .inl hfree
    · exact .inr htable
    · exact absurd hv (Nat.not_lt_zero v)

/-- A copy that fails at the first page panics. -/
theorem uvmcopy_panics (hpos : sz ≠ 0) (hfirst : NoFirst m new) :
    wp (uvmcopy old new sz) m (fun _ _ => False) fun _ => True := by
  have hpages : 0 < pages sz := by
    unfold pages PGSIZE
    omega
  have hva : 0 * PGSIZE < MAXVA := by decide
  obtain ⟨e, he, -, -⟩ := hold.user 0 hpages
  obtain ⟨t, ht, hpre⟩ := Mem.table_of_entry hva he
  obtain ⟨heq, hvalid⟩ := eq_of_present hpre
  have hundo : ∀ m1 : Mem, m1.entry new 0 = none →
      wp (do uvmunmap new 0 0 true; return (-1 : Int)) m1 (fun _ _ => False) fun _ => True := by
    intro m1 hnone
    rw [wp_bind]
    exact uvmunmap_unmapped (by decide) hnone fun _ => trivial
  rw [Nat.zero_mul] at ht hpre heq hvalid hva
  rw [uvmcopy, uvmcopyLoop, if_pos (Nat.pos_of_ne_zero hpos), wp_bind, wp_walk hva, ht]
  simp only [Option.map_some]
  rw [wp_bind, wp_loadPte]
  rw [if_neg hvalid]
  refine wp_seq kalloc_spec fun r m1 hr => ?_
  rcases hr with ⟨rfl, hnil, rfl⟩ | ⟨p, rfl, htaken⟩
  · exact hundo m1 h.next_free
  · have hfilled := htaken.setPage (m1.page (pte2pa (m.pte t (px 0 0))))
    rw [wp_bind, wp_modify, wp_bind]
    generalize hm2 : m1.setPage p (m1.page (pte2pa (m.pte t (px 0 0)))) = m2 at hfilled ⊢
    obtain ⟨h2, hholds⟩ := h.taken hfilled
    have hpA : p ∉ m.holds new 0 := hfilled.not_mem fun q hq => h.not_free hq
    have htables : ∀ q, m.IsTable new q → m2.page q = m.page q := fun q hq =>
      hfilled.frame q fun hqp => hpA (hqp ▸ .inl hq)
    -- the free pages that are left do not suffice for the tables
    have hfew : m2.free.length < m2.missing new (0 * PGSIZE) := by
      have hlen : m.free.length = m2.free.length + 1 := by rw [hfilled.free, List.length_cons]
      rw [Nat.zero_mul, missing_frame htables]
      unfold NoFirst at hfirst
      omega
    have hperm : pteFlags (m.pte t (px 0 0)) < 2 ^ 10 := Nat.mod_lt _ (by decide)
    have hmap := mappages_one h2.wf h2.lt_maxva h2.next_free
      (hfilled.freeable h.wf.free).lt hperm
    refine wp_imp hmap (fun r m3 hone => ?_) fun _ he => he.elim
    rcases hone.result with ⟨-, hroom, -⟩ | ⟨rfl, -, hent⟩
    · omega
    · rw [if_pos (by decide), wp_bind]
      refine kfree_spec (fun hok => hundo _ ?_) fun _ => trivial
      have hnot : ¬ m3.IsTable new p :=
        (hone.not_table (fun ht => hpA (hholds ▸ .inl ht)) (hfilled.not_free h.wf.free)).1
      rw [entry_release hnot, hent]
      exact h2.next_free

include hapart in
/-- `uvmcopy` copies or undoes if there is nothing to copy or if the free pages
suffice for the first page and the tables that the child lacks for it. -/
theorem uvmcopy_copies_or_undoes_iff :
    CopiesOrUndoes m old new sz top ↔ sz = 0 ∨ 1 + m.missing new 0 ≤ m.free.length := by
  constructor
  · rintro ⟨r, m', hrun, -⟩
    by_contra hnot
    rw [not_or] at hnot
    have hfirst : NoFirst m new := by
      unfold NoFirst
      omega
    exact wp_ok (uvmcopy_panics hold h hnot.1 hfirst) hrun
  · rintro (hsz | hfirst)
    · exact uvmcopy_empty h hsz
    · refine uvmcopy_returns hold h hapart fun hno => ?_
      unfold NoFirst at hno
      omega

end Uvmcopy

/-! ## A page of the parent and an empty child -/

/-- The address space of a parent with one page, and that of a new child. -/
def onePage : VmM (Nat × Nat) := do
  let old ← uvmcreate
  let _ ← uvmalloc old 0 PGSIZE
  let new ← uvmcreate
  return (old, new)

theorem onePage_spec (hfree : m.FreeList) (hcount : 5 ≤ m.free.length) :
    wp onePage m
      (fun r m' => Space m' r.1 (pages PGSIZE) (fun _ => none) ∧
        Space m' r.2 0 (fun _ => none) ∧ Apart (m'.holds r.1 (pages PGSIZE)) (m'.holds r.2 0))
      fun _ => False := by
  have hgrowth : growth (pages 0) (pages PGSIZE) = 3 := by decide
  refine wp_seq (uvmcreate_spec hfree (by omega)) fun old m1 hr => ?_
  obtain ⟨hsp1, hc1, hlen1⟩ := hr
  have hsp1' : Space m1 old (pages 0) fun _ => none := hsp1
  refine wp_seq (hsp1'.uvmalloc (Nat.zero_le _)) fun r m2 hr => ?_
  rcases hr with ⟨-, hsp2, -, hlen2, -⟩ | ⟨-, -, -, hlen2⟩
  · refine wp_seq (uvmcreate_spec hsp2.wf.free (by omega)) fun new m3 hr => ?_
    obtain ⟨hsp3, hc3, -⟩ := hr
    obtain ⟨hold, hholds⟩ := hsp2.conserved hc3 fun _ _ hq => hq
    refine ⟨hold, hsp3, fun q hq => ?_⟩
    rw [hholds] at hq
    exact (hc3.not_mem (hsp2.not_free hq) fun hin => hin).2
  · omega

/-- A memory with `n` free pages. -/
def freshMem (n : Nat) : Mem where
  page := fun _ _ => 0
  free := (List.range n).map fun k => KERNBASE + 0x10000 + k * PGSIZE
  kend := KERNBASE + 0x10000

theorem freshMem_free {n : Nat} (hn : n ≤ 1000) : (freshMem n).FreeList := by
  refine ⟨?_, fun p hp => ?_, Nat.le_add_right _ _⟩
  · refine (List.nodup_range).map fun a b hab => ?_
    unfold PGSIZE at hab
    omega
  · obtain ⟨k, hk, rfl⟩ := List.mem_map.mp hp
    rw [List.mem_range] at hk
    unfold freshMem PHYSTOP KERNBASE PGSIZE at *
    dsimp only
    omega

/-- Whether the free pages suffice for the copy of the first page, after
`onePage`. -/
def onePageFits (n : Nat) : Bool :=
  match onePage (freshMem n) with
  | .ok ((_, new), m) => 1 + m.missing new 0 ≤ m.free.length
  | .error _ => false

theorem uvmcopy_of_threePages : ∃ m old new,
    onePage (freshMem 8) = .ok ((old, new), m) ∧
      CopiesOrUndoes m old new PGSIZE fun _ => none := by
  obtain ⟨⟨old, new⟩, m, hrun, hold, hnew, hapart⟩ :=
    wp_returns (onePage_spec (freshMem_free (by decide)) (by decide : 5 ≤ (freshMem 8).free.length))
  have hfits : onePageFits 8 = true := by decide +kernel
  rw [onePageFits, hrun] at hfits
  exact ⟨m, old, new, hrun, (uvmcopy_copies_or_undoes_iff hold hnew hapart).mpr
    (.inr (of_decide_eq_true hfits))⟩

/-- Without a free page the copy of the first page ends in a panic. -/
theorem uvmcopy_of_noPage : ∃ m old new,
    onePage (freshMem 5) = .ok ((old, new), m) ∧
      Space m old (pages PGSIZE) (fun _ => none) ∧ Space m new 0 (fun _ => none) ∧
      Apart (m.holds old (pages PGSIZE)) (m.holds new 0) ∧
      ¬ CopiesOrUndoes m old new PGSIZE fun _ => none := by
  obtain ⟨⟨old, new⟩, m, hrun, hold, hnew, hapart⟩ :=
    wp_returns (onePage_spec (freshMem_free (by decide)) (by decide : 5 ≤ (freshMem 5).free.length))
  have hfits : onePageFits 5 = false := by decide +kernel
  rw [onePageFits, hrun] at hfits
  have hfirst : NoFirst m new := by
    have := of_decide_eq_false hfits
    unfold NoFirst
    omega
  refine ⟨m, old, new, hrun, hold, hnew, hapart, ?_⟩
  rintro ⟨r, m', hcopy, -⟩
  exact wp_ok (uvmcopy_panics hold hnew (by decide) hfirst) hcopy

end SummerOsk.Vm
