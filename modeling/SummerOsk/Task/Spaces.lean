import SummerOsk.Task.Exec
import SummerOsk.Vm.Refine

/-!
# The address spaces of all processes

`userinit` starts the system, every call keeps the invariant, and so every state
that a run reaches has the address spaces that `AddressSpaces` describes.
-/

namespace SummerOsk.Task

open Lib Vm Function

variable {s s' s₀ : Sys} {p q : Fin NPROC} {mem : Mem} {trampoline v e pa : Nat} {ops : List Op}

/-! ## The first process -/

theorem blank_hold (i : Option (Fin NPROC)) : (blank mem trampoline).hold i = ∅ := by
  cases i with
  | none =>
    ext q
    rw [Sys.mem_hold_none]
    constructor
    · rintro ⟨w, hw⟩
      cases w <;> cases hw
    · exact fun hq => hq.elim
  | some p => exact Sys.hold_unused rfl

theorem blank_total : (blank mem trampoline).total = {q | q ∈ mem.free} := by
  ext q
  constructor
  · rintro (hq | ⟨i, hi⟩)
    · exact hq
    · rw [blank_hold] at hi
      exact hi.elim
  · exact fun hq => .inl hq

theorem blank_inv (hfree : mem.FreeList) (htr : trampoline < mem.kend) (hpos : mem.free ≠ []) :
    Inv (blank mem trampoline) := by
  have hkend : mem.kend ≤ PHYSTOP := by
    obtain ⟨q, hq⟩ := List.exists_mem_of_ne_nil _ hpos
    have := hfree.range q hq
    omega
  refine ⟨⟨⟨hfree, fun i q hq => ?_, fun i j _ q hq => ?_⟩, fun p hp => absurd rfl hp, htr, hkend⟩,
    ⟨fun f => ?_, fun f _ => rfl, fun f hf => (by cases hf), fun f g hf => (by cases hf),
      fun q w hq => ?_⟩, fun p _ => rfl, fun p _ fd => rfl⟩
  · rw [blank_hold] at hq
    exact hq.elim
  · rw [blank_hold] at hq
    exact hq.elim
  · show 0 = refCount (fun _ => none) f + 0
    rw [refCount_none]
  · cases w <;> cases hq

/-- `userinit` with enough memory. -/
theorem userinit_spec (hfree : mem.FreeList) (htr : trampoline < mem.kend)
    (hcount : 7 ≤ mem.free.length) :
    wp userinit (blank mem trampoline)
      (fun _ s' => Inv s' ∧ Loses (blank mem trampoline) s' ∅) fun _ => True := by
  have hpos : mem.free ≠ [] := by
    intro hnil
    rw [hnil] at hcount
    exact absurd hcount (by decide)
  have h := blank_inv hfree htr hpos
  unfold userinit
  rw [wp_bind]
  refine wp_imp (allocproc_spec hfree h.mem.trampoline_lt (.inr (.inr (by
    show 4 ≤ mem.free.length
    omega)))) (fun r s1 hr => ?_) fun _ hf => hf.elim
  rcases hr with ⟨rfl, -⟩ | ⟨np, tf, pt, m1, rfl, hun, hnew, rfl⟩
  · trivial
  rw [wp_bind, wp_getProc, wp_bind, wp_vm]
  dsimp only
  rw [update_self]
  refine wp_mono kalloc_spec fun r m2 hr => ?_
  rcases hr with ⟨rfl, -, -⟩ | ⟨page, rfl, ht⟩
  · trivial
  rw [wp_bind, wp_vm, wp_memset, wp_bind, wp_vm]
  have hgrow := hnew.space.grow_page (ht.setPage fun _ => 0)
    (show PTE_W ||| PTE_R ||| PTE_X ||| PTE_U < 2 ^ 10 by decide) (by decide)
  rw [Nat.zero_mul] at hgrow
  refine wp_imp hgrow (fun r m3 hr => ?_) fun _ hf => hf.elim
  have hcount1 : mem.free.length ≤ m1.free.length + 4 := hnew.count
  rcases hr with ⟨-, hadd⟩ | ⟨-, hless, -⟩
  · have hsp := hadd.space
    obtain ⟨hall, hapart, -⟩ := hnew.grow hadd.conserves
    rw [wp_modifyProc]
    dsimp only
    rw [update_self, update_idem]
    have hpages : 0 + 1 = pages PGSIZE := rfl
    rw [hpages] at hsp hapart hall
    refine h.child (x := { (blank mem trampoline).proc np with
      tf := tf, pagetable := pt, sz := PGSIZE, state := .live }) hun rfl ⟨hsp, hapart⟩ hall ?_
    have hslot : ∀ x : Proc, x.ofile = (fun _ => none) →
        ({ blank mem trampoline with
          mem := m3, proc := update (blank mem trampoline).proc np x } : Sys).slot =
        (blank mem trampoline).slot := by
      intro x hx
      funext k
      unfold Sys.slot
      dsimp only
      by_cases hk : k.1 = np
      · rw [hk, update_self, hx]
        rfl
      · rw [update_of_ne hk]
    rw [hslot _ rfl]
    exact h.files
  · have hle := m1.missingFrom_le 0 2 pt
    unfold Mem.missing at hless
    omega

/-! ## Every call -/

/-- The allocations of `proc_pagetable` succeed in the call, if it makes any. -/
def ProcPagetableSucceeds (s : Sys) : Op → Prop
  | .fork _ => CanAllocproc s
  | .exec _ file uargv bad => CanSysExec s file uargv bad
  | _ => True

instance (s : Sys) : (op : Op) → Decidable (ProcPagetableSucceeds s op)
  | .fork _ => inferInstanceAs (Decidable (CanAllocproc s))
  | .exec _ file uargv bad => inferInstanceAs (Decidable (CanSysExec s file uargv bad))
  | .sbrk _ _ => isTrue trivial
  | .exit _ _ => isTrue trivial
  | .wait _ _ => isTrue trivial
  | .pipe _ _ => isTrue trivial
  | .close _ _ => isTrue trivial

/-- The call returns another value than -1.  Then `wait` has reaped a child and
`exec` has replaced the image. -/
def succeeds (s : Sys) (op : Op) : Bool :=
  match op.call s with
  | .ok (r, _) => r ≠ -1
  | .error _ => false

/-- The call does not lose a page. -/
def LosesNothing (s : Sys) : Op → Prop
  | .fork p => CanFork s p
  | .exec p file uargv bad =>
    SysExecFits s file uargv bad ∧ (succeeds s (.exec p file uargv bad) → 0 < (s.proc p).sz)
  | .wait p addr =>
    ∀ np, zombieChild s p = some np → succeeds s (.wait p addr) → 0 < (s.proc np).sz
  | _ => True

/-- What a call keeps and what it may lose. -/
theorem call_spec (h : Inv s) (op : Op) (hp : (s.proc op.caller).state = .live)
    (hcan : ProcPagetableSucceeds s op) :
    wp op.call s (fun r s' => ∃ L, Inv s' ∧ Loses s s' L ∧
        ((r ≠ -1 → succeeds s op = true) → LosesNothing s op → L = ∅))
      fun _ => True := by
  have hnone : ∀ {r : Int} (s' : Sys), Inv s' → s'.total = s.total →
      ∃ L, Inv s' ∧ Loses s s' L ∧
        ((r ≠ -1 → succeeds s op = true) → LosesNothing s op → L = ∅) := fun s' hinv htotal =>
    ⟨∅, hinv, loses_empty htotal, fun _ _ => rfl⟩
  cases op with
  | fork p =>
    refine wp_mono (fork_spec h hp hcan) fun _ s' hs' => ?_
    obtain ⟨L, hinv, hloses, hL⟩ := hs'
    exact ⟨L, hinv, hloses, fun _ => hL⟩
  | exec p file uargv bad =>
    refine wp_mono (sysExec_spec h hp hcan) fun r s' hs' => ?_
    obtain ⟨L, hinv, hloses, hL⟩ := hs'
    exact ⟨L, hinv, hloses, fun hr hop => hL hop.1 fun hne => hop.2 (hr hne)⟩
  | sbrk p n =>
    refine wp_imp (growproc_spec h hp) (fun _ s' hs' => ?_) fun _ hf => hf.elim
    exact ⟨∅, hs'.1, hs'.2, fun _ _ => rfl⟩
  | exit p status =>
    show wp (Task.exit p status >>= _) s _ _
    exact wp_seq (exit_spec h hp) fun _ s' hs' => hnone s' hs'.1 hs'.2
  | wait p addr =>
    refine wp_imp (wait_spec h hp) (fun r s' hs' => ?_) fun _ hf => hf.elim
    obtain ⟨L, hinv, hloses, hL⟩ := hs'
    exact ⟨L, hinv, hloses, fun hr hop => hL fun np hnp hne => hop np hnp (hr hne)⟩
  | pipe p fdarray =>
    refine wp_imp (sysPipe_spec h hp) (fun _ s' hs' => ?_) fun _ hf => hf.elim
    exact hnone s' hs'.1 hs'.2
  | close p fd =>
    refine wp_imp (sysClose_spec h hp) (fun _ s' hs' => ?_) fun _ hf => hf.elim
    exact hnone s' hs'.1 hs'.2

theorem step_spec {op : Op} (h : Inv s) (hcan : ProcPagetableSucceeds s op)
    (hstep : system.step s op = some s') :
    ∃ L, Inv s' ∧ Loses s s' L ∧ (LosesNothing s op → L = ∅) := by
  unfold system at hstep
  dsimp only at hstep
  split_ifs at hstep with hlive
  have hcall := call_spec h op hlive hcan
  cases hrun : op.call s with
  | error e =>
    rw [hrun] at hstep
    cases hstep
  | ok r =>
    rw [hrun] at hstep
    cases hstep
    obtain ⟨L, hinv, hloses, hL⟩ := wp_ok hcall hrun
    exact ⟨L, hinv, hloses, hL fun hne => by simpa [succeeds, hrun] using hne⟩

/-! ## The address spaces -/

/-- The processes of a state and what their page tables map. -/
structure AddressSpaces (s : Sys) : Prop where
  /-- The leaves are the pages below the size, the trampoline and the
  trapframe. -/
  leaves : ∀ p, (s.proc p).state ≠ .unused → ∀ v,
    (s.mem.map (s.proc p).pagetable v).isSome ↔
      v * PGSIZE < pgroundup (s.proc p).sz ∨ v * PGSIZE = TRAMPOLINE ∨ v * PGSIZE = TRAPFRAME
  /-- No entry of an inner table is a leaf, and every entry of a last one is. -/
  inner : ∀ p, (s.proc p).state ≠ .unused → ∀ P i e, P.length < 2 →
    s.mem.slot (s.proc p).pagetable P i = some e → ¬ IsLeaf e
  leaf : ∀ p, (s.proc p).state ≠ .unused → ∀ v e,
    s.mem.entry (s.proc p).pagetable v = some e → IsLeaf e
  trampoline : ∀ p, (s.proc p).state ≠ .unused →
    s.mem.map (s.proc p).pagetable (TRAMPOLINE / PGSIZE) =
      some (pgrounddown s.trampoline, PTE_R ||| PTE_X ||| PTE_V)
  trapframe : ∀ p, (s.proc p).state ≠ .unused →
    s.mem.map (s.proc p).pagetable (TRAPFRAME / PGSIZE) =
      some ((s.proc p).tf, PTE_R ||| PTE_W ||| PTE_V)
  /-- The physical page of a user page is mapped nowhere else. -/
  once : ∀ p q, (s.proc p).state ≠ .unused → (s.proc q).state ≠ .unused →
    ∀ v w pa flags flags', v * PGSIZE < pgroundup (s.proc p).sz →
    s.mem.map (s.proc p).pagetable v = some (pa, flags) →
    s.mem.map (s.proc q).pagetable w = some (pa, flags') → q = p ∧ w = v
  notFree : ∀ p, (s.proc p).state ≠ .unused → ∀ v pa flags, v * PGSIZE < pgroundup (s.proc p).sz →
    s.mem.map (s.proc p).pagetable v = some (pa, flags) → pa ∉ s.mem.free
  /-- `proc_freepagetable` returns. -/
  frees : ∀ p, (s.proc p).state ≠ .unused →
    ∃ m', procFreepagetable (s.proc p).pagetable (s.proc p).sz s.mem = .ok ((), m')

section AddressSpaces

variable (h : MemInv s) (hp : (s.proc p).state ≠ .unused)

include h hp

theorem below_iff (v : Nat) : v * PGSIZE < pgroundup (s.proc p).sz ↔ v < pages (s.proc p).sz := by
  rw [pgroundup_eq (h.sound p hp).space.le_npages]
  exact Nat.mul_lt_mul_right (by decide)

/-- An entry is a user page, the trampoline or the trapframe. -/
theorem entry_cases (he : s.mem.entry (s.proc p).pagetable v = some e) :
    (v < pages (s.proc p).sz ∧ IsLeaf e ∧ s.mem.Freeable (pte2pa e) ∧
        pte2pa e ∈ s.mem.holds (s.proc p).pagetable (pages (s.proc p).sz)) ∨
      (v = TRAMPOLINE / PGSIZE ∧ e = pa2pte s.trampoline ||| (PTE_R ||| PTE_X) ||| PTE_V) ∨
      (v = TRAPFRAME / PGSIZE ∧ e = pa2pte (s.proc p).tf ||| (PTE_R ||| PTE_W) ||| PTE_V) := by
  have hsp := (h.sound p hp).space
  by_cases hv : v < pages (s.proc p).sz
  · obtain ⟨e', he', hleaf, hok⟩ := hsp.user v hv
    rw [he] at he'
    cases he'
    exact .inl ⟨hv, hleaf, hok, Mem.holds_of_entry hv he⟩
  · rw [hsp.rest v (by omega)] at he
    by_cases htr : v = TRAMPOLINE / PGSIZE
    · rw [htr, procTop_trampoline] at he
      exact .inr (.inl ⟨htr, (Option.some.inj he).symm⟩)
    · by_cases htf : v = TRAPFRAME / PGSIZE
      · rw [htf, procTop_trapframe] at he
        exact .inr (.inr ⟨htf, (Option.some.inj he).symm⟩)
      · rw [procTop_other htr htf] at he
        cases he

theorem tf_freeable : s.mem.Freeable (s.proc p).tf ∧ (s.proc p).tf ∈ s.hold (some p) := by
  have hin : (s.proc p).tf ∈ s.hold (some p) := by
    rw [Sys.hold_used hp]
    exact .inl rfl
  exact ⟨(h.parted.held (some p) _ hin).1, hin⟩

omit h in
theorem hold_of_holds (hpa : pa ∈ s.mem.holds (s.proc p).pagetable (pages (s.proc p).sz)) :
    pa ∈ s.hold (some p) := by
  rw [Sys.hold_used hp]
  exact .inr hpa

end AddressSpaces

theorem map_eq_some {m : Mem} {pt flags : Nat} (h : m.map pt v = some (pa, flags)) :
    ∃ e, m.entry pt v = some e ∧ pte2pa e = pa := by
  obtain ⟨e, he, hd⟩ := Option.map_eq_some_iff.mp h
  exact ⟨e, he, congrArg Prod.fst hd⟩

section

variable (h : MemInv s) (hp : (s.proc p).state ≠ .unused)

include h hp

theorem MemInv.leaves (v : Nat) :
    (s.mem.map (s.proc p).pagetable v).isSome ↔
      v * PGSIZE < pgroundup (s.proc p).sz ∨ v * PGSIZE = TRAMPOLINE ∨
        v * PGSIZE = TRAPFRAME := by
  have hsp := (h.sound p hp).space
  have hle := hsp.le_npages
  have hsome : (s.mem.map (s.proc p).pagetable v).isSome ↔
      ∃ e, s.mem.entry (s.proc p).pagetable v = some e := by
    unfold Mem.map
    rw [Option.isSome_map, Option.isSome_iff_exists]
  rw [hsome, below_iff h hp]
  constructor
  · rintro ⟨e, he⟩
    rcases entry_cases h hp he with hc | hc | hc
    · exact .inl hc.1
    · refine .inr (.inl ?_)
      rw [hc.1]
      rfl
    · refine .inr (.inr ?_)
      rw [hc.1]
      rfl
  · have htop : ∀ va, v * PGSIZE = va → NPAGES ≤ va / PGSIZE →
        s.mem.entry (s.proc p).pagetable v = procTop s.trampoline (s.proc p).tf (va / PGSIZE) := by
      intro va hv hlow
      rw [← hv, Nat.mul_div_cancel _ (by decide)] at hlow ⊢
      exact hsp.rest v (by omega)
    rintro (hv | hv | hv)
    · obtain ⟨e, he, -⟩ := hsp.user v hv
      exact ⟨e, he⟩
    · rw [htop _ hv (by decide), procTop_trampoline]
      exact ⟨_, rfl⟩
    · rw [htop _ hv (by decide), procTop_trapframe]
      exact ⟨_, rfl⟩

/-- The entries above the user pages. -/
theorem MemInv.map_top {perm : Nat} (hv : NPAGES ≤ v)
    (he : procTop s.trampoline (s.proc p).tf v = some (pa2pte pa ||| perm ||| PTE_V))
    (hpa : pa < 2 ^ 64) (hperm : perm < 2 ^ 10) :
    s.mem.map (s.proc p).pagetable v = some (pgrounddown pa, perm ||| PTE_V) := by
  have hsp := (h.sound p hp).space
  unfold Mem.map
  rw [hsp.rest v (hsp.le_npages.trans hv), he, Option.map_some, decodePte, pte2pa_leaf hpa hperm,
    pteFlags_leaf hperm]

/-- The physical page of a user page is mapped once. -/
theorem MemInv.mapped_once (hq : (s.proc q).state ≠ .unused) {w e' : Nat}
    (hv : v < pages (s.proc p).sz) (he : s.mem.entry (s.proc p).pagetable v = some e)
    (he' : s.mem.entry (s.proc q).pagetable w = some e') (hpa : pte2pa e' = pte2pa e) :
    q = p ∧ w = v := by
  have hsp := (h.sound p hp).space
  have hin : pte2pa e ∈ s.mem.holds (s.proc p).pagetable (pages (s.proc p).sz) :=
    Mem.holds_of_entry hv he
  have hhold := hold_of_holds hp hin
  have hok := (h.parted.held (some p) _ hhold).1
  have hsame : pte2pa e ∈ s.hold (some q) → q = p := by
    intro hin'
    by_contra hne
    exact h.parted.apart (some p) (some q) (fun hc => hne (Option.some.inj hc).symm) _ hhold hin'
  rcases entry_cases h hq he' with ⟨hw, -, -, hin'⟩ | ⟨-, rfl⟩ | ⟨-, rfl⟩
  · rw [hpa] at hin'
    have hqp := hsame (hold_of_holds hq hin')
    subst hqp
    exact ⟨rfl, hsp.once w v e' e hw hv he' he hpa⟩
  · -- the trampoline is in the kernel
    rw [pte2pa_leaf h.trampoline_lt (by decide)] at hpa
    have hlow := h.trampoline
    have hdown : pgrounddown s.trampoline ≤ s.trampoline := Nat.div_mul_le_self _ _
    have := hok.2.1
    omega
  · have htf := tf_freeable h hq
    rw [htf.1.leaf (by decide)] at hpa
    rw [← hpa] at hsame hin
    have hqp := hsame htf.2
    subst hqp
    exact absurd hin (h.sound q hq).tf

end

theorem MemInv.addressSpaces (h : MemInv s) : AddressSpaces s where
  leaves p hp v := h.leaves hp v
  inner p hp P i e hP he hleaf := hleaf.flags ((h.sound p hp).space.pointer P i e hP he)
  leaf p hp v e he := by
    rcases entry_cases h hp he with hc | hc | hc
    · exact hc.2.1
    · rw [hc.2]
      exact isLeaf_of_perm (by decide)
    · rw [hc.2]
      exact isLeaf_of_perm (by decide)
  trampoline p hp :=
    h.map_top hp (by decide) (procTop_trampoline _ _) h.trampoline_lt (by decide)
  trapframe p hp := by
    have htf := (tf_freeable h hp).1
    have hdown : pgrounddown (s.proc p).tf = (s.proc p).tf :=
      Nat.div_mul_cancel (Nat.dvd_of_mod_eq_zero htf.1)
    rw [h.map_top hp (by decide) (procTop_trapframe _ _) htf.lt (by decide), hdown]
  once p q hp hq v w pa flags flags' hv hpv hqw := by
    obtain ⟨e, he, rfl⟩ := map_eq_some hpv
    obtain ⟨e', he', hpa⟩ := map_eq_some hqw
    exact h.mapped_once hp hq ((below_iff h hp v).mp hv) he he' hpa
  notFree p hp v pa flags hv hmap := by
    obtain ⟨e, he, rfl⟩ := map_eq_some hmap
    have hin := Mem.holds_of_entry ((below_iff h hp v).mp hv) he
    exact (h.sound p hp).space.not_free hin
  frees p hp := by
    obtain ⟨_, m', hrun, -⟩ := wp_returns
      (procFreepagetable_spec (h.sound p hp).space (.inr rfl))
    exact ⟨m', hrun⟩

/-! ## Runs -/

/-- In every state that a run reaches, each process maps its pages, the
trampoline and the trapframe, no user page is shared or free, and
`proc_freepagetable` does not panic. -/
theorem address_spaces_of_run (hfree : mem.FreeList) (htr : trampoline < mem.kend)
    (hcount : 7 ≤ mem.free.length) (hinit : userinit (blank mem trampoline) = .ok ((), s₀))
    (hcan : system.Meets ProcPagetableSucceeds s₀ ops) (hrun : system.run s₀ ops = some s) :
    AddressSpaces s := by
  have h₀ := (wp_ok (userinit_spec hfree htr hcount) hinit).1
  have h := system.run_invariant_of_meets (I := Inv) (fun s op s' hs hop hstep => by
    obtain ⟨-, hinv, -⟩ := step_spec hs hop hstep
    exact hinv) h₀ hcan hrun
  exact h.mem.addressSpaces

/-- A machine with 24 free pages. -/
def bootMem : Mem where
  page := fun _ _ => 0
  free := (List.range 24).map fun i => 0x87000000 + i * PGSIZE
  kend := 0x80030000

theorem bootMem_free : bootMem.FreeList where
  nodup := by decide
  range := by decide
  base := by decide

/-- The slots of the first process and of its first child. -/
def slot0 : Fin NPROC := ⟨0, zero_lt_NPROC⟩

def slot1 : Fin NPROC := ⟨1, one_lt_NPROC⟩

/-- Play `ops` from the first state with a condition on each call, and test the
state that they reach. -/
def boots (G : Sys → Op → Prop) [∀ s op, Decidable (G s op)] (ops : List Op)
    (test : Sys → Bool) : Bool :=
  match userinit (blank bootMem 0x80007000) with
  | .ok r =>
    match system.run r.2 ops with
    | some s => decide (system.Meets G r.2 ops) && test s
    | none => false
  | .error _ => false

theorem boots_cases {G : Sys → Op → Prop} [∀ s op, Decidable (G s op)] {test : Sys → Bool}
    (h : boots G ops test) :
    ∃ s0 s, userinit (blank bootMem 0x80007000) = .ok ((), s0) ∧
      system.run s0 ops = some s ∧ system.Meets G s0 ops ∧ test s = true := by
  unfold boots at h
  cases hinit : userinit (blank bootMem 0x80007000) with
  | error e =>
    rw [hinit] at h
    cases h
  | ok r =>
    rw [hinit] at h
    dsimp only at h
    cases hrun : system.run r.2 ops with
    | none =>
      rw [hrun] at h
      cases h
    | some s =>
      rw [hrun] at h
      obtain ⟨hmeets, htest⟩ := Bool.and_eq_true_iff.mp h
      exact ⟨r.2, s, rfl, hrun, of_decide_eq_true hmeets, htest⟩

set_option maxRecDepth 20000 in
theorem address_spaces_of_sbrk : ∃ s₀ s,
    userinit (blank bootMem 0x80007000) = .ok ((), s₀) ∧
      system.run s₀ [.fork slot0, .sbrk slot1 5000, .sbrk slot1 (-100)] = some s ∧
      AddressSpaces s := by
  have hboots : boots ProcPagetableSucceeds [.fork slot0, .sbrk slot1 5000, .sbrk slot1 (-100)]
      (fun _ => true) = true := by decide +kernel
  obtain ⟨s₀, s, hinit, hrun, hmeets, -⟩ := boots_cases hboots
  exact ⟨s₀, s, hinit, hrun,
    address_spaces_of_run bootMem_free (by decide) (by decide) hinit hmeets hrun⟩

/-- In every state that a run reaches, a file counts the descriptors that hold it,
each open end of a pipe has exactly one file, and the page of a pipe with an open end
is neither free nor held by a process. -/
theorem descriptors_counted (hfree : mem.FreeList) (htr : trampoline < mem.kend)
    (hcount : 7 ≤ mem.free.length) (hinit : userinit (blank mem trampoline) = .ok ((), s₀))
    (hcan : system.Meets ProcPagetableSucceeds s₀ ops) (hrun : system.run s₀ ops = some s) :
    (∀ f, (s.file f).ref = refCount s.slot f) ∧
    ∀ q w, (s.pipe q).isOpen w = true →
      (∃! f, (s.file f).type = .pipe ∧ (s.file f).pipe = q ∧ (s.file f).writable = w) ∧
      q ∉ s.mem.free ∧ ∀ p, q ∉ s.hold (some p) := by
  have h₀ := (wp_ok (userinit_spec hfree htr hcount) hinit).1
  have h := system.run_invariant_of_meets (I := Inv)
    (fun _ _ _ hs hop hstep => (step_spec hs hop hstep).elim fun _ h => h.1) h₀ hcan hrun
  refine ⟨fun f => by rw [h.files.ref, List.count_nil, Nat.add_zero], fun q w hopen => ?_⟩
  obtain ⟨f, hf⟩ := h.files.opened q w hopen
  have hq : q ∈ s.hold none := by
    cases w with
    | false => exact .inl hopen
    | true => exact .inr hopen
  refine ⟨⟨f, hf, fun g hg => ?_⟩, (h.mem.parted.held none q hq).2, fun p hp => ?_⟩
  · exact h.files.unique g f hg.1 hf.1 (hg.2.1.trans hf.2.1.symm) (hg.2.2.trans hf.2.2.symm)
  · exact h.mem.parted.apart none (some p) (by simp) q hq hp

set_option maxRecDepth 20000 in
/-- A child shares the pipe of its parent and exits, and the pipe stays open. -/
theorem descriptors_counted_of_pipe : ∃ s₀ s q,
    userinit (blank bootMem 0x80007000) = .ok ((), s₀) ∧
      system.run s₀ [.pipe slot0 0, .fork slot0, .exit slot1 0] = some s ∧
      (∀ f, (s.file f).ref = refCount s.slot f) ∧ (s.pipe q).isOpen true = true ∧
      (∃! f, (s.file f).type = .pipe ∧ (s.file f).pipe = q ∧ (s.file f).writable = true) ∧
      q ∉ s.mem.free ∧ ∀ p, q ∉ s.hold (some p) := by
  have hboots : boots ProcPagetableSucceeds [.pipe slot0 0, .fork slot0, .exit slot1 0]
      (fun s => (List.finRange NFILE).any fun f => (s.pipe (s.file f).pipe).isOpen true) =
        true := by decide +kernel
  obtain ⟨s₀, s, hinit, hrun, hmeets, htest⟩ := boots_cases hboots
  obtain ⟨f, -, hopen⟩ := List.any_eq_true.mp htest
  obtain ⟨href, hpipes⟩ :=
    descriptors_counted bootMem_free (by decide) (by decide) hinit hmeets hrun
  exact ⟨s₀, s, (s.file f).pipe, hinit, hrun, href, hopen, hpipes _ true hopen⟩

end SummerOsk.Task
