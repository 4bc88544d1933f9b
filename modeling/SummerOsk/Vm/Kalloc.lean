import SummerOsk.Lib.Machine
import SummerOsk.Vm.Map

/-!
# The page allocator in raw memory

`kernel/kalloc.c` over memory as bytes.  The free list is threaded through the
first word of the free pages, and `kmem.freelist` is the address of the first of
them.  `kalloc` and `kfree` fill the pages they hand over with junk, and the
owner of a page may fill it with anything.

`Threaded` relates the words in memory to a list of pages.  `Pool` is what holds
after `kinit` and any sequence of calls, and `Stands` says how the free list of
`Mem`, which stands next to the memory there, is a view of this one.
-/

namespace SummerOsk.Vm.Raw

open Lib List

/-! ## The program -/

/-- Physical memory, `kmem.freelist` and the address `end`. -/
structure Kmem where
  mem : Bytes
  freelist : Nat
  kend : Nat

abbrev KM (α : Type) : Type := Prog Stop Kmem α

/-- `memset(p, v, PGSIZE)` -/
def memset (p : Nat) (v : UInt8) : KM Unit := modify fun k =>
  { k with mem := fun a => if p ≤ a ∧ a < p + PGSIZE then v else k.mem a }

/-- `kfree`.  `r->next` is the first word of the page. -/
def kfree (pa : Nat) : KM Unit := do
  let k ← get
  if pa % PGSIZE ≠ 0 ∨ pa < k.kend ∨ PHYSTOP ≤ pa then throw (.panic "kfree")
  else
    memset pa 1
    modify fun k => { k with mem := putLE k.mem pa 8 k.freelist, freelist := pa }

/-- `kalloc`.  It returns 0 if there is no page. -/
def kalloc : KM Nat := do
  let k ← get
  let r := k.freelist
  if r ≠ 0 then
    set { k with freelist := getLE k.mem r 8 }
    memset r 5
  return r

/-- The loop of `freerange`, from `p` on. -/
def freerangeLoop (paEnd : Nat) : Nat → Nat → KM Unit
  | 0, _ => return ()
  | n + 1, p => do
    if (p + PGSIZE) % 2 ^ 64 ≤ paEnd then
      kfree p
      freerangeLoop paEnd n ((p + PGSIZE) % 2 ^ 64)
    else return ()

/-- `freerange`.  The loop ends after the pages below `pa_end`. -/
def freerange (paStart paEnd : Nat) : KM Unit :=
  freerangeLoop paEnd (paEnd / PGSIZE + 1) (pgroundup paStart)

/-- `kinit`. -/
def kinit : KM Unit := do
  let k ← get
  freerange k.kend PHYSTOP

/-! ## Sequences of calls -/

/-- The allocator and the pages that `kalloc` has returned and that were not freed
since. -/
structure State where
  kmem : Kmem
  allocated : List Nat

inductive Op where
  | kalloc
  | kfree (pa : Nat)
  /-- The owner of a page stores bytes in it. -/
  | fill (pa : Nat) (x : Bytes)

/-- The memory after the page `pa` was filled. -/
def Kmem.fill (k : Kmem) (pa : Nat) (x : Bytes) : Kmem :=
  { k with mem := fun a => if pa ≤ a ∧ a < pa + PGSIZE then x (a - pa) else k.mem a }

/-- `kfree` is called for allocated pages only, and only those are filled. -/
def Op.Allowed (s : State) : Op → Prop
  | .kalloc => True
  | .kfree pa => pa ∈ s.allocated
  | .fill pa _ => pa ∈ s.allocated

instance (s : State) (op : Op) : Decidable (op.Allowed s) :=
  match op with
  | .kalloc => inferInstanceAs (Decidable True)
  | .kfree pa => inferInstanceAs (Decidable (pa ∈ s.allocated))
  | .fill pa _ => inferInstanceAs (Decidable (pa ∈ s.allocated))

/-- The effect of a call. -/
def Op.run (s : State) : Op → Except Stop State
  | .kalloc => do
    let (r, k) ← Raw.kalloc s.kmem
    return ⟨k, if r = 0 then s.allocated else r :: s.allocated⟩
  | .kfree pa => do
    let (_, k) ← Raw.kfree pa s.kmem
    return ⟨k, s.allocated.erase pa⟩
  | .fill pa x => return ⟨s.kmem.fill pa x, s.allocated⟩

/-- The calls that are allowed and return. -/
def allocator : Machine State Op where
  step s op := if op.Allowed s then (op.run s).toOption else none

/-! ## The list in memory -/

/-- From the address `q` on, the first words of the pages of `l` lead from one to
the next, and the last of them is 0. -/
def Threaded (mem : Bytes) : Nat → List Nat → Prop
  | q, [] => q = 0
  | q, p :: l => q = p ∧ p ≠ 0 ∧ Threaded mem (getLE mem p 8) l

variable {l : List Nat} {p a kend first paEnd pa q : Nat} {k : Kmem} {mem mem' : Bytes} {op : Op}
  {t : State}

/-- The list depends on the first words of its pages. -/
theorem Threaded.congr (h : Threaded mem q l)
    (hword : ∀ p ∈ l, ∀ a, p ≤ a → a < p + 8 → mem' a = mem a) : Threaded mem' q l := by
  induction l generalizing q with
  | nil => exact h
  | cons p l ih =>
    obtain ⟨hq, hp, hrest⟩ := h
    have hnext : getLE mem' p 8 = getLE mem p 8 :=
      getLE_congr fun a hlo hhi => hword p mem_cons_self a hlo hhi
    refine ⟨hq, hp, ?_⟩
    rw [hnext]
    exact ih hrest fun p' hp' => hword p' (mem_cons_of_mem p hp')

theorem Threaded.eq_zero_iff (h : Threaded mem q l) : q = 0 ↔ l = [] := by
  cases l with
  | nil => exact iff_of_true h rfl
  | cons p l => exact iff_of_false (fun hq => h.2.1 (h.1.symm.trans hq)) (cons_ne_nil p l)

/-- Distinct pages do not overlap. -/
theorem pages_apart (hp : p % PGSIZE = 0) (hq : q % PGSIZE = 0) (hne : q ≠ p) (hlo : q ≤ a)
    (hhi : a < q + PGSIZE) : ¬ (p ≤ a ∧ a < p + PGSIZE) := by
  unfold PGSIZE at *
  omega

/-- A store to a page leaves the words of the others alone. -/
theorem Threaded.store (h : Threaded mem q l) (hpa : pa % PGSIZE = 0)
    (hl : ∀ p ∈ l, p % PGSIZE = 0 ∧ p ≠ pa)
    (hsame : ∀ a, ¬ (pa ≤ a ∧ a < pa + PGSIZE) → mem' a = mem a) : Threaded mem' q l := by
  apply h.congr
  intro p hp a hlo hhi
  obtain ⟨hal, hne⟩ := hl p hp
  exact hsame a (pages_apart hpa hal hne hlo (by unfold PGSIZE; omega))

/-! ## The calls -/

/-- The memory after `kfree`. -/
def Kmem.release (k : Kmem) (pa : Nat) : Kmem :=
  { k with
    mem := putLE (fun a => if pa ≤ a ∧ a < pa + PGSIZE then 1 else k.mem a) pa 8 k.freelist
    freelist := pa }

theorem kfree_run (hpa : pa % PGSIZE = 0) (hlo : k.kend ≤ pa)
    (hhi : pa < PHYSTOP) : kfree pa k = .ok ((), k.release pa) := by
  apply run_of_wp
  unfold kfree
  rw [wp_bind, wp_get, if_neg (by omega)]
  exact ⟨rfl, rfl⟩

theorem release_outside (ha : ¬ (pa ≤ a ∧ a < pa + PGSIZE)) : (k.release pa).mem a = k.mem a := by
  have hword : a < pa ∨ pa + 8 ≤ a := by
    unfold PGSIZE at ha
    omega
  unfold Kmem.release
  dsimp only
  rw [putLE_of_not_mem _ _ hword, if_neg ha]

/-- The freed page is the first of the list. -/
theorem Threaded.release (h : Threaded k.mem k.freelist l) (hpa : pa % PGSIZE = 0) (hne : pa ≠ 0)
    (hl : ∀ p ∈ l, p % PGSIZE = 0 ∧ p ≠ pa) (hword : k.freelist < 2 ^ 64) :
    Threaded (k.release pa).mem (k.release pa).freelist (pa :: l) := by
  refine ⟨rfl, hne, ?_⟩
  have hnext : getLE (k.release pa).mem pa 8 = k.freelist := by
    show getLE (putLE _ pa 8 _) pa 8 = _
    rw [getLE_putLE]
    exact Nat.mod_eq_of_lt hword
  rw [hnext]
  exact h.store hpa hl fun a ha => release_outside ha

/-- The memory after `kalloc` took the page `r`. -/
def Kmem.take (k : Kmem) (r : Nat) : Kmem :=
  { k with
    mem := fun a => if r ≤ a ∧ a < r + PGSIZE then 5 else k.mem a
    freelist := getLE k.mem r 8 }

theorem kalloc_run (k : Kmem) :
    kalloc k = .ok (k.freelist, if k.freelist = 0 then k else k.take k.freelist) := by
  apply run_of_wp
  unfold kalloc
  rw [wp_bind, wp_get]
  by_cases hr : k.freelist = 0
  · simp only [hr, ne_eq, not_true_eq_false, if_false, if_true]
    exact ⟨rfl, rfl⟩
  · simp only [hr, ne_eq, not_false_eq_true, if_true, if_false]
    exact ⟨rfl, rfl⟩

theorem Threaded.take (h : Threaded k.mem k.freelist (p :: l)) (hp : p % PGSIZE = 0)
    (hl : ∀ q ∈ l, q % PGSIZE = 0 ∧ q ≠ p) : Threaded (k.take p).mem (k.take p).freelist l :=
  h.2.2.store hp hl fun _ ha => if_neg ha

/-! ## The pool -/

/-- A whole page of the memory above the kernel. -/
def WholePage (kend p : Nat) : Prop := p % PGSIZE = 0 ∧ kend ≤ p ∧ p + PGSIZE ≤ PHYSTOP

/-- The list in memory and the allocated pages are the whole pages between the
kernel and the end of the memory, each of them once. -/
structure Pool (s : State) (l : List Nat) : Prop where
  threaded : Threaded s.kmem.mem s.kmem.freelist l
  nodup : l.Nodup
  once : s.allocated.Nodup
  disjoint : ∀ p ∈ l, p ∉ s.allocated
  whole : ∀ p, p ∈ l ∨ p ∈ s.allocated ↔ WholePage s.kmem.kend p

variable {s : State}

theorem WholePage.lt (h : WholePage kend p) : p < PHYSTOP := by
  have := h.2.2
  unfold PGSIZE at this
  omega

theorem Pool.listed (h : Pool s l) (hp : p ∈ l) : WholePage s.kmem.kend p :=
  (h.whole p).mp (.inl hp)

theorem Pool.owned (h : Pool s l) (hp : p ∈ s.allocated) : WholePage s.kmem.kend p :=
  (h.whole p).mp (.inr hp)

theorem Pool.word (h : Pool s l) : s.kmem.freelist < 2 ^ 64 := by
  have hthr := h.threaded
  cases l with
  | nil =>
    rw [show s.kmem.freelist = 0 from hthr]
    decide
  | cons p l =>
    have hlt := (h.listed mem_cons_self).lt
    rw [hthr.1]
    unfold PHYSTOP KERNBASE at hlt
    omega

theorem Pool.kfree (h : Pool s l) (hend : 0 < s.kmem.kend) (hpa : pa ∈ s.allocated) :
    Pool ⟨s.kmem.release pa, s.allocated.erase pa⟩ (pa :: l) := by
  have hwhole := h.owned hpa
  have hnot : pa ∉ l := fun hl => h.disjoint pa hl hpa
  refine ⟨?_, nodup_cons.mpr ⟨hnot, h.nodup⟩, h.once.erase pa, ?_, ?_⟩
  · refine h.threaded.release hwhole.1 ?_ (fun p hp => ⟨(h.listed hp).1, ?_⟩) h.word
    · have := hwhole.2.1
      omega
    · rintro rfl
      exact hnot hp
  · intro p hp hin
    rcases mem_cons.mp hp with rfl | hp
    · exact h.once.not_mem_erase hin
    · exact h.disjoint p hp (mem_of_mem_erase hin)
  · intro p
    show _ ↔ WholePage s.kmem.kend p
    rw [← h.whole p, mem_cons, h.once.mem_erase_iff]
    rcases eq_or_ne p pa with rfl | heq
    · exact iff_of_true (.inl (.inl rfl)) (.inr hpa)
    · simp only [heq, false_or, ne_eq, not_false_eq_true, true_and]

theorem Pool.kalloc (h : Pool s (p :: l)) : Pool ⟨s.kmem.take p, p :: s.allocated⟩ l := by
  have hwhole := h.listed mem_cons_self
  obtain ⟨hnot, hnodup⟩ := nodup_cons.mp h.nodup
  refine ⟨?_, hnodup, ?_, ?_, ?_⟩
  · refine h.threaded.take hwhole.1 fun q hq => ⟨(h.listed (mem_cons_of_mem p hq)).1, ?_⟩
    rintro rfl
    exact hnot hq
  · exact nodup_cons.mpr ⟨h.disjoint p mem_cons_self, h.once⟩
  · intro q hq hin
    rcases mem_cons.mp hin with rfl | hin
    · exact hnot hq
    · exact h.disjoint q (mem_cons_of_mem p hq) hin
  · intro q
    show _ ↔ WholePage s.kmem.kend q
    rw [← h.whole q, mem_cons, mem_cons]
    tauto

theorem Pool.fill (h : Pool s l) (hpa : pa ∈ s.allocated) (x : Bytes) :
    Pool ⟨s.kmem.fill pa x, s.allocated⟩ l := by
  refine ⟨?_, h.nodup, h.once, h.disjoint, h.whole⟩
  refine h.threaded.store (h.owned hpa).1 (fun p hp => ⟨(h.listed hp).1, ?_⟩) fun a ha => if_neg ha
  rintro rfl
  exact h.disjoint p hp hpa

/-- The empty list is found where all pages are allocated. -/
theorem Pool.kalloc_zero (h : Pool s l) (hrun : Raw.kalloc s.kmem = .ok (0, k))
    (hp : WholePage s.kmem.kend p) : p ∈ s.allocated := by
  rw [kalloc_run] at hrun
  injection hrun with hpair
  have hzero : s.kmem.freelist = 0 := (Prod.mk.inj hpair).1
  have hnil : l = [] := h.threaded.eq_zero_iff.mp hzero
  subst hnil
  exact ((h.whole p).mpr hp).resolve_left not_mem_nil

/-! ## `kinit` -/

/-- The pages that were freed before the loop gets to `p`. -/
structure Freed (k : Kmem) (first p : Nat) (l : List Nat) : Prop where
  threaded : Threaded k.mem k.freelist l
  nodup : l.Nodup
  pages : ∀ q, q ∈ l ↔ q % PGSIZE = 0 ∧ first ≤ q ∧ q < p

theorem Freed.release (h : Freed k first p l) (hp : p % PGSIZE = 0) (hfirst : first ≤ p)
    (hfirst' : first % PGSIZE = 0) (hpos : 0 < first) (hlt : p < 2 ^ 64) :
    Freed (k.release p) first (p + PGSIZE) (p :: l) := by
  have hnot : p ∉ l := fun hl => lt_irrefl p ((h.pages p).mp hl).2.2
  refine ⟨?_, nodup_cons.mpr ⟨hnot, h.nodup⟩, ?_⟩
  · refine h.threaded.release hp (by omega) (fun q hq => ⟨((h.pages q).mp hq).1, ?_⟩) ?_
    · rintro rfl
      exact hnot hq
    · have hthr := h.threaded
      cases l with
      | nil =>
        rw [show k.freelist = 0 from hthr]
        decide
      | cons q l =>
        have := ((h.pages q).mp mem_cons_self).2.2
        rw [hthr.1]
        omega
  · intro q
    rw [mem_cons, h.pages]
    unfold PGSIZE at *
    omega

/-- The loop frees the pages up to `paEnd`. -/
theorem freerangeLoop_spec {n : Nat} (h : Freed k first p l) (hp : p % PGSIZE = 0)
    (hfirst : first ≤ p) (hfirst' : first % PGSIZE = 0) (hpos : 0 < first) (hkend : k.kend ≤ first)
    (hend : paEnd ≤ PHYSTOP) (hlt : p + PGSIZE < 2 ^ 64) (hn : paEnd < p + n * PGSIZE) :
    wp (freerangeLoop paEnd n p) k
      (fun _ k' => k'.kend = k.kend ∧ ∃ l', Threaded k'.mem k'.freelist l' ∧ l'.Nodup ∧
        ∀ q, q ∈ l' ↔ q % PGSIZE = 0 ∧ first ≤ q ∧ (q < p ∨ q + PGSIZE ≤ paEnd))
      fun _ => False := by
  induction n generalizing k p l with
  | zero =>
    refine ⟨rfl, l, h.threaded, h.nodup, fun q => ?_⟩
    rw [h.pages]
    omega
  | succ n ih =>
    rw [freerangeLoop, Nat.mod_eq_of_lt hlt]
    refine wp_ite (fun hmore => ?_) fun hdone => ?_
    · have hpage : p < PHYSTOP := by
        unfold PGSIZE at hmore
        omega
      have hbound : p + PGSIZE + PGSIZE < 2 ^ 64 := by
        unfold PHYSTOP KERNBASE PGSIZE at *
        omega
      rw [wp_bind]
      refine wp_of_run (kfree_run hp (by omega) hpage) ?_
      have hnext : (p + PGSIZE) % PGSIZE = 0 := by rw [Nat.add_mod_right, hp]
      refine wp_mono (ih (h.release hp hfirst hfirst' hpos (by omega)) hnext (by omega) hkend hbound
        (by rw [Nat.succ_mul] at hn; omega)) fun _ k' hk' => ?_
      obtain ⟨hkend', l', hthr, hnodup, hpages⟩ := hk'
      refine ⟨hkend', l', hthr, hnodup, fun q => ?_⟩
      rw [hpages]
      unfold PGSIZE at *
      omega
    · refine ⟨rfl, l, h.threaded, h.nodup, fun q => ?_⟩
      rw [h.pages]
      omega

theorem freerange_run (hlist : k.freelist = 0) (hpos : 0 < k.kend)
    (htop : k.kend + 2 * PGSIZE ≤ 2 ^ 64) (hend : paEnd ≤ PHYSTOP) :
    ∃ k' l, freerange k.kend paEnd k = .ok ((), k') ∧ k'.kend = k.kend ∧
      Threaded k'.mem k'.freelist l ∧ l.Nodup ∧
      ∀ q, q ∈ l ↔ q % PGSIZE = 0 ∧ k.kend ≤ q ∧ q + PGSIZE ≤ paEnd := by
  have hup : pgroundup k.kend = (k.kend + PGSIZE - 1) / PGSIZE * PGSIZE := by
    unfold pgroundup
    rw [Nat.mod_eq_of_lt (by unfold PGSIZE at *; omega)]
  have hbounds : k.kend ≤ pgroundup k.kend ∧ pgroundup k.kend < k.kend + PGSIZE ∧
      pgroundup k.kend % PGSIZE = 0 := by
    unfold PGSIZE at *
    omega
  obtain ⟨hge, hlt, hal⟩ := hbounds
  have hstart : Freed k (pgroundup k.kend) (pgroundup k.kend) [] := by
    refine ⟨hlist, nodup_nil, fun q => ?_⟩
    rw [mem_nil_iff, false_iff]
    omega
  have hfuel : paEnd < pgroundup k.kend + (paEnd / PGSIZE + 1) * PGSIZE := by
    unfold PGSIZE
    omega
  unfold freerange
  generalize paEnd / PGSIZE + 1 = fuel at hfuel
  have hspec := freerangeLoop_spec hstart hal (Nat.le_refl _) hal (by omega) hge hend
    (by unfold PGSIZE at *; omega) hfuel
  obtain ⟨⟨⟩, k', hrun, hkend, l, hthr, hnodup, hpages⟩ := wp_returns hspec
  refine ⟨k', l, hrun, hkend, hthr, hnodup, fun q => ?_⟩
  rw [hpages, hup]
  unfold PGSIZE at *
  omega

/-- `kinit` puts all whole pages above the kernel on the list. -/
theorem kinit_run (hpos : 0 < kend) (htop : kend + 2 * PGSIZE ≤ 2 ^ 64) (mem : Bytes) :
    ∃ k l, kinit ⟨mem, 0, kend⟩ = .ok ((), k) ∧ k.kend = kend ∧ Pool ⟨k, []⟩ l := by
  obtain ⟨k, l, hrun, hkend, hthr, hnodup, hpages⟩ :=
    freerange_run (k := ⟨mem, 0, kend⟩) rfl hpos htop (Nat.le_refl PHYSTOP)
  have hkinit : ∀ k0, kinit k0 = freerange k0.kend PHYSTOP k0 := by
    intro k0
    have hget : (get : KM Kmem) k0 = .ok (k0, k0) := rfl
    rw [kinit, bind_of_ok hget]
  refine ⟨k, l, (hkinit _).trans hrun, hkend, hthr, hnodup, nodup_nil, ?_, fun p => ?_⟩
  · intro p _
    exact not_mem_nil
  · rw [hpages, hkend, WholePage]
    simp

/-! ## The result -/

/-- What an allowed call does. -/
theorem step_cases (h : Pool s l) (hend : 0 < s.kmem.kend) (hop : op.Allowed s) :
    ∃ t l', allocator.step s op = some t ∧ Pool t l' ∧ t.kmem.kend = s.kmem.kend := by
  have hstep : allocator.step s op = (op.run s).toOption := if_pos hop
  rw [hstep]
  cases op with
  | kalloc =>
    have hrun : Op.run s .kalloc = .ok ⟨if s.kmem.freelist = 0 then s.kmem
        else s.kmem.take s.kmem.freelist,
        if s.kmem.freelist = 0 then s.allocated else s.kmem.freelist :: s.allocated⟩ := by
      rw [Op.run, kalloc_run]
      rfl
    rw [hrun]
    cases l with
    | nil =>
      have hzero : s.kmem.freelist = 0 := h.threaded
      rw [if_pos hzero, if_pos hzero]
      exact ⟨s, [], rfl, h, rfl⟩
    | cons p l =>
      have hfirst : s.kmem.freelist = p := h.threaded.1
      rw [hfirst, if_neg h.threaded.2.1, if_neg h.threaded.2.1]
      exact ⟨_, l, rfl, h.kalloc, rfl⟩
  | kfree pa =>
    have hwhole := h.owned hop
    have hrun : Op.run s (.kfree pa) = .ok ⟨s.kmem.release pa, s.allocated.erase pa⟩ := by
      rw [Op.run, kfree_run hwhole.1 hwhole.2.1 hwhole.lt]
      rfl
    rw [hrun]
    exact ⟨_, pa :: l, rfl, h.kfree hend hop, rfl⟩
  | fill pa x => exact ⟨_, l, rfl, h.fill hop x, rfl⟩

theorem step_pool (h : Pool s l) (hend : 0 < s.kmem.kend) (hstep : allocator.step s op = some t) :
    ∃ l', Pool t l' ∧ t.kmem.kend = s.kmem.kend := by
  have hop : op.Allowed s := by
    by_contra hnot
    have hnone : allocator.step s op = none := if_neg hnot
    rw [hnone] at hstep
    cases hstep
  obtain ⟨t', l', ht', hpool, hkend⟩ := step_cases h hend hop
  rw [hstep, Option.some.injEq] at ht'
  subst ht'
  exact ⟨l', hpool, hkend⟩

/-- After `kinit` and any sequence of allowed calls the list in memory and the
allocated pages are the whole pages above the kernel, each once.  No allowed call
panics, `kalloc` returns 0 only when all pages are allocated, and storing
anything in an allocated page leaves the list as it is. -/
theorem allocator_intact (hpos : 0 < kend) (htop : kend + 2 * PGSIZE ≤ 2 ^ 64) (mem : Bytes) :
    ∃ k₀, kinit ⟨mem, 0, kend⟩ = .ok ((), k₀) ∧
      ∀ ops s, allocator.run ⟨k₀, []⟩ ops = some s →
        s.kmem.kend = kend ∧ ∃ l, Pool s l ∧
          (∀ op, op.Allowed s → ∃ t, allocator.step s op = some t) ∧
          (∀ k, kalloc s.kmem = .ok (0, k) → ∀ p, WholePage kend p → p ∈ s.allocated) ∧
          ∀ pa x, pa ∈ s.allocated → Pool ⟨s.kmem.fill pa x, s.allocated⟩ l := by
  obtain ⟨k₀, l₀, hrun, hkend, hpool⟩ := kinit_run hpos htop mem
  refine ⟨k₀, hrun, fun ops s hs => ?_⟩
  have hinv : s.kmem.kend = kend ∧ ∃ l, Pool s l := by
    refine allocator.run_invariant (I := fun s => s.kmem.kend = kend ∧ ∃ l, Pool s l)
      (fun s op t hinv hstep => ?_) ⟨hkend, l₀, hpool⟩ hs
    obtain ⟨hk, l, hl⟩ := hinv
    obtain ⟨l', hl', hk'⟩ := step_pool hl (by omega) hstep
    exact ⟨hk'.trans hk, l', hl'⟩
  obtain ⟨hk, l, hl⟩ := hinv
  refine ⟨hk, l, hl, fun op hop => ?_, fun k hzero p hp => ?_, fun pa x hpa => hl.fill hpa x⟩
  · obtain ⟨t, -, ht, -⟩ := step_cases hl (by omega) hop
    exact ⟨t, ht⟩
  · exact hl.kalloc_zero hzero (hk ▸ hp)

/-- A kernel that ends at `0x80030000`, with memory that is all 0. -/
theorem allocator_intact_boot :
    ∃ k₀, kinit ⟨fun _ => 0, 0, 0x80030000⟩ = .ok ((), k₀) ∧
      ∀ ops s, allocator.run ⟨k₀, []⟩ ops = some s →
        s.kmem.kend = 0x80030000 ∧ ∃ l, Pool s l ∧
          (∀ op, op.Allowed s → ∃ t, allocator.step s op = some t) ∧
          (∀ k, kalloc s.kmem = .ok (0, k) → ∀ p, WholePage 0x80030000 p → p ∈ s.allocated) ∧
          ∀ pa x, pa ∈ s.allocated → Pool ⟨s.kmem.fill pa x, s.allocated⟩ l :=
  allocator_intact (by decide) (by decide) fun _ => 0

/-! ## The free list next to the memory -/

/-- The memory `m`, with its free list next to it, stands for `s`.  The contents of
free pages do not count. -/
structure Stands (s : State) (m : Mem) : Prop where
  pool : Pool s m.free
  kend : m.kend = s.kmem.kend
  page : ∀ p, p % PGSIZE = 0 → p ∉ m.free → ∀ b < PGSIZE, m.page p b = s.kmem.mem (p + b)

variable {m : Mem}

/-- A store to the page `p` leaves the other pages alone. -/
theorem Stands.other {mem x : Bytes} (h : Stands s m) (hp : p % PGSIZE = 0)
    (hsame : ∀ a, ¬ (p ≤ a ∧ a < p + PGSIZE) → mem a = s.kmem.mem a) (hq : q % PGSIZE = 0)
    (hne : q ≠ p) (hnot : q ∉ m.free) {b : Nat} (hb : b < PGSIZE) :
    (m.setPage p x).page q b = mem (q + b) := by
  rw [Mem.page_setPage_of_ne _ _ hne, hsame _ (pages_apart hp hq hne (by omega) (by omega))]
  exact h.page q hq hnot b hb

/-- The effect of a call next to the memory, and the allocated pages. -/
def Op.list (m : Mem) (ps : List Nat) : Op → Except Stop (Mem × List Nat)
  | .kalloc => do
    let (r, m) ← Vm.kalloc m
    return (m, r.toList ++ ps)
  | .kfree pa => do
    let (_, m) ← Vm.kfree pa m
    return (m, ps.erase pa)
  | .fill pa x => return (m.setPage pa x, ps)

def listed : Machine (Mem × List Nat) Op := ⟨fun s op => (op.list s.1 s.2).toOption⟩

theorem Stands.step (h : Stands s m) (hend : 0 < m.kend) (hstep : allocator.step s op = some t) :
    ∃ m', op.list m s.allocated = .ok (m', t.allocated) ∧ m'.kend = m.kend ∧ Stands t m' := by
  obtain ⟨hop, hrun⟩ := Option.ite_none_right_eq_some.mp hstep
  cases op with
  | kalloc =>
    rw [Op.run, kalloc_run] at hrun
    obtain ⟨page, _ | ⟨p, rest⟩, kend⟩ := m
    · rw [show s.kmem.freelist = 0 from h.pool.threaded] at hrun
      cases hrun
      exact ⟨_, rfl, rfl, h⟩
    · have hlist := h.pool.threaded
      rw [hlist.1, if_neg hlist.2.1] at hrun
      change some (State.mk _ (if p = 0 then _ else _)) = _ at hrun
      rw [if_neg hlist.2.1] at hrun
      cases hrun
      refine ⟨_, rfl, rfl, h.pool.kalloc, h.kend, fun q hq hin b hb => ?_⟩
      rcases eq_or_ne q p with rfl | hqp
      · rw [Mem.page_setPage_self]
        exact (if_pos ⟨by omega, by omega⟩).symm
      · exact h.other (h.pool.listed mem_cons_self).1 (fun a ha => if_neg ha) hq hqp
          (fun hq => (mem_cons.mp hq).elim hqp hin) hb
  | kfree pa =>
    have hpa := h.pool.owned hop
    rw [Op.run, kfree_run hpa.1 hpa.2.1 hpa.lt] at hrun
    cases hrun
    have hfree : m.Freeable pa := ⟨hpa.1, h.kend ▸ hpa.2.1, hpa.lt⟩
    have hok : Vm.kfree pa m = .ok ((), m.release pa) :=
      run_of_wp (kfree_spec (fun _ => ⟨rfl, rfl⟩) fun hbad => hbad hfree)
    refine ⟨m.release pa, by rw [Op.list, hok]; rfl, rfl, h.pool.kfree (h.kend ▸ hend) hop, h.kend,
      fun q hq hin b hb => ?_⟩
    obtain ⟨hqp, hqfree⟩ := not_or.mp fun hor => hin (mem_cons.mpr hor)
    exact h.other hpa.1 (fun _ => release_outside) hq hqp hqfree hb
  | fill pa x =>
    cases hrun
    have hpa := (h.pool.owned hop).1
    refine ⟨_, rfl, rfl, h.pool.fill hop x, h.kend, fun q hq hin b hb => ?_⟩
    rcases eq_or_ne q pa with rfl | hqp
    · have hmem : (s.kmem.fill q x).mem (q + b) = x (q + b - q) := if_pos ⟨by omega, by omega⟩
      rw [Mem.page_setPage_self, hmem, Nat.add_sub_cancel_left]
    · exact h.other hpa (fun a ha => if_neg ha) hq hqp hin hb

theorem Stands.run {ops : List Op} (h : Stands s m) (hend : 0 < m.kend)
    (hrun : allocator.run s ops = some t) :
    ∃ m', listed.run (m, s.allocated) ops = some (m', t.allocated) ∧ Stands t m' := by
  induction ops generalizing s m with
  | nil =>
    cases hrun
    exact ⟨m, rfl, h⟩
  | cons op ops ih =>
    obtain ⟨u, hstep, hrest⟩ := allocator.run_cons_eq_some hrun
    obtain ⟨m', hop, hkend, hu⟩ := h.step hend hstep
    obtain ⟨m'', hm, ht⟩ := ih hu (hkend ▸ hend) hrest
    have hl : listed.step (m, s.allocated) op = some (m', u.allocated) :=
      congrArg Except.toOption hop
    exact ⟨m'', by rw [listed.run_cons, hl]; exact hm, ht⟩

/-- After `kinit` every run of the allocator in raw memory is one of the list next to
the memory, which hands out the same pages and leaves the same contents in them. -/
theorem allocator_refines (hpos : 0 < kend) (htop : kend + 2 * PGSIZE ≤ 2 ^ 64) (mem : Bytes) :
    ∃ k m, kinit ⟨mem, 0, kend⟩ = .ok ((), k) ∧ ∀ ops s, allocator.run ⟨k, []⟩ ops = some s →
      ∃ m', listed.run (m, []) ops = some (m', s.allocated) ∧ Stands s m' := by
  obtain ⟨k, l, hrun, hkend, hpool⟩ := kinit_run hpos htop mem
  have h : Stands ⟨k, []⟩ ⟨fun p b => k.mem (p + b), l, kend⟩ :=
    ⟨hpool, hkend.symm, fun _ _ _ _ _ => rfl⟩
  exact ⟨k, _, hrun, fun _ _ => h.run hpos⟩

theorem allocator_refines_boot :
    ∃ k m, kinit ⟨fun _ => 0, 0, 0x80030000⟩ = .ok ((), k) ∧ ∀ ops s,
      allocator.run ⟨k, []⟩ ops = some s →
      ∃ m', listed.run (m, []) ops = some (m', s.allocated) ∧ Stands s m' :=
  allocator_refines (by decide) (by decide) fun _ => 0

end SummerOsk.Vm.Raw
