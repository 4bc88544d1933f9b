import SummerOsk.Vm.Map
import Mathlib.Data.Fintype.Card

/-!
# Address spaces and the pages they hold

`Space m pt n top` says that the page table `pt` maps the first `n` virtual
pages to pages of its own and the pages above as `top` says.  It holds its
tables and its user pages, and no other page.

`Conserves m m' A A'` is the frame of every operation here: the free list and
the pages `A` together are afterwards the free list and the pages `A'`, and
every other page is as it was.
-/

namespace SummerOsk.Vm

open Lib Function Mem

/-! ## Conservation of pages -/

/-- From `m` to `m'` the pages `A` and the free pages became the pages `A'` and
the free pages, and no other page changed. -/
structure Conserves (m m' : Mem) (A A' : Set Nat) : Prop where
  free : m'.FreeList
  kend : m'.kend = m.kend
  same : ∀ p, p ∈ m'.free ∨ p ∈ A' ↔ p ∈ m.free ∨ p ∈ A
  apart : ∀ p ∈ A', p ∉ m'.free
  frame : ∀ p, p ∉ m.free → p ∉ A → m'.page p = m.page p

section Conserves

variable {m m' m'' : Mem} {A A' A'' B : Set Nat}

theorem Conserves.refl (hfree : m.FreeList) (hA : ∀ p ∈ A, p ∉ m.free) : Conserves m m A A :=
  ⟨hfree, rfl, fun _ => Iff.rfl, hA, fun _ _ _ => rfl⟩

theorem Conserves.trans (h : Conserves m m' A A') (h' : Conserves m' m'' A' A'') :
    Conserves m m'' A A'' := by
  refine ⟨h'.free, h'.kend.trans h.kend, fun p => (h'.same p).trans (h.same p), h'.apart, ?_⟩
  intro p hp hpA
  have hno : ¬ (p ∈ m'.free ∨ p ∈ A') := by
    rw [h.same, not_or]
    exact ⟨hp, hpA⟩
  rw [not_or] at hno
  rw [h'.frame p hno.1 hno.2, h.frame p hp hpA]

/-- A page that is neither free nor in `A` stays so. -/
theorem Conserves.not_mem (h : Conserves m m' A A') {p : Nat} (hp : p ∉ m.free) (hA : p ∉ A) :
    p ∉ m'.free ∧ p ∉ A' := by
  rw [← not_or, h.same, not_or]
  exact ⟨hp, hA⟩

/-- Pages that nobody touches can be added on both sides. -/
theorem Conserves.widen (h : Conserves m m' A A') (hfree : ∀ p ∈ B, p ∉ m.free)
    (hA : ∀ p ∈ B, p ∉ A) : Conserves m m' (A ∪ B) (A' ∪ B) := by
  refine ⟨h.free, h.kend, fun p => ?_, fun p hp => ?_, fun p hp hpA => ?_⟩
  · rw [Set.mem_union, Set.mem_union, ← or_assoc, h.same, or_assoc]
  · rcases hp with hp | hp
    · exact h.apart p hp
    · exact (h.not_mem (hfree p hp) (hA p hp)).1
  · rw [Set.mem_union, not_or] at hpA
    exact h.frame p hp hpA.1

end Conserves

/-! ## Address spaces -/

/-- An entry that `freewalk` does not take for a pointer to a table. -/
def IsLeaf (e : Nat) : Prop := e &&& (PTE_R ||| PTE_W ||| PTE_X) ≠ 0

/-- The pages of the memory that the allocator manages. -/
def NPAGES : Nat := (PHYSTOP - KERNBASE) / PGSIZE

/-- The page table `pt` maps the pages below `n` to pages of its own, and those
from `n` on as `top` says.  The pages of `top` are out of reach of the user
pages. -/
structure Space (m : Mem) (pt n : Nat) (top : Nat → Option Nat) : Prop where
  wf : WellFormed m pt
  user : ∀ v < n, ∃ e, m.entry pt v = some e ∧ IsLeaf e ∧ m.Freeable (pte2pa e)
  rest : ∀ v, n ≤ v → m.entry pt v = top v
  low : ∀ v ≤ NPAGES, top v = none
  pointer : ∀ P i e, P.length < 2 → m.slot pt P i = some e → pteFlags e = PTE_V
  tables : ∀ p, m.IsTable pt p → m.Freeable p
  once : ∀ v w e e', v < n → w < n → m.entry pt v = some e → m.entry pt w = some e' →
    pte2pa e = pte2pa e' → v = w
  other : ∀ v e, v < n → m.entry pt v = some e → ¬ m.IsTable pt (pte2pa e) ∧ pte2pa e ∉ m.free

/-- The tables and the user pages of an address space. -/
def Mem.holds (m : Mem) (pt n : Nat) : Set Nat :=
  {p | m.IsTable pt p ∨ ∃ v e, v < n ∧ m.entry pt v = some e ∧ pte2pa e = p}

variable {m m' : Mem} {pt n p v e perm : Nat} {top : Nat → Option Nat}

theorem Mem.holds_of_table (h : m.IsTable pt p) : p ∈ m.holds pt n := .inl h

theorem Mem.holds_of_entry (hv : v < n) (he : m.entry pt v = some e) :
    pte2pa e ∈ m.holds pt n := .inr ⟨v, e, hv, he, rfl⟩

theorem Space.not_free (h : Space m pt n top) (hp : p ∈ m.holds pt n) : p ∉ m.free := by
  rcases hp with hp | ⟨v, e, hv, he, rfl⟩
  · exact fun hfree => h.wf.used p hfree hp
  · exact (h.other v e hv he).2

theorem Space.conserves_refl (h : Space m pt n top) : Conserves m m (m.holds pt n) (m.holds pt n) :=
  Conserves.refl h.wf.free fun _ hp => h.not_free hp

/-- A leaf entry is not a pointer to a table. -/
theorem IsLeaf.flags (h : IsLeaf e) : pteFlags e ≠ PTE_V := by
  intro hflags
  apply h
  have hlow : e % 2 ^ 4 = 1 := by
    unfold pteFlags PTE_V at hflags
    omega
  have hmask : PTE_R ||| PTE_W ||| PTE_X = 14 := rfl
  have hand : e &&& 14 = e % 2 ^ 4 &&& 14 := by
    apply Nat.eq_of_testBit_eq
    intro i
    rw [Nat.testBit_and, Nat.testBit_and, Nat.testBit_mod_two_pow]
    by_cases hi : i < 4
    · simp [hi]
    · have h14 : Nat.testBit 14 i = false :=
        Nat.testBit_lt_two_pow (lt_of_lt_of_le (by decide) (Nat.pow_le_pow_right (by decide)
          (Nat.le_of_not_lt hi)))
      simp [h14]
  rw [hmask, hand, hlow]
  rfl

/-! ## Frame -/

section Frame

variable (hpage : ∀ p, m.IsTable pt p → m'.page p = m.page p) {P : List (Fin 512)}
include hpage

theorem child_frame {t : Nat} (ht : t ∈ below m.child 2 pt) (i : Fin 512) :
    m'.child t i = m.child t i :=
  child_congr (pte_congr (hpage t ht) i)

theorem table_frame (hP : P.length ≤ 2) : m'.table pt P = m.table pt P :=
  nodeAt_congr_below (fun _ ht i => child_frame hpage ht i) hP

theorem isTable_frame : m'.IsTable pt = m.IsTable pt := by
  funext p
  refine propext (exists_congr fun P => and_congr_right fun hP => ?_)
  rw [table_frame hpage hP]

theorem slot_frame (hP : P.length ≤ 2) (i : Fin 512) : m'.slot pt P i = m.slot pt P i := by
  unfold slot
  rw [table_frame hpage hP]
  cases ht : m.table pt P with
  | none => rw [Option.bind_none, Option.bind_none]
  | some t => rw [Option.bind_some, Option.bind_some, pte_congr (hpage t ⟨P, hP, ht⟩) i]

theorem missing_frame (va : Nat) : m'.missing pt va = m.missing pt va := by
  rw [missing_eq, missing_eq, table_frame hpage (P := [px 2 va]) (Nat.le_succ 1),
    table_frame hpage (P := leafPath va) (le_refl 2)]

theorem entry_frame : m'.entry pt = m.entry pt :=
  entry_congr fun _ i hP => slot_frame hpage (by omega) i

theorem holds_frame : m'.holds pt n = m.holds pt n := by
  unfold holds
  rw [isTable_frame hpage, entry_frame hpage]

theorem wellFormed_frame (h : WellFormed m pt) (hfree : m'.FreeList)
    (hused : ∀ p, m.IsTable pt p → p ∉ m'.free) : WellFormed m' pt := by
  refine ⟨h.unshared.congr fun _ ht i => child_frame hpage ht i, h.aligned, ?_, hfree⟩
  intro p hp
  rw [isTable_frame hpage]
  exact fun ht => hused p ht hp

/-- An address space stays as it is while its tables do and none of its pages is
freed. -/
theorem Space.frame (h : Space m pt n top) (hfree : m'.FreeList) (hkend : m'.kend = m.kend)
    (hused : ∀ p ∈ m.holds pt n, p ∉ m'.free) : Space m' pt n top := by
  have htab := isTable_frame hpage
  have hent := entry_frame hpage
  refine ⟨wellFormed_frame hpage h.wf hfree fun p hp => hused p (.inl hp), ?_, ?_, h.low, ?_, ?_,
    ?_, ?_⟩
  · intro v hv
    obtain ⟨e, he, hleaf, hok⟩ := h.user v hv
    exact ⟨e, hent ▸ he, hleaf, hok.congr hkend⟩
  · rw [hent]
    exact h.rest
  · intro P i e hP hs
    rw [slot_frame hpage (by omega)] at hs
    exact h.pointer P i e hP hs
  · intro p hp
    rw [htab] at hp
    exact (h.tables p hp).congr hkend
  · rw [hent]
    exact h.once
  · intro v e hv he
    rw [hent] at he
    rw [htab]
    exact ⟨(h.other v e hv he).1, hused _ (holds_of_entry hv he)⟩

end Frame

/-- An operation on other pages leaves an address space alone. -/
theorem Space.conserved {A A' : Set Nat} (h : Space m pt n top) (hc : Conserves m m' A A')
    (hA : ∀ p ∈ m.holds pt n, p ∉ A) : Space m' pt n top ∧ m'.holds pt n = m.holds pt n := by
  have hpage : ∀ p, m.IsTable pt p → m'.page p = m.page p := fun p hp =>
    hc.frame p (h.not_free (.inl hp)) (hA p (.inl hp))
  exact ⟨h.frame hpage hc.free hc.kend fun p hp => (hc.not_mem (h.not_free hp) (hA p hp)).1,
    holds_frame hpage⟩

/-! ## The size of an address space -/

/-- An address space is not larger than the memory. -/
theorem Space.le_npages (h : Space m pt n top) : n ≤ NPAGES := by
  have hex (v : Fin n) : ∃ q < NPAGES, ∃ e, m.entry pt v = some e ∧
      pte2pa e = KERNBASE + q * PGSIZE := by
    obtain ⟨e, he, -, hal, hlo, hhi⟩ := h.user v v.isLt
    have hbase := h.wf.free.base
    refine ⟨(pte2pa e - KERNBASE) / PGSIZE, ?_, e, he, ?_⟩
    · unfold NPAGES PHYSTOP KERNBASE PGSIZE at *
      omega
    · unfold KERNBASE PGSIZE at *
      omega
  choose q hq e he hpa using hex
  have hinj : Function.Injective fun v => (⟨q v, hq v⟩ : Fin NPAGES) := by
    intro v w hvw
    have hqq : q v = q w := congrArg Fin.val hvw
    exact Fin.ext (h.once v w _ _ v.isLt w.isLt (he v) (he w) (by rw [hpa, hpa, hqq]))
  have hcard := Fintype.card_le_of_injective _ hinj
  rwa [Fintype.card_fin, Fintype.card_fin] at hcard

theorem Space.lt_maxva (h : Space m pt n top) : n < MAXVA / PGSIZE := by
  have := h.le_npages
  unfold NPAGES PHYSTOP KERNBASE MAXVA PGSIZE at *
  omega

/-- The page after the user pages is not mapped. -/
theorem Space.next_free (h : Space m pt n top) : m.entry pt n = none := by
  rw [h.rest n (le_refl _), h.low n h.le_npages]

/-! ## One more page -/

theorem pgrounddown_page (v : Nat) : pgrounddown (v * PGSIZE) = v * PGSIZE := by
  rw [pgrounddown, Nat.mul_div_cancel _ (by decide)]

theorem lastPage_run {v k : Nat} (hk : 0 < k) (hv : (v + k) * PGSIZE ≤ MAXVA) :
    lastPage (v * PGSIZE) (k * PGSIZE) = (v + k - 1) * PGSIZE := by
  unfold lastPage pgrounddown PGSIZE MAXVA at *
  omega

theorem lastPage_page (hv : v < MAXVA / PGSIZE) : lastPage (v * PGSIZE) PGSIZE = v * PGSIZE := by
  have := lastPage_run (v := v) (k := 1) (by decide) (by unfold MAXVA PGSIZE at *; omega)
  rwa [Nat.one_mul, Nat.add_sub_cancel] at this

theorem page_lt_maxva {v : Nat} (hv : v < MAXVA / PGSIZE) : v * PGSIZE < MAXVA := by
  unfold MAXVA PGSIZE at *
  omega

/-- What `mappages` does for a page that is not mapped: it puts the entry `e`
there, or the free pages do not suffice for the tables. -/
structure MappedOne (m m' : Mem) (pt v e : Nat) (r : Int) : Prop extends Extends m m' pt where
  others : ∀ Q, Q.length ≤ 2 → ¬ Q <+: leafPath (v * PGSIZE) → m'.table pt Q = m.table pt Q
  count : m'.free.length = m.free.length - m.missing pt (v * PGSIZE)
  result : r = 0 ∧ m.missing pt (v * PGSIZE) ≤ m.free.length ∧
      m'.entry pt = update (m.entry pt) v (some e) ∨
    r = -1 ∧ m.free.length < m.missing pt (v * PGSIZE) ∧ m'.entry pt = m.entry pt

theorem mappages_one (h : WellFormed m pt) (hv : v < MAXVA / PGSIZE) (hnone : m.entry pt v = none)
    (hp : p < 2 ^ 64) (hperm : perm < 2 ^ 10) :
    wp (mappages pt (v * PGSIZE) PGSIZE p perm) m
      (fun r m' => MappedOne m m' pt v (pa2pte p ||| perm ||| PTE_V) r) fun _ => False := by
  have hva := page_lt_maxva hv
  have hdiv : v * PGSIZE / PGSIZE = v := Nat.mul_div_cancel v (by decide)
  have hfuel : pagesFrom (v * PGSIZE) = (MAXVA / PGSIZE - v - 1) + 1 := by
    rw [pagesFrom, hdiv]
    omega
  rw [mappages, lastPage_page hv, pgrounddown_page, hfuel, mappagesLoop]
  refine wp_seq (walk_alloc h hva) fun r m1 hw => ?_
  cases r with
  | none => exact ⟨hw.toExtends, hw.others, hw.count, .inr ⟨rfl, hw.short.mp rfl, hw.entry⟩⟩
  | some q =>
    have hroom : m.missing pt (v * PGSIZE) ≤ m.free.length := by
      by_contra hlt
      cases hw.short.mpr (by omega)
    have hold : present (m1.pte q.1 q.2) = none := by
      rw [hw.found.2, ← slot_of_table hw.found.1, ← entry_page hva, hdiv, hw.entry, hnone]
    obtain ⟨hext, hnew⟩ := insert_page hperm hp hw.toGrew hva hw.found
    rw [hdiv, runPte_zero hp] at hnew
    refine wp_ite (fun hvalid => ?_) fun _ => ?_
    · rw [present_of_valid hvalid] at hold
      cases hold
    · rw [wp_bind, wp_storePte, if_pos rfl]
      refine ⟨hext, fun Q hQ hout => ?_, hw.count, .inl ⟨rfl, hroom, hnew⟩⟩
      rw [table_store hw.wf rfl hw.found.1 hQ, hw.others Q hQ hout]

/-- What a page table that was extended knows about its tables. -/
theorem Space.extends_tables (h : Space m pt n top) (hext : Extends m m' pt) :
    (∀ q, m'.IsTable pt q → m'.Freeable q) ∧
      ∀ P i e, P.length < 2 → m'.slot pt P i = some e → pteFlags e = PTE_V := by
  obtain ⟨news, hfree, htab⟩ := hext.news
  refine ⟨fun q hq => ?_, fun P i e hP he => ?_⟩
  · refine Freeable.congr (m := m) ?_ hext.kend
    rcases (htab q).mp hq with hq | hq
    · exact h.tables q hq
    · exact h.wf.free.range q (hfree ▸ List.mem_append_left _ hq)
  · rcases hext.pointer P i e hP he with hold | hnew
    · exact h.pointer P i e hP hold
    · exact hnew.2

/-- A page outside the address space and the free list does not become a
table. -/
theorem Extends.not_table {q : Nat} (hext : Extends m m' pt) (hq : ¬ m.IsTable pt q)
    (hfree : q ∉ m.free) : ¬ m'.IsTable pt q ∧ q ∉ m'.free := by
  obtain ⟨news, hnews, htab⟩ := hext.news
  rw [hnews, List.mem_append, not_or] at hfree
  rw [htab, not_or]
  exact ⟨⟨hq, hfree.1⟩, hfree.2⟩

/-- The tables that a page table was extended with come from the free list. -/
theorem Extends.conserves {A A' : Set Nat} (hext : Extends m m' pt)
    (hA : ∀ p, p ∈ A' ↔ p ∈ A ∨ m'.IsTable pt p) (htables : ∀ p, m.IsTable pt p → p ∈ A)
    (hfree : ∀ p ∈ A, p ∉ m.free) : Conserves m m' A A' := by
  obtain ⟨news, hnews, htab⟩ := hext.news
  refine ⟨hext.wf.free, hext.kend, fun p => ?_, fun p hp => ?_, fun p hp hpA => ?_⟩
  · rw [hA, htab, hnews, List.mem_append]
    tauto
  · rcases (hA p).mp hp with hp | hp
    · have := hfree p hp
      rw [hnews, List.mem_append, not_or] at this
      exact this.2
    · exact fun hf => hext.wf.used p hf hp
  · exact hext.frame p (fun ht => hpA (htables p ht)) hp

theorem isLeaf_of_perm {x y : Nat} (h : perm &&& (PTE_R ||| PTE_W ||| PTE_X) ≠ 0) :
    IsLeaf (x ||| perm ||| y) := by
  intro hzero
  apply h
  apply Nat.eq_of_testBit_eq
  intro i
  have hbit := congrArg (Nat.testBit · i) hzero
  simp only [Nat.testBit_and, Nat.testBit_or, Nat.zero_testBit, Bool.and_eq_false_iff,
    Bool.or_eq_false_iff] at hbit ⊢
  tauto

theorem Mem.Freeable.lt (h : m.Freeable p) : p < 2 ^ 64 := by
  have := h.2.2
  unfold PHYSTOP KERNBASE at this
  omega

theorem Mem.Freeable.leaf (h : m.Freeable p) (hperm : perm < 2 ^ 10) :
    pte2pa (pa2pte p ||| perm ||| PTE_V) = p := by
  have hal := h.1
  rw [pte2pa_leaf h.lt hperm]
  unfold pgrounddown PGSIZE at *
  omega

/-- The pages of the tree stay and so do the entries below `n`: only `top`
changes. -/
theorem Space.retop {top' : Nat → Option Nat} (h : Space m pt n top) (hext : Extends m m' pt)
    (hlow : ∀ v ≤ NPAGES, top' v = none) (huser : ∀ v < n, m'.entry pt v = m.entry pt v)
    (hrest : ∀ v, n ≤ v → m'.entry pt v = top' v) :
    Space m' pt n top' ∧ Conserves m m' (m.holds pt n) (m'.holds pt n) := by
  obtain ⟨htables, hpointer⟩ := h.extends_tables hext
  refine ⟨⟨hext.wf, ?_, hrest, hlow, hpointer, htables, ?_, ?_⟩, ?_⟩
  · intro v hv
    obtain ⟨e, he, hleaf, hok⟩ := h.user v hv
    exact ⟨e, huser v hv ▸ he, hleaf, hok.congr hext.kend⟩
  · intro v w e e' hv hw he he'
    rw [huser v hv] at he
    rw [huser w hw] at he'
    exact h.once v w e e' hv hw he he'
  · intro v e hv he
    rw [huser v hv] at he
    obtain ⟨h1, h2⟩ := h.other v e hv he
    exact hext.not_table h1 h2
  · refine hext.conserves (fun q => ?_) (fun q hq => .inl hq) fun q hq => h.not_free hq
    constructor
    · rintro (hq | ⟨v, e, hv, he, hpa⟩)
      · exact .inr hq
      · exact .inl (.inr ⟨v, e, hv, huser v hv ▸ he, hpa⟩)
    · rintro ((⟨P, hP, ht⟩ | ⟨v, e, hv, he, hpa⟩) | hq)
      · exact .inl ⟨P, hP, hext.table P q hP ht⟩
      · exact .inr ⟨v, e, hv, (huser v hv).symm ▸ he, hpa⟩
      · exact .inl hq

/-- The page table of an address space was extended and its map is the same. -/
theorem Space.of_extends (h : Space m pt n top) (hext : Extends m m' pt)
    (hent : m'.entry pt = m.entry pt) :
    Space m' pt n top ∧ Conserves m m' (m.holds pt n) (m'.holds pt n) :=
  h.retop hext h.low (fun _ _ => by rw [hent]) fun v hv => by rw [hent, h.rest v hv]

/-- `mappages` puts the page `p` at the end of the user pages, or finds no page
for a table. -/
theorem Space.map_page (h : Space m pt n top) (hok : m.Freeable p) (hfree : p ∉ m.free)
    (hholds : p ∉ m.holds pt n) (hperm : perm < 2 ^ 10)
    (hleaf : perm &&& (PTE_R ||| PTE_W ||| PTE_X) ≠ 0) :
    wp (mappages pt (n * PGSIZE) PGSIZE p perm) m
      (fun r m' => MappedOne m m' pt n (pa2pte p ||| perm ||| PTE_V) r ∧
        (r = 0 ∧ Space m' pt (n + 1) top ∧
            Conserves m m' (insert p (m.holds pt n)) (m'.holds pt (n + 1)) ∨
          r = -1 ∧ Space m' pt n top ∧ Conserves m m' (m.holds pt n) (m'.holds pt n)))
      fun _ => False := by
  refine wp_mono (mappages_one h.wf h.lt_maxva h.next_free hok.lt hperm) fun r m' hone =>
    ⟨hone, ?_⟩
  have hext := hone.toExtends
  obtain ⟨hr, -, hent⟩ | ⟨hr, -, hent⟩ := hone.result
  swap
  · exact .inr ⟨hr, h.of_extends hext hent⟩
  obtain ⟨htables, hpointer⟩ := h.extends_tables hext
  have hpa := hok.leaf hperm
  have hptab : ¬ m.IsTable pt p := fun ht => hholds (.inl ht)
  -- the entry of a page is the new one, or one from before
  have hsplit : ∀ v e, v < n + 1 → m'.entry pt v = some e →
      v = n ∧ pte2pa e = p ∨ v < n ∧ m.entry pt v = some e := by
    intro v e hv he
    rw [hent] at he
    rcases eq_or_ne v n with rfl | hvn
    · rw [update_self, Option.some.injEq] at he
      exact .inl ⟨rfl, he ▸ hpa⟩
    · rw [update_of_ne hvn] at he
      exact .inr ⟨by omega, he⟩
  have hkeep : ∀ v e, v < n → m.entry pt v = some e → m'.entry pt v = some e := by
    intro v e hv he
    rw [hent, update_of_ne (by omega), he]
  refine .inl ⟨hr, ⟨hext.wf, ?_, ?_, h.low, hpointer, htables, ?_, ?_⟩, ?_⟩
  · intro v hv
    rcases eq_or_ne v n with rfl | hvn
    · refine ⟨_, by rw [hent, update_self], isLeaf_of_perm hleaf, ?_⟩
      rw [hpa]
      exact hok.congr hext.kend
    · obtain ⟨e, he, hl, hq⟩ := h.user v (by omega)
      exact ⟨e, hkeep v e (by omega) he, hl, hq.congr hext.kend⟩
  · intro v hv
    rw [hent, update_of_ne (by omega)]
    exact h.rest v (by omega)
  · intro v w e e' hv hw he he' heq
    rcases hsplit v e hv he with ⟨hvn, hpe⟩ | ⟨hv', he⟩ <;>
      rcases hsplit w e' hw he' with ⟨hwn, hpe'⟩ | ⟨hw', he'⟩
    · rw [hvn, hwn]
    · have hmem := holds_of_entry hw' he'
      rw [← heq, hpe] at hmem
      exact absurd hmem hholds
    · have hmem := holds_of_entry hv' he
      rw [heq, hpe'] at hmem
      exact absurd hmem hholds
    · exact h.once v w e e' hv' hw' he he' heq
  · intro v e hv he
    rcases hsplit v e hv he with ⟨-, hpe⟩ | ⟨hv', he⟩
    · rw [hpe]
      exact hext.not_table hptab hfree
    · obtain ⟨h1, h2⟩ := h.other v e hv' he
      exact hext.not_table h1 h2
  · refine hext.conserves (fun q => ?_) (fun q hq => .inr (.inl hq)) fun q hq => ?_
    · constructor
      · rintro (hq | ⟨v, e, hv, he, rfl⟩)
        · exact .inr hq
        · rcases hsplit v e hv he with ⟨-, hpe⟩ | ⟨hv', he⟩
          · exact .inl (Set.mem_insert_iff.mpr (.inl hpe))
          · exact .inl (.inr (holds_of_entry hv' he))
      · rintro ((rfl | hq) | hq)
        · exact .inr ⟨n, _, by omega, by rw [hent, update_self], hpa⟩
        · rcases hq with hq | ⟨v, e, hv, he, rfl⟩
          · obtain ⟨P, hP, ht⟩ := hq
            exact .inl ⟨P, hP, hext.table P q hP ht⟩
          · exact holds_of_entry (by omega) (hkeep v e hv he)
        · exact .inl hq
    · rcases hq with rfl | hq
      · exact hfree
      · exact h.not_free hq

/-! ## The tables of an address space -/

/-- The tables that have to be added for the user page `n`, when the ones below
are mapped. -/
def stepTables (n : Nat) : Nat := if n % 512 = 0 then if n = 0 then 2 else 1 else 0

/-- The tables that are needed to map the first `n` pages, besides the root. -/
def tablesFor (n : Nat) : Nat := if n = 0 then 0 else (n + 511) / 512 + 1

theorem tablesFor_succ (n : Nat) : tablesFor (n + 1) = tablesFor n + stepTables n := by
  unfold tablesFor stepTables
  split_ifs <;> omega

theorem Space.missing_le (h : Space m pt n top) : m.missing pt (n * PGSIZE) ≤ stepTables n := by
  have hle := h.le_npages
  have hmax := h.lt_maxva
  rcases eq_or_ne n 0 with rfl | hzero
  · exact m.missingFrom_le _ 2 pt
  · -- the page before is mapped, so its tables are there
    obtain ⟨e, he, -⟩ := h.user (n - 1) (by omega)
    have hva : (n - 1) * PGSIZE < MAXVA := page_lt_maxva (by omega)
    have hdiv : (n - 1) * PGSIZE / PGSIZE = n - 1 := Nat.mul_div_cancel _ (by decide)
    rw [← hdiv] at he
    obtain ⟨t, ht, -⟩ := table_of_entry hva he
    have htwo : px 2 ((n - 1) * PGSIZE) = px 2 (n * PGSIZE) := by
      apply Fin.ext
      rw [val_px, val_px]
      unfold NPAGES PHYSTOP KERNBASE PGSIZE at *
      omega
    unfold stepTables
    by_cases hmod : n % 512 = 0
    · rw [if_pos hmod, if_neg hzero]
      obtain ⟨q, hq, -⟩ := nodeAt_snoc_eq_some (P := [px 2 ((n - 1) * PGSIZE)]) ht
      rw [htwo] at hq
      exact missing_of_middle hq
    · have hone : px 1 ((n - 1) * PGSIZE) = px 1 (n * PGSIZE) := by
        apply Fin.ext
        rw [val_px, val_px]
        unfold PGSIZE at *
        omega
      rw [if_neg hmod]
      rw [leafPath_eq, htwo, hone, ← leafPath_eq] at ht
      exact le_of_eq (missing_of_leaf ht)

end SummerOsk.Vm
