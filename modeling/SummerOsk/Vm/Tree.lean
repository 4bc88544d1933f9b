import SummerOsk.Vm.Defs
import SummerOsk.Lib.Radix
import Mathlib.Data.Nat.Bitwise

/-!
# The tree of page-table pages

A page table is a tree in memory: the valid entries of a page at depth 0 or 1
point to the pages one level down, and the pages at depth 2 hold the leaf
entries.  `WellFormed` says that no page is in the tree twice or on the free
list.  `walk` follows a path (`walk_eq`), and with `alloc` it hangs empty pages
into the tree, which no leaf entry notices (`walk_alloc`).
-/

namespace SummerOsk.Vm

open Lib Function List Mem

variable {e : Nat} {m'' : Mem}

/-! ## Entries -/

/-- An entry, if it is valid. -/
def present (e : Nat) : Option Nat := if e &&& PTE_V ≠ 0 then some e else none

@[simp] theorem present_zero : present 0 = none := rfl

theorem present_of_valid (h : e &&& PTE_V ≠ 0) : present e = some e := if_pos h

theorem present_of_not_valid (h : e &&& PTE_V = 0) : present e = none :=
  if_neg (not_not.mpr h)

theorem eq_of_present {e' : Nat} (h : present e = some e') : e' = e ∧ e &&& PTE_V ≠ 0 := by
  unfold present at h
  split_ifs at h with hv
  exact ⟨(Option.some.inj h).symm, hv⟩

/-- The entry that `mappages` writes. -/
theorem pa2pte_or {pa f : Nat} (hf : f < 2 ^ 10) : pa2pte pa ||| f = pa / 2 ^ 12 * 2 ^ 10 + f := by
  unfold pa2pte
  rw [Nat.mul_comm, Nat.two_pow_add_eq_or_of_lt hf]

theorem or_valid_lt {perm : Nat} (h : perm < 2 ^ 10) : perm ||| PTE_V < 2 ^ 10 :=
  Nat.or_lt_two_pow h (by decide)

section Leaf

variable {pa perm : Nat} (hpa : pa < 2 ^ 64) (hperm : perm < 2 ^ 10)

include hperm in
theorem leaf_eq : pa2pte pa ||| perm ||| PTE_V = pa / 2 ^ 12 * 2 ^ 10 + (perm ||| PTE_V) := by
  rw [Nat.lor_assoc, pa2pte_or (or_valid_lt hperm)]

include hpa hperm in
theorem leaf_lt : pa2pte pa ||| perm ||| PTE_V < 2 ^ 64 := by
  have := or_valid_lt hperm
  rw [leaf_eq hperm]
  omega

theorem leaf_valid : (pa2pte pa ||| perm ||| PTE_V) &&& PTE_V ≠ 0 := by
  intro h
  have hbit := congrArg (Nat.testBit · 0) h
  simp [PTE_V] at hbit

include hpa hperm in
theorem pte2pa_leaf : pte2pa (pa2pte pa ||| perm ||| PTE_V) = pgrounddown pa := by
  have := or_valid_lt hperm
  rw [leaf_eq hperm, pte2pa, pgrounddown, PGSIZE]
  omega

include hperm in
theorem pteFlags_leaf : pteFlags (pa2pte pa ||| perm ||| PTE_V) = perm ||| PTE_V := by
  have := or_valid_lt hperm
  rw [leaf_eq hperm, pteFlags]
  omega

end Leaf

/-- A pointer to a lower table is a leaf without permissions. -/
theorem pointer_eq (p : Nat) : pa2pte p ||| PTE_V = pa2pte p ||| 0 ||| PTE_V := by
  rw [Nat.or_zero]

/-! ## Memory -/

variable {m m' : Mem} {pt p va q t : Nat} {P : List (Fin 512)} {i j : Fin 512} {E : Stop → Prop}

theorem Mem.page_setPage_self (m : Mem) (p : Nat) (x : Bytes) : (m.setPage p x).page p = x := by
  simp only [setPage, update_self]

theorem Mem.page_setPage_of_ne (m : Mem) {p : Nat} (x : Bytes) (h : q ≠ p) :
    (m.setPage p x).page q = m.page q := by
  simp only [setPage, update_of_ne h]

theorem Mem.page_setPte_of_ne (m : Mem) (i : Fin 512) (e : Nat) (h : q ≠ t) :
    (m.setPte t i e).page q = m.page q :=
  m.page_setPage_of_ne _ h

theorem Mem.pte_setPte (m : Mem) (t t' e : Nat) (i j : Fin 512) :
    (m.setPte t i e).pte t' j = if t' = t ∧ j = i then e % 2 ^ 64 else m.pte t' j := by
  unfold pte setPte
  rcases eq_or_ne t' t with rfl | ht
  · rw [page_setPage_self]
    rcases eq_or_ne j i with rfl | hj
    · rw [if_pos ⟨rfl, rfl⟩, getLE_putLE, show 256 ^ 8 = 2 ^ 64 by norm_num]
    · rw [if_neg (fun h => hj h.2), getLE_putLE_of_disjoint _ _ (by omega)]
  · rw [page_setPage_of_ne _ _ ht, if_neg (fun h => ht h.1)]

theorem Mem.pte_setPage_of_ne (m : Mem) {p : Nat} (x : Bytes) (h : t ≠ p) (i : Fin 512) :
    (m.setPage p x).pte t i = m.pte t i := by
  unfold pte
  rw [page_setPage_of_ne _ _ h]

theorem Mem.pte_congr {m m' : Mem} (h : m'.page t = m.page t) (i : Fin 512) :
    m'.pte t i = m.pte t i := by
  rw [pte, pte, h]

/-- The child of a page of the tree. -/
def Mem.child (m : Mem) (t : Nat) (i : Fin 512) : Option Nat := (present (m.pte t i)).map pte2pa

/-- The page at the end of a path in the page table `pt`. -/
abbrev Mem.table (m : Mem) (pt : Nat) (P : List (Fin 512)) : Option Nat := nodeAt m.child pt P

/-- The valid entry `i` of the page at the end of a path. -/
def Mem.slot (m : Mem) (pt : Nat) (P : List (Fin 512)) (i : Fin 512) : Option Nat :=
  (m.table pt P).bind fun t => present (m.pte t i)

/-- `p` is a page of the tree. -/
def Mem.IsTable (m : Mem) (pt p : Nat) : Prop := ∃ P, P.length ≤ 2 ∧ m.table pt P = some p

theorem Mem.slot_of_table (h : m.table pt P = some t) : m.slot pt P i = present (m.pte t i) := by
  unfold Mem.slot
  rw [h]
  rfl

theorem Mem.table_snoc : m.table pt (P ++ [i]) = (m.slot pt P i).map pte2pa := by
  rw [Mem.table, nodeAt_snoc, Mem.slot, Option.map_bind]
  rfl

theorem Mem.child_congr {t' : Nat} (h : m'.pte t' j = m.pte t' j) :
    m'.child t' j = m.child t' j := by
  unfold child
  rw [h]

/-- The free list holds distinct pages of the memory above the kernel. -/
structure Mem.FreeList (m : Mem) : Prop where
  nodup : m.free.Nodup
  range : ∀ p ∈ m.free, p % PGSIZE = 0 ∧ m.kend ≤ p ∧ p < PHYSTOP
  base : KERNBASE ≤ m.kend

/-- A three-level tree of pages without sharing, none of them free. -/
structure WellFormed (m : Mem) (pt : Nat) : Prop where
  unshared : Unshared m.child 2 pt
  aligned : pt % PGSIZE = 0
  used : ∀ p ∈ m.free, ¬ m.IsTable pt p
  free : m.FreeList

/-- `m'` is `m` with pages of the free list added to the page table.  The leaf
entries may differ. -/
structure Extends (m m' : Mem) (pt : Nat) : Prop where
  wf : WellFormed m' pt
  kend : m'.kend = m.kend
  news : ∃ news, m.free = news ++ m'.free ∧
    ∀ p, m'.IsTable pt p ↔ m.IsTable pt p ∨ p ∈ news
  table : ∀ P t, P.length ≤ 2 → m.table pt P = some t → m'.table pt P = some t
  pointer : ∀ P i e, P.length < 2 → m'.slot pt P i = some e →
    m.slot pt P i = some e ∨ m.slot pt P i = none ∧ pteFlags e = PTE_V
  frame : ∀ p, ¬ m.IsTable pt p → p ∉ m.free → m'.page p = m.page p

/-- `m'` is `m` with empty pages of the free list added to the page table. -/
structure Grew (m m' : Mem) (pt : Nat) : Prop extends Extends m m' pt where
  slot : ∀ P i, P.length = 2 → m'.slot pt P i = m.slot pt P i

theorem Extends.refl (h : WellFormed m pt) : Extends m m pt where
  wf := h
  kend := rfl
  news := ⟨[], rfl, by simp⟩
  table := fun _ _ _ h => h
  pointer := fun _ _ _ _ h => .inl h
  frame := fun _ _ _ => rfl

theorem Extends.trans (h : Extends m m' pt) (h' : Extends m' m'' pt) : Extends m m'' pt := by
  obtain ⟨news, hfree, htab⟩ := h.news
  obtain ⟨news', hfree', htab'⟩ := h'.news
  refine ⟨h'.wf, h'.kend.trans h.kend, ⟨news ++ news', ?_, ?_⟩, ?_, ?_, ?_⟩
  · rw [hfree, hfree', append_assoc]
  · intro p
    rw [htab', htab, mem_append, or_assoc]
  · intro P t hP ht
    exact h'.table P t hP (h.table P t hP ht)
  · intro P i e hP he
    rcases h'.pointer P i e hP he with h1 | ⟨h1, h2⟩
    · exact h.pointer P i e hP h1
    · -- a slot that is empty now was empty before
      refine .inr ⟨?_, h2⟩
      cases hs : m.slot pt P i with
      | none => rfl
      | some e0 =>
        have hchild : m.table pt (P ++ [i]) = some (pte2pa e0) := by
          rw [table_snoc, hs]
          rfl
        have hlen : (P ++ [i]).length ≤ 2 := by
          rw [length_append, length_singleton]
          omega
        have hchild' := h.table _ _ hlen hchild
        rw [table_snoc, h1] at hchild'
        cases hchild'
  · intro p hp hpf
    have hp' : ¬ m'.IsTable pt p := by
      rw [htab]
      rintro (hin | hin)
      · exact hp hin
      · exact hpf (hfree ▸ mem_append_left _ hin)
    have hpf' : p ∉ m'.free := fun hin => hpf (hfree ▸ mem_append_right _ hin)
    rw [h'.frame p hp' hpf', h.frame p hp hpf]

theorem Grew.refl (h : WellFormed m pt) : Grew m m pt :=
  ⟨Extends.refl h, fun _ _ _ => rfl⟩

theorem Grew.trans (h : Grew m m' pt) (h' : Grew m' m'' pt) : Grew m m'' pt :=
  ⟨h.toExtends.trans h'.toExtends, fun P i hP => by rw [h'.slot P i hP, h.slot P i hP]⟩

/-! ## A new page in the tree -/

/-- The memory after `walk` hung the free page `p` under entry `i` of `t`. -/
def Mem.graft (m : Mem) (t : Nat) (i : Fin 512) (p : Nat) (rest : List Nat) : Mem :=
  ((({ m with free := rest } : Mem).setPage p fun _ => 5).setPage p fun _ => 0).setPte t i
    (pa2pte p ||| PTE_V)

section Graft

variable {rest : List Nat} (h : WellFormed m pt) (hP : P.length < 2) (ht : m.table pt P = some t)
  (hslot : present (m.pte t i) = none) (hfree : m.free = p :: rest) {Q : List (Fin 512)}

include ht hslot in
theorem table_before_graft : m.table pt (P ++ [i]) = none := by
  rw [table_snoc, slot_of_table ht, hslot]
  rfl

theorem Mem.page_graft_of_ne (hp : q ≠ p) (ht : q ≠ t) :
    (m.graft t i p rest).page q = m.page q := by
  unfold graft
  rw [page_setPte_of_ne _ _ _ ht, page_setPage_of_ne _ _ hp, page_setPage_of_ne _ _ hp]

theorem Mem.pte_graft_of_ne (hp : q ≠ p) (hqt : q ≠ t ∨ j ≠ i) :
    (m.graft t i p rest).pte q j = m.pte q j := by
  have hne : ¬ (q = t ∧ j = i) := fun hboth => hqt.elim (· hboth.1) (· hboth.2)
  unfold graft
  rw [pte_setPte, if_neg hne, pte_setPage_of_ne _ _ hp, pte_setPage_of_ne _ _ hp, pte, pte]

theorem getLE_zero (o w : Nat) : getLE (fun _ => 0) o w = 0 := by
  induction w generalizing o with
  | zero => rfl
  | succ w ih =>
    rw [getLE, ih]
    rfl

theorem Mem.pte_graft_new (hpt : p ≠ t) : (m.graft t i p rest).pte p j = 0 := by
  unfold graft
  rw [pte_setPte, if_neg (fun h => hpt h.1), pte, page_setPage_self, getLE_zero]

include h hfree in
theorem fresh_page : p % PGSIZE = 0 ∧ p < PHYSTOP ∧ ∀ Q, Q.length ≤ 2 → m.table pt Q ≠ some p := by
  have hmem : p ∈ m.free := by
    rw [hfree]
    exact mem_cons_self
  obtain ⟨h1, -, h2⟩ := h.free.range p hmem
  exact ⟨h1, h2, fun Q hQ hq => h.used p hmem ⟨Q, hQ, hq⟩⟩

theorem pointer_facts (haligned : p % PGSIZE = 0) (hp : p < PHYSTOP) :
    (pa2pte p ||| PTE_V) % 2 ^ 64 = pa2pte p ||| PTE_V ∧
      present (pa2pte p ||| PTE_V) = some (pa2pte p ||| PTE_V) ∧
      pte2pa (pa2pte p ||| PTE_V) = p ∧ pteFlags (pa2pte p ||| PTE_V) = PTE_V := by
  have hlt : p < 2 ^ 64 := by
    unfold PHYSTOP KERNBASE at hp
    omega
  have hdown : pgrounddown p = p := by
    unfold pgrounddown PGSIZE at *
    omega
  rw [pointer_eq]
  refine ⟨Nat.mod_eq_of_lt (leaf_lt hlt (by decide)), present_of_valid leaf_valid, ?_, ?_⟩
  · rw [pte2pa_leaf hlt (by decide), hdown]
  · rw [pteFlags_leaf (by decide)]
    rfl

include h hP ht hslot hfree in
theorem table_graft (hQ : Q.length ≤ 2) :
    (m.graft t i p rest).table pt Q = if Q = P ++ [i] then some p else m.table pt Q := by
  obtain ⟨haligned, hlt, hfresh⟩ := fresh_page h hfree
  obtain ⟨hmod, hpre, hpa, -⟩ := pointer_facts haligned hlt
  have hpt : p ≠ t := fun he => hfresh P (by omega) (he ▸ ht)
  refine nodeAt_graft h.unshared hP ht ?_ ?_ ?_ ?_ hfresh hQ
  · rw [child, hslot]
    rfl
  · rw [child, graft, pte_setPte, if_pos ⟨rfl, rfl⟩, hmod, hpre, Option.map_some, hpa]
  · intro j
    rw [child, pte_graft_new hpt]
    rfl
  · intro q j hq hqt
    exact child_congr (pte_graft_of_ne hq hqt)

include h hP ht hslot hfree in
theorem isTable_graft (q : Nat) : (m.graft t i p rest).IsTable pt q ↔ m.IsTable pt q ∨ q ∈ [p] := by
  have htab := fun Q hQ => table_graft (Q := Q) h hP ht hslot hfree hQ
  have hlen : (P ++ [i]).length ≤ 2 := by
    rw [length_append, length_singleton]
    omega
  have hnone := table_before_graft ht hslot
  rw [mem_singleton]
  constructor
  · rintro ⟨Q, hQ, hq⟩
    rw [htab Q hQ] at hq
    split_ifs at hq
    · exact .inr (Option.some.inj hq).symm
    · exact .inl ⟨Q, hQ, hq⟩
  · rintro (⟨Q, hQ, hq⟩ | rfl)
    · refine ⟨Q, hQ, ?_⟩
      rw [htab Q hQ, if_neg, hq]
      rintro rfl
      rw [hnone] at hq
      cases hq
    · exact ⟨P ++ [i], hlen, by rw [htab _ hlen, if_pos rfl]⟩

include h hfree in
theorem freeList_tail {m' : Mem} (hkend : m'.kend = m.kend) (hrest : m'.free = rest) :
    m'.FreeList := by
  have hnodup := h.free.nodup
  rw [hfree, nodup_cons] at hnodup
  refine ⟨hrest ▸ hnodup.2, fun q hq => ?_, hkend ▸ h.free.base⟩
  rw [hrest] at hq
  have hq' : q ∈ m.free := by
    rw [hfree]
    exact mem_cons_of_mem _ hq
  rw [hkend]
  exact h.free.range q hq'

include h hP ht hslot hfree in
theorem wellFormed_graft : WellFormed (m.graft t i p rest) pt := by
  obtain ⟨-, -, hfresh⟩ := fresh_page h hfree
  have htab := fun Q hQ => table_graft (Q := Q) h hP ht hslot hfree hQ
  refine ⟨h.unshared.graft htab hfresh, h.aligned, fun q hq => ?_, freeList_tail h hfree rfl rfl⟩
  have hnodup := h.free.nodup
  rw [hfree, nodup_cons] at hnodup
  rw [isTable_graft h hP ht hslot hfree, mem_singleton]
  rintro (hin | rfl)
  · exact h.used q (hfree ▸ mem_cons_of_mem _ hq) hin
  · exact hnodup.1 hq

include h hP ht hslot hfree in
/-- The entries of the tree after the graft: the one that points to the new
page, and those of the new page, which are all invalid. -/
theorem slot_graft (hQ : Q.length ≤ 2) :
    (m.graft t i p rest).slot pt Q j =
      if Q = P ∧ j = i then some (pa2pte p ||| PTE_V) else m.slot pt Q j := by
  obtain ⟨haligned, hlt, hfresh⟩ := fresh_page h hfree
  obtain ⟨hmod, hpre, -, -⟩ := pointer_facts haligned hlt
  have hpt : p ≠ t := fun he => hfresh P (by omega) (he ▸ ht)
  unfold Mem.slot
  rw [table_graft h hP ht hslot hfree hQ]
  by_cases hQP : Q = P ++ [i]
  · have hnone : m.table pt Q = none := hQP ▸ table_before_graft ht hslot
    have hne : Q ≠ P := by
      intro he
      have := congrArg List.length (he.symm.trans hQP)
      simp at this
    rw [if_pos hQP, if_neg (fun h => hne h.1), hnone, Option.bind_some, pte_graft_new hpt,
      present_zero, Option.bind_none]
  · rw [if_neg hQP]
    cases hq : m.table pt Q with
    | none =>
      have hne : ¬ (Q = P ∧ j = i) := by
        rintro ⟨rfl, -⟩
        rw [ht] at hq
        cases hq
      rw [if_neg hne, Option.bind_none, Option.bind_none]
    | some q =>
      have hqp : q ≠ p := fun he => hfresh Q hQ (he ▸ hq)
      rw [Option.bind_some, Option.bind_some]
      by_cases hqt : q = t ∧ j = i
      · obtain ⟨rfl, rfl⟩ := hqt
        have hQ' : Q = P := h.unshared Q P q hQ (by omega) hq ht
        rw [if_pos ⟨hQ', rfl⟩, graft, pte_setPte, if_pos ⟨rfl, rfl⟩, hmod, hpre]
      · have hne : ¬ (Q = P ∧ j = i) := by
          rintro ⟨rfl, rfl⟩
          rw [ht] at hq
          exact hqt ⟨(Option.some.inj hq).symm, rfl⟩
        have hor : q ≠ t ∨ j ≠ i := by
          rw [← not_and_or]
          exact hqt
        rw [if_neg hne, pte_graft_of_ne hqp hor]

include h hP ht hslot hfree in
theorem grew_graft : Grew m (m.graft t i p rest) pt := by
  obtain ⟨haligned, hlt, -⟩ := fresh_page h hfree
  have hslots := fun Q j hQ => slot_graft (Q := Q) (j := j) h hP ht hslot hfree hQ
  refine ⟨⟨wellFormed_graft h hP ht hslot hfree, rfl,
    ⟨[p], hfree, isTable_graft h hP ht hslot hfree⟩, ?_, ?_, ?_⟩, ?_⟩
  · intro Q q hQ hq
    rw [table_graft h hP ht hslot hfree hQ, if_neg, hq]
    rintro rfl
    rw [table_before_graft ht hslot] at hq
    cases hq
  · intro Q j e hQ he
    rw [hslots Q j (by omega)] at he
    split_ifs at he with hcase
    · obtain ⟨rfl, rfl⟩ := hcase
      cases he
      exact .inr ⟨by rw [slot_of_table ht, hslot], (pointer_facts haligned hlt).2.2.2⟩
    · exact .inl he
  · intro q hq hqf
    refine page_graft_of_ne ?_ ?_
    · rintro rfl
      exact hqf (hfree ▸ mem_cons_self)
    · rintro rfl
      exact hq ⟨P, by omega, ht⟩
  · intro Q j hQ
    rw [hslots Q j (by omega), if_neg]
    rintro ⟨rfl, -⟩
    omega

end Graft

/-! ## `walk` -/

/-- The indices of `va` from `level` down to level 1. -/
def indices (va : Nat) : Nat → List (Fin 512)
  | 0 => []
  | level + 1 => px (level + 1) va :: indices va level

/-- The path to the page with the leaf entry of `va`. -/
def leafPath (va : Nat) : List (Fin 512) := indices va 2

@[simp] theorem length_leafPath (va : Nat) : (leafPath va).length = 2 := rfl

theorem walkFrom_eq (m : Mem) (va level t : Nat) :
    walkFrom va false level t m =
      .ok ((nodeAt m.child t (indices va level)).map fun t => (t, px 0 va), m) := by
  induction level generalizing t with
  | zero => rfl
  | succ level ih =>
    have hload : loadPte (t, px (level + 1) va) m = .ok (m.pte t (px (level + 1) va), m) := rfl
    rw [walkFrom, bind_of_ok hload, indices, nodeAt, child]
    by_cases hv : m.pte t (px (level + 1) va) &&& PTE_V ≠ 0
    · rw [if_pos hv, ih, present_of_valid hv]
      rfl
    · rw [if_neg hv, present_of_not_valid (not_not.mp hv)]
      rfl

/-- `walk` without `alloc` follows the path of `va`. -/
theorem walk_eq (m : Mem) (pt : Nat) {va : Nat} (hva : va < MAXVA) :
    walk pt va false m = .ok ((m.table pt (leafPath va)).map fun t => (t, px 0 va), m) := by
  rw [walk, if_neg (by omega), walkFrom_eq]
  rfl

theorem wp_walk {Q : Option (Nat × Fin 512) → Mem → Prop} (hva : va < MAXVA) :
    wp (walk pt va false) m Q E ↔
      Q ((m.table pt (leafPath va)).map fun t => (t, px 0 va)) m := by
  rw [wp, walk_eq m pt hva]

/-- What `walk` with `alloc` returns: the entry of `va`, or nothing when no page
is free. -/
def Found (m : Mem) (pt va : Nat) : Option (Nat × Fin 512) → Prop
  | some q => m.table pt (leafPath va) = some q.1 ∧ q.2 = px 0 va
  | none => m.free = []

@[simp] theorem wp_loadPte {Q : Nat → Mem → Prop} (q : Nat × Fin 512) :
    wp (loadPte q) m Q E ↔ Q (m.pte q.1 q.2) m := Iff.rfl

@[simp] theorem wp_storePte {Q : Unit → Mem → Prop} (q : Nat × Fin 512)
    (e : Nat) : wp (storePte q e) m Q E ↔ Q () (m.setPte q.1 q.2 e) := Iff.rfl

@[simp] theorem wp_memset {Q : Unit → Mem → Prop} (p : Nat) (v : UInt8) :
    wp (memset p v) m Q E ↔ Q () (m.setPage p fun _ => v) := Iff.rfl

theorem wp_kalloc {Q : Option Nat → Mem → Prop} (hnone : m.free = [] → Q none m)
    (hsome : ∀ p rest, m.free = p :: rest →
      Q (some p) (({ m with free := rest } : Mem).setPage p fun _ => 5)) : wp kalloc m Q E := by
  unfold kalloc
  rw [wp_bind, wp_get]
  cases hf : m.free with
  | nil => exact hnone hf
  | cons p rest => exact hsome p rest hf

/-! ## The pages that `walk` takes -/

/-- The pages that are missing on the way down from the page `t` at `level`. -/
def Mem.missingFrom (m : Mem) (va : Nat) : Nat → Nat → Nat
  | 0, _ => 0
  | level + 1, t =>
    match m.child t (px (level + 1) va) with
    | none => level + 1
    | some c => m.missingFrom va level c

/-- The pages that `walk` has to allocate for `va`. -/
def Mem.missing (m : Mem) (pt va : Nat) : Nat := m.missingFrom va 2 pt

theorem Mem.missingFrom_le (m : Mem) (va level t : Nat) : m.missingFrom va level t ≤ level := by
  induction level generalizing t with
  | zero => exact le_refl _
  | succ level ih =>
    rw [missingFrom]
    split
    · exact le_refl _
    · exact (ih _).trans (Nat.le_succ level)

theorem Mem.table_middle (m : Mem) (pt va : Nat) : m.table pt [px 2 va] = m.child pt (px 2 va) := by
  rw [Mem.table, nodeAt]
  cases m.child pt (px 2 va) <;> rfl

theorem Mem.table_leafPath (m : Mem) (pt va : Nat) :
    m.table pt (leafPath va) = (m.table pt [px 2 va]).bind fun c => m.child c (px 1 va) :=
  nodeAt_snoc (P := [px 2 va])

/-- The missing pages are the tables on the path that are not there. -/
theorem Mem.missing_eq (m : Mem) (pt va : Nat) : m.missing pt va =
    (if m.table pt [px 2 va] = none then 1 else 0) +
      if m.table pt (leafPath va) = none then 1 else 0 := by
  rw [table_leafPath, table_middle, missing, missingFrom]
  cases m.child pt (px 2 va) with
  | none => rfl
  | some c =>
    rw [if_neg (by simp), Nat.zero_add, Option.bind_some]
    show (match m.child c (px 1 va) with | none => 1 | some _ => 0) = _
    generalize m.child c (px 1 va) = o
    cases o <;> rfl

theorem Mem.table_middle_of_leaf (h : m.table pt (leafPath va) = some t) :
    m.table pt [px 2 va] ≠ none := by
  intro hnone
  rw [table_leafPath, hnone] at h
  cases h

theorem Mem.missing_of_leaf (h : m.table pt (leafPath va) = some t) : m.missing pt va = 0 := by
  rw [missing_eq, if_neg (table_middle_of_leaf h), h]
  rfl

theorem Mem.missing_of_middle (h : m.table pt [px 2 va] = some t) : m.missing pt va ≤ 1 := by
  rw [missing_eq, if_neg (by simp [h]), Nat.zero_add]
  split_ifs <;> omega

/-- All levels are missing below a page without children. -/
theorem Mem.missingFrom_of_empty (h : ∀ j, m.child t j = none) (va level : Nat) :
    m.missingFrom va level t = level := by
  cases level with
  | zero => rfl
  | succ level => rw [missingFrom, h]

/-- What `walk` with `alloc` does: it adds empty pages on the path of `va`, the
`n` that are missing or as many as are free. -/
structure Walked (m m' : Mem) (pt va n : Nat) (r : Option (Nat × Fin 512)) : Prop
    extends Grew m m' pt where
  found : Found m' pt va r
  others : ∀ Q, Q.length ≤ 2 → ¬ Q <+: leafPath va → m'.table pt Q = m.table pt Q
  count : m'.free.length = m.free.length - n
  short : r = none ↔ m.free.length < n

theorem walkFrom_alloc {va level : Nat} (h : WellFormed m pt) (hP : P.length + level = 2)
    (ht : m.table pt P = some t) (hpath : P ++ indices va level = leafPath va) :
    wp (walkFrom va true level t) m (fun r m' => Walked m m' pt va (m.missingFrom va level t) r)
      fun _ => False := by
  induction level generalizing m t P with
  | zero =>
    rw [indices, append_nil] at hpath
    exact ⟨Grew.refl h, ⟨hpath ▸ ht, rfl⟩, fun _ _ _ => rfl, rfl, by simp [Mem.missingFrom]⟩
  | succ level ih =>
    have hpath' : (P ++ [px (level + 1) va]) ++ indices va level = leafPath va := by
      rw [append_assoc, ← hpath]
      rfl
    have hlen : (P ++ [px (level + 1) va]).length + level = 2 := by
      rw [length_append, length_singleton]
      omega
    unfold walkFrom
    rw [wp_bind, wp_loadPte, Mem.missingFrom, child]
    refine wp_ite (fun hv => ?_) fun hv => ?_
    · rw [present_of_valid hv]
      refine ih h hlen ?_ hpath'
      rw [table_snoc, slot_of_table ht, present_of_valid hv]
      rfl
    · have hslot : present (m.pte t (px (level + 1) va)) = none :=
        present_of_not_valid (not_not.mp hv)
      rw [if_neg (by decide), wp_bind, hslot]
      refine wp_kalloc (fun hnil => ⟨Grew.refl h, hnil, fun _ _ _ => rfl, ?_, ?_⟩)
        fun p rest hfree => ?_
      · rw [hnil, length_nil, Nat.zero_sub]
      · simp [hnil]
      -- the new page is in the tree before the loop goes on, and has no child
      show wp (walkFrom va true level p) (m.graft t (px (level + 1) va) p rest) _ _
      obtain ⟨-, -, hfresh⟩ := fresh_page h hfree
      have hpt : p ≠ t := fun he => hfresh P (by omega) (he ▸ ht)
      have hempty : ∀ j, (m.graft t (px (level + 1) va) p rest).child p j = none := by
        intro j
        rw [child, pte_graft_new hpt]
        rfl
      have hgrew := grew_graft h (by omega) ht hslot hfree
      have htable := fun Q => table_graft (Q := Q) h (by omega) ht hslot hfree
      refine wp_mono (ih hgrew.wf hlen (by rw [htable _ (by omega), if_pos rfl]) hpath')
        fun r m' hr => ⟨hgrew.trans hr.toGrew, hr.found, fun Q hQ hout => ?_, ?_, ?_⟩
      · rw [hr.others Q hQ hout, htable Q hQ, if_neg]
        rintro rfl
        exact hout ⟨_, hpath'⟩
      · rw [hr.count, missingFrom_of_empty hempty, hfree]
        exact (Nat.add_sub_add_right rest.length 1 level).symm
      · rw [hr.short, missingFrom_of_empty hempty, hfree]
        exact Nat.succ_lt_succ_iff.symm

theorem walk_alloc (h : WellFormed m pt) (hva : va < MAXVA) :
    wp (walk pt va true) m (fun r m' => Walked m m' pt va (m.missing pt va) r) fun _ => False := by
  rw [walk, if_neg (by omega)]
  exact walkFrom_alloc (P := []) h rfl rfl rfl

end SummerOsk.Vm
