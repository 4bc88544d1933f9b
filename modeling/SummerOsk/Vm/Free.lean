import SummerOsk.Vm.Alloc

/-!
# Freeing page tables

`freewalk` frees a tree of page-table pages that has no leaf left
(`freewalk_spec`).  The recursion of the code follows the tree: each round of
the loop frees the tree under one entry, and the trees under two entries are
disjoint because no page is shared.
-/

namespace SummerOsk.Vm

open Lib Function List Mem

variable {m m' : Mem} {pt t d p : Nat} {L : List (Fin 512)} {sub : Nat → VmM Unit}

/-- A tree of tables of depth `d` without a leaf. -/
def Bare (m : Mem) : Nat → Nat → Prop
  | 0, t => m.Freeable t ∧ t ∉ m.free ∧ ∀ i, present (m.pte t i) = none
  | d + 1, t => m.Freeable t ∧ t ∉ m.free ∧ ∀ i e, present (m.pte t i) = some e →
      pteFlags e = PTE_V ∧ Bare m d (pte2pa e)

theorem child_eq_some {i : Fin 512} {e : Nat} (h : present (m.pte t i) = some e) :
    m.child t i = some (pte2pa e) := by
  rw [child, h, Option.map_some]

theorem Bare.root (h : Bare m d t) : m.Freeable t ∧ t ∉ m.free := by
  cases d with
  | zero => exact ⟨h.1, h.2.1⟩
  | succ d => exact ⟨h.1, h.2.1⟩

section Congr

variable (hpage : ∀ p ∈ below m.child d t, m'.page p = m.page p)

include hpage in
theorem child_congr_below (hp : p ∈ below m.child d t) (i : Fin 512) : m'.child p i = m.child p i :=
  child_congr (pte_congr (hpage p hp) i)

/-- A tree stays bare while its pages stay as they are and are not freed. -/
theorem Bare.congr (hpage : ∀ p ∈ below m.child d t, m'.page p = m.page p)
    (hkend : m'.kend = m.kend) (hfree : ∀ p ∈ below m.child d t, p ∉ m'.free)
    (h : Bare m d t) : Bare m' d t := by
  induction d generalizing t with
  | zero =>
    refine ⟨h.1.congr hkend, hfree t mem_below_self, fun i => ?_⟩
    rw [pte_congr (hpage t mem_below_self)]
    exact h.2.2 i
  | succ d ih =>
    refine ⟨h.1.congr hkend, hfree t mem_below_self, fun i e he => ?_⟩
    rw [pte_congr (hpage t mem_below_self)] at he
    have hsub : ∀ p ∈ below m.child d (pte2pa e), p ∈ below m.child (d + 1) t := fun p hp =>
      mem_below_succ.mpr (.inr ⟨i, _, child_eq_some he, hp⟩)
    exact ⟨(h.2.2 i e he).1, ih (fun p hp => hpage p (hsub p hp))
      (fun p hp => hfree p (hsub p hp)) (h.2.2 i e he).2⟩

end Congr

/-! ## The loop over the entries of a table -/

/-- The pages of the trees under the entries `L` of `t`. -/
def Mem.under (m : Mem) (d t : Nat) (L : List (Fin 512)) : Set Nat :=
  {p | ∃ i ∈ L, ∃ e, present (m.pte t i) = some e ∧ p ∈ below m.child d (pte2pa e)}

/-- What the loop needs of the entries that are left: they point to disjoint
bare trees that `t` is not in. -/
structure Forest (m : Mem) (d t : Nat) (L : List (Fin 512)) : Prop where
  free : m.FreeList
  root : m.Freeable t ∧ t ∉ m.free
  tree : ∀ i ∈ L, ∀ e, present (m.pte t i) = some e → pteFlags e = PTE_V ∧
    Bare m d (pte2pa e) ∧ Unshared m.child d (pte2pa e) ∧ t ∉ below m.child d (pte2pa e)
  disjoint : ∀ i ∈ L, ∀ j ∈ L, i ≠ j → ∀ e e', present (m.pte t i) = some e →
    present (m.pte t j) = some e' → ∀ p ∈ below m.child d (pte2pa e),
    p ∉ below m.child d (pte2pa e')

theorem Bare.not_free (h : Bare m d t) (hp : p ∈ below m.child d t) : p ∉ m.free := by
  induction d generalizing t with
  | zero =>
    rw [mem_below_zero.mp hp]
    exact h.2.1
  | succ d ih =>
    rcases mem_below_succ.mp hp with rfl | ⟨i, c, hc, hp⟩
    · exact h.2.1
    · obtain ⟨e, he, rfl⟩ := Option.map_eq_some_iff.mp hc
      exact ih (h.2.2 i e he).2 hp

theorem Forest.tail {i : Fin 512} (h : Forest m d t (i :: L)) : Forest m d t L :=
  ⟨h.free, h.root, fun j hj => h.tree j (mem_cons_of_mem _ hj), fun j hj k hk =>
    h.disjoint j (mem_cons_of_mem _ hj) k (mem_cons_of_mem _ hk)⟩

theorem Forest.under_not_free (h : Forest m d t L)
    (hp : p ∈ insert t (m.under d t L)) : p ∉ m.free := by
  rcases Set.mem_insert_iff.mp hp with rfl | ⟨i, hi, e, he, hp⟩
  · exact h.root.2
  · exact (h.tree i hi e he).2.1.not_free hp

section Round

variable {m1 : Mem} {i j : Fin 512} {e e' : Nat} (h : Forest m d t (i :: L)) (hi : i ∉ L)
  (he : present (m.pte t i) = some e)
  (hc : Conserves m m1 (below m.child d (pte2pa e)) ∅)
include h hi he hc

/-- The round leaves the other trees alone. -/
theorem Forest.page_round (hj : j ∈ L) (he' : present (m.pte t j) = some e')
    (hp : p ∈ below m.child d (pte2pa e')) : (m1.setPte t i 0).page p = m.page p ∧ p ∉ m1.free := by
  have hjm := mem_cons_of_mem i hj
  have hij : j ≠ i := fun heq => hi (heq ▸ hj)
  have hother := h.disjoint j hjm i mem_cons_self hij e' e he' he p hp
  have hfree := (h.tree j hjm e' he').2.1.not_free hp
  have hpt : p ≠ t := fun heq => (h.tree j hjm e' he').2.2.2 (heq ▸ hp)
  refine ⟨?_, (hc.not_mem hfree hother).1⟩
  rw [page_setPte_of_ne _ _ _ hpt, hc.frame p hfree hother]

omit hi in
theorem Forest.root_round : m1.page t = m.page t ∧ t ∉ m1.free := by
  have hno := (h.tree i mem_cons_self e he).2.2.2
  exact ⟨hc.frame t h.root.2 hno, (hc.not_mem h.root.2 hno).1⟩

theorem Forest.pte_round (hj : j ∈ L) : (m1.setPte t i 0).pte t j = m.pte t j := by
  have hij : j ≠ i := fun heq => hi (heq ▸ hj)
  rw [pte_setPte, if_neg (fun hboth => hij hboth.2), pte_congr (h.root_round he hc).1]

theorem Forest.below_round (hj : j ∈ L) (he' : present (m.pte t j) = some e') :
    below (m1.setPte t i 0).child d (pte2pa e') = below m.child d (pte2pa e') :=
  below_congr fun _ hp i' => child_congr_below
    (fun _ hp => (h.page_round hi he hc hj he' hp).1) hp i'

theorem Forest.round : Forest (m1.setPte t i 0) d t L := by
  have hkend : (m1.setPte t i 0).kend = m.kend := hc.kend
  refine ⟨⟨hc.free.nodup, hc.free.range, hc.free.base⟩,
    ⟨h.root.1.congr hkend, (h.root_round he hc).2⟩,
    fun j hj e' he' => ?_, fun j hj k hk hjk e' e'' he' he'' => ?_⟩
  · rw [h.pte_round hi he hc hj] at he'
    obtain ⟨hflags, hbare, hun, hroot⟩ := h.tree j (mem_cons_of_mem _ hj) e' he'
    have hpage := fun p hp => h.page_round hi he hc hj he' (p := p) hp
    refine ⟨hflags, hbare.congr (fun p hp => (hpage p hp).1) hkend fun p hp => (hpage p hp).2, ?_,
      ?_⟩
    · exact hun.congr fun p hp k => child_congr_below (fun p hp => (hpage p hp).1) hp k
    · rwa [h.below_round hi he hc hj he']
  · rw [h.pte_round hi he hc hj] at he'
    rw [h.pte_round hi he hc hk] at he''
    rw [h.below_round hi he hc hj he', h.below_round hi he hc hk he'']
    exact h.disjoint j (mem_cons_of_mem _ hj) k (mem_cons_of_mem _ hk) hjk e' e'' he' he''

theorem Forest.under_round : (m1.setPte t i 0).under d t L = m.under d t L := by
  ext p
  refine exists_congr fun j => and_congr_right fun hj => exists_congr fun e' => ?_
  rw [h.pte_round hi he hc hj]
  refine and_congr_right fun he' => ?_
  rw [h.below_round hi he hc hj he']

/-- The pages of one tree are freed, those of the others are left. -/
theorem Forest.conserves_round :
    Conserves m (m1.setPte t i 0) (insert t (m.under d t (i :: L)))
      (insert t (m.under d t L)) := by
  have hrest : ∀ p ∈ insert t (m.under d t L), p ∉ m.free := fun p hp =>
    h.tail.under_not_free hp
  have hapart : ∀ p ∈ insert t (m.under d t L), p ∉ below m.child d (pte2pa e) := by
    intro p hp
    rcases Set.mem_insert_iff.mp hp with rfl | ⟨j, hj, e', he', hp⟩
    · exact (h.tree i mem_cons_self e he).2.2.2
    · exact h.disjoint j (mem_cons_of_mem _ hj) i mem_cons_self
        (fun heq => hi (heq ▸ hj)) e' e he' he p hp
  have hsub := hc.widen hrest hapart
  have hstore : Conserves m1 (m1.setPte t i 0) (∅ ∪ insert t (m.under d t L))
      (∅ ∪ insert t (m.under d t L)) := by
    refine ⟨⟨hc.free.nodup, hc.free.range, hc.free.base⟩, rfl, fun _ => Iff.rfl, hsub.apart,
      fun p _ hp => m1.page_setPte_of_ne _ _ fun heq => hp (.inr (.inl heq))⟩
  have hboth := hsub.trans hstore
  have hset : below m.child d (pte2pa e) ∪ insert t (m.under d t L) =
      insert t (m.under d t (i :: L)) := by
    ext p
    constructor
    · rintro (hp | hp | ⟨j, hj, hp⟩)
      · exact .inr ⟨i, mem_cons_self, e, he, hp⟩
      · exact .inl hp
      · exact .inr ⟨j, mem_cons_of_mem _ hj, hp⟩
    · rintro (hp | ⟨j, hj, e', he', hp⟩)
      · exact .inr (.inl hp)
      · rcases mem_cons.mp hj with rfl | hj
        · rw [he, Option.some.injEq] at he'
          exact .inl (he' ▸ hp)
        · exact .inr (.inr ⟨j, hj, e', he', hp⟩)
  rwa [hset, Set.empty_union] at hboth

end Round

/-- Without a valid entry the loop only frees the table. -/
theorem freewalkLoop_empty (hfree : m.FreeList) (hroot : m.Freeable t ∧ t ∉ m.free)
    (hL : ∀ i ∈ L, present (m.pte t i) = none) :
    wp (freewalkLoop sub t L) m (fun _ m' => Conserves m m' {t} ∅) fun _ => False := by
  induction L with
  | nil =>
    refine kfree_spec (fun hok => ?_) fun hbad => hbad hroot.1
    rw [← insert_empty_eq]
    exact release_conserves hfree hroot.2 (fun hp => hp) hok fun _ hp => hp.elim
  | cons i L ih =>
    have hv : m.pte t i &&& PTE_V = 0 := by
      by_contra hv
      have hnone := hL i mem_cons_self
      rw [present_of_valid hv] at hnone
      cases hnone
    rw [freewalkLoop, wp_bind, wp_loadPte, if_neg (fun hboth => hboth.1 hv),
      if_neg (not_not.mpr hv)]
    exact ih fun j hj => hL j (mem_cons_of_mem _ hj)

theorem freewalkLoop_spec (hsub : ∀ m c, m.FreeList → Unshared m.child d c → Bare m d c →
      wp (sub c) m (fun _ m' => Conserves m m' (below m.child d c) ∅) fun _ => False) (hL : L.Nodup)
    (h : Forest m d t L) :
    wp (freewalkLoop sub t L) m (fun _ m' => Conserves m m' (insert t (m.under d t L)) ∅)
      fun _ => False := by
  induction L generalizing m with
  | nil =>
    have hnone : m.under d t [] = ∅ := by
      ext p
      exact ⟨fun ⟨i, hi, _⟩ => absurd hi not_mem_nil, fun hp => hp.elim⟩
    rw [hnone, insert_empty_eq]
    exact freewalkLoop_empty h.free h.root fun i hi => absurd hi not_mem_nil
  | cons i L ih =>
    rw [nodup_cons] at hL
    rw [freewalkLoop, wp_bind, wp_loadPte]
    by_cases hv : m.pte t i &&& PTE_V = 0
    · have hnone : m.under d t (i :: L) = m.under d t L := by
        ext p
        constructor
        · rintro ⟨j, hj, e, he, hp⟩
          rcases mem_cons.mp hj with rfl | hj
          · rw [present_of_not_valid hv] at he
            cases he
          · exact ⟨j, hj, e, he, hp⟩
        · rintro ⟨j, hj, hp⟩
          exact ⟨j, mem_cons_of_mem _ hj, hp⟩
      rw [if_neg (fun hboth => hboth.1 hv), if_neg (not_not.mpr hv), hnone]
      exact ih hL.2 h.tail
    · have he := present_of_valid hv
      obtain ⟨hflags, hbare, hun, -⟩ := h.tree i mem_cons_self _ he
      have hnoleaf : ¬ IsLeaf (m.pte t i) := fun hleaf => hleaf.flags hflags
      rw [if_pos ⟨hv, not_not.mp hnoleaf⟩]
      refine wp_seq (hsub m _ h.free hun hbare) fun _ m1 hc => ?_
      refine wp_mono (ih hL.2 (h.round hL.1 he hc)) fun _ m' hc' => ?_
      rw [h.under_round hL.1 he hc] at hc'
      exact (h.conserves_round hL.1 he hc).trans hc'

/-- `freewalk` frees the pages of a bare tree, and no other page. -/
theorem freewalk_spec {depth : Nat} (hd : d < depth) (hfree : m.FreeList)
    (hu : Unshared m.child d t) (h : Bare m d t) :
    wp (freewalk depth t) m (fun _ m' => Conserves m m' (below m.child d t) ∅)
      fun _ => False := by
  induction d generalizing depth m t with
  | zero =>
    obtain ⟨depth, rfl⟩ : ∃ k, depth = k + 1 := ⟨depth - 1, by omega⟩
    have hset : below m.child 0 t = {t} := by
      ext p
      rw [mem_below_zero, Set.mem_singleton_iff]
    rw [freewalk, hset]
    generalize finRange 512 = L
    exact freewalkLoop_empty hfree h.root fun i _ => h.2.2 i
  | succ d ih =>
    obtain ⟨depth, rfl⟩ : ∃ k, depth = k + 1 := ⟨depth - 1, by omega⟩
    have hnodup := nodup_finRange 512
    have hall : ∀ i : Fin 512, i ∈ finRange 512 := mem_finRange
    rw [freewalk]
    generalize finRange 512 = L at *
    have hset : below m.child (d + 1) t = insert t (m.under d t L) := by
      ext p
      rw [mem_below_succ, Set.mem_insert_iff]
      refine or_congr_right ⟨?_, ?_⟩
      · rintro ⟨i, c, hc, hp⟩
        obtain ⟨e, he, rfl⟩ := Option.map_eq_some_iff.mp hc
        exact ⟨i, hall i, e, he, hp⟩
      · rintro ⟨i, -, e, he, hp⟩
        exact ⟨i, _, child_eq_some he, hp⟩
    rw [hset]
    refine freewalkLoop_spec (fun m c hf hu' hb => ih (by omega) hf hu' hb) hnodup
      ⟨hfree, h.root, fun i _ e he => ?_, fun i _ j _ hij e e' he he' => ?_⟩
    · exact ⟨(h.2.2 i e he).1, (h.2.2 i e he).2, hu.under (child_eq_some he),
        hu.root_not_under (child_eq_some he)⟩
    · intro p hp
      exact hu.disjoint_under (child_eq_some he) hij (child_eq_some he') hp

/-! ## `uvmfree` -/

variable {n sz v trampoline tf : Nat} {top : Nat → Option Nat}

theorem Mem.holds_zero (m : Mem) (pt : Nat) : m.holds pt 0 = below m.child 2 pt := by
  ext p
  constructor
  · rintro (hp | ⟨v, e, hv, -⟩)
    · exact hp
    · omega
  · exact fun hp => .inl hp

/-- The tree of an address space that maps nothing. -/
theorem Space.bare (h : Space m pt 0 fun _ => none) : Bare m 2 pt := by
  have hall : ∀ d P t, P.length + d = 2 → m.table pt P = some t → Bare m d t := by
    intro d
    induction d with
    | zero =>
      intro P t hP ht
      refine ⟨h.tables t ⟨P, by omega, ht⟩, fun hf => h.wf.used t hf ⟨P, by omega, ht⟩,
        fun i => ?_⟩
      obtain ⟨v, hv, hpath, hlast⟩ := exists_page (P := P) (by omega) i
      have hnone := h.rest v (Nat.zero_le v)
      rwa [entry, if_pos hv, hpath, hlast, slot_of_table ht] at hnone
    | succ d ih =>
      intro P t hP ht
      refine ⟨h.tables t ⟨P, by omega, ht⟩, fun hf => h.wf.used t hf ⟨P, by omega, ht⟩,
        fun i e he => ⟨h.pointer P i e (by omega) (by rw [slot_of_table ht, he]), ?_⟩⟩
      refine ih (P ++ [i]) _ ?_ ?_
      · rw [length_append, length_singleton]
        omega
      · rw [table_snoc, slot_of_table ht, he]
        rfl
  exact hall 2 [] pt rfl rfl

theorem Space.uvmfree (h : Space m pt (pages sz) fun _ => none) (hsz : 0 < sz) :
    wp (uvmfree pt sz) m (fun _ m' => Conserves m m' (m.holds pt (pages sz)) ∅)
      fun _ => False := by
  have hpos : 0 < pages sz := by
    unfold pages PGSIZE
    omega
  have hle := h.le_npages
  have hlast : lastPage (0 * PGSIZE) sz = (pages sz - 1) * PGSIZE := by
    unfold lastPage pgrounddown pages NPAGES PHYSTOP KERNBASE PGSIZE at *
    omega
  have hunmap := h.shrink hpos hlast
  have hwalk (m1 : Mem) (hsp : Space m1 pt 0 fun _ => none) :
      wp (freewalk 16 pt) m1 (fun _ m' => Conserves m1 m' (m1.holds pt 0) ∅) fun _ => False := by
    rw [holds_zero]
    have hbare := hsp.bare
    -- the depth is kept out of the way of the unifier, which would unfold the recursion
    generalize hd : 16 = depth
    exact freewalk_spec (by omega) hsp.wf.free hsp.wf.unshared hbare
  unfold Vm.uvmfree
  generalize freewalk 16 pt = walk at hwalk ⊢
  refine wp_seq hunmap fun _ m1 hr => ?_
  exact wp_mono (hwalk m1 hr.1) fun _ m' hfreed => hr.2.1.trans hfreed

/-! ## The pages above the user pages -/

/-- `uvmunmap` of one page above the user pages that is not freed. -/
theorem Space.drop_top {e : Nat} (h : Space m pt n top) (hn : n ≤ v) (hv : v < MAXVA / PGSIZE)
    (he : top v = some e) (hflags : pteFlags e ≠ PTE_V) :
    wp (uvmunmap pt (v * PGSIZE) PGSIZE false) m
      (fun _ m' => Space m' pt n (update top v none) ∧
        Conserves m m' (m.holds pt n) (m'.holds pt n))
      fun _ => False := by
  have hdiv : v * PGSIZE / PGSIZE = v := Nat.mul_div_cancel v (by decide)
  refine wp_imp (uvmunmap_spec h.wf fun hd => by cases hd) (fun _ m' hpost => ?_)
    fun _ hnot => hnot ?_
  · obtain ⟨freed, c, hrem, hcount, -, hent, hfreed, -⟩ := hpost
    rw [lastPage_page hv, pgrounddown_page, hdiv] at *
    have hc : c = 0 + 1 := by omega
    rw [hc, ← eraseRun_succ, eraseRun_zero] at hent
    rw [hfreed rfl] at hrem
    refine h.retop hrem.extends (fun w hw => ?_) (fun w hw => ?_) fun w hw => ?_
    · by_cases hwv : w = v
      · rw [hwv, update_self]
      · rw [update_of_ne hwv, h.low w hw]
    · rw [hent, update_of_ne (by omega)]
    · rw [hent]
      by_cases hwv : w = v
      · rw [hwv, update_self, update_self]
      · rw [update_of_ne hwv, update_of_ne hwv, h.rest w hw]
  · rw [lastPage_page hv, pgrounddown_page]
    refine ⟨le_refl _, page_lt_maxva hv, fun w hw hw' => ?_⟩
    have hwv : w = v := by omega
    subst hwv
    exact ⟨e, by rw [h.rest w hn, he], hflags, fun hd => by cases hd⟩

/-- `mappages` of one page above the user pages. -/
theorem Space.map_top {perm : Nat} (h : Space m pt n top) (hn : n ≤ v) (hlow : NPAGES < v)
    (hv : v < MAXVA / PGSIZE) (hnone : top v = none) (hp : p < 2 ^ 64) (hperm : perm < 2 ^ 10) :
    wp (mappages pt (v * PGSIZE) PGSIZE p perm) m
      (fun _ m' => m.missing pt (v * PGSIZE) ≤ m.free.length →
        Space m' pt n (update top v (some (pa2pte p ||| perm ||| PTE_V))) ∧
          Conserves m m' (m.holds pt n) (m'.holds pt n) ∧
          m.free.length ≤ m'.free.length + m.missing pt (v * PGSIZE))
      fun _ => False := by
  have hent : m.entry pt v = none := by rw [h.rest v hn, hnone]
  refine wp_mono (mappages_one h.wf hv hent hp hperm) fun r m' hone hroom => ?_
  have hcount := hone.count
  obtain ⟨-, -, hnew⟩ | ⟨-, hfew, -⟩ := hone.result
  · rw [← and_assoc]
    refine ⟨h.retop hone.toExtends (fun w hw => ?_) (fun w hw => ?_) fun w hw => ?_, by omega⟩
    · rw [update_of_ne (by omega), h.low w hw]
    · rw [hnew, update_of_ne (by omega)]
    · rw [hnew]
      by_cases hwv : w = v
      · rw [hwv, update_self, update_self]
      · rw [update_of_ne hwv, update_of_ne hwv, h.rest w hw]
  · omega

/-! ## The page table of a process -/

/-- The entries of the trampoline and the trapframe. -/
def procTop (trampoline tf : Nat) : Nat → Option Nat :=
  update (update (fun _ => none) (TRAMPOLINE / PGSIZE)
    (some (pa2pte trampoline ||| (PTE_R ||| PTE_X) ||| PTE_V))) (TRAPFRAME / PGSIZE)
    (some (pa2pte tf ||| (PTE_R ||| PTE_W) ||| PTE_V))

theorem trampoline_eq : TRAMPOLINE = TRAMPOLINE / PGSIZE * PGSIZE := by decide
theorem trapframe_eq : TRAPFRAME = TRAPFRAME / PGSIZE * PGSIZE := by decide

theorem procTop_trampoline (trampoline tf : Nat) : procTop trampoline tf (TRAMPOLINE / PGSIZE) =
    some (pa2pte trampoline ||| (PTE_R ||| PTE_X) ||| PTE_V) := by
  rw [procTop, update_of_ne (by decide), update_self]

theorem procTop_trapframe (trampoline tf : Nat) : procTop trampoline tf (TRAPFRAME / PGSIZE) =
    some (pa2pte tf ||| (PTE_R ||| PTE_W) ||| PTE_V) := by
  rw [procTop, update_self]

theorem procTop_other {v : Nat} (h : v ≠ TRAMPOLINE / PGSIZE)
    (h' : v ≠ TRAPFRAME / PGSIZE) : procTop trampoline tf v = none := by
  rw [procTop, update_of_ne h', update_of_ne h]

/-- Both entries of `procTop` unmapped. -/
theorem procTop_dropped (trampoline tf : Nat) :
    update (update (procTop trampoline tf) (TRAMPOLINE / PGSIZE) none)
      (TRAPFRAME / PGSIZE) none = fun _ => none := by
  funext v
  by_cases h' : v = TRAPFRAME / PGSIZE
  · rw [h', update_self]
  · rw [update_of_ne h']
    by_cases h : v = TRAMPOLINE / PGSIZE
    · rw [h, update_self]
    · rw [update_of_ne h, procTop_other h h']

/-- `uvmcreate` takes a page for the root and maps nothing. -/
theorem uvmcreate_spec (hfree : m.FreeList) (hpos : 0 < m.free.length) :
    wp uvmcreate m
      (fun pt m' => Space m' pt 0 (fun _ => none) ∧ Conserves m m' ∅ (m'.holds pt 0) ∧
        m.free.length = m'.free.length + 1)
      fun _ => False := by
  refine wp_seq kalloc_spec fun r m1 hr => ?_
  rcases hr with ⟨-, hnil, -⟩ | ⟨p, rfl, ht⟩
  · rw [hnil] at hpos
    exact absurd hpos (lt_irrefl 0)
  · have ht := ht.setPage fun _ => 0
    rw [wp_bind, wp_memset, wp_pure]
    generalize hm : m1.setPage p (fun _ => 0) = m2 at ht ⊢
    have hzero (i : Fin 512) : m2.pte p i = 0 := by
      rw [← hm, pte, page_setPage_self, getLE_zero]
    have hroot : ∀ P t, m2.table p P = some t → P = [] ∧ t = p := by
      intro P t htab
      cases P with
      | nil => exact ⟨rfl, (Option.some.inj htab).symm⟩
      | cons i P =>
        rw [table, nodeAt, child, hzero] at htab
        cases htab
    have hslot (P : List (Fin 512)) (i : Fin 512) : m2.slot p P i = none := by
      unfold slot
      cases htab : m2.table p P with
      | none => rw [Option.bind_none]
      | some t => rw [(hroot P t htab).2, Option.bind_some, hzero, present_zero]
    have hent : m2.entry p = fun _ => none := by
      funext v
      rw [entry, hslot, ite_self]
    have htable : ∀ q, m2.IsTable p q ↔ q = p := by
      intro q
      constructor
      · rintro ⟨P, -, htab⟩
        exact (hroot P q htab).2
      · rintro rfl
        exact ⟨[], Nat.zero_le _, rfl⟩
    have hspace : Space m2 p 0 fun _ => none := by
      refine ⟨⟨fun P Q t _ _ hP hQ => ?_, (ht.freeable hfree).1, fun q hq => ?_,
        ht.freeList hfree⟩, ?_, ?_, ?_, ?_, ?_, ?_, ?_⟩
      · rw [(hroot P t hP).1, (hroot Q t hQ).1]
      · rw [htable]
        rintro rfl
        exact ht.not_free hfree hq
      · intro v hv
        omega
      · intro v _
        rw [hent]
      · intro v _
        rfl
      · intro P i e _ hs
        rw [hslot] at hs
        cases hs
      · intro q hq
        rw [(htable q).mp hq]
        exact ht.freeable hfree
      · intro v w e e' hv
        omega
      · intro v e hv
        omega
    have hholds : m2.holds p 0 = insert p ∅ := by
      ext q
      rw [holds_zero, insert_empty_eq, Set.mem_singleton_iff]
      exact htable q
    refine ⟨hspace, ?_, ?_⟩
    · rw [hholds]
      exact ht.conserves hfree fun _ hq => hq.elim
    · rw [ht.free, length_cons]

/-- `proc_pagetable` maps the trampoline and the trapframe if three pages are
free. -/
theorem procPagetable_spec (hfree : m.FreeList) (hcount : 3 ≤ m.free.length)
    (htr : trampoline < 2 ^ 64) (htf : tf < 2 ^ 64) :
    wp (procPagetable trampoline tf) m
      (fun pt m' => Space m' pt 0 (procTop trampoline tf) ∧ Conserves m m' ∅ (m'.holds pt 0) ∧
        m.free.length ≤ m'.free.length + 3)
      fun _ => False := by
  refine wp_seq (uvmcreate_spec hfree (by omega)) fun pt m1 hr => ?_
  obtain ⟨hsp1, hc1, hlen1⟩ := hr
  have hmiss1 := m1.missingFrom_le (TRAMPOLINE / PGSIZE * PGSIZE) 2 pt
  rw [wp_bind, trampoline_eq]
  refine wp_mono (hsp1.map_top (Nat.zero_le _) (by decide) (by decide) rfl htr (by decide))
    fun _ m2 hr => ?_
  obtain ⟨hsp2, hc2, hlen2⟩ := hr (by unfold Mem.missing; omega)
  -- the trapframe lies under the same table as the trampoline
  have hmiss2 : m2.missing pt (TRAPFRAME / PGSIZE * PGSIZE) = 0 := by
    have he := hsp2.rest (TRAMPOLINE / PGSIZE) (Nat.zero_le _)
    have hmax : TRAMPOLINE < MAXVA := by decide
    obtain ⟨t, ht, -⟩ := table_of_entry hmax he
    exact missing_of_leaf ht
  rw [wp_bind, trapframe_eq]
  refine wp_mono (hsp2.map_top (Nat.zero_le _) (by decide) (by decide)
    (update_of_ne (by decide) _ _) htf (by decide)) fun _ m3 hr => ?_
  obtain ⟨hsp3, hc3, hlen3⟩ := hr (by omega)
  refine ⟨hsp3, (hc1.trans hc2).trans hc3, ?_⟩
  unfold Mem.missing at *
  omega

/-- `proc_freepagetable` does not panic.  It frees every page of the address
space unless the size is zero; then the pages are lost. -/
theorem procFreepagetable_spec (h : Space m pt n (procTop trampoline tf))
    (hsz : sz = 0 ∨ n = pages sz) :
    wp (procFreepagetable pt sz) m
      (fun _ m' => ∃ lost, Conserves m m' (m.holds pt n) lost ∧ (0 < sz → lost = ∅) ∧
        (sz = 0 → pt ∈ lost))
      fun _ => False := by
  have hle := h.le_npages
  have hn : n ≤ TRAPFRAME / PGSIZE := hle.trans (by decide)
  have hn' : n ≤ TRAMPOLINE / PGSIZE := hle.trans (by decide)
  have hleaf (pa perm : Nat) (hperm : perm &&& (PTE_R ||| PTE_W ||| PTE_X) ≠ 0) :
      pteFlags (pa2pte pa ||| perm ||| PTE_V) ≠ PTE_V := (isLeaf_of_perm hperm).flags
  unfold procFreepagetable
  rw [wp_bind, trampoline_eq]
  refine wp_mono (h.drop_top hn' (by decide) (procTop_trampoline _ _) (hleaf _ _ (by decide)))
    fun _ m1 hr => ?_
  obtain ⟨hsp1, hc1⟩ := hr
  rw [wp_bind, trapframe_eq]
  refine wp_mono (hsp1.drop_top hn (by decide)
    (by rw [update_of_ne (by decide), procTop_trapframe]) (hleaf _ _ (by decide)))
    fun _ m2 hr => ?_
  obtain ⟨hsp2, hc2⟩ := hr
  rw [procTop_dropped] at hsp2
  refine wp_ite (fun hpos => ?_) fun hzero => ?_
  · have hpages : n = pages sz := hsz.resolve_left (by omega)
    subst hpages
    exact wp_mono (hsp2.uvmfree hpos) fun _ m' hc3 =>
      ⟨∅, (hc1.trans hc2).trans hc3, fun _ => rfl, fun hzero => by omega⟩
  · exact ⟨_, hc1.trans hc2, fun hpos => absurd hpos hzero, fun _ =>
      holds_of_table ⟨[], by simp, rfl⟩⟩

end SummerOsk.Vm
