import SummerOsk.Vm.Space
import Mathlib.Algebra.Order.Interval.Finset.SuccPred
import Mathlib.Data.Nat.SuccPred
import Mathlib.Order.Interval.Finset.Nat

/-!
# Growing and shrinking an address space

One specification for each of `kalloc`, `kfree`, `uvmdealloc` and `uvmalloc`,
in terms of the pages that an address space holds.  `uvmalloc` succeeds when
there are enough free pages for the new user pages and for their tables; a
failed `uvmalloc` gives the user pages back and keeps the new tables in the
tree.
-/

namespace SummerOsk.Vm

open Lib Function List Mem

variable {m m' m'' : Mem} {pt n k p perm v oldsz newsz : Nat} {top : Nat → Option Nat} {A : Set Nat}
  {P : List (Fin 512)}

/-! ## Single pages -/

/-- `m'` is `m` with the page `p` taken from the free list and overwritten. -/
structure Taken (m m' : Mem) (p : Nat) : Prop where
  free : m.free = p :: m'.free
  kend : m'.kend = m.kend
  frame : ∀ q, q ≠ p → m'.page q = m.page q

theorem kalloc_spec {E : Stop → Prop} :
    wp kalloc m (fun r m' => (r = none ∧ m.free = [] ∧ m' = m) ∨ ∃ p, r = some p ∧ Taken m m' p)
      E := by
  refine wp_kalloc (fun hnil => .inl ⟨rfl, hnil, rfl⟩) fun p rest hfree => ?_
  exact .inr ⟨p, rfl, hfree, rfl, fun q hq => page_setPage_of_ne _ _ hq⟩

/-- The page that was taken can be filled. -/
theorem Taken.setPage (h : Taken m m' p) (x : Bytes) : Taken m (m'.setPage p x) p :=
  ⟨h.free, h.kend, fun q hq => by rw [page_setPage_of_ne _ _ hq, h.frame q hq]⟩

section Taken

variable (h : Taken m m' p) (hfree : m.FreeList)
include h hfree

theorem Taken.freeList : m'.FreeList := by
  have hnodup := hfree.nodup
  rw [h.free, nodup_cons] at hnodup
  refine ⟨hnodup.2, fun q hq => ?_, h.kend ▸ hfree.base⟩
  rw [h.kend]
  exact hfree.range q (h.free ▸ mem_cons_of_mem _ hq)

theorem Taken.not_free : p ∉ m'.free := by
  have hnodup := hfree.nodup
  rw [h.free, nodup_cons] at hnodup
  exact hnodup.1

theorem Taken.freeable : m'.Freeable p := by
  unfold Freeable
  rw [h.kend]
  exact hfree.range p (h.free ▸ mem_cons_self)

omit hfree in
theorem Taken.not_mem (hA : ∀ q ∈ A, q ∉ m.free) : p ∉ A := fun hp =>
  hA p hp (h.free ▸ mem_cons_self)

theorem Taken.conserves (hA : ∀ q ∈ A, q ∉ m.free) : Conserves m m' A (insert p A) := by
  refine ⟨h.freeList hfree, h.kend, fun q => ?_, fun q hq => ?_, fun q hq hqA => ?_⟩
  · rw [h.free, Set.mem_insert_iff, mem_cons]
    tauto
  · rcases Set.mem_insert_iff.mp hq with rfl | hq
    · exact h.not_free hfree
    · exact fun hf => hA q hq (h.free ▸ mem_cons_of_mem _ hf)
  · exact h.frame q fun heq => hq (heq ▸ h.free ▸ mem_cons_self)

end Taken

/-- An address space does not notice that a page is taken. -/
theorem Space.taken (h : Space m pt n top) (ht : Taken m m' p) :
    Space m' pt n top ∧ m'.holds pt n = m.holds pt n :=
  h.conserved (ht.conserves h.wf.free (A := ∅) fun _ hq => hq.elim) fun _ _ hq => hq.elim

theorem release_conserves (hfree : m.FreeList) (hp : p ∉ m.free) (hpA : p ∉ A)
    (hok : m.Freeable p) (hA : ∀ q ∈ A, q ∉ m.free) : Conserves m (m.release p) (insert p A) A := by
  refine ⟨⟨nodup_cons.mpr ⟨hp, hfree.nodup⟩, fun q hq => ?_, hfree.base⟩, rfl, fun q => ?_,
    fun q hq => ?_, fun q hq hqA => ?_⟩
  · rcases mem_cons.mp hq with rfl | hq
    · exact hok
    · exact hfree.range q hq
  · rw [release, Set.mem_insert_iff, mem_cons]
    tauto
  · rw [release, mem_cons, not_or]
    exact ⟨fun heq => hpA (heq ▸ hq), hA q hq⟩
  · exact page_release_of_ne fun heq => hqA (heq ▸ Set.mem_insert p A)

/-- The first `k` user pages and their contents are the same. -/
def KeepsPages (m m' : Mem) (pt k : Nat) : Prop :=
  ∀ v e, v < k → m.entry pt v = some e →
    m'.entry pt v = some e ∧ m'.page (pte2pa e) = m.page (pte2pa e)

/-- The tables of the page table stay. -/
def KeepsTables (m m' : Mem) (pt : Nat) : Prop :=
  ∀ P t, P.length ≤ 2 → m.table pt P = some t → m'.table pt P = some t

theorem KeepsTables.trans (h : KeepsTables m m' pt) (h' : KeepsTables m' m'' pt) :
    KeepsTables m m'' pt := fun P t hP ht => h' P t hP (h P t hP ht)

theorem KeepsPages.refl (m : Mem) (pt k : Nat) : KeepsPages m m pt k := fun _ _ _ he => ⟨he, rfl⟩

theorem KeepsPages.trans {k' : Nat} (h : KeepsPages m m' pt k) (h' : KeepsPages m' m'' pt k')
    (hk : n ≤ k) (hk' : n ≤ k') : KeepsPages m m'' pt n := by
  intro v e hv he
  obtain ⟨he', hpage⟩ := h v e (by omega) he
  obtain ⟨he'', hpage'⟩ := h' v e (by omega) he'
  exact ⟨he'', hpage'.trans hpage⟩

/-! ## Fewer user pages -/

/-- The user pages from `k` on are as many as they have numbers. -/
theorem Space.freed_length {freed : List Nat} (h : Space m pt n top) (hnodup : freed.Nodup)
    (hfreed : ∀ p, p ∈ freed ↔ ∃ v e, k ≤ v ∧ v ≤ n - 1 ∧ m.entry pt v = some e ∧ pte2pa e = p)
    (hk : k < n) : freed.length = n - k := by
  have hlist : ((range' k (n - k)).map fun v => pte2pa ((m.entry pt v).getD 0)).Nodup := by
    refine List.Nodup.map_on (fun v hv w hw heq => ?_) nodup_range'
    rw [mem_range'_1] at hv hw
    obtain ⟨e, he, -⟩ := h.user v (by omega)
    obtain ⟨e', he', -⟩ := h.user w (by omega)
    rw [he, he'] at heq
    exact h.once v w e e' (by omega) (by omega) he he' heq
  have hperm := (perm_ext_iff_of_nodup hnodup hlist).mpr fun p => by
    rw [hfreed, mem_map]
    constructor
    · rintro ⟨v, e, hv, hv', he, rfl⟩
      exact ⟨v, mem_range'_1.mpr (by omega), by rw [he]; rfl⟩
    · rintro ⟨v, hv, rfl⟩
      rw [mem_range'_1] at hv
      obtain ⟨e, he, -⟩ := h.user v (by omega)
      exact ⟨v, e, hv.1, by omega, he, by rw [he]; rfl⟩
  rw [hperm.length_eq, length_map, length_range']

/-- `uvmunmap` frees the user pages from `k` on. -/
theorem Space.shrink {size : Nat} (h : Space m pt n top) (hk : k < n)
    (hlast : lastPage (k * PGSIZE) size = (n - 1) * PGSIZE) :
    wp (uvmunmap pt (k * PGSIZE) size true) m
      (fun _ m' => Space m' pt k top ∧ Conserves m m' (m.holds pt n) (m'.holds pt k) ∧
        KeepsPages m m' pt k ∧ KeepsTables m m' pt ∧ m'.free.length = m.free.length + (n - k))
      fun _ => False := by
  have hdiv (v : Nat) : v * PGSIZE / PGSIZE = v := Nat.mul_div_cancel v (by decide)
  have hdisp : Disposable m pt (k * PGSIZE / PGSIZE) (lastPage (k * PGSIZE) size / PGSIZE) := by
    rw [hlast, hdiv, hdiv]
    exact ⟨fun v w e e' _ hv _ hw => h.once v w e e' (by omega) (by omega),
      fun v e _ hv => h.other v e (by omega)⟩
  refine wp_imp (uvmunmap_spec h.wf fun _ => hdisp) (fun _ m' hpost => ?_) fun _ hnot => hnot ?_
  · obtain ⟨freed, c, hrem, hcount, -, hent, -, hfreed⟩ := hpost
    rw [hlast, pgrounddown_page, hdiv, hdiv] at *
    have hfreed := hfreed rfl
    have hkeep : ∀ v e, m'.entry pt v = some e ↔ (v < k ∨ n ≤ v) ∧ m.entry pt v = some e := by
      intro v e
      rw [hent, eraseRun]
      split_ifs with hin
      · exact iff_of_false (by simp) fun hor => by omega
      · exact ⟨fun he => ⟨by omega, he⟩, And.right⟩
    -- a page that stays mapped is not freed
    have hstay : ∀ v e, v < k → m.entry pt v = some e → pte2pa e ∉ freed := by
      intro v e hv he
      rw [hfreed]
      rintro ⟨w, e', hw, hw', he', heq⟩
      have := h.once w v e' e (by omega) (by omega) he' he heq
      omega
    have hspace : Space m' pt k top := by
      refine ⟨hrem.wf, ?_, ?_, h.low, ?_, ?_, ?_, ?_⟩
      · intro v hv
        obtain ⟨e, he, hleaf, hok⟩ := h.user v (by omega)
        exact ⟨e, (hkeep v e).mpr ⟨.inl hv, he⟩, hleaf, hok.congr hrem.kend⟩
      · intro v hv
        rw [hent, eraseRun]
        split_ifs with hin
        · rw [h.low v (by have := h.le_npages; omega)]
        · exact h.rest v (by omega)
      · intro P i e hP hs
        rw [hrem.pointer P i hP] at hs
        exact h.pointer P i e hP hs
      · intro q hq
        rw [hrem.isTable] at hq
        exact (h.tables q hq).congr hrem.kend
      · intro v w e e' hv hw he he'
        exact h.once v w e e' (by omega) (by omega) ((hkeep v e).mp he).2 ((hkeep w e').mp he').2
      · intro v e hv he
        have he := ((hkeep v e).mp he).2
        obtain ⟨h1, h2⟩ := h.other v e (by omega) he
        rw [hrem.isTable, hrem.free, mem_append, not_or]
        exact ⟨h1, hstay v e hv he, h2⟩
    have hnodup := hrem.wf.free.nodup
    rw [hrem.free] at hnodup
    refine ⟨hspace, ⟨hrem.wf.free, hrem.kend, fun q => ?_, fun q hq => hspace.not_free hq,
      fun q hq hqA => ?_⟩, fun v e hv he => ⟨(hkeep v e).mpr ⟨.inl hv, he⟩, ?_⟩,
      fun P t hP ht => by rw [hrem.table P hP, ht], ?_⟩
    · rw [hrem.free, mem_append, hfreed]
      constructor
      · rintro ((⟨v, e, -, hv, he, rfl⟩ | hq) | hq | ⟨v, e, hv, he, rfl⟩)
        · exact .inr (holds_of_entry (by omega) he)
        · exact .inl hq
        · exact .inr (.inl ((hrem.isTable q).mp hq))
        · exact .inr (holds_of_entry (by omega) ((hkeep v e).mp he).2)
      · rintro (hq | hq | ⟨v, e, hv, he, rfl⟩)
        · exact .inl (.inr hq)
        · exact .inr (.inl ((hrem.isTable q).mpr hq))
        · by_cases hvk : v < k
          · exact .inr (holds_of_entry hvk ((hkeep v e).mpr ⟨.inl hvk, he⟩))
          · exact .inl (.inl ⟨v, e, by omega, by omega, he, rfl⟩)
    · refine hrem.frame q (fun hin => ?_) fun ht => hqA (.inl ht)
      obtain ⟨v, e, -, hv, he, rfl⟩ := (hfreed q).mp hin
      exact hqA (holds_of_entry (by omega) he)
    · exact hrem.frame _ (hstay v e hv he) (h.other v e (by omega) he).1
    · rw [hrem.free, length_append, h.freed_length (nodup_append.mp hnodup).1 hfreed hk,
        Nat.add_comm]
  · have hmax := h.lt_maxva
    rw [hlast, pgrounddown_page]
    refine ⟨Nat.mul_le_mul_right _ (by omega), page_lt_maxva (by omega), fun v hv hv' => ?_⟩
    rw [hdiv] at hv hv'
    obtain ⟨e, he, hleaf, hok⟩ := h.user v (by omega)
    exact ⟨e, he, hleaf.flags, fun _ => hok⟩

/-- The number of pages of a process of size `sz`. -/
def pages (sz : Nat) : Nat := (sz + PGSIZE - 1) / PGSIZE

theorem pages_mono {a b : Nat} (h : a ≤ b) : pages a ≤ pages b := by
  unfold pages PGSIZE
  omega

theorem pages_mul (k : Nat) : pages (k * PGSIZE) = k := by
  unfold pages PGSIZE
  omega

theorem pgroundup_eq {sz : Nat} (h : pages sz ≤ NPAGES) : pgroundup sz = pages sz * PGSIZE := by
  unfold pgroundup pages NPAGES PHYSTOP KERNBASE PGSIZE at *
  omega

theorem Space.uvmdealloc (h : Space m pt (pages oldsz) top) (newsz : Nat) :
    wp (uvmdealloc pt oldsz newsz) m
      (fun r m' => r = min oldsz newsz ∧ Space m' pt (pages r) top ∧
        Conserves m m' (m.holds pt (pages oldsz)) (m'.holds pt (pages r)) ∧
        KeepsPages m m' pt (pages r) ∧ KeepsTables m m' pt ∧
        m'.free.length = m.free.length + (pages oldsz - pages r))
      fun _ => False := by
  have hle := h.le_npages
  refine wp_ite (fun hge => ?_) fun hlt => ?_
  · rw [wp_pure, Nat.min_eq_left (by omega)]
    exact ⟨rfl, h, h.conserves_refl, KeepsPages.refl m pt _, fun _ _ _ ht => ht, by omega⟩
  · have hmono : pages newsz ≤ pages oldsz := pages_mono (by omega)
    have hmin : min oldsz newsz = newsz := by omega
    rw [hmin, pgroundup_eq hle, pgroundup_eq (hmono.trans hle)]
    refine wp_ite (fun hup => ?_) fun hup => ?_
    · have hk : pages newsz < pages oldsz := Nat.lt_of_mul_lt_mul_right hup
      have hlast : lastPage (pages newsz * PGSIZE) (oldsz - pages newsz * PGSIZE) =
          (pages oldsz - 1) * PGSIZE := by
        unfold lastPage pgrounddown pages NPAGES PHYSTOP KERNBASE PGSIZE at *
        omega
      exact wp_seq (h.shrink hk hlast) fun _ m' hpost => ⟨rfl, hpost⟩
    · have heq : pages newsz = pages oldsz := by
        unfold PGSIZE at hup
        omega
      rw [wp_pure, heq]
      exact ⟨rfl, h, h.conserves_refl, KeepsPages.refl m pt _, fun _ _ _ ht => ht, by omega⟩

/-! ## More user pages -/

/-- Enough free pages to grow from `k` to `n` user pages. -/
def growth (k n : Nat) : Nat := n - k + (tablesFor n - tablesFor k)

theorem tablesFor_mono {k n : Nat} (h : k ≤ n) : tablesFor k ≤ tablesFor n := by
  unfold tablesFor
  split_ifs <;> omega

theorem growth_succ {k n : Nat} (h : k < n) : growth k n = 1 + stepTables k + growth (k + 1) n := by
  have hsucc := tablesFor_succ k
  have hmono := tablesFor_mono (show k + 1 ≤ n from h)
  unfold growth
  omega

/-- `m'` is `m` with the free page `p` as user page `n`, under the entry `e` and
with the contents `x`. -/
structure PageAdded (m m' : Mem) (pt n p e : Nat) (x : Bytes) (top : Nat → Option Nat) : Prop where
  space : Space m' pt (n + 1) top
  conserves : Conserves m m' (m.holds pt n) (m'.holds pt (n + 1))
  count : m.free.length = m'.free.length + (1 + m.missing pt (n * PGSIZE))
  entry : m'.entry pt = update (m.entry pt) n (some e)
  table : KeepsTables m m' pt
  others : ∀ Q, Q.length ≤ 2 → ¬ Q <+: leafPath (n * PGSIZE) → m'.table pt Q = m.table pt Q
  keeps : KeepsPages m m' pt n
  pa : pte2pa e = p
  page : m'.page p = x
  sub : ∀ q ∈ m'.free, q ∈ m.free

/-- One more user page for an address space: the page and the tables that it
needs, or a failure that gives the page back. -/
theorem Space.grow_page (h : Space m pt n top) (ht : Taken m m' p) (hperm : perm < 2 ^ 10)
    (hleaf : perm &&& (PTE_R ||| PTE_W ||| PTE_X) ≠ 0) :
    wp (mappages pt (n * PGSIZE) PGSIZE p perm) m'
      (fun r m'' => r = 0 ∧
          PageAdded m m'' pt n p (pa2pte p ||| perm ||| PTE_V) (m'.page p) top ∨
        r = -1 ∧ m.free.length < 1 + m.missing pt (n * PGSIZE) ∧ m''.Freeable p ∧
          Space (m''.release p) pt n top ∧
          Conserves m (m''.release p) (m.holds pt n) ((m''.release p).holds pt n) ∧
          KeepsPages m (m''.release p) pt n ∧ KeepsTables m (m''.release p) pt ∧
          (m''.release p).free.length = 1)
      fun _ => False := by
  obtain ⟨h', hholds⟩ := h.taken ht
  have hok := ht.freeable h.wf.free
  have hpfree := ht.not_free h.wf.free
  have hpA : p ∉ m.holds pt n := ht.not_mem fun q hq => h.not_free hq
  have htaken := ht.conserves h.wf.free (A := m.holds pt n) fun q hq => h.not_free hq
  have hlen : m.free.length = m'.free.length + 1 := by rw [ht.free, length_cons]
  -- the tables are those from before
  have htables : ∀ q, m.IsTable pt q → m'.page q = m.page q := fun q hq =>
    ht.frame q fun he => hpA (he ▸ .inl hq)
  have hmissing := missing_frame htables (n * PGSIZE)
  refine wp_mono (h'.map_page hok hpfree (hholds ▸ hpA) hperm hleaf) fun r m'' hr => ?_
  obtain ⟨hone, hr⟩ := hr
  have hcount := hone.count
  have hresult := hone.result
  have hkept : ∀ v e, v < n → m.entry pt v = some e → m''.page (pte2pa e) = m.page (pte2pa e) := by
    intro v e hv he
    obtain ⟨hnot, hnfree⟩ := h'.other v e hv (by rwa [entry_frame htables])
    rw [hone.frame _ hnot hnfree]
    exact ht.frame _ fun heq => hpA (heq ▸ holds_of_entry hv he)
  have htable : KeepsTables m m'' pt := fun P t hP htab =>
    hone.table P t hP (by rwa [table_frame htables hP])
  rw [hholds, hmissing, entry_frame htables] at *
  rcases hr with ⟨rfl, hsp, hcons⟩ | ⟨rfl, hsp, hcons⟩
  · obtain ⟨-, hroom, hent⟩ | ⟨hbad, -⟩ := hresult
    · refine .inl ⟨rfl, hsp, htaken.trans hcons, by omega, hent, htable,
        fun Q hQ hout => ?_, fun v e hv he => ⟨?_, hkept v e hv he⟩, hok.leaf hperm, ?_,
        fun q hq => ?_⟩
      · rw [hone.others Q hQ hout, table_frame htables hQ]
      · rw [hent, update_of_ne (by omega), he]
      · refine hone.frame p (fun htab => hpA (.inl ?_)) hpfree
        rwa [isTable_frame htables] at htab
      · obtain ⟨news, hnews, -⟩ := hone.news
        rw [ht.free, hnews]
        exact mem_cons_of_mem _ (mem_append_right _ hq)
    · cases hbad
  · obtain ⟨hbad, -⟩ | ⟨-, hfew, hent⟩ := hresult
    · cases hbad
    obtain ⟨hpfree', hpA'⟩ := hcons.not_mem hpfree hpA
    have hok' := hok.congr hcons.kend
    have hrel := release_conserves hsp.wf.free hpfree' hpA' hok' fun q hq => hsp.not_free hq
    have hback := hsp.conserved
      (release_conserves (A := ∅) hsp.wf.free hpfree' (fun hq => hq) hok' fun _ hq => hq.elim)
      fun q hq hqp => hpA' (by
        rcases Set.mem_insert_iff.mp hqp with rfl | hq'
        · exact hq
        · exact hq'.elim)
    have hwide : Conserves m' m'' (insert p (m.holds pt n)) (insert p (m''.holds pt n)) := by
      have := hcons.widen (B := {p}) (fun q hq => (Set.mem_singleton_iff.mp hq) ▸ hpfree)
        fun q hq => (Set.mem_singleton_iff.mp hq) ▸ hpA
      rwa [Set.union_singleton, Set.union_singleton] at this
    refine .inr ⟨rfl, by omega, hok', hback.1, ?_, fun v e hv he => ⟨?_, ?_⟩,
      fun P t hP htab => ?_, ?_⟩
    · rw [hback.2]
      exact (htaken.trans hwide).trans hrel
    · rw [entry_release fun htab => hpA' (.inl htab), hent, he]
    · have hne : pte2pa e ≠ p := fun heq => hpA (heq ▸ holds_of_entry hv he)
      rw [page_release_of_ne hne, hkept v e hv he]
    · rw [table_release (fun hin => hpA' (.inl hin)) (by omega), htable P t hP htab]
    · show m''.free.length + 1 = 1
      omega

/-- User mode can get at the page `v`. -/
def Mem.UserPage (m : Mem) (pt v : Nat) : Prop := ∃ e, m.entry pt v = some e ∧ e &&& PTE_U ≠ 0

/-- The user pages `k` to `n` are new and user mode can get at them; those below
are as before. -/
structure UserGrown (m m' : Mem) (pt k n : Nat) : Prop where
  old : ∀ v < k, m'.entry pt v = m.entry pt v
  new : ∀ v, k ≤ v → v < n → m'.UserPage pt v

theorem UserGrown.refl (m : Mem) (pt k : Nat) : UserGrown m m pt k k :=
  ⟨fun _ _ => rfl, fun v hv hlt => absurd hlt (by omega)⟩

theorem UserGrown.cons {m'' : Mem} {k n : Nat} (hold : ∀ v < k, m'.entry pt v = m.entry pt v)
    (hnew : m'.UserPage pt k) (h : UserGrown m' m'' pt (k + 1) n) : UserGrown m m'' pt k n := by
  refine ⟨fun v hv => (h.old v (by omega)).trans (hold v hv), fun v hv hlt => ?_⟩
  rcases eq_or_ne v k with rfl | hvk
  · obtain ⟨e, he, huser⟩ := hnew
    exact ⟨e, (h.old v (Nat.lt_succ_self v)).trans he, huser⟩
  · exact h.new v (by omega) hlt

/-- The flags of a page that `uvmalloc` maps. -/
theorem user_of_perm (hperm : perm &&& PTE_U ≠ 0) :
    (pa2pte p ||| perm ||| PTE_V) &&& PTE_U ≠ 0 := by
  intro h
  apply hperm
  rw [Nat.and_or_distrib_right, Nat.and_or_distrib_right, Nat.or_eq_zero_iff,
    Nat.or_eq_zero_iff] at h
  exact h.1.2

/-- Both ways for `uvmalloc` to fail end by giving back the new pages. -/
theorem Space.undo {o : Nat} (h : Space m pt k top) (hok : o ≤ k) :
    wp (Vm.uvmdealloc pt (k * PGSIZE) (o * PGSIZE)) m
      (fun _ m' => Space m' pt o top ∧ Conserves m m' (m.holds pt k) (m'.holds pt o) ∧
        KeepsPages m m' pt o ∧ KeepsTables m m' pt ∧ m'.free.length = m.free.length + (k - o))
      fun _ => False := by
  have hmin : min (k * PGSIZE) (o * PGSIZE) = o * PGSIZE :=
    Nat.min_eq_right (Nat.mul_le_mul_right _ hok)
  have h' : Space m pt (pages (k * PGSIZE)) top := by rwa [pages_mul]
  refine wp_mono (h'.uvmdealloc (o * PGSIZE)) fun r m' hr => ?_
  rw [hmin] at hr
  obtain ⟨rfl, hr⟩ := hr
  rwa [pages_mul, pages_mul] at hr

/-- The tables that the user page `v` needs, besides the root. -/
def tablesOf (v : Nat) : Finset (List (Fin 512)) := {[px 2 (v * PGSIZE)], leafPath (v * PGSIZE)}

/-- The tables that are missing for the user pages from `k` to `n`. -/
def Mem.missingTables (m : Mem) (pt k n : Nat) : Finset (List (Fin 512)) :=
  ((Finset.Ico k n).biUnion tablesOf).filter fun P => m.table pt P = none

/-- The free pages that it takes to grow from `k` to `n` user pages. -/
def Mem.need (m : Mem) (pt k n : Nat) : Nat := n - k + (m.missingTables pt k n).card

/-- No table is missing for a user page, from `k` to `n`, that is reached while
two pages are free. -/
def Mem.TablesReady (m : Mem) (pt k n : Nat) : Prop :=
  ∀ v, k ≤ v → v < n → v - k + 2 ≤ m.free.length → m.missing pt (v * PGSIZE) = 0

theorem mem_tablesOf : P ∈ tablesOf v ↔ P ≠ [] ∧ P <+: leafPath (v * PGSIZE) := by
  rw [tablesOf, Finset.mem_insert, Finset.mem_singleton, leafPath_eq]
  match P with
  | [] => simp
  | [i] => simp
  | [i, j] => simp
  | i :: j :: l :: P => simp

theorem Mem.missing_eq_card (m : Mem) (pt v : Nat) : m.missing pt (v * PGSIZE) =
    ((tablesOf v).filter fun P => m.table pt P = none).card := by
  rw [missing_eq, tablesOf, Finset.filter_insert, Finset.filter_singleton]
  split_ifs <;> simp [leafPath_eq]

theorem Mem.missing_le_need (hk : k < n) : 1 + m.missing pt (k * PGSIZE) ≤ m.need pt k n := by
  have hsub : (tablesOf k).filter (fun P => m.table pt P = none) ⊆ m.missingTables pt k n := by
    refine Finset.filter_subset_filter _ fun P hP => ?_
    exact Finset.mem_biUnion.mpr ⟨k, Finset.mem_Ico.mpr ⟨le_refl k, hk⟩, hP⟩
  have hle := Finset.card_le_card hsub
  rw [← missing_eq_card] at hle
  unfold need
  omega

section PageAdded

variable {e : Nat} {x : Bytes} (h : PageAdded m m' pt k p e x top)
include h

theorem PageAdded.leaf : ∃ t, m'.table pt (leafPath (k * PGSIZE)) = some t := by
  have hmax := h.space.lt_maxva
  have hva : k * PGSIZE < MAXVA := page_lt_maxva (by omega)
  have he : m'.entry pt (k * PGSIZE / PGSIZE) = some e := by
    rw [Nat.mul_div_cancel k (by decide), h.entry, update_self]
  obtain ⟨t, ht, -⟩ := table_of_entry hva he
  exact ⟨t, ht⟩

/-- The tables that are missing afterwards are those that were and are not on the
path of the new page. -/
theorem PageAdded.missing_iff (hP : P ∈ tablesOf v) :
    m'.table pt P = none ↔ m.table pt P = none ∧ P ∉ tablesOf k := by
  obtain ⟨hne, hpre⟩ := mem_tablesOf.mp hP
  obtain ⟨t, ht⟩ := h.leaf
  by_cases hon : P ∈ tablesOf k
  · refine iff_of_false ?_ fun hno => hno.2 hon
    rw [tablesOf, Finset.mem_insert, Finset.mem_singleton] at hon
    rcases hon with rfl | rfl
    · exact table_middle_of_leaf ht
    · simp [ht]
  · rw [h.others P hpre.length_le fun hk => hon (mem_tablesOf.mpr ⟨hne, hk⟩)]
    exact (and_iff_left hon).symm

theorem PageAdded.need (hk : k < n) :
    m.need pt k n = 1 + m.missing pt (k * PGSIZE) + m'.need pt (k + 1) n := by
  have hiff : ∀ P ∈ (Finset.Ico (k + 1) n).biUnion tablesOf,
      (m'.table pt P = none ↔ m.table pt P = none ∧ P ∉ tablesOf k) := fun P hP => by
    obtain ⟨v, -, hv⟩ := Finset.mem_biUnion.mp hP
    exact h.missing_iff hv
  have hunion : m.missingTables pt k n = ((tablesOf k).filter fun P => m.table pt P = none) ∪
      m'.missingTables pt (k + 1) n := by
    ext P
    have := hiff P
    simp only [missingTables, ← Finset.insert_Ico_add_one_left_eq_Ico hk,
      Finset.biUnion_insert, Finset.mem_filter, Finset.mem_union]
    tauto
  have hdisj : Disjoint ((tablesOf k).filter fun P => m.table pt P = none)
      (m'.missingTables pt (k + 1) n) := by
    refine Finset.disjoint_left.mpr fun P hP hP' => ?_
    rw [missingTables, Finset.mem_filter] at hP'
    exact ((hiff P hP'.1).mp hP'.2).2 (Finset.mem_filter.mp hP).1
  rw [Mem.need, Mem.need, hunion, Finset.card_union_of_disjoint hdisj, ← missing_eq_card]
  omega

/-- A page that needed no table leaves the tables of the others as they are. -/
theorem PageAdded.ready (hzero : m.missing pt (k * PGSIZE) = 0) :
    m'.TablesReady pt (k + 1) n ↔ m.TablesReady pt k n := by
  have hcount := h.count
  have hmissing : ∀ v, m'.missing pt (v * PGSIZE) = m.missing pt (v * PGSIZE) := by
    intro v
    rw [missing_eq_card, missing_eq_card]
    congr 1
    refine Finset.filter_congr fun P hP => ?_
    rw [h.missing_iff hP, and_iff_left_iff_imp]
    intro hnone hin
    rw [missing_eq_card, Finset.card_eq_zero, Finset.filter_eq_empty_iff] at hzero
    exact hzero hin hnone
  constructor
  · intro hready v hv hvn hfree
    by_cases hvk : v = k
    · rw [hvk, hzero]
    · rw [← hmissing]
      exact hready v (by omega) hvn (by omega)
  · intro hready v hv hvn hfree
    rw [hmissing]
    exact hready v (by omega) hvn (by omega)

end PageAdded

/-- The user pages `k` to `n` hold zeros. -/
def ZeroPages (m : Mem) (pt k n : Nat) : Prop :=
  ∀ v, k ≤ v → v < n → ∃ e, m.entry pt v = some e ∧ m.page (pte2pa e) = fun _ => 0

/-- The address space has grown from `k` to `n` user pages. -/
structure Grows (m m' : Mem) (pt k n : Nat) (top : Nat → Option Nat) : Prop where
  space : Space m' pt n top
  conserves : Conserves m m' (m.holds pt k) (m'.holds pt n)
  count : m.free.length ≤ m'.free.length + growth k n
  users : UserGrown m m' pt k n
  room : m.need pt k n ≤ m.free.length
  keeps : KeepsPages m m' pt k
  zero : ZeroPages m' pt k n

/-- The address space could not grow from `k` to `n` user pages and has shrunk to
`o`.  The tables that were added stay. -/
structure GrowFails (m m' : Mem) (pt o k n : Nat) (top : Nat → Option Nat) : Prop where
  space : Space m' pt o top
  conserves : Conserves m m' (m.holds pt k) (m'.holds pt o)
  few : m.free.length < growth k n
  short : m.free.length < m.need pt k n
  keeps : KeepsPages m m' pt o
  table : KeepsTables m m' pt
  back : ∃ tables, m'.free.length + tables = m.free.length + (k - o) ∧
    (tables = 0 ↔ m.TablesReady pt k n)

section Cons

variable {o e : Nat} (h : Space m pt k top) (hadd : PageAdded m m' pt k p e (fun _ => 0) top)
  (hk : k < n)
include h hadd hk

theorem Grows.cons (huser : e &&& PTE_U ≠ 0) (hgrows : Grows m' m'' pt (k + 1) n top) :
    Grows m m'' pt k n top where
  space := hgrows.space
  conserves := hadd.conserves.trans hgrows.conserves
  count := by
    have := growth_succ hk
    have := h.missing_le
    have := hadd.count
    have := hgrows.count
    omega
  users := hgrows.users.cons (fun v hv => by rw [hadd.entry, update_of_ne (by omega)])
    ⟨e, by rw [hadd.entry, update_self], huser⟩
  room := by
    have := hadd.need hk
    have := hadd.count
    have := hgrows.room
    omega
  keeps := hadd.keeps.trans hgrows.keeps (le_refl k) (Nat.le_succ k)
  zero v hv hvn := by
    by_cases hvk : v = k
    · obtain ⟨hent, hpage⟩ := hgrows.keeps k e (Nat.lt_succ_self k)
        (by rw [hadd.entry, update_self])
      exact ⟨e, hvk ▸ hent, by rw [hpage, hadd.pa, hadd.page]⟩
    · exact hgrows.zero v (by omega) hvn

theorem GrowFails.cons (hok : o ≤ k) (hfails : GrowFails m' m'' pt o (k + 1) n top) :
    GrowFails m m'' pt o k n top := by
  have hgrow := growth_succ hk
  have hmissing := h.missing_le
  have hcount := hadd.count
  have hneed := hadd.need hk
  have hfew := hfails.few
  have hshort := hfails.short
  obtain ⟨tables, hsum, hiff⟩ := hfails.back
  refine ⟨hfails.space, hadd.conserves.trans hfails.conserves, by omega, by omega,
    hadd.keeps.trans hfails.keeps hok (le_refl o), hadd.table.trans hfails.table,
    tables + m.missing pt (k * PGSIZE), by omega, ?_⟩
  by_cases hzero : m.missing pt (k * PGSIZE) = 0
  · rw [hzero, Nat.add_zero, hiff, hadd.ready hzero]
  · exact iff_of_false (by omega) fun hready => hzero (hready k (le_refl k) hk (by omega))

end Cons

/-- A failure gives back all pages it took if no table was missing. -/
theorem GrowFails.free_iff (hfails : GrowFails m m' pt k k n top) (h : Space m pt k top) :
    (∀ q, q ∈ m'.free ↔ q ∈ m.free) ↔ m.TablesReady pt k n := by
  have hnodup := h.wf.free.nodup
  have hnodup' := hfails.space.wf.free.nodup
  obtain ⟨tables, hsum, hready⟩ := hfails.back
  rw [← hready]
  constructor
  · intro hsame
    have hlen := ((perm_ext_iff_of_nodup hnodup' hnodup).mpr hsame).length_eq
    omega
  · intro hzero
    have hsub : m'.free ⊆ m.free := by
      intro q hq
      refine ((hfails.conserves.same q).mp (.inl hq)).resolve_right fun hheld => ?_
      -- what the address space held it still holds
      refine hfails.space.not_free ?_ hq
      rcases hheld with ⟨P, hP, ht⟩ | ⟨v, e, hv, he, rfl⟩
      · exact holds_of_table ⟨P, hP, hfails.table P q hP ht⟩
      · exact holds_of_entry hv (hfails.keeps v e hv he).1
    exact fun q => ((hnodup'.subperm hsub).perm_of_length_le (by omega)).mem_iff

theorem uvmallocLoop_spec {o fuel : Nat} (h : Space m pt k top) (hok : o ≤ k) (hk : k ≤ pages newsz)
    (hfuel : pagesFrom (k * PGSIZE) < fuel) :
    wp (uvmallocLoop pt (o * PGSIZE) newsz fuel (k * PGSIZE)) m
      (fun r m' => r = newsz ∧ Grows m m' pt k (pages newsz) top ∨
        r = 0 ∧ GrowFails m m' pt o k (pages newsz) top)
      fun _ => False := by
  induction fuel generalizing m k with
  | zero => omega
  | succ fuel ih =>
    refine wp_ite (fun hlt => ?_) fun hge => ?_
    · have hkn : k < pages newsz := by
        unfold pages PGSIZE at *
        omega
      have hgrow := growth_succ hkn
      have hneed : pages newsz - k ≤ m.need pt k (pages newsz) := Nat.le_add_right _ _
      refine wp_seq kalloc_spec fun r m1 hr => ?_
      rcases hr with ⟨rfl, hnil, rfl⟩ | ⟨p, rfl, ht⟩
      · have hlen : m1.free.length = 0 := by rw [hnil, length_nil]
        refine wp_seq (h.undo hok) fun _ m' hr => ?_
        refine .inr ⟨rfl, hr.1, hr.2.1, by omega, by omega, hr.2.2.1, hr.2.2.2.1, 0, hr.2.2.2.2,
          ?_⟩
        exact iff_of_true rfl fun v _ _ hfree => by omega
      · have hlen : m.free.length = m1.free.length + 1 := by rw [ht.free, length_cons]
        have ht := ht.setPage fun _ => 0
        have hmissing := h.missing_le
        rw [wp_bind, wp_memset]
        refine wp_seq (h.grow_page ht (by decide) (by decide)) fun r m2 hr => ?_
        rw [page_setPage_self] at hr
        rcases hr with ⟨rfl, hadd⟩ | ⟨rfl, hcount, hpok, hsp, hcons, hkeeps, htable, hone⟩
        · rw [if_neg (by decide), show k * PGSIZE + PGSIZE = (k + 1) * PGSIZE by
            rw [Nat.succ_mul]]
          have hfuel' : pagesFrom ((k + 1) * PGSIZE) < fuel := by
            have := h.lt_maxva
            rw [pagesFrom, Nat.mul_div_cancel _ (by decide)] at *
            omega
          refine wp_mono (ih hadd.space (by omega) hkn hfuel') fun r m' hr => ?_
          rcases hr with ⟨hr, hgrows⟩ | ⟨hr, hfails⟩
          · exact .inl ⟨hr, hgrows.cons h hadd hkn (user_of_perm (by decide))⟩
          · exact .inr ⟨hr, hfails.cons h hadd hkn hok⟩
        · rw [if_pos (by decide), wp_bind]
          refine kfree_spec (fun _ => ?_) fun hbad => hbad hpok
          have hshort : _ ≤ m.need pt k _ := missing_le_need hkn
          refine wp_seq (hsp.undo hok) fun _ m' hr => ?_
          refine .inr ⟨rfl, hr.1, hcons.trans hr.2.1, by omega, by omega,
            hkeeps.trans hr.2.2.1 hok (le_refl o), htable.trans hr.2.2.2.1, m.free.length - 1,
            by omega, ?_⟩
          -- the pages that were free after the data page are tables now
          constructor
          · exact fun hzero v _ _ hfree => by omega
          · intro hready
            have := hready k (le_refl k) hkn
            omega
    · have hkn : k = pages newsz := by
        unfold pages PGSIZE at *
        omega
      subst hkn
      exact .inl ⟨rfl, h, h.conserves_refl, by omega, UserGrown.refl m pt _,
        by simp [need, missingTables], KeepsPages.refl m pt _, fun v hv hlt => by omega⟩

/-- `uvmalloc` grows the address space to `newsz`, or it leaves it at `oldsz`
and then the free pages do not suffice. -/
theorem Space.uvmalloc_grows (h : Space m pt (pages oldsz) top) (hle : oldsz ≤ newsz) :
    wp (Vm.uvmalloc pt oldsz newsz) m
      (fun r m' => r = newsz ∧ Grows m m' pt (pages oldsz) (pages newsz) top ∨
        r = 0 ∧ GrowFails m m' pt (pages oldsz) (pages oldsz) (pages newsz) top)
      fun _ => False := by
  rw [Vm.uvmalloc, if_neg (by omega), pgroundup_eq h.le_npages]
  exact uvmallocLoop_spec h (le_refl _) (pages_mono hle) (Nat.lt_succ_self _)

theorem Space.uvmalloc (h : Space m pt (pages oldsz) top) (hle : oldsz ≤ newsz) :
    wp (uvmalloc pt oldsz newsz) m
      (fun r m' => (r = newsz ∧ Space m' pt (pages newsz) top ∧
          Conserves m m' (m.holds pt (pages oldsz)) (m'.holds pt (pages newsz)) ∧
          m.free.length ≤ m'.free.length + growth (pages oldsz) (pages newsz) ∧
          UserGrown m m' pt (pages oldsz) (pages newsz)) ∨
        (r = 0 ∧ Space m' pt (pages oldsz) top ∧
          Conserves m m' (m.holds pt (pages oldsz)) (m'.holds pt (pages oldsz)) ∧
          m.free.length < growth (pages oldsz) (pages newsz)))
      fun _ => False := by
  refine wp_mono (h.uvmalloc_grows hle) fun r m' hr => ?_
  rcases hr with ⟨hr, hg⟩ | ⟨hr, hf⟩
  · exact .inl ⟨hr, hg.space, hg.conserves, hg.count, hg.users⟩
  · exact .inr ⟨hr, hf.space, hf.conserves, hf.few⟩

end SummerOsk.Vm
