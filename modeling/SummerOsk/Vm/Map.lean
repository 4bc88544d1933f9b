import SummerOsk.Vm.Tree

/-!
# Page tables as maps

`Mem.entry` reads a page table as a map from virtual page numbers to valid leaf
entries.  `mappages` inserts a run of pages into the map (`mappages_spec`) and
`uvmunmap` erases one (`uvmunmap_spec`).  Both specifications also say when the
function can panic, which pages it takes from the free list or puts there, and
that it leaves the rest of the memory alone.
-/

namespace SummerOsk.Vm

open Lib Function List Mem Option

variable {first size : Nat}

/-! ## Runs of pages in a map -/

section Runs

variable {α : Type} (f : Nat → Option α)

/-- The map with `n` pages from `first` on inserted, page `first + k` as `g k`. -/
def insertRun (first n : Nat) (g : Nat → α) : Nat → Option α := fun v =>
  if first ≤ v ∧ v < first + n then some (g (v - first)) else f v

/-- The map without the `n` pages from `first` on. -/
def eraseRun (first n : Nat) : Nat → Option α := fun v =>
  if first ≤ v ∧ v < first + n then none else f v

variable {f} {n : Nat}

theorem insertRun_zero (first : Nat) (g : Nat → α) : insertRun f first 0 g = f := by
  funext v
  rw [insertRun, if_neg (by omega)]

theorem eraseRun_zero (first : Nat) : eraseRun f first 0 = f := by
  funext v
  rw [eraseRun, if_neg (by omega)]

theorem insertRun_succ {g : Nat → α} :
    insertRun (update f first (some (g 0))) (first + 1) n (fun k => g (k + 1)) =
      insertRun f first (n + 1) g := by
  funext v
  unfold insertRun
  rcases eq_or_ne v first with rfl | hv
  · rw [if_neg (by omega), update_self, if_pos (by omega), Nat.sub_self]
  · by_cases hin : first + 1 ≤ v ∧ v < first + 1 + n
    · have hk : v - (first + 1) + 1 = v - first := by omega
      rw [if_pos hin, if_pos (by omega), ← hk]
    · rw [if_neg hin, if_neg (by omega), update_of_ne hv]

theorem eraseRun_succ :
    eraseRun (update f first none) (first + 1) n = eraseRun f first (n + 1) := by
  funext v
  unfold eraseRun
  rcases eq_or_ne v first with rfl | hv
  · rw [if_neg (by omega), update_self, if_pos (by omega)]
  · by_cases hin : first + 1 ≤ v ∧ v < first + 1 + n
    · rw [if_pos hin, if_pos (by omega)]
    · rw [if_neg hin, if_neg (by omega), update_of_ne hv]

end Runs

/-! ## The entries of a page table -/

/-- The number of leaf entries that a three-level table has room for. -/
def NVPN : Nat := 2 ^ 27

/-- The valid leaf entry of a virtual page number. -/
def Mem.entry (m : Mem) (pt : Nat) : Nat → Option Nat := fun v =>
  if v < NVPN then m.slot pt (leafPath (v * PGSIZE)) (px 0 (v * PGSIZE)) else none

variable {m m' m1 : Mem} {pt t va e fuel pa : Nat} {P Q : List (Fin 512)} {i j : Fin 512}
  {freed : List Nat}

theorem val_px (level va : Nat) : (px level va : Nat) = va / 2 ^ (12 + 9 * level) % 512 := rfl

theorem leafPath_eq (va : Nat) : leafPath va = [px 2 va, px 1 va] := rfl

/-- The path and the index of an address determine its page. -/
theorem page_of_indices {a b : Nat} (ha : a / PGSIZE < NVPN) (hb : b / PGSIZE < NVPN)
    (hpath : leafPath a = leafPath b) (hlast : px 0 a = px 0 b) : a / PGSIZE = b / PGSIZE := by
  rw [leafPath_eq, leafPath_eq, cons.injEq, cons.injEq] at hpath
  have h2 := congrArg Fin.val hpath.1
  have h1 := congrArg Fin.val hpath.2.1
  have h0 := congrArg Fin.val hlast
  simp only [val_px, PGSIZE, NVPN] at *
  omega

theorem px_page (level va : Nat) : px level (va / PGSIZE * PGSIZE) = px level va := by
  have hpow : 2 ^ (12 + 9 * level) = PGSIZE * 2 ^ (9 * level) := by
    rw [Nat.pow_add]
    rfl
  apply Fin.ext
  rw [val_px, val_px, hpow, ← Nat.div_div_eq_div_mul, ← Nat.div_div_eq_div_mul,
    Nat.mul_div_cancel _ (by decide)]

theorem leafPath_page (va : Nat) : leafPath (va / PGSIZE * PGSIZE) = leafPath va := by
  rw [leafPath_eq, leafPath_eq, px_page, px_page]

/-- Every leaf entry belongs to a page number. -/
theorem exists_page (hP : P.length = 2) (i : Fin 512) :
    ∃ v < NVPN, leafPath (v * PGSIZE) = P ∧ px 0 (v * PGSIZE) = i := by
  match P, hP with
  | [i2, i1], _ =>
    refine ⟨i2 * 2 ^ 18 + i1 * 2 ^ 9 + i, ?_, ?_, ?_⟩
    · unfold NVPN
      omega
    · rw [leafPath_eq]
      congr 1
      · apply Fin.ext
        rw [val_px, PGSIZE]
        omega
      · congr 1
        apply Fin.ext
        rw [val_px, PGSIZE]
        omega
    · apply Fin.ext
      rw [val_px, PGSIZE]
      omega

theorem page_lt_NVPN (hva : va < MAXVA) : va / PGSIZE < NVPN := by
  unfold MAXVA PGSIZE NVPN at *
  omega

theorem Mem.entry_page (hva : va < MAXVA) :
    m.entry pt (va / PGSIZE) = m.slot pt (leafPath va) (px 0 va) := by
  rw [entry, if_pos (page_lt_NVPN hva), leafPath_page, px_page]

theorem Mem.entry_congr (h : ∀ P i, P.length = 2 → m'.slot pt P i = m.slot pt P i) :
    m'.entry pt = m.entry pt := by
  funext v
  unfold entry
  rw [h _ _ rfl]

theorem Grew.entry (h : Grew m m' pt) : m'.entry pt = m.entry pt := entry_congr h.slot

/-- A valid leaf entry lies in a page of the tree. -/
theorem Mem.table_of_entry (hva : va < MAXVA) (h : m.entry pt (va / PGSIZE) = some e) :
    ∃ t, m.table pt (leafPath va) = some t ∧ present (m.pte t (px 0 va)) = some e := by
  rw [entry_page hva] at h
  exact bind_eq_some_iff.mp h

/-! ## A store to a leaf entry -/

section Store

variable (h : WellFormed m pt) (hQ : Q.length = 2) (ht : m.table pt Q = some t)

include h hQ ht

theorem table_store (hP : P.length ≤ 2) : (m.setPte t i e).table pt P = m.table pt P := by
  refine nodeAt_congr (fun R q j hR hq => child_congr ?_) hP
  rw [pte_setPte, if_neg]
  -- the page at depth 2 is not one of those above it
  rintro ⟨rfl, -⟩
  have := h.unshared R Q q (by omega) (by omega) hq ht
  subst this
  omega

theorem isTable_store (p : Nat) : (m.setPte t i e).IsTable pt p ↔ m.IsTable pt p := by
  refine exists_congr fun P => and_congr_right fun hP => ?_
  rw [table_store h hQ ht hP]

theorem wellFormed_store : WellFormed (m.setPte t i e) pt := by
  refine ⟨fun P P' q hP hP' hq hq' => ?_, h.aligned, fun p hp => ?_, ⟨h.free.nodup, h.free.range,
    h.free.base⟩⟩
  · rw [← Mem.table, table_store h hQ ht hP] at hq
    rw [← Mem.table, table_store h hQ ht hP'] at hq'
    exact h.unshared P P' q hP hP' hq hq'
  · rw [isTable_store h hQ ht]
    exact h.used p hp

theorem slot_store (he : e < 2 ^ 64) (hP : P.length ≤ 2) :
    (m.setPte t i e).slot pt P j = if P = Q ∧ j = i then present e else m.slot pt P j := by
  unfold slot
  rw [table_store h hQ ht hP]
  rcases eq_or_ne P Q with rfl | hPQ
  · rw [ht, bind_some, bind_some, pte_setPte, Nat.mod_eq_of_lt he]
    by_cases hj : j = i
    · rw [if_pos ⟨rfl, hj⟩, if_pos ⟨rfl, hj⟩]
    · rw [if_neg (fun h => hj h.2), if_neg (fun h => hj h.2)]
  · rw [if_neg (fun h => hPQ h.1)]
    cases hq : m.table pt P with
    | none => rw [bind_none, bind_none]
    | some q =>
      have hqt : q ≠ t := fun he => hPQ (h.unshared P Q t hP (by omega) (he ▸ hq) ht)
      rw [bind_some, bind_some, pte_setPte, if_neg (fun h => hqt h.1)]

end Store

/-- A store to the leaf entry of `va` changes one page of the map. -/
theorem entry_store (h : WellFormed m pt) (hva : va < MAXVA)
    (ht : m.table pt (leafPath va) = some t) (he : e < 2 ^ 64) :
    (m.setPte t (px 0 va) e).entry pt =
      update (m.entry pt) (va / PGSIZE) (present e) := by
  funext v
  by_cases hv : v = va / PGSIZE
  · subst hv
    rw [update_self, entry_page hva, slot_store h rfl ht he (by simp), if_pos ⟨rfl, rfl⟩]
  · rw [update_of_ne hv, entry, entry]
    by_cases hlt : v < NVPN
    · rw [if_pos hlt, if_pos hlt, slot_store h rfl ht he (by simp), if_neg]
      rintro ⟨h1, h2⟩
      have hpage : v * PGSIZE / PGSIZE = v := Nat.mul_div_cancel v (by decide)
      have := page_of_indices (hpage.symm ▸ hlt) (page_lt_NVPN hva) h1 h2
      rw [hpage] at this
      exact hv this
    · rw [if_neg hlt, if_neg hlt]

/-- `m'` is `m` with leaf entries of the page table erased and the pages `freed`
put on the free list. -/
structure Removed (m m' : Mem) (pt : Nat) (freed : List Nat) : Prop where
  wf : WellFormed m' pt
  kend : m'.kend = m.kend
  free : m'.free = freed ++ m.free
  table : ∀ P, P.length ≤ 2 → m'.table pt P = m.table pt P
  pointer : ∀ P i, P.length < 2 → m'.slot pt P i = m.slot pt P i
  frame : ∀ p ∉ freed, ¬ m.IsTable pt p → m'.page p = m.page p

theorem Removed.isTable (h : Removed m m' pt freed) (p : Nat) :
    m'.IsTable pt p ↔ m.IsTable pt p := by
  refine exists_congr fun P => and_congr_right fun hP => ?_
  rw [h.table P hP]

theorem Removed.trans {m'' : Mem} {freed' : List Nat} (h : Removed m m' pt freed)
    (h' : Removed m' m'' pt freed') : Removed m m'' pt (freed' ++ freed) where
  wf := h'.wf
  kend := h'.kend.trans h.kend
  free := by rw [h'.free, h.free, append_assoc]
  table := fun P hP => by rw [h'.table P hP, h.table P hP]
  pointer := fun P i hP => by rw [h'.pointer P i hP, h.pointer P i hP]
  frame := fun p hp hpt => by
    rw [mem_append, not_or] at hp
    rw [h'.frame p hp.1 (by rwa [h.isTable]), h.frame p hp.2 hpt]

/-- A store to a leaf entry that adds no page to the tree. -/
theorem removed_store (h : WellFormed m pt) (ht : m.table pt (leafPath va) = some t)
    (he : e < 2 ^ 64) : Removed m (m.setPte t (px 0 va) e) pt [] where
  wf := wellFormed_store h rfl ht
  kend := rfl
  free := rfl
  table := fun P hP => table_store h rfl ht hP
  pointer := fun P i hP => by
    rw [slot_store h rfl ht he (by omega), if_neg]
    rintro ⟨rfl, -⟩
    simp at hP
  frame := fun p _ hp => m.page_setPte_of_ne _ _ fun heq => hp ⟨leafPath va, by simp, heq ▸ ht⟩

theorem Removed.extends (h : Removed m m' pt []) : Extends m m' pt where
  wf := h.wf
  kend := h.kend
  news := ⟨[], h.free.symm, fun p => by simp [h.isTable]⟩
  table := fun P t hP ht => by rw [h.table P hP, ht]
  pointer := fun P i e hP hs => .inl (by rwa [h.pointer P i hP] at hs)
  frame := fun p hp _ => h.frame p not_mem_nil hp

/-! ## `mappages` -/

theorem pagesFrom_next {a : Nat} (h : pagesFrom a ≤ fuel + 1) : pagesFrom (a + PGSIZE) ≤ fuel := by
  unfold pagesFrom at *
  rw [Nat.add_div_right a (by decide)]
  omega

/-- The range starts at a page, ends below `MAXVA` and is not mapped. -/
def Clear (m : Mem) (pt a last : Nat) : Prop :=
  a ≤ last ∧ last < MAXVA ∧ ∀ v, a / PGSIZE ≤ v → v ≤ last / PGSIZE → m.entry pt v = none

/-- The entry of the page that lies `k` pages above `pa`. -/
def runPte (pa perm k : Nat) : Nat := pa2pte ((pa + k * PGSIZE) % 2 ^ 64) ||| perm ||| PTE_V

theorem runPte_zero {perm : Nat} (hpa : pa < 2 ^ 64) :
    runPte pa perm 0 = pa2pte pa ||| perm ||| PTE_V := by
  rw [runPte, Nat.zero_mul, Nat.add_zero, Nat.mod_eq_of_lt hpa]

theorem runPte_succ (pa perm k : Nat) :
    runPte ((pa + PGSIZE) % 2 ^ 64) perm k = runPte pa perm (k + 1) := by
  have hsum : pa + PGSIZE + k * PGSIZE = pa + (k + 1) * PGSIZE := by
    rw [Nat.succ_mul]
    omega
  rw [runPte, runPte, Nat.mod_add_mod, hsum]

/-- What `mappages` does: it inserts `n` pages, all of them if it returns 0, and
stops early only if no page is left for a table. -/
def MapPost (m : Mem) (pt a last pa perm : Nat) (r : Int) (m' : Mem) : Prop :=
  Extends m m' pt ∧ ∃ n, m'.entry pt = insertRun (m.entry pt) (a / PGSIZE) n (runPte pa perm) ∧
    (r = 0 ∧ a / PGSIZE + n = last / PGSIZE + 1 ∧ 0 < n ∨
      r = -1 ∧ m'.free = [] ∧ (a ≤ last → a / PGSIZE + n ≤ last / PGSIZE))

section Mappages

variable {last perm : Nat} (hperm : perm < 2 ^ 10)

/-- One round of the loop inserts one page. -/
theorem insert_page {q : Nat × Fin 512} (hperm : perm < 2 ^ 10) (hpa : pa < 2 ^ 64)
    (hgrew : Grew m m1 pt) (hva : va < MAXVA) (hfound : Found m1 pt va (some q)) :
    Extends m (m1.setPte q.1 q.2 (pa2pte pa ||| perm ||| PTE_V)) pt ∧
      (m1.setPte q.1 q.2 (pa2pte pa ||| perm ||| PTE_V)).entry pt =
        update (m.entry pt) (va / PGSIZE) (some (runPte pa perm 0)) := by
  obtain ⟨htab, hq⟩ := hfound
  have hlt := leaf_lt hpa hperm
  rw [hq]
  refine ⟨hgrew.toExtends.trans (removed_store hgrew.wf htab hlt).extends, ?_⟩
  rw [entry_store hgrew.wf hva htab hlt, hgrew.entry, present_of_valid leaf_valid, runPte_zero hpa]

theorem MapPost.next {a : Nat} {r : Int} (ha : a % PGSIZE = 0) (hlast : last % PGSIZE = 0)
    (hne : a ≠ last) (hext : Extends m m1 pt)
    (hentry : m1.entry pt = update (m.entry pt) (a / PGSIZE) (some (runPte pa perm 0)))
    (h : MapPost m1 pt (a + PGSIZE) last ((pa + PGSIZE) % 2 ^ 64) perm r m') :
    MapPost m pt a last pa perm r m' := by
  obtain ⟨hext', n, hn, hres⟩ := h
  have hnext : (a + PGSIZE) / PGSIZE = a / PGSIZE + 1 := Nat.add_div_right a (by decide)
  have hrun : runPte ((pa + PGSIZE) % 2 ^ 64) perm = fun k => runPte pa perm (k + 1) :=
    funext (runPte_succ pa perm)
  rw [hnext] at hn hres
  refine ⟨hext.trans hext', n + 1, ?_, ?_⟩
  · rw [hn, hentry, hrun, insertRun_succ]
  · rcases hres with ⟨h1, h2, h3⟩ | ⟨h1, h2, h3⟩
    · exact .inl ⟨h1, by omega, by omega⟩
    · refine .inr ⟨h1, h2, fun hle => ?_⟩
      have := h3 (by unfold PGSIZE at *; omega)
      omega

theorem Clear.next {a : Nat} (ha : a % PGSIZE = 0) (hlast : last % PGSIZE = 0) (hne : a ≠ last)
    (hentry : m1.entry pt = update (m.entry pt) (a / PGSIZE) (some e))
    (h : Clear m pt a last) : Clear m1 pt (a + PGSIZE) last := by
  obtain ⟨h1, h2, h3⟩ := h
  refine ⟨by unfold PGSIZE at *; omega, h2, fun v hv hv' => ?_⟩
  rw [Nat.add_div_right a (by decide)] at hv
  rw [hentry, update_of_ne (by omega)]
  exact h3 v (by omega) hv'

include hperm

theorem mappagesLoop_spec {a : Nat} (h : WellFormed m pt) (ha : a % PGSIZE = 0)
    (hlast : last % PGSIZE = 0) (hpa : pa < 2 ^ 64) (hfuel : pagesFrom a ≤ fuel) :
    wp (mappagesLoop pt last perm fuel a pa) m (MapPost m pt a last pa perm)
      fun _ => ¬ Clear m pt a last := by
  induction fuel generalizing m a pa with
  | zero =>
    rintro ⟨h1, h2, -⟩
    unfold pagesFrom MAXVA PGSIZE at *
    omega
  | succ fuel ih =>
    by_cases hva : a < MAXVA
    · rw [mappagesLoop, wp_bind]
      refine wp_imp (walk_alloc h hva) (fun r m1 hr => ?_) fun _ he => he.elim
      have hgrew := hr.toGrew
      have hfound := hr.found
      cases r with
      | none =>
        refine ⟨hgrew.toExtends, 0, ?_, .inr ⟨rfl, hfound, fun hle => ?_⟩⟩
        · rw [insertRun_zero, hgrew.entry]
        · exact Nat.div_le_div_right hle
      | some q =>
        have hold : m.entry pt (a / PGSIZE) = present (m1.pte q.1 q.2) := by
          rw [← hgrew.entry, entry_page hva, slot_of_table hfound.1, hfound.2]
        refine wp_ite (fun hv hclear => ?_) fun hv => ?_
        · -- the page is mapped already
          have := hclear.2.2 (a / PGSIZE) (le_refl _) (Nat.div_le_div_right hclear.1)
          rw [hold, present_of_valid hv] at this
          cases this
        · obtain ⟨hext, hnew⟩ := insert_page hperm hpa hgrew hva hfound
          refine wp_ite (fun heq => ?_) fun hne => ?_
          · refine ⟨hext, 1, ?_, .inl ⟨rfl, by rw [heq], by decide⟩⟩
            rw [hnew, ← insertRun_succ, insertRun_zero]
          · refine wp_imp (ih hext.wf (by rw [Nat.add_mod_right, ha]) (Nat.mod_lt _ (by decide))
              (pagesFrom_next hfuel)) (fun r m' hr => ?_) fun _ he hclear => ?_
            · exact MapPost.next ha hlast hne hext hnew hr
            · exact he (Clear.next ha hlast hne hnew hclear)
    · rw [mappagesLoop, walk, if_pos (by omega)]
      rintro ⟨h1, h2, -⟩
      omega

/-- `mappages` inserts pages, and it can panic only if the range is not clear. -/
theorem mappages_spec (h : WellFormed m pt) (hpa : pa < 2 ^ 64) :
    wp (mappages pt va size pa perm) m
      (MapPost m pt (pgrounddown va) (lastPage va size) pa perm)
      fun _ => ¬ Clear m pt (pgrounddown va) (lastPage va size) := by
  have hpages : pagesFrom (pgrounddown va) ≤ pagesFrom va := by
    unfold pagesFrom pgrounddown
    rw [Nat.mul_div_cancel _ (by decide)]
  exact mappagesLoop_spec hperm h (Nat.mul_mod_left _ _) (Nat.mul_mod_left _ _) hpa hpages

end Mappages

/-! ## `uvmunmap` -/

/-! ### `kfree` -/

/-- A page that `kfree` takes. -/
def Mem.Freeable (m : Mem) (p : Nat) : Prop := p % PGSIZE = 0 ∧ m.kend ≤ p ∧ p < PHYSTOP

theorem Mem.Freeable.congr {p : Nat} (h : m.Freeable p) (hkend : m'.kend = m.kend) :
    m'.Freeable p := by
  unfold Freeable at *
  rwa [hkend]

/-- The memory after `kfree`. -/
def Mem.release (m : Mem) (p : Nat) : Mem :=
  { m.setPage p fun _ => 1 with free := p :: m.free }

variable {Q : Unit → Mem → Prop} {E : Stop → Prop}

theorem kfree_spec {p : Nat} (hok : m.Freeable p → Q () (m.release p))
    (hpanic : ¬ m.Freeable p → E (.panic "kfree")) : wp (kfree p) m Q E := by
  unfold kfree Freeable at *
  refine wp_ite (fun hbad => hpanic (by omega)) fun hgood => hok (by omega)

section Release

variable {p : Nat} (hp : ¬ m.IsTable pt p)

theorem Mem.page_release_of_ne (h : t ≠ p) : (m.release p).page t = m.page t :=
  m.page_setPage_of_ne _ h

theorem Mem.pte_release_of_ne (h : t ≠ p) : (m.release p).pte t i = m.pte t i :=
  pte_congr (page_release_of_ne h) i

include hp

theorem table_release (hP : P.length ≤ 3) : (m.release p).table pt P = m.table pt P := by
  refine nodeAt_congr (fun Q q j hQ hq => child_congr ?_) hP
  refine pte_release_of_ne ?_
  rintro rfl
  exact hp ⟨Q, by omega, hq⟩

theorem slot_release (hP : P.length ≤ 2) : (m.release p).slot pt P i = m.slot pt P i := by
  unfold slot
  rw [table_release hp (by omega)]
  cases hq : m.table pt P with
  | none => rw [bind_none, bind_none]
  | some q =>
    rw [bind_some, bind_some, pte_release_of_ne]
    rintro rfl
    exact hp ⟨P, hP, hq⟩

theorem removed_release (h : WellFormed m pt) (hfree : p ∉ m.free) (hok : m.Freeable p) :
    Removed m (m.release p) pt [p] where
  wf := by
    have htab : ∀ q, (m.release p).IsTable pt q ↔ m.IsTable pt q := fun q =>
      exists_congr fun P => and_congr_right fun hP => by rw [table_release hp (by omega)]
    refine ⟨fun P P' q hP hP' hq hq' => ?_, h.aligned, fun q hq => ?_, ?_, ?_, h.free.base⟩
    · rw [← Mem.table, table_release hp (by omega)] at hq hq'
      exact h.unshared P P' q hP hP' hq hq'
    · rw [htab]
      rcases mem_cons.mp hq with rfl | hq
      · exact hp
      · exact h.used q hq
    · exact nodup_cons.mpr ⟨hfree, h.free.nodup⟩
    · intro q hq
      rcases mem_cons.mp hq with rfl | hq
      · exact hok
      · exact h.free.range q hq
  kend := rfl
  free := rfl
  table := fun P hP => table_release hp (by omega)
  pointer := fun P i hP => slot_release hp (by omega)
  frame := fun q hq _ => m.page_setPage_of_ne _ fun heq => hq (heq ▸ mem_singleton_self p)

theorem entry_release : (m.release p).entry pt = m.entry pt :=
  entry_congr fun _ _ hP => slot_release hp (by omega)

end Release

/-! ### The loop -/

/-- The pages mapped from `first` to `stop` may be freed: each is mapped once
there, and none is a page of the tree or free already. -/
structure Disposable (m : Mem) (pt first stop : Nat) : Prop where
  once : ∀ v w e e', first ≤ v → v ≤ stop → first ≤ w → w ≤ stop → m.entry pt v = some e →
    m.entry pt w = some e' → pte2pa e = pte2pa e' → v = w
  other : ∀ v e, first ≤ v → v ≤ stop → m.entry pt v = some e →
    ¬ m.IsTable pt (pte2pa e) ∧ pte2pa e ∉ m.free

/-- The range ends below `MAXVA`, and all of it is mapped by leaf entries, to
pages that `kfree` takes if they are to be freed. -/
def Mapped (m : Mem) (pt a last : Nat) (doFree : Bool) : Prop :=
  a ≤ last ∧ last < MAXVA ∧ ∀ v, a / PGSIZE ≤ v → v ≤ last / PGSIZE →
    ∃ e, m.entry pt v = some e ∧ pteFlags e ≠ PTE_V ∧ (doFree = true → m.Freeable (pte2pa e))

/-- What `uvmunmap` does: it erases the range and frees the pages there. -/
def UnmapPost (m : Mem) (pt a last : Nat) (doFree : Bool) (m' : Mem) : Prop :=
  ∃ freed n, Removed m m' pt freed ∧ a / PGSIZE + n = last / PGSIZE + 1 ∧ 0 < n ∧
    m'.entry pt = eraseRun (m.entry pt) (a / PGSIZE) n ∧
    (doFree = false → freed = []) ∧
    (doFree = true → ∀ p, p ∈ freed ↔ ∃ v e, a / PGSIZE ≤ v ∧ v ≤ last / PGSIZE ∧
      m.entry pt v = some e ∧ pte2pa e = p)

section Uvmunmap

variable {a last : Nat} {doFree : Bool}

/-- The memory after one round of the loop. -/
def Mem.dropPage (m : Mem) (t a : Nat) (doFree : Bool) (p : Nat) : Mem :=
  (if doFree then m.release p else m).setPte t (px 0 a) 0

theorem erase_page (h : WellFormed m pt) (hva : a < MAXVA)
    (ht : m.table pt (leafPath a) = some t)
    (hother : doFree = true →
      ¬ m.IsTable pt (pte2pa e) ∧ pte2pa e ∉ m.free ∧ m.Freeable (pte2pa e)) :
    Removed m (m.dropPage t a doFree (pte2pa e)) pt (if doFree then [pte2pa e] else []) ∧
      (m.dropPage t a doFree (pte2pa e)).entry pt =
        update (m.entry pt) (a / PGSIZE) none := by
  cases doFree with
  | false => exact ⟨removed_store h ht (by decide), entry_store h hva ht (by decide)⟩
  | true =>
    obtain ⟨htab, hfree, hok⟩ := hother rfl
    have hrel := removed_release htab h hfree hok
    have ht' : (m.release (pte2pa e)).table pt (leafPath a) = some t := by
      rw [table_release htab (by simp), ht]
    refine ⟨hrel.trans (removed_store hrel.wf ht' (by decide)), ?_⟩
    show ((m.release (pte2pa e)).setPte t (px 0 a) 0).entry pt = _
    rw [entry_store hrel.wf hva ht' (by decide), entry_release htab, present_zero]

theorem entry_of_update {f : Nat → Option Nat} {k v : Nat}
    (h : update f k none v = some e) : v ≠ k ∧ f v = some e := by
  by_cases hv : v = k
  · rw [hv, update_self] at h
    cases h
  · rw [update_of_ne hv] at h
    exact ⟨hv, h⟩

theorem Disposable.next {stop : Nat} (h : Disposable m pt first stop)
    (he : m.entry pt first = some e) (hrem : Removed m m1 pt freed) (hfreed : freed = [pte2pa e])
    (hentry : m1.entry pt = update (m.entry pt) first none) :
    Disposable m1 pt (first + 1) stop := by
  refine ⟨fun v w f f' hv hv' hw hw' hf hf' heq => ?_, fun v f hv hv' hf => ?_⟩
  · rw [hentry] at hf hf'
    exact h.once v w f f' (by omega) hv' (by omega) hw' (entry_of_update hf).2
      (entry_of_update hf').2 heq
  · rw [hentry] at hf
    obtain ⟨hne, hf⟩ := entry_of_update hf
    obtain ⟨h1, h2⟩ := h.other v f (by omega) hv' hf
    rw [hrem.isTable, hrem.free, hfreed, singleton_append, mem_cons, not_or]
    refine ⟨h1, fun heq => ?_, h2⟩
    exact hne (h.once v first f e (by omega) hv' (le_refl _) (by omega) hf he heq)

theorem Mapped.next (ha : a % PGSIZE = 0) (hlast : last % PGSIZE = 0) (hne : a ≠ last)
    (hkend : m1.kend = m.kend) (hentry : m1.entry pt = update (m.entry pt) (a / PGSIZE) none)
    (h : Mapped m pt a last doFree) : Mapped m1 pt (a + PGSIZE) last doFree := by
  obtain ⟨h1, h2, h3⟩ := h
  refine ⟨by unfold PGSIZE at *; omega, h2, fun v hv hv' => ?_⟩
  rw [Nat.add_div_right a (by decide)] at hv
  obtain ⟨e, he, hflags, hok⟩ := h3 v (by omega) hv'
  refine ⟨e, ?_, hflags, fun hd => ?_⟩
  · rw [hentry, update_of_ne (by omega), he]
  · exact (hok hd).congr hkend

section

variable (he : m.entry pt (a / PGSIZE) = some e) (hrem : Removed m m1 pt freed)
  (hfreed : freed = if doFree then [pte2pa e] else [])
  (hentry : m1.entry pt = update (m.entry pt) (a / PGSIZE) none)

include he hrem hfreed hentry

theorem UnmapPost.next (h : UnmapPost m1 pt (a + PGSIZE) last doFree m') :
    UnmapPost m pt a last doFree m' := by
  obtain ⟨freed', n, hrem', hn, hpos, hentry', hnone, hall⟩ := h
  rw [Nat.add_div_right a (by decide)] at *
  refine ⟨freed' ++ freed, n + 1, hrem.trans hrem', by omega, by omega, ?_, fun hd => ?_,
    fun hd p => ?_⟩
  · rw [hentry', hentry, eraseRun_succ]
  · subst hd
    rw [hnone rfl, hfreed]
    rfl
  · subst hd
    rw [mem_append, hall rfl, hfreed, if_pos rfl, mem_singleton, hentry]
    constructor
    · rintro (⟨v, f, hv, hv', hf, hp⟩ | hp)
      · exact ⟨v, f, by omega, hv', (entry_of_update hf).2, hp⟩
      · exact ⟨a / PGSIZE, e, le_refl _, by omega, he, hp.symm⟩
    · rintro ⟨v, f, hv, hv', hf, hp⟩
      by_cases hva : v = a / PGSIZE
      · rw [hva, he, Option.some.injEq] at hf
        exact .inr (by rw [← hp, hf])
      · refine .inl ⟨v, f, by omega, hv', ?_, hp⟩
        rw [update_of_ne hva, hf]

theorem unmapPost_last : UnmapPost m pt a a doFree m1 := by
  refine ⟨freed, 1, hrem, rfl, by decide, ?_, fun hd => ?_, fun hd p => ?_⟩
  · rw [hentry, ← eraseRun_succ, eraseRun_zero]
  · subst hd
    exact hfreed
  · subst hd
    rw [hfreed, if_pos rfl, mem_singleton]
    constructor
    · intro hp
      exact ⟨a / PGSIZE, e, le_refl _, le_refl _, he, hp.symm⟩
    · rintro ⟨v, f, hv, hv', hf, hp⟩
      have hva : v = a / PGSIZE := by omega
      rw [hva, he, Option.some.injEq] at hf
      rw [← hp, hf]

end

/-- One round of the loop: a panic, or the page of `a` is gone. -/
theorem uvmunmapLoop_succ
    (hva : a < MAXVA) (hpanic : ¬ Mapped m pt a a doFree → ∀ e, E e)
    (hround : ∀ t e, m.table pt (leafPath a) = some t → m.entry pt (a / PGSIZE) = some e →
      (doFree = true → m.Freeable (pte2pa e)) →
      wp (if a = last then pure () else uvmunmapLoop pt last doFree fuel (a + PGSIZE))
        (m.dropPage t a doFree (pte2pa e)) Q E) :
    wp (uvmunmapLoop pt last doFree (fuel + 1) a) m Q E := by
  rw [uvmunmapLoop, wp_bind, wp_walk hva]
  cases ht : m.table pt (leafPath a) with
  | none =>
    refine hpanic (fun hmap => ?_) _
    obtain ⟨e, he, -⟩ := hmap.2.2 (a / PGSIZE) (le_refl _) (le_refl _)
    obtain ⟨t, ht', -⟩ := table_of_entry hva he
    rw [ht] at ht'
    cases ht'
  | some t =>
    have hentry : m.entry pt (a / PGSIZE) = present (m.pte t (px 0 a)) := by
      rw [entry_page hva, slot_of_table ht]
    refine wp_ite (fun hv => hpanic (fun hmap => ?_) _) fun hv => ?_
    · obtain ⟨e, he, -⟩ := hmap.2.2 (a / PGSIZE) (le_refl _) (le_refl _)
      rw [hentry, present_of_not_valid hv] at he
      cases he
    · rw [present_of_valid hv] at hentry
      have hbad (hnot : ¬ (pteFlags (m.pte t (px 0 a)) ≠ PTE_V ∧
          (doFree = true → m.Freeable (pte2pa (m.pte t (px 0 a)))))) : ∀ e, E e := by
        refine hpanic fun hmap => ?_
        obtain ⟨e, he, hflags, hok⟩ := hmap.2.2 (a / PGSIZE) (le_refl _) (le_refl _)
        rw [hentry, Option.some.injEq] at he
        subst he
        exact hnot ⟨hflags, hok⟩
      refine wp_ite (fun hflags => hbad (fun h => h.1 hflags) _) fun hflags => ?_
      cases doFree with
      | false => exact hround t _ ht hentry (fun h => by cases h)
      | true =>
        simp only [if_true]
        rw [wp_bind]
        refine kfree_spec (fun hok => ?_) fun hok => hbad (fun h => hok (h.2 rfl)) _
        exact hround t _ ht hentry fun _ => hok

/-- A range that wraps around does not end below `MAXVA`. -/
theorem uvmunmapLoop_past (hlt : last < a)
    (hE : ∀ e, E e) : wp (uvmunmapLoop pt last doFree fuel a) m Q E := by
  induction fuel generalizing m a with
  | zero => exact hE _
  | succ fuel ih =>
    by_cases hva : a < MAXVA
    · refine uvmunmapLoop_succ hva (fun _ => hE) fun t e _ _ _ => ?_
      rw [if_neg (by omega)]
      exact ih (by omega)
    · rw [uvmunmapLoop, walk, if_pos (by omega)]
      exact hE _

theorem uvmunmapLoop_spec (h : WellFormed m pt) (ha : a % PGSIZE = 0) (hlast : last % PGSIZE = 0)
    (hfuel : pagesFrom a ≤ fuel)
    (hdisp : doFree = true → Disposable m pt (a / PGSIZE) (last / PGSIZE)) :
    wp (uvmunmapLoop pt last doFree fuel a) m
      (fun _ m' => UnmapPost m pt a last doFree m')
      fun _ => ¬ Mapped m pt a last doFree := by
  induction fuel generalizing m a with
  | zero =>
    rintro ⟨h1, h2, -⟩
    unfold pagesFrom MAXVA PGSIZE at *
    omega
  | succ fuel ih =>
    by_cases hle : a ≤ last
    · by_cases hva : a < MAXVA
      · refine uvmunmapLoop_succ hva (fun hnot _ hmap => hnot ?_) fun t e ht he hok => ?_
        · exact ⟨le_refl _, hva, fun v hv hv' =>
            hmap.2.2 v hv (hv'.trans (Nat.div_le_div_right hmap.1))⟩
        have hother (hd : doFree = true) :
            ¬ m.IsTable pt (pte2pa e) ∧ pte2pa e ∉ m.free ∧ m.Freeable (pte2pa e) := by
          have := (hdisp hd).other _ e (le_refl _) (Nat.div_le_div_right hle) he
          exact ⟨this.1, this.2, hok hd⟩
        obtain ⟨hrem, hentry⟩ := erase_page h hva ht hother
        refine wp_ite (fun heq => ?_) fun hne => ?_
        · exact heq ▸ unmapPost_last he hrem rfl hentry
        · have hdisp' (hd : doFree = true) : Disposable (m.dropPage t a doFree (pte2pa e)) pt
              ((a + PGSIZE) / PGSIZE) (last / PGSIZE) := by
            rw [Nat.add_div_right a (by decide)]
            exact (hdisp hd).next he hrem (if_pos hd) hentry
          refine wp_imp (ih hrem.wf (by rw [Nat.add_mod_right, ha])
            (pagesFrom_next hfuel) hdisp') (fun _ m' hpost => ?_) fun _ herr hmap => ?_
          · exact UnmapPost.next he hrem rfl hentry hpost
          · exact herr (hmap.next ha hlast hne hrem.kend hentry)
      · rw [uvmunmapLoop, walk, if_pos (by omega)]
        rintro ⟨h1, h2, -⟩
        omega
    · exact uvmunmapLoop_past (by omega) fun _ hmap => hle hmap.1

/-- `uvmunmap` erases the range, and it can panic only if part of the range is
not mapped. -/
theorem uvmunmap_spec (h : WellFormed m pt)
    (hdisp : doFree = true → Disposable m pt (va / PGSIZE) (lastPage va size / PGSIZE)) :
    wp (uvmunmap pt va size doFree) m
      (fun _ m' => UnmapPost m pt (pgrounddown va) (lastPage va size) doFree m')
      fun _ => ¬ Mapped m pt (pgrounddown va) (lastPage va size) doFree := by
  have hpage : pgrounddown va / PGSIZE = va / PGSIZE := Nat.mul_div_cancel _ (by decide)
  have hpages : pagesFrom (pgrounddown va) ≤ pagesFrom va := by
    unfold pagesFrom
    rw [hpage]
  rw [← hpage] at hdisp
  exact uvmunmapLoop_spec h (Nat.mul_mod_left _ _) (Nat.mul_mod_left _ _) hpages hdisp

end Uvmunmap

end SummerOsk.Vm
