import SummerOsk.Vm.Map

/-!
# Page tables refine finite maps

The abstract page table is a map from virtual page numbers to a physical page
and its flags.  `walk` looks the map up, `mappages` inserts a run of pages and
`uvmunmap` erases one.
-/

namespace SummerOsk.Vm

open Lib

/-- The physical page and the flags of an entry. -/
def decodePte (e : Nat) : Nat × Nat := (pte2pa e, pteFlags e)

/-- The map that a page table stands for. -/
def Mem.map (m : Mem) (pt : Nat) : Nat → Option (Nat × Nat) := fun v =>
  (m.entry pt v).map decodePte

variable {m m' : Mem} {pt pa perm va size : Nat} {α β : Type} {r : Int}

theorem Mem.map_congr (h : m'.entry pt = m.entry pt) : m'.map pt = m.map pt := by
  unfold Mem.map
  rw [h]

theorem map_insertRun (d : α → β) (f : Nat → Option α) (first n : Nat) (g : Nat → α) :
    (fun v => (insertRun f first n g v).map d) =
      insertRun (fun v => (f v).map d) first n fun k => d (g k) := by
  funext v
  unfold insertRun
  split_ifs <;> rfl

theorem map_eraseRun (d : α → β) (f : Nat → Option α) (first n : Nat) :
    (fun v => (eraseRun f first n v).map d) = eraseRun (fun v => (f v).map d) first n := by
  funext v
  unfold eraseRun
  split_ifs <;> rfl

theorem decodePte_runPte {k : Nat} (hperm : perm < 2 ^ 10) :
    decodePte (runPte pa perm k) =
      (pgrounddown ((pa + k * PGSIZE) % 2 ^ 64), perm ||| PTE_V) := by
  rw [decodePte, runPte, pte2pa_leaf (Nat.mod_lt _ (by decide)) hperm, pteFlags_leaf hperm]

/-- The number of pages of a range. -/
def pageCount (va size : Nat) : Nat := lastPage va size / PGSIZE + 1 - va / PGSIZE

theorem pgrounddown_div (va : Nat) : pgrounddown va / PGSIZE = va / PGSIZE :=
  Nat.mul_div_cancel _ (by decide)

theorem MapPost.map_eq (hperm : perm < 2 ^ 10)
    (h : MapPost m pt (pgrounddown va) (lastPage va size) pa perm r m') (hr : r = 0) :
    m'.map pt = insertRun (m.map pt) (va / PGSIZE) (pageCount va size) fun k =>
      (pgrounddown ((pa + k * PGSIZE) % 2 ^ 64), perm ||| PTE_V) := by
  obtain ⟨-, n, hn, ⟨-, hcount, -⟩ | ⟨hr', -⟩⟩ := h
  · rw [pgrounddown_div] at hn hcount
    have hpages : n = pageCount va size := by
      unfold pageCount
      omega
    subst hpages
    unfold Mem.map
    rw [hn, map_insertRun]
    simp only [decodePte_runPte hperm]
  · omega

/-- A failing `mappages` of one page has not mapped it. -/
theorem MapPost.map_of_fail (h : MapPost m pt (pgrounddown va) (lastPage va size) pa perm r m')
    (hr : r = -1) (hone : pgrounddown va = lastPage va size) : m'.map pt = m.map pt := by
  obtain ⟨-, n, hn, ⟨hr', -⟩ | ⟨-, -, hcount⟩⟩ := h
  · omega
  · have hzero : n = 0 := by
      have := hcount (le_of_eq hone)
      rw [hone] at this
      omega
    rw [hzero, insertRun_zero] at hn
    exact Mem.map_congr hn

theorem UnmapPost.map_eq {doFree : Bool}
    (h : UnmapPost m pt (pgrounddown va) (lastPage va size) doFree m') :
    m'.map pt = eraseRun (m.map pt) (va / PGSIZE) (pageCount va size) := by
  obtain ⟨-, n, -, hcount, -, hn, -⟩ := h
  rw [pgrounddown_div] at hn hcount
  have hpages : n = pageCount va size := by
    unfold pageCount
    omega
  subst hpages
  unfold Mem.map
  rw [hn, map_eraseRun]

/-- `walk` looks up the map, with `alloc` it leaves the map alone, and
`mappages` and `uvmunmap` change their range and nothing else.  `uvmunmap` returns
if its range is mapped.  The pages that it frees must not be in use elsewhere. -/
theorem page_table_map (h : WellFormed m pt) :
    (∀ va < MAXVA, ∃ r, walk pt va false m = .ok (r, m) ∧
      (r.bind fun q => (present (m.pte q.1 q.2)).map decodePte) = m.map pt (va / PGSIZE)) ∧
    (∀ va < MAXVA, ∃ r m', walk pt va true m = .ok (r, m') ∧ WellFormed m' pt ∧
      m'.map pt = m.map pt ∧
      (∀ P t, P.length ≤ 2 → m.table pt P = some t → m'.table pt P = some t) ∧
      ∀ P i, P.length = 2 → m.table pt P = none → m'.slot pt P i = none) ∧
    (∀ va size pa perm r m', pa < 2 ^ 64 → perm < 2 ^ 10 →
      mappages pt va size pa perm m = .ok (r, m') →
      WellFormed m' pt ∧ (r = 0 ∨ r = -1) ∧
      (r = 0 → m'.map pt = insertRun (m.map pt) (va / PGSIZE) (pageCount va size) fun k =>
        (pgrounddown ((pa + k * PGSIZE) % 2 ^ 64), perm ||| PTE_V)) ∧
      (r = -1 → pgrounddown va = lastPage va size → m'.map pt = m.map pt)) ∧
    (∀ va size doFree,
      (doFree = true → Disposable m pt (va / PGSIZE) (lastPage va size / PGSIZE)) →
      (Mapped m pt (pgrounddown va) (lastPage va size) doFree →
        ∃ m', uvmunmap pt va size doFree m = .ok ((), m')) ∧
      ∀ m', uvmunmap pt va size doFree m = .ok ((), m') →
        WellFormed m' pt ∧
        m'.map pt = eraseRun (m.map pt) (va / PGSIZE) (pageCount va size)) := by
  refine ⟨fun va hva => ?_, fun va hva => ?_, fun va size pa perm r m' hpa hperm hrun => ?_,
    fun va size doFree hdisp => ⟨fun hmapped => ?_, fun m' hrun => ?_⟩⟩
  · refine ⟨_, walk_eq m pt hva, ?_⟩
    rw [Mem.map, Mem.entry_page hva, Mem.slot]
    cases m.table pt (leafPath va) <;> rfl
  · obtain ⟨r, m', hwalk, hgrew⟩ := wp_returns (walk_alloc h hva)
    refine ⟨r, m', hwalk, hgrew.wf, Mem.map_congr hgrew.entry, hgrew.table, fun P i hP hnone => ?_⟩
    rw [hgrew.slot P i hP, Mem.slot, hnone]
    rfl
  · have hpost := wp_ok (mappages_spec hperm h hpa) hrun
    refine ⟨hpost.1.wf, ?_, hpost.map_eq hperm, hpost.map_of_fail⟩
    obtain ⟨-, n, -, hres | hres⟩ := hpost
    · exact .inl hres.1
    · exact .inr hres.1
  · have hspec := wp_imp (uvmunmap_spec h hdisp) (fun _ _ hpost => hpost) fun _ hnot =>
      hnot hmapped
    obtain ⟨_, m', hrun, -⟩ := wp_returns hspec
    exact ⟨m', hrun⟩
  · have hpost := wp_ok (uvmunmap_spec h hdisp) hrun
    refine ⟨?_, hpost.map_eq⟩
    obtain ⟨freed, n, hrem, -⟩ := hpost
    exact hrem.wf

/-- An empty page table and four free pages. -/
def blankMem : Mem where
  page := fun _ _ => 0
  free := [0x87001000, 0x87002000, 0x87003000, 0x87004000]
  kend := 0x80030000

theorem blankMem_table {P : List (Fin 512)} {t : Nat}
    (h : blankMem.table 0x87000000 P = some t) : P = [] ∧ t = 0x87000000 := by
  cases P with
  | nil => exact ⟨rfl, (Option.some.inj h).symm⟩
  | cons i P =>
    rw [Mem.table, nodeAt, Mem.child, Mem.pte, blankMem, getLE_zero] at h
    cases h

theorem blankMem_wellFormed : WellFormed blankMem 0x87000000 := by
  refine ⟨fun P Q t _ _ hP hQ => ?_, by decide, ?_, by decide, by decide, by decide⟩
  · rw [(blankMem_table hP).1, (blankMem_table hQ).1]
  · rintro p hp ⟨P, -, ht⟩
    rw [(blankMem_table ht).2] at hp
    revert hp
    decide

/-- A page is mapped and unmapped again. -/
theorem page_table_map_blank : ∃ m' m'',
    mappages 0x87000000 0x5000 PGSIZE 0x87004000 (PTE_R ||| PTE_U) blankMem = .ok (0, m') ∧
      WellFormed m' 0x87000000 ∧
      m'.map 0x87000000 = insertRun (blankMem.map 0x87000000) 5 1 (fun k =>
        (pgrounddown ((0x87004000 + k * PGSIZE) % 2 ^ 64), 19)) ∧
      uvmunmap 0x87000000 0x5000 PGSIZE false m' = .ok ((), m'') ∧ WellFormed m'' 0x87000000 ∧
      m''.map 0x87000000 = eraseRun (m'.map 0x87000000) 5 1 := by
  have hret : (mappages 0x87000000 0x5000 PGSIZE 0x87004000
      (PTE_R ||| PTE_U) blankMem).toOption.map Prod.fst = some 0 := by decide +kernel
  obtain ⟨m', hrun⟩ : ∃ m', mappages 0x87000000 0x5000 PGSIZE 0x87004000
      (PTE_R ||| PTE_U) blankMem = .ok (0, m') := by
    cases hm : mappages 0x87000000 0x5000 PGSIZE 0x87004000 (PTE_R ||| PTE_U) blankMem with
    | error e =>
      rw [hm] at hret
      cases hret
    | ok res =>
      rw [hm] at hret
      exact ⟨res.2, congrArg Except.ok (Prod.ext (Option.some.inj hret) rfl)⟩
  obtain ⟨hwf, -, hmap, -⟩ := (page_table_map blankMem_wellFormed).2.2.1 0x5000 PGSIZE 0x87004000
    (PTE_R ||| PTE_U) 0 m' (by decide) (by decide) hrun
  have hmap := hmap rfl
  obtain ⟨hreturns, herase⟩ := (page_table_map hwf).2.2.2 0x5000 PGSIZE false (by simp)
  have hmapped : Mapped m' 0x87000000 (pgrounddown 0x5000) (lastPage 0x5000 PGSIZE) false := by
    refine ⟨by decide, by decide, fun v hlow hhigh => ?_⟩
    have hv : v = 5 := Nat.le_antisymm hhigh hlow
    have hfive := congrFun hmap 5
    rw [insertRun, if_pos (by decide), Mem.map, Option.map_eq_some_iff] at hfive
    obtain ⟨e, he, hpte⟩ := hfive
    refine ⟨e, hv ▸ he, ?_, by simp⟩
    rw [show pteFlags e = 19 from congrArg Prod.snd hpte]
    decide
  obtain ⟨m'', hunmap⟩ := hreturns hmapped
  obtain ⟨hwf', hmap'⟩ := herase m'' hunmap
  exact ⟨m', m'', hrun, hwf, hmap, hunmap, hwf', hmap'⟩

end SummerOsk.Vm
