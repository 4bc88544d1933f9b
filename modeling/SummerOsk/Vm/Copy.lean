import SummerOsk.Vm.Free

/-!
# Copying address spaces and writing to them

`uvmcopy` fills a second address space (`uvmcopy_spec`), `uvmclear` changes the
flags of one user page, and a write to a user page changes nothing else.
-/

namespace SummerOsk.Vm

open Lib Function Mem

variable {m m' : Mem} {pt n k p v va e : Nat} {top : Nat → Option Nat} {E : Stop → Prop}

/-! ## `uvmcopy` -/

/-- The first page of the range is not mapped: `uvmunmap` panics. -/
theorem uvmunmap_unmapped {size : Nat} {doFree : Bool} {Q : Unit → Mem → Prop}
    (hva : pgrounddown va < MAXVA) (hnone : m.entry pt (pgrounddown va / PGSIZE) = none)
    (hE : ∀ e, E e) : wp (uvmunmap pt va size doFree) m Q E := by
  rw [uvmunmap]
  cases pagesFrom va with
  | zero => exact hE _
  | succ fuel =>
    refine uvmunmapLoop_succ hva (fun _ => hE) fun t e _ he _ => ?_
    rw [hnone] at he
    cases he

theorem and_mask_flags (e : Nat) :
    pteFlags e &&& (PTE_R ||| PTE_W ||| PTE_X) = e &&& (PTE_R ||| PTE_W ||| PTE_X) := by
  have hmask : PTE_R ||| PTE_W ||| PTE_X = 14 := rfl
  rw [hmask]
  apply Nat.eq_of_testBit_eq
  intro i
  rw [Nat.testBit_and, Nat.testBit_and, pteFlags, Nat.testBit_mod_two_pow]
  by_cases hi : i < 10
  · simp [hi]
  · have h14 : Nat.testBit 14 i = false :=
      Nat.testBit_lt_two_pow (lt_of_lt_of_le (by decide) (Nat.pow_le_pow_right (by decide)
        (show 4 ≤ i by omega)))
    simp [h14]

/-- The pages of two address spaces do not meet. -/
def Apart (A B : Set Nat) : Prop := ∀ p ∈ A, p ∉ B

theorem Conserves.keeps_apart {A A' B : Set Nat} (hc : Conserves m m' A A') (h : Apart B A)
    (hfree : ∀ p ∈ B, p ∉ m.free) : Apart B A' := fun p hp =>
  (hc.not_mem (hfree p hp) (h p hp)).2

section Uvmcopy

variable {old new sz : Nat} {oldTop : Nat → Option Nat}

/-- What `uvmcopy` makes of page `v`: a page that was free, with the flags and the
contents of the old one. -/
def CopyOf (m m' : Mem) (old new v : Nat) : Prop :=
  ∃ e e', m.entry old v = some e ∧ m'.entry new v = some e' ∧ pteFlags e' = pteFlags e ∧
    pte2pa e' ∈ m.free ∧ m'.page (pte2pa e') = m.page (pte2pa e)

/-- There are not enough free pages for the first page of a copy. -/
def NoFirst (m : Mem) (new : Nat) : Prop := m.free.length < 1 + m.missing new 0

/-- A copy that fails gives back the pages of the new address space, and panics
if it has none. -/
theorem uvmcopy_undo {Q : Int → Mem → Prop} (h : Space m new k top) (hE : k = 0 → ∀ e, E e)
    (hQ : ∀ m', Space m' new 0 top → Conserves m m' (m.holds new k) (m'.holds new 0) → Q (-1) m') :
    wp (do uvmunmap new 0 (k * PGSIZE) true; return -1) m Q E := by
  rw [wp_bind]
  rcases eq_or_ne k 0 with rfl | hk
  · refine uvmunmap_unmapped (by decide) ?_ (hE rfl)
    exact h.next_free
  · have hlast : lastPage (0 * PGSIZE) (k * PGSIZE) = (k - 1) * PGSIZE := by
      have hmax := h.lt_maxva
      rw [lastPage_run (by omega) (by unfold MAXVA PGSIZE at *; omega), Nat.zero_add]
    have hshrink := h.shrink (Nat.pos_of_ne_zero hk) hlast
    exact wp_imp hshrink (fun _ m' hr => hQ m' hr.1 hr.2.1) fun _ he => he.elim

theorem pteFlags_or_valid (h : e &&& PTE_V ≠ 0) : pteFlags e ||| PTE_V = pteFlags e := by
  have hodd : e % 2 = 1 := by
    rw [PTE_V, Nat.and_one_is_mod] at h
    omega
  apply Nat.eq_of_testBit_eq
  intro i
  rw [Nat.testBit_or, pteFlags, Nat.testBit_mod_two_pow]
  cases i with
  | zero =>
    simp [hodd]
  | succ i => simp [PTE_V, Nat.testBit_succ]

theorem uvmcopyLoop_spec {fuel : Nat} (hold : Space m old (pages sz) oldTop) (h : Space m new k top)
    (hapart : Apart (m.holds old (pages sz)) (m.holds new k)) (hk : k ≤ pages sz)
    (hfuel : pages sz - k < fuel) :
    wp (uvmcopyLoop old new sz fuel (k * PGSIZE)) m
      (fun r m' => r = 0 ∧ Space m' new (pages sz) top ∧
          Conserves m m' (m.holds new k) (m'.holds new (pages sz)) ∧
          m.free.length ≤ m'.free.length + growth k (pages sz) ∧ KeepsPages m m' new k ∧
          (∀ v, k ≤ v → v < pages sz → CopyOf m m' old new v) ∨
        r = -1 ∧ Space m' new 0 top ∧ Conserves m m' (m.holds new k) (m'.holds new 0) ∧
          m.free.length < growth k (pages sz))
      fun _ => k = 0 ∧ NoFirst m new := by
  induction fuel generalizing m k with
  | zero => omega
  | succ fuel ih =>
    refine wp_ite (fun hlt => ?_) fun hge => ?_
    · have hkn : k < pages sz := by
        unfold pages PGSIZE at *
        omega
      have hgrow := growth_succ hkn
      have hmissing := h.missing_le
      have hva : k * PGSIZE < MAXVA := page_lt_maxva h.lt_maxva
      obtain ⟨e, he, hleaf, -⟩ := hold.user k hkn
      have hdiv : k * PGSIZE / PGSIZE = k := Nat.mul_div_cancel k (by decide)
      obtain ⟨t, ht, hpre⟩ := table_of_entry hva (by rwa [hdiv])
      obtain ⟨heq, hvalid⟩ := eq_of_present hpre
      rw [wp_bind, wp_walk hva, ht]
      simp only [Option.map_some]
      rw [wp_bind, wp_loadPte]
      rw [if_neg hvalid, ← heq, wp_bind]
      rw [← heq] at hvalid
      refine wp_mono kalloc_spec fun r m1 hr => ?_
      rcases hr with ⟨rfl, hnil, rfl⟩ | ⟨p, rfl, htaken⟩
      · have hfew : m1.free.length < growth k (pages sz) := by
          rw [hnil, List.length_nil]
          omega
        refine uvmcopy_undo h (fun hzero _ => ⟨hzero, ?_⟩) fun m' hsp hc =>
          .inr ⟨rfl, hsp, hc, hfew⟩
        rw [NoFirst, hnil, List.length_nil]
        omega
      · have hfilled := htaken.setPage (m1.page (pte2pa e))
        have hpe : pte2pa e ≠ p := fun hp => (hold.other k e hkn he).2 (by
          rw [hp, htaken.free]
          exact List.mem_cons_self)
        rw [wp_bind, wp_modify, wp_bind]
        have hperm : pteFlags e < 2 ^ 10 := Nat.mod_lt _ (by decide)
        refine wp_imp (h.grow_page hfilled hperm (by rw [and_mask_flags]; exact hleaf))
          (fun r m2 hr => ?_) fun _ he => he.elim
        rcases hr with ⟨rfl, hadd⟩ | ⟨rfl, hshort, hpok, hsp, hcons, -⟩
        · have hcount := hadd.count
          have hcons := hadd.conserves
          rw [if_neg (by decide), show k * PGSIZE + PGSIZE = (k + 1) * PGSIZE by
            rw [Nat.succ_mul]]
          obtain ⟨hold2, hholds⟩ := hold.conserved hcons hapart
          have hapart2 : Apart (m2.holds old (pages sz)) (m2.holds new (k + 1)) := by
            rw [hholds]
            exact hcons.keeps_apart hapart fun q hq => hold.not_free hq
          have hsame : ∀ q ∈ m.holds old (pages sz), m2.page q = m.page q := fun q hq =>
            hcons.frame q (hold.not_free hq) (hapart q hq)
          have holdEntry := entry_frame (fun q hq => hsame q (.inl hq))
          refine wp_imp (ih hold2 hadd.space hapart2 hkn (by omega)) (fun r m' hr => ?_)
            fun _ herr => by omega
          rcases hr with ⟨hr, hsp', hcons', hcount', hkeep', hcopies⟩ |
            ⟨hr, hsp', hcons', hcount'⟩
          · refine .inl ⟨hr, hsp', hcons.trans hcons', by omega,
              hadd.keeps.trans hkeep' (le_refl k) (by omega), fun v hv hv' => ?_⟩
            by_cases hvk : v = k
            · -- the page of this round keeps its contents in the later ones
              subst hvk
              obtain ⟨hent, hcont⟩ := hkeep' v _ (Nat.lt_succ_self v)
                (by rw [hadd.entry, update_self])
              refine ⟨e, _, he, hent, ?_, ?_, ?_⟩
              · rw [pteFlags_leaf hperm, pteFlags_or_valid hvalid]
              · rw [hadd.pa, htaken.free]
                exact List.mem_cons_self
              · rw [hcont, hadd.pa, hadd.page, page_setPage_self, htaken.frame _ hpe]
            · obtain ⟨f, f', hf, hf', hfl, hfree, hcont⟩ := hcopies v (by omega) hv'
              rw [holdEntry] at hf
              refine ⟨f, f', hf, hf', hfl, hadd.sub _ hfree, ?_⟩
              rw [hcont]
              exact hsame _ (holds_of_entry hv' hf)
          · exact .inr ⟨hr, hsp', hcons.trans hcons', by omega⟩
        · have hfew : m.free.length < growth k (pages sz) := by omega
          rw [if_pos (by decide), wp_bind]
          refine kfree_spec (fun _ => ?_) fun hbad => absurd hpok hbad
          refine uvmcopy_undo hsp (fun hzero _ => ⟨hzero, ?_⟩) fun m' hsp' hc =>
            .inr ⟨rfl, hsp', hcons.trans hc, hfew⟩
          subst hzero
          rwa [Nat.zero_mul] at hshort
    · have hkn : k = pages sz := by
        unfold pages PGSIZE at *
        omega
      subst hkn
      exact .inl ⟨rfl, h, h.conserves_refl, by omega, KeepsPages.refl m new _,
        fun v hv hv' => by omega⟩

/-- `uvmcopy` maps as many pages in the new address space as the old one has,
with the same contents.  When the free pages do not suffice, it takes them back;
it panics if they do not suffice for the first page. -/
theorem uvmcopy_spec (hold : Space m old (pages sz) oldTop) (h : Space m new 0 top)
    (hapart : Apart (m.holds old (pages sz)) (m.holds new 0)) :
    wp (uvmcopy old new sz) m
      (fun r m' => r = 0 ∧ Space m' new (pages sz) top ∧
          Conserves m m' (m.holds new 0) (m'.holds new (pages sz)) ∧
          m.free.length ≤ m'.free.length + growth 0 (pages sz) ∧
          (∀ v < pages sz, CopyOf m m' old new v) ∨
        r = -1 ∧ Space m' new 0 top ∧ Conserves m m' (m.holds new 0) (m'.holds new 0) ∧
          m.free.length < growth 0 (pages sz))
      fun _ => NoFirst m new := by
  have hmax := hold.lt_maxva
  have hspec := uvmcopyLoop_spec hold h hapart (Nat.zero_le _)
    (show pages sz - 0 < MAXVA / PGSIZE + 1 by omega)
  refine wp_imp hspec (fun r m' hr => ?_) fun _ he => he.2
  rcases hr with ⟨hr, hsp, hc, hcount, -, hcopies⟩ | hr
  · exact .inl ⟨hr, hsp, hc, hcount, fun v hv => hcopies v (Nat.zero_le v) hv⟩
  · exact .inr hr

end Uvmcopy

/-! ## Writes to user pages -/

/-- A write to a user page changes neither the tables nor who holds what. -/
theorem Space.write_user (h : Space m pt n top) (hv : v < n) (he : m.entry pt v = some e)
    (x : Bytes) :
    Space (m.setPage (pte2pa e) x) pt n top ∧
      Conserves m (m.setPage (pte2pa e) x) (m.holds pt n)
        ((m.setPage (pte2pa e) x).holds pt n) := by
  have hpage : ∀ p, m.IsTable pt p → (m.setPage (pte2pa e) x).page p = m.page p := fun p hp =>
    m.page_setPage_of_ne x fun heq => (h.other v e hv he).1 (heq ▸ hp)
  have hfree : (m.setPage (pte2pa e) x).FreeList :=
    ⟨h.wf.free.nodup, h.wf.free.range, h.wf.free.base⟩
  have hspace := h.frame hpage hfree rfl fun p hp => h.not_free hp
  refine ⟨hspace, hfree, rfl, fun p => ?_, fun p hp => hspace.not_free hp, fun p _ hp => ?_⟩
  · rw [holds_frame hpage]
    rfl
  · exact m.page_setPage_of_ne x fun heq => hp (heq ▸ holds_of_entry hv he)

/-- What `walkaddr` returns. -/
def Mem.userPa (m : Mem) (pt va : Nat) : Nat :=
  if va ≥ MAXVA then 0
  else
    match m.entry pt (va / PGSIZE) with
    | none => 0
    | some e => if e &&& PTE_U = 0 then 0 else pte2pa e

theorem wp_walkaddr {Q : Nat → Mem → Prop} : wp (walkaddr pt va) m Q E ↔ Q (m.userPa pt va) m := by
  unfold walkaddr userPa
  by_cases hva : va ≥ MAXVA
  · rw [if_pos hva, if_pos hva, wp_pure]
  · have hlt : va < MAXVA := by omega
    rw [if_neg hva, if_neg hva, wp_bind, wp_walk hlt, entry_page hlt]
    cases ht : m.table pt (leafPath va) with
    | none =>
      rw [slot, ht]
      exact Iff.rfl
    | some t =>
      rw [slot_of_table ht]
      simp only [Option.map_some]
      rw [wp_bind, wp_loadPte]
      by_cases hv : m.pte t (px 0 va) &&& PTE_V = 0
      · rw [if_pos hv, present_of_not_valid hv]
        exact Iff.rfl
      · rw [if_neg hv, present_of_valid hv]
        dsimp only
        by_cases hu : m.pte t (px 0 va) &&& PTE_U = 0
        · rw [if_pos hu, if_pos hu]
          exact Iff.rfl
        · rw [if_neg hu, if_neg hu]
          exact Iff.rfl

/-- The pages above the user pages are not for user mode. -/
def Guarded (top : Nat → Option Nat) : Prop := ∀ v e, top v = some e → e &&& PTE_U = 0

/-- What it means that `walkaddr` finds an address. -/
theorem Mem.entry_of_userPa (hpa : m.userPa pt va ≠ 0) :
    va < MAXVA ∧ ∃ e, m.entry pt (va / PGSIZE) = some e ∧ e &&& PTE_U ≠ 0 ∧
      m.userPa pt va = pte2pa e := by
  unfold userPa at *
  by_cases hva : va ≥ MAXVA
  · rw [if_pos hva] at hpa
    exact absurd rfl hpa
  · rw [if_neg hva] at *
    cases he : m.entry pt (va / PGSIZE) with
    | none =>
      rw [he] at hpa
      exact absurd rfl hpa
    | some e =>
      rw [he] at hpa
      dsimp only at *
      by_cases hu : e &&& PTE_U = 0
      · rw [if_pos hu] at hpa
        exact absurd rfl hpa
      · rw [if_neg hu]
        exact ⟨by omega, e, rfl, hu, rfl⟩

/-- An address that `walkaddr` finds is in a user page. -/
theorem Space.userPa_mem (h : Space m pt n top) (htop : Guarded top) (hpa : m.userPa pt va ≠ 0) :
    ∃ e, va / PGSIZE < n ∧ m.entry pt (va / PGSIZE) = some e ∧ m.userPa pt va = pte2pa e := by
  obtain ⟨-, e, he, hu, heq⟩ := entry_of_userPa hpa
  refine ⟨e, ?_, he, heq⟩
  by_contra hge
  rw [h.rest _ (by omega)] at he
  exact hu (htop _ e he)

/-! ## `uvmclear` -/

theorem clear_user (he : e < 2 ^ 64) :
    pte2pa (e &&& (2 ^ 64 - 1 - PTE_U)) = pte2pa e ∧
      (e &&& (2 ^ 64 - 1 - PTE_U)) &&& PTE_V = e &&& PTE_V ∧
      (IsLeaf e → IsLeaf (e &&& (2 ^ 64 - 1 - PTE_U))) := by
  refine ⟨?_, ?_, fun hleaf hzero => hleaf ?_⟩
  · have hdiv : (e &&& (2 ^ 64 - 1 - PTE_U)) / 2 ^ 10 = e / 2 ^ 10 := by
      rw [Nat.and_div_two_pow, show (2 ^ 64 - 1 - PTE_U) / 2 ^ 10 = 2 ^ 54 - 1 by decide,
        Nat.and_two_pow_sub_one_eq_mod, Nat.mod_eq_of_lt (by omega)]
    rw [pte2pa, hdiv, pte2pa]
  · rw [Nat.land_assoc, show (2 ^ 64 - 1 - PTE_U) &&& PTE_V = PTE_V by decide]
  · rwa [Nat.land_assoc, show (2 ^ 64 - 1 - PTE_U) &&& (PTE_R ||| PTE_W ||| PTE_X) =
      PTE_R ||| PTE_W ||| PTE_X by decide] at hzero

/-- `uvmclear` changes the flags of a user page. -/
theorem Space.uvmclear (h : Space m pt n top) (hv : v < n) :
    wp (uvmclear pt (v * PGSIZE)) m
      (fun _ m' => Space m' pt n top ∧ Conserves m m' (m.holds pt n) (m'.holds pt n) ∧
        m'.free = m.free ∧ ∀ w, w ≠ v → m'.entry pt w = m.entry pt w)
      fun _ => False := by
  have hmax := h.lt_maxva
  have hva : v * PGSIZE < MAXVA := page_lt_maxva (by omega)
  have hdiv : v * PGSIZE / PGSIZE = v := Nat.mul_div_cancel v (by decide)
  obtain ⟨e, he, hleaf, hok⟩ := h.user v hv
  obtain ⟨t, ht, hpre⟩ := table_of_entry hva (by rwa [hdiv])
  obtain ⟨heq, hvalid⟩ := eq_of_present hpre
  have helt : e < 2 ^ 64 := by
    rw [heq, pte]
    exact getLE_lt _ _ 8
  obtain ⟨hpa, hval, hleaf'⟩ := clear_user helt
  unfold Vm.uvmclear
  rw [wp_bind, wp_walk hva, ht]
  simp only [Option.map_some]
  rw [wp_bind, wp_loadPte, wp_storePte, ← heq]
  dsimp only
  generalize hnew : e &&& (2 ^ 64 - 1 - PTE_U) = e' at *
  have hlt : e' < 2 ^ 64 := by
    rw [← hnew]
    exact lt_of_le_of_lt Nat.and_le_left helt
  have hent := entry_store h.wf hva ht hlt
  rw [present_of_valid (by rw [hval, heq]; exact hvalid), hdiv] at hent
  -- the entries before and after the store have the same pages
  have hpages : ∀ w f, (m.setPte t (px 0 (v * PGSIZE)) e').entry pt w = some f →
      ∃ f0, m.entry pt w = some f0 ∧ pte2pa f0 = pte2pa f := by
    intro w f hf
    rw [hent] at hf
    by_cases hwv : w = v
    · rw [hwv, update_self, Option.some.injEq] at hf
      exact ⟨e, hwv ▸ he, by rw [← hf, hpa]⟩
    · rw [update_of_ne hwv] at hf
      exact ⟨f, hf, rfl⟩
  have htables := isTable_store (i := px 0 (v * PGSIZE)) (e := e') h.wf rfl ht
  have hspace : Space (m.setPte t (px 0 (v * PGSIZE)) e') pt n top := by
    refine ⟨wellFormed_store h.wf rfl ht, ?_, ?_, h.low, ?_, ?_, ?_, ?_⟩
    · intro w hw
      by_cases hwv : w = v
      · refine ⟨e', by rw [hent, hwv, update_self], hleaf' hleaf, ?_⟩
        rw [hpa]
        exact hok
      · rw [hent, update_of_ne hwv]
        exact h.user w hw
    · intro w hw
      rw [hent, update_of_ne (by omega)]
      exact h.rest w hw
    · intro P i f hP hs
      rw [slot_store h.wf rfl ht hlt (by omega), if_neg] at hs
      · exact h.pointer P i f hP hs
      · rintro ⟨rfl, -⟩
        simp at hP
    · intro q hq
      exact h.tables q ((htables q).mp hq)
    · intro w w' f f' hw hw' hf hf' hff
      obtain ⟨g, hg, hgf⟩ := hpages w f hf
      obtain ⟨g', hg', hgf'⟩ := hpages w' f' hf'
      exact h.once w w' g g' hw hw' hg hg' (by rw [hgf, hgf', hff])
    · intro w f hw hf
      obtain ⟨g, hg, hgf⟩ := hpages w f hf
      rw [htables, ← hgf]
      exact h.other w g hw hg
  refine ⟨hspace, ⟨hspace.wf.free, rfl, fun q => ?_, fun q hq => hspace.not_free hq,
    fun q _ hq => ?_⟩, rfl, fun w hw => by rw [hent, update_of_ne hw]⟩
  · refine or_congr Iff.rfl ⟨?_, ?_⟩
    · rintro (hq | ⟨w, f, hw, hf, rfl⟩)
      · exact .inl ((htables q).mp hq)
      · obtain ⟨g, hg, hgf⟩ := hpages w f hf
        exact .inr ⟨w, g, hw, hg, hgf⟩
    · rintro (hq | ⟨w, f, hw, hf, rfl⟩)
      · exact .inl ((htables q).mpr hq)
      · rcases eq_or_ne w v with rfl | hwv
        · rw [he, Option.some.injEq] at hf
          exact .inr ⟨w, e', hw, by rw [hent, update_self], by rw [hpa, hf]⟩
        · exact .inr ⟨w, f, hw, by rw [hent, update_of_ne hwv, hf], rfl⟩
  · exact m.page_setPte_of_ne _ _ fun heq => hq (.inl ⟨_, by simp, heq ▸ ht⟩)

end SummerOsk.Vm
