import SummerOsk.Lib.Strings
import SummerOsk.Vm.Uvmcopy
import SummerOsk.Vm.User

/-!
# Copies between the kernel and user memory are exact

For every page table whose user leaves are distinct pages, `copyout`, `copyin`
and `copyinstr` transfer what user mode could have read or written itself, up to
the first page that it cannot get at, and touch nothing else.

The three functions read user memory through `Mem.user` only, so their results
are the same in all memories that look the same to user mode.
-/

namespace SummerOsk.Vm

open Lib List Mem

variable {m m' : Mem} {pt va n len : Nat}

/-! ## Pages and bytes -/

/-- The page `v` is valid, has `PTE_U` and lies below `MAXVA`. -/
def Mem.Accessible (m : Mem) (pt v : Nat) : Prop := v * PGSIZE < MAXVA ∧ m.UserPage pt v

/-- All pages that meet `[va, va + len)` are accessible. -/
def Mem.Open (m : Mem) (pt va len : Nat) : Prop := ∀ j < len, m.Accessible pt ((va + j) / PGSIZE)

/-- User mode can get at the bytes of the accessible pages. -/
theorem UserTable.user_ne_none_iff (h : UserTable m pt) :
    m.user pt va ≠ none ↔ m.Accessible pt (va / PGSIZE) := by
  rw [Ne, user_eq_none]
  constructor
  · intro hpa
    obtain ⟨hmax, e, he, hu, -⟩ := entry_of_userPa hpa
    refine ⟨?_, e, he, hu⟩
    unfold PGSIZE
    omega
  · rintro ⟨hmax, e, he, hu⟩
    have hva : ¬ va ≥ MAXVA := by
      unfold MAXVA PGSIZE at *
      omega
    unfold userPa
    rw [if_neg hva, he]
    dsimp only
    rw [if_neg hu]
    exact h.ram _ e he hu

theorem UserTable.user_eq_none_iff (h : UserTable m pt) :
    m.user pt va = none ↔ ¬ m.Accessible pt (va / PGSIZE) := by
  rw [← h.user_ne_none_iff, Ne, not_not]

theorem UserTable.open_of_user (h : UserTable m pt) (hall : ∀ j < len, m.user pt (va + j) ≠ none) :
    m.Open pt va len := by
  intro j hj
  exact h.user_ne_none_iff.mp (hall j hj)

/-! ## `copyout` -/

/-- What `copyout` does. -/
structure CopyoutExact (m m' : Mem) (pt dstva : Nat) (src : List UInt8) (r : Int) : Prop where
  zero_iff : r = 0 ↔ m.Open pt dstva src.length
  fail : r ≠ 0 → r = -1
  all : r = 0 → m.Written m' pt dstva src
  /-- The bytes before the first bad page, and no more. -/
  some : r = -1 → ∃ k < src.length, m.Open pt dstva k ∧ ¬ m.Accessible pt ((dstva + k) / PGSIZE) ∧
    m.Written m' pt dstva (src.take k)
  /-- Every byte of the memory that changes belongs to an accessible address of
  the range. -/
  confined : ∀ p b, m'.page p b ≠ m.page p b →
    ∃ j < src.length, m.Accessible pt ((dstva + j) / PGSIZE) ∧ m.userPa pt (dstva + j) = p ∧
      (dstva + j) % PGSIZE = b

theorem CopiedOut.exact {dstva k : Nat} {src : List UInt8} {r : Int} (h : UserTable m pt)
    (hc : CopiedOut m m' pt dstva src r k) : CopyoutExact m m' pt dstva src r := by
  have hlen : (src.take k).length = k := by
    have := hc.le
    rw [length_take]
    omega
  have hopen : m.Open pt dstva k := by
    apply h.open_of_user
    intro j hj
    exact hc.written.user_ne_none (by omega)
  have hconfined : ∀ p b, m'.page p b ≠ m.page p b →
      ∃ j < src.length, m.Accessible pt ((dstva + j) / PGSIZE) ∧ m.userPa pt (dstva + j) = p ∧
        (dstva + j) % PGSIZE = b := by
    intro p b hne
    obtain ⟨j, hj, hpa, hp0, hb⟩ := hc.confined.byte p b hne
    have hle := hc.le
    exact ⟨j, by omega, hopen j hj, hpa, hb⟩
  rcases hc.result with ⟨rfl, hk⟩ | ⟨rfl, hk, hnone⟩
  · subst hk
    refine ⟨iff_of_true rfl hopen, fun hr => absurd rfl hr, ?_, ?_, hconfined⟩
    · intro _
      have hw := hc.written
      rwa [take_length] at hw
    · intro hr
      cases hr
  · have hbad : ¬ m.Accessible pt ((dstva + k) / PGSIZE) := h.user_eq_none_iff.mp hnone
    refine ⟨iff_of_false (by decide) (fun hall => hbad (hall k hk)), fun _ => rfl, ?_, ?_,
      hconfined⟩
    · intro hr
      cases hr
    · intro _
      exact ⟨k, hk, hopen, hbad, hc.written⟩

/-! ## `copyin` -/

/-- What `copyin` does. -/
structure CopyinExact (m : Mem) (pt srcva len : Nat) (bs : List UInt8) (ok : Bool) : Prop where
  zero_iff : ok = true ↔ m.Open pt srcva len
  bytes : ∀ j < bs.length, m.user pt (srcva + j) = some (bs.getD j 0)
  all : ok = true → bs.length = len
  /-- The bytes before the first bad page, and no more. -/
  some : ok = false → bs.length < len ∧ m.Open pt srcva bs.length ∧
    ¬ m.Accessible pt ((srcva + bs.length) / PGSIZE)
  /-- Only bytes of user pages are read. -/
  reads : ∀ m1 : Mem, m1.user pt = m.user pt → copyin pt srcva len m1 = .ok ((bs, ok), m1)

/-- The bytes up to a hole or to the limit are determined by the memory. -/
theorem bytes_unique {f : Nat → Option UInt8} {bs cs : List UInt8}
    (hbs : ∀ j < bs.length, f (va + j) = some (bs.getD j 0))
    (hcs : ∀ j < cs.length, f (va + j) = some (cs.getD j 0)) (hble : bs.length ≤ len)
    (hcle : cs.length ≤ len) (hbend : bs.length = len ∨ f (va + bs.length) = none)
    (hcend : cs.length = len ∨ f (va + cs.length) = none) : bs = cs := by
  have hnone : ∀ {xs ys : List UInt8}, (∀ j < ys.length, f (va + j) = some (ys.getD j 0)) →
      (xs.length = len ∨ f (va + xs.length) = none) → ys.length ≤ len →
      ys.length ≤ xs.length := by
    intro xs ys hys hend hle
    by_contra hlt
    rcases hend with hend | hend
    · omega
    · rw [hys _ (by omega)] at hend
      cases hend
  have hlen : bs.length = cs.length := le_antisymm (hnone hbs hcend hble) (hnone hcs hbend hcle)
  apply ext_getElem hlen
  intro i hi hi'
  have hb := hbs i hi
  rw [hcs i hi', Option.some.injEq, getD_eq_getElem _ _ hi', getD_eq_getElem _ _ hi] at hb
  exact hb.symm

theorem UserTable.copyin (h : UserTable m pt) (srcva len : Nat) :
    ∃ bs ok, copyin pt srcva len m = .ok ((bs, ok), m) ∧ CopyinExact m pt srcva len bs ok := by
  have hspec : wp (Vm.copyin pt srcva len) m _ _ := copyin_spec
  obtain ⟨⟨bs, ok⟩, m', hrun, rfl, hle, hbytes, hend⟩ := wp_returns hspec
  have hopen : m'.Open pt srcva bs.length := by
    apply h.open_of_user
    intro j hj
    rw [hbytes j hj]
    simp
  have hreads : ∀ m1 : Mem, m1.user pt = m'.user pt →
      Vm.copyin pt srcva len m1 = .ok ((bs, ok), m1) := by
    intro m1 hsame
    have hspec' : wp (Vm.copyin pt srcva len) m1 _ _ := copyin_spec
    obtain ⟨⟨bs', ok'⟩, m2, hrun', rfl, hle', hbytes', hend'⟩ := wp_returns hspec'
    rw [hsame] at hbytes' hend'
    have heq : bs' = bs := bytes_unique hbytes' hbytes hle' hle
      (hend'.imp And.right fun hbad => hbad.2.2) (hend.imp And.right fun hbad => hbad.2.2)
    have hok : ok' = ok := by
      dsimp only at hend hend'
      rw [heq] at hend'
      rcases hend with ⟨hok, hlen⟩ | ⟨hok, hlen, -⟩
      · rcases hend' with ⟨hok', -⟩ | ⟨-, hlen', -⟩
        · rw [hok, hok']
        · omega
      · rcases hend' with ⟨-, hlen'⟩ | ⟨hok', -, -⟩
        · omega
        · rw [hok, hok']
    rw [hrun', heq, hok]
  refine ⟨bs, ok, hrun, ?_⟩
  rcases hend with ⟨hok, hlen⟩ | ⟨hok, hlen, hnone⟩
  · subst hok hlen
    exact ⟨iff_of_true rfl hopen, hbytes, fun _ => rfl, nofun, hreads⟩
  · subst hok
    have hbad := h.user_eq_none_iff.mp hnone
    exact ⟨iff_of_false (by decide) (fun hall => hbad (hall _ hlen)), hbytes, nofun,
      fun _ => ⟨hlen, hopen, hbad⟩, hreads⟩

/-! ## `copyinstr` -/

/-- The inner loop copies a string from a page. -/
theorem copyinstrPage_eq (x : Bytes) (o n : Nat) :
    copyinstrPage x o n =
      (copied (fun i => some (x i)) o n, decide (0 ∈ copied (fun i => some (x i)) o n)) := by
  induction n generalizing o with
  | zero => rfl
  | succ n ih =>
    rw [copyinstrPage]
    by_cases hx : x o = 0
    · rw [if_pos hx, copied_zero (by rw [hx])]
      rfl
    · have hne : (0 : UInt8) ≠ x o := fun he => hx he.symm
      rw [if_neg hx, ih, copied_succ rfl hx]
      simp only [mem_cons, hne, false_or]

/-- One page of a string, in the memory of the user. -/
theorem copied_page {n : Nat} (hpa : m.userPa pt va ≠ 0) (hfit : va % PGSIZE + n ≤ PGSIZE) :
    copied (fun i => some (m.page (m.userPa pt va) i)) (va % PGSIZE) n =
      copied (m.user pt) va n := by
  apply copied_congr
  intro j hj
  have hdiv : (va + j) / PGSIZE = va / PGSIZE := by
    unfold PGSIZE at *
    omega
  have hmod : (va + j) % PGSIZE = va % PGSIZE + j := by
    unfold PGSIZE at *
    omega
  have hpj : m.userPa pt (va + j) = m.userPa pt va := userPa_congr hdiv
  rw [user_of_ne_zero (by rwa [hpj]), hpj, hmod]

theorem user_page_ne_none {j n : Nat} (hpa : m.userPa pt va ≠ 0)
    (hfit : va % PGSIZE + n ≤ PGSIZE) (hj : j < n) : m.user pt (va + j) ≠ none := by
  have hdiv : (va + j) / PGSIZE = va / PGSIZE := by
    unfold PGSIZE at *
    omega
  rwa [Ne, user_eq_none, userPa_congr hdiv]

theorem copyinstrLoop_eq {fuel srcva max : Nat} (hfuel : max ≤ fuel) :
    copyinstrLoop pt fuel srcva max m =
      .ok ((copied (m.user pt) srcva max, decide (0 ∈ copied (m.user pt) srcva max)), m) := by
  apply run_of_wp
  induction fuel generalizing srcva max with
  | zero =>
    obtain rfl : max = 0 := by omega
    exact ⟨rfl, rfl⟩
  | succ fuel ih =>
    refine wp_ite (fun hpos => ?_) fun hnil => ?_
    · rw [wp_bind, wp_walkaddr, userPa_pgrounddown]
      refine wp_ite (fun hpa => ?_) fun hpa => ?_
      · obtain ⟨max, rfl⟩ : ∃ k, max = k + 1 := ⟨max - 1, by omega⟩
        rw [copied_none (user_eq_none.mpr hpa)]
        exact ⟨rfl, rfl⟩
      · have hle := pagePart_le srcva max
        have hp0 : 0 < pagePart srcva max := pagePart_pos hpos
        have hfit := pagePart_fits srcva max
        have hsplit : max = pagePart srcva max + (max - pagePart srcva max) := by omega
        rw [wp_bind, wp_get, copyinstrPage_eq, copied_page hpa hfit]
        dsimp only
        by_cases hnul : 0 ∈ copied (m.user pt) srcva (pagePart srcva max)
        · have hall : copied (m.user pt) srcva max =
              copied (m.user pt) srcva (pagePart srcva max) := by
            conv_lhs => rw [hsplit]
            exact copied_add_of_mem _ hnul
          rw [decide_eq_true hnul, if_pos rfl, hall, decide_eq_true hnul]
          exact ⟨rfl, rfl⟩
        · have hall : copied (m.user pt) srcva max =
              copied (m.user pt) srcva (pagePart srcva max) ++
                copied (m.user pt) (srcva + pagePart srcva max) (max - pagePart srcva max) := by
            conv_lhs => rw [hsplit]
            exact copied_add_of_not_mem _ (fun j hj => user_page_ne_none hpa hfit hj) hnul
          have hmax : srcva < MAXVA := lt_maxva_of_user (by rwa [Ne, user_eq_none])
          rw [decide_eq_false hnul, if_neg (by decide)]
          refine wp_seq (ih (by omega)) fun r m1 hr => ?_
          obtain ⟨rfl, rfl⟩ := hr
          -- the next round starts after this page, if there is one
          have hnext : copied (m1.user pt) ((pgrounddown srcva + PGSIZE) % 2 ^ 64)
              (max - pagePart srcva max) =
              copied (m1.user pt) (srcva + pagePart srcva max) (max - pagePart srcva max) := by
            by_cases hmore : pagePart srcva max < max
            · rw [next_page hmax hmore]
            · rw [show max - pagePart srcva max = 0 by omega, copied, copied]
          refine ⟨?_, rfl⟩
          rw [hnext, hall]
          simp only [mem_append, hnul, false_or]
    · obtain rfl : max = 0 := by omega
      exact ⟨rfl, rfl⟩

/-- `copyinstr` copies a string as user mode sees it. -/
theorem copyinstr_eq (m : Mem) (pt srcva max : Nat) :
    copyinstr pt srcva max m =
      .ok ((copied (m.user pt) srcva max, decide (0 ∈ copied (m.user pt) srcva max)), m) :=
  copyinstrLoop_eq (Nat.le_refl _)

/-- What `copyinstr` does. -/
structure CopyinstrExact (m : Mem) (pt srcva max : Nat) (bs : List UInt8) (ok : Bool) :
    Prop where
  zero_iff : ok = true ↔ ∃ i < max, m.user pt (srcva + i) = some 0 ∧
    ∀ j ≤ i, m.Accessible pt ((srcva + j) / PGSIZE)
  /-- The string with its NUL. -/
  string : ok = true → ∃ s, bs = s ++ [0] ∧ 0 ∉ s
  bytes : ∀ j < bs.length, m.user pt (srcva + j) = some (bs.getD j 0)
  room : bs.length ≤ max
  /-- Only bytes of user pages are read. -/
  reads : ∀ m1 : Mem, m1.user pt = m.user pt → copyinstr pt srcva max m1 = .ok ((bs, ok), m1)

theorem UserTable.copyinstr (h : UserTable m pt) (srcva max : Nat) :
    CopyinstrExact m pt srcva max (copied (m.user pt) srcva max)
      (decide (0 ∈ copied (m.user pt) srcva max)) := by
  refine ⟨?_, ?_, fun j hj => getD_copied hj, copied_length_le _ _ _, ?_⟩
  · rw [decide_eq_true_iff, zero_mem_copied]
    simp only [h.user_ne_none_iff]
  · intro hok
    have hnul := of_decide_eq_true hok
    refine ⟨_, copied_eq_of_mem hnul, fun hin => ?_⟩
    have hne := mem_takeWhile_imp hin
    simp at hne
  · intro m1 hsame
    rw [copyinstr_eq, hsame]

/-! ## All copies -/

/-- For every page table whose user leaves are distinct pages, every address and
every length, the three functions return and do what is said above. -/
theorem user_copies_exact (h : UserTable m pt) :
    (∀ dstva src, ∃ r m', copyout pt dstva src m = .ok (r, m') ∧
      CopyoutExact m m' pt dstva src r) ∧
    (∀ srcva len, ∃ bs ok, copyin pt srcva len m = .ok ((bs, ok), m) ∧
      CopyinExact m pt srcva len bs ok) ∧
    ∀ srcva max, ∃ bs ok, copyinstr pt srcva max m = .ok ((bs, ok), m) ∧
      CopyinstrExact m pt srcva max bs ok := by
  refine ⟨fun dstva src => ?_, h.copyin, fun srcva max => ?_⟩
  · have hspec : wp (copyout pt dstva src) m _ _ := h.copyout
    obtain ⟨r, m', hrun, k, hc⟩ := wp_returns hspec
    exact ⟨r, m', hrun, hc.exact h⟩
  · exact ⟨_, _, copyinstr_eq m pt srcva max, h.copyinstr srcva max⟩

/-- An address space with one page. -/
theorem user_copies_exact_onePage : ∃ m pt new,
    onePage (freshMem 8) = .ok ((pt, new), m) ∧
      (∀ dstva src, ∃ r m', copyout pt dstva src m = .ok (r, m') ∧
        CopyoutExact m m' pt dstva src r) ∧
      (∀ srcva len, ∃ bs ok, copyin pt srcva len m = .ok ((bs, ok), m) ∧
        CopyinExact m pt srcva len bs ok) ∧
      ∀ srcva max, ∃ bs ok, copyinstr pt srcva max m = .ok ((bs, ok), m) ∧
        CopyinstrExact m pt srcva max bs ok := by
  obtain ⟨⟨pt, new⟩, m, hrun, hspace, -, -⟩ :=
    wp_returns (onePage_spec (freshMem_free (by decide)) (by decide : 5 ≤ (freshMem 8).free.length))
  exact ⟨m, pt, new, hrun, user_copies_exact (hspace.userTable nofun)⟩

end SummerOsk.Vm
