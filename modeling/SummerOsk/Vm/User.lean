import SummerOsk.Vm.Copy

/-!
# The memory that a user program sees

`Mem.user` is the byte at a user address, if the page table lets user mode get
at it.  `copyout` changes the bytes of a range up to the first address that is
not there, and `copyin` reads them.
-/

namespace SummerOsk.Vm

open Lib List Mem

variable {m m' m'' m1 : Mem} {pt n va fuel srcva dstva k w len : Nat} {top : Nat → Option Nat}
  {src bs : List UInt8} {r : Int}

/-- The byte at a user address. -/
def Mem.user (m : Mem) (pt va : Nat) : Option UInt8 :=
  if m.userPa pt va = 0 then none else some (m.page (m.userPa pt va) (va % PGSIZE))

theorem Mem.user_eq_none : m.user pt va = none ↔ m.userPa pt va = 0 := by
  unfold user
  split_ifs with h
  · exact iff_of_true rfl h
  · exact iff_of_false (by simp) h

theorem Mem.user_of_ne_zero (h : m.userPa pt va ≠ 0) :
    m.user pt va = some (m.page (m.userPa pt va) (va % PGSIZE)) := if_neg h

theorem Mem.lt_maxva_of_user (h : m.user pt va ≠ none) : va < MAXVA := by
  by_contra hge
  apply h
  rw [user_eq_none, userPa, if_pos (by omega)]

/-- `walkaddr` looks at the page of an address. -/
theorem Mem.userPa_congr (h : w / PGSIZE = va / PGSIZE) : m.userPa pt w = m.userPa pt va := by
  have hmax : w ≥ MAXVA ↔ va ≥ MAXVA := by
    unfold PGSIZE at h
    unfold MAXVA
    omega
  unfold userPa
  rw [h]
  simp only [hmax]

theorem Mem.userPa_pgrounddown (m : Mem) (pt va : Nat) :
    m.userPa pt (pgrounddown va) = m.userPa pt va := by
  apply userPa_congr
  exact Nat.mul_div_cancel _ (by decide)

theorem Mem.userPa_of_entry (h : m'.entry pt = m.entry pt) : m'.userPa pt = m.userPa pt := by
  funext w
  unfold userPa
  rw [h]

theorem Mem.user_of_entry (h : m'.entry pt = m.entry pt)
    (hpage : m'.page (m.userPa pt va) = m.page (m.userPa pt va)) :
    m'.user pt va = m.user pt va := by
  unfold user
  rw [userPa_of_entry h, hpage]

/-- User mode can get at the bytes of a user page. -/
theorem Space.user_ne_none (h : Space m pt n top) (hv : va / PGSIZE < n)
    (huser : m.UserPage pt (va / PGSIZE)) : m.user pt va ≠ none := by
  obtain ⟨e, he, hu⟩ := huser
  obtain ⟨e', he', -, hok⟩ := h.user _ hv
  rw [he, Option.some.injEq] at he'
  subst he'
  have hmax : va < MAXVA := by
    have := h.lt_maxva
    unfold MAXVA PGSIZE at *
    omega
  have hpos : pte2pa e ≠ 0 := by
    have hbase := h.wf.free.base
    have hge := hok.2.1
    unfold KERNBASE at hbase
    omega
  rw [Ne, user_eq_none, userPa, if_neg (by omega), he]
  dsimp only
  rw [if_neg hu]
  exact hpos

/-! ## Writing a user page -/

/-- The map does not change when a user page is written. -/
theorem Space.entry_write_user {v e : Nat} (h : Space m pt n top) (hv : v < n)
    (he : m.entry pt v = some e) (x : Bytes) : (m.setPage (pte2pa e) x).entry pt = m.entry pt := by
  apply entry_frame
  intro p hp
  exact m.page_setPage_of_ne _ fun hpe => (h.other _ e hv he).1 (by rw [← hpe]; exact hp)

/-- A well-formed page table, of which no two user leaves are the same physical
page.  A user leaf is a page of the memory and none of the tables. -/
structure UserTable (m : Mem) (pt : Nat) : Prop where
  wf : WellFormed m pt
  once : ∀ v w e e', m.entry pt v = some e → m.entry pt w = some e' → e &&& PTE_U ≠ 0 →
    e' &&& PTE_U ≠ 0 → pte2pa e = pte2pa e' → v = w
  apart : ∀ v e, m.entry pt v = some e → e &&& PTE_U ≠ 0 → ¬ m.IsTable pt (pte2pa e)
  ram : ∀ v e, m.entry pt v = some e → e &&& PTE_U ≠ 0 → pte2pa e ≠ 0

theorem Space.userTable (h : Space m pt n top) (htop : Guarded top) : UserTable m pt := by
  have hlow : ∀ v e, m.entry pt v = some e → e &&& PTE_U ≠ 0 → v < n := by
    intro v e he hu
    by_contra hge
    rw [h.rest _ (by omega)] at he
    exact hu (htop _ e he)
  refine ⟨h.wf, ?_, ?_, ?_⟩
  · intro v w e e' he he' hu hu'
    exact h.once v w e e' (hlow v e he hu) (hlow w e' he' hu') he he'
  · intro v e he hu
    exact (h.other v e (hlow v e he hu) he).1
  · intro v e he hu
    obtain ⟨e', he', -, hok⟩ := h.user v (hlow v e he hu)
    rw [he, Option.some.injEq] at he'
    subst he'
    have hbase := h.wf.free.base
    have hge := hok.2.1
    unfold KERNBASE at hbase
    omega

theorem UserTable.not_table (h : UserTable m pt) (hpa : m.userPa pt va ≠ 0) :
    ¬ m.IsTable pt (m.userPa pt va) := by
  obtain ⟨-, e, he, hu, heq⟩ := entry_of_userPa hpa
  rw [heq]
  exact h.apart _ e he hu

/-- Two virtual pages that user mode can get at are different physical pages. -/
theorem UserTable.userPa_ne (h : UserTable m pt) (hva : m.userPa pt va ≠ 0) (hw : m.userPa pt w ≠ 0)
    (hne : w / PGSIZE ≠ va / PGSIZE) : m.userPa pt w ≠ m.userPa pt va := by
  obtain ⟨-, e, he, hu, heq⟩ := entry_of_userPa hva
  obtain ⟨-, f, hf, hu', hfeq⟩ := entry_of_userPa hw
  rw [heq, hfeq]
  intro hpage
  exact hne (h.once _ _ f e hf he hu' hu hpage)

/-- A page table stays as it is while its tables do. -/
theorem UserTable.frame (h : UserTable m pt) (hpage : ∀ p, m.IsTable pt p → m'.page p = m.page p)
    (hfree : m'.free = m.free) (hkend : m'.kend = m.kend) : UserTable m' pt := by
  have hent := entry_frame hpage
  have hlist : m'.FreeList := by
    refine ⟨?_, ?_, ?_⟩
    · rw [hfree]
      exact h.wf.free.nodup
    · rw [hfree, hkend]
      exact h.wf.free.range
    · rw [hkend]
      exact h.wf.free.base
  refine ⟨wellFormed_frame hpage h.wf hlist ?_, ?_, ?_, ?_⟩
  · intro p hp hin
    rw [hfree] at hin
    exact h.wf.used p hin hp
  · rw [hent]
    exact h.once
  · rw [hent, isTable_frame hpage]
    exact h.apart
  · rw [hent]
    exact h.ram

/-- From `m` to `m'` the bytes `bs` were written at the user addresses from `va`
on, and user mode sees no other difference. -/
structure Mem.Written (m m' : Mem) (pt va : Nat) (bs : List UInt8) : Prop where
  entry : m'.entry pt = m.entry pt
  inside : ∀ j < bs.length, m'.user pt (va + j) = some (bs.getD j 0)
  outside : ∀ w, w < va ∨ va + bs.length ≤ w → m'.user pt w = m.user pt w

/-- User mode finds the bytes `bs` at `va`. -/
def Mem.Holds (m : Mem) (pt va : Nat) (bs : List UInt8) : Prop :=
  ∀ j < bs.length, m.user pt (va + j) = some (bs.getD j 0)

theorem Mem.Written.nil : m.Written m pt va [] :=
  ⟨rfl, fun _ hj => absurd hj (Nat.not_lt_zero _), fun _ _ => rfl⟩

theorem Mem.Written.move (h : m.Written m' pt va []) : m.Written m' pt w [] :=
  ⟨h.entry, fun _ hj => absurd hj (Nat.not_lt_zero _), fun x _ => h.outside x (by
    rw [length_nil]
    omega)⟩

theorem Mem.Written.user_ne_none {j : Nat} (h : m.Written m' pt va bs)
    (hj : j < bs.length) : m.user pt (va + j) ≠ none := by
  have hin := h.inside j hj
  rw [Ne, user_eq_none, ← userPa_of_entry h.entry, ← user_eq_none, hin]
  simp

theorem Mem.Written.user_eq_none (h : m.Written m' pt va bs) :
    m'.user pt w = none ↔ m.user pt w = none := by
  rw [Mem.user_eq_none, Mem.user_eq_none, userPa_of_entry h.entry]

theorem Mem.Written.append {cs : List UInt8} (h : m.Written m' pt va bs)
    (h' : m'.Written m'' pt (va + bs.length) cs) : m.Written m'' pt va (bs ++ cs) := by
  refine ⟨h'.entry.trans h.entry, fun j hj => ?_, fun w hw => ?_⟩
  · rw [length_append] at hj
    by_cases hlt : j < bs.length
    · rw [h'.outside _ (by omega), h.inside j hlt, getD_append _ _ _ _ hlt]
    · have hin := h'.inside (j - bs.length) (by omega)
      rw [show va + bs.length + (j - bs.length) = va + j by omega] at hin
      rw [hin, getD_append_right _ _ _ _ (by omega)]
  · rw [length_append] at hw
    rw [h'.outside w (by omega), h.outside w (by omega)]

/-- From `m` to `m'` nothing but the bytes of the `k` user addresses from `va` on
has changed in the whole memory. -/
structure Mem.Confined (m m' : Mem) (pt va k : Nat) : Prop where
  free : m'.free = m.free
  kend : m'.kend = m.kend
  byte : ∀ p b, m'.page p b ≠ m.page p b →
    ∃ j < k, m.userPa pt (va + j) = p ∧ p ≠ 0 ∧ (va + j) % PGSIZE = b

theorem Mem.Confined.refl (m : Mem) (pt va k : Nat) : m.Confined m pt va k :=
  ⟨rfl, rfl, fun _ _ hne => absurd rfl hne⟩

theorem Mem.Confined.page {p : Nat} (h : m.Confined m' pt va k)
    (hp : ∀ w, m.userPa pt w ≠ 0 → m.userPa pt w ≠ p) : m'.page p = m.page p := by
  funext b
  by_contra hne
  obtain ⟨j, -, hj, hp0, -⟩ := h.byte p b hne
  exact hp (va + j) (by rwa [hj]) hj

theorem UserTable.confined (h : UserTable m pt) (hc : m.Confined m' pt va k) :
    (∀ p, m.IsTable pt p → m'.page p = m.page p) ∧ UserTable m' pt := by
  have hpage : ∀ p, m.IsTable pt p → m'.page p = m.page p := by
    intro p hp
    apply hc.page
    intro w hw hwp
    exact h.not_table hw (hwp ▸ hp)
  exact ⟨hpage, h.frame hpage hc.free hc.kend⟩

theorem Mem.Confined.append {l : Nat} (h : m.Confined m' pt va k)
    (hentry : m'.entry pt = m.entry pt) (h' : m'.Confined m'' pt (va + k) l) :
    m.Confined m'' pt va (k + l) := by
  refine ⟨h'.free.trans h.free, h'.kend.trans h.kend, ?_⟩
  intro p b hne
  by_cases hfirst : m'.page p b = m.page p b
  · rw [← hfirst] at hne
    obtain ⟨j, hj, hpa, hp0, hb⟩ := h'.byte p b hne
    rw [userPa_of_entry hentry, Nat.add_assoc] at hpa
    rw [Nat.add_assoc] at hb
    exact ⟨k + j, by omega, hpa, hp0, hb⟩
  · obtain ⟨j, hj, hrest⟩ := h.byte p b hfirst
    exact ⟨j, by omega, hrest⟩

/-- A write within one user page. -/
theorem UserTable.written (h : UserTable m pt) (hpa : m.userPa pt va ≠ 0)
    (hfit : va % PGSIZE + bs.length ≤ PGSIZE) :
    m.Written (m.setPage (m.userPa pt va)
      (putBytes (m.page (m.userPa pt va)) (va % PGSIZE) bs)) pt va bs := by
  have hentry : (m.setPage (m.userPa pt va)
      (putBytes (m.page (m.userPa pt va)) (va % PGSIZE) bs)).entry pt = m.entry pt := by
    apply entry_frame
    intro p hp
    exact m.page_setPage_of_ne _ fun hpe => h.not_table hpa (hpe ▸ hp)
  -- the page of `va` reads as `putBytes` left it
  have hpage : ∀ w, w / PGSIZE = va / PGSIZE →
      (m.setPage (m.userPa pt va)
        (putBytes (m.page (m.userPa pt va)) (va % PGSIZE) bs)).user pt w =
      some (putBytes (m.page (m.userPa pt va)) (va % PGSIZE) bs (w % PGSIZE)) := by
    intro w hw
    have hpw : m.userPa pt w = m.userPa pt va := userPa_congr hw
    rw [user_of_ne_zero (by rw [userPa_of_entry hentry, hpw]; exact hpa),
      userPa_of_entry hentry, hpw, page_setPage_self]
  refine ⟨hentry, fun j hj => ?_, fun w hw => ?_⟩
  · have hdiv : (va + j) / PGSIZE = va / PGSIZE := by
      unfold PGSIZE at *
      omega
    have hmod : (va + j) % PGSIZE = va % PGSIZE + j := by
      unfold PGSIZE at *
      omega
    rw [hpage _ hdiv, hmod, putBytes_of_mem _ _ (by omega) (by omega), Nat.add_sub_cancel_left]
  · by_cases hdiv : w / PGSIZE = va / PGSIZE
    · have hpw : m.userPa pt w = m.userPa pt va := userPa_congr hdiv
      have hout : w % PGSIZE < va % PGSIZE ∨ va % PGSIZE + bs.length ≤ w % PGSIZE := by
        unfold PGSIZE at *
        omega
      rw [hpage w hdiv, putBytes_of_not_mem _ _ hout, user_of_ne_zero (by rw [hpw]; exact hpa),
        hpw]
    · by_cases hw0 : m.userPa pt w = 0
      · rw [user_eq_none.mpr hw0, user_eq_none, userPa_of_entry hentry, hw0]
      · exact user_of_entry hentry
          (m.page_setPage_of_ne _ (h.userPa_ne hpa hw0 hdiv))

theorem Mem.confined_putBytes (hpa : m.userPa pt va ≠ 0) (hfit : va % PGSIZE + bs.length ≤ PGSIZE) :
    m.Confined (m.setPage (m.userPa pt va)
      (putBytes (m.page (m.userPa pt va)) (va % PGSIZE) bs)) pt va bs.length := by
  refine ⟨rfl, rfl, ?_⟩
  intro p b hne
  by_cases hp : p = m.userPa pt va
  · subst hp
    rw [page_setPage_self] at hne
    by_cases hb : va % PGSIZE ≤ b ∧ b < va % PGSIZE + bs.length
    · have hdiv : (va + (b - va % PGSIZE)) / PGSIZE = va / PGSIZE := by
        unfold PGSIZE at *
        omega
      have hmod : (va + (b - va % PGSIZE)) % PGSIZE = b := by
        unfold PGSIZE at *
        omega
      exact ⟨b - va % PGSIZE, by omega, userPa_congr hdiv, hpa, hmod⟩
    · exact absurd (putBytes_of_not_mem _ bs (by omega)) hne
  · rw [m.page_setPage_of_ne _ hp] at hne
    exact absurd rfl hne

/-! ## `copyout` and `copyin` -/

theorem pagePart_le (va len : Nat) : pagePart va len ≤ len := Nat.min_le_right _ _

theorem pagePart_fits (va len : Nat) : va % PGSIZE + pagePart va len ≤ PGSIZE := by
  have hlt : va % PGSIZE < PGSIZE := Nat.mod_lt _ (by decide)
  have hle : pagePart va len ≤ PGSIZE - va % PGSIZE := Nat.min_le_left _ _
  omega

theorem pagePart_pos (h : 0 < len) : 0 < pagePart va len := by
  have hlt : va % PGSIZE < PGSIZE := Nat.mod_lt _ (by decide)
  unfold pagePart
  omega

/-- When bytes are left, the next round starts where this one stopped. -/
theorem next_page (hva : va < MAXVA) (h : pagePart va len < len) :
    (pgrounddown va + PGSIZE) % 2 ^ 64 = va + pagePart va len := by
  unfold pagePart pgrounddown MAXVA PGSIZE at *
  omega

/-- What a copy of `src` to `dstva` leaves behind: the first `k` bytes are written
and nothing else is, and `k` is where the range ends or cannot be reached. -/
structure CopiedOut (m m' : Mem) (pt dstva : Nat) (src : List UInt8) (r : Int) (k : Nat) :
    Prop where
  le : k ≤ src.length
  written : m.Written m' pt dstva (src.take k)
  confined : m.Confined m' pt dstva k
  result : r = 0 ∧ k = src.length ∨ r = -1 ∧ k < src.length ∧ m.user pt (dstva + k) = none

theorem CopiedOut.nil (m : Mem) (pt dstva : Nat) : CopiedOut m m pt dstva [] 0 0 :=
  ⟨Nat.le_refl 0, Written.nil, Confined.refl _ _ _ _, .inl ⟨rfl, rfl⟩⟩

theorem CopiedOut.stop (hpos : 0 < src.length)
    (hpa : m.userPa pt dstva = 0) : CopiedOut m m pt dstva src (-1) 0 := by
  refine ⟨Nat.zero_le _, ?_, Confined.refl _ _ _ _, .inr ⟨rfl, hpos, ?_⟩⟩
  · exact Written.nil
  · rw [Nat.add_zero, user_eq_none, hpa]

/-- The bytes of one page and what the rounds after it copy. -/
theorem CopiedOut.cons {n : Nat} (hmax : dstva < MAXVA) (hn : n = pagePart dstva src.length)
    (hw : m.Written m1 pt dstva (src.take n)) (hc : m.Confined m1 pt dstva n)
    (h : CopiedOut m1 m' pt ((pgrounddown dstva + PGSIZE) % 2 ^ 64) (src.drop n) r k) :
    CopiedOut m m' pt dstva src r (n + k) := by
  have hle := pagePart_le dstva src.length
  have hlen : (src.take n).length = n := by
    rw [length_take]
    omega
  obtain ⟨hk, hw', hc', hres⟩ := h
  rw [length_drop] at hk hres
  by_cases hall : n < src.length
  · rw [next_page hmax (hn ▸ hall), ← hn] at hw' hc' hres
    refine ⟨by omega, ?_, hc.append hw.entry hc', ?_⟩
    · rw [take_add]
      apply hw.append
      rw [hlen]
      exact hw'
    · rcases hres with ⟨hr, hk'⟩ | ⟨hr, hk', hnone⟩
      · exact .inl ⟨hr, by omega⟩
      · rw [Nat.add_assoc, hw.user_eq_none] at hnone
        exact .inr ⟨hr, by omega, hnone⟩
  · -- nothing is left, so the next address does not matter
    obtain rfl : k = 0 := by omega
    have hzero : m1.Confined m' pt (dstva + n) 0 := by
      refine ⟨hc'.free, hc'.kend, ?_⟩
      intro p b hne
      obtain ⟨j, hj, -⟩ := hc'.byte p b hne
      omega
    refine ⟨by omega, ?_, hc.append hw.entry hzero, ?_⟩
    · rw [take_add]
      apply hw.append
      exact hw'.move
    · rcases hres with ⟨hr, hk'⟩ | ⟨hr, hk', hnone⟩
      · exact .inl ⟨hr, by omega⟩
      · omega

/-- Two copies of the same bytes to the same place end in the same memory. -/
theorem CopiedOut.unique {m2 : Mem} {k' : Nat} {src' : List UInt8} {r' : Int}
    (h : CopiedOut m m1 pt dstva src r k) (h' : CopiedOut m m2 pt dstva src' r' k')
    (hlen : src.length = src'.length) (hsrc : ∀ j < k, src.getD j 0 = src'.getD j 0) : m1 = m2 := by
  have htake : (src.take k).length = k := by
    have := h.le
    rw [length_take]
    omega
  have htake' : (src'.take k').length = k' := by
    have := h'.le
    rw [length_take]
    omega
  have hk : k = k' := by
    by_contra hne
    rcases Nat.lt_or_gt_of_ne hne with hlt | hlt
    · rcases h.result with ⟨-, hend⟩ | ⟨-, -, hnone⟩
      · have := h'.le
        omega
      · exact h'.written.user_ne_none (by omega) hnone
    · rcases h'.result with ⟨-, hend⟩ | ⟨-, -, hnone⟩
      · have := h.le
        omega
      · exact h.written.user_ne_none (by omega) hnone
  subst hk
  -- a byte of the range is the same in both, and a byte outside is as before
  have hbyte : ∀ j < k, m1.page (m.userPa pt (dstva + j)) ((dstva + j) % PGSIZE) =
      m2.page (m.userPa pt (dstva + j)) ((dstva + j) % PGSIZE) := by
    intro j hj
    have hin := h.written.inside j (by omega)
    have hin' := h'.written.inside j (by omega)
    have hpa : m.userPa pt (dstva + j) ≠ 0 := by
      have := h.written.user_ne_none (show j < (src.take k).length by omega)
      rwa [Ne, user_eq_none] at this
    rw [user_of_ne_zero (by rwa [userPa_of_entry h.written.entry]),
      userPa_of_entry h.written.entry, Option.some.injEq] at hin
    rw [user_of_ne_zero (by rwa [userPa_of_entry h'.written.entry]),
      userPa_of_entry h'.written.entry, Option.some.injEq] at hin'
    have hget : ∀ l : List UInt8, (l.take k).getD j 0 = l.getD j 0 := by
      intro l
      rw [getD_eq_getElem?_getD, getElem?_take_of_lt hj, ← getD_eq_getElem?_getD]
    rw [hin, hin', hget, hget, hsrc j hj]
  have hpage : m1.page = m2.page := by
    funext p b
    by_cases hp : m1.page p b = m.page p b
    · by_cases hp' : m2.page p b = m.page p b
      · rw [hp, hp']
      · obtain ⟨j, hj, rfl, -, rfl⟩ := h'.confined.byte p b hp'
        exact hbyte j hj
    · obtain ⟨j, hj, rfl, -, rfl⟩ := h.confined.byte p b hp
      exact hbyte j hj
  have hfree : m1.free = m2.free := h.confined.free.trans h'.confined.free.symm
  have hkend : m1.kend = m2.kend := h.confined.kend.trans h'.confined.kend.symm
  cases m1
  cases m2
  subst hpage hfree hkend
  rfl

theorem UserTable.copyoutLoop (h : UserTable m pt) (hfuel : src.length ≤ fuel) :
    wp (copyoutLoop pt fuel dstva src) m (fun r m' => ∃ k, CopiedOut m m' pt dstva src r k)
      fun _ => False := by
  induction fuel generalizing m dstva src with
  | zero =>
    have hnil : src = [] := length_eq_zero_iff.mp (Nat.le_zero.mp hfuel)
    subst hnil
    exact ⟨0, CopiedOut.nil m pt dstva⟩
  | succ fuel ih =>
    refine wp_ite (fun hpos => ?_) fun hnil => ?_
    · rw [wp_bind, wp_walkaddr, userPa_pgrounddown]
      refine wp_ite (fun hpa => ⟨0, CopiedOut.stop hpos hpa⟩) fun hpa => ?_
      have hle := pagePart_le dstva src.length
      have hp0 : 0 < pagePart dstva src.length := pagePart_pos hpos
      have hlen : (src.take (pagePart dstva src.length)).length = pagePart dstva src.length := by
        rw [length_take]
        omega
      have hfit : dstva % PGSIZE + (src.take (pagePart dstva src.length)).length ≤ PGSIZE := by
        rw [hlen]
        exact pagePart_fits _ _
      have hw := h.written hpa hfit
      have hc := confined_putBytes hpa hfit
      rw [hlen] at hc
      have hmax : dstva < MAXVA := lt_maxva_of_user (by rwa [Ne, user_eq_none])
      refine wp_mono (ih (h.confined hc).2 (by rw [length_drop]; omega)) fun r m' hr => ?_
      obtain ⟨k, hk⟩ := hr
      exact ⟨_, CopiedOut.cons hmax rfl hw hc hk⟩
    · have hnil : src = [] := length_eq_zero_iff.mp (by omega)
      subst hnil
      exact ⟨0, CopiedOut.nil m pt dstva⟩

/-- `copyout` writes the bytes up to the first address that user mode cannot get
at. -/
theorem UserTable.copyout (h : UserTable m pt) :
    wp (copyout pt dstva src) m (fun r m' => ∃ k, CopiedOut m m' pt dstva src r k)
      fun _ => False :=
  h.copyoutLoop (Nat.le_refl _)

/-- A change of user bytes is nothing to the address space. -/
theorem Space.confined (h : Space m pt n top) (htop : Guarded top) (hc : m.Confined m' pt va k) :
    Space m' pt n top ∧ Conserves m m' (m.holds pt n) (m'.holds pt n) := by
  have hpage := ((h.userTable htop).confined hc).1
  have hlist := ((h.userTable htop).confined hc).2.wf.free
  have hspace : Space m' pt n top := by
    apply h.frame hpage hlist hc.kend
    intro p hp
    rw [hc.free]
    exact h.not_free hp
  refine ⟨hspace, hlist, hc.kend, ?_, fun p hp => hspace.not_free hp, ?_⟩
  · intro p
    rw [holds_frame hpage, hc.free]
  · intro p _ hp
    apply hc.page
    intro w hw hwp
    obtain ⟨e, hv, he, heq⟩ := h.userPa_mem htop hw
    exact hp (hwp ▸ heq ▸ holds_of_entry hv he)

theorem copyout_spec (h : Space m pt n top) (htop : Guarded top) :
    wp (copyout pt dstva src) m
      (fun r m' => Space m' pt n top ∧ Conserves m m' (m.holds pt n) (m'.holds pt n) ∧
        m'.free = m.free ∧ ∃ k ≤ src.length, m.Written m' pt dstva (src.take k) ∧
          (r = 0 ∧ k = src.length ∨
            r = -1 ∧ k < src.length ∧ m.user pt (dstva + k) = none))
      fun _ => False := by
  refine wp_mono (h.userTable htop).copyout fun r m' hr => ?_
  obtain ⟨k, hk⟩ := hr
  obtain ⟨hsp, hcons⟩ := h.confined htop hk.confined
  exact ⟨hsp, hcons, hk.confined.free, k, hk.le, hk.written, hk.result⟩

/-- A range that user mode can get at is written to its end. -/
theorem Mem.Written.all (hw : m.Written m' pt dstva (src.take k))
    (hres : r = 0 ∧ k = src.length ∨ r = -1 ∧ k < src.length ∧ m.user pt (dstva + k) = none)
    (huser : ∀ w, dstva ≤ w → w < dstva + src.length → m.user pt w ≠ none) :
    r = 0 ∧ m.Written m' pt dstva src := by
  rcases hres with ⟨hr, rfl⟩ | ⟨-, hk, hnone⟩
  · rw [take_length] at hw
    exact ⟨hr, hw⟩
  · exact absurd hnone (huser _ (by omega) (by omega))

/-- `copyout` writes to user pages only. -/
theorem Space.copyout (h : Space m pt n top) (htop : Guarded top) :
    wp (copyout pt dstva src) m
      (fun r m' => (r = 0 ∨ r = -1) ∧ Space m' pt n top ∧
        Conserves m m' (m.holds pt n) (m'.holds pt n) ∧ m'.free = m.free)
      fun _ => False := by
  refine wp_mono (copyout_spec h htop) fun r m' hr => ?_
  obtain ⟨hsp, hcons, hfree, k, -, -, hres⟩ := hr
  exact ⟨hres.imp And.left And.left, hsp, hcons, hfree⟩

theorem copyinLoop_spec (hfuel : len ≤ fuel) :
    wp (copyinLoop pt fuel srcva len) m
      (fun r m' => m' = m ∧ r.1.length ≤ len ∧
        (∀ j < r.1.length, m.user pt (srcva + j) = some (r.1.getD j 0)) ∧
        (r.2 = true ∧ r.1.length = len ∨
          r.2 = false ∧ r.1.length < len ∧ m.user pt (srcva + r.1.length) = none))
      fun _ => False := by
  have hdone : ∀ x : Nat, x < ([] : List UInt8).length →
      m.user pt (srcva + x) = some (([] : List UInt8).getD x 0) := fun _ hx =>
    absurd hx (Nat.not_lt_zero _)
  induction fuel generalizing srcva len with
  | zero =>
    obtain rfl : len = 0 := by omega
    exact ⟨rfl, Nat.le_refl 0, hdone, .inl ⟨rfl, rfl⟩⟩
  | succ fuel ih =>
    refine wp_ite (fun hpos => ?_) fun hnil => ?_
    · rw [wp_bind, wp_walkaddr, userPa_pgrounddown]
      refine wp_ite (fun hpa => ?_) fun hpa => ?_
      · refine ⟨rfl, Nat.zero_le _, hdone, .inr ⟨rfl, hpos, ?_⟩⟩
        rw [length_nil, Nat.add_zero, user_eq_none, hpa]
      · have hle := pagePart_le srcva len
        have hp0 : 0 < pagePart srcva len := pagePart_pos hpos
        have hfit := pagePart_fits srcva len
        have hmax : srcva < MAXVA := lt_maxva_of_user (by rwa [Ne, user_eq_none])
        rw [wp_bind, wp_get]
        refine wp_seq (ih (by omega) fun _ hx => absurd hx (Nat.not_lt_zero _)) fun r m' hr => ?_
        obtain ⟨rfl, hlen, hin, hres⟩ := hr
        -- the bytes of this round are those of one page
        have hround : ∀ j < pagePart srcva len, m'.user pt (srcva + j) =
            some (m'.page (m'.userPa pt srcva) (srcva % PGSIZE + j)) := by
          intro j hj
          have hdiv : (srcva + j) / PGSIZE = srcva / PGSIZE := by
            unfold PGSIZE at *
            omega
          have hmod : (srcva + j) % PGSIZE = srcva % PGSIZE + j := by
            unfold PGSIZE at *
            omega
          have hpj : m'.userPa pt (srcva + j) = m'.userPa pt srcva := userPa_congr hdiv
          rw [user_of_ne_zero (by rwa [hpj]), hpj, hmod]
        refine ⟨rfl, ?_, ?_, ?_⟩
        · rw [length_append, getBytes_length]
          omega
        · intro j hj
          rw [length_append, getBytes_length] at hj
          by_cases hlt : j < pagePart srcva len
          · rw [hround j hlt, getD_append _ _ _ _ (by rwa [getBytes_length]),
              getBytes_getD hlt]
          · have hrest := hin (j - pagePart srcva len) (by omega)
            rw [next_page hmax (show pagePart srcva len < len by omega),
              show srcva + pagePart srcva len + (j - pagePart srcva len) = srcva + j by omega]
              at hrest
            rw [hrest, getD_append_right _ _ _ _ (by rw [getBytes_length]; omega),
              getBytes_length]
        · rw [length_append, getBytes_length]
          rcases hres with ⟨hr, hk⟩ | ⟨hr, hk, hnone⟩
          · exact .inl ⟨hr, by omega⟩
          · rw [next_page hmax (show pagePart srcva len < len by omega), Nat.add_assoc] at hnone
            exact .inr ⟨hr, by omega, hnone⟩
    · obtain rfl : len = 0 := by omega
      exact ⟨rfl, Nat.le_refl 0, hdone, .inl ⟨rfl, rfl⟩⟩

/-- `copyin` reads the bytes up to the first address that user mode cannot get
at. -/
theorem copyin_spec :
    wp (copyin pt srcva len) m
      (fun r m' => m' = m ∧ r.1.length ≤ len ∧
        (∀ j < r.1.length, m.user pt (srcva + j) = some (r.1.getD j 0)) ∧
        (r.2 = true ∧ r.1.length = len ∨
          r.2 = false ∧ r.1.length < len ∧ m.user pt (srcva + r.1.length) = none))
      fun _ => False :=
  copyinLoop_spec (Nat.le_refl _)

end SummerOsk.Vm
