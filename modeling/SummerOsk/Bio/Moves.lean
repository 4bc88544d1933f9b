import SummerOsk.Bio.Defs

/-!
# What an action of the block layer can do

`Move` lists the effects of the actions with their conditions, and
`move_of_step` says that there are no others.  A panic ends the run, so all
panics are one case.
-/

namespace SummerOsk.Bio

open Log Function BState

variable {ι κ : Type}

/-! ## Reading an updated state -/

namespace BState

variable (s : BState ι κ) (i : κ) (x : Buf ι) (p : ι) (y : Proc κ) (c : Call κ)

section

variable [DecidableEq ι]

theorem setProc_proc (q : ι) : (s.setProc p y).proc q = if q = p then y else s.proc q :=
  update_apply _ _ _ _

theorem setCall_proc (q : ι) :
    (s.setCall p c).proc q = if q = p then { s.proc p with call := c } else s.proc q :=
  update_apply _ _ _ _

@[simp] theorem setCall_mode (q : ι) : ((s.setCall p c).proc q).mode = (s.proc q).mode := by
  rw [setCall_proc]
  split_ifs with hq
  · rw [hq]
  · rfl

@[simp] theorem setProc_buf : (s.setProc p y).buf = s.buf := rfl

@[simp] theorem setCall_buf : (s.setCall p c).buf = s.buf := rfl

end

variable [DecidableEq κ]

theorem setBuf_buf (j : κ) : (s.setBuf i x).buf j = if j = i then x else s.buf j :=
  update_apply _ _ _ _

@[simp] theorem setBuf_proc : (s.setBuf i x).proc = s.proc := rfl

/-- `bread` changes the contents and the valid bit of its buffer only. -/
theorem fill_eq : s.fill i = s.setBuf i { s.buf i with
    data := if (s.buf i).valid then (s.buf i).data else s.disk (s.buf i).blockno
    valid := true } := by
  unfold fill
  split_ifs with h
  · rw [setBuf, ← h, update_eq_self]
  · rfl

/-- `brelse` drops one reference and may move the buffer to the front. -/
theorem dropRef_eq : ∃ l, (∀ j, j ∈ s.lru → j ∈ l) ∧ s.dropRef i =
    { s.setBuf i { s.buf i with refcnt := (s.buf i).refcnt - 1 } with lru := l } := by
  unfold dropRef
  split_ifs with h
  · refine ⟨_, fun j hj => ?_, rfl⟩
    by_cases hji : j = i
    · exact hji ▸ List.mem_cons_self
    · exact List.mem_cons_of_mem _ ((List.mem_erase_of_ne hji).mpr hj)
  · exact ⟨s.lru, fun _ h => h, rfl⟩

theorem logWriteLocked_absorb (h : (s.buf i).blockno ∈ s.lh) : s.logWriteLocked p i =
    { s.setBuf i { s.buf i with dirty := false } with
      trace := s.trace ++ [.logWrite p (s.buf i).blockno (s.buf i).data] } := by
  simp [logWriteLocked, h]

theorem logWriteLocked_new (h : (s.buf i).blockno ∉ s.lh) : s.logWriteLocked p i =
    { s.setBuf i { s.buf i with dirty := false, refcnt := (s.buf i).refcnt + 1 } with
      lh := s.lh ++ [(s.buf i).blockno]
      pinned := s.pinned ++ [(s.buf i).blockno]
      trace := s.trace ++ [.logWrite p (s.buf i).blockno (s.buf i).data] } := by
  simp [logWriteLocked, h]

/-- `log_write` changes the count and the dirty bit of its buffer only. -/
theorem logWriteLocked_eq : ∃ n l m, s.logWriteLocked p i =
    { s.setBuf i { s.buf i with dirty := false, refcnt := n } with
      lh := l
      pinned := m
      trace := s.trace ++ [.logWrite p (s.buf i).blockno (s.buf i).data] } := by
  by_cases hb : (s.buf i).blockno ∈ s.lh
  · exact ⟨_, _, _, logWriteLocked_absorb _ _ _ hb⟩
  · exact ⟨_, _, _, logWriteLocked_new _ _ _ hb⟩

@[simp] theorem fill_proc : (s.fill i).proc = s.proc := by
  rw [fill_eq]
  rfl

@[simp] theorem dropRef_proc : (s.dropRef i).proc = s.proc := by
  obtain ⟨l, -, heq⟩ := s.dropRef_eq i
  rw [heq]
  rfl

theorem fill_buf : (s.fill i).buf = update s.buf i { s.buf i with
    data := if (s.buf i).valid then (s.buf i).data else s.disk (s.buf i).blockno
    valid := true } := by
  rw [fill_eq]
  rfl

theorem dropRef_buf : (s.dropRef i).buf =
    update s.buf i { s.buf i with refcnt := (s.buf i).refcnt - 1 } := by
  obtain ⟨l, -, heq⟩ := s.dropRef_eq i
  rw [heq]
  rfl

theorem dropRef_frame : (s.dropRef i).trace = s.trace ∧ (s.dropRef i).disk = s.disk ∧
    (s.dropRef i).pinned = s.pinned ∧ (s.dropRef i).lh = s.lh := by
  obtain ⟨l, -, heq⟩ := s.dropRef_eq i
  rw [heq]
  exact ⟨rfl, rfl, rfl, rfl⟩

theorem fill_frame : (s.fill i).trace = s.trace ∧ (s.fill i).disk = s.disk ∧
    (s.fill i).pinned = s.pinned ∧ (s.fill i).lh = s.lh := by
  rw [fill_eq]
  exact ⟨rfl, rfl, rfl, rfl⟩

theorem logWriteLocked_buf : ∃ n, (s.logWriteLocked p i).buf =
    update s.buf i { s.buf i with dirty := false, refcnt := n } := by
  obtain ⟨n, l, m, heq⟩ := s.logWriteLocked_eq i p
  exact ⟨n, by rw [heq]; rfl⟩

theorem logWriteLocked_disk : (s.logWriteLocked p i).disk = s.disk := by
  obtain ⟨n, l, m, heq⟩ := s.logWriteLocked_eq i p
  rw [heq]
  rfl

@[simp] theorem logWriteLocked_proc : (s.logWriteLocked p i).proc = s.proc := by
  obtain ⟨n, l, m, heq⟩ := s.logWriteLocked_eq i p
  rw [heq]
  rfl

end BState

variable [DecidableEq ι] [DecidableEq κ]

/-! ## The moves -/

/-- The possible effects of one action, with their conditions. -/
inductive Move (s : BState ι κ) : Act ι κ → BState ι κ → Prop
  | panic {a} (e : String) : Move s a { s with panicked := some e }
  | beginSleep {p} : Move s (.beginOp p) s
  | beginAdmit {p} (hp : s.proc p = ⟨.out, .none⟩) (hopen : s.committing = false) :
      Move s (.beginOp p)
        ({ s with outstanding := s.outstanding + 1 }.setProc p ⟨.inOp, .none⟩)
  | bgetHit {p b i} (hcall : (s.proc p).call = .none) (hread : s.mayRead p b = true)
      (hi : s.cached b = some i) :
      Move s (.bget p b)
        ((s.setBuf i { s.buf i with refcnt := (s.buf i).refcnt + 1 }).setCall p
          (.waiting b i))
  | bgetMiss {p b i} (hcall : (s.proc p).call = .none) (hread : s.mayRead p b = true)
      (hmiss : s.cached b = none) (hi : s.unused = some i) :
      Move s (.bget p b)
        ((s.setBuf i { s.buf i with
          dev := ROOTDEV, blockno := b, valid := false, refcnt := 1 }).setCall p
          (.waiting b i))
  | acquire {p b i} (hcall : (s.proc p).call = .waiting b i) (hfree : (s.buf i).holder = none) :
      Move s (.acquiresleep p)
        ((s.setBuf i { s.buf i with holder := some p }).setCall p (.locked b i))
  | bread {p b i} (hcall : (s.proc p).call = .locked b i) :
      Move s (.bread p)
        { (s.fill i).setProc p ⟨(s.proc p).mode.returned i, .none⟩ with
          trace := s.trace ++ [.bread p b ((s.fill i).buf i).data] }
  | modify {p i x} (hp : s.proc p = ⟨.inOp, .none⟩) (hheld : (s.buf i).holder = some p) :
      Move s (.modify p i x) (s.setBuf i { s.buf i with data := x, dirty := true })
  | logWrite {p i} (hp : s.proc p = ⟨.inOp, .none⟩) (hheld : (s.buf i).holder = some p) :
      Move s (.logWrite p i) (s.setCall p (.logging i))
  | logLocked {p i} (hcall : (s.proc p).call = .logging i) :
      Move s (.logLocked p) ((s.logWriteLocked p i).setCall p .none)
  | release {p i} (hcall : (s.proc p).call = .none) (hmode : (s.proc p).mode.role ≠ .owner)
      (hheld : (s.buf i).holder = some p) (hclean : (s.buf i).dirty = false) :
      Move s (.releasesleep p i)
        ((s.setBuf i { s.buf i with holder := none }).setCall p (.releasing i))
  | releaseCommit {p i r is regs} (hp : s.proc p = ⟨.commit (.brelse r :: is) regs, .none⟩)
      (hr : regs r = some i) (hheld : (s.buf i).holder = some p) :
      Move s (.releasesleep p i)
        ((s.setBuf i { s.buf i with holder := none }).setProc p
          ⟨.commit is (update regs r none), .releasing i⟩)
  | dropRef {p i} (hcall : (s.proc p).call = .releasing i) :
      Move s (.brelse p) ((s.dropRef i).setCall p .none)
  | endLast {p} (hp : s.proc p = ⟨.inOp, .none⟩) (hout : s.outstanding = 1)
      (hclean : ∀ i, (s.buf i).holder = some p → (s.buf i).dirty = false) :
      Move s (.endOp p)
        ({ s with outstanding := 0, committing := true }.setProc p
          ⟨.commit (commitProg s.start s.lh) fun _ => none, .none⟩)
  | endMore {p} (hp : s.proc p = ⟨.inOp, .none⟩)
      (hclean : ∀ i, (s.buf i).holder = some p → (s.buf i).dirty = false) :
      Move s (.endOp p)
        ({ s with outstanding := s.outstanding - 1 }.setProc p ⟨.out, .none⟩)
  | memmove {p dst src is regs i j} (hp : s.proc p = ⟨.commit (.memmove dst src :: is) regs, .none⟩)
      (hdst : regs dst = some i) (hsrc : regs src = some j) :
      Move s (.exec p)
        ((s.setBuf i { s.buf i with data := (s.buf j).data }).setProc p
          ⟨.commit is regs, .none⟩)
  | putHead {p r is regs i} (hp : s.proc p = ⟨.commit (.putHead r :: is) regs, .none⟩)
      (hr : regs r = some i) :
      Move s (.exec p)
        ((s.setBuf i { s.buf i with data := Log.putHead (s.buf i).data s.lh }).setProc p
          ⟨.commit is regs, .none⟩)
  | bwrite {p r is regs i} (hp : s.proc p = ⟨.commit (.bwrite r :: is) regs, .none⟩)
      (hr : regs r = some i) :
      Move s (.exec p)
        ({ s with
          disk := update s.disk (s.buf i).blockno (s.buf i).data }.setProc p
          ⟨.commit is regs, .none⟩)
  | bunpin {p r is regs i} (hp : s.proc p = ⟨.commit (.bunpin r :: is) regs, .none⟩)
      (hr : regs r = some i) :
      Move s (.exec p)
        ({ s.setBuf i { s.buf i with refcnt := (s.buf i).refcnt - 1 } with
          pinned := s.pinned.erase (s.buf i).blockno }.setProc p ⟨.commit is regs, .none⟩)
  | clear {p is regs} (hp : s.proc p = ⟨.commit (.clear :: is) regs, .none⟩) :
      Move s (.exec p) ({ s with lh := [] }.setProc p ⟨.commit is regs, .none⟩)
  | leave {p regs} (hp : s.proc p = ⟨.commit [] regs, .none⟩) :
      Move s (.leave p) ({ s with committing := false }.setProc p ⟨.out, .none⟩)

variable {s t : BState ι κ}

theorem move_of_bget {p : ι} {b : Nat} (hcall : (s.proc p).call = .none)
    (hread : s.mayRead p b)
    (h : (match s.bget b with
      | .ok (i, u) => some (u.setCall p (.waiting b i))
      | .error e => some { s with panicked := some e }) = some t) :
    Move s (.bget p b) t := by
  unfold BState.bget at h
  cases hc : s.cached b with
  | some i =>
    simp only [hc] at h
    cases h
    exact .bgetHit hcall hread hc
  | none =>
    simp only [hc] at h
    cases hu : s.unused with
    | some i =>
      simp only [hu] at h
      cases h
      exact .bgetMiss hcall hread hc hu
    | none =>
      simp only [hu] at h
      cases h
      exact .panic _

theorem move_of_exec {p : ι} {x : Instr} {is : List Instr} {regs : Reg → Option κ}
    (hp : s.proc p = ⟨.commit (x :: is) regs, .none⟩)
    (h : (match s.execInstr p regs x with
      | some (.ok u) => some (u.setProc p ⟨.commit is regs, .none⟩)
      | some (.error e) => some { s with panicked := some e }
      | none => none) = some t) :
    Move s (.exec p) t := by
  cases x with
  | bread | brelse => simp [execInstr] at h
  | memmove dst src =>
    cases hdst : regs dst with
    | none => simp [execInstr, hdst] at h
    | some i =>
      cases hsrc : regs src with
      | none => simp [execInstr, hdst, hsrc] at h
      | some j =>
        simp only [execInstr, hdst, hsrc] at h
        cases h
        exact .memmove hp hdst hsrc
  | putHead r =>
    cases hr : regs r with
    | none => simp [execInstr, hr] at h
    | some i =>
      simp only [execInstr, hr] at h
      cases h
      exact .putHead hp hr
  | bwrite r =>
    cases hr : regs r with
    | none => simp [execInstr, hr] at h
    | some i =>
      by_cases hheld : (s.buf i).holder = some p
      · simp only [execInstr, hr, hheld, if_true] at h
        cases h
        exact .bwrite hp hr
      · simp only [execInstr, hr, hheld, if_false] at h
        cases h
        exact .panic _
  | bunpin r =>
    cases hr : regs r with
    | none => simp [execInstr, hr] at h
    | some i =>
      simp only [execInstr, hr] at h
      cases h
      exact .bunpin hp hr
  | clear =>
    cases h
    exact .clear hp

/-- Every step is one of the moves. -/
theorem move_of_step [Fintype κ] {a : Act ι κ} (h : s.step a = some t) :
    s.panicked = none ∧ Move s a t := by
  have hrunning : s.panicked = none := by
    by_contra hsome
    rw [step.eq_def, if_pos (Option.isSome_iff_ne_none.mpr hsome)] at h
    cases h
  refine ⟨hrunning, ?_⟩
  rw [step.eq_def, if_neg (by simp [hrunning])] at h
  have hproc : ∀ {p : ι} {m : Mode κ} {c : Call κ}, (s.proc p).mode = m →
      (s.proc p).call = c → s.proc p = ⟨m, c⟩ := by
    rintro p _ _ rfl rfl
    rfl
  cases a with
  | beginOp p =>
    simp only at h
    split at h
    · rename_i hm hc
      split_ifs at h with h1 h2
      · cases h
        exact .beginSleep
      · cases h
        exact .beginSleep
      · cases h
        exact .beginAdmit (hproc hm hc) (by simpa using h1)
    · cases h
  | bget p b =>
    simp only at h
    split at h
    · rename_i hc
      split_ifs at h with hread
      exact move_of_bget hc hread h
    · cases h
  | acquiresleep p =>
    simp only at h
    split at h
    · rename_i b i hc
      split_ifs at h with hfree
      cases h
      exact .acquire hc hfree
    · cases h
  | bread p =>
    simp only at h
    split at h
    · rename_i b i hc
      cases h
      exact .bread hc
    · cases h
  | modify p i x =>
    simp only at h
    split at h
    · rename_i hm hc
      split_ifs at h with hheld
      cases h
      exact .modify (hproc hm hc) hheld
    · cases h
  | logWrite p i =>
    simp only at h
    split at h
    · rename_i hm hc
      split_ifs at h with hheld
      split at h
      · cases h
        exact .logWrite (hproc hm hc) hheld
      · cases h
        exact .panic _
    · cases h
  | logLocked p =>
    simp only at h
    split at h
    · rename_i i hc
      cases h
      exact .logLocked hc
    · cases h
  | releasesleep p i =>
    simp only at h
    split at h
    · rename_i r is regs hm hc
      split_ifs at h with hr hheld
      · cases h
        exact .releaseCommit (hproc hm hc) hr hheld
      · cases h
        exact .panic _
    · cases h
    · rename_i hc hm hm'
      have hrole : (s.proc p).mode.role ≠ .owner := by
        cases hmode : (s.proc p).mode with
        | out | inOp => simp [Mode.role]
        | commit is regs => exact absurd hmode (hm' is regs)
      split_ifs at h with hheld hdirty
      · cases h
        exact .release hc hrole hheld (by simpa using hdirty)
      · cases h
        exact .panic _
    · cases h
  | brelse p =>
    simp only at h
    split at h
    · rename_i i hc
      cases h
      exact .dropRef hc
    · cases h
  | endOp p =>
    simp only at h
    split at h
    · rename_i hm hc
      split_ifs at h with hclean hcommit hout
      · cases h
        exact .panic _
      · cases h
        have hone : s.outstanding = 1 := by omega
        rw [hout]
        exact .endLast (hproc hm hc) hone hclean
      · cases h
        exact .endMore (hproc hm hc) hclean
    · cases h
  | exec p =>
    simp only at h
    split at h
    · rename_i x is regs hm hc
      exact move_of_exec (hproc hm hc) h
    · cases h
  | leave p =>
    simp only at h
    split at h
    · rename_i regs hm hc
      cases h
      exact .leave (hproc hm hc)
    · cases h

end SummerOsk.Bio
