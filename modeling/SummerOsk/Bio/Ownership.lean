import SummerOsk.Bio.Frame

/-!
# Who holds which buffer

Every move keeps `Calls`.  The facts about the other processes follow from the
frame of the move, so each proof is about the process that moves.
-/

namespace SummerOsk.Bio

open Lib Log Function BState

variable {ι κ : Type} [DecidableEq ι] [DecidableEq κ] [Fintype ι] {d : Nat → Block}
  {s t : BState ι κ} {a : Act ι κ} {b : Nat} {p : ι} {i : κ} {r : Reg}

theorem caches_of_move (hinv : Inv d s) (hm : Move s a t) (hi : s.Caches i b)
    (hpos : 1 ≤ (s.buf i).refcnt) : t.Caches i b := by
  obtain ⟨hdev, hblock⟩ := (bufMove_of_move hinv hm i).block hpos
  exact ⟨hdev.trans hi.1, hblock.trans hi.2⟩

/-- What a process has done when it enters a call. -/
def Entered (s t : BState ι κ) (p : ι) : Call κ → Prop
  | .none | .releasing _ => True
  | .waiting b i => (t.proc p).mode = (s.proc p).mode ∧ t.Caches i b ∧ s.mayRead p b = true
  | .locked b i => (t.proc p).mode = (s.proc p).mode ∧ (s.proc p).call = .waiting b i ∧
    (s.buf i).holder = none ∧ (t.buf i).holder = some p ∧ (s.Caches i b → t.Caches i b)
  | .logging i => s.proc p = ⟨.inOp, .none⟩ ∧ (t.buf i).holder = some p ∧
    (t.proc p).mode = .inOp

omit [Fintype ι] in
/-- A process is in the call it was in, which the move leaves alone, or it has
entered a new one. -/
theorem call_cases (hm : Move s a t) (p : ι) :
    t.proc p = s.proc p ∧ (p = a.actor → t.buf = s.buf ∨ (s.proc p).call = .none) ∨
      Entered s t p (t.proc p).call := by
  by_cases hp : p = a.actor
  swap
  · exact .inl ⟨proc_of_move hm hp, fun h => absurd h hp⟩
  subst hp
  cases hm with
  | panic | beginSleep => exact .inl ⟨rfl, fun _ => .inl rfl⟩
  | modify hp => exact .inl ⟨rfl, fun _ => .inr (by simp [Act.actor, hp])⟩
  | beginAdmit | endLast | endMore | memmove | putHead | bwrite | bunpin | clear | leave
  | releaseCommit | bread => simp [Act.actor, setProc_proc, Entered]
  | logLocked | release | dropRef => simp [Act.actor, setCall_proc, Entered]
  | bgetHit hold hmay hi =>
    right
    simp only [Act.actor, setCall_proc, if_true, Entered]
    exact ⟨rfl, by simpa [Caches, setBuf_buf] using caches_of_cached hi, hmay⟩
  | bgetMiss hold hmay hmiss hi =>
    right
    simp only [Act.actor, setCall_proc, if_true, Entered]
    exact ⟨rfl, by simp [Caches, setBuf_buf], hmay⟩
  | acquire hold hfree =>
    right
    simp only [Act.actor, setCall_proc, if_true, Entered]
    refine ⟨rfl, hold, hfree, by simp [setBuf_buf], fun hcaches => ?_⟩
    simpa [Caches, setBuf_buf] using hcaches
  | logWrite hp hheld =>
    right
    simp only [Act.actor, setCall_proc, if_true, Entered]
    exact ⟨hp, hheld, by rw [hp]⟩

omit [Fintype ι] in
/-- A call that goes on is in the same state before the move. -/
theorem entered_of_call (hm : Move s a t) {c : Call κ} (hcall : (t.proc p).call = c)
    (hc : c ≠ .none) :
    (s.proc p).call = c ∧ (t.proc p).mode = (s.proc p).mode ∧
      (p ≠ a.actor ∨ t.buf = s.buf) ∨ Entered s t p c := by
  rcases call_cases hm p with ⟨hproc, hbuf⟩ | hnew
  · rw [hproc] at hcall ⊢
    refine .inl ⟨hcall, rfl, ?_⟩
    by_cases hp : p = a.actor
    · exact .inr ((hbuf hp).resolve_right (hcall ▸ hc))
    · exact .inl hp
  · exact .inr (hcall ▸ hnew)

section

variable (hinv : Inv d s) (hm : Move s a t)

include hinv hm

/-- A process that goes on with a call keeps its buffer. -/
theorem holder_kept (hheld : (s.buf i).holder = some p) (hkeep : p ≠ a.actor ∨ t.buf = s.buf) :
    (t.buf i).holder = some p := by
  rcases hkeep with hp | hbuf
  · rw [(bufMove_of_move hinv hm i).other hinv.refs hheld hp]
    exact hheld
  · rw [hbuf]
    exact hheld

theorem waiting_of_move :
    ∀ p b i, (t.proc p).call = .waiting b i → t.Caches i b ∧ t.mayRead p b = true := by
  intro p b i hcall
  rcases entered_of_call hm hcall (by simp) with ⟨hold, hmode, -⟩ | ⟨hmode, hcaches, hread⟩
  · obtain ⟨hcaches, hread⟩ := hinv.calls.waiting p b i hold
    have hpos := hinv.refs.refers_pos (i := i) (p := p) (by simp [hold, Call.refers])
    exact ⟨caches_of_move hinv hm hcaches hpos, by rw [mayRead_of_move hm hmode, hread]⟩
  · exact ⟨hcaches, by rw [mayRead_of_move hm hmode, hread]⟩

theorem locked_of_move :
    ∀ p b i, (t.proc p).call = .locked b i →
      (t.buf i).holder = some p ∧ t.Caches i b ∧ t.mayRead p b = true := by
  intro p b i hcall
  rcases entered_of_call hm hcall (by simp) with ⟨hold, hmode, hkeep⟩ |
    ⟨hmode, hold, -, hheld, hsame⟩
  · obtain ⟨hheld, hcaches, hread⟩ := hinv.calls.locked p b i hold
    exact ⟨holder_kept hinv hm hheld hkeep,
      caches_of_move hinv hm hcaches (hinv.refs.holder_pos hheld),
      by rw [mayRead_of_move hm hmode, hread]⟩
  · obtain ⟨hcaches, hread⟩ := hinv.calls.waiting p b i hold
    exact ⟨hheld, hsame hcaches, by rw [mayRead_of_move hm hmode, hread]⟩

theorem logging_of_move :
    ∀ p i, (t.proc p).call = .logging i →
      (t.buf i).holder = some p ∧ (t.proc p).mode = .inOp := by
  intro p i hcall
  rcases entered_of_call hm hcall (by simp) with ⟨hold, hmode, hkeep⟩ | ⟨-, hheld, hmode⟩
  · obtain ⟨hheld, hin⟩ := hinv.calls.logging p i hold
    exact ⟨holder_kept hinv hm hheld hkeep, hmode.trans hin⟩
  · exact ⟨hheld, hmode⟩

end

/-- A process that did not hold a buffer and holds it now is in `bread`. -/
theorem locked_of_new_holder (hinv : Inv d s) (hm : Move s a t) (hheld : (t.buf i).holder = some p)
    (hnew : (s.buf i).holder ≠ some p) : ∃ b, (t.proc p).call = .locked b i := by
  have hbuf := bufMove_of_move hinv hm i
  generalize t.buf i = x at hbuf hheld
  cases hbuf with
  | count | recycle | write => exact absurd hheld hnew
  | release => cases hheld
  | acquire hfree hcall =>
    cases hheld
    exact ⟨_, hcall⟩

section

omit [DecidableEq ι] [DecidableEq κ] [Fintype ι]

/-- What `bread` returns is a home block, or it goes to a register. -/
theorem returned_use (hread : s.mayRead p b) (j : κ) :
    s.home b ∨ ∃ r, ((s.proc p).mode.returned j).regs r = some j := by
  rcases mayRead_cases hread with ⟨r, is, regs, hmode⟩ | ⟨-, hhome⟩
  · exact .inr ⟨r, by simp [hmode, Mode.returned, Mode.regs]⟩
  · exact .inl hhome

/-- A return of `bread` overwrites no register. -/
theorem returned_keeps (hinv : Contents d s) {j : κ} (hcall : (s.proc p).call = .locked b j)
    (hread : s.mayRead p b) (hr : (s.proc p).mode.regs r = some i) :
    ((s.proc p).mode.returned j).regs r = some i := by
  rcases mayRead_cases hread with ⟨r', is, regs, hmode⟩ | ⟨hrole, -⟩
  · obtain ⟨hfree, -⟩ := hinv.reg_free hmode (by simp [hcall])
    rw [hmode, Mode.regs] at hr
    have hne : r ≠ r' := by
      rintro rfl
      rw [hfree] at hr
      cases hr
    simp [hmode, Mode.returned, Mode.regs, hne, hr]
  · cases hmode : (s.proc p).mode with
    | out | inOp => simp [hmode, Mode.regs] at hr
    | commit is regs => simp [hmode, Mode.role] at hrole

end

/-- A register keeps its buffer until `commit` releases it. -/
theorem reg_kept (hinv : Inv d s) (hm : Move s a t) (hr : (s.proc p).mode.regs r = some i) :
    (t.proc p).mode.regs r = some i ∨ a = .releasesleep p i := by
  by_cases hp : p = a.actor
  swap
  · exact .inl (by rw [proc_of_move hm hp, hr])
  subst hp
  cases hm with
  | panic | beginSleep | modify => exact .inl hr
  | beginAdmit hp | endLast hp | endMore hp => simp [Act.actor, hp, Mode.regs] at hr
  | leave hp => simp [Act.actor, hp, Mode.regs, hinv.contents.regs_free hp r] at hr
  | memmove hp | putHead hp | bwrite hp | bunpin hp | clear hp =>
    left
    simpa [Act.actor, setProc_proc, hp, Mode.regs] using hr
  | bgetHit | bgetMiss | acquire | logWrite | logLocked | release | dropRef =>
    left
    simpa [Act.actor, setCall_proc] using hr
  | @releaseCommit p j r' is regs hp hr' =>
    simp only [Act.actor, hp, Mode.regs] at hr
    rcases eq_or_ne r r' with rfl | hne
    · rw [hr'] at hr
      cases hr
      exact .inr rfl
    · exact .inl (by simp [Act.actor, setProc_proc, Mode.regs, hne, hr])
  | @bread p b j hcall =>
    obtain ⟨-, -, hread⟩ := hinv.calls.locked p b j hcall
    left
    simpa [Act.actor, setProc_proc] using returned_keeps hinv.contents hcall hread hr

omit [Fintype ι] in
/-- A process that has the lock in `bread` keeps it until `bread` returns. -/
theorem locked_kept (hm : Move s a t) (hcall : (s.proc p).call = .locked b i) :
    (t.proc p).call = .locked b i ∨ t.buf = (s.fill i).buf ∧
      t.proc p = ⟨(s.proc p).mode.returned i, .none⟩ := by
  by_cases hp : p = a.actor
  swap
  · exact .inl (by rw [proc_of_move hm hp, hcall])
  subst hp
  cases hm with
  | panic | beginSleep => exact .inl hcall
  | beginAdmit hp | modify hp | logWrite hp | releaseCommit hp | endLast hp | endMore hp
  | memmove hp | putHead hp | bwrite hp | bunpin hp | clear hp | leave hp =>
    simp [Act.actor, hp] at hcall
  | bgetHit h | bgetMiss h | acquire h | logLocked h | release h | dropRef h =>
    simp [Act.actor, h] at hcall
  | bread h =>
    obtain ⟨rfl, rfl⟩ := Call.locked.inj (h.symm.trans hcall)
    exact .inr ⟨rfl, update_self _ _ _⟩

theorem held_of_move (hinv : Inv d s) (hm : Move s a t) :
    ∀ i p, (t.buf i).holder = some p →
      (∃ b, (t.proc p).call = .locked b i) ∨
        ((t.buf i).dev = ROOTDEV ∧ (t.buf i).valid = true ∧
          (t.home (t.buf i).blockno ∨ ∃ r, (t.proc p).mode.regs r = some i)) := by
  intro i p hheld
  by_cases hs : (s.buf i).holder = some p
  swap
  · exact .inl (locked_of_new_holder hinv hm hheld hs)
  have hbuf := bufMove_of_move hinv hm i
  have hpos := hinv.refs.holder_pos hs
  obtain ⟨hdev, hblock⟩ := hbuf.block hpos
  rw [hdev, hblock, home_of_move hm]
  rcases hinv.calls.held i p hs with ⟨b, hcall⟩ | ⟨hroot, hvalid, huse⟩
  · obtain ⟨-, hcaches, hread⟩ := hinv.calls.locked p b i hcall
    refine (locked_kept hm hcall).imp (⟨b, ·⟩) fun ⟨hfill, hproc⟩ => ?_
    rw [hproc, hcaches.2]
    exact ⟨hcaches.1, by simp [hfill, fill_eq, setBuf_buf], returned_use hread i⟩
  · refine .inr ⟨hroot, hbuf.valid hpos hvalid, huse.imp_right fun ⟨r, hr⟩ => ⟨r, ?_⟩⟩
    rcases reg_kept hinv hm hr with hkept | rfl
    · exact hkept
    · cases hm with
      | panic => exact hr
      | release | releaseCommit => simp [setBuf_buf] at hheld

section

omit [Fintype ι]

/-- Registers of `commit` are set by `bread` only. -/
theorem reg_of_move (hm : Move s a t) (hr : (t.proc p).mode.regs r = some i) :
    (s.proc p).mode.regs r = some i ∨
      (a = .bread p ∧ (t.proc p).call = .none ∧ (∃ b, (s.proc p).call = .locked b i) ∧
        ∃ b is regs, (s.proc p).mode = .commit (.bread r b :: is) regs) := by
  by_cases hp : p = a.actor
  swap
  · rw [proc_of_move hm hp] at hr
    exact .inl hr
  subst hp
  cases hm with
  | panic | beginSleep | modify => exact .inl hr
  | beginAdmit | endLast | endMore | leave =>
    simp [Act.actor, setProc_proc, Mode.regs] at hr
  | memmove hp | putHead hp | bwrite hp | bunpin hp | clear hp =>
    left
    simpa [Act.actor, setProc_proc, hp, Mode.regs] using hr
  | bgetHit | bgetMiss | acquire | logWrite | logLocked | release | dropRef =>
    left
    simpa [Act.actor, setCall_proc] using hr
  | @releaseCommit p j r' is regs hp =>
    left
    simp only [Act.actor, setProc_proc, if_true, Mode.regs] at hr
    simp only [Act.actor, hp, Mode.regs]
    by_cases hne : r = r'
    · simp [hne] at hr
    · rwa [update_of_ne hne] at hr
  | @bread p b j hcall =>
    simp only [Act.actor, setProc_proc, if_true] at hr
    change (s.proc p).mode.regs r = some i ∨ _
    cases hmode : (s.proc p).mode with
    | out | inOp => simp [hmode, Mode.returned, Mode.regs] at hr
    | commit is regs =>
      rw [hmode] at hr
      unfold Mode.returned at hr
      split at hr
      · rename_i r' c is' regs' heq
        cases heq
        rcases eq_or_ne r r' with rfl | hne
        · simp only [Mode.regs, update_self, Option.some.injEq] at hr
          exact .inr ⟨rfl, by simp [Act.actor, setProc_proc], ⟨b, hr ▸ hcall⟩, c, is',
            regs, hmode⟩
        · left
          simpa [Mode.regs, hne] using hr
      · exact .inl hr

end

/-- Only `releasesleep` takes a buffer from its holder. -/
theorem holder_of_move (hinv : Inv d s) (hm : Move s a t) (hheld : (s.buf i).holder = some p) :
    (t.buf i).holder = some p ∨ a = .releasesleep p i := by
  have hbuf := bufMove_of_move hinv hm i
  generalize t.buf i = x at hbuf
  cases hbuf with
  | count | recycle | write => exact .inl hheld
  | acquire hfree =>
    rw [hheld] at hfree
    cases hfree
  | release hown hclean ha =>
    rw [hheld] at hown
    cases hown
    exact .inr ha

omit [Fintype ι] in
/-- Only `acquiresleep` brings a process into the last part of `bread`, and only
with a buffer that is free. -/
theorem not_locked_of_move (hm : Move s a t) (hheld : (s.buf i).holder = some p)
    (hnot : ∀ b, (s.proc p).call ≠ .locked b i) (b : Nat) : (t.proc p).call ≠ .locked b i := by
  intro hcall
  rcases entered_of_call hm hcall (by simp) with ⟨hold, -⟩ | ⟨-, -, hfree, -⟩
  · exact hnot b hold
  · rw [hheld] at hfree
    cases hfree

theorem regs_of_move (hinv : Inv d s) (hm : Move s a t) :
    ∀ p r i, (t.proc p).mode.regs r = some i →
      (t.buf i).holder = some p ∧ ∀ b, (t.proc p).call ≠ .locked b i := by
  intro p r i hr
  rcases reg_of_move hm hr with hold | ⟨rfl, hnone, ⟨b, hcall⟩, -⟩
  · obtain ⟨hheld, hnot⟩ := hinv.calls.regs p r i hold
    refine ⟨?_, not_locked_of_move hm hheld hnot⟩
    rcases holder_of_move hinv hm hheld with hkept | rfl
    · exact hkept
    · cases hm with
      | panic => exact hheld
      | release hcall hmode =>
        cases hm : (s.proc p).mode with
        | out | inOp => simp [hm, Mode.regs] at hold
        | commit => simp [hm, Mode.role] at hmode
      | @releaseCommit _ _ r' is regs hp hr' hown =>
        have hne : r = r' := hinv.calls.regs_inj p r r' i hold (by rw [hp]; exact hr')
        simp [setProc_proc, Mode.regs, hne] at hr
  · obtain ⟨hheld, -, -⟩ := hinv.calls.locked p b i hcall
    exact ⟨(holder_of_move hinv hm hheld).resolve_right (by simp), fun c hc => by
      simp [hnone] at hc⟩

theorem regs_inj_of_move (hinv : Inv d s) (hm : Move s a t) :
    ∀ p r r' i, (t.proc p).mode.regs r = some i → (t.proc p).mode.regs r' = some i →
      r = r' := by
  intro p r r' i hr hr'
  rcases reg_of_move hm hr with hold | ⟨-, -, ⟨b, hcall⟩, c, is, regs, hmode⟩ <;>
    rcases reg_of_move hm hr' with hold' | ⟨-, -, ⟨b', hcall'⟩, c', is', regs', hmode'⟩
  · exact hinv.calls.regs_inj p r r' i hold hold'
  · exact absurd hcall' ((hinv.calls.regs p r i hold).2 b')
  · exact absurd hcall ((hinv.calls.regs p r' i hold').2 b)
  · rw [hmode] at hmode'
    cases hmode'
    rfl

omit [Fintype ι] in
/-- A process leaves its operation with clean buffers. -/
theorem inOp_cases (hm : Move s a t) (hmode : (s.proc p).mode = .inOp) :
    (t.proc p).mode = .inOp ∨ ∀ i, (s.buf i).holder = some p → (s.buf i).dirty = false := by
  by_cases hp : p = a.actor
  swap
  · exact .inl (by rw [proc_of_move hm hp, hmode])
  subst hp
  cases hm with
  | panic | beginSleep | modify => exact .inl hmode
  | beginAdmit hp | memmove hp | putHead hp | bwrite hp | bunpin hp | clear hp | leave hp
  | releaseCommit hp => simp [Act.actor, hp] at hmode
  | endLast hp hout hclean => exact .inr hclean
  | endMore hp hclean => exact .inr hclean
  | bgetHit | bgetMiss | acquire | logWrite | logLocked | release | dropRef =>
    left
    simpa [Act.actor, setCall_proc] using hmode
  | bread =>
    left
    simp only [Act.actor] at hmode
    simp [Act.actor, setProc_proc, hmode, Mode.returned]

/-- Only a change by its holder makes a buffer dirty. -/
theorem dirty_cases (hinv : Inv d s) (hm : Move s a t) (hdirty : (t.buf i).dirty) :
    (s.buf i).dirty = true ∨ ∃ p, (t.buf i).holder = some p ∧ t.proc p = ⟨.inOp, .none⟩ := by
  have hbuf := bufMove_of_move hinv hm i
  generalize t.buf i = x at hbuf hdirty
  cases hbuf with
  | count | recycle | acquire | release => exact .inl hdirty
  | write hheld x n v e hvalid hnew => exact (hnew hdirty).imp_right fun hp => ⟨_, hheld, hp⟩

theorem dirty_of_move (hinv : Inv d s) (hm : Move s a t) :
    ∀ i, (t.buf i).dirty = true → ∃ p, (t.buf i).holder = some p ∧
      (t.proc p).mode = .inOp ∧ ∀ b, (t.proc p).call ≠ .locked b i := by
  intro i hdirty
  rcases dirty_cases hinv hm hdirty with hs | ⟨p, hheld, hp⟩
  · obtain ⟨p, hheld, hmode, hnot⟩ := hinv.calls.dirty i hs
    refine ⟨p, ?_, ?_, not_locked_of_move hm hheld hnot⟩
    · rcases holder_of_move hinv hm hheld with hkept | rfl
      · exact hkept
      · cases hm with
        | panic => exact hheld
        | release hcall hrole hown hclean =>
          rw [hs] at hclean
          cases hclean
        | releaseCommit hp =>
          rw [hp] at hmode
          cases hmode
    · refine (inOp_cases hm hmode).resolve_right fun hclean => ?_
      rw [hclean i hheld] at hs
      cases hs
  · exact ⟨p, hheld, by rw [hp], by simp [hp]⟩

/-- Every move keeps the facts about calls and holders. -/
theorem Calls.move (hinv : Inv d s) (hm : Move s a t) : Calls t where
  waiting := waiting_of_move hinv hm
  locked := locked_of_move hinv hm
  logging := logging_of_move hinv hm
  held := held_of_move hinv hm
  regs := regs_of_move hinv hm
  regs_inj := regs_inj_of_move hinv hm
  dirty := dirty_of_move hinv hm

/-! ## The gate -/

omit [DecidableEq ι] [DecidableEq κ] [Fintype ι] in
theorem returned_role (m : Mode κ) (i : κ) : (m.returned i).role = m.role := by
  unfold Mode.returned
  split <;> rfl

theorem gate_of_move (hinv : Inv d s) (hm : Move s a t) :
    Gate (fun p => (t.proc p).mode.role) t.outstanding t.committing := by
  have hrole : ∀ (p : ι) (y : Proc κ), (fun q => (update s.proc p y q).mode.role) =
      update (fun q => (s.proc q).mode.role) p y.mode.role :=
    fun p y => comp_update (fun y : Proc κ => y.mode.role) s.proc p y
  have h := hinv.gate
  have hset : ∀ (p : ι) (y : Proc κ) {n c}, Gate (update (fun q => (s.proc q).mode.role) p
      y.mode.role) n c → Gate (fun q => (update s.proc p y q).mode.role) n c := by
    intro p y n c hgate
    rwa [hrole]
  have hsame : ∀ (p : ι) (y : Proc κ), y.mode.role = (s.proc p).mode.role →
      Gate (fun q => (update s.proc p y q).mode.role) s.outstanding s.committing := by
    intro p y hy
    rw [hrole, hy, update_eq_self p fun q => (s.proc q).mode.role]
    exact h
  cases hm with
  | panic | beginSleep | modify => exact h
  | @beginAdmit p hp hopen =>
    rw [hopen] at h
    have hgate := h.enter (p := p) (by simp [hp, Mode.role])
    rw [← hopen] at hgate
    exact hset p _ hgate
  | @endLast p hp hout hclean =>
    rw [hout] at h
    exact hset p _ (h.last (by simp [hp, Mode.role]))
  | @endMore p hp hclean => exact hset p _ (h.exit (by simp [hp, Mode.role]))
  | @leave p regs hp => exact hset p _ (h.reopen (by simp [hp, Mode.role]))
  | memmove hp | putHead hp | bwrite hp | bunpin hp | clear hp | releaseCommit hp =>
    exact hsame _ _ (by simp [hp, Mode.role])
  | bgetHit | bgetMiss | acquire | logWrite | release => exact hsame _ _ rfl
  | @dropRef p i hcall =>
    obtain ⟨l, -, heq⟩ := s.dropRef_eq i
    rw [heq]
    exact hsame _ _ rfl
  | @logLocked p i hcall =>
    obtain ⟨n, l, m, heq⟩ := s.logWriteLocked_eq i p
    rw [heq]
    exact hsame _ _ rfl
  | bread =>
    rw [fill_eq]
    exact hsame _ _ (returned_role _ _)

end SummerOsk.Bio
