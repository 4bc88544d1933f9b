import SummerOsk.Log.Crash
import SummerOsk.Log.Protocol

/-!
# Safety of the group commit protocol

`GState.Inv` ties `outstanding`, `committing`, `lh` and the pins to the
positions of the processes: `outstanding` counts the processes inside an
operation, `committing` says that some process is between the two critical
sections of `end_op`, and while one is, no process is inside an operation.

`op_segment` follows one operation of one process through a run.  Nothing is
committed between its `begin_op` and its `end_op`, so its blocks stay in the
header until the next commit, which writes all of them.
-/

namespace SummerOsk.Log

open Lib Function List

/-! ## What `commit` does to the header, the pins and the disk -/

section Commit

variable (s : LogState)

/-- The fields that no loop of `log.c` changes. -/
def LogState.fixed : Nat × Nat × Int × Bool :=
  (s.start, s.size, s.outstanding, s.committing)

section

variable (tail : Nat) (bs : List Nat)

include tail bs

theorem installFrom_frame :
    (s.installFrom tail bs).fixed = s.fixed ∧ (s.installFrom tail bs).lh = s.lh ∧
      (s.installFrom tail bs).pins = unpinAll s.pins bs := by
  induction bs generalizing s tail with
  | nil => exact ⟨rfl, rfl, rfl⟩
  | cons b bs ih =>
    obtain ⟨hfixed, hlh, hpins⟩ := ih (s.installStep tail b) (tail + 1)
    exact ⟨hfixed, hlh, hpins⟩

theorem writeLogFrom_frame :
    (s.writeLogFrom tail bs).fixed = s.fixed ∧ (s.writeLogFrom tail bs).lh = s.lh ∧
      (s.writeLogFrom tail bs).pins = s.pins := by
  induction bs generalizing s tail with
  | nil => exact ⟨rfl, rfl, rfl⟩
  | cons b bs ih =>
    obtain ⟨hfixed, hlh, hpins⟩ := ih (s.writeLogStep tail b) (tail + 1)
    exact ⟨hfixed, hlh, hpins⟩

theorem installFrom_writes :
    ∃ ws, (s.installFrom tail bs).writes = s.writes ++ ws ∧ ws.map Prod.fst = bs := by
  induction bs generalizing s tail with
  | nil => exact ⟨[], by simp [LogState.installFrom], rfl⟩
  | cons b bs ih =>
    obtain ⟨ws, hws, hkeys⟩ := ih (s.installStep tail b) (tail + 1)
    refine ⟨(b, s.data (s.start + tail + 1)) :: ws, ?_, by simp [hkeys]⟩
    rw [LogState.installFrom, hws]
    simp [LogState.installStep, LogState.setData, LogState.bwrite, LogState.bunpin]

theorem writeLogFrom_writes : ∃ ws, (s.writeLogFrom tail bs).writes = s.writes ++ ws := by
  induction bs generalizing s tail with
  | nil => exact ⟨[], by simp [LogState.writeLogFrom]⟩
  | cons b bs ih =>
    obtain ⟨ws, hws⟩ := ih (s.writeLogStep tail b) (tail + 1)
    refine ⟨(s.start + tail + 1, s.data b) :: ws, ?_⟩
    rw [LogState.writeLogFrom, hws]
    simp [LogState.writeLogStep, LogState.setData, LogState.bwrite]

end

/-- `commit` empties the header, drops the pins of its blocks and leaves the
rest of `struct log` alone. -/
theorem commit_frame :
    s.commit.fixed = s.fixed ∧ s.commit.lh = [] ∧
      s.commit.pins = unpinAll s.pins s.lh := by
  unfold LogState.commit
  split_ifs with hpos
  · obtain ⟨hfixed, hlh, hpins⟩ := writeLogFrom_frame s 0 s.lh
    obtain ⟨hfixed', _, hpins'⟩ := installFrom_frame s.writeLog.writeHead 0 s.lh
    have hhead : s.writeLog.writeHead.lh = s.lh := hlh
    refine ⟨?_, rfl, ?_⟩
    · rw [← hfixed]
      rw [LogState.installTrans, hhead]
      exact hfixed'
    · rw [← hpins, LogState.installTrans, hhead]
      exact hpins'
  · have hnil : s.lh = [] := by
      rw [← length_eq_zero_iff]
      omega
    exact ⟨rfl, hnil, by rw [hnil]; rfl⟩

/-- `commit` writes the home block of every entry of the header. -/
theorem commit_writes : ∃ ws, s.commit.writes = s.writes ++ ws ∧ ∀ b ∈ s.lh, ∃ x, (b, x) ∈ ws := by
  unfold LogState.commit
  split_ifs with hpos
  · obtain ⟨ws1, hws1⟩ := writeLogFrom_writes s 0 s.lh
    obtain ⟨ws2, hws2, hkeys⟩ := installFrom_writes s.writeLog.writeHead 0 s.lh
    have hhead : s.writeLog.writeHead.lh = s.lh := (writeLogFrom_frame s 0 s.lh).2.1
    have hput : ∀ u : LogState, ∃ w, u.writeHead.writes = u.writes ++ [w] :=
      fun u => ⟨_, congrArg LogState.writes (writeHead_eq (s := u))⟩
    obtain ⟨w1, hw1⟩ := hput s.writeLog
    obtain ⟨w2, hw2⟩ := hput s.writeLog.writeHead.installTrans.clearHead
    refine ⟨ws1 ++ [w1] ++ ws2 ++ [w2], ?_, fun b hb => ?_⟩
    · have hclear : s.writeLog.writeHead.installTrans.clearHead.writes =
          s.writeLog.writeHead.writes ++ ws2 := by
        rw [← hws2, LogState.installTrans, hhead]
        rfl
      have hlog : s.writeLog.writes = s.writes ++ ws1 := hws1
      rw [hw2, hclear, hw1, hlog]
      simp
    · rw [← hkeys] at hb
      obtain ⟨w, hw, rfl⟩ := mem_map.mp hb
      exact ⟨w.2, by simp [hw]⟩
  · have hnil : s.lh = [] := by
      rw [← length_eq_zero_iff]
      omega
    exact ⟨[], by simp, by simp [hnil]⟩

/-- What `commit` writes to a home block is the contents of its buffer. -/
theorem commit_writes_data {b : Nat} (hhome : ∀ c ∈ s.lh, ¬ InLog s.start (s.lh.length + 1) c)
    (hb : b ∈ s.lh) : (b, s.data b) ∈ s.commit.writes.drop s.writes.length := by
  rw [commit_eq (Nat.lt_succ_self _) hhome (ne_nil_of_mem hb), drop_left]
  simp [commitWrites, hb]

end Commit

theorem unpinAll_apply (pins : Nat → Int) (bs : List Nat) (b : Nat) :
    unpinAll pins bs b = pins b - bs.count b := by
  induction bs generalizing pins with
  | nil => simp [unpinAll]
  | cons x bs ih =>
    have hcons : unpinAll pins (x :: bs) =
        unpinAll (update pins x (pins x - 1)) bs := rfl
    rw [hcons, ih]
    rcases eq_or_ne b x with rfl | hx
    · rw [update_self, count_cons_self]
      push_cast
      ring
    · rw [update_of_ne hx, count_cons_of_ne (Ne.symm hx)]

/-! ## The invariant -/

variable {ι : Type} [Fintype ι]

/-- The protocol invariant. -/
structure GState.Inv (s : GState ι) : Prop where
  /-- `outstanding` counts the processes inside an operation, and `committing`
  is set exactly while one process commits and no process is inside one. -/
  gate : Gate (Pc.role ∘ s.pc) s.log.outstanding s.log.committing
  leaving_nil : ∀ p, s.pc p = .leaving → s.log.lh = []
  /-- The header is empty when no process uses the log. -/
  rest_nil : (∀ p, s.pc p = .idle) → s.log.lh = []
  nodup : s.log.lh.Nodup
  pins_eq : ∀ b, s.log.pins b = if b ∈ s.log.lh then 1 else 0
  no_panic : s.panicked ≠ some "log.committing"

theorem GState.Init.inv {s : GState ι} (h : s.Init) : s.Inv where
  gate := by
    rw [h.outstanding_zero, h.not_committing]
    exact Gate.init fun p => by simp [h.idle p, Pc.role]
  leaving_nil _ _ := h.lh_nil
  rest_nil _ := h.lh_nil
  nodup := by simp [h.lh_nil]
  pins_eq b := by simp [h.lh_nil, h.pins_zero b]
  no_panic := by simp [h.running]

variable [DecidableEq ι] {s t : GState ι} {as : List (Act ι)} {a : Act ι} {p q : ι} {b : Nat}
  {c : Pc} {l : LogState}

omit [Fintype ι] in
/-- A process that moves between two positions with one role leaves the roles
alone. -/
theorem role_stay {pc : ι → Pc} (h : c.role = (pc p).role) :
    Pc.role ∘ update pc p c = Pc.role ∘ pc := by
  rw [comp_update, h]
  exact update_eq_self p (Pc.role ∘ pc)

omit [Fintype ι] in
/-- A process in `leaving` while `p` is put elsewhere owns the gate. -/
theorem owner_of_leaving (hc : c ≠ .leaving)
    (hq : ({ s with log := l }.setPc p c).pc q = .leaving) : (Pc.role ∘ s.pc) q = .owner := by
  rcases eq_or_ne q p with rfl | hqp
  · exact absurd (by simpa [GState.setPc] using hq) hc
  · have hq : s.pc q = .leaving := by simpa [GState.setPc, hqp] using hq
    simp [hq, Pc.role]

section

variable (h : s.Inv)

include h

theorem inv_beginAdmit (hpc : s.pc p = .idle) (hcommit : s.log.committing = false) :
    ({ s with log := { s.log with outstanding := s.log.outstanding + 1 } }.setPc p
      .inOp).Inv := by
  have hgate := h.gate
  rw [hcommit] at hgate
  refine ⟨?_, fun q hq => ?_, fun hidle => ?_, h.nodup, h.pins_eq, h.no_panic⟩
  · simp only [GState.setPc, comp_update, hcommit]
    exact hgate.enter (by simp [hpc, Pc.role])
  · exact absurd (owner_of_leaving (by simp) hq) (hgate.not_owner_of_open q)
  · have := hidle p
    simp [GState.setPc] at this

/-- An action of a process inside its operation that stays inside keeps the
part of the invariant that is about positions. -/
theorem inv_inside (hp : (s.pc p).role = .inside) (hc : c.role = .inside)
    (hfixed : l.fixed = s.log.fixed) (hnodup : l.lh.Nodup)
    (hpins : ∀ b, l.pins b = if b ∈ l.lh then 1 else 0) : ({ s with log := l }.setPc p c).Inv := by
  have hout : l.outstanding = s.log.outstanding := congrArg (fun x => x.2.2.1) hfixed
  have hcommit : l.committing = s.log.committing := congrArg (fun x => x.2.2.2) hfixed
  have hroles : Pc.role ∘ update s.pc p c = Pc.role ∘ s.pc :=
    role_stay (hc.trans hp.symm)
  refine ⟨?_, fun q hq => ?_, fun hidle => ?_, hnodup, hpins, h.no_panic⟩
  · simp only [GState.setPc, hroles, hout, hcommit]
    exact h.gate
  · refine absurd ?_ (h.gate.not_owner_of_inside hp q)
    rw [← hroles]
    exact congrArg Pc.role hq
  · have hidle : c = .idle := by simpa [GState.setPc] using hidle p
    rw [hidle] at hc
    cases hc

theorem inv_logLocked (hpc : s.pc p = .logging b) :
    ({ s with log := s.log.logWriteLocked b }.setPc p .inOp).Inv := by
  have hrole : (s.pc p).role = .inside := by rw [hpc]; rfl
  by_cases hb : b ∈ s.log.lh
  · have hsame : s.log.logWriteLocked b = s.log := by simp [LogState.logWriteLocked, hb]
    rw [hsame]
    exact inv_inside h hrole rfl rfl h.nodup h.pins_eq
  · have hnew : s.log.logWriteLocked b = { s.log.bpin b with lh := s.log.lh ++ [b] } := by
      simp [LogState.logWriteLocked, hb]
    rw [hnew]
    refine inv_inside h hrole rfl rfl ?_ fun x => ?_
    · refine nodup_append.mpr ⟨h.nodup, by simp, fun x hx y hy => ?_⟩
      rw [mem_singleton.mp hy]
      rintro rfl
      exact hb hx
    · rcases eq_or_ne x b with rfl | hx
      · simp [LogState.bpin, h.pins_eq, hb]
      · simp [LogState.bpin, h.pins_eq, hx]

theorem inv_endLast (hpc : s.pc p = .inOp) (hout : s.log.outstanding = 1) :
    ({ s with log := { s.log with outstanding := 0, committing := true } }.setPc p
      .committing).Inv := by
  have hgate := h.gate
  rw [hout] at hgate
  have hrole : (Pc.role ∘ s.pc) p = .inside := by simp [hpc, Pc.role]
  refine ⟨?_, fun q hq => ?_, fun hidle => ?_, h.nodup, h.pins_eq, h.no_panic⟩
  · simp only [GState.setPc, comp_update]
    exact hgate.last hrole
  · exact absurd (owner_of_leaving (by simp) hq) (hgate.not_owner_of_inside hrole q)
  · have := hidle p
    simp [GState.setPc] at this

theorem inv_endMore (hpc : s.pc p = .inOp) (hout : s.log.outstanding ≠ 1) :
    ({ s with log := { s.log with outstanding := s.log.outstanding - 1 } }.setPc p
      .idle).Inv := by
  have hrole : (Pc.role ∘ s.pc) p = .inside := by simp [hpc, Pc.role]
  have hgate : Gate (Pc.role ∘ update s.pc p .idle) (s.log.outstanding - 1)
      s.log.committing := by
    rw [comp_update]
    exact h.gate.exit hrole
  refine ⟨hgate, fun q hq => ?_, fun hidle => ?_, h.nodup, h.pins_eq, h.no_panic⟩
  · exact absurd (owner_of_leaving (by simp) hq) (h.gate.not_owner_of_inside hrole q)
  · -- Another process is still inside an operation, so the log is in use.
    exfalso
    have hempty : insiders (Pc.role ∘ update s.pc p .idle) = ∅ := by
      ext q
      have hq : update s.pc p .idle q = .idle := hidle q
      simp [mem_insiders, hq, Pc.role]
    have hcount := hgate.count
    rw [hempty, Finset.card_empty] at hcount
    omega

theorem inv_commit (hpc : s.pc p = .committing) :
    ({ s with log := s.log.commit }.setPc p .leaving).Inv := by
  obtain ⟨hfixed, hlh, hpins⟩ := commit_frame s.log
  have hout : s.log.commit.outstanding = s.log.outstanding :=
    congrArg (fun x => x.2.2.1) hfixed
  have hcommit : s.log.commit.committing = s.log.committing :=
    congrArg (fun x => x.2.2.2) hfixed
  refine ⟨?_, fun _ _ => hlh, fun _ => hlh, by simp [GState.setPc, hlh], fun b => ?_,
    h.no_panic⟩
  · simp only [GState.setPc, hout, hcommit]
    rw [role_stay (by rw [hpc]; rfl)]
    exact h.gate
  · have hcount : (s.log.lh.count b : Int) = if b ∈ s.log.lh then 1 else 0 := by
      split_ifs with hb
      · rw [count_eq_one_of_mem h.nodup hb]
        rfl
      · rw [count_eq_zero.mpr hb]
        rfl
    simp [GState.setPc, hpins, hlh, unpinAll_apply, h.pins_eq b, hcount]

theorem inv_leave (hpc : s.pc p = .leaving) :
    ({ s with log := s.log.endOpLeave }.setPc p .idle).Inv := by
  have hnil : s.log.lh = [] := h.leaving_nil p hpc
  refine ⟨?_, fun _ _ => hnil, fun _ => hnil, h.nodup, h.pins_eq, h.no_panic⟩
  simp only [GState.setPc, comp_update]
  exact h.gate.reopen (by simp [hpc, Pc.role])

end

theorem logWriteCheck_error {e : String} (h : l.logWriteCheck = .error e) :
    e = "too big a transaction" ∨ e = "log_write outside of trans" := by
  unfold LogState.logWriteCheck at h
  split_ifs at h
  · cases h
    exact .inl rfl
  · cases h
    exact .inr rfl

/-- Every action keeps the invariant. -/
theorem GState.Inv.move (h : s.Inv) (hm : Move s a t) : t.Inv := by
  cases hm with
  | beginSleep => exact h
  | beginAdmit hpc hcommit => exact inv_beginAdmit h hpc hcommit
  | modify => exact { h with }
  | logWrite hpc =>
    exact inv_inside h (by rw [hpc]; rfl) rfl rfl h.nodup h.pins_eq
  | logPanic hpc hcheck =>
    refine { h with no_panic := ?_ }
    rcases logWriteCheck_error hcheck with rfl | rfl <;> simp
  | logLocked hpc => exact inv_logLocked h hpc
  | endLast hpc hcommit hout => exact inv_endLast h hpc hout
  | endMore hpc hcommit hout => exact inv_endMore h hpc hout
  | endPanic hpc hcommit =>
    have hopen := h.gate.open_of_inside (congrArg Pc.role hpc)
    rw [hopen] at hcommit
    cases hcommit
  | commit hpc => exact inv_commit h hpc
  | leave hpc => exact inv_leave h hpc

theorem inv_of_run (h : s.Inv) (hrun : (protocol ι).run s as = some t) : t.Inv :=
  (protocol ι).run_invariant (fun _ _ _ hi hs => hi.move (move_of_step hs).2) h hrun

/-! ## One operation of one process -/

/-- No process commits while `p` is inside an operation. -/
theorem not_commit_of_inside (h : s.Inv) (hp : (s.pc p).role = .inside) :
    s.step (.commit q) ≠ some t := by
  intro hstep
  obtain ⟨-, hm⟩ := move_of_step hstep
  cases hm with
  | commit hpc =>
    exact h.gate.not_owner_of_inside (p := p) hp q (by simp [hpc, Pc.role])

omit [Fintype ι] in
/-- Only its own `end_op` takes a process out of its operation. -/
theorem inside_of_move (hm : Move s a t) (hp : (s.pc p).role = .inside)
    (ha : a ≠ .endOp p) : (t.pc p).role = .inside := by
  have hupdate : ∀ (q : ι) (c : Pc), (q = p → c.role = .inside) →
      (update s.pc q c p).role = .inside := by
    intro q c hc
    rcases eq_or_ne p q with rfl | hq
    · rw [update_self]
      exact hc rfl
    · rw [update_of_ne hq]
      exact hp
  cases hm with
  | beginSleep | modify | logPanic | endPanic => exact hp
  | beginAdmit => exact hupdate _ _ fun _ => rfl
  | logWrite | logLocked => exact hupdate _ _ fun _ => rfl
  | endLast | endMore => exact hupdate _ _ fun hq => absurd (by rw [hq]) ha
  | commit hpc | leave hpc =>
    refine hupdate _ _ fun hq => ?_
    subst hq
    rw [hpc] at hp
    cases hp

/-- While `p` is inside its operation, it stays there and nothing is
committed. -/
theorem op_not_committed (h : s.Inv) (hp : (s.pc p).role = .inside) (has : .endOp p ∉ as)
    (hrun : (protocol ι).run s as = some t) : (t.pc p).role = .inside ∧ ∀ q, .commit q ∉ as := by
  induction as generalizing s with
  | nil =>
    cases hrun
    exact ⟨hp, by simp⟩
  | cons a as ih =>
    obtain ⟨u, hu, hrest⟩ := (protocol ι).run_cons_eq_some hrun
    obtain ⟨ha, has⟩ := not_or.mp (mem_cons.not.mp has)
    have hm := (move_of_step hu).2
    obtain ⟨ht, hnone⟩ := ih (h.move hm) (inside_of_move hm hp (Ne.symm ha)) has hrest
    refine ⟨ht, fun q hq => ?_⟩
    rcases mem_cons.mp hq with rfl | hq
    · exact not_commit_of_inside h hp hu
    · exact hnone q hq

omit [Fintype ι] in
/-- Only `commit` takes a block out of the header. -/
theorem lh_subset_of_move (hm : Move s a t) (ha : ∀ q, a ≠ .commit q) : s.log.lh ⊆ t.log.lh := by
  cases hm with
  | beginSleep | beginAdmit | modify | logWrite | logPanic | endLast | endMore | endPanic
  | leave => exact Subset.refl _
  | logLocked hpc =>
    intro x hx
    exact mem_logWriteLocked_lh.mpr (.inl hx)
  | commit => exact absurd rfl (ha _)

omit [Fintype ι] in
theorem lh_subset_of_run (has : ∀ q, .commit q ∉ as)
    (hrun : (protocol ι).run s as = some t) : s.log.lh ⊆ t.log.lh := by
  induction as generalizing s with
  | nil =>
    cases hrun
    exact Subset.refl _
  | cons a as ih =>
    obtain ⟨u, hu, hrest⟩ := (protocol ι).run_cons_eq_some hrun
    have hsub := lh_subset_of_move (move_of_step hu).2 fun q hq =>
      has q (hq ▸ mem_cons_self)
    exact Subset.trans hsub (ih (fun q hq => has q (mem_cons_of_mem _ hq)) hrest)

/-- The call of `log_write` on `b` by `p` is not lost: the kernel panicked, or
the call waits for `log.lock`, or the header has the block. -/
def Pending (p : ι) (b : Nat) (s : GState ι) : Prop :=
  s.panicked.isSome ∨ s.pc p = .logging b ∨ b ∈ s.log.lh

omit [Fintype ι] in
theorem pending_of_move (hm : Move s a t) (ha : ∀ q, a ≠ .commit q)
    (h : Pending p b s) : Pending p b t := by
  rcases h with h | h | h
  · left
    cases hm <;> simp_all [GState.setPc]
  · have hupdate : ∀ (q : ι) (c : Pc), q ≠ p → update s.pc q c p = .logging b :=
      fun q c hq => by rw [update_of_ne (Ne.symm hq), h]
    have hother : ∀ {q : ι} {c : Pc}, s.pc q = c → c ≠ .logging b → q ≠ p := by
      rintro q c hq hc rfl
      exact hc (hq.symm.trans h)
    cases hm with
    | beginSleep | modify => exact .inr (.inl h)
    | logPanic | endPanic => exact .inl rfl
    | beginAdmit hpc | logWrite hpc | endLast hpc | endMore hpc | commit hpc | leave hpc =>
      exact .inr (.inl (hupdate _ _ (hother hpc (by simp))))
    | @logLocked q x hpc =>
      rcases eq_or_ne q p with rfl | hq
      · rw [h] at hpc
        cases hpc
        exact .inr (.inr (mem_logWriteLocked_lh.mpr (.inr rfl)))
      · exact .inr (.inl (hupdate _ _ hq))
  · exact .inr (.inr (lh_subset_of_move hm ha h))

omit [Fintype ι] in
/-- Until the next commit, no block logged by `p` is lost. -/
theorem pending_of_run (has : ∀ q, .commit q ∉ as) (hrun : (protocol ι).run s as = some t)
    (hb : Pending p b s ∨ .logWrite p b ∈ as) : Pending p b t := by
  induction as generalizing s with
  | nil =>
    cases hrun
    simpa using hb
  | cons a as ih =>
    obtain ⟨u, hu, hrest⟩ := (protocol ι).run_cons_eq_some hrun
    have hm := (move_of_step hu).2
    have ha : ∀ q, a ≠ .commit q := fun q hq => has q (hq ▸ mem_cons_self)
    refine ih (fun q hq => has q (mem_cons_of_mem _ hq)) hrest ?_
    rcases hb with hb | hb
    · exact .inl (pending_of_move hm ha hb)
    · rcases mem_cons.mp hb with rfl | hb
      · left
        cases hm with
        | logWrite => exact .inr (.inl (update_self _ _ _))
        | logPanic => exact .inl rfl
      · exact .inr hb

/-- The blocks that one operation logs are all in the header after its
`end_op`, and nothing was committed since its `begin_op`. -/
theorem op_segment (h : s.Inv) (hp : (s.pc p).role = .inside) (has : .endOp p ∉ as)
    (hrun : (protocol ι).run s (as ++ [.endOp p]) = some t) :
    (∀ q, .commit q ∉ as) ∧ ∀ b, .logWrite p b ∈ as → b ∈ t.log.lh := by
  obtain ⟨u, hu, hend⟩ := (protocol ι).run_append_eq_some hrun
  have hv : u.step (.endOp p) = some t := by
    obtain ⟨v, hv, hnil⟩ := (protocol ι).run_cons_eq_some hend
    cases hnil
    exact hv
  obtain ⟨-, hnone⟩ := op_not_committed h hp has hu
  refine ⟨hnone, fun b hb => ?_⟩
  obtain ⟨hrunning, hm⟩ := move_of_step hv
  have hmem : b ∈ u.log.lh := by
    rcases pending_of_run hnone hu (.inr hb) with hpanic | hlogging | hmem
    · simp [hrunning] at hpanic
    · -- `end_op` is called after `log_write` returned
      cases hm <;> simp_all
    · exact hmem
  exact lh_subset_of_move hm (by simp) hmem

/-- The group commit protocol is safe for every interleaving of the operations
of any number of processes, and the blocks of one operation are written by one
commit, the first one after its `end_op`.  What it writes to them are the
contents of their buffers, when the blocks of the header lie outside the blocks
of the log that the commit uses. -/
theorem group_commit {s₀ : GState ι} (h₀ : s₀.Init) :
    (∀ as s, (protocol ι).run s₀ as = some s →
      (∀ q t, s.step (.commit q) = some t →
        s.log.outstanding = 0 ∧ s.log.committing = true) ∧
      (∀ q b t, s.step (.logLocked q b) = some t → s.log.committing = false) ∧
      s.panicked ≠ some "log.committing" ∧
      s.log.lh.Nodup ∧ ∀ b ∈ s.log.lh, s.log.pins b = 1) ∧
    (∀ as₁ as₂ p s₁ s₂, (protocol ι).run s₀ (as₁ ++ [.beginOp p]) = some s₁ →
      s₁.pc p = .inOp → .endOp p ∉ as₂ →
      (protocol ι).run s₁ (as₂ ++ [.endOp p]) = some s₂ →
      (∀ q, .commit q ∉ as₂) ∧
      ∀ as₃ q s₃ t, (∀ r, .commit r ∉ as₃) → (protocol ι).run s₂ as₃ = some s₃ →
        s₃.step (.commit q) = some t → ∀ b, .logWrite p b ∈ as₂ →
        b ∈ s₃.log.lh ∧ b ∉ t.log.lh ∧
          (∃ x, (b, x) ∈ t.log.writes.drop s₃.log.writes.length) ∧
          ((∀ c ∈ s₃.log.lh, ¬ InLog s₃.log.start (s₃.log.lh.length + 1) c) →
            (b, s₃.log.data b) ∈ t.log.writes.drop s₃.log.writes.length)) := by
  refine ⟨fun as s hrun => ?_, fun as₁ as₂ p s₁ s₂ hrun₁ hpc has₂ hrun₂ => ?_⟩
  · have h := inv_of_run h₀.inv hrun
    refine ⟨fun q t hstep => ?_, fun q b t hstep => ?_, h.no_panic, h.nodup,
      fun b hb => by rw [h.pins_eq, if_pos hb]⟩
    · obtain ⟨-, hm⟩ := move_of_step hstep
      cases hm with
      | commit hpc => exact h.gate.zero_of_owner (p := q) (by simp [hpc, Pc.role])
    · obtain ⟨-, hm⟩ := move_of_step hstep
      cases hm with
      | logLocked hpc => exact h.gate.open_of_inside (p := q) (by simp [hpc, Pc.role])
  · have h₁ := inv_of_run h₀.inv hrun₁
    obtain ⟨hnone, hlogged⟩ := op_segment h₁ (by rw [hpc]; rfl) has₂ hrun₂
    refine ⟨hnone, fun as₃ q s₃ t has₃ hrun₃ hstep b hb => ?_⟩
    have hmem : b ∈ s₃.log.lh := lh_subset_of_run has₃ hrun₃ (hlogged b hb)
    obtain ⟨-, hm⟩ := move_of_step hstep
    cases hm with
    | commit hpc₃ =>
      obtain ⟨ws, hws, hkeys⟩ := commit_writes s₃.log
      refine ⟨hmem, ?_, ?_, fun hhome => commit_writes_data s₃.log hhome hmem⟩
      · change b ∉ s₃.log.commit.lh
        rw [(commit_frame s₃.log).2.1]
        simp
      · change ∃ x, (b, x) ∈ s₃.log.commit.writes.drop s₃.log.writes.length
        rw [hws, drop_left]
        exact hkeys b hmem

/-- Two processes whose operations overlap: the first one changes block 40, logs
it and ends, the second one logs block 41 and ends, and one commit writes both,
block 40 with the new contents. -/
theorem group_commit_two :
    ∃ s₁ s₂ s₃ t : GState (Fin 2),
      (protocol (Fin 2)).run (GState.booted (fun _ _ => 0) 2 30)
        ([.beginOp 1] ++ [.beginOp 0]) = some s₁ ∧ s₁.pc 0 = .inOp ∧
      (protocol (Fin 2)).run s₁
        ([.modify 0 40 fun _ => 7, .logWrite 0 40, .logLocked 0 40] ++ [.endOp 0]) = some s₂ ∧
      (protocol (Fin 2)).run s₂ [.logWrite 1 41, .logLocked 1 41, .endOp 1] = some s₃ ∧
      s₃.step (.commit 1) = some t ∧ s₃.log.outstanding = 0 ∧
      40 ∈ s₃.log.lh ∧ 40 ∉ t.log.lh ∧
        s₃.log.data 40 = (fun _ => 7) ∧
        (40, s₃.log.data 40) ∈ t.log.writes.drop s₃.log.writes.length := by
  have hinit : (GState.booted (fun _ _ => 0) 2 30 : GState (Fin 2)).Init :=
    GState.booted_init _ _ _
  refine ⟨_, _, _, _, rfl, rfl, rfl, rfl, rfl, rfl, ?_⟩
  have h := ((group_commit hinit).2 [.beginOp 1]
    [.modify 0 40 fun _ => 7, .logWrite 0 40, .logLocked 0 40] 0 _ _ rfl rfl (by simp) rfl).2
    [.logWrite 1 41, .logLocked 1 41, .endOp 1] 1 _ _ (by simp) rfl rfl 40 (by simp)
  have hdata := h.2.2.2 (by decide)
  exact ⟨h.1, h.2.1, rfl, hdata⟩

end SummerOsk.Log
