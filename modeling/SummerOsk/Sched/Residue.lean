import SummerOsk.Sched.OneCpu

/-!
# What an UNUSED slot holds

A slot becomes UNUSED in `freeproc`, which clears it, and the slots start
cleared.  Two paths leave something behind.  `allocproc` gives the slot a pid
before it asks for a trapframe page, and returns without `freeproc` when there
is none.  `kill(0)` looks for pid 0 in every slot, and an UNUSED slot has it:
the call sets `killed` there and returns 0, and the next process that gets the
slot starts killed.

`Tidy` excludes the two, and every UNUSED slot is then clean in every run, also
in those in which a process gets on two CPUs.
-/

namespace SummerOsk.Sched

open PState

variable {π κ : Type} [DecidableEq π] [DecidableEq κ] {s t : PState π κ} {a : Act π κ} {c : κ}
  {p q : π} {k : List (Frame π)} {o : Outcome} {pid : Int}

/-- Every UNUSED slot is as `freeproc` leaves it. -/
def NoResidue (s : PState π κ) : Prop :=
  ∀ q, (s.proc q).state = .unused → (s.proc q).Clean

section

variable {qs : List π} {x : Proc π κ}

omit [DecidableEq κ]

omit [DecidableEq π] in
theorem Tidy.kill (h : Tidy s (.step c o)) (hcode : (s.cpu c).code = .kill pid (q :: qs) :: k)
    (hpid : pid = 0) : (s.proc q).state ≠ .unused := by
  simp only [Tidy, hcode] at h
  exact h hpid

omit [DecidableEq π] in
theorem Tidy.fork (h : Tidy s (.step c o)) (hcode : (s.cpu c).code = .fork (q :: qs) :: k)
    (hunused : (s.proc q).state = .unused) : o ≠ .noTrapframe := by
  simp only [Tidy, hcode] at h
  exact h hunused

/-! ## The step lemma -/

theorem NoResidue.setProc (h : NoResidue s) (hx : x.state = .unused → x.Clean) :
    NoResidue (s.setProc q x) := by
  intro r hr
  rw [setProc_proc] at hr ⊢
  split_ifs at hr ⊢
  · exact hx hr
  · exact h r hr

theorem clean_freeproc (q : π) : ((s.freeproc q).proc q).Clean := by
  simp [PState.freeproc, Proc.Clean]

/-- A critical section of one slot leaves an UNUSED slot clean. -/
theorem NoResidue.visit {n : Int} (h : NoResidue s) (htidy : Tidy s (.step c o))
    (hvisit : Visit s c q o x k n) (hx : x.state = .unused) : x.Clean := by
  -- a slot that only leaves `sleep` was UNUSED before
  have hsame : ∀ {P : Prop} [Decidable P],
      (if P then .runnable else (s.proc q).state) = ProcState.unused → (s.proc q).Clean := by
    intro P _ hif
    exact h q (by_contra fun hne => ne_unused_ite hne hif)
  cases hvisit with
  | pass => exact h q hx
  | wakeup | exitWake => exact hsame hx
  | kill hcode =>
    have hclean : (s.proc q).Clean := hsame hx
    have hunused : (s.proc q).state = .unused := by_contra fun hne => ne_unused_ite hne hx
    exact absurd hunused (htidy.kill hcode hclean.1)
  | suspend => cases hx
  | fork hcode hp hunused =>
    have hmem := htidy.fork hcode hunused
    cases o with
    | noTrapframe => exact absurd rfl hmem
    | noCopy => simp [forkInto, PState.freeproc, Proc.Clean]
    | ok => simp [forkInto] at hx

end

theorem NoResidue.move (h : NoResidue s) (hinv : Inv False s) (htidy : Tidy s a)
    (hm : Move s a t) : NoResidue t := by
  have hlock : ∀ {q : π} {x : Proc π κ}, x.state = (s.proc q).state → x.pid = (s.proc q).pid →
      x.killed = (s.proc q).killed → x.parent = (s.proc q).parent →
      x.chan = (s.proc q).chan ∨ x.chan = .zero → NoResidue (s.setProc q x) := by
    intro q x hstate hpid hkilled hparent hchan
    refine h.setProc fun hx => ?_
    obtain ⟨hpid', hkilled', hparent', hchan'⟩ := h q (hstate ▸ hx)
    refine ⟨hpid.trans hpid', hkilled.trans hkilled', hparent.trans hparent', ?_⟩
    exact hchan.elim (fun heq => heq.trans hchan') id
  cases hm with
  | panic | stay | goto | spin | wakeup | reparentSkip | reparentTest | waitSkip | waitTest
  | waitPass => exact h
  | visit hfree hvisit => exact h.setProc fun hx => h.visit htidy hvisit hx
  | pick | yield | sleepSched | waitSleep => exact h.setProc fun hx => by cases hx
  | switched | resume | sleepLock | sleepRelease | exitLockParent | exitLockSelf | waitLock
  | waitNone => exact hlock rfl rfl rfl rfl (.inl rfl)
  | slept | waitSlept => exact hlock rfl rfl rfl rfl (.inr rfl)
  | @reparent c o status op q qs k hcode hfree =>
    obtain ⟨⟨-, hown, hchild⟩, -⟩ := hinv.code c _ _ hcode
    exact h.setProc fun hunused => absurd hunused (hinv.child_used hown hchild)
  | @exit c o status op p k hcode hp hne =>
    refine NoResidue.setProc (h.setProc fun hx => ?_) fun hx => by cases hx
    exact h op (by_contra fun hne => ne_unused_ite hne hx)
  | @waitReap c o p q qs k hcode hp hfree hzombie hne =>
    have hchild : NoResidue
        (s.setProc q (if o = .noCopy then s.proc q else (s.freeproc q).proc q)) := by
      refine h.setProc fun hx => ?_
      split_ifs at hx ⊢
      · exact h q hx
      · exact clean_freeproc q
    exact hchild.setProc fun hx => h p hx

/-! ## Whole runs -/

/-- The action is the step of `kill(pid)` that looks at slot `q`. -/
def KillAt (s : PState π κ) (a : Act π κ) (pid : Int) (q : π) : Prop :=
  ∃ c o qs k, a = .step c o ∧ (s.cpu c).code = .kill pid (q :: qs) :: k

/-- The action is the step of `fork` that takes slot `q`. -/
def ForkAt (s : PState π κ) (a : Act π κ) (q : π) : Prop :=
  ∃ c o qs k, a = .step c o ∧ (s.cpu c).code = .fork (q :: qs) :: k ∧
    (s.proc q).state = .unused

/-- `kill` changes no slot with another pid. -/
theorem proc_of_killAt (hat : KillAt s a pid q) (hstep : s.step a = some t)
    (hpid : (s.proc q).pid ≠ pid) : t.proc = s.proc := by
  obtain ⟨c, o, qs, k, rfl, hcode⟩ := hat
  rcases act_of_step hstep with hact | ⟨e, rfl⟩
  · rw [act, hcode] at hact
    obtain ⟨hlock, hact⟩ := acquire_bind hact
    simp only [setProc_proc, if_true] at hact
    rw [if_neg hpid] at hact
    obtain ⟨-, hact⟩ := release_bind hact
    cases hact
    simp [proc_of_unlocked hlock]
  · rfl

/-- A new process is not killed. -/
theorem killed_of_forkAt (h : NoResidue s) (hat : ForkAt s a q)
    (hstep : s.step a = some t) : (t.proc q).killed = false := by
  obtain ⟨c, o, qs, k, rfl, hcode, hunused⟩ := hat
  have hkilled := (h q hunused).2.1
  rcases act_of_step hstep with hact | ⟨e, rfl⟩
  · rw [act, hcode] at hact
    obtain ⟨p, -, hact⟩ := myproc_bind hact
    obtain ⟨hlock, hact⟩ := acquire_bind hact
    simp only [setProc_proc, if_true] at hact
    rw [if_pos hunused] at hact
    obtain ⟨-, hact⟩ := release_bind hact
    cases hact
    cases o <;> simp [forkInto, PState.freeproc, hkilled]
  · exact hkilled

omit [DecidableEq π] [DecidableEq κ] in
theorem PState.Init.noResidue (h : s.Init) : NoResidue s := by
  intro q hq
  rcases eq_or_ne q s.initproc with rfl | hinit
  · simp [h.init.1] at hq
  · exact (h.unused q hinit).2.2

/-- In a run in which `kill(0)` meets no UNUSED slot and `allocproc` gets its
page, every UNUSED slot is clean, `kill(pid)` finds slots in use only and changes
no other one, and a new process is not killed. -/
theorem no_residue_of_tidy {s₀ : PState π κ} {as : List (Act π κ)} (hinit : s₀.Init)
    (hmeets : (processes π κ).Meets Tidy s₀ as)
    (hrun : (processes π κ).run s₀ as = some s) :
    NoResidue s ∧ ∀ a t, Tidy s a → (processes π κ).step s a = some t →
      (∀ pid q, KillAt s a pid q → ((s.proc q).pid = pid → (s.proc q).state ≠ .unused) ∧
        ((s.proc q).pid ≠ pid → t.proc = s.proc)) ∧
      ∀ q, ForkAt s a q → (t.proc q).killed = false := by
  have hboth : Inv False s ∧ NoResidue s := (processes π κ).run_invariant_of_meets
    (I := fun u => Inv False u ∧ NoResidue u) (fun u b v hu hG hstep =>
    ⟨hu.1.move False.elim (move_of_step hstep).2, hu.2.move hu.1 hG (move_of_step hstep).2⟩)
    ⟨hinit.inv, hinit.noResidue⟩ hmeets hrun
  refine ⟨hboth.2, fun a t htidy hstep => ⟨fun pid q hat => ⟨?_, proc_of_killAt hat hstep⟩,
    fun q hat => killed_of_forkAt hboth.2 hat hstep⟩⟩
  rintro hpid hunused
  obtain ⟨c, o, qs, k, rfl, hcode⟩ := hat
  have hzero : pid = 0 := hpid.symm.trans (hboth.2 q hunused).1
  exact htidy.kill hcode hzero hunused

/-- The first process forks, for which memory does not suffice, and calls
`kill(2)`. -/
theorem no_residue_of_failed_fork : ∃ s, (processes (Fin NPROC) (Fin NCPU)).run booted
    [.step cpu0 .ok, .step cpu0 .ok, .step cpu0 .ok, .call cpu0 .fork, .step cpu0 .ok,
      .step cpu0 .noCopy, .call cpu0 (.kill 2), .step cpu0 .ok, .step cpu0 .ok] = some s ∧
    s.nextpid = 3 ∧ NoResidue s := by
  obtain ⟨s, hrun, hpid⟩ : ∃ s, (processes (Fin NPROC) (Fin NCPU)).run booted
      [.step cpu0 .ok, .step cpu0 .ok, .step cpu0 .ok, .call cpu0 .fork, .step cpu0 .ok,
        .step cpu0 .noCopy, .call cpu0 (.kill 2), .step cpu0 .ok, .step cpu0 .ok] = some s ∧
      s.nextpid = 3 := ⟨_, rfl, rfl⟩
  exact ⟨s, hrun, hpid, (no_residue_of_tidy booted_init (by decide) hrun).1⟩

/-! ## A process that starts killed -/

/-- The first process calls `kill(0)`, which sets `killed` in the UNUSED slot 1,
and the child that it forks next starts killed. -/
theorem killed_from_birth : booted.Init ∧ ∃ s t,
    (processes (Fin NPROC) (Fin NCPU)).run booted
      [.step cpu0 .ok, .step cpu0 .ok, .step cpu0 .ok, .call cpu0 (.kill 0), .step cpu0 .ok,
        .step cpu0 .ok] = some s ∧ ¬ NoResidue s ∧
    (processes (Fin NPROC) (Fin NCPU)).run s
      [.call cpu0 .fork, .step cpu0 .ok, .step cpu0 .ok] = some t ∧
    (t.proc slot1).state = .runnable ∧ (t.proc slot1).pid = 2 ∧ (t.proc slot1).killed = true := by
  obtain ⟨s, t, hs, hunused, hkilled, ht, hstate, hpid, hchild⟩ : ∃ s t,
      (processes (Fin NPROC) (Fin NCPU)).run booted
        [.step cpu0 .ok, .step cpu0 .ok, .step cpu0 .ok, .call cpu0 (.kill 0), .step cpu0 .ok,
          .step cpu0 .ok] = some s ∧
      (s.proc slot1).state = .unused ∧ (s.proc slot1).killed = true ∧
      (processes (Fin NPROC) (Fin NCPU)).run s
        [.call cpu0 .fork, .step cpu0 .ok, .step cpu0 .ok] = some t ∧
      (t.proc slot1).state = .runnable ∧ (t.proc slot1).pid = 2 ∧
      (t.proc slot1).killed = true := ⟨_, _, rfl, rfl, rfl, rfl, rfl, rfl, rfl⟩
  refine ⟨booted_init, s, t, hs, fun h => ?_, ht, hstate, hpid, hchild⟩
  have hclean := (h slot1 hunused).2.1
  rw [hkilled] at hclean
  cases hclean

end SummerOsk.Sched
