import SummerOsk.Sched.Threads

/-!
# Children are reaped exactly once

`exit` gives the children of a process to the first process before the process
becomes a ZOMBIE, and holds the lock of the parent while it does.  `wait` holds
the lock of the parent from the start of its scan until it sleeps.  `Family`
says what the two loops have established about the slots they have passed; from
it a ZOMBIE has no children, and a process other than the first one that sleeps
in `wait` has no ZOMBIE child.

`exited` and `reaped` are the events of a run: a process exits, and a `wait`
returns a pid with an exit status.  `Balanced` counts them against the slots.
-/

namespace SummerOsk.Sched

open Lib List PState

variable {π κ : Type} {s t : PState π κ} {a : Act π κ} {c : κ} {p q : π} {k : List (Frame π)}
  {f : Frame π}

/-! ## The invariant -/

/-- The slots that `reparent` has still to look at. -/
def Frame.toReparent : Frame π → Option (List π)
  | .reparent _ _ qs => some qs
  | .reparentChild _ _ q qs => some (q :: qs)
  | _ => none

/-- The slots that `wait` has still to look at. -/
def Frame.toScan : Frame π → Option (List π)
  | .waitScan qs _ => some qs
  | .waitChild q qs => some (q :: qs)
  | _ => none

structure Family (s : PState π κ) : Prop where
  alive : (s.proc s.initproc).state ≠ .zombie
  kids : ∀ c p f k qs, (s.cpu c).proc = some p → (s.cpu c).code = f :: k →
    f.toReparent = some qs → ∀ q, (s.proc q).parent = some p → q ∈ qs
  scan : ∀ c p f k qs, p ≠ s.initproc → (s.cpu c).proc = some p → (s.cpu c).code = f :: k →
    f.toScan = some qs → ∀ q, (s.proc q).parent = some p → (s.proc q).state = .zombie → q ∈ qs
  childless : ∀ z q, (s.proc z).state = .zombie → (s.proc q).parent ≠ some z
  asleep : ∀ p k, p ≠ s.initproc → (s.proc p).state = .sleeping →
    (s.proc p).context = .waitSlept :: k →
    (s.proc p).chan = .proc p ∧ ∀ q, (s.proc q).parent = some p → (s.proc q).state ≠ .zombie

/-- A process sleeps in `wait` after the step as before, or it has no ZOMBIE
child then. -/
def Slumber (s t : PState π κ) (p : π) : Prop :=
  ∀ k, (t.proc p).state = .sleeping → (t.proc p).context = .waitSlept :: k →
    ((s.proc p).state = .sleeping ∧ (s.proc p).context = .waitSlept :: k ∧
      (t.proc p).chan = (s.proc p).chan) ∨
    ((t.proc p).chan = .proc p ∧
      (p ≠ s.initproc → ∀ q, (t.proc q).parent = some p → (t.proc q).state ≠ .zombie))

/-- What the code of an exiting process knows about its parent. -/
theorem Threads.exiting {status : Int} {op : π} (h : Threads s) (hinv : Inv True s)
    (hcode : (s.cpu c).code = .reparent status op [] :: k) (hp : (s.cpu c).proc = some p) :
    (s.proc op).lock = some c ∧ p ≠ s.initproc ∧
      ((s.proc p).parent = some op ∨ (s.proc p).parent = some s.initproc) := by
  obtain ⟨p', hp', -, hgood⟩ := h.running hcode rfl
  cases hp.symm.trans hp'
  exact ⟨(hinv.code c _ _ hcode).1.1, hgood _ mem_cons_self⟩

theorem not_loop_of_quiet (h : f.quiet) : f.toReparent = none ∧ f.toScan = none := by
  cases f <;> first | exact ⟨rfl, rfl⟩ | cases h

theorem not_loop_of_resumes (h : f.resumes) : f.toReparent = none ∧ f.toScan = none := by
  cases f <;> first | exact ⟨rfl, rfl⟩ | cases h

theorem PState.Init.family (h : s.Init) : Family s where
  alive := by simp [h.init.1]
  kids c p f k qs hp := by simp [h.idle c] at hp
  scan c p f k qs _ hp := by simp [h.idle c] at hp
  childless z q hz := by rcases (h.slot z).1 with hst | hst <;> simp [hst] at hz
  asleep p k hne hsleep := by simp [(h.unused p hne).1] at hsleep

variable [DecidableEq π] [DecidableEq κ]

/-! ## The step lemma -/

theorem Family.slumber (h : Family s) (hT : Threads s) (hm : Move s a t) (p : π) :
    Slumber s t p := by
  intro k hsleep hctx
  rcases (slotMove_of_move hT.safe hm p).asleep hT hsleep with ⟨hs, hstate⟩ |
    ⟨ch, lk, k', -, -, ht⟩ | ⟨hk, k', hp, hcode, ht, -⟩
  · exact .inl ⟨hstate, hs.context ▸ hctx, hs.chan⟩
  · rw [ht] at hctx
    cases hctx
  · refine .inr ⟨by rw [ht], fun hpi q hq hz => ?_⟩
    -- the scan has passed every slot
    rcases parent_of_move hm q with heq | ⟨-, hrun, -⟩ | ⟨heq, -⟩ | ⟨heq, -⟩
    · rcases zombie_of_exit hm hz with hz' | ⟨status, op, ⟨k'', hcode'⟩, -⟩
      · have hmem := h.scan a.cpu p _ k' [] hpi hp hcode rfl q (heq ▸ hq) hz'
        cases hmem
      · cases hcode.symm.trans hcode'
    · cases hrun.symm.trans hz
    · cases heq.symm.trans hq
      exact absurd rfl hpi
    · cases heq.symm.trans hq

section Step

variable (h : Family s) (hT : Threads s) (hinv : Inv True s) (hm : Move s a t) {qs : List π}
include h hT hinv hm

/-- It is enough to look at the code of the CPU that takes the step. -/
theorem Family.of_parts
    (hkids : ∀ p f k qs, (t.cpu a.cpu).proc = some p → (t.cpu a.cpu).code = f :: k →
      f.toReparent = some qs → ∀ q, (t.proc q).parent = some p → q ∈ qs)
    (hscan : ∀ p f k qs, p ≠ s.initproc → (t.cpu a.cpu).proc = some p →
      (t.cpu a.cpu).code = f :: k → f.toScan = some qs →
      ∀ q, (t.proc q).parent = some p → (t.proc q).state = .zombie → q ∈ qs) : Family t := by
  have ho := others_of_move hinv (fun _ => hT.safe) hm
  have hinit := initproc_of_move hm
  refine ⟨?_, fun c p f k qs hp hcode hf q hq => ?_, fun c p f k qs hne hp hcode hf q hq hz => ?_,
    fun z q hz hq => ?_, fun p k hne hsleep hctx => ?_⟩
  · rw [hinit]
    intro hz
    rcases zombie_of_exit hm hz with hz' | ⟨status, op, ⟨k, hcode⟩, hp, -⟩
    · exact h.alive hz'
    · exact (hT.exiting hinv hcode hp).2.1 rfl
  · rcases eq_or_ne c a.cpu with rfl | hc
    · exact hkids p f k qs hp hcode hf q hq
    · rw [ho.cpu c hc] at hp hcode
      rcases parent_of_move hm q with heq | ⟨-, -, -, heq, -⟩ | ⟨heq, -⟩ | ⟨heq, -⟩
      · exact h.kids c p f k qs hp hcode hf q (heq ▸ hq)
      · exact absurd (hinv.one trivial c a.cpu p hp (heq ▸ hq)) hc
      · -- an exiting process is not the first one
        obtain ⟨p', hp', -, hgood⟩ := hT.running hcode
          (by cases f <;> first | rfl | cases hf)
        cases hp.symm.trans hp'
        have hpi : p ≠ s.initproc := by
          have hg := hgood f mem_cons_self
          cases f <;> first | exact hg.1 | cases hf
        rw [heq] at hq
        cases hq
        exact absurd rfl hpi
      · rw [heq] at hq
        cases hq
  · rw [hinit] at hne
    rcases eq_or_ne c a.cpu with rfl | hc
    · exact hscan p f k qs hne hp hcode hf q hq hz
    · rw [ho.cpu c hc] at hp hcode
      rcases parent_of_move hm q with heq | ⟨-, -, -, heq, -⟩ | ⟨heq, -⟩ | ⟨heq, -⟩
      · rcases zombie_of_exit hm hz with hz' | ⟨status, op, ⟨k', hcode'⟩, hp', -⟩
        · exact h.scan c p f k qs hne hp hcode hf q (heq ▸ hq) hz'
        · -- the child that exits holds the lock of its parent, which `wait` holds
          obtain ⟨hop, -, hparent⟩ := hT.exiting hinv hcode' hp'
          rw [heq] at hq
          have hown : Owns True s c := by
            have hheld := (hinv.code c f k hcode).1
            cases f <;> first | exact hheld | exact hheld.1 | cases hf
          obtain ⟨p'', hp'', hlock, -⟩ := hown
          cases hp.symm.trans hp''
          rcases hparent with hpar | hpar
          · cases hpar.symm.trans hq
            exact absurd (Option.some.inj (hlock.symm.trans hop)) hc
          · cases hpar.symm.trans hq
            exact absurd rfl hne
      · exact absurd (hinv.one trivial c a.cpu p hp (heq ▸ hq)) hc
      · rw [heq] at hq
        cases hq
        exact absurd rfl hne
      · rw [heq] at hq
        cases hq
  · rcases parent_of_move hm q with heq | ⟨-, -, -, heq, qs, k, hcode⟩ | ⟨heq, -⟩ | ⟨heq, -⟩
    · rcases zombie_of_exit hm hz with hz' | ⟨status, op, ⟨k, hcode⟩, hp, -⟩
      · exact h.childless z q hz' (heq ▸ hq)
      · have hmem := h.kids a.cpu z _ k [] hp hcode rfl q (heq ▸ hq)
        cases hmem
    · -- a process that forks is RUNNING
      obtain ⟨p, hp, hrun, -⟩ := hT.running hcode rfl
      rw [heq, hp] at hq
      cases hq
      rcases zombie_of_exit hm hz with hz' | ⟨status, op, ⟨k', hcode'⟩, -⟩
      · rw [hrun] at hz'
        cases hz'
      · rw [hcode] at hcode'
        cases hcode'
    · rw [heq] at hq
      cases hq
      rcases zombie_of_exit hm hz with hz' | ⟨status, op, ⟨k', hcode'⟩, hp', -⟩
      · exact h.alive hz'
      · exact (hT.exiting hinv hcode' hp').2.1 rfl
    · rw [heq] at hq
      cases hq
  · rw [hinit] at hne
    rcases h.slumber hT hm p k hsleep hctx with ⟨hsleep', hctx', hchan⟩ | ⟨hchan, hall⟩
    · obtain ⟨hch, hall⟩ := h.asleep p k hne hsleep' hctx'
      refine ⟨hchan.trans hch, fun q hq hz => ?_⟩
      rcases parent_of_move hm q with heq | ⟨-, hrun, -⟩ | ⟨heq, -⟩ | ⟨heq, -⟩
      · rcases zombie_of_exit hm hz with hz' | ⟨status, op, ⟨k', hcode'⟩, hp', -, hwoken, -⟩
        · exact hall q (heq ▸ hq) hz'
        · -- the exit of the child wakes its parent
          obtain ⟨-, -, hparent⟩ := hT.exiting hinv hcode' hp'
          rw [heq] at hq
          rcases hparent with hpar | hpar
          · cases hpar.symm.trans hq
            rw [woken1, if_pos ⟨hch, hsleep'⟩, hsleep] at hwoken
            cases hwoken
          · cases hpar.symm.trans hq
            exact absurd rfl hne
      · rw [hrun] at hz
        cases hz
      · rw [heq] at hq
        cases hq
        exact absurd rfl hne
      · rw [heq] at hq
        cases hq
    · exact ⟨hchan, hall hne⟩

/-- A step to code that is in neither of the two loops. -/
theorem Family.outside
    (hhead : ∀ f k, (t.cpu a.cpu).code = f :: k → f.toReparent = none ∧ f.toScan = none) :
    Family t := by
  refine h.of_parts hT hinv hm (fun p f k qs _ hcode hf => ?_) (fun p f k qs _ _ hcode hf => ?_)
  · rw [(hhead f k hcode).1] at hf
    cases hf
  · rw [(hhead f k hcode).2] at hf
    cases hf

theorem Family.next (hcode : (t.cpu a.cpu).code = f :: k) (hf : f.toReparent = none)
    (hf' : f.toScan = none) : Family t := by
  refine h.outside hT hinv hm fun g k' hcode' => ?_
  cases hcode.symm.trans hcode'
  exact ⟨hf, hf'⟩

theorem Family.quiet (hcode : (t.cpu a.cpu).code = k) (hk : Quiet k) : Family t := by
  refine h.outside hT hinv hm fun f k' hcode' => not_loop_of_quiet (hk f ?_)
  rw [← hcode, hcode']
  exact mem_cons_self

/-- The process of the CPU gives it up. -/
theorem Family.leave (hp : (s.cpu a.cpu).proc = some p)
    (hcode : (t.cpu a.cpu).code = (s.cpu a.cpu).scheduler) : Family t := by
  obtain ⟨k, hk, -⟩ := hT.saved a.cpu p hp
  exact h.next hT hinv hm (hcode.trans hk) rfl rfl

/-- A step in the loop of `reparent`. -/
theorem Family.reparents (hcpu : t.cpu a.cpu = { s.cpu a.cpu with code := f :: k })
    (hf : f.toReparent = some qs) (hscan : f.toScan = none)
    (hmem : ∀ p q, (s.cpu a.cpu).proc = some p → (t.proc q).parent = some p → q ∈ qs) :
    Family t := by
  refine h.of_parts hT hinv hm (fun p f' k' qs' hp hcode hf' q hq => ?_)
    (fun p f' k' qs' _ _ hcode hf' => ?_)
  · rw [hcpu] at hp hcode
    cases hcode
    cases hf.symm.trans hf'
    exact hmem p q hp hq
  · rw [hcpu] at hcode
    cases hcode
    cases hscan.symm.trans hf'

/-- A step in the loop of `wait`. -/
theorem Family.scans (hcpu : t.cpu a.cpu = { s.cpu a.cpu with code := f :: k })
    (hf : f.toScan = some qs) (hkids : f.toReparent = none)
    (hmem : ∀ p q, p ≠ s.initproc → (s.cpu a.cpu).proc = some p → (t.proc q).parent = some p →
      (t.proc q).state = .zombie → q ∈ qs) : Family t := by
  refine h.of_parts hT hinv hm (fun p f' k' qs' _ hcode hf' => ?_)
    (fun p f' k' qs' hne hp hcode hf' q hq hz => ?_)
  · rw [hcpu] at hcode
    cases hcode
    cases hkids.symm.trans hf'
  · rw [hcpu] at hp hcode
    cases hcode
    cases hf.symm.trans hf'
    exact hmem p q hne hp hq hz

end Step

theorem Family.move (h : Family s) (hT : Threads s) (hinv : Inv True s) (hm : Move s a t) :
    Family t := by
  have hm' := hm
  have htail : ∀ {c : κ} {f : Frame π} {k : List (Frame π)},
      (s.cpu c).code = f :: k → Quiet k := fun hcode => (hinv.code _ _ _ hcode).2
  cases hm with
  | panic => exact ⟨h.alive, h.kids, h.scan, h.childless, h.asleep⟩
  | stay => exact h
  | goto hgoto =>
    exact h.quiet hT hinv hm' (by rw [hgoto.cpu, setCode_code]) (hinv.quiet_goto hgoto)
  | spin d hspin =>
    exact h.quiet hT hinv hm' (by simp [hspin.cpu, setSpin]) (hinv.quiet_spin hspin)
  | visit hlock hvisit =>
    exact h.quiet hT hinv hm' (setCode_code _) (hinv.quiet_visit hvisit)
  | @pick c o q qs k hcode hlock hstate =>
    refine h.outside hT hinv hm' fun f' k' hcode' => ?_
    simp only [Act.cpu, setCpu_cpu, if_true] at hcode'
    obtain ⟨f, k'', hctx, hf, -⟩ := hinv.context q
    cases hctx.symm.trans hcode'
    exact not_loop_of_resumes hf
  | switched hcode => exact h.quiet hT hinv hm' (by simp [Act.cpu]) (htail hcode)
  | resume hcode | waitReap hcode | waitNone hcode =>
    exact h.quiet hT hinv hm' (setCode_code _) (htail hcode)
  | yield hoff hp | sleepSched hcode hp | exit hcode hp | waitSleep hcode hp =>
    exact h.leave hT hinv hm' hp (setCode_code _)
  | wakeup | sleepLock | slept | exitLockParent =>
    exact h.next hT hinv hm' (setCode_code _) rfl rfl
  | @sleepRelease c o p ch lk k =>
    exact h.next hT hinv hm' (f := .sleepSched ch lk) (k := k) (by simp [Act.cpu, setSpin])
      rfl rfl
  | exitLockSelf =>
    exact h.reparents hT hinv hm' (setCode_cpu_self _) rfl rfl
      fun _ q _ _ => hinv.table_all q
  | @reparentSkip c o status op p r qs k hcode hp hother =>
    refine h.reparents hT hinv hm' (setCode_cpu_self _) rfl rfl fun p' q hp' hq => ?_
    cases hp.symm.trans hp'
    have hmem := h.kids c p _ k _ hp hcode rfl q hq
    refine (mem_cons.mp hmem).resolve_left ?_
    rintro rfl
    exact hother hq
  | @reparentTest c o status op p r qs k hcode hp hchild =>
    exact h.reparents hT hinv hm' (setCode_cpu_self _) rfl rfl fun p' q hp' hq =>
      h.kids c p' _ k _ hp' hcode rfl q hq
  | @reparent c o status op r qs k hcode hlock =>
    refine h.reparents hT hinv hm' (setCode_cpu_self _) rfl rfl fun p' q hp' hq => ?_
    obtain ⟨p, hp, -, hgood⟩ := hT.running hcode rfl
    have hpi : p ≠ s.initproc := (hgood _ mem_cons_self).1
    cases hp.symm.trans hp'
    rw [setCode_proc, setProc_proc] at hq
    split_ifs at hq with hqr
    · cases hq
      exact absurd rfl hpi
    · have hmem := h.kids c p' _ k _ hp hcode rfl q hq
      exact (mem_cons.mp hmem).resolve_left hqr
  | waitLock | waitSlept =>
    exact h.scans hT hinv hm' (setCode_cpu_self _) rfl rfl
      fun _ q _ _ _ _ => hinv.table_all q
  | @waitSkip c o p r qs hk k hcode hp hother =>
    refine h.scans hT hinv hm' (setCode_cpu_self _) rfl rfl fun p' q hpi hp' hq hz => ?_
    cases hp.symm.trans hp'
    have hmem := h.scan c p _ k _ hpi hp hcode rfl q hq hz
    refine (mem_cons.mp hmem).resolve_left ?_
    rintro rfl
    exact hother hq
  | @waitTest c o p r qs hk k hcode hp hchild =>
    exact h.scans hT hinv hm' (setCode_cpu_self _) rfl rfl fun p' q hpi hp' hq hz =>
      h.scan c p' _ k _ hpi hp' hcode rfl q hq hz
  | @waitPass c o r qs k hcode hlock halive =>
    refine h.scans hT hinv hm' (setCode_cpu_self _) rfl rfl fun p' q hpi hp' hq hz => ?_
    have hmem := h.scan c p' _ k _ hpi hp' hcode rfl q hq hz
    refine (mem_cons.mp hmem).resolve_left ?_
    rintro rfl
    exact halive hz

/-! ## Exits and waits -/

/-- The process that exits in a step, with its pid and its status. -/
def PState.exits (s : PState π κ) (a : Act π κ) (t : PState π κ) : Option (π × Int × Int) :=
  match (s.cpu a.cpu).code, (s.cpu a.cpu).proc with
  | .reparent status _ [] :: _, some p =>
    if (t.proc p).state = .zombie then some (p, (s.proc p).pid, status) else none
  | _, _ => none

/-- The process whose `wait` returns in a step with the pid and the status of a
child, and the slot of the child. -/
def PState.waits (s : PState π κ) (a : Act π κ) (t : PState π κ) : Option (π × π × Int × Int) :=
  match (s.cpu a.cpu).code, (s.cpu a.cpu).proc with
  | .waitChild q _ :: _, some p =>
    if (s.proc q).state = .zombie ∧ (t.proc q).state = .unused then
      some (p, q, (s.proc q).pid, (s.proc q).xstate)
    else none
  | _, _ => none

/-- The number of ZOMBIE slots that wait to be returned as this one. -/
def PState.zombies (s : PState π κ) (e : π × Int × Int) : Nat :=
  if (s.proc e.1).state = .zombie ∧ (s.proc e.1).pid = e.2.1 ∧ (s.proc e.1).xstate = e.2.2
  then 1 else 0

/-- A ZOMBIE stays as it is, or a `wait` returns it. -/
theorem zombie_kept (hT : Threads s) (hinv : Inv True s) (hm : Move s a t)
    (hz : (s.proc q).state = .zombie) :
    SameZombie (t.proc q) (s.proc q) ∨ (∀ c, a ≠ .step c .noCopy) ∧
      ∃ p, s.waits a t = some (p, q, (s.proc q).pid, (s.proc q).xstate) := by
  refine (zombie_of_move hinv hT.safe hm hz).imp_right ?_
  rintro ⟨hunused, ⟨c, o, p, qs, k, rfl, hcode, hp, -⟩, hcopy⟩
  exact ⟨hcopy, p, by simp [waits, Act.cpu, hcode, hp, hz, hunused]⟩

section

variable {e : π × Int × Int}

omit [DecidableEq π] [DecidableEq κ]

theorem waits_eq_some {e : π × π × Int × Int} (h : s.waits a t = some e) :
    (s.cpu a.cpu).proc = some e.1 ∧ (∃ qs, At s a (.waitChild e.2.1 qs)) ∧
      (s.proc e.2.1).state = .zombie ∧ (t.proc e.2.1).state = .unused ∧
      (s.proc e.2.1).pid = e.2.2.1 ∧ (s.proc e.2.1).xstate = e.2.2.2 := by
  unfold waits at h
  split at h
  · rename_i q qs k p hcode hp
    split_ifs at h with hq
    cases h
    exact ⟨hp, ⟨qs, k, hcode⟩, hq.1, hq.2, rfl, rfl⟩
  · cases h

theorem exits_eq_some (h : s.exits a t = some e) :
    (s.cpu a.cpu).proc = some e.1 ∧ (∃ op, At s a (.reparent e.2.2 op [])) ∧
      (t.proc e.1).state = .zombie ∧ (s.proc e.1).pid = e.2.1 := by
  unfold exits at h
  split at h
  · rename_i status op k p hcode hp
    split_ifs at h with hz
    cases h
    exact ⟨hp, ⟨op, k, hcode⟩, hz, rfl⟩
  · cases h

theorem zombies_eq_zero (h : (s.proc e.1).state ≠ .zombie) :
    s.zombies e = 0 := if_neg fun hz => h hz.1

end

omit [DecidableEq κ] in
theorem zombies_eq {e : π × Int × Int} (h : (s.proc e.1).state = .zombie) :
    s.zombies e = if (e.1, (s.proc e.1).pid, (s.proc e.1).xstate) = e then 1 else 0 := by
  obtain ⟨q, pid, status⟩ := e
  simp [zombies, h]

theorem count_toList {α : Type} [BEq α] [LawfulBEq α] [DecidableEq α] (x : Option α) (e : α) :
    x.toList.count e = if x = some e then 1 else 0 := by
  cases x with
  | none => simp
  | some y => simp [count_singleton]

/-- Each step takes from the ZOMBIE slots what a `wait` returns, and adds the
process that exits. -/
theorem zombies_of_move (hT : Threads s) (hinv : Inv True s) (hm : Move s a t) (e : π × Int × Int) :
    (s.exits a t).toList.count e + s.zombies e =
      ((s.waits a t).map Prod.snd).toList.count e + t.zombies e := by
  rw [count_toList, count_toList]
  by_cases hz : (s.proc e.1).state = .zombie
  · -- a ZOMBIE does not exit again
    have hexit : s.exits a t ≠ some e := by
      intro h
      obtain ⟨hp, ⟨op, k, hcode⟩, -⟩ := exits_eq_some h
      obtain ⟨p, hp', hrun, -⟩ := hT.running hcode rfl
      cases hp.symm.trans hp'
      rw [hz] at hrun
      cases hrun
    rw [if_neg hexit, Nat.zero_add]
    rcases zombie_kept hT hinv hm hz with ⟨hz', hpid, hx⟩ | ⟨-, p, hwait⟩
    · have hwait : (s.waits a t).map Prod.snd ≠ some e := by
        intro h
        obtain ⟨w, hw, rfl⟩ := Option.map_eq_some_iff.mp h
        have hunused := (waits_eq_some hw).2.2.2.1
        rw [hz'] at hunused
        cases hunused
      rw [if_neg hwait, Nat.zero_add, zombies, zombies, hz', hz, hpid, hx]
    · have hunused : (t.proc e.1).state = .unused := (waits_eq_some hwait).2.2.2.1
      rw [hwait, Option.map_some, zombies_eq_zero (s := t) (by simp [hunused]), zombies_eq hz]
      simp only [Option.some.injEq, Nat.add_zero]
  · have hwait : (s.waits a t).map Prod.snd ≠ some e := by
      intro h
      obtain ⟨w, hw, rfl⟩ := Option.map_eq_some_iff.mp h
      exact hz (waits_eq_some hw).2.2.1
    rw [if_neg hwait, Nat.zero_add, zombies_eq_zero hz, Nat.add_zero]
    by_cases hz' : (t.proc e.1).state = .zombie
    · obtain ⟨status, op, ⟨k, hcode⟩, hp, -, -, hx, hpid⟩ := (zombie_of_exit hm hz').resolve_left hz
      have hexit : s.exits a t = some (e.1, (s.proc e.1).pid, status) := by
        simp [exits, hcode, hp, hz']
      rw [hexit, zombies_eq hz', hpid, hx]
      simp only [Option.some.injEq]
    · have hexit : s.exits a t ≠ some e := fun h => hz' (exits_eq_some h).2.2.1
      rw [if_neg hexit, zombies_eq_zero hz']

/-! ## Whole runs -/

/-- Process `p` sleeps in `wait`. -/
def SleepsInWait (s : PState π κ) (p : π) : Prop :=
  (s.proc p).state = .sleeping ∧ ∃ k, (s.proc p).context = .waitSlept :: k

/-- What a step does to children, in a state of a run. -/
structure ReapsOwn (s : PState π κ) (a : Act π κ) (t : PState π κ) : Prop where
  /-- A `wait` returns a child of its caller. -/
  parent : ∀ p q pid status, s.waits a t = some (p, q, pid, status) →
    (s.proc q).parent = some p ∧ (s.proc q).pid = pid ∧ (s.proc q).xstate = status
  /-- A process keeps its parent until it is reaped, or until the parent exits
  and gives it to the first process. -/
  given : ∀ p q, (s.proc q).parent = some p → (t.proc q).parent = some p ∨
    (t.proc q).parent = some s.initproc ∧ (s.cpu a.cpu).proc = some p ∨
    ∃ e, s.waits a t = some (p, q, e)
  /-- A `wait` whose `copyout` fails leaves the ZOMBIE as it is. -/
  left : ∀ c q qs k, a = .step c .noCopy → (s.cpu c).code = .waitChild q qs :: k →
    (s.proc q).state = .zombie → (t.proc q).state = .zombie ∧ (t.proc q).pid = (s.proc q).pid ∧
      (t.proc q).xstate = (s.proc q).xstate ∧ (t.proc q).parent = (s.proc q).parent

theorem reapsOwn_of_move (hT : Threads s) (hinv : Inv True s) (hm : Move s a t) :
    ReapsOwn s a t where
  parent p q pid status hwait := by
    obtain ⟨hp, ⟨qs, k, hcode⟩, -, -, hpid, hx⟩ := waits_eq_some hwait
    have hchild := (hinv.code _ _ _ hcode).1.2
    exact ⟨hchild.trans hp, hpid, hx⟩
  given p q hq := by
    rcases parent_of_move hm q with heq | ⟨hunused, -⟩ | ⟨heq, status, op, qs, k, hcode⟩ |
      ⟨-, hunused, hs⟩
    · exact .inl (heq.trans hq)
    · rw [hinv.orphan q hunused] at hq
      cases hq
    · have hchild := (hinv.code _ _ _ hcode).1.2.2
      exact .inr (.inl ⟨heq, hchild.symm.trans hq⟩)
    · rcases hs with hs | hz
      · rw [hinv.orphan q hs] at hq
        cases hq
      · rcases zombie_kept hT hinv hm hz with ⟨hz', -⟩ | ⟨-, p', hwait⟩
        · rw [hunused] at hz'
          cases hz'
        · obtain ⟨hp, ⟨qs, k, hcode⟩, -⟩ := waits_eq_some hwait
          have hchild := (hinv.code _ _ _ hcode).1.2
          cases (hchild.trans hp).symm.trans hq
          exact .inr (.inr ⟨_, hwait⟩)
  left c q qs k ha hcode hz := by
    subst ha
    rcases zombie_kept hT hinv hm hz with ⟨hz', hpid, hx⟩ | ⟨hcopy, -⟩
    · refine ⟨hz', hpid, hx, ?_⟩
      rcases parent_of_move hm q with heq | ⟨hunused, -⟩ | ⟨-, status, op, qs', k', hcode'⟩ |
        ⟨-, hunused, -⟩
      · exact heq
      · rw [hz] at hunused
        cases hunused
      · rw [Act.cpu, hcode] at hcode'
        cases hcode'
      · rw [hz'] at hunused
        cases hunused
    · exact absurd rfl (hcopy c)

/-- In every run without `ksuspend`, the exits are what the `wait` calls have
returned and the ZOMBIE slots, each `wait` returns a child of its caller, a
ZOMBIE has no children, and nobody but the first process sleeps in `wait` while
a child is a ZOMBIE. -/
theorem children_reaped_once {s₀ : PState π κ} {as : List (Act π κ)} (hinit : s₀.Init)
    (hplain : ∀ a ∈ as, a.plain = true) (hrun : (processes π κ).run s₀ as = some s) :
    (∀ e, ((processes π κ).trace exits s₀ as).count e =
      (((processes π κ).trace waits s₀ as).map Prod.snd).count e + s.zombies e) ∧
    (∀ z q, (s.proc z).state = .zombie → (s.proc q).parent ≠ some z) ∧
    (∀ p q, p ≠ s.initproc → SleepsInWait s p → (s.proc q).parent = some p →
      (s.proc q).state ≠ .zombie) ∧
    ∀ a t, (processes π κ).step s a = some t → ReapsOwn s a t := by
  have hall : (∀ a ∈ as, a.plain = true) → Inv True s ∧ Threads s ∧ Family s ∧
      ∀ e, ((processes π κ).trace exits s₀ as).count e =
        (((processes π κ).trace waits s₀ as).map Prod.snd).count e + s.zombies e := by
    refine (processes π κ).run_history (P := fun as s => (∀ a ∈ as, a.plain = true) → Inv True s ∧
      Threads s ∧ Family s ∧ ∀ e, ((processes π κ).trace exits s₀ as).count e =
        (((processes π κ).trace waits s₀ as).map Prod.snd).count e + s.zombies e)
      (fun _ => ?_) (fun as u a v hu hP hstep hplain => ?_) hrun
    · refine ⟨hinit.inv, hinit.threads, hinit.family, fun e => ?_⟩
      have hz : (s₀.proc e.1).state ≠ .zombie := by
        rcases (hinit.slot e.1).1 with hst | hst <;> simp [hst]
      simp [Machine.trace, zombies_eq_zero hz]
    · obtain ⟨hinv, hT, hF, hcount⟩ := hP fun b hb => hplain b (mem_append_left _ hb)
      have ha : a.plain = true := hplain a (mem_append_right _ (mem_singleton_self a))
      have hm := (move_of_step hstep).2
      refine ⟨hinv.move (fun _ => hT.safe) hm, hT.move hinv ha hm, hF.move hT hinv hm, fun e => ?_⟩
      have hz := zombies_of_move hT hinv hm e
      have he := hcount e
      rw [(processes π κ).trace_append_singleton exits hu hstep,
        (processes π κ).trace_append_singleton waits hu hstep, map_append,
        count_append, count_append, ← Option.toList_map]
      omega
  obtain ⟨hinv, hT, hF, hcount⟩ := hall hplain
  refine ⟨hcount, hF.childless, fun p q hne hsleep => ?_, fun a t hstep => ?_⟩
  · obtain ⟨hstate, k, hctx⟩ := hsleep
    exact (hF.asleep p k hne hstate hctx).2 q
  · exact reapsOwn_of_move hT hinv (move_of_step hstep).2

/-- The first process forks, the child exits with status 7 on another CPU, and
the first process waits. -/
def forkExitWait : List (Act (Fin NPROC) (Fin NCPU)) :=
  [.step cpu0 .ok, .step cpu0 .ok, .step cpu0 .ok,
    .call cpu0 .fork, .step cpu0 .ok, .step cpu0 .ok,
    .step cpu1 .ok, .step cpu1 .ok, .step cpu1 .ok, .step cpu1 .ok,
    .call cpu1 (.exit 7), .ret cpu1] ++
  List.replicate (4 + NPROC + 1) (.step cpu1 .ok) ++
  [.step cpu1 .ok, .call cpu0 .wait, .step cpu0 .ok, .step cpu0 .ok, .step cpu0 .ok, .step cpu0 .ok]

/-- The child exits once, its `wait` returns it once, and no ZOMBIE is left. -/
theorem reaped_of_forkExitWait : ∃ s,
    (processes (Fin NPROC) (Fin NCPU)).run booted forkExitWait = some s ∧
    (processes (Fin NPROC) (Fin NCPU)).trace exits booted forkExitWait = [(slot1, 2, 7)] ∧
    (processes (Fin NPROC) (Fin NCPU)).trace waits booted forkExitWait =
      [(booted.initproc, slot1, 2, 7)] ∧ ∀ e, s.zombies e = 0 := by
  have hexits : (processes (Fin NPROC) (Fin NCPU)).trace exits booted forkExitWait =
      [(slot1, 2, 7)] := by decide +kernel
  have hwaits : (processes (Fin NPROC) (Fin NCPU)).trace waits booted forkExitWait =
      [(booted.initproc, slot1, 2, 7)] := by decide +kernel
  have hruns : ((processes (Fin NPROC) (Fin NCPU)).run booted forkExitWait).isSome = true := by
    decide +kernel
  obtain ⟨s, hrun⟩ := Option.isSome_iff_exists.mp hruns
  refine ⟨s, hrun, hexits, hwaits, fun e => ?_⟩
  have hcount := (children_reaped_once booted_init (by decide +kernel) hrun).1 e
  rw [hexits, hwaits, map_singleton] at hcount
  exact (Nat.left_eq_add.mp hcount)

end SummerOsk.Sched
