import SummerOsk.Sched.OneCpu

/-!
# The stacks of processes and schedulers

A CPU without a process runs its scheduler, and one with a process runs that
process or the end of its `swtch` back to the scheduler.  `Threads` says which
frames the stacks of the two can have when nobody calls `ksuspend`, and what a
process that is in `exit` knows: it is not the first process, and the parent
that it read is still its parent, or it was given to the first process since.

`parent_of_move` and `zombie_of_exit` are the two inversions that the family
relations need: who writes `parent`, and who becomes a ZOMBIE.  `SlotMove` says
what a step can do to the state, the context, the channel and the stamp of one
slot.
-/

namespace SummerOsk.Sched

open List PState

variable {π κ : Type} {s t : PState π κ} {a : Act π κ} {c : κ} {p q : π} {k : List (Frame π)}
  {f : Frame π}

/-! ## The stacks -/

/-- The frames of a scheduler that looks for work. -/
def Frame.idle : Frame π → Bool
  | .scheduler _ | .wakeup _ _ _ | .handler => true
  | _ => false

/-- The frames of a process alone. -/
def Frame.task : Frame π → Bool
  | .scheduler _ | .switched _ | .wakeup _ _ _ | .handler => false
  | _ => true

theorem idle_of_task (h : f.task) : f.idle = false := by
  cases f <;> first | rfl | cases h

/-- The stack of a scheduler. -/
def Idle (k : List (Frame π)) : Prop :=
  (∀ f ∈ k, f.idle = true) ∧ ∃ qs, .scheduler qs ∈ k

/-- What a frame on the stack of process `p` says about `p`. -/
def Good (s : PState π κ) (p : π) : Frame π → Prop
  | .scheduler _ | .switched _ | .suspend _ _ => False
  | .exitWake _ | .exitParent _ => p ≠ s.initproc
  | .exitLockParent _ op =>
    p ≠ s.initproc ∧ ((s.proc p).parent = op ∨ (s.proc p).parent = some s.initproc)
  | .exitLockSelf _ op | .reparent _ op _ | .reparentChild _ op _ _ =>
    p ≠ s.initproc ∧ ((s.proc p).parent = some op ∨ (s.proc p).parent = some s.initproc)
  | _ => True

structure Threads (s : PState π κ) : Prop where
  idle : ∀ c, (s.cpu c).proc = none → Idle (s.cpu c).code
  saved : ∀ c p, (s.cpu c).proc = some p →
    ∃ k, (s.cpu c).scheduler = .switched p :: k ∧ Idle k
  thread : ∀ c p, (s.cpu c).proc = some p → (s.cpu c).code = (s.cpu c).scheduler ∨
    (s.proc p).state = .running ∧ ∀ f ∈ (s.cpu c).code, Good s p f
  context : ∀ p, (s.proc p).state ≠ .unused → ∀ f ∈ (s.proc p).context, Good s p f

theorem Good.mono (hinit : t.initproc = s.initproc)
    (hparent : (t.proc p).parent = (s.proc p).parent ∨ (t.proc p).parent = some s.initproc)
    (h : Good s p f) : Good t p f := by
  have hop : ∀ {op : Option π},
      (s.proc p).parent = op ∨ (s.proc p).parent = some s.initproc →
      (t.proc p).parent = op ∨ (t.proc p).parent = some s.initproc := by
    intro op hs
    rcases hparent with heq | heq
    · rwa [heq]
    · exact .inr heq
  cases f with
  | scheduler | switched | suspend => exact h
  | exitWake | exitParent =>
    change p ≠ t.initproc
    rw [hinit]
    exact h
  | exitLockParent status op =>
    change p ≠ t.initproc ∧ _
    rw [hinit]
    exact ⟨h.1, hop h.2⟩
  | exitLockSelf | reparent | reparentChild =>
    change p ≠ t.initproc ∧ _
    rw [hinit]
    exact ⟨h.1, hop h.2⟩
  | busy | handler | yielded | forkret | sleepLock | sleepRelease | sleepSched | slept | relock
  | exited | zeroed | wakeup | kill | fork | waitLock | waitScan | waitChild | waitSlept =>
    trivial

/-- A stack that starts with a frame of a process is the stack of a process that
is RUNNING. -/
theorem Threads.running (h : Threads s) (hcode : (s.cpu c).code = f :: k) (hf : f.task) :
    ∃ p, (s.cpu c).proc = some p ∧ (s.proc p).state = .running ∧ ∀ g ∈ f :: k, Good s p g := by
  cases hp : (s.cpu c).proc with
  | none =>
    have hidle := (h.idle c hp).1 f (by rw [hcode]; exact mem_cons_self)
    rw [idle_of_task hf] at hidle
    cases hidle
  | some p =>
    rcases h.thread c p hp with heq | ⟨hrun, hgood⟩
    · obtain ⟨k', hk', -⟩ := h.saved c p hp
      rw [hcode, hk'] at heq
      cases heq
      cases hf
    · rw [hcode] at hgood
      exact ⟨p, rfl, hrun, hgood⟩

/-- A CPU in user code runs a process. -/
theorem Threads.user (h : Threads s) (hcode : (s.cpu c).code = []) :
    ∃ p, (s.cpu c).proc = some p ∧ (s.proc p).state = .running := by
  cases hp : (s.cpu c).proc with
  | none =>
    obtain ⟨qs, hqs⟩ := (h.idle c hp).2
    rw [hcode] at hqs
    cases hqs
  | some p =>
    rcases h.thread c p hp with heq | ⟨hrun, -⟩
    · obtain ⟨k', hk', -⟩ := h.saved c p hp
      rw [hcode, hk'] at heq
      cases heq
    · exact ⟨p, rfl, hrun⟩

theorem Threads.safe (h : Threads s) : Safe s a := by
  unfold Safe
  split
  · split
    · rename_i hcode
      obtain ⟨p, -, -, hgood⟩ := h.running hcode rfl
      exact (hgood _ mem_cons_self).elim
    · trivial
  · trivial

variable [DecidableEq π] [DecidableEq κ] {x : Proc π κ} {o : Outcome} {r : π} {n : Int}

/-! ## Who writes what -/

theorem initproc_of_move (hm : Move s a t) : t.initproc = s.initproc := by
  cases hm <;> rfl

/-- The CPU of a step, when its code starts with `f`. -/
def At (s : PState π κ) (a : Act π κ) (f : Frame π) : Prop :=
  ∃ k, (s.cpu a.cpu).code = f :: k

/-- Who writes `parent`: `fork` in a slot that was UNUSED, `reparent`, and
`freeproc`. -/
theorem parent_of_move (hm : Move s a t) (q : π) :
    (t.proc q).parent = (s.proc q).parent ∨
    ((s.proc q).state = .unused ∧ (t.proc q).state = .runnable ∧
      (t.proc q).context = [.forkret] ∧ (t.proc q).parent = (s.cpu a.cpu).proc ∧
      ∃ qs, At s a (.fork (q :: qs))) ∨
    ((t.proc q).parent = some s.initproc ∧ ∃ status op qs, At s a (.reparentChild status op q qs)) ∨
    ((t.proc q).parent = none ∧ (t.proc q).state = .unused ∧
      ((s.proc q).state = .unused ∨ (s.proc q).state = .zombie)) := by
  have hset : ∀ {r : π} {x : Proc π κ}, x.parent = (s.proc r).parent →
      ((s.setProc r x).proc q).parent = (s.proc q).parent := by
    intro r x hx
    rw [setProc_proc]
    split_ifs with hq
    · rw [hq, hx]
    · rfl
  cases hm with
  | panic | stay | goto | spin | wakeup | reparentSkip | reparentTest | waitSkip | waitTest
  | waitPass => exact .inl rfl
  | pick | switched | resume | yield | sleepLock | sleepRelease | sleepSched | slept
  | exitLockParent | exitLockSelf | waitLock | waitNone | waitSleep | waitSlept =>
    exact .inl (hset rfl)
  | @visit c o r x k n hlock hvisit =>
    cases hvisit with
    | pass | wakeup | kill | suspend | exitWake => exact .inl (hset rfl)
    | @fork p qs k hcode hp hunused =>
      rcases eq_or_ne q r with rfl | hq
      · cases o with
        | noTrapframe => exact .inl (hset (by simp [forkInto]))
        | noCopy => exact .inr (.inr (.inr ⟨by simp [forkInto, PState.freeproc],
            by simp [forkInto, PState.freeproc], .inl hunused⟩))
        | ok =>
          refine .inr (.inl ⟨hunused, by simp [forkInto], by simp [forkInto],
            ?_, qs, k, hcode⟩)
          simpa [forkInto, Act.cpu] using hp.symm
      · simp [hq]
  | @reparent c o status op r qs k hcode hlock =>
    rcases eq_or_ne q r with rfl | hq
    · exact .inr (.inr (.inl ⟨by simp, status, op, qs, k, hcode⟩))
    · simp [hq]
  | exit hcode hp hne =>
    left
    rw [setCode_proc, setProc_proc]
    split_ifs with hq
    · rw [hq]
    · exact hset rfl
  | @waitReap c o p r qs k hcode hp hlock hzombie hne =>
    rw [setCode_proc, setProc_proc]
    by_cases hqp : q = p
    · simp [hqp]
    · rw [if_neg hqp, setProc_proc]
      rcases eq_or_ne q r with rfl | hq
      · by_cases ho : o = .noCopy
        · simp [ho]
        · refine .inr (.inr (.inr ⟨?_, ?_, .inr hzombie⟩)) <;>
            simp [ho, PState.freeproc]
      · simp [hq]

/-- A slot becomes a ZOMBIE in the `exit` of its own process. -/
theorem zombie_of_exit (hm : Move s a t) (hzombie : (t.proc q).state = .zombie) :
    (s.proc q).state = .zombie ∨
    ∃ status op, At s a (.reparent status op []) ∧ (s.cpu a.cpu).proc = some q ∧ q ≠ op ∧
      (t.proc op).state = s.woken1 op ∧ (t.proc q).xstate = status ∧
      (t.proc q).pid = (s.proc q).pid := by
  have hset : ∀ {r : π} {x : Proc π κ}, ((s.setProc r x).proc q).state = .zombie →
      (x.state = .zombie → (s.proc r).state = .zombie) → (s.proc q).state = .zombie := by
    intro r x h hx
    rw [setProc_proc] at h
    split_ifs at h with hq
    · rw [hq]
      exact hx h
    · exact h
  have hite : ∀ {P : Prop} [Decidable P] {st : ProcState},
      (if P then .runnable else st) = ProcState.zombie → st = .zombie := by
    intro P _ st h
    split_ifs at h
    exact h
  cases hm with
  | panic | stay | goto | spin | wakeup | reparentSkip | reparentTest | waitSkip | waitTest
  | waitPass => exact .inl hzombie
  | switched | resume | sleepLock | sleepRelease | slept | exitLockParent | exitLockSelf
  | reparent | waitLock | waitNone | waitSlept => exact .inl (hset hzombie fun h => h)
  | pick | yield | sleepSched | waitSleep =>
    exact .inl (hset hzombie fun h => by cases h)
  | @visit c o r x k n hlock hvisit =>
    refine .inl (hset hzombie ?_)
    cases hvisit with
    | pass => exact fun h => h
    | wakeup | kill | exitWake => exact hite
    | suspend =>
      intro h
      cases h
    | fork hcode hp hunused =>
      intro h
      cases o <;> simp [forkInto, PState.freeproc, hunused] at h
  | @exit c o status op p k hcode hp hne =>
    rw [setCode_proc, setProc_proc] at hzombie
    split_ifs at hzombie with hq
    · subst hq
      refine .inr ⟨status, op, ⟨k, hcode⟩, hp, hne, ?_, ?_, ?_⟩
      · simp [hne.symm]
      · simp
      · simp
    · exact .inl (hset hzombie fun h => hite h)
  | @waitReap c o p r qs k hcode hp hlock hz hne =>
    rw [setCode_proc, setProc_proc] at hzombie
    rcases eq_or_ne q p with rfl | hq
    · rw [if_pos rfl] at hzombie
      exact .inl hzombie
    · rw [if_neg hq] at hzombie
      exact .inl (hset hzombie fun _ => hz)

/-! ## The step lemma -/

/-- A process keeps its parent, or gets the first process. -/
theorem parent_in_use (hm : Move s a t) (hs : (s.proc p).state ≠ .unused)
    (ht : (t.proc p).state ≠ .unused) :
    (t.proc p).parent = (s.proc p).parent ∨ (t.proc p).parent = some s.initproc := by
  rcases parent_of_move hm p with h | ⟨h, -⟩ | ⟨h, -⟩ | ⟨-, h, -⟩
  · exact .inl h
  · exact absurd h hs
  · exact .inr h
  · exact absurd h ht

/-- A context that a step leaves behind is the old one or a good one. -/
def Keep (s t : PState π κ) (p : π) : Prop :=
  (t.proc p).state ≠ .unused →
    (s.proc p).state ≠ .unused ∧ (t.proc p).context = (s.proc p).context ∨
      ∀ f ∈ (t.proc p).context, Good t p f

omit [DecidableEq κ] in
theorem keep_setProc (hproc : t.proc = (s.setProc r x).proc)
    (hx : x.state ≠ .unused → (s.proc r).state ≠ .unused ∧ x.context = (s.proc r).context ∨
      ∀ f ∈ x.context, Good t r f) (p : π) : Keep s t p := by
  unfold Keep
  rw [hproc, setProc_proc]
  split_ifs with hp
  · subst hp
    exact hx
  · exact fun hp => .inl ⟨hp, rfl⟩

/-- Slot `p` keeps its state and its context. -/
def Same (s t : PState π κ) (p : π) : Prop :=
  (t.proc p).state = (s.proc p).state ∧ (t.proc p).context = (s.proc p).context

omit [DecidableEq κ] in
theorem same_setProc (hproc : t.proc = (s.setProc r x).proc) (hstate : x.state = (s.proc r).state)
    (hctx : x.context = (s.proc r).context) (p : π) : Same s t p := by
  unfold Same
  rw [hproc, setProc_proc]
  split_ifs with hp
  · subst hp
    exact ⟨hstate, hctx⟩
  · exact ⟨rfl, rfl⟩

section Step

variable (h : Threads s) (hinv : Inv True s) (hm : Move s a t) {d : Nat} {l : List (Frame π)}
include h hinv hm

/-- It is enough to look at the CPU that takes the step and at the contexts. -/
theorem Threads.of_parts (hidle : (t.cpu a.cpu).proc = none → Idle (t.cpu a.cpu).code)
    (hsaved : ∀ p, (t.cpu a.cpu).proc = some p →
      ∃ k, (t.cpu a.cpu).scheduler = .switched p :: k ∧ Idle k)
    (hthread : ∀ p, (t.cpu a.cpu).proc = some p →
      (t.cpu a.cpu).code = (t.cpu a.cpu).scheduler ∨
      (t.proc p).state = .running ∧ ∀ f ∈ (t.cpu a.cpu).code, Good t p f)
    (hctx : ∀ p, Keep s t p) : Threads t := by
  have ho := others_of_move hinv (fun _ => h.safe) hm
  have hinit := initproc_of_move hm
  refine ⟨fun c hp => ?_, fun c p hp => ?_, fun c p hp => ?_, fun p hp f hf => ?_⟩
  · rcases eq_or_ne c a.cpu with rfl | hc
    · exact hidle hp
    · rw [ho.cpu c hc] at hp ⊢
      exact h.idle c hp
  · rcases eq_or_ne c a.cpu with rfl | hc
    · exact hsaved p hp
    · rw [ho.cpu c hc] at hp ⊢
      exact h.saved c p hp
  · rcases eq_or_ne c a.cpu with rfl | hc
    · exact hthread p hp
    · rw [ho.cpu c hc] at hp ⊢
      refine (h.thread c p hp).imp_right fun ⟨hrun, hgood⟩ => ?_
      have hrun' : (t.proc p).state = .running :=
        ho.running trivial hrun fun hp' => hc (hinv.one trivial c a.cpu p hp hp')
      refine ⟨hrun', fun f hf => (hgood f hf).mono hinit (parent_in_use hm ?_ ?_)⟩
      · simp [hrun]
      · simp [hrun']
  · rcases hctx p hp with ⟨hs, heq⟩ | hgood
    · rw [heq] at hf
      exact (h.context p hs f hf).mono hinit (parent_in_use hm hs hp)
    · exact hgood f hf

/-- A step that replaces the first frame. -/
theorem Threads.recode (hcode : (s.cpu a.cpu).code = f :: k) (hf : ∀ q, f ≠ .switched q)
    (hcpu : t.cpu a.cpu =
    { s.cpu a.cpu with code := l ++ k, depth := d })
    (hidle : f.idle = true → ∀ g ∈ l, g.idle = true)
    (hsched : ∀ qs, f = .scheduler qs → ∃ qs, .scheduler qs ∈ l)
    (hrun : ∀ p, (s.cpu a.cpu).proc = some p → (s.proc p).state = .running →
      (t.proc p).state = .running)
    (hgood : ∀ p, (s.cpu a.cpu).proc = some p → Good s p f → ∀ g ∈ l, Good s p g)
    (hctx : ∀ p, Keep s t p) : Threads t := by
  have hinit := initproc_of_move hm
  refine h.of_parts hinv hm (fun hp => ?_) (fun p hp => ?_) (fun p hp => .inr ?_) hctx
  · rw [hcpu] at hp ⊢
    obtain ⟨hall, qs, hqs⟩ := h.idle a.cpu hp
    rw [hcode] at hall hqs
    refine ⟨fun g hg => ?_, ?_⟩
    · rcases mem_append.mp hg with hg | hg
      · exact hidle (hall f mem_cons_self) g hg
      · exact hall g (mem_cons_of_mem _ hg)
    · rcases mem_cons.mp hqs with heq | hmem
      · obtain ⟨qs', hqs'⟩ := hsched qs heq.symm
        exact ⟨qs', mem_append_left _ hqs'⟩
      · exact ⟨qs, mem_append_right _ hmem⟩
  · rw [hcpu] at hp ⊢
    exact h.saved a.cpu p hp
  · rw [hcpu] at hp ⊢
    rcases h.thread a.cpu p hp with heq | ⟨hstate, hall⟩
    · obtain ⟨k', hk', -⟩ := h.saved a.cpu p hp
      rw [hcode, hk'] at heq
      cases heq
      exact absurd rfl (hf p)
    · have hstate' := hrun p hp hstate
      rw [hcode] at hall
      have hg : ∀ g ∈ l ++ k, Good s p g := by
        intro g hg
        rcases mem_append.mp hg with hg | hg
        · exact hgood p hp (hall f mem_cons_self) g hg
        · exact hall g (mem_cons_of_mem _ hg)
      refine ⟨hstate', fun g hmem => (hg g hmem).mono hinit (parent_in_use hm ?_ ?_)⟩
      · simp [hstate]
      · simp [hstate']

/-- A process goes on with other frames, and no slot changes its state or its
context. -/
theorem Threads.advance (hcode : (s.cpu a.cpu).code = f :: k) (hf : f.task)
    (hcpu : t.cpu a.cpu = { s.cpu a.cpu with code := l ++ k, depth := d })
    (hgood : ∀ p, (s.cpu a.cpu).proc = some p → Good s p f → ∀ g ∈ l, Good s p g)
    (hsame : ∀ p, Same s t p) : Threads t := by
  refine h.recode hinv hm hcode ?_ hcpu (fun hidle => ?_) ?_ (fun p _ hrun => ?_)
    hgood fun p hp => .inl ⟨?_, (hsame p).2⟩
  · rintro q rfl
    cases hf
  · rw [idle_of_task hf] at hidle
    cases hidle
  · rintro qs rfl
    cases hf
  · exact (hsame p).1.trans hrun
  · rwa [← (hsame p).1]

/-- A process goes on with frame `g`. -/
theorem Threads.next {g : Frame π} (hcode : (s.cpu a.cpu).code = f :: k) (hf : f.task)
    (hcpu : t.cpu a.cpu = { s.cpu a.cpu with code := g :: k, depth := d })
    (hgood : ∀ p, (s.cpu a.cpu).proc = some p → Good s p f → Good s p g)
    (hsame : ∀ p, Same s t p) : Threads t :=
  h.advance hinv hm (l := [g]) hcode hf hcpu
    (fun p hp hg => forall_mem_singleton.mpr (hgood p hp hg)) hsame

/-- A step from user code into the kernel. -/
theorem Threads.enter (hcode : (s.cpu a.cpu).code = []) (ht : t = s.setCode a.cpu k)
    (hgood : ∀ p, (s.cpu a.cpu).proc = some p → ∀ g ∈ k, Good s p g) : Threads t := by
  have hcpu : t.cpu a.cpu = { s.cpu a.cpu with code := k } := by
    rw [ht, setCode_cpu_self]
  obtain ⟨p, hp, hrun⟩ := h.user hcode
  refine h.of_parts hinv hm (fun hp' => ?_) (fun p' hp' => ?_) (fun p' hp' => .inr ?_) ?_
  · rw [hcpu] at hp'
    cases hp.symm.trans hp'
  · rw [hcpu] at hp' ⊢
    exact h.saved a.cpu p' hp'
  · rw [hcpu] at hp' ⊢
    cases hp.symm.trans hp'
    subst ht
    exact ⟨hrun, hgood p hp⟩
  · intro p' hp'
    subst ht
    exact .inl ⟨hp', rfl⟩

/-- The process of the CPU gives it up. -/
theorem Threads.leave (hp : (s.cpu a.cpu).proc = some p)
    (hcpu : t.cpu a.cpu = { s.cpu a.cpu with code := (s.cpu a.cpu).scheduler })
    (hrun : (s.proc p).state = .running)
    (ht : (t.proc p).state ≠ .unused) (hctx : (t.proc p).context = f :: k) (hf : Good t p f)
    (hk : ∀ g ∈ k, Good s p g)
    (hother : ∀ q, q ≠ p → (t.proc q).context = (s.proc q).context ∧
      ((t.proc q).state ≠ .unused → (s.proc q).state ≠ .unused)) : Threads t := by
  refine h.of_parts hinv hm (fun hp' => ?_) (fun p' hp' => ?_) (fun p' hp' => .inl ?_)
    fun q hq => ?_
  · rw [hcpu] at hp'
    cases hp.symm.trans hp'
  · rw [hcpu] at hp' ⊢
    exact h.saved a.cpu p' hp'
  · rw [hcpu]
  · rcases eq_or_ne q p with rfl | hqp
    · refine .inr fun g hg => ?_
      rw [hctx] at hg
      rcases mem_cons.mp hg with rfl | hg
      · exact hf
      · refine (hk g hg).mono (initproc_of_move hm) (parent_in_use hm ?_ ht)
        simp [hrun]
    · obtain ⟨hsame, hused⟩ := hother q hqp
      exact .inl ⟨hused hq, hsame⟩

end Step

/-- Nobody calls `ksuspend`. -/
def Act.plain : Act π κ → Bool
  | .call _ (.suspend _) => false
  | _ => true

theorem Threads.goto (h : Threads s) (hinv : Inv True s) (hplain : a.plain)
    (hgoto : Goto s c a k) (hc : a.cpu = c) : Threads (s.setCode c k) := by
  have hm : Move s a (s.setCode c k) := .goto hgoto
  have hkeep : ∀ p, Keep s (s.setCode c k) p := fun p hp => .inl ⟨hp, rfl⟩
  -- the frame in front changes to the frames `l`
  have hswap : ∀ {f : Frame π} {k' l : List (Frame π)}, (s.cpu c).code = f :: k' →
      k = l ++ k' → (∀ q, f ≠ .switched q) → (f.idle = true → ∀ g ∈ l, g.idle = true) →
      (∀ qs, f = .scheduler qs → ∃ qs, .scheduler qs ∈ l) →
      (∀ p, Good s p f → ∀ g ∈ l, Good s p g) → Threads (s.setCode c k) := by
    intro f k' l hcode hk hf hidle hsched hgood
    subst hc
    refine h.recode hinv hm (d := (s.cpu a.cpu).depth) hcode hf ?_ hidle hsched
      (fun _ _ hrun => hrun) (fun p _ => hgood p) hkeep
    rw [setCode_cpu_self, hk]
  have henter : (s.cpu c).code = [] →
      (∀ p, (s.cpu c).proc = some p → ∀ g ∈ k, Good s p g) → Threads (s.setCode c k) := by
    intro hcode hgood
    subst hc
    exact h.enter hinv hm hcode rfl hgood
  cases hgoto with
  | rescan hcode =>
    refine hswap hcode (l := [.scheduler s.table]) rfl (fun q hq => by cases hq)
      (fun _ => by simp [Frame.idle]) (fun _ _ => ⟨s.table, by simp⟩) fun p hgood => hgood.elim
  | loopEnd hcode hf =>
    refine hswap hcode (l := []) rfl (fun q hq => ?_) (fun _ => by simp) (fun qs hqs => ?_)
      fun _ _ g hg => by cases hg
    · subst hq
      cases hf
    · subst hqs
      cases hf
  | fork hcode | wait hcode | kill hcode | other hcode =>
    exact henter hcode fun p _ => by simp [Good]
  | suspend hcode => cases hplain
  | exit hcode ha hp hne =>
    refine henter hcode fun p hp' => ?_
    cases hp.symm.trans hp'
    simp [Good, hne]
  | ret hcode hf =>
    rcases hf with rfl | rfl <;>
      exact hswap hcode (l := []) rfl (fun q hq => by cases hq) (fun _ => by simp)
        (fun qs hqs => by cases hqs) fun _ _ g hg => by cases hg
  | @sleep ch lk k hcode =>
    refine hswap hcode (l := [.sleepLock ch lk, .busy]) rfl (fun q hq => by cases hq)
      (fun hidle => by cases hidle) (fun qs hqs => by cases hqs) fun p _ => by simp [Good]
  | interrupt hoff =>
    have hquiet := hinv.quiet_of_noff hoff
    rcases hcode : (s.cpu c).code with _ | ⟨f, k⟩
    · rw [← hcode]
      exact henter hcode fun p _ => by simp [hcode, Good]
    · rw [hcode] at hquiet
      rw [← hcode]
      refine hswap hcode (l := [.handler, f]) (by rw [hcode]; rfl) (fun q hq => ?_)
        (fun hidle => forall_mem_cons.mpr ⟨rfl, forall_mem_singleton.mpr hidle⟩)
        (fun qs hqs => ⟨qs, by simp [hqs]⟩)
        fun p hgood => forall_mem_cons.mpr ⟨trivial, forall_mem_singleton.mpr hgood⟩
      subst hq
      have hf := hquiet _ mem_cons_self
      cases hf

theorem Threads.visit (h : Threads s) (hinv : Inv True s) (hlock : (s.proc q).lock = none)
    (hvisit : Visit s c q o x k n) : Threads { (s.setProc q x).setCode c k with nextpid := n } := by
  have hm : Move s (.step c o) { (s.setProc q x).setCode c k with nextpid := n } :=
    .visit hlock hvisit
  have hcpu : (setCode (s.setProc q x) c k).cpu c = { s.cpu c with code := k } :=
    setCode_cpu_self k
  have hrun : ∀ p, (s.cpu c).proc = some p → (s.proc p).state = .running →
      ((s.setProc q x).proc p).state = .running := by
    intro p _ hrun
    rw [setProc_proc]
    split_ifs with hp
    · subst hp
      exact running_of_visit h.safe hvisit hrun
    · exact hrun
  -- a slot that is not taken by `fork` keeps its context
  have hkeep : x.context = (s.proc q).context →
      (x.state ≠ .unused → (s.proc q).state ≠ .unused) →
      ∀ p, Keep s { (s.setProc q x).setCode c k with nextpid := n } p :=
    fun hctx hused => keep_setProc rfl fun hx => .inl ⟨hused hx, hctx⟩
  have hused : ∀ {P : Prop} [Decidable P], (P → (s.proc q).state ≠ .unused) →
      (if P then .runnable else (s.proc q).state) ≠ ProcState.unused →
      (s.proc q).state ≠ .unused := by
    intro P _ hP hne
    split_ifs at hne with hif
    · exact hP hif
    · exact hne
  cases hvisit with
  | @pass f f' k hcode hf =>
    have hsame : ∀ p, Same s { (s.setProc q (s.proc q)).setCode c (f' :: k) with
        nextpid := s.nextpid } p := same_setProc rfl rfl rfl
    rcases hf with ⟨qs, rfl, rfl⟩ | ⟨pid, qs, rfl, rfl⟩ | ⟨pid, qs, rfl, rfl⟩ | ⟨qs, rfl, rfl⟩ |
      ⟨status, rfl, hq, rfl⟩
    · exact h.recode hinv hm (l := [.scheduler qs]) hcode (fun q hq => by cases hq) hcpu
        (fun _ => by simp [Frame.idle]) (fun _ _ => ⟨qs, by simp⟩) hrun
        (fun p _ hg => hg.elim) (hkeep rfl fun hx => hx)
    · exact h.next hinv hm hcode rfl hcpu (fun _ _ _ => trivial) hsame
    · exact h.next hinv hm hcode rfl hcpu (fun _ _ hg => hg) hsame
    · exact h.next hinv hm hcode rfl hcpu (fun _ _ _ => trivial) hsame
    · refine h.next hinv hm hcode rfl hcpu (fun p hp hg => ?_) hsame
      cases hq.symm.trans hp
      exact ⟨hg, .inl rfl⟩
  | @wakeup ch qs n k hcode =>
    refine h.recode hinv hm (l := [.wakeup ch qs n]) hcode (fun q hq => by cases hq) hcpu
      (fun _ => by simp [Frame.idle]) (fun _ hq => by cases hq) hrun (fun p _ _ => by simp [Good])
      (hkeep rfl (hused fun hs => by simp [hs.1]))
  | kill hcode =>
    refine h.recode hinv hm (l := []) hcode (fun q hq => by cases hq) hcpu
      (fun _ => by simp) (fun _ hq => by cases hq) hrun (fun p _ _ => by simp)
      (hkeep rfl (hused fun hs => by rcases hs with hs | hs <;> simp [hs]))
  | suspend hcode =>
    obtain ⟨p, -, -, hgood⟩ := h.running hcode rfl
    exact (hgood _ mem_cons_self).elim
  | @fork p qs k hcode hp hunused =>
    refine h.recode hinv hm (l := []) hcode (fun q hq => by cases hq) hcpu
      (fun _ => by simp) (fun _ hq => by cases hq) hrun (fun p _ _ => by simp)
      (keep_setProc rfl fun hx => .inr ?_)
    cases o with
    | noTrapframe => simp [forkInto, hunused] at hx
    | noCopy => simp [forkInto, PState.freeproc] at hx
    | ok => simp [forkInto, Good]
  | @exitWake status k hcode hq =>
    refine h.recode hinv hm (l := [.exitParent status]) hcode (fun q hq => by cases hq) hcpu
      (fun hi => by cases hi) (fun _ hq => by cases hq) hrun
      (fun p _ hg => forall_mem_singleton.mpr hg)
      (hkeep rfl (hused fun hs => by simp [hs.2]))

theorem Threads.pick {qs : List π} (h : Threads s)
    (hinv : Inv True s) (hcode : (s.cpu c).code = .scheduler (q :: qs) :: k)
    (hstate : (s.proc q).state = .runnable)
    (hm : Move s (.step c o)
      ((s.setProc q { s.proc q with lock := some c, state := .running }).setCpu c
        { s.cpu c with
          proc := some q, scheduler := .switched q :: .scheduler qs :: k
          code := (s.proc q).context })) :
    Threads ((s.setProc q { s.proc q with lock := some c, state := .running }).setCpu c
      { s.cpu c with
        proc := some q, scheduler := .switched q :: .scheduler qs :: k
        code := (s.proc q).context }) := by
  have hidle : Idle (.scheduler (q :: qs) :: k) := by
    cases hp : (s.cpu c).proc with
    | none =>
      rw [← hcode]
      exact h.idle c hp
    | some p =>
      rcases h.thread c p hp with heq | ⟨-, hgood⟩
      · obtain ⟨k', hk', -⟩ := h.saved c p hp
        rw [hcode, hk'] at heq
        cases heq
      · exact (hgood (.scheduler (q :: qs)) (by rw [hcode]; exact mem_cons_self)).elim
  refine h.of_parts hinv hm (fun hp => ?_) (fun p hp => ?_) (fun p hp => .inr ?_)
    (keep_setProc rfl fun _ => .inl ⟨by simp [hstate], rfl⟩)
  · simp [Act.cpu] at hp
  · simp only [Act.cpu, setCpu_cpu, if_true, Option.some.injEq] at hp ⊢
    subst hp
    refine ⟨_, rfl, ?_, qs, mem_cons_self⟩
    intro f hf
    rcases mem_cons.mp hf with rfl | hf
    · rfl
    · exact hidle.1 f (mem_cons_of_mem _ hf)
  · simp only [Act.cpu, setCpu_cpu, if_true, Option.some.injEq] at hp ⊢
    subst hp
    have hgood : ∀ f ∈ (s.proc q).context, Good s q f := h.context q (by simp [hstate])
    have hused : (s.proc q).state ≠ .unused := by simp [hstate]
    refine ⟨by simp, fun f hf => (hgood f hf).mono (initproc_of_move hm) ?_⟩
    exact parent_in_use hm hused (by simp)

theorem Threads.move (h : Threads s) (hinv : Inv True s) (hplain : a.plain)
    (hm : Move s a t) : Threads t := by
  have hm' := hm
  cases hm with
  | panic => exact ⟨h.idle, h.saved, h.thread, h.context⟩
  | stay => exact h
  | goto hgoto => exact h.goto hinv hplain hgoto hgoto.cpu
  | @spin a c lk x k d hspin =>
    cases hspin with
    | @acquire lk f k hcode hf | @release lk f k hcode hf =>
      refine h.recode hinv hm' (l := [f]) (d := d) hcode ?_ (by simp [setSpin, Act.cpu])
        (fun hi => forall_mem_singleton.mpr hi) (fun qs hqs => ⟨qs, by simp [hqs]⟩)
        (fun _ _ hrun => hrun) (fun p _ hg => forall_mem_singleton.mpr hg)
        fun p hp => .inl ⟨hp, rfl⟩
      rcases hf with rfl | rfl <;> exact fun q hq => by cases hq
    | relock hcode =>
      exact h.advance hinv hm' (l := []) (d := d) hcode rfl
        (by simp [setSpin, Act.cpu]) (by simp) fun _ => ⟨rfl, rfl⟩
  | @wakeup c ch f k hcode hf =>
    refine h.recode hinv hm' (l := [.wakeup ch s.table s.clock, f]) hcode ?_
      (setCode_cpu_self _)
      (fun hi => forall_mem_cons.mpr ⟨rfl, forall_mem_singleton.mpr hi⟩)
      (fun qs hqs => ⟨qs, by simp [hqs]⟩) (fun _ _ hrun => hrun)
      (fun p _ hg => forall_mem_cons.mpr ⟨trivial, forall_mem_singleton.mpr hg⟩)
      fun p hp => .inl ⟨hp, rfl⟩
    rcases hf with rfl | rfl <;> exact fun q hq => by cases hq
  | visit hlock hvisit => exact h.visit hinv hlock hvisit
  | pick hcode hlock hstate => exact h.pick hinv hcode hstate hm'
  | @switched c o q k hcode hlock =>
    have hp : (s.cpu c).proc = some q := (hinv.code c _ _ hcode).1.1
    obtain ⟨k', hk', hidle⟩ := h.saved c q hp
    refine h.of_parts hinv hm' (fun _ => ?_) (fun p hp => ?_) (fun p hp => ?_)
      (keep_setProc rfl fun hx => .inl ⟨hx, rfl⟩)
    · simp only [Act.cpu, setCpu_cpu, if_true]
      rcases h.thread c q hp with heq | ⟨-, hgood⟩
      · rw [hcode, hk'] at heq
        cases heq
        exact hidle
      · exact (hgood (.switched q) (by rw [hcode]; exact mem_cons_self)).elim
    · simp [Act.cpu] at hp
    · simp [Act.cpu] at hp
  | resume hcode hf =>
    refine h.advance hinv hm' (l := []) hcode ?_ (setCode_cpu_self _) (by simp)
      (same_setProc rfl rfl rfl)
    rcases hf with rfl | rfl <;> rfl
  | @yield c p hoff hp hlock =>
    have hthread : (s.proc p).state = .running ∧ ∀ f ∈ (s.cpu c).code, Good s p f := by
      rcases h.thread c p hp with heq | hgood
      · obtain ⟨k', hk', -⟩ := h.saved c p hp
        have hquiet := hinv.quiet_of_noff hoff (.switched p)
          (by rw [heq, hk']; exact mem_cons_self)
        cases hquiet
      · exact hgood
    exact h.leave hinv hm' (f := .yielded) hp (setCode_cpu_self _)
      hthread.1 (by simp) (by simp) trivial hthread.2 fun q hq => by simp [hq]
  | @sleepRelease c o p ch lk k hcode hp hheld d =>
    exact h.next hinv hm' (g := .sleepSched ch lk) (d := d) hcode rfl
      (by simp [setSpin, Act.cpu]) (fun _ _ _ => trivial) (same_setProc rfl rfl rfl)
  | sleepLock hcode | slept hcode | waitLock hcode | waitSlept hcode =>
    exact h.next hinv hm' hcode rfl (setCode_cpu_self _) (fun _ _ _ => trivial)
      (same_setProc rfl rfl rfl)
  | exitLockParent hcode | exitLockSelf hcode | reparent hcode =>
    exact h.next hinv hm' hcode rfl (setCode_cpu_self _) (fun _ _ hg => hg)
      (same_setProc rfl rfl rfl)
  | reparentSkip hcode | reparentTest hcode =>
    exact h.next hinv hm' hcode rfl (setCode_cpu_self _) (fun _ _ hg => hg)
      fun _ => ⟨rfl, rfl⟩
  | waitSkip hcode | waitTest hcode | waitPass hcode =>
    exact h.next hinv hm' hcode rfl (setCode_cpu_self _) (fun _ _ _ => trivial)
      fun _ => ⟨rfl, rfl⟩
  | waitNone hcode =>
    exact h.advance hinv hm' (l := []) hcode rfl (setCode_cpu_self _) (by simp)
      (same_setProc rfl rfl rfl)
  | sleepSched hcode hp | waitSleep hcode hp =>
    obtain ⟨p', hp', hrun, hgood⟩ := h.running hcode rfl
    cases hp.symm.trans hp'
    refine h.leave hinv hm' hp (setCode_cpu_self _) hrun (by simp) (by simp; rfl) ?_
      (fun g hg => hgood g (mem_cons_of_mem _ hg)) fun q hq => by simp [hq]
    trivial
  | exit hcode hp hne =>
    obtain ⟨p', hp', hrun, hgood⟩ := h.running hcode rfl
    cases hp.symm.trans hp'
    refine h.leave hinv hm' (f := .exited) hp (setCode_cpu_self _) hrun (by simp) (by simp)
      trivial (fun g hg => hgood g (mem_cons_of_mem _ hg)) fun q hq => ?_
    rw [setCode_proc, setProc_proc, if_neg hq, setProc_proc]
    split_ifs with hop
    · subst hop
      refine ⟨rfl, fun hused hunused => hused ?_⟩
      simp [woken1, hunused]
    · exact ⟨rfl, fun hused => hused⟩
  | @waitReap c o p q qs k hcode hp hlock hzombie hne =>
    refine h.recode hinv hm' (l := []) hcode (fun q hq => by cases hq)
      (setCode_cpu_self _) (fun _ => by simp) (fun _ hq => by cases hq)
      (fun p' hp' hrun => ?_) (fun p _ _ => by simp) fun r hr => ?_
    · cases hp.symm.trans hp'
      simpa using hrun
    · left
      rw [setCode_proc, setProc_proc] at hr ⊢
      rcases eq_or_ne r p with rfl | hrp
      · simpa using hr
      · rw [if_neg hrp, setProc_proc] at hr ⊢
        rcases eq_or_ne r q with rfl | hrq
        · refine ⟨by simp [hzombie], ?_⟩
          split_ifs <;> simp [PState.freeproc]
        · rw [if_neg hrq] at hr ⊢
          exact ⟨hr, rfl⟩

omit [DecidableEq π] [DecidableEq κ] in
theorem PState.Init.threads (h : s.Init) : Threads s where
  idle c _ := by
    rw [(h.idle c).2.1]
    exact ⟨by simp [Frame.idle], [], mem_singleton_self _⟩
  saved c p hp := by simp [h.idle c] at hp
  thread c p hp := by simp [h.idle c] at hp
  context p _ f hf := by
    rcases (h.slot p).2.2.2 with hctx | hctx <;> rw [hctx, mem_singleton] at hf <;>
      subst hf <;> trivial

/-! ## What a step does to a slot -/

/-- Slot `p` keeps its context, its channel and its stamp. -/
structure Still (s t : PState π κ) (p : π) : Prop where
  context : (t.proc p).context = (s.proc p).context
  chan : (t.proc p).chan = (s.proc p).chan
  slept : (t.proc p).slept = (s.proc p).slept

/-- What an action can do to slot `p`. -/
inductive SlotMove (s : PState π κ) (a : Act π κ) (t : PState π κ) (p : π) : Prop
  | still (h : Still s t p) (hstate : (t.proc p).state = (s.proc p).state)
  | wake (h : Still s t p)
      (hs : (s.proc p).state = .sleeping ∨ (s.proc p).state = .suspended)
      (ht : (t.proc p).state = .runnable)
  | suspend (h : Still s t p) (ht : (t.proc p).state = .suspended)
      (hs : (s.proc p).state ≠ .running)
  | pick (h : Still s t p) (ht : (t.proc p).state = .running)
  | fork (hs : (s.proc p).state = .unused) (ht : (t.proc p).state = .runnable)
      (hchan : (t.proc p).chan = (s.proc p).chan) (hctx : (t.proc p).context = [.forkret])
  | free (ht : (t.proc p).state = .unused) (hchan : (t.proc p).chan = .zero)
      (hctx : (t.proc p).context = (s.proc p).context ∨ (t.proc p).context = [.forkret])
  | yield {l} (hp : (s.cpu a.cpu).proc = some p) (hoff : s.noff a.cpu = 0)
      (ht : t.proc p = { s.proc p with
        lock := l, state := .runnable, context := .yielded :: (s.cpu a.cpu).code })
  | exit {status op k} (hp : (s.cpu a.cpu).proc = some p)
      (hcode : (s.cpu a.cpu).code = .reparent status op [] :: k)
      (ht : t.proc p = { s.proc p with
        xstate := status, state := .zombie, context := .exited :: k })
  | stamp {ch lk k} (hp : (s.cpu a.cpu).proc = some p)
      (hcode : (s.cpu a.cpu).code = .sleepRelease ch lk :: k)
      (ht : t.proc p = { s.proc p with slept := s.clock }) (hclock : t.clock = s.clock + 1)
  | sleep {ch lk k} (hp : (s.cpu a.cpu).proc = some p)
      (hcode : (s.cpu a.cpu).code = .sleepSched ch lk :: k)
      (ht : t.proc p = { s.proc p with
        chan := ch, state := .sleeping, context := .slept lk :: k })
  | waitSleep {hk k} (hp : (s.cpu a.cpu).proc = some p)
      (hcode : (s.cpu a.cpu).code = .waitScan [] hk :: k)
      (ht : t.proc p = { s.proc p with
        chan := .proc p, state := .sleeping, context := .waitSlept :: k, slept := s.clock })
      (hclock : t.clock = s.clock + 1)
  | slept {f : Frame π} {k} (hp : (s.cpu a.cpu).proc = some p)
      (hcode : (s.cpu a.cpu).code = f :: k) (hf : (∃ lk, f = .slept lk) ∨ f = .waitSlept)
      (hstate : (t.proc p).state = (s.proc p).state)
      (hctx : (t.proc p).context = (s.proc p).context) (hchan : (t.proc p).chan = .zero)

theorem slotMove_setProc (hproc : t.proc = (s.setProc r x).proc)
    (hr : t.proc r = x → SlotMove s a t r) : SlotMove s a t p := by
  have heq := congrFun hproc p
  rw [setProc_proc] at heq
  split_ifs at heq with hp
  · subst hp
    exact hr heq
  · exact .still ⟨by rw [heq], by rw [heq], by rw [heq]⟩ (by rw [heq])

omit [DecidableEq π] in
theorem SlotMove.of_eq (ht : t.proc p = x) (hstate : x.state = (s.proc p).state)
    (hctx : x.context = (s.proc p).context) (hchan : x.chan = (s.proc p).chan)
    (hslept : x.slept = (s.proc p).slept) : SlotMove s a t p := by
  subst ht
  exact .still ⟨hctx, hchan, hslept⟩ hstate

omit [DecidableEq π] in
/-- A slot that is woken when it sleeps. -/
theorem SlotMove.of_ite {P : Prop} [Decidable P] (ht : t.proc p = x)
    (hP : P → (s.proc p).state = .sleeping ∨ (s.proc p).state = .suspended)
    (hstate : x.state = if P then .runnable else (s.proc p).state)
    (hctx : x.context = (s.proc p).context) (hchan : x.chan = (s.proc p).chan)
    (hslept : x.slept = (s.proc p).slept) : SlotMove s a t p := by
  subst ht
  by_cases h : P
  · rw [if_pos h] at hstate
    exact .wake ⟨hctx, hchan, hslept⟩ (hP h) hstate
  · rw [if_neg h] at hstate
    exact .still ⟨hctx, hchan, hslept⟩ hstate

theorem slotMove_of_visit (hsafe : Safe s (.step c o)) (hvisit : Visit s c q o x k n)
    (ht : t.proc q = x) : SlotMove s a t q := by
  cases hvisit with
  | pass => exact .of_eq ht rfl rfl rfl rfl
  | wakeup => exact .of_ite ht (fun h => .inl h.1) rfl rfl rfl rfl
  | kill => exact .of_ite ht (fun h => h) rfl rfl rfl rfl
  | exitWake => exact .of_ite ht (fun h => .inl h.2) rfl rfl rfl rfl
  | suspend hcode =>
    exact .suspend ⟨by rw [ht], by rw [ht], by rw [ht]⟩ (by rw [ht]) (hsafe.suspend hcode).1
  | fork hcode hp hunused =>
    cases o with
    | noTrapframe =>
      exact .of_eq ht (by simp [forkInto]) (by simp [forkInto])
        (by simp [forkInto]) (by simp [forkInto])
    | noCopy =>
      refine .free ?_ ?_ (.inr ?_)
      · simp [ht, forkInto, PState.freeproc]
      · simp [ht, forkInto, PState.freeproc]
      · simp [ht, forkInto, PState.freeproc]
    | ok =>
      refine .fork hunused ?_ ?_ ?_
      · simp [ht, forkInto]
      · simp [ht, forkInto]
      · simp [ht, forkInto]

theorem slotMove_of_move (hsafe : Safe s a) (hm : Move s a t) (p : π) : SlotMove s a t p := by
  cases hm with
  | panic | stay | goto | spin | wakeup | reparentSkip | reparentTest | waitSkip | waitTest
  | waitPass => exact .of_eq rfl rfl rfl rfl rfl
  | switched | resume | sleepLock | exitLockParent | exitLockSelf | reparent | waitLock
  | waitNone =>
    refine slotMove_setProc rfl fun ht => ?_
    exact .of_eq ht rfl rfl rfl rfl
  | visit hlock hvisit =>
    refine slotMove_setProc rfl fun ht => ?_
    exact slotMove_of_visit hsafe hvisit ht
  | pick =>
    refine slotMove_setProc rfl fun ht => ?_
    exact .pick ⟨by rw [ht], by rw [ht], by rw [ht]⟩ (by rw [ht])
  | yield hoff hp hlock =>
    refine slotMove_setProc rfl fun ht => ?_
    exact .yield hp hoff ht
  | sleepRelease hcode hp hheld d =>
    refine slotMove_setProc rfl fun ht => ?_
    exact .stamp hp hcode ht rfl
  | sleepSched hcode hp =>
    refine slotMove_setProc rfl fun ht => ?_
    exact .sleep hp hcode ht
  | waitSleep hcode hp =>
    refine slotMove_setProc rfl fun ht => ?_
    exact .waitSleep hp hcode ht rfl
  | slept hcode hp hlock =>
    refine slotMove_setProc rfl fun ht => ?_
    exact .slept hp hcode (.inl ⟨_, rfl⟩) (by rw [ht]) (by rw [ht]) (by rw [ht])
  | waitSlept hcode hp =>
    refine slotMove_setProc rfl fun ht => ?_
    exact .slept hp hcode (.inr rfl) (by rw [ht]) (by rw [ht]) (by rw [ht])
  | @exit c o status op r k hcode hp hne =>
    rcases eq_or_ne p r with rfl | hpr
    · exact .exit hp hcode (by simp)
    · rcases eq_or_ne p op with rfl | hop
      · exact .of_ite (x := { s.proc p with state := s.woken1 p, lock := none }) (by simp [hpr])
          (fun h => .inl h.2) rfl rfl rfl rfl
      · exact .of_eq (x := s.proc p) (by simp [hpr, hop]) rfl rfl rfl rfl
  | @waitReap c o r q qs k hcode hp hlock hzombie hne =>
    rcases eq_or_ne p r with rfl | hpr
    · exact .of_eq (x := { s.proc p with lock := none }) (by simp) rfl rfl rfl rfl
    · rcases eq_or_ne p q with rfl | hpq
      · by_cases ho : o = .noCopy
        · exact .of_eq (x := s.proc p) (by simp [hpr, ho]) rfl rfl rfl rfl
        · refine .free ?_ ?_ (.inl ?_)
          · simp [hpr, ho, PState.freeproc]
          · simp [hpr, ho, PState.freeproc]
          · simp [hpr, ho, PState.freeproc]
      · exact .of_eq (x := s.proc p) (by simp [hpr, hpq]) rfl rfl rfl rfl

omit [DecidableEq π] in
/-- A slot that sleeps after a step slept before, or its process has just gone to
sleep. -/
theorem SlotMove.asleep (h : SlotMove s a t p) (hT : Threads s)
    (hsleep : (t.proc p).state = .sleeping) :
    Still s t p ∧ (s.proc p).state = .sleeping ∨
    (∃ ch lk k, (s.cpu a.cpu).proc = some p ∧ (s.cpu a.cpu).code = .sleepSched ch lk :: k ∧
      t.proc p = { s.proc p with chan := ch, state := .sleeping, context := .slept lk :: k }) ∨
    ∃ hk k, (s.cpu a.cpu).proc = some p ∧ (s.cpu a.cpu).code = .waitScan [] hk :: k ∧
      t.proc p = { s.proc p with
        chan := .proc p, state := .sleeping, context := .waitSlept :: k, slept := s.clock } ∧
      t.clock = s.clock + 1 := by
  -- the process that a CPU runs does not sleep
  have hrun : ∀ {P : Prop} {f : Frame π} {k : List (Frame π)}, (s.cpu a.cpu).proc = some p →
      (s.cpu a.cpu).code = f :: k → f.task = true → (t.proc p).state = (s.proc p).state → P := by
    intro P f k hp hcode hf hstate
    obtain ⟨p', hp', hrun, -⟩ := hT.running hcode hf
    cases hp.symm.trans hp'
    rw [hstate, hrun] at hsleep
    cases hsleep
  cases h with
  | still h hstate => exact .inl ⟨h, hstate ▸ hsleep⟩
  | wake _ _ ht | suspend _ ht | pick _ ht | fork _ ht | free ht => cases ht.symm.trans hsleep
  | yield _ _ ht | exit _ _ ht =>
    rw [ht] at hsleep
    cases hsleep
  | stamp hp hcode ht => exact hrun hp hcode rfl (by rw [ht])
  | slept hp hcode hf hstate =>
    exact hrun hp hcode (by rcases hf with ⟨lk, rfl⟩ | rfl <;> rfl) hstate
  | sleep hp hcode ht => exact .inr (.inl ⟨_, _, _, hp, hcode, ht⟩)
  | waitSleep hp hcode ht hclock => exact .inr (.inr ⟨_, _, hp, hcode, ht, hclock⟩)

end SummerOsk.Sched
