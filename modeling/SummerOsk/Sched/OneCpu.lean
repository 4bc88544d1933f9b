import SummerOsk.Sched.Moves
import Mathlib.Data.List.Basic

/-!
# A process runs on at most one CPU

The invariant relates the state of a slot, the holder of its lock and the code
of the CPUs: the slot that a CPU runs is RUNNING, or that CPU holds its lock.
A scheduler that finds a slot RUNNABLE with its lock free can therefore pick it.
`wait` and `reparent` read `parent` before they take the lock of the child; the
invariant also says that the child is still theirs when they have it.

`ksuspend` is the one operation that writes the state of a slot without looking
at it.  When the slot is RUNNING, the `kill` at the end of `ksuspend` makes it
RUNNABLE while its CPU still runs it, and a second CPU picks it.  When it is a
ZOMBIE, the slot is never reaped.  `Safe` keeps both apart, and then the
invariant holds in every run.  Its part about the locks needs no condition, so
`Inv` has a parameter under which it states the rest.
-/

namespace SummerOsk.Sched

open List PState

variable {π κ : Type} {s t : PState π κ} {a : Act π κ} {c c' : κ} {p q : π} {k : List (Frame π)}
  {x : Proc π κ} {f : Frame π} {o : Outcome} {n : Int} {calm : Prop} {qs : List π} {d : Nat}
  {y : Cpu π}

/-! ## The invariant -/

/-- Code at this frame holds no lock of a slot. -/
def Frame.quiet : Frame π → Bool
  | .busy | .handler | .scheduler _ | .sleepLock _ _ | .relock _ | .wakeup _ _ _ | .kill _ _
  | .suspend _ _ | .fork _ | .exitWake _ | .exitParent _ | .exitLockParent _ _ | .waitLock => true
  | .switched _ | .yielded | .forkret | .sleepRelease _ _ | .sleepSched _ _ | .slept _ | .exited
  | .zeroed | .exitLockSelf _ _ | .reparent _ _ _ | .reparentChild _ _ _ _ | .waitScan _ _
  | .waitChild _ _ | .waitSlept => false

/-- A context that `scheduler` switches to starts with this frame. -/
def Frame.resumes : Frame π → Bool
  | .yielded | .forkret | .slept _ | .exited | .zeroed | .waitSlept => true
  | _ => false

def Quiet (k : List (Frame π)) : Prop := ∀ f ∈ k, f.quiet = true

/-- CPU `c` runs a process and holds its lock.  The process is RUNNING if the
run is `calm`. -/
def Owns (calm : Prop) (s : PState π κ) (c : κ) : Prop :=
  ∃ p, (s.cpu c).proc = some p ∧ (s.proc p).lock = some c ∧
    (calm → (s.proc p).state = .running)

/-- The locks that CPU `c` holds when it runs a frame, and the child that `wait`
and `reparent` have found. -/
def Held (calm : Prop) (s : PState π κ) (c : κ) : Frame π → Prop
  | .switched q => (s.cpu c).proc = some q ∧ (s.proc q).lock = some c
  | .yielded | .forkret | .sleepRelease _ _ | .sleepSched _ _ | .slept _ | .exited | .zeroed
  | .waitSlept | .waitScan _ _ => Owns calm s c
  | .waitChild q _ => Owns calm s c ∧ (s.proc q).parent = (s.cpu c).proc
  | .exitLockSelf _ op => (s.proc op).lock = some c
  | .reparent _ op _ => (s.proc op).lock = some c ∧ Owns calm s c
  | .reparentChild _ op q _ =>
    (s.proc op).lock = some c ∧ Owns calm s c ∧ (s.proc q).parent = (s.cpu c).proc
  | .busy | .handler | .scheduler _ | .sleepLock _ _ | .relock _ | .wakeup _ _ _ | .kill _ _
  | .suspend _ _ | .fork _ | .exitWake _ | .exitParent _ | .exitLockParent _ _ | .waitLock => True

/-- What holds between the slots and the code of the CPUs.  The top frame of a
CPU says which locks it holds, and the frames below it hold none.  `calm` says
that no `ksuspend` found its target RUNNING or ZOMBIE: then a CPU runs a process
that is RUNNING or whose lock it holds, and no other CPU runs it. -/
structure Inv (calm : Prop) (s : PState π κ) : Prop where
  table_all : ∀ p, p ∈ s.table
  runs : calm → ∀ c p, (s.cpu c).proc = some p →
    (s.proc p).state = .running ∨ (s.proc p).lock = some c
  one : calm → ∀ c c' p, (s.cpu c).proc = some p → (s.cpu c').proc = some p → c = c'
  code : ∀ c f k, (s.cpu c).code = f :: k → Held calm s c f ∧ Quiet k
  saved : ∀ c p, (s.cpu c).proc = some p →
    ∃ k, (s.cpu c).scheduler = .switched p :: k ∧ Quiet k
  context : ∀ p, ∃ f k, (s.proc p).context = f :: k ∧ f.resumes = true ∧ Quiet k
  orphan : ∀ p, (s.proc p).state = .unused → (s.proc p).parent = none

theorem Owns.of_proc (h : Owns calm s c) (hp : (s.cpu c).proc = some p) :
    (s.proc p).lock = some c ∧ (calm → (s.proc p).state = .running) := by
  obtain ⟨p', hp', h⟩ := h
  cases hp.symm.trans hp'
  exact h

theorem held_of_quiet (h : f.quiet) : Held calm s c f := by
  cases f <;> trivial

theorem held_of_resumes (h : f.resumes) (hown : Owns calm s c) : Held calm s c f := by
  cases f <;> first | exact hown | cases h

theorem Held.lock (h : Held calm s c f) (hf : f.quiet = false) : ∃ p, (s.proc p).lock = some c := by
  have howns : Owns calm s c → ∃ p, (s.proc p).lock = some c :=
    fun ⟨p, _, hlock, _⟩ => ⟨p, hlock⟩
  cases f with
  | switched q => exact ⟨q, h.2⟩
  | yielded | forkret | sleepRelease | sleepSched | slept | exited | zeroed | waitSlept
  | waitScan => exact howns h
  | waitChild => exact howns h.1
  | exitLockSelf status op => exact ⟨op, h⟩
  | reparent status op qs => exact ⟨op, h.1⟩
  | reparentChild status op q qs => exact ⟨op, h.1⟩
  | busy | handler | scheduler | sleepLock | relock | wakeup | kill | suspend | fork | exitWake
  | exitParent | exitLockParent | waitLock => cases hf

theorem quiet_of_busy (h : f = .busy ∨ f = .handler) : f.quiet = true := by
  rcases h with rfl | rfl <;> rfl

/-- A process that a CPU runs without its lock is RUNNING. -/
theorem Inv.running (h : Inv calm s) (hcalm : calm) (hp : (s.cpu c).proc = some p)
    (hlock : (s.proc p).lock = none) : (s.proc p).state = .running :=
  (h.runs hcalm c p hp).resolve_right (by simp [hlock])

/-- The child that `wait` or `reparent` has found is in use. -/
theorem Inv.child_used (h : Inv calm s) (hown : Owns calm s c)
    (hchild : (s.proc q).parent = (s.cpu c).proc) : (s.proc q).state ≠ .unused := by
  intro hunused
  obtain ⟨p, hp, -⟩ := hown
  rw [hp, h.orphan q hunused] at hchild
  cases hchild

/-! ## What a CPU leaves to the others -/

/-- An action that stores SUSPENDED finds the slot neither RUNNING nor ZOMBIE. -/
def Safe (s : PState π κ) : Act π κ → Prop
  | .step c _ =>
    match (s.cpu c).code with
    | .suspend pid (q :: _) :: _ =>
      (s.proc q).pid = pid → (s.proc q).state ≠ .running ∧ (s.proc q).state ≠ .zombie
    | _ => True
  | _ => True

instance (s : PState π κ) (a : Act π κ) : Decidable (Safe s a) := by
  unfold Safe
  split
  · split <;> infer_instance
  · infer_instance

/-- The loop of `kill(0)` is not at an UNUSED slot, and `allocproc` gets a page
for the trapframe. -/
def Tidy (s : PState π κ) : Act π κ → Prop
  | .step c o =>
    match (s.cpu c).code with
    | .kill pid (q :: _) :: _ => pid = 0 → (s.proc q).state ≠ .unused
    | .fork (q :: _) :: _ => (s.proc q).state = .unused → o ≠ .noTrapframe
    | _ => True
  | _ => True

instance (s : PState π κ) (a : Act π κ) : Decidable (Tidy s a) := by
  unfold Tidy
  split
  · split <;> infer_instance
  · infer_instance

theorem Safe.suspend (h : Safe s (.step c o))
    (hcode : (s.cpu c).code = .suspend (s.proc q).pid (q :: qs) :: k) :
    (s.proc q).state ≠ .running ∧ (s.proc q).state ≠ .zombie := by
  simp only [Safe, hcode, forall_const] at h
  exact h

/-- Slot `q` can become `x` in a step of CPU `c` that may write it. -/
structure Keeps (calm : Prop) (s : PState π κ) (c : κ) (q : π) (x : Proc π κ) : Prop where
  running : calm → (s.proc q).state = .running → (s.cpu c).proc ≠ some q → x.state = .running
  context : x.context = (s.proc q).context ∨
    ∃ f k, x.context = f :: k ∧ f.resumes = true ∧ Quiet k
  parent : ∀ c' p, c' ≠ c → (s.proc p).lock = some c' → (s.proc q).parent = some p →
    x.parent = some p
  orphan : x.state = .unused → x.parent = none

/-- What the other CPUs can rely on in a step of CPU `c`. -/
structure Others (calm : Prop) (s t : PState π κ) (c : κ) : Prop where
  table : t.table = s.table
  cpu : ∀ c', c' ≠ c → t.cpu c' = s.cpu c'
  slot : ∀ q, t.proc q = s.proc q ∨
    ((s.proc q).lock = none ∨ (s.proc q).lock = some c) ∧ Keeps calm s c q (t.proc q)

theorem Others.locked (h : Others calm s t c) (hne : c' ≠ c)
    (hlock : (s.proc q).lock = some c') : t.proc q = s.proc q := by
  rcases h.slot q with heq | ⟨hfree | hheld, -⟩
  · exact heq
  · simp [hfree] at hlock
  · exact absurd (Option.some.inj (hlock.symm.trans hheld)) hne

theorem Others.running (h : Others calm s t c) (hcalm : calm) (hrun : (s.proc q).state = .running)
    (hne : (s.cpu c).proc ≠ some q) : (t.proc q).state = .running := by
  rcases h.slot q with heq | ⟨-, hkeeps⟩
  · rw [heq, hrun]
  · exact hkeeps.running hcalm hrun hne

theorem Others.parent (h : Others calm s t c) (hne : c' ≠ c) (hp : (s.proc p).lock = some c')
    (hq : (s.proc q).parent = some p) : (t.proc q).parent = some p := by
  rcases h.slot q with heq | ⟨-, hkeeps⟩
  · rw [heq, hq]
  · exact hkeeps.parent c' p hne hp hq

/-- Only the lock, the channel and the like of a slot change. -/
theorem Keeps.of_eq (h : Inv calm s) (hstate : x.state = (s.proc q).state)
    (hctx : x.context = (s.proc q).context) (hparent : x.parent = (s.proc q).parent) :
    Keeps calm s c q x where
  running _ hrun _ := hstate.trans hrun
  context := .inl hctx
  parent _ _ _ _ hp := hparent.trans hp
  orphan hunused := by
    rw [hparent]
    exact h.orphan q (hstate ▸ hunused)

/-- The process of CPU `c` gives it up. -/
theorem Keeps.leave (hp : (s.cpu c).proc = some p) (hparent : x.parent = (s.proc p).parent)
    (hctx : x.context = f :: k) (hf : f.resumes) (hk : Quiet k)
    (hstate : x.state ≠ .unused) : Keeps calm s c p x where
  running _ _ hne := absurd hp hne
  context := .inr ⟨f, k, hctx, hf, hk⟩
  parent _ _ _ _ hq := hparent.trans hq
  orphan hunused := absurd hunused hstate

/-- A child of the process of CPU `c` gets another parent. -/
theorem Keeps.child (hown : Owns calm s c) (hchild : (s.proc q).parent = (s.cpu c).proc)
    (hrun : (s.proc q).state = .running → x.state = .running)
    (hctx : x.context = (s.proc q).context) (horphan : x.state = .unused → x.parent = none) :
    Keeps calm s c q x where
  running _ hstate _ := hrun hstate
  context := .inl hctx
  parent c' p hne hlock hq := by
    have hlock' := (hown.of_proc (hchild ▸ hq)).1
    exact absurd (Option.some.inj (hlock.symm.trans hlock')) hne
  orphan := horphan

/-- Only the slots and the CPUs count. -/
theorem Others.of_eq {u : PState π κ} (h : Others calm s u c) (htable : t.table = u.table)
    (hcpu : t.cpu = u.cpu) (hproc : t.proc = u.proc) : Others calm s t c where
  table := htable.trans h.table
  cpu c' hne := by
    rw [hcpu]
    exact h.cpu c' hne
  slot q := by
    rw [hproc]
    exact h.slot q

theorem Held.of_others (ho : Others calm s t c) (hne : c' ≠ c) (h : Held calm s c' f) :
    Held calm t c' f := by
  have hcpu := ho.cpu c' hne
  have hlock : ∀ q, (s.proc q).lock = some c' → (t.proc q).lock = some c' := by
    intro q hq
    rw [ho.locked hne hq, hq]
  have howns : Owns calm s c' → Owns calm t c' := by
    rintro ⟨p, hp, hheld, hrun⟩
    refine ⟨p, by rw [hcpu, hp], hlock p hheld, ?_⟩
    rwa [ho.locked hne hheld]
  have hchild : ∀ q, Owns calm s c' → (s.proc q).parent = (s.cpu c').proc →
      (t.proc q).parent = (t.cpu c').proc := by
    rintro q ⟨p, hp, hheld, -⟩ hq
    rw [hcpu, hp]
    exact ho.parent hne hheld (hq.trans hp)
  cases f with
  | switched q => exact ⟨by rw [hcpu, h.1], hlock q h.2⟩
  | yielded | forkret | sleepRelease | sleepSched | slept | exited | zeroed | waitSlept
  | waitScan => exact howns h
  | waitChild q qs => exact ⟨howns h.1, hchild q h.1 h.2⟩
  | exitLockSelf status op => exact hlock op h
  | reparent status op qs => exact ⟨hlock op h.1, howns h.2⟩
  | reparentChild status op q qs => exact ⟨hlock op h.1, howns h.2.1, hchild q h.2.1 h.2.2⟩
  | busy | handler | scheduler | sleepLock | relock | wakeup | kill | suspend | fork | exitWake
  | exitParent | exitLockParent | waitLock => trivial

/-- It is enough to look at the CPU that takes the step. -/
theorem Inv.of_others (h : Inv calm s) (ho : Others calm s t c)
    (hruns : calm → ∀ p, (t.cpu c).proc = some p →
      (t.proc p).state = .running ∨ (t.proc p).lock = some c)
    (hone : calm → ∀ c' p, c' ≠ c → (t.cpu c).proc = some p → (s.cpu c').proc ≠ some p)
    (hcode : ∀ f k, (t.cpu c).code = f :: k → Held calm t c f ∧ Quiet k)
    (hsaved : ∀ p, (t.cpu c).proc = some p →
      ∃ k, (t.cpu c).scheduler = .switched p :: k ∧ Quiet k) : Inv calm t where
  table_all p := by
    rw [ho.table]
    exact h.table_all p
  runs hcalm c' p hp := by
    rcases eq_or_ne c' c with rfl | hc
    · exact hruns hcalm p hp
    · rw [ho.cpu c' hc] at hp
      rcases h.runs hcalm c' p hp with hrun | hlock
      · exact .inl (ho.running hcalm hrun fun hp' => hc (h.one hcalm c' c p hp hp'))
      · exact .inr (by rw [ho.locked hc hlock, hlock])
  one hcalm c1 c2 p h1 h2 := by
    by_cases hc1 : c1 = c
    · by_cases hc2 : c2 = c
      · rw [hc1, hc2]
      · subst hc1
        rw [ho.cpu c2 hc2] at h2
        exact absurd h2 (hone hcalm c2 p hc2 h1)
    · rw [ho.cpu c1 hc1] at h1
      rcases eq_or_ne c2 c with rfl | hc2
      · exact absurd h1 (hone hcalm c1 p hc1 h2)
      · rw [ho.cpu c2 hc2] at h2
        exact h.one hcalm c1 c2 p h1 h2
  code c' f k hf := by
    rcases eq_or_ne c' c with rfl | hc
    · exact hcode f k hf
    · rw [ho.cpu c' hc] at hf
      obtain ⟨hheld, hk⟩ := h.code c' f k hf
      exact ⟨hheld.of_others ho hc, hk⟩
  saved c' p hp := by
    rcases eq_or_ne c' c with rfl | hc
    · exact hsaved p hp
    · rw [ho.cpu c' hc] at hp ⊢
      exact h.saved c' p hp
  context p := by
    rcases ho.slot p with heq | ⟨-, hkeeps⟩
    · rw [heq]
      exact h.context p
    · rcases hkeeps.context with heq | hnew
      · rw [heq]
        exact h.context p
      · exact hnew
  orphan p hunused := by
    rcases ho.slot p with heq | ⟨-, hkeeps⟩
    · rw [heq] at hunused ⊢
      exact h.orphan p hunused
    · exact hkeeps.orphan hunused

/-- The form for a step that keeps `c->proc` and the saved scheduler. -/
theorem Inv.of_code (h : Inv calm s) (ho : Others calm s t c)
    (hcpu : ∃ k d, t.cpu c = { s.cpu c with code := k, depth := d })
    (hruns : calm → ∀ p, (s.cpu c).proc = some p →
      (t.proc p).state = .running ∨ (t.proc p).lock = some c)
    (hcode : ∀ f k, (t.cpu c).code = f :: k → Held calm t c f ∧ Quiet k) : Inv calm t := by
  obtain ⟨k, d, hk⟩ := hcpu
  refine h.of_others ho (fun hcalm p hp => ?_) (fun hcalm c' p hne hp hp' => ?_) hcode
    (fun p hp => ?_)
  · rw [hk] at hp
    exact hruns hcalm p hp
  · rw [hk] at hp
    exact hne (h.one hcalm c' c p hp' hp)
  · rw [hk] at hp ⊢
    exact h.saved c p hp

theorem held_quiet (h : Quiet k) : ∀ f k', k = f :: k' → Held calm t c f ∧ Quiet k' := by
  rintro f k' rfl
  obtain ⟨hf, hk⟩ := forall_mem_cons.mp h
  exact ⟨held_of_quiet hf, hk⟩

theorem Inv.quiet_spin (h : Inv calm s) {lk : Nat} {x : Option κ}
    (hspin : Spin s c a lk x k) : Quiet k := by
  cases hspin with
  | acquire hcode hf | release hcode hf =>
    exact forall_mem_cons.mpr ⟨quiet_of_busy hf, (h.code _ _ _ hcode).2⟩
  | relock hcode => exact (h.code _ _ _ hcode).2

section

variable (h : Inv calm s) (ho : Others calm s t c)

include h ho

/-- A process gives up its CPU in `sched`. -/
theorem Inv.leave (hp : (s.cpu c).proc = some p)
    (hcpu : t.cpu c = { s.cpu c with code := (s.cpu c).scheduler })
    (hlock : (t.proc p).lock = some c) : Inv calm t := by
  refine h.of_code ho ⟨_, _, hcpu⟩ (fun _ p' hp' => ?_) fun f k hf => ?_
  · cases hp.symm.trans hp'
    exact .inr hlock
  · obtain ⟨k', hsaved, hk'⟩ := h.saved c p hp
    rw [hcpu, hsaved] at hf
    cases hf
    exact ⟨⟨by rw [hcpu]; exact hp, hlock⟩, hk'⟩

/-- A step to code that holds no lock, at which the process is still
RUNNING. -/
theorem Inv.free (hcpu : t.cpu c = { s.cpu c with code := k, depth := d }) (hk : Quiet k)
    (hruns : calm → ∀ p, (s.cpu c).proc = some p → (t.proc p).state = .running ∨
      (t.proc p).lock = some c) : Inv calm t := by
  refine h.of_code ho ⟨k, d, hcpu⟩ hruns ?_
  rw [hcpu]
  exact held_quiet hk

/-- A step to a frame with locks. -/
theorem Inv.enter (hcpu : t.cpu c = { s.cpu c with code := f :: k, depth := d })
    (hf : Held calm t c f) (hk : Quiet k)
    (hruns : calm → ∀ p, (s.cpu c).proc = some p → (t.proc p).state = .running ∨
      (t.proc p).lock = some c) : Inv calm t := by
  refine h.of_code ho ⟨_, d, hcpu⟩ hruns fun f' k' hcode => ?_
  rw [hcpu] at hcode
  cases hcode
  exact ⟨hf, hk⟩

end

/-! ## The step lemma -/

section

variable [DecidableEq π]

/-- A critical section of one slot keeps RUNNING, when `ksuspend` is safe. -/
theorem running_of_visit (hsafe : Safe s (.step c o)) (hvisit : Visit s c q o x k n)
    (hrun : (s.proc q).state = .running) : x.state = .running := by
  cases hvisit with
  | pass => exact hrun
  | wakeup => simp [hrun]
  | kill => simp [hrun]
  | suspend hcode => exact absurd hrun (hsafe.suspend hcode).1
  | fork hcode hp hunused => simp [hrun] at hunused
  | exitWake => simp [woken1, hrun]

theorem forkInto_context (q : π) (o : Outcome) :
    ((s.forkInto p q o).proc q).context = (s.proc q).context ∨
      ((s.forkInto p q o).proc q).context = [.forkret] := by
  cases o <;> simp [forkInto, PState.freeproc]

/-- A slot stays in use when it only leaves `sleep`. -/
theorem ne_unused_ite {st : ProcState} {P : Prop} [Decidable P] (h : st ≠ .unused) :
    (if P then .runnable else st) ≠ ProcState.unused := by
  split_ifs
  · simp
  · exact h

theorem keeps_of_visit (hinv : Inv calm s) (hsafe : calm → Safe s (.step c o))
    (hvisit : Visit s c q o x k n) : Keeps calm s c q x where
  running hcalm hrun _ := running_of_visit (hsafe hcalm) hvisit hrun
  context := by
    cases hvisit with
    | pass | wakeup | kill | suspend | exitWake => exact .inl rfl
    | fork => exact (forkInto_context q o).imp_right fun h => ⟨_, [], h, rfl, by simp [Quiet]⟩
  parent c' p _ _ hq := by
    cases hvisit with
    | pass | wakeup | kill | suspend | exitWake => exact hq
    | fork hcode hp hunused => simp [hinv.orphan q hunused] at hq
  orphan hunused := by
    by_cases hstate : (s.proc q).state = .unused
    · have hparent := hinv.orphan q hstate
      cases hvisit with
      | pass | wakeup | kill | suspend | exitWake => exact hparent
      | fork => cases o <;> simp [forkInto, PState.freeproc, hparent] at hunused ⊢
    · cases hvisit with
      | pass => exact absurd hunused hstate
      | wakeup | kill | exitWake => exact absurd hunused (ne_unused_ite hstate)
      | suspend => cases hunused
      | fork hcode hp hstate' => exact absurd hstate' hstate

theorem Inv.quiet_visit (h : Inv calm s) (hvisit : Visit s c q o x k n) : Quiet k := by
  have htail : ∀ {f : Frame π} {k : List (Frame π)}, (s.cpu c).code = f :: k → Quiet k :=
    fun hcode => (h.code _ _ _ hcode).2
  cases hvisit with
  | pass hcode hf =>
    refine forall_mem_cons.mpr ⟨?_, htail hcode⟩
    rcases hf with ⟨_, -, rfl⟩ | ⟨_, _, -, rfl⟩ | ⟨_, _, -, rfl⟩ | ⟨_, -, rfl⟩ | ⟨_, -, -, rfl⟩ <;>
      rfl
  | wakeup hcode => exact forall_mem_cons.mpr ⟨rfl, htail hcode⟩
  | kill hcode | fork hcode => exact htail hcode
  | suspend hcode =>
    exact forall_mem_cons.mpr ⟨rfl, forall_mem_cons.mpr ⟨rfl, htail hcode⟩⟩
  | exitWake hcode => exact forall_mem_cons.mpr ⟨rfl, htail hcode⟩

/-- The process of a CPU is fine after a change of slot `q` that keeps its state
and lock, leaves the lock with the CPU, or leaves its own process RUNNING. -/
theorem Inv.runs_setProc (h : Inv calm s)
    (hx : (x.state = (s.proc q).state ∧ x.lock = (s.proc q).lock) ∨ x.lock = some c ∨
      (calm → (s.cpu c).proc = some q → x.state = .running)) :
    calm → ∀ p, (s.cpu c).proc = some p →
      ((s.setProc q x).proc p).state = .running ∨ ((s.setProc q x).proc p).lock = some c := by
  intro hcalm p hp
  rw [setProc_proc]
  split_ifs with hq
  · subst hq
    rcases hx with ⟨hstate, hlock⟩ | hlock | hstate
    · rw [hstate, hlock]
      exact h.runs hcalm c p hp
    · exact .inr hlock
    · exact .inl (hstate hcalm hp)
  · exact h.runs hcalm c p hp

end

section

variable [DecidableEq κ]

/-- A CPU that takes interrupts is at code that holds no lock. -/
theorem Inv.quiet_of_noff (h : Inv calm s) (hoff : s.noff c = 0) : Quiet (s.cpu c).code := by
  intro f hf
  cases hcode : (s.cpu c).code with
  | nil =>
    rw [hcode] at hf
    cases hf
  | cons g k =>
    obtain ⟨hheld, hk⟩ := h.code c g k hcode
    rw [hcode] at hf
    rcases mem_cons.mp hf with rfl | hf
    · by_contra hquiet
      obtain ⟨p, hlock⟩ := hheld.lock (by simpa using hquiet)
      have hcount : 0 < s.table.countP fun p => (s.proc p).lock = some c :=
        countP_pos_iff.mpr ⟨p, h.table_all p, by simpa using hlock⟩
      rw [noff] at hoff
      omega
    · exact hk f hf

/-- The code after a step that only changes the code holds no lock. -/
theorem Inv.quiet_goto (h : Inv calm s) (hgoto : Goto s c a k) : Quiet k := by
  have htail : ∀ {f : Frame π} {k : List (Frame π)}, (s.cpu c).code = f :: k → Quiet k :=
    fun hcode => (h.code _ _ _ hcode).2
  cases hgoto with
  | rescan hcode => exact forall_mem_cons.mpr ⟨rfl, htail hcode⟩
  | loopEnd hcode | ret hcode => exact htail hcode
  | fork | wait | kill | suspend | other | exit => simp [Quiet, Frame.quiet]
  | sleep hcode =>
    exact forall_mem_cons.mpr ⟨rfl, forall_mem_cons.mpr ⟨rfl, htail hcode⟩⟩
  | interrupt hoff => exact forall_mem_cons.mpr ⟨rfl, h.quiet_of_noff hoff⟩

theorem Others.setCpu (y : Cpu π) : Others calm s (s.setCpu c y) c where
  table := rfl
  cpu c' hne := by simp [hne]
  slot _ := .inl rfl

theorem Owns.setCode (h : Owns calm s c) : Owns calm (s.setCode c k) c := by
  obtain ⟨p, hp, hheld, hrun⟩ := h
  exact ⟨p, by rw [setCode_cpu_self]; exact hp, hheld, hrun⟩

end

variable [DecidableEq π] [DecidableEq κ]

/-- A change of one slot whose lock no other CPU holds. -/
theorem Others.update (hlock : (s.proc q).lock = none ∨ (s.proc q).lock = some c)
    (hx : Keeps calm s c q x) :
    Others calm s ((s.setProc q x).setCpu c y) c where
  table := rfl
  cpu c' hne := by simp [hne]
  slot q' := by
    rw [setCpu_proc, setProc_proc]
    split_ifs with hq
    · subst hq
      exact .inr ⟨hlock, hx⟩
    · exact .inl rfl

/-- A change of two slots whose locks no other CPU holds. -/
theorem Others.update₂ {q' : π} {x' : Proc π κ}
    (hlock : (s.proc q).lock = none ∨ (s.proc q).lock = some c) (hx : Keeps calm s c q x)
    (hlock' : (s.proc q').lock = none ∨ (s.proc q').lock = some c) (hx' : Keeps calm s c q' x') :
    Others calm s (((s.setProc q x).setProc q' x').setCpu c y) c where
  table := rfl
  cpu c' hne := by simp [hne]
  slot r := by
    rw [setCpu_proc, setProc_proc, setProc_proc]
    split_ifs with hq' hq
    · subst hq'
      exact .inr ⟨hlock', hx'⟩
    · subst hq
      exact .inr ⟨hlock, hx⟩
    · exact .inl rfl

theorem others_of_move (hinv : Inv calm s) (hsafe : calm → Safe s a) (hm : Move s a t) :
    Others calm s t a.cpu := by
  have hsame : ∀ {c : κ} {q : π} {x : Proc π κ} {y : Cpu π},
      (s.proc q).lock = none ∨ (s.proc q).lock = some c → x.state = (s.proc q).state →
      x.context = (s.proc q).context → x.parent = (s.proc q).parent →
      Others calm s ((s.setProc q x).setCpu c y) c := fun hlock hstate hctx hparent =>
    .update hlock (.of_eq hinv hstate hctx hparent)
  cases hm with
  | panic | stay => exact ⟨rfl, fun _ _ => rfl, fun _ => .inl rfl⟩
  | goto hgoto =>
    rw [hgoto.cpu]
    exact .setCpu _
  | spin d hspin =>
    rw [hspin.cpu]
    exact (Others.setCpu _).of_eq rfl rfl rfl
  | wakeup => exact (Others.setCpu _).of_eq rfl rfl rfl
  | visit hlock hvisit =>
    exact (Others.update (.inl hlock) (keeps_of_visit hinv hsafe hvisit)).of_eq rfl rfl rfl
  | pick hcode hlock hstate =>
    exact .update (.inl hlock)
      ⟨fun _ _ _ => rfl, .inl rfl, fun _ _ _ _ hq => hq, fun h => by cases h⟩
  | switched hcode hlock | resume hcode hf hp hlock | slept hcode hp hlock =>
    exact hsame (.inr hlock) rfl rfl rfl
  | yield hoff hp hlock =>
    exact .update (.inl hlock)
      (.leave hp rfl rfl rfl (hinv.quiet_of_noff hoff) (by simp))
  | sleepLock hcode hp hlock | exitLockParent hcode hlock | exitLockSelf hcode hp hlock
  | waitLock hcode hp hlock => exact hsame (.inl hlock) rfl rfl rfl
  | @sleepRelease c o p ch lk k hcode hp hheld d =>
    have hown := Owns.of_proc (hinv.code c _ _ hcode).1 hp
    refine Others.of_eq (u := (s.setProc p _).setCpu c _) ?_ rfl rfl rfl
    exact hsame (.inr hown.1) rfl rfl rfl
  | @sleepSched c o p ch lk k hcode hp =>
    obtain ⟨hown, hk⟩ := hinv.code c _ _ hcode
    exact .update (.inr (Owns.of_proc hown hp).1) (.leave hp rfl rfl rfl hk (by simp))
  | reparentSkip | reparentTest | waitSkip | waitTest | waitPass => exact .setCpu _
  | @reparent c o status op q qs k hcode hlock =>
    obtain ⟨⟨-, hown, hchild⟩, -⟩ := hinv.code c _ _ hcode
    refine .update (.inl hlock) (.child hown hchild (fun hrun => hrun) rfl fun hunused => ?_)
    exact absurd hunused (hinv.child_used hown hchild)
  | @exit c o status op p k hcode hp hne =>
    obtain ⟨⟨hop, hown⟩, hk⟩ := hinv.code c _ _ hcode
    refine .update₂ (.inr hop) ⟨fun _ hstate _ => ?_, .inl rfl, fun _ _ _ _ hq => hq, fun h => ?_⟩
      (.inr (hown.of_proc hp).1) (.leave hp rfl rfl rfl hk (by simp))
    · simp [woken1, hstate]
    · by_cases hstate : (s.proc op).state = .unused
      · exact hinv.orphan op hstate
      · exact absurd h (ne_unused_ite hstate)
  | @waitReap c o p q qs k hcode hp hlock hzombie hne =>
    obtain ⟨⟨hown, hchild⟩, -⟩ := hinv.code c _ _ hcode
    refine .update₂ (.inl hlock) (.child hown hchild (fun h => ?_) ?_ fun h => ?_)
      (.inr (hown.of_proc hp).1) (.of_eq hinv rfl rfl rfl)
    · simp [hzombie] at h
    · split_ifs <;> simp [PState.freeproc]
    · split_ifs at h ⊢
      · simp [hzombie] at h
      · simp [PState.freeproc]
  | waitNone hcode hp | waitSlept hcode hp =>
    exact hsame (.inr (Owns.of_proc (hinv.code _ _ _ hcode).1 hp).1) rfl rfl rfl
  | @waitSleep c o p hk k hcode hp =>
    obtain ⟨hown, hk⟩ := hinv.code c _ _ hcode
    refine Others.of_eq (u := (s.setProc p _).setCode c _) ?_ rfl rfl rfl
    exact .update (.inr (Owns.of_proc hown hp).1) (.leave hp rfl rfl rfl hk (by simp))

/-- A CPU keeps what it owns when a slot keeps its lock and its state. -/
theorem Owns.setProc (h : Owns calm s c) (hlock : x.lock = (s.proc q).lock)
    (hstate : x.state = (s.proc q).state) : Owns calm ((s.setProc q x).setCode c k) c := by
  obtain ⟨p, hp, hheld, hrun⟩ := h
  refine ⟨p, by rw [setCode_cpu_self]; exact hp, ?_⟩
  rw [setCode_proc, setProc_proc]
  split_ifs with hq
  · subst hq
    exact ⟨hlock.trans hheld, fun hcalm => hstate.trans (hrun hcalm)⟩
  · exact ⟨hheld, hrun⟩

/-- A CPU takes the lock of its process. -/
theorem Inv.owns_lock (h : Inv calm s) (hp : (s.cpu c).proc = some p)
    (hlock : (s.proc p).lock = none) :
    Owns calm ((s.setProc p { s.proc p with lock := some c }).setCode c k) c := by
  refine ⟨p, by rw [setCode_cpu_self]; exact hp, ?_, fun hcalm => ?_⟩
  · simp
  · simpa using h.running hcalm hp hlock

theorem Inv.pick (h : Inv calm s) (hk : Quiet k) (hlock : (s.proc q).lock = none)
    (hstate : (s.proc q).state = .runnable) :
    Inv calm ((s.setProc q { s.proc q with lock := some c, state := .running }).setCpu c
      { s.cpu c with
        proc := some q, scheduler := .switched q :: .scheduler qs :: k
        code := (s.proc q).context }) := by
  have hkeeps : Keeps calm s c q { s.proc q with lock := some c, state := .running } :=
    ⟨fun _ _ _ => rfl, .inl rfl, fun _ _ _ _ hq => hq, fun h => by cases h⟩
  refine h.of_others (.update (.inl hlock) hkeeps) (fun _ p hp => ?_)
    (fun hcalm c' p _ hp hp' => ?_) (fun f k' hf => ?_) fun p hp => ?_
  · simp only [setCpu_cpu, if_true, Option.some.injEq] at hp
    subst hp
    simp
  · simp only [setCpu_cpu, if_true, Option.some.injEq] at hp
    subst hp
    rcases h.runs hcalm c' q hp' with hrun | hheld
    · simp [hstate] at hrun
    · simp [hlock] at hheld
  · simp only [setCpu_cpu, if_true] at hf
    obtain ⟨f', k'', hctx, hf', hk''⟩ := h.context q
    cases hctx.symm.trans hf
    exact ⟨held_of_resumes hf' ⟨q, by simp, by simp, fun _ => by simp⟩, hk''⟩
  · simp only [setCpu_cpu, if_true, Option.some.injEq] at hp
    subst hp
    refine ⟨.scheduler qs :: k, by simp, ?_⟩
    exact forall_mem_cons.mpr ⟨rfl, hk⟩

theorem Inv.move (h : Inv calm s) (hsafe : calm → Safe s a) (hm : Move s a t) : Inv calm t := by
  have ho := others_of_move h hsafe hm
  have htail : ∀ {c : κ} {f : Frame π} {k : List (Frame π)},
      (s.cpu c).code = f :: k → Quiet k := fun hcode => (h.code _ _ _ hcode).2
  cases hm with
  | panic => exact ⟨h.table_all, h.runs, h.one, h.code, h.saved, h.context, h.orphan⟩
  | stay => exact h
  | @goto a c k hgoto =>
    have ho : Others calm s (s.setCode c k) c := .setCpu _
    exact h.free ho (setCode_cpu_self k) (h.quiet_goto hgoto) (h.runs · c)
  | @spin a c lk x k d hspin =>
    have ho : Others calm s (s.setSpin c lk x d k) c := (Others.setCpu _).of_eq rfl rfl rfl
    exact h.free (d := d) ho (by simp [setSpin]) (h.quiet_spin hspin) (h.runs · c)
  | wakeup hcode hf =>
    refine h.free ho (setCode_cpu_self _) ?_ (h.runs · _)
    exact forall_mem_cons.mpr ⟨rfl, forall_mem_cons.mpr ⟨quiet_of_busy hf, htail hcode⟩⟩
  | visit hlock hvisit =>
    refine h.free ho (setCode_cpu_self _) (h.quiet_visit hvisit) ?_
    exact h.runs_setProc
      (.inr (.inr fun hcalm hp =>
        running_of_visit (hsafe hcalm) hvisit (h.running hcalm hp hlock)))
  | pick hcode hlock hstate => exact h.pick (htail hcode) hlock hstate
  | @switched c o q k hcode hlock =>
    refine h.of_others (c := c) ho (fun _ p hp => ?_) (fun _ c' p _ hp => ?_) ?_ fun p hp => ?_
    · simp at hp
    · simp at hp
    · simp only [setCpu_cpu, if_true]
      exact held_quiet (htail hcode)
    · simp at hp
  | @resume c _ _ _ _ hcode hf hp hlock =>
    have hown : Owns calm s c := by
      have hheld := (h.code _ _ _ hcode).1
      rcases hf with rfl | rfl <;> exact hheld
    refine h.free ho (setCode_cpu_self _) (htail hcode) ?_
    exact h.runs_setProc (.inr (.inr fun hcalm _ => (hown.of_proc hp).2 hcalm))
  | @yield c p hoff hp hlock =>
    exact h.leave (c := c) ho hp (setCode_cpu_self _) (by simp)
  | sleepLock hcode hp hlock | waitLock hcode hp hlock =>
    exact h.enter ho (setCode_cpu_self _) (h.owns_lock hp hlock) (htail hcode)
      (h.runs_setProc (.inr (.inl rfl)))
  | @sleepRelease c o p ch lk k hcode hp hheld d =>
    obtain ⟨hown, hk⟩ := h.code c _ _ hcode
    obtain ⟨hlock, hrun⟩ := Owns.of_proc hown hp
    refine h.enter (c := c) (f := .sleepSched ch lk) (d := d) ho (by simp [setSpin]) ?_ hk
      (h.runs_setProc (.inl ⟨rfl, rfl⟩))
    refine ⟨p, ?_, ?_, ?_⟩
    · simpa [setSpin] using hp
    · simpa [setSpin] using hlock
    · simpa [setSpin] using hrun
  | @sleepSched c o p ch lk k hcode hp =>
    have hown := Owns.of_proc (h.code c _ _ hcode).1 hp
    exact h.leave (c := c) ho hp (setCode_cpu_self _) (by simpa using hown.1)
  | slept hcode hp hlock =>
    obtain ⟨hown, hk⟩ := h.code _ _ _ hcode
    refine h.free ho (setCode_cpu_self _)
      (forall_mem_cons.mpr ⟨rfl, hk⟩) ?_
    exact h.runs_setProc (.inr (.inr fun hcalm _ => (Owns.of_proc hown hp).2 hcalm))
  | @exitLockParent c o status op k hcode hlock =>
    exact h.enter (c := c) ho (setCode_cpu_self _) (by simp [Held]) (htail hcode)
      (h.runs_setProc (.inr (.inl rfl)))
  | @exitLockSelf c o status op p k hcode hp hlock =>
    have hop : (s.proc op).lock = some c := (h.code c _ _ hcode).1
    refine h.enter ho (setCode_cpu_self _) ⟨?_, h.owns_lock hp hlock⟩
      (htail hcode) (h.runs_setProc (.inr (.inl rfl)))
    rw [setCode_proc, setProc_proc]
    split_ifs
    · rfl
    · exact hop
  | reparentSkip hcode =>
    obtain ⟨⟨hop, hown⟩, hk⟩ := h.code _ _ _ hcode
    exact h.enter ho (setCode_cpu_self _) ⟨hop, hown.setCode⟩ hk (h.runs · _)
  | @reparentTest c o status op p q qs k hcode hp hchild =>
    obtain ⟨⟨hop, hown⟩, hk⟩ := h.code c _ _ hcode
    refine h.enter (c := c) ho (setCode_cpu_self _) ⟨hop, hown.setCode, ?_⟩ hk (h.runs · c)
    rw [setCode_cpu_self]
    exact hchild.trans hp.symm
  | reparent hcode hlock =>
    obtain ⟨⟨hop, hown, -⟩, hk⟩ := h.code _ _ _ hcode
    refine h.enter ho (setCode_cpu_self _) ⟨?_, hown.setProc rfl rfl⟩ hk
      (h.runs_setProc (.inl ⟨rfl, rfl⟩))
    rw [setCode_proc, setProc_proc]
    split_ifs with hq
    · subst hq
      exact hop
    · exact hop
  | @exit c o status op p k hcode hp hne =>
    have hown := (h.code c _ _ hcode).1.2.of_proc hp
    exact h.leave (c := c) ho hp (setCode_cpu_self _) (by simpa using hown.1)
  | waitSkip hcode =>
    obtain ⟨hown, hk⟩ := h.code _ _ _ hcode
    exact h.enter ho (setCode_cpu_self _) (Owns.setCode hown) hk (h.runs · _)
  | @waitTest c o p q qs hk k hcode hp hchild =>
    obtain ⟨hown, hk⟩ := h.code c _ _ hcode
    refine h.enter (c := c) ho (setCode_cpu_self _) ⟨Owns.setCode hown, ?_⟩ hk (h.runs · c)
    rw [setCode_cpu_self]
    exact hchild.trans hp.symm
  | waitPass hcode =>
    obtain ⟨⟨hown, -⟩, hk⟩ := h.code _ _ _ hcode
    exact h.enter ho (setCode_cpu_self _) (Owns.setCode hown) hk (h.runs · _)
  | waitReap hcode hp =>
    obtain ⟨⟨hown, -⟩, hk⟩ := h.code _ _ _ hcode
    refine h.free ho (setCode_cpu_self _) hk fun hcalm p' hp' => .inl ?_
    cases hp.symm.trans hp'
    simpa using (hown.of_proc hp).2 hcalm
  | waitNone hcode hp =>
    obtain ⟨hown, hk⟩ := h.code _ _ _ hcode
    exact h.free ho (setCode_cpu_self _) hk
      (h.runs_setProc (.inr (.inr fun hcalm _ => (Owns.of_proc hown hp).2 hcalm)))
  | @waitSleep c o p hk k hcode hp =>
    have hown := Owns.of_proc (h.code c _ _ hcode).1 hp
    exact h.leave (c := c) ho hp (setCode_cpu_self _) (by simpa using hown.1)
  | waitSlept hcode hp =>
    obtain ⟨hown, hk⟩ := h.code _ _ _ hcode
    exact h.enter ho (setCode_cpu_self _) (Owns.setProc hown rfl rfl) hk
      (h.runs_setProc (.inl ⟨rfl, rfl⟩))

/-! ## Whole runs -/

/-- No process is `c->proc` of two CPUs, and one that is `c->proc` of a CPU is
not RUNNABLE with its lock free. -/
structure OneCpu (s : PState π κ) : Prop where
  one : ∀ c c' p, (s.cpu c).proc = some p → (s.cpu c').proc = some p → c = c'
  taken : ∀ c p, (s.cpu c).proc = some p →
    ¬ ((s.proc p).state = .runnable ∧ (s.proc p).lock = none)

/-- The action is the step of `wait` that finds slot `q`, called by the parent
of `q`. -/
def Reaps (s : PState π κ) (a : Act π κ) (q : π) : Prop :=
  ∃ c o p qs k, a = .step c o ∧ (s.cpu c).code = .waitChild q qs :: k ∧
    (s.cpu c).proc = some p ∧ (s.proc q).parent = some p

omit [DecidableEq π] [DecidableEq κ] in
theorem Inv.oneCpu (h : Inv True s) : OneCpu s where
  one := h.one trivial
  taken c p hp := by
    rintro ⟨hstate, hlock⟩
    simp [h.running trivial hp hlock] at hstate

/-- Slot `x` is a ZOMBIE with the pid and the status of `y`. -/
def SameZombie (x y : Proc π κ) : Prop :=
  x.state = .zombie ∧ x.pid = y.pid ∧ x.xstate = y.xstate

omit [DecidableEq κ] in
theorem zombie_of_visit (hsafe : Safe s (.step c o)) (hvisit : Visit s c q o x k n)
    (hzombie : (s.proc q).state = .zombie) : SameZombie x (s.proc q) := by
  cases hvisit with
  | pass => exact ⟨hzombie, rfl, rfl⟩
  | wakeup | kill => exact ⟨by simp [hzombie], rfl, rfl⟩
  | suspend hcode => exact absurd hzombie (hsafe.suspend hcode).2
  | fork hcode hp hunused => simp [hzombie] at hunused
  | exitWake => exact ⟨by simp [woken1, hzombie], rfl, rfl⟩

/-- A ZOMBIE stays as it is, or the `wait` of its parent returns it. -/
theorem zombie_of_move (h : Inv True s) (hsafe : Safe s a) (hm : Move s a t)
    (hzombie : (s.proc q).state = .zombie) :
    SameZombie (t.proc q) (s.proc q) ∨
      (t.proc q).state = .unused ∧ Reaps s a q ∧ ∀ c, a ≠ .step c .noCopy := by
  -- the slot that an action changes is another one, or it stays a ZOMBIE
  have hset : ∀ {r : π} {x : Proc π κ}, (q = r → SameZombie x (s.proc q)) →
      SameZombie ((s.setProc r x).proc q) (s.proc q) := by
    intro r x hx
    rw [setProc_proc]
    split_ifs with hq
    · exact hx hq
    · exact ⟨hzombie, rfl, rfl⟩
  have hown : ∀ {c : κ}, Owns True s c → (s.cpu c).proc ≠ some q := by
    rintro c ⟨p, hp, -, hrun⟩ hp'
    cases hp.symm.trans hp'
    simp [hrun] at hzombie
  have hfree : ∀ {c : κ} {p : π}, (s.cpu c).proc = some p → (s.proc p).lock = none → q ≠ p := by
    rintro c p hp hlock rfl
    simp [h.running trivial hp hlock] at hzombie
  cases hm with
  | panic | stay | goto | spin | wakeup | reparentSkip | reparentTest | waitSkip | waitTest
  | waitPass => exact .inl ⟨hzombie, rfl, rfl⟩
  | switched | resume | sleepLock | sleepRelease | slept | exitLockParent | exitLockSelf
  | reparent | waitLock | waitNone | waitSlept =>
    refine .inl (hset ?_)
    rintro rfl
    exact ⟨hzombie, rfl, rfl⟩
  | visit hlock hvisit =>
    refine .inl (hset ?_)
    rintro rfl
    exact zombie_of_visit hsafe hvisit hzombie
  | pick hcode hlock hstate =>
    refine .inl (hset ?_)
    rintro rfl
    simp [hstate] at hzombie
  | yield hoff hp hlock => exact .inl (hset fun hq => absurd hq (hfree hp hlock))
  | sleepSched hcode hp | waitSleep hcode hp =>
    refine .inl (hset ?_)
    rintro rfl
    exact absurd hp (hown (h.code _ _ _ hcode).1)
  | exit hcode hp hne =>
    left
    rw [setCode_proc, setProc_proc]
    split_ifs with hq
    · exact absurd (hq ▸ hp) (hown (h.code _ _ _ hcode).1.2)
    · refine hset ?_
      rintro rfl
      exact ⟨by simp [woken1, hzombie], rfl, rfl⟩
  | @waitReap c o p r qs k hcode hp hlock hstate hne =>
    obtain ⟨hheld, hchild⟩ := (h.code _ _ _ hcode).1
    have hqp : q ≠ p := by
      rintro rfl
      exact hown hheld hp
    rw [setCode_proc, setProc_proc, if_neg hqp]
    by_cases hcopy : q = r ∧ o ≠ .noCopy
    · obtain ⟨rfl, ho⟩ := hcopy
      refine .inr ⟨by simp [ho, PState.freeproc],
        ⟨c, o, p, qs, k, rfl, hcode, hp, hchild.trans hp⟩, fun c' hc' => ho ?_⟩
      cases hc'
      rfl
    · refine .inl (hset ?_)
      rintro rfl
      rw [if_pos (not_not.mp fun ho => hcopy ⟨rfl, ho⟩)]
      exact ⟨hzombie, rfl, rfl⟩

omit [DecidableEq π] [DecidableEq κ] in
theorem PState.Init.inv (h : s.Init) : Inv calm s where
  table_all := h.table_all
  runs _ c p hp := by simp [h.idle c] at hp
  one _ c c' p hp := by simp [h.idle c] at hp
  code c f k hf := by
    rw [(h.idle c).2.1] at hf
    cases hf
    exact ⟨trivial, by simp [Quiet]⟩
  saved c p hp := by simp [h.idle c] at hp
  context p := by
    rcases (h.slot p).2.2.2 with hctx | hctx <;> exact ⟨_, [], hctx, rfl, by simp [Quiet]⟩
  orphan p _ := (h.slot p).2.1

/-- In a run in which every `ksuspend` finds its target neither RUNNING nor
ZOMBIE, no process is on two CPUs, a process on a CPU cannot be picked by
another one, and a ZOMBIE becomes UNUSED in the `wait` of its parent. -/
theorem one_cpu_of_safe {s₀ : PState π κ} {as : List (Act π κ)} (hinit : s₀.Init)
    (hsafe : (processes π κ).Meets Safe s₀ as) (hrun : (processes π κ).run s₀ as = some s) :
    OneCpu s ∧ ∀ a t q, Safe s a → (processes π κ).step s a = some t →
      (s.proc q).state = .zombie → (t.proc q).state ≠ .zombie →
      (t.proc q).state = .unused ∧ Reaps s a q := by
  have hinv : Inv True s := (processes π κ).run_invariant_of_meets
    (fun u b v hu hG hstep => hu.move (fun _ => hG) (move_of_step hstep).2) hinit.inv hsafe hrun
  refine ⟨hinv.oneCpu, fun a t q hG hstep hzombie hleft => ?_⟩
  obtain ⟨hunused, hreaps, -⟩ :=
    (zombie_of_move hinv hG (move_of_step hstep).2 hzombie).resolve_left fun h => hleft h.1
  exact ⟨hunused, hreaps⟩

def cpu0 : Fin NCPU := ⟨0, by decide⟩
def cpu1 : Fin NCPU := ⟨1, by decide⟩
def cpu2 : Fin NCPU := ⟨2, by decide⟩
def slot1 : Fin NPROC := ⟨1, by decide⟩

/-- The state after `userinit`. -/
def booted : PState (Fin NPROC) (Fin NCPU) where
  proc p := if p.val = 0 then
      { lock := none, state := .runnable, parent := none, chan := .zero, killed := false
        xstate := 0, pid := 1, context := [.forkret], slept := 0 }
    else
      { lock := none, state := .unused, parent := none, chan := .zero, killed := false
        xstate := 0, pid := 0, context := [.zeroed], slept := 0 }
  cpu _ := { proc := none, scheduler := [], code := [.scheduler []], depth := 0 }
  spin _ := none
  table := List.finRange NPROC
  initproc := ⟨0, by decide⟩
  nextpid := 2
  panicked := none
  clock := 0

theorem booted_init : booted.Init where
  table_all p := mem_finRange p
  unlocked p := by
    simp only [booted]
    split_ifs <;> rfl
  init := ⟨rfl, rfl, rfl, rfl⟩
  unused p hp := by
    have hne : p.val ≠ 0 := fun h => hp (Fin.ext h)
    simp [booted, hne, Proc.Clean]
  idle _ := ⟨rfl, rfl, rfl⟩
  running := rfl

/-- CPU 0 runs the first process, which forks and suspends its child before a
CPU runs it. -/
theorem one_cpu_of_suspend : ∃ s, (processes (Fin NPROC) (Fin NCPU)).run booted
    [.step cpu0 .ok, .step cpu0 .ok, .step cpu0 .ok, .call cpu0 .fork, .step cpu0 .ok,
      .step cpu0 .ok, .call cpu0 (.suspend 2), .step cpu0 .ok, .step cpu0 .ok] = some s ∧
    (s.proc slot1).state = .suspended ∧ OneCpu s := by
  obtain ⟨s, hrun, hstate⟩ : ∃ s, (processes (Fin NPROC) (Fin NCPU)).run booted
      [.step cpu0 .ok, .step cpu0 .ok, .step cpu0 .ok, .call cpu0 .fork, .step cpu0 .ok,
        .step cpu0 .ok, .call cpu0 (.suspend 2), .step cpu0 .ok, .step cpu0 .ok] = some s ∧
      (s.proc slot1).state = .suspended := ⟨_, rfl, rfl⟩
  exact ⟨s, hrun, hstate, (one_cpu_of_safe booted_init (by decide) hrun).1⟩

/-! ## A process on two CPUs -/

/-- CPU 0 runs the first process, which forks.  CPU 1 runs the child.  The
first process suspends the child, and CPU 2 looks for work. -/
def suspendRunning : List (Act (Fin NPROC) (Fin NCPU)) :=
  [.step cpu0 .ok, .step cpu0 .ok, .step cpu0 .ok,
    .call cpu0 .fork, .step cpu0 .ok, .step cpu0 .ok,
    .step cpu1 .ok, .step cpu1 .ok, .step cpu1 .ok, .step cpu1 .ok,
    .call cpu0 (.suspend 2), .step cpu0 .ok, .step cpu0 .ok, .ret cpu0,
    .step cpu0 .ok, .step cpu0 .ok,
    .step cpu2 .ok, .step cpu2 .ok, .step cpu2 .ok]

/-- The child is then `c->proc` of CPU 1 and of CPU 2. -/
theorem suspended_on_two_cpus : booted.Init ∧ ∃ s,
    (processes (Fin NPROC) (Fin NCPU)).run booted suspendRunning = some s ∧ ¬ OneCpu s := by
  obtain ⟨s, hrun, h₁, h₂⟩ : ∃ s,
      (processes (Fin NPROC) (Fin NCPU)).run booted suspendRunning = some s ∧
        (s.cpu cpu1).proc = some slot1 ∧ (s.cpu cpu2).proc = some slot1 := ⟨_, rfl, rfl, rfl⟩
  refine ⟨booted_init, s, hrun, fun h => ?_⟩
  have hsame : cpu1 = cpu2 := h.one _ _ _ h₁ h₂
  exact absurd hsame (by decide)

end SummerOsk.Sched
