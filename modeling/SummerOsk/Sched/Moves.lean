import SummerOsk.Sched.Defs
import SummerOsk.Lib.Except

/-!
# What an action can do

The spec lemmas give what `acquire`, `release`, `sched` and `wakeup1` do when
they return.  `Move` then says once what an action of the machine can do, and
`move_of_step` is the inversion of the step function that every invariant goes
through.  `Goto` collects the moves that only change the code of a CPU, `Spin`
those that take or release a spin lock, and `Visit` the critical sections of one
slot that begin and end without a lock.
-/

namespace SummerOsk.Sched

open Lib Function PState

variable {π κ : Type}

namespace PState

variable {s t : PState π κ} {a : Act π κ} {c : κ} {p q : π} {k : List (Frame π)} {lk : Nat}

/-! ## Updates -/

theorem proc_of_unlocked (h : (s.proc p).lock = none) :
    { s.proc p with lock := none } = s.proc p := by
  rw [← h]

section

variable [DecidableEq π]

@[simp] theorem setProc_proc (q : π) (x : Proc π κ) :
    (s.setProc p x).proc q = if q = p then x else s.proc q :=
  update_apply _ _ _ _

@[simp] theorem setProc_cpu (x : Proc π κ) : (s.setProc p x).cpu = s.cpu := rfl

@[simp] theorem setProc_table (x : Proc π κ) : (s.setProc p x).table = s.table := rfl

@[simp] theorem setProc_initproc (x : Proc π κ) : (s.setProc p x).initproc = s.initproc := rfl

@[simp] theorem setProc_setProc (x y : Proc π κ) : (s.setProc p x).setProc p y = s.setProc p y := by
  simp [setProc]

theorem setProc_comm (h : p ≠ q) (x y : Proc π κ) :
    (s.setProc p x).setProc q y = (s.setProc q y).setProc p x := by
  simp [setProc, update_comm h]

@[simp] theorem setProc_self : s.setProc p (s.proc p) = s := by
  simp [setProc]

theorem ite_setState {P : Prop} [Decidable P] {st : ProcState} :
    (if P then s.setState p st else s) =
      s.setState p (if P then st else (s.proc p).state) := by
  split_ifs
  · rfl
  · exact setProc_self.symm

end

section

variable [DecidableEq κ]

@[simp] theorem setCpu_proc (x : Cpu π) : (s.setCpu c x).proc = s.proc := rfl

@[simp] theorem setCpu_cpu (c' : κ) (x : Cpu π) :
    (s.setCpu c x).cpu c' = if c' = c then x else s.cpu c' :=
  update_apply _ _ _ _

@[simp] theorem setCode_proc (k : List (Frame π)) : (s.setCode c k).proc = s.proc := rfl

theorem setCode_code (k : List (Frame π)) : ((s.setCode c k).cpu c).code = k := by
  rw [setCode, setCpu_cpu, if_pos rfl]

theorem setCode_cpu_self (k : List (Frame π)) :
    (s.setCode c k).cpu c = { s.cpu c with code := k } := by
  rw [setCode, setCpu_cpu, if_pos rfl]

end

/-! ## Spec lemmas -/

theorem myproc_eq_ok : s.myproc c = .ok p ↔ (s.cpu c).proc = some p := by
  unfold myproc
  cases (s.cpu c).proc with
  | none => simp
  | some q => simp

theorem myproc_bind {g : π → Except Stop (PState π κ)} (h : s.myproc c >>= g = .ok t) :
    ∃ p, (s.cpu c).proc = some p ∧ g p = .ok t := by
  obtain ⟨p, hp, h⟩ := bind_eq_ok.mp h
  exact ⟨p, myproc_eq_ok.mp hp, h⟩

section

variable [DecidableEq κ]

/-- CPU `c` goes on with the code `k`, after a change of lock `lk`. -/
def setSpin (s : PState π κ) (c : κ) (lk : Nat) (h : Option κ) (d : Nat) (k : List (Frame π)) :
    PState π κ :=
  { s.setCpu c { s.cpu c with code := k, depth := d } with spin := update s.spin lk h }

theorem acquireSpin_eq_ok (h : s.acquireSpin c lk = .ok t) :
    s.spin lk = none ∧
      t = s.setSpin c lk (some c) ((s.cpu c).depth + 1) (s.cpu c).code := by
  unfold acquireSpin at h
  cases hspin : s.spin lk with
  | none =>
    rw [hspin] at h
    exact ⟨rfl, (Except.ok.inj h).symm⟩
  | some c' => simp [hspin] at h

theorem releaseSpin_eq_ok (h : s.releaseSpin c lk = .ok t) :
    s.spin lk = some c ∧
      t = s.setSpin c lk none ((s.cpu c).depth - 1) (s.cpu c).code := by
  unfold releaseSpin at h
  split_ifs at h with hspin
  exact ⟨hspin, (Except.ok.inj h).symm⟩

end

variable [DecidableEq π] [DecidableEq κ] {g : PState π κ → Except Stop (PState π κ)}

theorem acquire_eq_ok : s.acquire c p = .ok t ↔
    (s.proc p).lock = none ∧ t = s.setProc p { s.proc p with lock := some c } := by
  unfold acquire
  cases h : (s.proc p).lock with
  | none => simp [eq_comm]
  | some c' => simp

theorem release_eq_ok : s.release c p = .ok t ↔
    (s.proc p).lock = some c ∧ t = s.setProc p { s.proc p with lock := none } := by
  unfold release
  split_ifs with h
  · simp [h, eq_comm]
  · simp [h]

theorem acquire_bind (h : s.acquire c p >>= g = .ok t) :
    (s.proc p).lock = none ∧ g (s.setProc p { s.proc p with lock := some c }) = .ok t := by
  obtain ⟨u, hu, h⟩ := bind_eq_ok.mp h
  obtain ⟨hlock, rfl⟩ := acquire_eq_ok.mp hu
  exact ⟨hlock, h⟩

theorem release_bind (h : s.release c p >>= g = .ok t) :
    (s.proc p).lock = some c ∧ g (s.setProc p { s.proc p with lock := none }) = .ok t := by
  obtain ⟨u, hu, h⟩ := bind_eq_ok.mp h
  obtain ⟨hlock, rfl⟩ := release_eq_ok.mp hu
  exact ⟨hlock, h⟩

theorem sched_eq_ok (h : s.sched c p k = .ok t) :
    (s.proc p).lock = some c ∧
      t = (s.setProc p { s.proc p with context := k }).setCode c (s.cpu c).scheduler := by
  unfold sched at h
  split_ifs at h with hlock
  exact ⟨not_not.mp hlock, (Except.ok.inj h).symm⟩

/-- The state that `wakeup1` leaves its slot in. -/
def woken1 (s : PState π κ) (p : π) : ProcState :=
  if (s.proc p).chan = .proc p ∧ (s.proc p).state = .sleeping then .runnable
  else (s.proc p).state

theorem wakeup1_eq_ok (h : s.wakeup1 c p = .ok t) : t = s.setState p (s.woken1 p) := by
  rw [woken1, ← ite_setState]
  unfold wakeup1 at h
  split_ifs at h ⊢ with hlock hsleep
  · exact (Except.ok.inj h).symm
  · exact (Except.ok.inj h).symm

end PState

variable [DecidableEq π] [DecidableEq κ]

/-! ## The moves -/

/-- The frame is a loop that has no slots left. -/
def Frame.finished : Frame π → Bool
  | .wakeup _ [] _ | .kill _ [] | .suspend _ [] | .fork [] => true
  | _ => false

/-- The moves of CPU `c` that only change its code, and the new code. -/
inductive Goto (s : PState π κ) (c : κ) : Act π κ → List (Frame π) → Prop
  | rescan {o k} (hcode : (s.cpu c).code = .scheduler [] :: k) :
      Goto s c (.step c o) (.scheduler s.table :: k)
  | loopEnd {o f k} (hcode : (s.cpu c).code = f :: k) (hf : f.finished = true) :
      Goto s c (.step c o) k
  | fork (hcode : (s.cpu c).code = []) : Goto s c (.call c .fork) [.fork s.table]
  | wait (hcode : (s.cpu c).code = []) : Goto s c (.call c .wait) [.waitLock]
  | kill {pid} (hcode : (s.cpu c).code = []) : Goto s c (.call c (.kill pid)) [.kill pid s.table]
  | suspend {pid} (hcode : (s.cpu c).code = []) :
      Goto s c (.call c (.suspend pid)) [.suspend pid s.table]
  | other (hcode : (s.cpu c).code = []) : Goto s c (.call c .other) [.busy]
  | exit {a status p} (hcode : (s.cpu c).code = []) (ha : a = .call c (.exit status) ∨ a = .timer c)
      (hp : (s.cpu c).proc = some p) (hne : p ≠ s.initproc) : Goto s c a [.busy, .exitWake status]
  | ret {f k} (hcode : (s.cpu c).code = f :: k) (hf : f = .busy ∨ f = .handler) :
      Goto s c (.ret c) k
  | sleep {ch lk k} (hcode : (s.cpu c).code = .busy :: k) :
      Goto s c (.sleep c ch lk) (.sleepLock ch lk :: .busy :: k)
  | interrupt (hoff : s.noff c = 0) : Goto s c (.interrupt c) (.handler :: (s.cpu c).code)

/-- The moves of CPU `c` that change the holder of a spin lock, with the lock,
its new holder and the new code. -/
inductive Spin (s : PState π κ) (c : κ) : Act π κ → Nat → Option κ → List (Frame π) → Prop
  | acquire {lk f k} (hcode : (s.cpu c).code = f :: k) (hf : f = .busy ∨ f = .handler)
      (hfree : s.spin lk = none) : Spin s c (.acquire c lk) lk (some c) (f :: k)
  | release {lk f k} (hcode : (s.cpu c).code = f :: k) (hf : f = .busy ∨ f = .handler)
      (hheld : s.spin lk = some c) : Spin s c (.release c lk) lk none (f :: k)
  | relock {o lk k} (hcode : (s.cpu c).code = .relock lk :: k) (hfree : s.spin lk = none) :
      Spin s c (.step c o) lk (some c) k

/-- The critical sections of CPU `c` under the lock of slot `q` alone, with the
slot, the code of the CPU and `nextpid` after it. -/
inductive Visit (s : PState π κ) (c : κ) (q : π) :
    Outcome → Proc π κ → List (Frame π) → Int → Prop
  | pass {o f f' k} (hcode : (s.cpu c).code = f :: k)
      (hf : (∃ qs, f = .scheduler (q :: qs) ∧ f' = .scheduler qs) ∨
        (∃ pid qs, f = .kill pid (q :: qs) ∧ f' = .kill pid qs) ∨
        (∃ pid qs, f = .suspend pid (q :: qs) ∧ f' = .suspend pid qs) ∨
        (∃ qs, f = .fork (q :: qs) ∧ f' = .fork qs) ∨
        (∃ status, f = .exitParent status ∧ (s.cpu c).proc = some q ∧
          f' = .exitLockParent status (s.proc q).parent)) :
      Visit s c q o (s.proc q) (f' :: k) s.nextpid
  | wakeup {o ch qs n k} (hcode : (s.cpu c).code = .wakeup ch (q :: qs) n :: k) :
      Visit s c q o { s.proc q with
        state := if (s.proc q).state = .sleeping ∧ (s.proc q).chan = ch then .runnable
          else (s.proc q).state } (.wakeup ch qs n :: k) s.nextpid
  | kill {o qs k} (hcode : (s.cpu c).code = .kill (s.proc q).pid (q :: qs) :: k) :
      Visit s c q o { s.proc q with
        killed := true
        state := if (s.proc q).state = .sleeping ∨ (s.proc q).state = .suspended then .runnable
          else (s.proc q).state } k s.nextpid
  | suspend {o qs k} (hcode : (s.cpu c).code = .suspend (s.proc q).pid (q :: qs) :: k) :
      Visit s c q o { s.proc q with state := .suspended }
        (.busy :: .kill (s.proc q).pid s.table :: k) s.nextpid
  | fork {o p qs k} (hcode : (s.cpu c).code = .fork (q :: qs) :: k) (hp : (s.cpu c).proc = some p)
      (hunused : (s.proc q).state = .unused) :
      Visit s c q o { (s.forkInto p q o).proc q with lock := none } k (s.nextpid + 1)
  | exitWake {o status k} (hcode : (s.cpu c).code = .exitWake status :: k) (hq : q = s.initproc) :
      Visit s c q o { s.proc q with state := s.woken1 q } (.exitParent status :: k) s.nextpid

/-- The possible effects of one action, with their conditions. -/
inductive Move (s : PState π κ) : Act π κ → PState π κ → Prop
  | panic {a} (e : String) : Move s a { s with panicked := some e }
  | stay {c} : Move s (.timer c) s
  | goto {a c k} (hgoto : Goto s c a k) : Move s a (s.setCode c k)
  | spin {a c lk h k} (d : Nat) (hspin : Spin s c a lk h k) : Move s a (s.setSpin c lk h d k)
  | wakeup {c ch f k} (hcode : (s.cpu c).code = f :: k) (hf : f = .busy ∨ f = .handler) :
      Move s (.wakeup c ch)
        { s.setCode c (.wakeup ch s.table s.clock :: f :: k) with clock := s.clock + 1 }
  | visit {c o q x k n} (hlock : (s.proc q).lock = none) (hvisit : Visit s c q o x k n) :
      Move s (.step c o) { (s.setProc q x).setCode c k with nextpid := n }
  | pick {c o q qs k} (hcode : (s.cpu c).code = .scheduler (q :: qs) :: k)
      (hlock : (s.proc q).lock = none) (hstate : (s.proc q).state = .runnable) :
      Move s (.step c o)
        ((s.setProc q { s.proc q with lock := some c, state := .running }).setCpu c
          { s.cpu c with
            proc := some q, scheduler := .switched q :: .scheduler qs :: k
            code := (s.proc q).context })
  | switched {c o q k} (hcode : (s.cpu c).code = .switched q :: k)
      (hlock : (s.proc q).lock = some c) :
      Move s (.step c o)
        ((s.setProc q { s.proc q with lock := none }).setCpu c
          { s.cpu c with proc := none, code := k })
  /-- The return from `yield` or `forkret`. -/
  | resume {c o p f k} (hcode : (s.cpu c).code = f :: k) (hf : f = .yielded ∨ f = .forkret)
      (hp : (s.cpu c).proc = some p) (hlock : (s.proc p).lock = some c) :
      Move s (.step c o) ((s.setProc p { s.proc p with lock := none }).setCode c k)
  | yield {c p} (hoff : s.noff c = 0) (hp : (s.cpu c).proc = some p)
      (hlock : (s.proc p).lock = none) :
      Move s (.timer c)
        ((s.setProc p { s.proc p with
          lock := some c, state := .runnable, context := .yielded :: (s.cpu c).code }).setCode c
          (s.cpu c).scheduler)
  | sleepLock {c o p ch lk k} (hcode : (s.cpu c).code = .sleepLock ch lk :: k)
      (hp : (s.cpu c).proc = some p) (hlock : (s.proc p).lock = none) :
      Move s (.step c o)
        ((s.setProc p { s.proc p with lock := some c }).setCode c (.sleepRelease ch lk :: k))
  | sleepRelease {c o p ch lk k} (hcode : (s.cpu c).code = .sleepRelease ch lk :: k)
      (hp : (s.cpu c).proc = some p) (hheld : s.spin lk = some c) (d : Nat) :
      Move s (.step c o)
        { (s.setProc p { s.proc p with slept := s.clock }).setSpin c lk none d
          (.sleepSched ch lk :: k) with clock := s.clock + 1 }
  | sleepSched {c o p ch lk k} (hcode : (s.cpu c).code = .sleepSched ch lk :: k)
      (hp : (s.cpu c).proc = some p) :
      Move s (.step c o)
        ((s.setProc p { s.proc p with
          chan := ch, state := .sleeping, context := .slept lk :: k }).setCode c
          (s.cpu c).scheduler)
  | slept {c o p lk k} (hcode : (s.cpu c).code = .slept lk :: k) (hp : (s.cpu c).proc = some p)
      (hlock : (s.proc p).lock = some c) :
      Move s (.step c o)
        ((s.setProc p { s.proc p with chan := .zero, lock := none }).setCode c
          (.relock lk :: k))
  | exitLockParent {c o status op k}
      (hcode : (s.cpu c).code = .exitLockParent status (some op) :: k)
      (hlock : (s.proc op).lock = none) :
      Move s (.step c o)
        ((s.setProc op { s.proc op with lock := some c }).setCode c
          (.exitLockSelf status op :: k))
  | exitLockSelf {c o status op p k} (hcode : (s.cpu c).code = .exitLockSelf status op :: k)
      (hp : (s.cpu c).proc = some p) (hlock : (s.proc p).lock = none) :
      Move s (.step c o)
        ((s.setProc p { s.proc p with lock := some c }).setCode c
          (.reparent status op s.table :: k))
  | reparentSkip {c o status op p q qs k}
      (hcode : (s.cpu c).code = .reparent status op (q :: qs) :: k) (hp : (s.cpu c).proc = some p)
      (hother : (s.proc q).parent ≠ some p) :
      Move s (.step c o) (s.setCode c (.reparent status op qs :: k))
  | reparentTest {c o status op p q qs k}
      (hcode : (s.cpu c).code = .reparent status op (q :: qs) :: k) (hp : (s.cpu c).proc = some p)
      (hchild : (s.proc q).parent = some p) :
      Move s (.step c o) (s.setCode c (.reparentChild status op q qs :: k))
  | reparent {c o status op q qs k} (hcode : (s.cpu c).code = .reparentChild status op q qs :: k)
      (hlock : (s.proc q).lock = none) :
      Move s (.step c o)
        ((s.setProc q { s.proc q with parent := some s.initproc }).setCode c
          (.reparent status op qs :: k))
  | exit {c o status op p k} (hcode : (s.cpu c).code = .reparent status op [] :: k)
      (hp : (s.cpu c).proc = some p) (hne : p ≠ op) :
      Move s (.step c o)
        (((s.setProc op { s.proc op with state := s.woken1 op, lock := none }).setProc p
          { s.proc p with xstate := status, state := .zombie, context := .exited :: k }).setCode c
          (s.cpu c).scheduler)
  | waitLock {c o p k} (hcode : (s.cpu c).code = .waitLock :: k) (hp : (s.cpu c).proc = some p)
      (hlock : (s.proc p).lock = none) :
      Move s (.step c o)
        ((s.setProc p { s.proc p with lock := some c }).setCode c
          (.waitScan s.table false :: k))
  | waitSkip {c o p q qs hk k} (hcode : (s.cpu c).code = .waitScan (q :: qs) hk :: k)
      (hp : (s.cpu c).proc = some p) (hother : (s.proc q).parent ≠ some p) :
      Move s (.step c o) (s.setCode c (.waitScan qs hk :: k))
  | waitTest {c o p q qs hk k} (hcode : (s.cpu c).code = .waitScan (q :: qs) hk :: k)
      (hp : (s.cpu c).proc = some p) (hchild : (s.proc q).parent = some p) :
      Move s (.step c o) (s.setCode c (.waitChild q qs :: k))
  /-- A child that has not exited. -/
  | waitPass {c o q qs k} (hcode : (s.cpu c).code = .waitChild q qs :: k)
      (hlock : (s.proc q).lock = none) (halive : (s.proc q).state ≠ .zombie) :
      Move s (.step c o) (s.setCode c (.waitScan qs true :: k))
  /-- The end of `wait` for a zombie child, which stays when `copyout` fails. -/
  | waitReap {c o p q qs k} (hcode : (s.cpu c).code = .waitChild q qs :: k)
      (hp : (s.cpu c).proc = some p) (hlock : (s.proc q).lock = none)
      (hzombie : (s.proc q).state = .zombie) (hne : p ≠ q) :
      Move s (.step c o)
        (((s.setProc q (if o = .noCopy then s.proc q else (s.freeproc q).proc q)).setProc p
          { s.proc p with lock := none }).setCode c k)
  | waitNone {c o p hk k} (hcode : (s.cpu c).code = .waitScan [] hk :: k)
      (hp : (s.cpu c).proc = some p) :
      Move s (.step c o) ((s.setProc p { s.proc p with lock := none }).setCode c k)
  | waitSleep {c o p hk k} (hcode : (s.cpu c).code = .waitScan [] hk :: k)
      (hp : (s.cpu c).proc = some p) :
      Move s (.step c o)
        { (s.setProc p { s.proc p with
          chan := .proc p, state := .sleeping, context := .waitSlept :: k
          slept := s.clock }).setCode c (s.cpu c).scheduler with clock := s.clock + 1 }
  | waitSlept {c o p k} (hcode : (s.cpu c).code = .waitSlept :: k) (hp : (s.cpu c).proc = some p) :
      Move s (.step c o)
        ((s.setProc p { s.proc p with chan := .zero }).setCode c
          (.waitScan s.table false :: k))

/-- The CPU of an action. -/
def Act.cpu : Act π κ → κ
  | .step c _ | .call c _ | .ret c | .acquire c _ | .release c _ | .wakeup c _ | .sleep c _ _
  | .interrupt c | .timer c => c

variable {s t : PState π κ} {a : Act π κ} {c : κ} {p q : π} {k : List (Frame π)} {lk : Nat}
  {o : Outcome}

omit [DecidableEq π] in
theorem Goto.cpu (h : Goto s c a k) : a.cpu = c := by
  cases h with
  | exit hcode ha => rcases ha with rfl | rfl <;> rfl
  | rescan | loopEnd | fork | wait | kill | suspend | other | ret | sleep | interrupt => rfl

omit [DecidableEq π] [DecidableEq κ] in
theorem Spin.cpu {x : Option κ} (h : Spin s c a lk x k) : a.cpu = c := by
  cases h <;> rfl

/-! ## The inversion of the step function -/

open PState

theorem move_of_visit {x : Proc π κ} (hlock : (s.proc q).lock = none)
    (hvisit : Visit s c q o { x with lock := none } k s.nextpid)
    (h : ((s.setProc q x).release c q >>= fun s => .ok (s.setCode c k)) = .ok t) :
    Move s (.step c o) t := by
  obtain ⟨-, h⟩ := release_bind h
  cases h
  simp only [setProc_setProc, setProc_proc, if_true]
  exact .visit hlock hvisit

theorem move_of_pass {f' : Frame π} (hlock : (s.proc q).lock = none)
    (hvisit : Visit s c q o (s.proc q) (f' :: k) s.nextpid)
    (h : ((s.setProc q { s.proc q with lock := some c }).release c q >>=
      fun s => .ok (s.setCode c (f' :: k))) = .ok t) : Move s (.step c o) t := by
  refine move_of_visit hlock ?_ h
  rwa [proc_of_unlocked hlock]

theorem move_of_exec {f : Frame π} (hcode : (s.cpu c).code = f :: k)
    (h : s.exec c o k f = .ok t) : Move s (.step c o) t := by
  cases f with
  | busy | handler | exited | zeroed => cases h
  | scheduler qs =>
    cases qs with
    | nil =>
      cases h
      exact .goto (.rescan hcode)
    | cons q qs =>
      obtain ⟨hlock, h⟩ := acquire_bind h
      simp only [setProc_proc, if_true] at h
      split_ifs at h with hstate
      · cases h
        simpa [setState] using Move.pick (o := o) hcode hlock hstate
      · exact move_of_pass hlock (.pass hcode (.inl ⟨qs, rfl, rfl⟩)) h
  | switched q =>
    obtain ⟨hlock, h⟩ := release_bind h
    cases h
    simpa [setCpu, setProc, setCode] using Move.switched (o := o) hcode hlock
  | yielded | forkret =>
    obtain ⟨p, hp, h⟩ := myproc_bind h
    obtain ⟨hlock, h⟩ := release_bind h
    cases h
    exact .resume hcode (by simp) hp hlock
  | sleepLock ch lk =>
    obtain ⟨p, hp, h⟩ := myproc_bind h
    obtain ⟨hlock, h⟩ := acquire_bind h
    cases h
    exact .sleepLock hcode hp hlock
  | sleepRelease ch lk =>
    obtain ⟨p, hp, h⟩ := myproc_bind h
    obtain ⟨u, hu, h⟩ := bind_eq_ok.mp h
    obtain ⟨hheld, rfl⟩ := releaseSpin_eq_ok hu
    cases h
    simpa [stamp, setSpin, setProc, setCode, setCpu] using
      Move.sleepRelease (o := o) hcode hp hheld ((s.cpu c).depth - 1)
  | sleepSched ch lk =>
    obtain ⟨p, hp, h⟩ := myproc_bind h
    obtain ⟨-, rfl⟩ := sched_eq_ok h
    simpa [fallAsleep] using Move.sleepSched (o := o) hcode hp
  | slept lk =>
    obtain ⟨p, hp, h⟩ := myproc_bind h
    obtain ⟨hlock, h⟩ := release_bind h
    cases h
    simpa using Move.slept (o := o) hcode hp (by simpa using hlock)
  | relock lk =>
    obtain ⟨u, hu, h⟩ := bind_eq_ok.mp h
    obtain ⟨hfree, rfl⟩ := acquireSpin_eq_ok hu
    cases h
    simpa [setSpin, setCode, setCpu] using
      Move.spin ((s.cpu c).depth + 1) (Spin.relock (o := o) hcode hfree)
  | wakeup ch qs n =>
    cases qs with
    | nil =>
      cases h
      exact .goto (.loopEnd hcode rfl)
    | cons q qs =>
      obtain ⟨hlock, h⟩ := acquire_bind h
      simp only [ite_setState] at h
      simp only [setState, setProc_proc, if_true, setProc_setProc] at h
      refine move_of_visit hlock ?_ h
      simpa [hlock] using Visit.wakeup (o := o) hcode
  | kill pid qs =>
    cases qs with
    | nil =>
      cases h
      exact .goto (.loopEnd hcode rfl)
    | cons q qs =>
      obtain ⟨hlock, h⟩ := acquire_bind h
      simp only [ite_setState] at h
      simp only [setState, setProc_proc, if_true, setProc_setProc] at h
      by_cases hpid : (s.proc q).pid = pid
      · rw [if_pos hpid] at h
        refine move_of_visit hlock ?_ h
        subst hpid
        simpa [hlock] using Visit.kill (o := o) hcode
      · rw [if_neg hpid] at h
        exact move_of_pass hlock (.pass hcode (.inr (.inl ⟨pid, qs, rfl, rfl⟩))) h
  | suspend pid qs =>
    cases qs with
    | nil =>
      cases h
      exact .goto (.loopEnd hcode rfl)
    | cons q qs =>
      obtain ⟨hlock, h⟩ := acquire_bind h
      simp only [setState, setProc_proc, if_true, setProc_setProc] at h
      split_ifs at h with hpid
      · subst hpid
        obtain ⟨-, h⟩ := release_bind h
        cases h
        have hmove := Move.visit hlock (Visit.suspend (o := o) hcode)
        simp only [hlock] at hmove
        simp only [setProc_setProc, setProc_proc, if_true, setProc_table]
        exact hmove
      · exact move_of_pass hlock
          (.pass hcode (.inr (.inr (.inl ⟨pid, qs, rfl, rfl⟩)))) h
  | fork qs =>
    cases qs with
    | nil =>
      cases h
      exact .goto (.loopEnd hcode rfl)
    | cons q qs =>
      obtain ⟨p, hp, h⟩ := myproc_bind h
      obtain ⟨hlock, h⟩ := acquire_bind h
      simp only [setProc_proc, if_true] at h
      split_ifs at h with hstate
      · obtain ⟨-, h⟩ := release_bind h
        cases h
        have hmove := Move.visit (o := o) hlock (Visit.fork hcode hp hstate)
        cases o <;> simpa [forkInto, freeproc, setProc, setCode, setCpu] using hmove
      · exact move_of_pass hlock
          (.pass hcode (.inr (.inr (.inr (.inl ⟨qs, rfl, rfl⟩))))) h
  | exitWake status =>
    obtain ⟨hlock, h⟩ := acquire_bind h
    obtain ⟨w, hw, h⟩ := bind_eq_ok.mp h
    rw [wakeup1_eq_ok hw] at h
    simp only [setState, setProc_setProc, setProc_proc, if_true, setProc_initproc] at h
    refine move_of_visit hlock ?_ h
    simpa [hlock, woken1] using Visit.exitWake (o := o) hcode rfl
  | exitParent status =>
    obtain ⟨p, hp, h⟩ := myproc_bind h
    obtain ⟨hlock, h⟩ := acquire_bind h
    simp only [setProc_proc, if_true] at h
    exact move_of_pass hlock
      (.pass hcode (.inr (.inr (.inr (.inr ⟨status, rfl, hp, rfl⟩))))) h
  | exitLockParent status op =>
    cases op with
    | none => cases h
    | some op =>
      obtain ⟨hlock, h⟩ := acquire_bind h
      cases h
      exact .exitLockParent hcode hlock
  | exitLockSelf status op =>
    obtain ⟨p, hp, h⟩ := myproc_bind h
    obtain ⟨hlock, h⟩ := acquire_bind h
    cases h
    exact .exitLockSelf hcode hp hlock
  | reparent status op qs =>
    cases qs with
    | nil =>
      obtain ⟨p, hp, h⟩ := myproc_bind h
      obtain ⟨w, hw, h⟩ := bind_eq_ok.mp h
      obtain ⟨-, h⟩ := release_bind h
      obtain ⟨hlock, rfl⟩ := sched_eq_ok h
      -- `sched` would have found the lock of `p` free
      have hne : p ≠ op := by
        rintro rfl
        simp at hlock
      have hmove := Move.exit (o := o) hcode hp hne
      rw [wakeup1_eq_ok hw]
      simpa [setState, hne, hne.symm, setProc_comm hne] using hmove
    | cons q qs =>
      obtain ⟨p, hp, h⟩ := myproc_bind h
      split_ifs at h with hchild
      · cases h
        exact .reparentTest hcode hp hchild
      · cases h
        exact .reparentSkip hcode hp hchild
  | reparentChild status op q qs =>
    obtain ⟨hlock, h⟩ := acquire_bind h
    obtain ⟨-, h⟩ := release_bind h
    cases h
    simpa [hlock] using Move.reparent (o := o) hcode hlock
  | waitLock =>
    obtain ⟨p, hp, h⟩ := myproc_bind h
    obtain ⟨hlock, h⟩ := acquire_bind h
    cases h
    exact .waitLock hcode hp hlock
  | waitScan qs havekids =>
    cases qs with
    | nil =>
      obtain ⟨p, hp, h⟩ := myproc_bind h
      split_ifs at h with hnone
      · obtain ⟨-, h⟩ := release_bind h
        cases h
        exact .waitNone hcode hp
      · obtain ⟨-, rfl⟩ := sched_eq_ok h
        simpa [stamp, fallAsleep, setProc, setCode, setCpu] using
          Move.waitSleep (o := o) hcode hp
    | cons q qs =>
      obtain ⟨p, hp, h⟩ := myproc_bind h
      split_ifs at h with hchild
      · cases h
        exact .waitTest hcode hp hchild
      · cases h
        exact .waitSkip hcode hp hchild
  | waitChild q qs =>
    obtain ⟨p, hp, h⟩ := myproc_bind h
    obtain ⟨hlock, h⟩ := acquire_bind h
    simp only [setProc_proc, if_true] at h
    by_cases hzombie : (s.proc q).state = .zombie
    · rw [if_pos hzombie] at h
      obtain ⟨-, h⟩ := release_bind h
      obtain ⟨hheld, h⟩ := release_bind h
      cases h
      have hne : p ≠ q := by
        rintro rfl
        simp at hheld
      have hmove := Move.waitReap (o := o) hcode hp hlock hzombie hne
      by_cases ho : o = .noCopy
      · rw [if_pos ho] at hmove ⊢
        simpa [hlock, hne, proc_of_unlocked hlock] using hmove
      · rw [if_neg ho] at hmove ⊢
        simpa [hlock, hne, freeproc] using hmove
    · rw [if_neg hzombie] at h
      obtain ⟨-, h⟩ := release_bind h
      cases h
      simpa [proc_of_unlocked hlock] using Move.waitPass (o := o) hcode hlock hzombie
  | waitSlept =>
    obtain ⟨p, hp, h⟩ := myproc_bind h
    cases h
    exact .waitSlept hcode hp

theorem move_of_exit {status : Int} (hcode : (s.cpu c).code = [])
    (ha : a = .call c (.exit status) ∨ a = .timer c) (h : s.exit c status [] = .ok t) :
    Move s a t := by
  obtain ⟨p, hp, h⟩ := myproc_bind h
  split_ifs at h with hinit
  cases h
  exact .goto (.exit hcode ha hp hinit)

theorem move_of_yield (hoff : s.noff c = 0) (h : s.yield c (s.cpu c).code = .ok t) :
    Move s (.timer c) t := by
  obtain ⟨p, hp, h⟩ := myproc_bind h
  obtain ⟨hlock, h⟩ := acquire_bind h
  obtain ⟨-, rfl⟩ := sched_eq_ok h
  simpa [setState] using Move.yield hoff hp hlock

theorem move_of_timer (hoff : s.noff c = 0) (h : s.timer c (s.cpu c).code = .ok t) :
    Move s (.timer c) t := by
  cases hp : (s.cpu c).proc with
  | none =>
    rw [PState.timer.eq_def, hp] at h
    cases h
    exact .stay
  | some p =>
    cases hcode : (s.cpu c).code with
    | nil =>
      rw [PState.timer.eq_def, hp, hcode] at h
      simp only at h
      split_ifs at h
      · exact move_of_exit hcode (.inr rfl) h
      · exact move_of_yield hoff (by rw [hcode]; exact h)
    | cons f k =>
      rw [PState.timer.eq_def, hp, hcode] at h
      simp only at h
      split_ifs at h
      · exact move_of_yield hoff (by rw [hcode]; exact h)
      · cases h
        exact .stay

theorem move_of_act (h : s.act a = .ok t) : Move s a t := by
  cases a with
  | step c o =>
    cases hcode : (s.cpu c).code with
    | nil => simp [act, hcode] at h
    | cons f k =>
      simp only [act, hcode] at h
      exact move_of_exec hcode h
  | call c sc =>
    simp only [act] at h
    split_ifs at h with hempty
    have hcode : (s.cpu c).code = [] := by simpa using hempty
    cases sc with
    | fork => cases h; exact .goto (.fork hcode)
    | exit status => exact move_of_exit hcode (.inl rfl) h
    | wait => cases h; exact .goto (.wait hcode)
    | kill pid => cases h; exact .goto (.kill hcode)
    | suspend pid => cases h; exact .goto (.suspend hcode)
    | other => cases h; exact .goto (.other hcode)
  | ret c =>
    simp only [act] at h
    split at h
    · rename_i k hcode
      cases h
      exact .goto (.ret hcode (.inl rfl))
    · rename_i k hcode
      cases h
      exact .goto (.ret hcode (.inr rfl))
    · cases h
  | acquire c lk =>
    simp only [act] at h
    split at h
    · rename_i k hcode
      obtain ⟨hfree, rfl⟩ := PState.acquireSpin_eq_ok h
      rw [hcode]
      exact .spin _ (.acquire hcode (.inl rfl) hfree)
    · rename_i k hcode
      obtain ⟨hfree, rfl⟩ := PState.acquireSpin_eq_ok h
      rw [hcode]
      exact .spin _ (.acquire hcode (.inr rfl) hfree)
    · cases h
  | release c lk =>
    simp only [act] at h
    split at h
    · rename_i k hcode
      obtain ⟨hheld, rfl⟩ := PState.releaseSpin_eq_ok h
      rw [hcode]
      exact .spin _ (.release hcode (.inl rfl) hheld)
    · rename_i k hcode
      obtain ⟨hheld, rfl⟩ := PState.releaseSpin_eq_ok h
      rw [hcode]
      exact .spin _ (.release hcode (.inr rfl) hheld)
    · cases h
  | wakeup c ch =>
    simp only [act] at h
    split at h
    · rename_i k hcode
      cases h
      exact .wakeup hcode (.inl rfl)
    · rename_i k hcode
      cases h
      exact .wakeup hcode (.inr rfl)
    · cases h
  | sleep c ch lk =>
    simp only [act] at h
    split at h
    · rename_i k hcode
      cases h
      exact .goto (.sleep hcode)
    · cases h
  | interrupt c =>
    simp only [act] at h
    split_ifs at h with hoff
    cases h
    exact .goto (.interrupt hoff)
  | timer c =>
    simp only [act] at h
    split_ifs at h with hoff
    exact move_of_timer hoff h

/-- A step runs the code of its action, or the kernel panics. -/
theorem act_of_step (h : s.step a = some t) :
    s.act a = .ok t ∨ ∃ e, t = { s with panicked := some e } := by
  unfold PState.step at h
  split_ifs at h
  split at h
  · rename_i u hu
    cases h
    exact .inl hu
  · cases h
  · cases h
    exact .inr ⟨_, rfl⟩

theorem move_of_step (h : s.step a = some t) : s.panicked = none ∧ Move s a t := by
  refine ⟨?_, (act_of_step h).elim move_of_act ?_⟩
  · unfold PState.step at h
    split_ifs at h with hpan
    simpa using hpan
  · rintro ⟨e, rfl⟩
    exact .panic e

/-! ## The initial state -/

omit [DecidableEq π] [DecidableEq κ] in
theorem PState.Init.slot (h : s.Init) (p : π) :
    ((s.proc p).state = .runnable ∨ (s.proc p).state = .unused) ∧ (s.proc p).parent = none ∧
      (s.proc p).chan = .zero ∧
      ((s.proc p).context = [.forkret] ∨ (s.proc p).context = [.zeroed]) := by
  rcases eq_or_ne p s.initproc with rfl | hp
  · exact ⟨.inl h.init.1, h.init.2.2.1, h.init.2.2.2, .inl h.init.2.1⟩
  · obtain ⟨hstate, hctx, -, -, hparent, hchan⟩ := h.unused p hp
    exact ⟨.inr hstate, hparent, hchan, .inr hctx⟩

end SummerOsk.Sched
