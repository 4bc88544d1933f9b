import SummerOsk.Params
import SummerOsk.Lib.Machine

/-!
# The process table and its scheduler

This is the part of `kernel/proc.c` that changes the state of a process, with
the traps of `kernel/trap.c` that call it, as one machine over any number of
CPUs and slots.  An action runs the code of one CPU up to the next point where
another CPU can interfere: a critical section under one `p->lock` is one
action, and `wait` and `exit`, which hold a lock while they take others, are
several.

A CPU runs a list of frames, the innermost call first.  `swtch` is the exchange
of that list: `sched` stores it in the context of the process and goes on with
the scheduler of the CPU, and `scheduler` does the reverse.  User code has the
empty list.  Code outside `proc.c` takes and releases spin locks of its own.
The `noff` of a CPU is the number of locks that it holds, and it takes
interrupts when it holds none.

No code reads `clock`, the stamps of the calls of `wakeup` and the `slept` of a
slot: they record in which order locks were released in `sleep` and calls of
`wakeup` began.
-/

namespace SummerOsk.Sched

open Lib Function

/-! ## The state -/

/-- `enum procstate`. -/
inductive ProcState where
  | unused
  | sleeping
  | runnable
  | running
  | suspended
  | zombie
  deriving DecidableEq, Repr

/-- A sleep channel: 0, the address of a slot, or another address. -/
inductive Chan (π : Type) where
  | zero
  | proc (p : π)
  | addr (a : Nat)
  deriving DecidableEq, Repr

/-- A call in progress, with what it still has to do. -/
inductive Frame (π : Type) where
  /-- A system call or trap outside `proc.c`, which may sleep. -/
  | busy
  /-- The handler of a device interrupt. -/
  | handler
  /-- The loop of `scheduler`, with the slots that are left. -/
  | scheduler (qs : List π)
  /-- `scheduler` after its `swtch`. -/
  | switched (q : π)
  /-- `yield` after `sched`. -/
  | yielded
  /-- `forkret`. -/
  | forkret
  /-- `sleep(chan, lk)` at `acquire(&p->lock)`, with another lock than
  `p->lock`. -/
  | sleepLock (ch : Chan π) (lk : Nat)
  /-- `sleep` at `release(lk)`. -/
  | sleepRelease (ch : Chan π) (lk : Nat)
  /-- `sleep` after `release(lk)`. -/
  | sleepSched (ch : Chan π) (lk : Nat)
  /-- `sleep` after `sched`. -/
  | slept (lk : Nat)
  /-- `sleep` at `acquire(lk)`. -/
  | relock (lk : Nat)
  /-- `exit` after `sched`. -/
  | exited
  /-- The context of a slot that was never in use. -/
  | zeroed
  /-- The loop of `wakeup`, with the time at which it was called. -/
  | wakeup (ch : Chan π) (qs : List π) (n : Nat)
  | kill (pid : Int) (qs : List π)
  /-- The first loop of `ksuspend`. -/
  | suspend (pid : Int) (qs : List π)
  /-- The loop of `allocproc` in `fork`. -/
  | fork (qs : List π)
  /-- `exit` at `wakeup1(initproc)`. -/
  | exitWake (status : Int)
  /-- `exit` where it reads `p->parent`. -/
  | exitParent (status : Int)
  /-- `exit` at `acquire(&original_parent->lock)`. -/
  | exitLockParent (status : Int) (op : Option π)
  /-- `exit` at `acquire(&p->lock)`, with the lock of the parent. -/
  | exitLockSelf (status : Int) (op : π)
  /-- `exit` in `reparent`, with both locks. -/
  | reparent (status : Int) (op : π) (qs : List π)
  /-- `reparent` at `acquire(&pp->lock)`, after its test of `pp->parent`. -/
  | reparentChild (status : Int) (op pp : π) (qs : List π)
  /-- `wait` at `acquire(&p->lock)`. -/
  | waitLock
  /-- The inner loop of `wait`, with `p->lock`. -/
  | waitScan (qs : List π) (havekids : Bool)
  /-- `wait` at `acquire(&np->lock)`, after its test of `np->parent`. -/
  | waitChild (np : π) (qs : List π)
  /-- `wait` in `sleep(p, &p->lock)` after `sched`. -/
  | waitSlept

/-- `struct proc`. -/
structure Proc (π κ : Type) where
  /-- The CPU that holds `p->lock`. -/
  lock : Option κ
  state : ProcState
  parent : Option π
  chan : Chan π
  killed : Bool
  xstate : Int
  pid : Int
  context : List (Frame π)
  /-- When its last call of `sleep` released the lock. -/
  slept : Nat

/-- `struct cpu`. -/
structure Cpu (π : Type) where
  proc : Option π
  scheduler : List (Frame π)
  /-- The code that the CPU runs. -/
  code : List (Frame π)
  /-- The number of spin locks that the CPU holds besides those of slots. -/
  depth : Nat

/-- The process table `proc`, in the order of the loops, the CPUs, and the
holders of the other spin locks. -/
structure PState (π κ : Type) where
  proc : π → Proc π κ
  cpu : κ → Cpu π
  spin : Nat → Option κ
  table : List π
  initproc : π
  nextpid : Int
  panicked : Option String
  clock : Nat

/-- Why a piece of code does not run to its end now. -/
inductive Stop where
  /-- It waits in `acquire`, or it is not at this point. -/
  | spin
  | panic (msg : String)
  deriving DecidableEq, Repr

/-- What is decided outside of `proc.c`: whether memory is left in `fork`, and
whether the `copyout` of `wait` reaches the address it was given. -/
inductive Outcome where
  | ok
  /-- `kalloc` fails in `allocproc`. -/
  | noTrapframe
  /-- `uvmcopy` fails in `fork`, or `copyout` in `wait`. -/
  | noCopy
  deriving DecidableEq, Repr

/-- The system calls that a process can make. -/
inductive Syscall where
  | fork
  | exit (status : Int)
  | wait
  | kill (pid : Int)
  | suspend (pid : Int)
  /-- Any other one. -/
  | other
  deriving DecidableEq, Repr

inductive Act (π κ : Type) where
  /-- Run the innermost call up to its next point of interference. -/
  | step (c : κ) (o : Outcome)
  /-- A system call of the process that CPU `c` runs. -/
  | call (c : κ) (sc : Syscall)
  /-- The end of a call outside `proc.c`. -/
  | ret (c : κ)
  /-- Such a call or a handler reaches `acquire(lk)`. -/
  | acquire (c : κ) (lk : Nat)
  /-- It reaches `release(lk)`. -/
  | release (c : κ) (lk : Nat)
  /-- It reaches `wakeup`. -/
  | wakeup (c : κ) (ch : Chan π)
  /-- A call outside `proc.c` reaches `sleep`. -/
  | sleep (c : κ) (ch : Chan π) (lk : Nat)
  /-- A device interrupt. -/
  | interrupt (c : κ)
  /-- A timer interrupt. -/
  | timer (c : κ)

namespace PState

variable {π κ : Type} [DecidableEq π] [DecidableEq κ]

def setProc (s : PState π κ) (p : π) (x : Proc π κ) : PState π κ :=
  { s with proc := update s.proc p x }

def setCpu (s : PState π κ) (c : κ) (x : Cpu π) : PState π κ :=
  { s with cpu := update s.cpu c x }

def setState (s : PState π κ) (p : π) (st : ProcState) : PState π κ :=
  s.setProc p { s.proc p with state := st }

def setCode (s : PState π κ) (c : κ) (k : List (Frame π)) : PState π κ :=
  s.setCpu c { s.cpu c with code := k }

/-! ## Locks and context switches -/

/-- `acquire(&p->lock)` on CPU `c`. -/
def acquire (s : PState π κ) (c : κ) (p : π) : Except Stop (PState π κ) :=
  match (s.proc p).lock with
  | none => .ok (s.setProc p { s.proc p with lock := some c })
  | some c' => .error (if c' = c then .panic "acquire" else .spin)

/-- `release(&p->lock)` on CPU `c`. -/
def release (s : PState π κ) (c : κ) (p : π) : Except Stop (PState π κ) :=
  if (s.proc p).lock = some c then .ok (s.setProc p { s.proc p with lock := none })
  else .error (.panic "release")

/-- `acquire(lk)` on CPU `c`, for another lock than that of a slot. -/
def acquireSpin (s : PState π κ) (c : κ) (lk : Nat) : Except Stop (PState π κ) :=
  match s.spin lk with
  | none =>
    .ok { s.setCpu c { s.cpu c with depth := (s.cpu c).depth + 1 } with
      spin := update s.spin lk (some c) }
  | some c' => .error (if c' = c then .panic "acquire" else .spin)

/-- `release(lk)` on CPU `c`, for another lock than that of a slot. -/
def releaseSpin (s : PState π κ) (c : κ) (lk : Nat) : Except Stop (PState π κ) :=
  if s.spin lk = some c then
    .ok { s.setCpu c { s.cpu c with depth := (s.cpu c).depth - 1 } with
      spin := update s.spin lk none }
  else .error (.panic "release")

/-- The number of locks that CPU `c` holds. -/
def noff (s : PState π κ) (c : κ) : Nat :=
  (s.table.countP fun p => (s.proc p).lock = some c) + (s.cpu c).depth

/-- `myproc`, for a caller that follows the pointer. -/
def myproc (s : PState π κ) (c : κ) : Except Stop π :=
  match (s.cpu c).proc with
  | some p => .ok p
  | none => .error (.panic "kerneltrap")

/-- `sched` called with the frames `k`. -/
def sched (s : PState π κ) (c : κ) (p : π) (k : List (Frame π)) : Except Stop (PState π κ) :=
  if (s.proc p).lock ≠ some c then .error (.panic "sched p->lock")
  else if s.noff c ≠ 1 then .error (.panic "sched locks")
  else if (s.proc p).state = .running then .error (.panic "sched running")
  else .ok ((s.setProc p { s.proc p with context := k }).setCode c (s.cpu c).scheduler)

/-- `yield` called from the frames `k`. -/
def yield (s : PState π κ) (c : κ) (k : List (Frame π)) : Except Stop (PState π κ) := do
  let p ← s.myproc c
  let s ← s.acquire c p
  let s := s.setState p .runnable
  s.sched c p (.yielded :: k)

/-- The call of `wakeup` from the frames `k`. -/
def wakeup (s : PState π κ) (c : κ) (ch : Chan π) (k : List (Frame π)) : PState π κ :=
  { s.setCode c (.wakeup ch s.table s.clock :: k) with clock := s.clock + 1 }

/-- `p` goes to sleep. -/
def fallAsleep (s : PState π κ) (p : π) (ch : Chan π) : PState π κ :=
  s.setProc p { s.proc p with chan := ch, state := .sleeping }

/-- Process `p` is past the release of the lock in `sleep`. -/
def stamp (s : PState π κ) (p : π) : PState π κ :=
  { s.setProc p { s.proc p with slept := s.clock } with clock := s.clock + 1 }

/-- `wakeup1`. -/
def wakeup1 (s : PState π κ) (c : κ) (p : π) : Except Stop (PState π κ) :=
  if (s.proc p).lock ≠ some c then .error (.panic "wakeup1")
  else if (s.proc p).chan = .proc p ∧ (s.proc p).state = .sleeping then
    .ok (s.setState p .runnable)
  else .ok s

/-- `freeproc`, without the memory it frees. -/
def freeproc (s : PState π κ) (p : π) : PState π κ :=
  s.setProc p { s.proc p with
    pid := 0, parent := none, chan := .zero, killed := false, xstate := 0, state := .unused }

/-- `allocproc` once it found the slot `np`, with its lock, and the rest of
`fork` by `p`. -/
def forkInto (s : PState π κ) (p np : π) (o : Outcome) : PState π κ :=
  let s := { s.setProc np { s.proc np with pid := s.nextpid } with nextpid := s.nextpid + 1 }
  match o with
  | .noTrapframe => s
  | .noCopy => (s.setProc np { s.proc np with context := [.forkret] }).freeproc np
  | .ok =>
    s.setProc np { s.proc np with context := [.forkret], parent := some p, state := .runnable }

/-- `exit` up to the point where it closes files. -/
def exit (s : PState π κ) (c : κ) (status : Int) (k : List (Frame π)) :
    Except Stop (PState π κ) := do
  let p ← s.myproc c
  if p = s.initproc then .error (.panic "init exiting")
  else .ok (s.setCode c (.busy :: .exitWake status :: k))

/-! ## The frames -/

/-- Run frame `f` of CPU `c`, which was called from the frames `k`. -/
def exec (s : PState π κ) (c : κ) (o : Outcome) (k : List (Frame π)) :
    Frame π → Except Stop (PState π κ)
  | .busy | .handler => .error .spin
  | .scheduler [] => .ok (s.setCode c (.scheduler s.table :: k))
  | .scheduler (q :: qs) => do
    let s ← s.acquire c q
    if (s.proc q).state = .runnable then
      let s := s.setState q .running
      .ok (s.setCpu c { s.cpu c with
        proc := some q, scheduler := .switched q :: .scheduler qs :: k
        code := (s.proc q).context })
    else
      let s ← s.release c q
      .ok (s.setCode c (.scheduler qs :: k))
  | .switched q => do
    let s := s.setCpu c { s.cpu c with proc := none }
    let s ← s.release c q
    .ok (s.setCode c k)
  | .yielded | .forkret => do
    let p ← s.myproc c
    let s ← s.release c p
    .ok (s.setCode c k)
  | .sleepLock ch lk => do
    let p ← s.myproc c
    let s ← s.acquire c p
    .ok (s.setCode c (.sleepRelease ch lk :: k))
  | .sleepRelease ch lk => do
    let p ← s.myproc c
    let s ← s.releaseSpin c lk
    .ok ((s.stamp p).setCode c (.sleepSched ch lk :: k))
  | .sleepSched ch lk => do
    let p ← s.myproc c
    let s := s.fallAsleep p ch
    s.sched c p (.slept lk :: k)
  | .slept lk => do
    let p ← s.myproc c
    let s := s.setProc p { s.proc p with chan := .zero }
    let s ← s.release c p
    .ok (s.setCode c (.relock lk :: k))
  | .relock lk => do
    let s ← s.acquireSpin c lk
    .ok (s.setCode c k)
  | .exited => .error (.panic "zombie exit")
  | .zeroed => .error (.panic "kerneltrap")
  | .wakeup _ [] _ | .kill _ [] | .suspend _ [] | .fork [] => .ok (s.setCode c k)
  | .wakeup ch (q :: qs) n => do
    let s ← s.acquire c q
    let s := if (s.proc q).state = .sleeping ∧ (s.proc q).chan = ch then
      s.setState q .runnable else s
    let s ← s.release c q
    .ok (s.setCode c (.wakeup ch qs n :: k))
  | .kill pid (q :: qs) => do
    let s ← s.acquire c q
    if (s.proc q).pid = pid then
      let s := s.setProc q { s.proc q with killed := true }
      let s := if (s.proc q).state = .sleeping ∨ (s.proc q).state = .suspended then
        s.setState q .runnable else s
      let s ← s.release c q
      .ok (s.setCode c k)
    else
      let s ← s.release c q
      .ok (s.setCode c (.kill pid qs :: k))
  | .suspend pid (q :: qs) => do
    let s ← s.acquire c q
    if (s.proc q).pid = pid then
      let s := s.setState q .suspended
      let s ← s.release c q
      -- the four calls of `filewrite`, then `kill(pid)`
      .ok (s.setCode c (.busy :: .kill pid s.table :: k))
    else
      let s ← s.release c q
      .ok (s.setCode c (.suspend pid qs :: k))
  | .fork (q :: qs) => do
    let p ← s.myproc c
    let s ← s.acquire c q
    if (s.proc q).state = .unused then
      let s ← (s.forkInto p q o).release c q
      .ok (s.setCode c k)
    else
      let s ← s.release c q
      .ok (s.setCode c (.fork qs :: k))
  | .exitWake status => do
    let s ← s.acquire c s.initproc
    let s ← s.wakeup1 c s.initproc
    let s ← s.release c s.initproc
    .ok (s.setCode c (.exitParent status :: k))
  | .exitParent status => do
    let p ← s.myproc c
    let s ← s.acquire c p
    let op := (s.proc p).parent
    let s ← s.release c p
    .ok (s.setCode c (.exitLockParent status op :: k))
  | .exitLockParent _ none => .error (.panic "kerneltrap")
  | .exitLockParent status (some op) => do
    let s ← s.acquire c op
    .ok (s.setCode c (.exitLockSelf status op :: k))
  | .exitLockSelf status op => do
    let p ← s.myproc c
    let s ← s.acquire c p
    .ok (s.setCode c (.reparent status op s.table :: k))
  | .reparent status op (q :: qs) => do
    let p ← s.myproc c
    if (s.proc q).parent = some p then .ok (s.setCode c (.reparentChild status op q qs :: k))
    else .ok (s.setCode c (.reparent status op qs :: k))
  | .reparentChild status op q qs => do
    let s ← s.acquire c q
    let s := s.setProc q { s.proc q with parent := some s.initproc }
    let s ← s.release c q
    .ok (s.setCode c (.reparent status op qs :: k))
  | .reparent status op [] => do
    let p ← s.myproc c
    let s ← s.wakeup1 c op
    let s := s.setProc p { s.proc p with xstate := status, state := .zombie }
    let s ← s.release c op
    s.sched c p (.exited :: k)
  | .waitLock => do
    let p ← s.myproc c
    let s ← s.acquire c p
    .ok (s.setCode c (.waitScan s.table false :: k))
  | .waitScan (q :: qs) havekids => do
    let p ← s.myproc c
    if (s.proc q).parent = some p then .ok (s.setCode c (.waitChild q qs :: k))
    else .ok (s.setCode c (.waitScan qs havekids :: k))
  | .waitChild q qs => do
    let p ← s.myproc c
    let s ← s.acquire c q
    if (s.proc q).state = .zombie then
      let s := if o = .noCopy then s else s.freeproc q
      let s ← s.release c q
      let s ← s.release c p
      .ok (s.setCode c k)
    else
      let s ← s.release c q
      .ok (s.setCode c (.waitScan qs true :: k))
  | .waitScan [] havekids => do
    let p ← s.myproc c
    if havekids = false ∨ (s.proc p).killed = true then
      let s ← s.release c p
      .ok (s.setCode c k)
    else
      let s := (s.stamp p).fallAsleep p (.proc p)
      s.sched c p (.waitSlept :: k)
  | .waitSlept => do
    let p ← s.myproc c
    let s := s.setProc p { s.proc p with chan := .zero }
    .ok (s.setCode c (.waitScan s.table false :: k))

/-- A system call by the process that CPU `c` runs. -/
def call (s : PState π κ) (c : κ) : Syscall → Except Stop (PState π κ)
  | .fork => .ok (s.setCode c [.fork s.table])
  | .exit status => s.exit c status []
  | .wait => .ok (s.setCode c [.waitLock])
  | .kill pid => .ok (s.setCode c [.kill pid s.table])
  | .suspend pid => .ok (s.setCode c [.suspend pid s.table])
  | .other => .ok (s.setCode c [.busy])

/-- The timer part of `usertrap` and `kerneltrap`, for an interrupt of the
frames `k`. -/
def timer (s : PState π κ) (c : κ) (k : List (Frame π)) : Except Stop (PState π κ) :=
  match (s.cpu c).proc, k with
  | none, _ => .ok s
  | some p, [] => if (s.proc p).killed then s.exit c (-1) [] else s.yield c []
  | some p, f :: k => if (s.proc p).state = .running then s.yield c (f :: k) else .ok s

/-- The code that an action runs. -/
def act (s : PState π κ) : Act π κ → Except Stop (PState π κ)
  | .step c o =>
    match (s.cpu c).code with
    | f :: k => s.exec c o k f
    | [] => .error .spin
  | .call c sc => if (s.cpu c).code.isEmpty then s.call c sc else .error .spin
  | .ret c =>
    match (s.cpu c).code with
    | .busy :: k | .handler :: k => .ok (s.setCode c k)
    | _ => .error .spin
  | .acquire c lk =>
    match (s.cpu c).code with
    | .busy :: _ | .handler :: _ => s.acquireSpin c lk
    | _ => .error .spin
  | .release c lk =>
    match (s.cpu c).code with
    | .busy :: _ | .handler :: _ => s.releaseSpin c lk
    | _ => .error .spin
  | .wakeup c ch =>
    match (s.cpu c).code with
    | .busy :: k => .ok (s.wakeup c ch (.busy :: k))
    | .handler :: k => .ok (s.wakeup c ch (.handler :: k))
    | _ => .error .spin
  | .sleep c ch lk =>
    match (s.cpu c).code with
    | .busy :: k => .ok (s.setCode c (.sleepLock ch lk :: .busy :: k))
    | _ => .error .spin
  | .interrupt c =>
    if s.noff c = 0 then .ok (s.setCode c (.handler :: (s.cpu c).code)) else .error .spin
  | .timer c => if s.noff c = 0 then s.timer c (s.cpu c).code else .error .spin

/-- One action.  Code that has to wait for a lock has no step, and a kernel
that panicked takes no more steps. -/
def step (s : PState π κ) (a : Act π κ) : Option (PState π κ) :=
  if s.panicked.isSome then none
  else match s.act a with
  | .ok t => some t
  | .error .spin => none
  | .error (.panic e) => some { s with panicked := some e }

end PState

/-- The process table as a machine. -/
def processes (π κ : Type) [DecidableEq π] [DecidableEq κ] : Machine (PState π κ) (Act π κ) :=
  ⟨PState.step⟩

/-- What `freeproc` leaves in a slot, and what the slots start with. -/
def Proc.Clean {π κ : Type} (x : Proc π κ) : Prop :=
  x.pid = 0 ∧ x.killed = false ∧ x.parent = none ∧ x.chan = .zero

/-- The state after `userinit`, with every CPU at the start of its
scheduler. -/
structure PState.Init {π κ : Type} (s : PState π κ) : Prop where
  table_all : ∀ p, p ∈ s.table
  unlocked : ∀ p, (s.proc p).lock = none
  init : (s.proc s.initproc).state = .runnable ∧ (s.proc s.initproc).context = [.forkret] ∧
    (s.proc s.initproc).parent = none ∧ (s.proc s.initproc).chan = .zero
  unused : ∀ p, p ≠ s.initproc → (s.proc p).state = .unused ∧ (s.proc p).context = [.zeroed] ∧
    (s.proc p).Clean
  idle : ∀ c, (s.cpu c).proc = none ∧ (s.cpu c).code = [.scheduler []] ∧
    (s.cpu c).scheduler = []
  running : s.panicked = none

end SummerOsk.Sched
