import SummerOsk.Log.Defs
import SummerOsk.Lib.Machine
import SummerOsk.Lib.Gate

/-!
# The group commit protocol

Any number of processes call `begin_op`, `log_write` and `end_op`.  Each
critical section under `log.lock` is one action of the machine, and so is the
run of `commit` between the two critical sections of `end_op`.  The tests at
the top of `log_write` run before it takes the lock, so they are an action of
their own: another process may log a block between the tests and the critical
section.

`Move` says once what an action can do.  Every invariant is proved by cases
on it.
-/

namespace SummerOsk.Log

open Lib

/-- Where a process is in its use of the log. -/
inductive Pc where
  /-- Outside any operation. -/
  | idle
  /-- Between `begin_op` and `end_op`. -/
  | inOp
  /-- In `log_write` of a block, past its tests and before `log.lock`. -/
  | logging (b : Nat)
  /-- In `end_op` with `do_commit` set, at the call of `commit`. -/
  | committing
  /-- In `end_op` after `commit`, before the second critical section. -/
  | leaving
  deriving DecidableEq, Repr

/-- The position of a process as its role at the gate that `outstanding` and
`committing` make. -/
def Pc.role : Pc → Role
  | idle => .outside
  | inOp | logging _ => .inside
  | committing | leaving => .owner

/-- The actions of the processes `ι`. -/
inductive Act (ι : Type) where
  /-- One pass through the loop of `begin_op`. -/
  | beginOp (p : ι)
  /-- Change a buffer that the process has read. -/
  | modify (p : ι) (b : Nat) (x : Block)
  /-- The call of `log_write` and its tests. -/
  | logWrite (p : ι) (b : Nat)
  /-- The critical section of `log_write`. -/
  | logLocked (p : ι) (b : Nat)
  /-- The first critical section of `end_op`. -/
  | endOp (p : ι)
  /-- The run of `commit`. -/
  | commit (p : ι)
  /-- The second critical section of `end_op`. -/
  | leave (p : ι)

/-- The log, the position of each process, and the panic that stopped the
kernel, if any. -/
structure GState (ι : Type) where
  log : LogState
  pc : ι → Pc
  panicked : Option String

variable {ι : Type} [DecidableEq ι]

namespace GState

/-- Put process `p` at position `c`. -/
def setPc (s : GState ι) (p : ι) (c : Pc) : GState ι :=
  { s with pc := Function.update s.pc p c }

/-- One action.  An action that its process cannot take now has no step, and
a kernel that panicked takes no more steps. -/
def step (s : GState ι) (a : Act ι) : Option (GState ι) :=
  if s.panicked.isSome then none
  else match a with
  | .beginOp p =>
    if s.pc p = .idle then
      match s.log.beginOp with
      | none => some s
      | some l => some ({ s with log := l }.setPc p .inOp)
    else none
  | .modify p b x =>
    if s.pc p = .inOp then some { s with log := s.log.setData b x } else none
  | .logWrite p b =>
    if s.pc p = .inOp then
      match s.log.logWriteCheck with
      | .ok () => some (s.setPc p (.logging b))
      | .error e => some { s with panicked := some e }
    else none
  | .logLocked p b =>
    if s.pc p = .logging b then
      some ({ s with log := s.log.logWriteLocked b }.setPc p .inOp)
    else none
  | .endOp p =>
    if s.pc p = .inOp then
      match s.log.endOpEnter with
      | .ok (true, l) => some ({ s with log := l }.setPc p .committing)
      | .ok (false, l) => some ({ s with log := l }.setPc p .idle)
      | .error e => some { s with panicked := some e }
    else none
  | .commit p =>
    if s.pc p = .committing then
      some ({ s with log := s.log.commit }.setPc p .leaving)
    else none
  | .leave p =>
    if s.pc p = .leaving then
      some ({ s with log := s.log.endOpLeave }.setPc p .idle)
    else none

end GState

/-- The log protocol as a machine. -/
def protocol (ι : Type) [DecidableEq ι] : Machine (GState ι) (Act ι) := ⟨GState.step⟩

/-- The state after `initlog`: no operation runs, and nothing is logged or
pinned. -/
structure GState.Init (s : GState ι) : Prop where
  idle : ∀ p, s.pc p = .idle
  running : s.panicked = none
  lh_nil : s.log.lh = []
  pins_zero : ∀ b, s.log.pins b = 0
  outstanding_zero : s.log.outstanding = 0
  not_committing : s.log.committing = false

/-- The state after the boot with a disk whose log is empty. -/
def GState.booted (disk : Nat → Block) (start size : Nat) : GState ι where
  log :=
    { disk := disk, data := disk, pins := fun _ => 0, writes := [], start := start
      size := size, outstanding := 0, committing := false, lh := [] }
  pc := fun _ => .idle
  panicked := none

omit [DecidableEq ι] in
theorem GState.booted_init (disk : Nat → Block) (start size : Nat) :
    (GState.booted disk start size : GState ι).Init :=
  ⟨fun _ => rfl, rfl, rfl, fun _ => rfl, rfl, rfl⟩

/-! ## What an action can do -/

/-- The possible effects of one action, with their conditions. -/
inductive Move (s : GState ι) : Act ι → GState ι → Prop
  | beginSleep {p} (hpc : s.pc p = .idle) (h : s.log.beginOp = none) : Move s (.beginOp p) s
  | beginAdmit {p} (hpc : s.pc p = .idle) (hcommit : s.log.committing = false)
      (hroom : (s.log.lh.length : Int) + (s.log.outstanding + 1) * MAXOPBLOCKS ≤ LOGSIZE) :
      Move s (.beginOp p)
        ({ s with log := { s.log with outstanding := s.log.outstanding + 1 } }.setPc p .inOp)
  | modify {p b x} (hpc : s.pc p = .inOp) :
      Move s (.modify p b x) { s with log := s.log.setData b x }
  | logWrite {p b} (hpc : s.pc p = .inOp) (h : s.log.logWriteCheck = .ok ()) :
      Move s (.logWrite p b) (s.setPc p (.logging b))
  | logPanic {p b e} (hpc : s.pc p = .inOp) (h : s.log.logWriteCheck = .error e) :
      Move s (.logWrite p b) { s with panicked := some e }
  | logLocked {p b} (hpc : s.pc p = .logging b) :
      Move s (.logLocked p b) ({ s with log := s.log.logWriteLocked b }.setPc p .inOp)
  | endLast {p} (hpc : s.pc p = .inOp) (hcommit : s.log.committing = false)
      (hout : s.log.outstanding = 1) :
      Move s (.endOp p)
        ({ s with log := { s.log with outstanding := 0, committing := true } }.setPc p .committing)
  | endMore {p} (hpc : s.pc p = .inOp) (hcommit : s.log.committing = false)
      (hout : s.log.outstanding ≠ 1) :
      Move s (.endOp p)
        ({ s with log := { s.log with outstanding := s.log.outstanding - 1 } }.setPc p .idle)
  | endPanic {p} (hpc : s.pc p = .inOp) (hcommit : s.log.committing = true) :
      Move s (.endOp p) { s with panicked := some "log.committing" }
  | commit {p} (hpc : s.pc p = .committing) :
      Move s (.commit p) ({ s with log := s.log.commit }.setPc p .leaving)
  | leave {p} (hpc : s.pc p = .leaving) :
      Move s (.leave p) ({ s with log := s.log.endOpLeave }.setPc p .idle)

theorem move_of_step {s t : GState ι} {a : Act ι} (h : s.step a = some t) :
    s.panicked = none ∧ Move s a t := by
  unfold GState.step at h
  split_ifs at h with hp
  refine ⟨by simpa using hp, ?_⟩
  cases a with
  | beginOp p =>
    simp only at h
    split_ifs at h with hpc
    cases hb : s.log.beginOp with
    | none =>
      rw [hb] at h
      cases h
      exact .beginSleep hpc hb
    | some l =>
      rw [hb] at h
      cases h
      unfold LogState.beginOp at hb
      split_ifs at hb with hc hroom
      cases hb
      exact .beginAdmit hpc (by simpa using hc) (by omega)
  | modify p b x =>
    simp only at h
    split_ifs at h with hpc
    cases h
    exact .modify hpc
  | logWrite p b =>
    simp only at h
    split_ifs at h with hpc
    cases hc : s.log.logWriteCheck with
    | ok u =>
      rw [hc] at h
      cases h
      exact .logWrite hpc hc
    | error e =>
      rw [hc] at h
      cases h
      exact .logPanic hpc hc
  | logLocked p b =>
    simp only at h
    split_ifs at h with hpc
    cases h
    exact .logLocked hpc
  | endOp p =>
    simp only at h
    split_ifs at h with hpc
    unfold LogState.endOpEnter at h
    cases hc : s.log.committing with
    | true =>
      simp only [hc, if_true] at h
      cases h
      exact .endPanic hpc hc
    | false =>
      by_cases hout : s.log.outstanding = 1
      · simp only [hc, hout, Bool.false_eq_true, if_false, sub_self, if_true] at h
        cases h
        exact .endLast hpc hc hout
      · have hne : s.log.outstanding - 1 ≠ 0 := by omega
        simp only [hc, hne, Bool.false_eq_true, if_false] at h
        cases h
        exact hc ▸ .endMore hpc hc hout
  | commit p =>
    simp only at h
    split_ifs at h with hpc
    cases h
    exact .commit hpc
  | leave p =>
    simp only at h
    split_ifs at h with hpc
    cases h
    exact .leave hpc

end SummerOsk.Log
