import SummerOsk.Log.Header
import SummerOsk.Lib.Machine
import SummerOsk.Lib.Gate

/-!
# The buffer cache under the log

This is `kernel/bio.c` together with its use by `kernel/log.c`, as one machine
over any number of processes.  An action is one critical section, or one piece
of code that runs without `bcache.lock` and `log.lock`: `bread` is three
actions (the critical section of `bget`, `acquiresleep`, and the disk read of a
buffer that is not valid), `brelse` is two (`releasesleep` and the critical
section that drops the reference), `log_write` is two (its tests and its
critical section).  `commit` is not atomic either: the process that commits
runs `commitProg` one instruction at a time, through the same `bread` and
`brelse` actions as everybody else.

Three fields are not in the kernel.  They record what happened and no step
looks at them, except that the discipline of the callers is stated with
`dirty`: a buffer that was changed is passed to `log_write` before its
`brelse` and before the `end_op`.
-/

namespace SummerOsk.Bio

open Lib Log Function

/-! ## The code of `commit` -/

/-- The two buffer pointers of the loop bodies of `log.c`: `to` or `lbuf` or
`buf` for the block of the log area, `from` or `dbuf` for the home block. -/
inductive Reg where
  | lbuf
  | dbuf
  deriving DecidableEq, Repr

/-- The instructions of `commit` and of what it calls. -/
inductive Instr where
  /-- `r = bread(log.dev, b)` -/
  | bread (r : Reg) (b : Nat)
  /-- `memmove(dst->data, src->data, BSIZE)` -/
  | memmove (dst src : Reg)
  /-- Fill in the header from `log.lh`, as in `write_head`. -/
  | putHead (r : Reg)
  | bwrite (r : Reg)
  | bunpin (r : Reg)
  | brelse (r : Reg)
  /-- `log.lh.n = 0` -/
  | clear
  deriving DecidableEq, Repr

/-- The loop of `write_log`, from index `tail` on. -/
def writeLogProg (start : Nat) : Nat → List Nat → List Instr
  | _, [] => []
  | tail, b :: bs =>
    .bread .lbuf (start + tail + 1) :: .bread .dbuf b :: .memmove .lbuf .dbuf ::
      .bwrite .lbuf :: .brelse .dbuf :: .brelse .lbuf :: writeLogProg start (tail + 1) bs

/-- `write_head`. -/
def writeHeadProg (start : Nat) : List Instr :=
  [.bread .lbuf start, .putHead .lbuf, .bwrite .lbuf, .brelse .lbuf]

/-- The loop of `install_trans`, from index `tail` on. -/
def installProg (start : Nat) : Nat → List Nat → List Instr
  | _, [] => []
  | tail, b :: bs =>
    .bread .lbuf (start + tail + 1) :: .bread .dbuf b :: .memmove .dbuf .lbuf ::
      .bwrite .dbuf :: .bunpin .dbuf :: .brelse .lbuf :: .brelse .dbuf ::
      installProg start (tail + 1) bs

/-- `commit`. -/
def commitProg (start : Nat) (lh : List Nat) : List Instr :=
  if lh.length > 0 then
    writeLogProg start 0 lh ++ (writeHeadProg start ++ (installProg start 0 lh ++
      (.clear :: writeHeadProg start)))
  else []

/-! ## The state -/

/-- `struct buf`. -/
structure Buf (ι : Type) where
  valid : Bool
  dev : Nat
  blockno : Nat
  /-- The process that holds the sleep lock. -/
  holder : Option ι
  refcnt : Int
  data : Block
  /-- Not in the kernel: the data was changed since the last `log_write`. -/
  dirty : Bool

/-- What a process does with the log. -/
inductive Mode (κ : Type) where
  /-- Outside any operation. -/
  | out
  /-- Between `begin_op` and `end_op`. -/
  | inOp
  /-- In `commit`, with the rest of its code and its local pointers. -/
  | commit (is : List Instr) (regs : Reg → Option κ)

/-- The call into `bio.c` or to `log_write` that a process is in. -/
inductive Call (κ : Type) where
  | none
  /-- In `bget` for a block, with a reference to the buffer, at
  `acquiresleep`. -/
  | waiting (b : Nat) (i : κ)
  /-- In `bread` for a block, after `bget`. -/
  | locked (b : Nat) (i : κ)
  /-- In `log_write`, past its tests. -/
  | logging (i : κ)
  /-- In `brelse`, past `releasesleep`. -/
  | releasing (i : κ)

structure Proc (κ : Type) where
  mode : Mode κ
  call : Call κ

/-- What an observer of the block layer sees. -/
inductive Event (ι : Type) where
  /-- `bread` of a block returned these contents. -/
  | bread (p : ι) (b : Nat) (x : Block)
  /-- `log_write` published these contents of a block. -/
  | logWrite (p : ι) (b : Nat) (x : Block)

/-- The disk, `bcache`, `log` and the processes. -/
structure BState (ι κ : Type) where
  disk : Nat → Block
  buf : κ → Buf ι
  /-- The list through `prev` and `next`, from `head.next` on. -/
  lru : List κ
  start : Nat
  size : Nat
  outstanding : Int
  committing : Bool
  lh : List Nat
  proc : ι → Proc κ
  panicked : Option String
  /-- Not in the kernel: the blocks whose buffers `log_write` has pinned and
  `install_trans` has not unpinned. -/
  pinned : List Nat
  /-- Not in the kernel: what was observed so far. -/
  trace : List (Event ι)

/-- The local pointers of a process in `commit`. -/
def Mode.regs {κ : Type} : Mode κ → Reg → Option κ
  | .commit _ regs => regs
  | .out | .inOp => fun _ => none

/-- The role of a process at the gate that `outstanding` and `committing`
make. -/
def Mode.role {κ : Type} : Mode κ → Role
  | .out => .outside
  | .inOp => .inside
  | .commit _ _ => .owner

/-- `bread` returned buffer `i` to its caller. -/
def Mode.returned {κ : Type} (i : κ) : Mode κ → Mode κ
  | .commit (.bread r _ :: is) regs => .commit is (update regs r (some i))
  | m => m

/-- The call has a reference to buffer `i` beside that of the lock holder. -/
def Call.refers {κ : Type} [DecidableEq κ] (i : κ) : Call κ → Bool
  | .waiting _ j | .releasing j => decide (j = i)
  | .none | .locked _ _ | .logging _ => false

/-- The actions of the processes `ι` on the buffers `κ`. -/
inductive Act (ι κ : Type) where
  /-- One pass through the loop of `begin_op`. -/
  | beginOp (p : ι)
  /-- The call of `bread` and the critical section of `bget`. -/
  | bget (p : ι) (b : Nat)
  /-- `acquiresleep` in `bget`. -/
  | acquiresleep (p : ι)
  /-- The rest of `bread`. -/
  | bread (p : ι)
  /-- Change a buffer. -/
  | modify (p : ι) (i : κ) (x : Block)
  /-- The call of `log_write` and its tests. -/
  | logWrite (p : ι) (i : κ)
  /-- The critical section of `log_write`. -/
  | logLocked (p : ι)
  /-- The call of `brelse` and its `releasesleep`. -/
  | releasesleep (p : ι) (i : κ)
  /-- The critical section of `brelse`. -/
  | brelse (p : ι)
  /-- The first critical section of `end_op`. -/
  | endOp (p : ι)
  /-- The next instruction of `commit`, other than `bread` and `brelse`. -/
  | exec (p : ι)
  /-- The second critical section of `end_op`. -/
  | leave (p : ι)

namespace BState

variable {ι κ : Type} [DecidableEq ι] [DecidableEq κ]

def setBuf (s : BState ι κ) (i : κ) (x : Buf ι) : BState ι κ :=
  { s with buf := update s.buf i x }

def setProc (s : BState ι κ) (p : ι) (x : Proc κ) : BState ι κ :=
  { s with proc := update s.proc p x }

def setCall (s : BState ι κ) (p : ι) (c : Call κ) : BState ι κ :=
  s.setProc p { s.proc p with call := c }

/-- The block lies outside the log area. -/
def home (s : BState ι κ) (b : Nat) : Prop := ¬ InLog s.start s.size b

instance (s : BState ι κ) (b : Nat) : Decidable (s.home b) :=
  inferInstanceAs (Decidable (¬ _))

/-- The first loop of `bget`. -/
def cached (s : BState ι κ) (b : Nat) : Option κ :=
  s.lru.find? fun i => (s.buf i).dev = ROOTDEV ∧ (s.buf i).blockno = b

/-- The second loop of `bget`, from `head.prev` on. -/
def unused (s : BState ι κ) : Option κ :=
  s.lru.reverse.find? fun i => (s.buf i).refcnt = 0

/-- The critical section of `bget`. -/
def bget (s : BState ι κ) (b : Nat) : Except String (κ × BState ι κ) :=
  match s.cached b with
  | some i => .ok (i, s.setBuf i { s.buf i with refcnt := (s.buf i).refcnt + 1 })
  | none =>
    match s.unused with
    | some i =>
      .ok (i, s.setBuf i
        { s.buf i with dev := ROOTDEV, blockno := b, valid := false, refcnt := 1 })
    | none => .error "bget: no buffers"

/-- What `bread` does once it holds the buffer. -/
def fill (s : BState ι κ) (i : κ) : BState ι κ :=
  if (s.buf i).valid then s
  else s.setBuf i { s.buf i with data := s.disk (s.buf i).blockno, valid := true }

/-- The critical section of `brelse`. -/
def dropRef (s : BState ι κ) (i : κ) : BState ι κ :=
  if (s.buf i).refcnt - 1 = 0 then
    { s.setBuf i { s.buf i with refcnt := (s.buf i).refcnt - 1 } with
      lru := i :: s.lru.erase i }
  else s.setBuf i { s.buf i with refcnt := (s.buf i).refcnt - 1 }

/-- The critical section of `log_write`, which publishes the contents of the
buffer. -/
def logWriteLocked (s : BState ι κ) (p : ι) (i : κ) : BState ι κ :=
  let b := (s.buf i).blockno
  let x := { s.buf i with dirty := false }
  { (if b ∈ s.lh then s.setBuf i x
      else { s.setBuf i { x with refcnt := x.refcnt + 1 } with
        lh := s.lh ++ [b], pinned := s.pinned ++ [b] }) with
    trace := s.trace ++ [.logWrite p b (s.buf i).data] }

/-- One instruction of `commit`, other than `bread` and `brelse`. -/
def execInstr (s : BState ι κ) (p : ι) (regs : Reg → Option κ) :
    Instr → Option (Except String (BState ι κ))
  | .memmove dst src =>
    match regs dst, regs src with
    | some i, some j => some (.ok (s.setBuf i { s.buf i with data := (s.buf j).data }))
    | _, _ => none
  | .putHead r =>
    match regs r with
    | some i => some (.ok (s.setBuf i { s.buf i with data := Log.putHead (s.buf i).data s.lh }))
    | none => none
  | .bwrite r =>
    match regs r with
    | some i =>
      if (s.buf i).holder = some p then
        some (.ok { s with disk := update s.disk (s.buf i).blockno (s.buf i).data })
      else some (.error "bwrite")
    | none => none
  | .bunpin r =>
    match regs r with
    | some i =>
      some (.ok { s.setBuf i { s.buf i with refcnt := (s.buf i).refcnt - 1 } with
        pinned := s.pinned.erase (s.buf i).blockno })
    | none => none
  | .clear => some (.ok { s with lh := [] })
  | .bread _ _ | .brelse _ => none

/-- The two tests of `log_write` that run before it takes `log.lock`. -/
def logWriteCheck (s : BState ι κ) : Except String Unit :=
  if (s.lh.length : Int) ≥ LOGSIZE ∨ (s.lh.length : Int) ≥ (s.size : Int) - 1 then
    .error "too big a transaction"
  else if s.outstanding < 1 then .error "log_write outside of trans"
  else .ok ()

/-- Process `p` may call `bread` of block `b` now: the next instruction of
`commit` does, and other code reads blocks outside the log area only. -/
def mayRead (s : BState ι κ) (p : ι) (b : Nat) : Bool :=
  match (s.proc p).mode with
  | .commit (.bread _ b' :: _) _ => b' = b
  | .commit _ _ => false
  | .out | .inOp => s.home b

/-- One action.  An action that its process cannot take now has no step, and
a kernel that panicked takes no more steps. -/
def step [Fintype κ] (s : BState ι κ) (a : Act ι κ) : Option (BState ι κ) :=
  if s.panicked.isSome then none
  else match a with
  | .beginOp p =>
    match (s.proc p).mode, (s.proc p).call with
    | .out, .none =>
      if s.committing then some s
      else if (s.lh.length : Int) + (s.outstanding + 1) * MAXOPBLOCKS > LOGSIZE then some s
      else some ({ s with outstanding := s.outstanding + 1 }.setProc p ⟨.inOp, .none⟩)
    | _, _ => none
  | .bget p b =>
    match (s.proc p).call with
    | .none =>
      if s.mayRead p b then
        match s.bget b with
        | .ok (i, t) => some (t.setCall p (.waiting b i))
        | .error e => some { s with panicked := some e }
      else none
    | _ => none
  | .acquiresleep p =>
    match (s.proc p).call with
    | .waiting b i =>
      if (s.buf i).holder = none then
        some ((s.setBuf i { s.buf i with holder := some p }).setCall p (.locked b i))
      else none
    | _ => none
  | .bread p =>
    match (s.proc p).call with
    | .locked b i =>
      some { (s.fill i).setProc p ⟨(s.proc p).mode.returned i, .none⟩ with
        trace := s.trace ++ [.bread p b ((s.fill i).buf i).data] }
    | _ => none
  | .modify p i x =>
    match (s.proc p).mode, (s.proc p).call with
    | .inOp, .none =>
      if (s.buf i).holder = some p then
        some (s.setBuf i { s.buf i with data := x, dirty := true })
      else none
    | _, _ => none
  | .logWrite p i =>
    match (s.proc p).mode, (s.proc p).call with
    | .inOp, .none =>
      if (s.buf i).holder = some p then
        match s.logWriteCheck with
        | .ok () => some (s.setCall p (.logging i))
        | .error e => some { s with panicked := some e }
      else none
    | _, _ => none
  | .logLocked p =>
    match (s.proc p).call with
    | .logging i => some ((s.logWriteLocked p i).setCall p .none)
    | _ => none
  | .releasesleep p i =>
    match (s.proc p).mode, (s.proc p).call with
    | .commit (.brelse r :: is) regs, .none =>
      if regs r = some i then
        if (s.buf i).holder = some p then
          some ((s.setBuf i { s.buf i with holder := none }).setProc p
            ⟨.commit is (update regs r none), .releasing i⟩)
        else some { s with panicked := some "brelse" }
      else none
    | .commit _ _, _ => none
    | _, .none =>
      if (s.buf i).holder = some p then
        if (s.buf i).dirty then none
        else some ((s.setBuf i { s.buf i with holder := none }).setCall p (.releasing i))
      else some { s with panicked := some "brelse" }
    | _, _ => none
  | .brelse p =>
    match (s.proc p).call with
    | .releasing i => some ((s.dropRef i).setCall p .none)
    | _ => none
  | .endOp p =>
    match (s.proc p).mode, (s.proc p).call with
    | .inOp, .none =>
      if ∀ i, (s.buf i).holder = some p → (s.buf i).dirty = false then
        if s.committing then some { s with panicked := some "log.committing" }
        else if s.outstanding - 1 = 0 then
          some ({ s with outstanding := s.outstanding - 1, committing := true }.setProc p
            ⟨.commit (commitProg s.start s.lh) fun _ => none, .none⟩)
        else some ({ s with outstanding := s.outstanding - 1 }.setProc p ⟨.out, .none⟩)
      else none
    | _, _ => none
  | .exec p =>
    match (s.proc p).mode, (s.proc p).call with
    | .commit (x :: is) regs, .none =>
      match s.execInstr p regs x with
      | some (.ok t) => some (t.setProc p ⟨.commit is regs, .none⟩)
      | some (.error e) => some { s with panicked := some e }
      | none => none
    | _, _ => none
  | .leave p =>
    match (s.proc p).mode, (s.proc p).call with
    | .commit [] _, .none => some ({ s with committing := false }.setProc p ⟨.out, .none⟩)
    | _, _ => none

end BState

/-- The block layer as a machine. -/
def blockLayer (ι κ : Type) [DecidableEq ι] [DecidableEq κ] [Fintype κ] :
    Machine (BState ι κ) (Act ι κ) := ⟨BState.step⟩

/-- The state after boot with an empty log: no process is in an operation or
in a call, no buffer is referenced or locked, and what is cached agrees with
the disk. -/
structure BState.Init {ι κ : Type} (s : BState ι κ) : Prop where
  idle : ∀ p, s.proc p = ⟨.out, .none⟩
  running : s.panicked = none
  lh_nil : s.lh = []
  outstanding_zero : s.outstanding = 0
  not_committing : s.committing = false
  lru_all : ∀ i, i ∈ s.lru
  unreferenced : ∀ i, (s.buf i).refcnt = 0 ∧ (s.buf i).holder = none ∧ (s.buf i).dirty = false
  unique : ∀ i j, (s.buf i).dev = ROOTDEV → (s.buf j).dev = ROOTDEV →
    (s.buf i).blockno = (s.buf j).blockno → i = j
  coherent : ∀ i, (s.buf i).valid = true → (s.buf i).dev = ROOTDEV →
    (s.buf i).data = s.disk (s.buf i).blockno
  pinned_nil : s.pinned = []
  trace_nil : s.trace = []

/-- The state after the boot with a disk whose log is empty, with the buffers
as `binit` leaves them. -/
def BState.booted {ι : Type} (disk : Nat → Block) (start size : Nat) : BState ι (Fin NBUF) where
  disk := disk
  buf := fun _ =>
    { valid := false, dev := 0, blockno := 0, holder := none, refcnt := 0
      data := fun _ => 0, dirty := false }
  lru := (List.finRange NBUF).reverse
  start := start
  size := size
  outstanding := 0
  committing := false
  lh := []
  proc := fun _ => ⟨.out, .none⟩
  panicked := none
  pinned := []
  trace := []

end SummerOsk.Bio
