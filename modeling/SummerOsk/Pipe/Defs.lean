import SummerOsk.Lib.Machine
import SummerOsk.Lib.Ring

/-!
# Pipes

`pipewrite` and `piperead` of `kernel/pipe.c`, as one machine over the processes
that use a pipe.  All their code runs under `pi->lock`, which `sleep` gives up,
so an action runs one call up to its next `sleep` or to its end.  A process that
sleeps may go on at any time: `wakeup` is only a hint, since both loops test
their condition again.

A user buffer is given by what `copyin` finds, and by where `copyout` succeeds,
at each distance from its address.

No code reads `sent` and `returned`: they record the bytes that went into the
pipe, with their writers, and the calls that have returned.
-/

namespace SummerOsk

open Lib Function

/-- The size of the buffer of a pipe. -/
def PIPESIZE : Nat := 512

/-- `struct pipe`. -/
structure Pipe where
  data : Nat → UInt8
  nread : BitVec 32
  nwrite : BitVec 32
  readopen : Bool
  writeopen : Bool

namespace Pipe

/-- The fields that `pipealloc` sets in a page from `kalloc`. -/
def alloc (data : Nat → UInt8) : Pipe := ⟨data, 0, 0, true, true⟩

/-- The buffer is full. -/
def full (pi : Pipe) : Bool := pi.nwrite = pi.nread + BitVec.ofNat 32 PIPESIZE

/-- `pi->data[pi->nwrite++ % PIPESIZE] = ch`. -/
def put (pi : Pipe) (ch : UInt8) : Pipe :=
  { pi with
    data := update pi.data (pi.nwrite.toNat % PIPESIZE) ch
    nwrite := pi.nwrite + 1 }

/-- The loop of `pipewrite` from byte `i` on, with `k` bytes to go: the pipe, the
number of bytes written, and the result if it returns before it sleeps. -/
def writeLoop (killed : Bool) (src : Nat → Option UInt8) (n : Int) :
    Nat → Nat → Pipe → Pipe × Nat × Option Int
  | 0, i, pi => (pi, i, some n)
  | k + 1, i, pi =>
    if pi.full then
      if pi.readopen = false ∨ killed = true then (pi, i, some (-1))
      else (pi, i, none)
    else match src i with
      | none => (pi, i, some n)
      | some ch => writeLoop killed src n k (i + 1) (pi.put ch)

/-- `pipewrite` at byte `i`, up to its next `sleep`. -/
def pipewrite (pi : Pipe) (killed : Bool) (src : Nat → Option UInt8) (n : Int) (i : Nat) :
    Pipe × Nat × Option Int :=
  writeLoop killed src n (n.toNat - i) i pi

/-- The second loop of `piperead` from byte `i` on, with `k` bytes to go: the
pipe and the bytes that it copied.  A byte is taken from the pipe before
`copyout` is tried. -/
def readLoop (dst : Nat → Bool) : Nat → Nat → Pipe → Pipe × List UInt8
  | 0, _, pi => (pi, [])
  | k + 1, i, pi =>
    if pi.nread = pi.nwrite then (pi, [])
    else
      let ch := pi.data (pi.nread.toNat % PIPESIZE)
      let pi := { pi with nread := pi.nread + 1 }
      if dst i then
        let (pi, bs) := readLoop dst k (i + 1) pi
        (pi, ch :: bs)
      else (pi, [])

/-- `piperead`, up to its next `sleep`. -/
def piperead (pi : Pipe) (killed : Bool) (dst : Nat → Bool) (n : Int) :
    Pipe × List UInt8 × Option Int :=
  if pi.nread = pi.nwrite ∧ pi.writeopen = true then
    if killed then (pi, [], some (-1)) else (pi, [], none)
  else
    let (pi, bs) := readLoop dst n.toNat 0 pi
    (pi, bs, some bs.length)

/-- `pipeclose`. -/
def pipeclose (pi : Pipe) (writable : Bool) : Pipe :=
  if writable then { pi with writeopen := false } else { pi with readopen := false }

/-! ## The machine -/

/-- A call in progress. -/
inductive Call where
  /-- `pipewrite` of `n` bytes, at byte `i`. -/
  | write (src : Nat → Option UInt8) (n : Int) (i : Nat)
  | read (dst : Nat → Bool) (n : Int)

/-- A call that has returned, with the bytes that it copied to its caller and
its result. -/
structure Return (ι : Type) where
  who : ι
  call : Call
  bytes : List UInt8
  value : Int

structure State (ι : Type) where
  pipe : Pipe
  call : ι → Option Call
  sent : List (ι × UInt8)
  returned : List (Return ι)

inductive Act (ι : Type) where
  /-- Process `p` calls `pipewrite`. -/
  | write (p : ι) (src : Nat → Option UInt8) (n : Int)
  | read (p : ι) (dst : Nat → Bool) (n : Int)
  /-- Process `p` gets the lock and runs. -/
  | run (p : ι) (killed : Bool)
  /-- The last descriptor of an end is closed. -/
  | close (writable : Bool)

namespace State

variable {ι : Type} [DecidableEq ι]

/-- Process `p` runs its call up to the next `sleep` or to its end. -/
def exec (s : State ι) (p : ι) (killed : Bool) : Call → State ι
  | .write src n i =>
    let (pi, j, r) := s.pipe.pipewrite killed src n i
    let s := { s with
      pipe := pi
      sent := s.sent ++ ((List.range' i (j - i)).filterMap src).map (p, ·) }
    match r with
    | none => { s with call := update s.call p (some (.write src n j)) }
    | some v => { s with
        call := update s.call p none
        returned := s.returned ++ [⟨p, .write src n j, [], v⟩] }
  | .read dst n =>
    let (pi, bs, r) := s.pipe.piperead killed dst n
    match r with
    | none => { s with pipe := pi }
    | some v => { s with
        pipe := pi
        call := update s.call p none
        returned := s.returned ++ [⟨p, .read dst n, bs, v⟩] }

/-- One action.  When both ends are closed the page is freed, and nobody has a
descriptor to call with. -/
def step (s : State ι) (a : Act ι) : Option (State ι) :=
  if s.pipe.readopen = false ∧ s.pipe.writeopen = false then none
  else match a with
  | .write p src n =>
    if (s.call p).isSome then none
    else some { s with call := update s.call p (some (.write src n 0)) }
  | .read p dst n =>
    if (s.call p).isSome then none
    else some { s with call := update s.call p (some (.read dst n)) }
  | .run p killed => (s.call p).map (s.exec p killed)
  | .close writable => some { s with pipe := s.pipe.pipeclose writable }

/-- A new pipe. -/
structure Init (s : State ι) : Prop where
  pipe : ∃ data, s.pipe = alloc data
  call : ∀ p, s.call p = none
  sent : s.sent = []
  returned : s.returned = []

/-- The bytes that reads have returned. -/
def delivered (s : State ι) : List UInt8 := s.returned.flatMap Return.bytes

end State

/-- The processes that use a pipe. -/
def users (ι : Type) [DecidableEq ι] : Machine (State ι) (Act ι) := ⟨State.step⟩

/-- The buffer of a call is mapped. -/
def Act.Mapped {ι : Type} : Act ι → Prop
  | .write _ src n => ∀ i < n.toNat, (src i).isSome
  | .read _ dst n => ∀ i < n.toNat, dst i = true
  | .run _ _ | .close _ => True

end Pipe

end SummerOsk
