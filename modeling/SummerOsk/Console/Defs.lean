import SummerOsk.Params
import SummerOsk.Lib.Machine
import SummerOsk.Lib.Ring

/-!
# The virtual consoles

`kernel/console.c`: the line editor in `consoleintr`, `consoleread` and
`consolewrite`, as one machine over the processes that read and write and the
characters that arrive at the UART.

`consoleintr` is two actions.  Its changes of the console are under the lock of
the console; the switch to another console comes after the release of that lock
and holds none.  The handlers do not overlap, since the UART does not interrupt
again before the one that runs is complete, and no other code reads `active`, so
the two stores of the switch are one action.  A stretch of `consoleread` between
two calls of `sleep` is one action under the lock, and a process that sleeps may
go on at any time, since the loop tests its condition again.  `consolewrite`
takes the lock of its console, which does not cover `consa`: for each byte, the
test of `consa` is an action and the `consputc` after it is another one.  The
lock is no field, so the machine also has runs that it excludes.

A user buffer is given by what `either_copyin` finds, and by where
`either_copyout` succeeds, at each distance from its address.

No code reads `delivered` and `returned`: they record the bytes that each
console has given to readers, and the calls that have returned.
-/

namespace SummerOsk.Console

open Lib Function

def INPUT_BUF : Nat := 128

/-- `C(x)`: control-x. -/
def C (x : Char) : UInt8 := UInt8.ofNat (x.toNat - '@'.toNat)

/-- The delete character. -/
def DEL : UInt8 := 0x7f

def newline : UInt8 := 10

def carriageReturn : UInt8 := 13

/-- What is sent to the UART. -/
inductive Out where
  /-- By `consputc` on behalf of a console. -/
  | char (c : UInt8)
  /-- The message of a switch, by `printf`. -/
  | activeNow (active : Int)
  /-- The list of `procdump`. -/
  | processes
  deriving DecidableEq, Repr

/-- `consputc(BACKSPACE)`. -/
def backspace : List Out := [.char 8, .char 32, .char 8]

/-- `struct input`. -/
structure Input where
  buf : Nat → UInt8
  r : BitVec 32
  w : BitVec 32
  e : BitVec 32

namespace Input

/-! ## Typing -/

/-- The loop of control-U, for `k` characters that are not committed: the
console, and how many characters it erased. -/
def killLine : Nat → Input → Input × Nat
  | 0, cons => (cons, 0)
  | k + 1, cons =>
    if cons.e ≠ cons.w ∧ cons.buf ((cons.e - 1).toNat % INPUT_BUF) ≠ newline then
      let (cons, m) := killLine k { cons with e := cons.e - 1 }
      (cons, m + 1)
    else (cons, 0)

/-- `cons->buf[cons->e++ % INPUT_BUF] = c`, and the line is committed when it is
complete. -/
def store (cons : Input) (c : UInt8) : Input :=
  let cons := { cons with
    buf := update cons.buf (cons.e.toNat % INPUT_BUF) c
    e := cons.e + 1 }
  if c = newline ∨ c = C 'D' ∨ cons.e = cons.r + BitVec.ofNat 32 INPUT_BUF then
    { cons with w := cons.e }
  else cons

/-- What `consoleintr` does to the active console for a character, and what it
sends to the UART on the way. -/
def type (cons : Input) (c : UInt8) : Input × List Out :=
  if c = C 'P' then (cons, [.processes])
  else if c = C 'U' then
    let (cons, m) := killLine (cons.e - cons.w).toNat cons
    (cons, (List.replicate m backspace).flatten)
  else if c = C 'H' ∨ c = DEL then
    if cons.e ≠ cons.w then ({ cons with e := cons.e - 1 }, backspace) else (cons, [])
  else if c = C 'N' ∨ c = C 'B' then (cons, [])
  else if c ≠ 0 ∧ (cons.e - cons.r).toNat < INPUT_BUF then
    let c := if c = carriageReturn then newline else c
    (cons.store c, [.char c])
  else (cons, [])

/-! ## Reading -/

/-- The loop of `consoleread` with `n` of `target` bytes to go, up to its next
`sleep`: the console, the bytes copied, the bytes still to go, and the result if
it returns. -/
def readLoop (killed : Bool) (dst : Nat → Bool) (target : Nat) :
    Nat → Input → Input × List UInt8 × Nat × Option Int
  | 0, cons => (cons, [], 0, some target)
  | n + 1, cons =>
    if cons.r = cons.w then
      if killed then (cons, [], n + 1, some (-1)) else (cons, [], n + 1, none)
    else
      let c := cons.buf (cons.r.toNat % INPUT_BUF)
      let cons := { cons with r := cons.r + 1 }
      if c = C 'D' then
        -- end of file: kept for the next call when this one has some bytes
        let cons := if n + 1 < target then { cons with r := cons.r - 1 } else cons
        (cons, [], n + 1, some (target - (n + 1) : Nat))
      else if dst (target - (n + 1)) = false then
        (cons, [], n + 1, some (target - (n + 1) : Nat))
      else if c = newline then (cons, [c], n, some (target - n : Nat))
      else
        let (cons, bs, m, v) := readLoop killed dst target n cons
        (cons, c :: bs, m, v)

end Input

/-! ## The machine -/

/-- A call in progress. -/
inductive Call where
  /-- `consoleread` of `target` bytes, with `n` to go and those it has. -/
  | read (vc : Nat) (dst : Nat → Bool) (target n : Nat) (got : List UInt8)
  /-- `consolewrite` of `n` bytes, at byte `i`. -/
  | write (vc : Nat) (src : Nat → Option UInt8) (n : Int) (i : Nat)
  /-- And at `consputc(c)` for byte `i`, after the test of `consa`. -/
  | send (vc : Nat) (src : Nat → Option UInt8) (n : Int) (i : Nat) (c : UInt8)

/-- The console of a call. -/
def Call.vc : Call → Nat
  | .read vc _ _ _ _ | .write vc _ _ _ | .send vc _ _ _ _ => vc

/-- A call that has returned. -/
structure Return (ι : Type) where
  who : ι
  call : Call
  value : Int

structure State (ι : Type) where
  vcons : Nat → Input
  active : Int
  /-- The index of the console that `consa` points to. -/
  consa : Nat
  /-- `move_vconsole` of a `consoleintr` that has released the lock, or 0. -/
  moving : Int
  uart : List Out
  call : ι → Option Call
  delivered : Nat → List UInt8
  returned : List (Return ι)

inductive Act (ι : Type) where
  /-- A character arrives. -/
  | intr (c : UInt8)
  /-- `consoleintr` goes on after the release of the lock. -/
  | switch
  /-- Process `p` calls `cread`. -/
  | cread (p : ι) (vc : Nat) (dst : Nat → Bool) (n : Int)
  | cwrite (p : ι) (vc : Nat) (src : Nat → Option UInt8) (n : Int)
  /-- Process `p` goes on with its call. -/
  | run (p : ι) (killed : Bool)

namespace State

variable {ι : Type} [DecidableEq ι]

/-- Where control-N and control-B move. -/
def move (c : UInt8) : Int := if c = C 'N' then 1 else if c = C 'B' then -1 else 0

/-- `consoleintr` up to the release of the lock. -/
def consoleintr (s : State ι) (c : UInt8) : State ι :=
  let (cons, out) := (s.vcons s.consa).type c
  { s with
    vcons := update s.vcons s.consa cons
    moving := move c
    uart := s.uart ++ out }

/-- The end of `consoleintr`: the active console changes. -/
def moveVconsole (s : State ι) : State ι :=
  if s.moving ≠ 0 ∧ 0 ≤ s.moving + s.active ∧ s.moving + s.active < NDEV then
    { s with
      active := s.active + s.moving
      consa := (s.active + s.moving).toNat
      moving := 0
      uart := s.uart ++ [.activeNow (s.active + s.moving)] }
  else { s with moving := 0 }

/-- Process `p` goes on with its call. -/
def exec (s : State ι) (p : ι) (killed : Bool) : Call → State ι
  | .read vc dst target n got =>
    let (cons, bs, m, r) := (s.vcons vc).readLoop killed dst target n
    let s := { s with
      vcons := update s.vcons vc cons
      delivered := update s.delivered vc (s.delivered vc ++ bs) }
    let call := Call.read vc dst target m (got ++ bs)
    match r with
    | none => { s with call := update s.call p (some call) }
    | some v => { s with
        call := update s.call p none
        returned := s.returned ++ [⟨p, call, v⟩] }
  | .write vc src n i =>
    let ended := { s with
      call := update s.call p none
      returned := s.returned ++ [⟨p, .write vc src n i, n⟩] }
    if n ≤ i then ended
    else match src i with
      | none => ended
      | some c => { s with
          call := update s.call p (some
            (if vc = s.consa then .send vc src n i c else .write vc src n (i + 1))) }
  | .send vc src n i c => { s with
      uart := s.uart ++ [.char c]
      call := update s.call p (some (.write vc src n (i + 1))) }

section Projections

variable (s : State ι)

omit [DecidableEq ι]

@[simp] theorem moveVconsole_vcons : s.moveVconsole.vcons = s.vcons := by
  unfold moveVconsole
  split_ifs <;> rfl

@[simp] theorem moveVconsole_moving : s.moveVconsole.moving = 0 := by
  unfold moveVconsole
  split_ifs <;> rfl

@[simp] theorem moveVconsole_call : s.moveVconsole.call = s.call := by
  unfold moveVconsole
  split_ifs <;> rfl

@[simp] theorem moveVconsole_delivered : s.moveVconsole.delivered = s.delivered := by
  unfold moveVconsole
  split_ifs <;> rfl

@[simp] theorem moveVconsole_returned : s.moveVconsole.returned = s.returned := by
  unfold moveVconsole
  split_ifs <;> rfl

end Projections

/-- One action.  `fileread` and `filewrite` call `cread` and `cwrite` for the
major numbers below NDEV. -/
def step (s : State ι) : Act ι → Option (State ι)
  | .intr c => if s.moving = 0 then some (s.consoleintr c) else none
  | .switch => if s.moving ≠ 0 then some s.moveVconsole else none
  | .cread p vc dst n =>
    if vc < NDEV ∧ s.call p = none then
      some { s with call := update s.call p (some (.read vc dst n.toNat n.toNat [])) }
    else none
  | .cwrite p vc src n =>
    if vc < NDEV ∧ s.call p = none then
      some { s with call := update s.call p (some (.write vc src n 0)) }
    else none
  | .run p killed => (s.call p).map (s.exec p killed)

/-- The state after `consoleinit`. -/
structure Init (s : State ι) : Prop where
  empty : ∀ vc, (s.vcons vc).r = 0 ∧ (s.vcons vc).w = 0 ∧ (s.vcons vc).e = 0
  active : s.active = 0
  consa : s.consa = 0
  moving : s.moving = 0
  call : ∀ p, s.call p = none
  delivered : ∀ vc, s.delivered vc = []
  returned : s.returned = []

end State

/-- The consoles and the processes that use them. -/
def consoles (ι : Type) [DecidableEq ι] : Machine (State ι) (Act ι) := ⟨State.step⟩

end SummerOsk.Console
