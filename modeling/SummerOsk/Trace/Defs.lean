import SummerOsk.Params
import SummerOsk.Vm.Defs

/-!
# System call tracing

The handlers of `kernel/sysfile.c` and `kernel/sysproc.c` that test the tracing
flag of the calling process, up to the functions that do the work.  These are
parameters (`Callees`): none of them can read the flag or the output of the
trace, with the exception of `ksuspend`, which stores the flag.  What
`sys_link`, `sys_unlink`, `sys_open` and `sys_chdir` do after the trace is one
of them.

The local arrays that the trace uses are buffers of a declared length, and an
access beyond it stops the run with a fault.  What they contain before they are
written is in the frame, as is the variable `n` of `sys_write`, which is used
as the length of an array before it is set.
-/

namespace SummerOsk.Trace

open Vm Function

def MAXPATH : Nat := 128

/-! ## Buffers -/

inductive Fault where
  | outOfBounds (buf : String) (i : Nat)
  | panic (msg : String)
  deriving DecidableEq

/-- A local array. -/
structure Buf where
  name : String
  len : Nat
  data : Nat → UInt8

def Buf.load (b : Buf) (i : Nat) : Except Fault UInt8 :=
  if i < b.len then .ok (b.data i) else .error (.outOfBounds b.name i)

def Buf.store (b : Buf) (i : Nat) (x : UInt8) : Except Fault Buf :=
  if i < b.len then .ok { b with data := update b.data i x }
  else .error (.outOfBounds b.name i)

/-- Read up to a NUL.  The fuel `k` bounds the bytes that are left. -/
def Buf.strFrom (b : Buf) (i : Nat) : Nat → Except Fault (List UInt8)
  | 0 => .error (.outOfBounds b.name i)
  | k + 1 => do
    let x ← b.load i
    if x = 0 then return [] else return x :: (← b.strFrom (i + 1) k)

/-- The string that a buffer holds. -/
def Buf.str (b : Buf) : Except Fault (List UInt8) := b.strFrom 0 (b.len + 1)

/-! ## `printf` -/

/-- The digits of `printint`, the last of which is that of `x % 10`. -/
def digits : Nat → Nat → List UInt8
  | 0, _ => []
  | k + 1, x => (if x / 10 = 0 then [] else digits k (x / 10)) ++ [UInt8.ofNat (48 + x % 10)]

/-- `printint` with base 10 and a sign, into its array of 16 characters. -/
def printint (xx : Int) : List UInt8 :=
  (if xx < 0 then [45] else []) ++ digits 15 xx.natAbs

/-- An argument of `printf`. -/
inductive Arg where
  | int (x : Int)
  | str (s : List UInt8)

/-- `printf`, for the conversions `%d` and `%s`. -/
def format : List Char → List Arg → List UInt8
  | '%' :: 'd' :: fmt, .int x :: args => printint x ++ format fmt args
  | '%' :: 's' :: fmt, .str s :: args => s ++ format fmt args
  | c :: fmt, args => UInt8.ofNat c.toNat :: format fmt args
  | [], _ => []

def printf (fmt : String) (args : List Arg) : List UInt8 := format fmt.toList args

/-- `cputc_encoded`. -/
def cputcEncoded (c : UInt8) : List UInt8 :=
  if c = 10 then printf "\\n" [] else printf "%s" [.str ([c].takeWhile (· ≠ 0))]

/-- The loop of `cprintfn`, from index `i` on, with `k` bytes left. -/
def cprintfnFrom (s : Buf) (i : Nat) : Nat → Except Fault (List UInt8)
  | 0 => .ok []
  | k + 1 => do
    let c ← s.load i
    return cputcEncoded c ++ (← cprintfnFrom s (i + 1) k)

/-- `cprintfn`. -/
def cprintfn (s : Buf) (n : Int) : Except Fault (List UInt8) := cprintfnFrom s 0 n.toNat

/-! ## The process -/

/-- The arguments of a system call, which are in the registers `a0` to `a5`. -/
def NARG : Nat := 6

instance neZero_NARG : NeZero NARG := ⟨by decide⟩

/-- The process that calls, its arguments and its memory. -/
structure Call where
  pid : Int
  /-- The registers of the trapframe. -/
  tf : Fin NARG → BitVec 64
  sz : Nat
  /-- The byte at a user address, or `none` where `walkaddr` finds no page. -/
  mem : Nat → Option UInt8
  mem_top : ∀ va, MAXVA ≤ va → mem va = none

/-- What a handler reads of the calling process. -/
structure Caller (φ : Type) extends Call where
  ofile : Fin NOFILE → Option φ

structure Kernel (φ κ : Type) extends Caller φ where
  rest : κ

/-- The kernel, the tracing flag of the calling process, and what the trace
printed. -/
structure State (φ κ : Type) where
  kernel : Kernel φ κ
  tracing : Bool
  out : List UInt8

abbrev M (φ κ : Type) (α : Type) : Type := ExceptT Fault (StateM (State φ κ)) α

/-- A function of the kernel, which can panic. -/
abbrev Fun (σ α : Type) : Type := σ → Except String α × σ

/-- The functions that the handlers call.  Those that do not change the calling
process, before the trace, are functions of the rest of the kernel. -/
structure Callees (φ ι π κ : Type) where
  beginOp : Fun κ Unit
  endOp : Fun κ Unit
  create : List UInt8 → Int → Int → Int → Fun κ (Option ι)
  namei : List UInt8 → Fun κ (Option ι)
  iunlockput : ι → Fun κ Unit
  kalloc : Fun κ (Option π)
  kfree : π → Fun κ Unit
  pipealloc : Fun κ (Option (φ × φ))
  filedup : φ → Fun (Kernel φ κ) Unit
  fileclose : φ → Fun (Kernel φ κ) Unit
  fileread : φ → BitVec 64 → Int → Fun (Kernel φ κ) Int
  filewrite : φ → BitVec 64 → Int → Fun (Kernel φ κ) Int
  filestat : φ → BitVec 64 → Fun (Kernel φ κ) Int
  /-- The rest of `sys_link`. -/
  link : List UInt8 → List UInt8 → Fun (Kernel φ κ) Int
  /-- The rest of `sys_unlink`. -/
  unlink : List UInt8 → Fun (Kernel φ κ) Int
  /-- The rest of `sys_open`. -/
  openFile : List UInt8 → Int → Fun (Kernel φ κ) Int
  /-- The rest of `sys_chdir`. -/
  chdir : ι → Fun (Kernel φ κ) Int
  exec : List UInt8 → List (List UInt8) → Fun (Kernel φ κ) Int
  copyout : BitVec 64 → Int → Fun (Kernel φ κ) Int
  ksuspend : Bool → Int → φ → Fun (Kernel φ κ) Int
  exit : Int → Fun (Kernel φ κ) Unit
  fork : Fun (Kernel φ κ) Int
  wait : BitVec 64 → Fun (Kernel φ κ) Int
  growproc : Int → Fun (Kernel φ κ) Int
  /-- The loop of `sys_sleep`. -/
  sleep : Int → Fun (Kernel φ κ) Int
  kill : Int → Fun (Kernel φ κ) Int
  ticks : Fun (Kernel φ κ) Nat
  kps : BitVec 64 → Fun (Kernel φ κ) Unit
  kresume : List UInt8 → Fun (Kernel φ κ) Int

/-- Local variables that are read before they are set. -/
structure Frame where
  /-- `n` of `sys_write`. -/
  n : BitVec 32
  /-- The memory of a local array. -/
  buf : String → Nat → UInt8

def Frame.array (g : Frame) (name : String) (len : Nat) : Buf := ⟨name, len, g.buf name⟩

section

variable {φ ι π κ α : Type}

/-- Call a function of the kernel. -/
def call (f : Fun (Kernel φ κ) α) : M φ κ α := fun s =>
  match f s.kernel with
  | (.ok a, k) => (.ok a, { s with kernel := k })
  | (.error msg, k) => (.error (.panic msg), { s with kernel := k })

/-- Call a function that leaves the calling process alone. -/
def callRest (f : Fun κ α) : M φ κ α :=
  call fun k => ((f k.rest).1, { k with rest := (f k.rest).2 })

/-- `myproc()` -/
def myproc : M φ κ (Caller φ) := do return (← get).kernel.toCaller

/-- The statement `if(p->tracing) { ... }`, which prints a text. -/
def whenTracing (text : Call → Except Fault (List UInt8)) : M φ κ Unit := do
  let s ← get
  if s.tracing then
    match text s.kernel.toCall with
    | .ok t => set { s with out := s.out ++ t }
    | .error e => throw e

/-- The trace of a handler: a `printf` with the process id and other
arguments. -/
def trace (fmt : String) (args : Except Fault (List Arg)) : M φ κ Unit :=
  whenTracing fun p => do return printf fmt (.int p.pid :: (← args))

/-! ## Arguments -/

/-- The loop of `copyinstr` into `dst`, from index `i` on. -/
def copyinstrFrom (mem : Nat → Option UInt8) (va i : Nat) : Nat → Buf → Except Fault (Buf × Bool)
  | 0, dst => .ok (dst, false)
  | max + 1, dst =>
    match mem va with
    | none => .ok (dst, false)
    | some x => do
      let dst ← dst.store i x
      if x = 0 then return (dst, true) else copyinstrFrom mem (va + 1) (i + 1) max dst

/-- `fetchstr`: the buffer, and the length or -1.  `copyinstr` takes `max` as an
unsigned number. -/
def fetchstr (mem : Nat → Option UInt8) (addr : BitVec 64) (buf : Buf) (max : Int) :
    Except Fault (Buf × Int) := do
  let (buf, gotNull) ← copyinstrFrom mem addr.toNat 0 (max % 2 ^ 64).toNat buf
  if gotNull then return (buf, (← buf.str).length) else return (buf, -1)

/-- The `n` bytes at a user address, if they are all there. -/
def userBytes (mem : Nat → Option UInt8) (va : Nat) : Nat → Option (List UInt8)
  | 0 => some []
  | n + 1 => do return (← mem va) :: (← userBytes mem (va + 1) n)

/-- `fetchaddr`. -/
def fetchaddr (p : Call) (addr : BitVec 64) : Option (BitVec 64) :=
  if p.sz ≤ addr.toNat ∨ p.sz < (addr + 8).toNat then none
  else (userBytes p.mem addr.toNat 8).map fun bs =>
    BitVec.ofNat 64 (bs.foldr (fun x n => x.toNat + 256 * n) 0)

def Call.argint (p : Call) (i : Fin NARG) : Int := ((p.tf i).setWidth 32).toInt

def Call.argaddr (p : Call) (i : Fin NARG) : BitVec 64 := p.tf i

def throwFault (x : Except Fault α) : M φ κ α :=
  match x with
  | .ok a => pure a
  | .error e => throw e

/-- `argstr` into a local array: the string, or `none` for -1. -/
def argstr (g : Frame) (name : String) (i : Fin NARG) (max : Nat) : M φ κ (Option Buf) := do
  let p ← myproc
  let (buf, n) ← throwFault (fetchstr p.mem (p.argaddr i) (g.array name max) max)
  if n < 0 then return none else return some buf

/-- `argfd`. -/
def Caller.argfd (p : Caller φ) (i : Fin NARG) : Option (Fin NOFILE × φ) :=
  if h : 0 ≤ p.argint i ∧ p.argint i < NOFILE then
    let fd : Fin NOFILE := ⟨(p.argint i).toNat, by omega⟩
    (p.ofile fd).map fun f => (fd, f)
  else none

/-- `p->ofile[fd] = f` -/
def setOfile (fd : Fin NOFILE) (f : Option φ) : M φ κ Unit :=
  modify fun s => { s with
    kernel := { s.kernel with ofile := update s.kernel.ofile fd f } }

/-- The lowest free descriptor. -/
def freeFd (ofile : Fin NOFILE → Option φ) : Option (Fin NOFILE) :=
  (List.finRange NOFILE).find? fun fd => (ofile fd).isNone

/-- `fdalloc`. -/
def fdalloc (f : φ) : M φ κ (Option (Fin NOFILE)) := do
  let p ← myproc
  match freeFd p.ofile with
  | some fd =>
    setOfile fd (some f)
    return some fd
  | none => return none

/-! ## `sysproc.c` -/

variable (c : Callees φ ι π κ) (g : Frame)

def sysExit : M φ κ Int := do
  let n := (← myproc).argint 0
  trace "\n[%d]sys_exit(%d)" (do return [.int n])
  call (c.exit n)
  return 0

def sysGetpid : M φ κ Int := do
  trace "\n[%d]sys_getpid()" (do return [])
  return (← myproc).pid

def sysFork : M φ κ Int := do
  trace "\n[%d]sys_fork()" (do return [])
  call c.fork

/-- An address, as `%d` prints it. -/
def intOfAddr (p : BitVec 64) : Int := (p.setWidth 32).toInt

def sysWait : M φ κ Int := do
  let addr := (← myproc).argaddr 0
  trace "\n[%d]sys_wait(%d)" (do return [.int (intOfAddr addr)])
  call (c.wait addr)

def sysSbrk : M φ κ Int := do
  let n := (← myproc).argint 0
  trace "\n[%d]sys_sbrk(%d)" (do return [.int n])
  let addr := (BitVec.ofNat 32 (← myproc).sz).toInt
  if (← call (c.growproc n)) < 0 then return -1 else return addr

def sysSleep : M φ κ Int := do
  let n := (← myproc).argint 0
  trace "\n[%d]sys_sleep(%d)" (do return [.int n])
  call (c.sleep n)

def sysKill : M φ κ Int := do
  let pid := (← myproc).argint 0
  trace "\n[%d]sys_kill(%d)" (do return [.int pid])
  call (c.kill pid)

def sysUptime : M φ κ Int := do
  trace "\n[%d]sys_uptime()" (do return [])
  return (← call c.ticks)

def sysPs : M φ κ Int := do
  trace "[%d]ps" (do return [])
  let piaddr := (← myproc).argaddr 0
  call (c.kps piaddr)
  return 0

def sysResume : M φ κ Int := do
  match ← argstr g "path" 0 16 with
  | none => return -1
  | some path =>
    trace "\n[%d]sys_resumeproc(%s)" (do return [.str (← path.str)])
    call (c.kresume (← throwFault path.str))

/-! ## `sysfile.c` -/

def sysDup : M φ κ Int := do
  match (← myproc).argfd 0 with
  | none => return -1
  | some (fdin, f) =>
    match ← fdalloc f with
    | none => return -1
    | some fd =>
      trace "\n[%d]sys_dup(%d, " (do return [.int fdin.val])
      call (c.filedup f)
      return fd.val

def sysRead : M φ κ Int := do
  match (← myproc).argfd 0 with
  | none => return -1
  | some (fd, f) =>
    let n := (← myproc).argint 2
    let addr := (← myproc).argaddr 1
    trace "\n[%d]sys_read(%d, %d, %d) " (do return [.int fd.val, .int (intOfAddr addr), .int n])
    call (c.fileread f addr n)

def sysWrite : M φ κ Int := do
  let instr := g.array "instr" g.n.toInt.toNat
  match (← myproc).argfd 0 with
  | none => return -1
  | some (fd, f) =>
    let n := (← myproc).argint 2
    let addr := (← myproc).argaddr 1
    whenTracing fun p => do
      let (instr, _) ← fetchstr p.mem addr instr n
      return printf "\n[%d]sys_write(%d, " [.int p.pid, .int fd.val] ++ (← cprintfn instr n) ++
        printf ", %d)" [.int n]
    call (c.filewrite f addr n)

def sysClose : M φ κ Int := do
  match (← myproc).argfd 0 with
  | none => return -1
  | some (fd, f) =>
    trace "\n[%d]sys_close(%d) " (do return [.int fd.val])
    setOfile fd none
    call (c.fileclose f)
    return 0

def sysFstat : M φ κ Int := do
  match (← myproc).argfd 0 with
  | none => return -1
  | some (fd, f) =>
    let st := (← myproc).argaddr 1
    trace "\n[%d]sys_fstat(%d, %d) " (do return [.int fd.val, .int (intOfAddr st)])
    call (c.filestat f st)

def sysLink : M φ κ Int := do
  match ← argstr g "old" 0 MAXPATH with
  | none => return -1
  | some old =>
    match ← argstr g "new" 1 MAXPATH with
    | none => return -1
    | some new =>
      trace "\n[%d]sys_link(%s, %s) " (do return [.str (← old.str), .str (← new.str)])
      call (c.link (← throwFault old.str) (← throwFault new.str))

def sysUnlink : M φ κ Int := do
  match ← argstr g "path" 0 MAXPATH with
  | none => return -1
  | some path =>
    trace "\n[%d]sys_unlink(%s)" (do return [.str (← path.str)])
    call (c.unlink (← throwFault path.str))

def sysOpen : M φ κ Int := do
  match ← argstr g "path" 0 MAXPATH with
  | none => return -1
  | some path =>
    let omode := (← myproc).argint 1
    trace "\n[%d]sys_open(%s, %d)" (do return [.str (← path.str), .int omode])
    call (c.openFile (← throwFault path.str) omode)

def T_DIR : Int := 1
def T_DEVICE : Int := 3

def sysMkdir : M φ κ Int := do
  callRest c.beginOp
  match ← argstr g "path" 0 MAXPATH with
  | none =>
    callRest c.endOp
    return -1
  | some path =>
    match ← callRest (c.create (← throwFault path.str) T_DIR 0 0) with
    | none =>
      callRest c.endOp
      return -1
    | some ip =>
      trace "\n[%d]sys_mkdir(%s)" (do return [.str (← path.str)])
      callRest (c.iunlockput ip)
      callRest c.endOp
      return 0

def sysMknod : M φ κ Int := do
  callRest c.beginOp
  match ← argstr g "path" 0 MAXPATH with
  | none =>
    callRest c.endOp
    return -1
  | some path =>
    let major := (← myproc).argint 1
    let minor := (← myproc).argint 2
    match ← callRest (c.create (← throwFault path.str) T_DEVICE major minor) with
    | none =>
      callRest c.endOp
      return -1
    | some ip =>
      trace "\n[%d]sys_mknod(%s, %d, %d)" (do return [.str (← path.str), .int major, .int minor])
      callRest (c.iunlockput ip)
      callRest c.endOp
      return 0

def sysChdir : M φ κ Int := do
  callRest c.beginOp
  match ← argstr g "path" 0 MAXPATH with
  | none =>
    callRest c.endOp
    return -1
  | some path =>
    match ← callRest (c.namei (← throwFault path.str)) with
    | none =>
      callRest c.endOp
      return -1
    | some ip =>
      trace "\n[%d]sys_chdir(%s)" (do return [.str (← path.str)])
      call (c.chdir ip)

/-- The loop of `sys_exec` over the arguments, with `k` entries of `argv` left:
the pages and the strings, and whether the terminator was found. -/
def fetchArgs (uargv : BitVec 64) (argv : List (π × Buf)) : Nat → M φ κ (Bool × List (π × Buf))
  | 0 => return (false, argv)
  | k + 1 => do
    let p ← myproc
    match fetchaddr p.toCall (uargv + 8 * BitVec.ofNat 64 argv.length) with
    | none => return (false, argv)
    | some uarg =>
      if uarg = 0 then return (true, argv)
      else
        match ← callRest c.kalloc with
        | none => throw (.panic "sys_exec kalloc")
        | some page =>
          let (buf, n) ← throwFault (fetchstr p.mem uarg (g.array "page" PGSIZE) PGSIZE)
          if n < 0 then return (false, argv ++ [(page, buf)])
          else fetchArgs uargv (argv ++ [(page, buf)]) k

/-- The strings of `argv`. -/
def argStrings : List (π × Buf) → Except Fault (List (List UInt8))
  | [] => .ok []
  | a :: argv => do return (← a.2.str) :: (← argStrings argv)

def freeArgs : List (π × Buf) → M φ κ Unit
  | [] => pure ()
  | a :: argv => do
    callRest (c.kfree a.1)
    freeArgs argv

def sysExec : M φ κ Int := do
  match ← argstr g "path" 0 MAXPATH with
  | none => return -1
  | some path =>
    let uargv := (← myproc).argaddr 1
    let (ok, argv) ← fetchArgs c g uargv [] MAXARG
    if ok then
      whenTracing fun p => do return printf "\n[%d]sys_exec(%s" [.int p.pid, .str (← path.str)] ++
        (← argStrings argv).flatMap (fun s => printf ", %s" [.str s]) ++ printf ")" []
      let ret ← call (c.exec (← throwFault path.str) (← throwFault (argStrings argv)))
      freeArgs c argv
      return ret
    else
      freeArgs c argv
      return -1

def sysPipe : M φ κ Int := do
  let fdarray := (← myproc).argaddr 0
  match ← callRest c.pipealloc with
  | none => return -1
  | some (rf, wf) =>
    match ← fdalloc rf with
    | none =>
      call (c.fileclose rf)
      call (c.fileclose wf)
      return -1
    | some fd0 =>
      match ← fdalloc wf with
      | none =>
        setOfile fd0 none
        call (c.fileclose rf)
        call (c.fileclose wf)
        return -1
      | some fd1 =>
        trace "\n[%d]sys_pipe(%d,%d)" (do return [.int fd0.val, .int fd1.val])
        let r ← call (c.copyout fdarray fd0.val)
        let r ← if r < 0 then pure r else call (c.copyout (fdarray + 4) fd1.val)
        if r < 0 then
          setOfile fd0 none
          setOfile fd1 none
          call (c.fileclose rf)
          call (c.fileclose wf)
          return -1
        else return 0

def sysSuspend : M φ κ Int := do
  let path := g.array "path" 16
  let pid := (← myproc).argint 0
  match (← myproc).argfd 1 with
  | none => return -1
  | some (_, fp) =>
    trace "\n[%d]sys_suspendproc(%d, %s)" (do return [.int pid, .str (← path.str)])
    let s ← get
    call (c.ksuspend s.tracing pid fp)

/-! ## The handlers -/

/-- The handlers that test the flag. -/
inductive Handler where
  | exit | getpid | fork | wait | sbrk | sleep | kill | uptime | ps | resume
  | dup | read | write | close | fstat | link | unlink | open | mkdir | mknod | chdir
  | exec | pipe | suspend
  deriving DecidableEq

def Handler.run : Handler → M φ κ Int
  | .exit => sysExit c
  | .getpid => sysGetpid
  | .fork => sysFork c
  | .wait => sysWait c
  | .sbrk => sysSbrk c
  | .sleep => sysSleep c
  | .kill => sysKill c
  | .uptime => sysUptime c
  | .ps => sysPs c
  | .resume => sysResume c g
  | .dup => sysDup c
  | .read => sysRead c
  | .write => sysWrite c g
  | .close => sysClose c
  | .fstat => sysFstat c
  | .link => sysLink c g
  | .unlink => sysUnlink c g
  | .open => sysOpen c g
  | .mkdir => sysMkdir c g
  | .mknod => sysMknod c g
  | .chdir => sysChdir c g
  | .exec => sysExec c g
  | .pipe => sysPipe c
  | .suspend => sysSuspend c g

end

end SummerOsk.Trace
