import SummerOsk.Params
import SummerOsk.Vm.Defs
import SummerOsk.Lib.Machine

/-!
# Processes and their memory

The parts of `kernel/proc.c`, `kernel/exec.c`, `kernel/pipe.c` and
`kernel/file.c` that allocate and free physical pages: `fork`, `exec`, `sbrk`,
`exit`, `wait`, `pipe` and `close`.  Every call runs to its end before the next
one starts.

The file system is outside the model.  `exec` gets the contents of the file that
its path names, if there is one, and its arguments as `sys_exec` fetches them.
The states of a process between `fork` and `exit` are one state here, and the
slot of a process stands for its pid.
-/

namespace SummerOsk.Task

open Lib Vm Function

/-! ## The state -/

/-- `enum procstate`; `live` stands for all the states between the first and the
last. -/
inductive State where
  | unused
  | live
  | zombie
  deriving DecidableEq, Repr

/-- The type of a `struct file`. -/
inductive FdType where
  | none
  | pipe
  | inode
  | device
  deriving DecidableEq, Repr

/-- `struct file`. -/
structure File where
  type : FdType
  ref : Nat
  readable : Bool
  writable : Bool
  pipe : Nat
  deriving Repr

/-- The ends of a `struct pipe` that are open. -/
structure Pipe where
  readopen : Bool
  writeopen : Bool
  deriving DecidableEq, Repr

/-- `struct proc`. -/
structure Proc where
  state : State
  parent : Option (Fin NPROC)
  xstate : Int
  sz : Nat
  pagetable : Nat
  tf : Nat
  ofile : Fin NOFILE → Option (Fin NFILE)

/-- The memory, the process table, the file table, the pipes by the page they
lie in, and the physical page of the trampoline code. -/
structure Sys where
  mem : Mem
  proc : Fin NPROC → Proc
  file : Fin NFILE → File
  pipe : Nat → Pipe
  trampoline : Nat

abbrev SysM (α : Type) : Type := Prog Stop Sys α

def panic {α : Type} (msg : String) : SysM α := throw (.panic msg)

/-- Run a function of `vm.c` or `kalloc.c`. -/
def vm {α : Type} (x : VmM α) : SysM α := zoom Sys.mem (fun s m => { s with mem := m }) x

def getProc (p : Fin NPROC) : SysM Proc := do return (← get).proc p

def setProc (p : Fin NPROC) (x : Proc) : SysM Unit :=
  modify fun s => { s with proc := update s.proc p x }

/-- Change fields of `p`. -/
def modifyProc (p : Fin NPROC) (f : Proc → Proc) : SysM Unit := do setProc p (f (← getProc p))

def setFile (f : Fin NFILE) (x : File) : SysM Unit :=
  modify fun s => { s with file := update s.file f x }

/-- Change fields of `f`. -/
def modifyFile (f : Fin NFILE) (g : File → File) : SysM Unit := do setFile f (g ((← get).file f))

def setPipe (q : Nat) (x : Pipe) : SysM Unit :=
  modify fun s => { s with pipe := update s.pipe q x }

/-- The slot of the first process. -/
def initproc : Fin NPROC := ⟨0, zero_lt_NPROC⟩

/-! ## Files and pipes -/

/-- `filealloc`. -/
def filealloc : SysM (Option (Fin NFILE)) := do
  let s ← get
  match (List.finRange NFILE).find? fun f => (s.file f).ref = 0 with
  | some f =>
    setFile f { s.file f with ref := 1 }
    return some f
  | none => return none

/-- `filedup`. -/
def filedup (f : Fin NFILE) : SysM Unit := do
  let s ← get
  if (s.file f).ref < 1 then panic "filedup"
  else setFile f { s.file f with ref := (s.file f).ref + 1 }

/-- `pipeclose`. -/
def pipeclose (q : Nat) (writable : Bool) : SysM Unit := do
  let s ← get
  let pi := if writable then { s.pipe q with writeopen := false }
    else { s.pipe q with readopen := false }
  setPipe q pi
  if pi.readopen = false ∧ pi.writeopen = false then vm (kfree q)

/-- `fileclose`, without the `iput` of an inode. -/
def fileclose (f : Fin NFILE) : SysM Unit := do
  let s ← get
  let ff := s.file f
  if ff.ref < 1 then panic "fileclose"
  else if ff.ref - 1 > 0 then setFile f { ff with ref := ff.ref - 1 }
  else
    setFile f { ff with ref := 0, type := .none }
    if ff.type = .pipe then pipeclose ff.pipe ff.writable

/-- `pipealloc`. -/
def pipealloc : SysM (Option (Fin NFILE × Fin NFILE)) := do
  match ← filealloc with
  | none => return none
  | some f0 =>
    match ← filealloc with
    | none =>
      fileclose f0
      return none
    | some f1 =>
      match ← vm kalloc with
      | none =>
        fileclose f0
        fileclose f1
        return none
      | some q =>
        setPipe q ⟨true, true⟩
        modifyFile f0 fun f =>
          { f with type := .pipe, readable := true, writable := false, pipe := q }
        modifyFile f1 fun f =>
          { f with type := .pipe, readable := false, writable := true, pipe := q }
        return some (f0, f1)

/-- `fdalloc`. -/
def fdalloc (p : Fin NPROC) (f : Fin NFILE) : SysM (Option (Fin NOFILE)) := do
  let pr ← getProc p
  match (List.finRange NOFILE).find? fun fd => pr.ofile fd = none with
  | some fd =>
    setProc p { pr with ofile := update pr.ofile fd (some f) }
    return some fd
  | none => return none

/-- `p->ofile[fd] = 0` -/
def clearFd (p : Fin NPROC) (fd : Fin NOFILE) : SysM Unit :=
  modifyProc p fun pr => { pr with ofile := update pr.ofile fd none }

/-- The bytes of an `int`. -/
def intBytes (x : Int) : List UInt8 := getBytes (putInt (fun _ => 0) 0 4 x) 0 4

/-- Undo a pipe whose descriptors could not be handed out. -/
def closeBoth (rf wf : Fin NFILE) : SysM Int := do
  fileclose rf
  fileclose wf
  return -1

/-- `sys_pipe`. -/
def sysPipe (p : Fin NPROC) (fdarray : Nat) : SysM Int := do
  match ← pipealloc with
  | none => return -1
  | some (rf, wf) =>
    match ← fdalloc p rf with
    | none => closeBoth rf wf
    | some fd0 =>
      match ← fdalloc p wf with
      | none =>
        clearFd p fd0
        closeBoth rf wf
      | some fd1 =>
        let pr ← getProc p
        if (← vm (copyout pr.pagetable fdarray (intBytes fd0.val))) < 0 then
          clearFd p fd0
          clearFd p fd1
          closeBoth rf wf
        else if (← vm (copyout pr.pagetable ((fdarray + 4) % 2 ^ 64) (intBytes fd1.val))) < 0 then
          clearFd p fd0
          clearFd p fd1
          closeBoth rf wf
        else return 0

/-- `sys_close`. -/
def sysClose (p : Fin NPROC) (fd : Fin NOFILE) : SysM Int := do
  let pr ← getProc p
  match pr.ofile fd with
  | none => return -1
  | some f =>
    clearFd p fd
    fileclose f
    return 0

/-! ## Processes -/

/-- `allocproc`: the slot, with its trapframe and page table. -/
def allocproc : SysM (Option (Fin NPROC)) := do
  let s ← get
  match (List.finRange NPROC).find? fun p => (s.proc p).state = .unused with
  | none => return none
  | some p =>
    match ← vm kalloc with
    | none => return none
    | some tf =>
      modifyProc p fun pr => { pr with tf := tf }
      let pt ← vm (procPagetable s.trampoline tf)
      modifyProc p fun pr => { pr with pagetable := pt }
      return some p

/-- `freeproc`. -/
def freeproc (p : Fin NPROC) : SysM Unit := do
  let pr ← getProc p
  if pr.tf ≠ 0 then vm (kfree pr.tf)
  if pr.pagetable ≠ 0 then vm (procFreepagetable pr.pagetable pr.sz)
  modifyProc p fun pr => { pr with
    tf := 0, pagetable := 0, sz := 0, parent := none, xstate := 0, state := .unused }

/-- `userinit`. -/
def userinit : SysM Unit := do
  match ← allocproc with
  | none => panic "kerneltrap"
  | some p =>
    let pr ← getProc p
    match ← vm kalloc with
    | none => panic "kerneltrap"
    | some mem =>
      vm (memset mem 0)
      let _ ← vm (mappages pr.pagetable 0 PGSIZE mem (PTE_W ||| PTE_R ||| PTE_X ||| PTE_U))
      modifyProc p fun pr => { pr with sz := PGSIZE, state := .live }

/-- The loop of `fork` over the descriptors that are left. -/
def dupFiles (p np : Fin NPROC) : List (Fin NOFILE) → SysM Unit
  | [] => return ()
  | fd :: rest => do
    match (← getProc p).ofile fd with
    | none => dupFiles p np rest
    | some f =>
      filedup f
      modifyProc np fun pr => { pr with ofile := update pr.ofile fd (some f) }
      dupFiles p np rest

/-- `fork`. -/
def fork (p : Fin NPROC) : SysM Int := do
  match ← allocproc with
  | none => return -1
  | some np =>
    let pr ← getProc p
    let npr ← getProc np
    if (← vm (uvmcopy pr.pagetable npr.pagetable pr.sz)) < 0 then
      freeproc np
      return -1
    else
      modifyProc np fun npr => { npr with sz := pr.sz, parent := some p }
      -- the registers of the parent, with `a0` zero
      vm (modify fun m => m.setPage npr.tf (putLE (m.page pr.tf) 112 8 0))
      dupFiles p np (List.finRange NOFILE)
      modifyProc np fun npr => { npr with state := .live }
      return np.val

/-- `growproc`.  `sz` is a `uint` there. -/
def growproc (p : Fin NPROC) (n : Int) : SysM Int := do
  let pr ← getProc p
  let sz : Nat := pr.sz % 2 ^ 32
  let newsz := (((sz : Int) + n) % (2 ^ 32 : Nat)).toNat
  if n > 0 then
    let sz ← vm (uvmalloc pr.pagetable sz newsz)
    if sz % 2 ^ 32 = 0 then return -1
    else
      modifyProc p fun pr => { pr with sz := sz % 2 ^ 32 }
      return 0
  else if n < 0 then
    let sz ← vm (uvmdealloc pr.pagetable sz newsz)
    modifyProc p fun pr => { pr with sz := sz % 2 ^ 32 }
    return 0
  else
    modifyProc p fun pr => { pr with sz := sz }
    return 0

/-- The loop of `exit` over the descriptors that are left. -/
def closeFiles (p : Fin NPROC) : List (Fin NOFILE) → SysM Unit
  | [] => return ()
  | fd :: rest => do
    match (← getProc p).ofile fd with
    | none => closeFiles p rest
    | some f =>
      fileclose f
      clearFd p fd
      closeFiles p rest

/-- `reparent`. -/
def reparent (p : Fin NPROC) : SysM Unit :=
  modify fun s => { s with proc := fun q =>
    if (s.proc q).parent = some p then { s.proc q with parent := some initproc } else s.proc q }

/-- `exit`, up to the jump into the scheduler. -/
def exit (p : Fin NPROC) (status : Int) : SysM Unit := do
  if p = initproc then panic "init exiting"
  else
    closeFiles p (List.finRange NOFILE)
    reparent p
    modifyProc p fun pr => { pr with xstate := status, state := .zombie }

/-- `wait`.  Without a zombie child it returns -1 or sleeps. -/
def wait (p : Fin NPROC) (addr : Nat) : SysM Int := do
  let s ← get
  match (List.finRange NPROC).find? fun q =>
      (s.proc q).parent = some p ∧ (s.proc q).state = .zombie with
  | none => return -1
  | some np =>
    let ok ← if addr = 0 then pure 0
      else vm (copyout (s.proc p).pagetable addr (intBytes (s.proc np).xstate))
    if ok < 0 then return -1
    else
      freeproc np
      return np.val

/-! ## `exec` -/

def ELF_MAGIC : Nat := 0x464C457F
def ELF_PROG_LOAD : Nat := 1

/-- `struct proghdr`, the fields that `exec` reads. -/
structure Proghdr where
  type : Nat
  off : Nat
  vaddr : Nat
  filesz : Nat
  memsz : Nat

/-- A word of a file. -/
def fileWord (bs : List UInt8) (o w : Nat) : Nat := getLE (fun i => bs.getD i 0) o w

/-- `readi` reads all of `n` bytes at `off`. -/
def Readable (bs : List UInt8) (off n : Nat) : Prop := off + n ≤ bs.length ∧ off + n < 2 ^ 32

instance (bs : List UInt8) (off n : Nat) : Decidable (Readable bs off n) :=
  inferInstanceAs (Decidable (_ ∧ _))

/-- The program header at `off`. -/
def proghdrAt (bs : List UInt8) (off : Nat) : Proghdr where
  type := fileWord bs off 4
  off := fileWord bs (off + 8) 8
  vaddr := fileWord bs (off + 16) 8
  filesz := fileWord bs (off + 32) 8
  memsz := fileWord bs (off + 40) 8

/-- The loop of `loadseg` from distance `i` on.  The sizes are `uint`s. -/
def loadsegLoop (pt va : Nat) (bs : List UInt8) (offset sz : Nat) : Nat → Nat → VmM Int
  | 0, _ => return 0
  | k + 1, i => do
    if i < sz then
      let pa ← walkaddr pt (va + i)
      if pa = 0 then Vm.panic "loadseg: address should exist"
      else
        let n := if sz - i < PGSIZE then sz - i else PGSIZE
        let data := (bs.drop ((offset + i) % 2 ^ 32)).take n
        modify fun m => m.setPage pa (putBytes (m.page pa) 0 data)
        if data.length ≠ n then return -1
        else loadsegLoop pt va bs offset sz k (i + PGSIZE)
    else return 0

/-- `loadseg`. -/
def loadseg (pt va : Nat) (bs : List UInt8) (offset sz : Nat) : VmM Int :=
  if va % PGSIZE ≠ 0 then Vm.panic "loadseg: va must be page aligned"
  else loadsegLoop pt va bs offset sz (sz / PGSIZE + 1) 0

/-- The loop of `exec` over the `n` program headers that are left: whether it
goes on after the loop, and `sz`. -/
def loadSegments (pt : Nat) (bs : List UInt8) : Nat → Nat → Nat → VmM (Bool × Nat)
  | 0, _, sz => return (true, sz)
  | n + 1, off, sz => do
    let ph := proghdrAt bs off
    if ¬ Readable bs off 56 then return (false, sz)
    else if ph.type ≠ ELF_PROG_LOAD then loadSegments pt bs n ((off + 56) % 2 ^ 32) sz
    else if ph.memsz < ph.filesz then return (false, sz)
    else if (ph.vaddr + ph.memsz) % 2 ^ 64 < ph.vaddr then return (false, sz)
    else
      let sz ← uvmalloc pt sz (ph.vaddr + ph.memsz)
      if sz = 0 then return (false, sz)
      else if ph.vaddr % PGSIZE ≠ 0 then return (false, sz)
      else if (← loadseg pt ph.vaddr bs (ph.off % 2 ^ 32) (ph.filesz % 2 ^ 32)) < 0 then
        return (false, sz)
      else loadSegments pt bs n ((off + 56) % 2 ^ 32) sz

/-- The loop of `exec` over the arguments that are left: the pointers for
`ustack` and the stack pointer. -/
def pushArgs (pt stackbase : Nat) : List (List UInt8) → Nat → Nat → VmM (Option (List Nat × Nat))
  | [], _, sp => return some ([], sp)
  | arg :: rest, argc, sp => do
    if argc ≥ MAXARG then return none
    else
      let sp := (sp + 2 ^ 64 - (arg.length + 1)) % 2 ^ 64
      let sp := sp - sp % 16
      if sp < stackbase then return none
      else if (← copyout pt sp (arg ++ [0])) < 0 then return none
      else
        match ← pushArgs pt stackbase rest (argc + 1) sp with
        | none => return none
        | some (ustack, sp') => return some (sp :: ustack, sp')

/-- A pointer as bytes. -/
def wordBytes (x : Nat) : List UInt8 := getBytes (putLE (fun _ => 0) 0 8 x) 0 8

/-- The stack of the new image and its arguments: `sz` and the stack pointer, or
nothing, and the value of `sz` at that point. -/
def setupStack (pt sz : Nat) (argv : List (List UInt8)) : VmM (Option Nat × Nat) := do
  let sz := pgroundup sz
  let sz ← uvmalloc pt sz ((sz + 2 * PGSIZE) % 2 ^ 64)
  if sz = 0 then return (none, sz)
  else
    uvmclear pt (sz - 2 * PGSIZE)
    match ← pushArgs pt (sz - PGSIZE) argv 0 sz with
    | none => return (none, sz)
    | some (ustack, sp) =>
      let sp := (sp + 2 ^ 64 - (ustack.length + 1) * 8) % 2 ^ 64
      let sp := sp - sp % 16
      if sp < sz - PGSIZE then return (none, sz)
      else if (← copyout pt sp ((ustack ++ [0]).flatMap wordBytes)) < 0 then return (none, sz)
      else return (some sp, sz)

/-- The header checks of `exec`, before a page table is made. -/
def goodHeader (bs : List UInt8) : Bool := Readable bs 0 64 ∧ fileWord bs 0 4 = ELF_MAGIC

/-- The new image of `exec`: the page table, the size and the stack pointer, or
the jump to `bad` with what it frees. -/
def execImage (trampoline tf : Nat) (bs : List UInt8) (argv : List (List UInt8)) :
    VmM (Option (Nat × Nat × Nat)) := do
  let pt ← procPagetable trampoline tf
  let (ok, sz) ← loadSegments pt bs (fileWord bs 56 2) (fileWord bs 32 8 % 2 ^ 32) 0
  if ok = false then
    procFreepagetable pt sz
    return none
  else
    let (sp, sz) ← setupStack pt sz argv
    match sp with
    | none =>
      procFreepagetable pt sz
      return none
    | some sp => return some (pt, sz, sp)

/-- `exec`, for the contents of the file that `path` names. -/
def exec (p : Fin NPROC) (file : Option (List UInt8)) (argv : List (List UInt8)) : SysM Int := do
  match file with
  | none => return -1
  | some bs =>
    if goodHeader bs = false then return -1
    else
      let s ← get
      let pr ← getProc p
      match ← vm (execImage s.trampoline pr.tf bs argv) with
      | none => return -1
      | some (pt, sz, sp) =>
        -- `a1`, `epc` and `sp` of the trapframe
        vm (modify fun m => m.setPage pr.tf
          (putLE (putLE (putLE (m.page pr.tf) 120 8 sp) 24 8 (fileWord bs 24 8)) 48 8 sp))
        modifyProc p fun pr => { pr with pagetable := pt, sz := sz }
        vm (procFreepagetable pr.pagetable pr.sz)
        return argv.length

/-- The loop of `sys_exec` over the arguments, and the pages they are in.  An
argument that `fetchstr` cannot fetch is `none`. -/
def fetchArgs : List (Option (List UInt8)) → Nat → List Nat →
    VmM (Option (List (List UInt8)) × List Nat)
  | [], i, pages => return (if i ≥ MAXARG then none else some [], pages)
  | arg :: rest, i, pages => do
    if i ≥ MAXARG then return (none, pages)
    else
      match ← kalloc with
      | none => Vm.panic "sys_exec kalloc"
      | some q =>
        match arg with
        | none => return (none, pages ++ [q])
        | some a =>
          let (r, pages) ← fetchArgs rest (i + 1) (pages ++ [q])
          return (r.map (a :: ·), pages)

/-- The loops that free the pages of the arguments. -/
def freeArgs : List Nat → VmM Unit
  | [] => return ()
  | q :: rest => do
    kfree q
    freeArgs rest

/-- `sys_exec`.  `uargv` is the argument vector; `bad` says that `fetchaddr` fails
after it. -/
def sysExec (p : Fin NPROC) (file : Option (List UInt8)) (uargv : List (Option (List UInt8)))
    (bad : Bool) : SysM Int := do
  let (argv, pages) ← vm (fetchArgs uargv 0 [])
  match argv with
  | none =>
    vm (freeArgs pages)
    return -1
  | some argv =>
    if bad then
      vm (freeArgs pages)
      return -1
    else
      let ret ← exec p file argv
      vm (freeArgs pages)
      return ret

/-! ## Runs -/

/-- The system calls that allocate or free pages. -/
inductive Op where
  | fork (p : Fin NPROC)
  | exec (p : Fin NPROC) (file : Option (List UInt8)) (uargv : List (Option (List UInt8)))
      (bad : Bool)
  | sbrk (p : Fin NPROC) (n : Int)
  | exit (p : Fin NPROC) (status : Int)
  | wait (p : Fin NPROC) (addr : Nat)
  | pipe (p : Fin NPROC) (fdarray : Nat)
  | close (p : Fin NPROC) (fd : Fin NOFILE)

/-- The process that makes the call. -/
def Op.caller : Op → Fin NPROC
  | fork p => p
  | exec p _ _ _ => p
  | sbrk p _ => p
  | exit p _ => p
  | wait p _ => p
  | pipe p _ => p
  | close p _ => p

/-- The call. -/
def Op.call : Op → SysM Int
  | fork p => Task.fork p
  | exec p file uargv bad => sysExec p file uargv bad
  | sbrk p n => growproc p n
  | exit p status => do
    Task.exit p status
    return 0
  | wait p addr => Task.wait p addr
  | pipe p fdarray => sysPipe p fdarray
  | close p fd => sysClose p fd

/-- A call by a process that is live.  A call that panics has no step. -/
def system : Machine Sys Op where
  step s op :=
    if (s.proc op.caller).state = .live then
      match op.call s with
      | .ok (_, s') => some s'
      | .error _ => none
    else none

/-- The state before `userinit`: no process, no open file, no pipe. -/
def blank (mem : Mem) (trampoline : Nat) : Sys where
  mem := mem
  proc := fun _ => ⟨.unused, none, 0, 0, 0, 0, fun _ => none⟩
  file := fun _ => ⟨.none, 0, false, false, 0⟩
  pipe := fun _ => ⟨false, false⟩
  trampoline := trampoline

end SummerOsk.Task
