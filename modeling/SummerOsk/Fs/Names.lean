import SummerOsk.Fs.Defs
import SummerOsk.Lib.Machine

/-!
# Directories, paths and system calls

The upper half of `kernel/fs.c` and the calls of `kernel/sysfile.c` that change
directories, as one machine.  An action of the machine is one transaction: a
system call, or one round of the loop of `filewrite`.  The arguments have been
fetched from user space, and `cwd` is the current directory of the caller.

The machine keeps the open files and the current directories, which are what
holds references to inodes between two calls.
-/

namespace SummerOsk.Fs

open Lib

def ROOTINO : Nat := 1
def DIRSIZ : Nat := 14

/-- A short, from an int. -/
def short (x : Int) : Int := x.bmod (2 ^ 16)

/-! ## Directories -/

/-- A file name of at most `DIRSIZ` bytes, up to its NUL. -/
abbrev Name := List UInt8

/-- The inode number of a `struct dirent`. -/
def direntInum (de : List UInt8) : Nat := (de.getD 0 0).toNat + 256 * (de.getD 1 0).toNat

/-- The name of a `struct dirent`. -/
def direntName (de : List UInt8) : Name := (de.drop 2).takeWhile (· ≠ 0)

/-- A `struct dirent`, with the name as `strncpy` copies it. -/
def dirent (inum : Nat) (name : Name) : List UInt8 :=
  UInt8.ofNat inum :: UInt8.ofNat (inum / 256) ::
    (name.take DIRSIZ ++ List.replicate (DIRSIZ - name.length) 0)

/-- Read the `struct dirent` at an offset. -/
def readDirent (i off : Nat) (msg : String) : FsM (List UInt8) := do
  match ← readi i off 16 with
  | some de => if de.length = 16 then return de else panic msg
  | none => panic msg

/-- The loop of `dirlookup`, from offset `off` on, with `k` entries left. -/
def dirlookupFrom (i : Nat) (name : Name) (off : Nat) : Nat → FsM (Option (Nat × Nat))
  | 0 => pure none
  | k + 1 => do
    let dp ← getInode i
    if off < dp.size then
      let de ← readDirent i off "dirlookup read"
      if direntInum de ≠ 0 ∧ direntName de = name then
        let j ← iget (direntInum de)
        return some (j, off)
      else dirlookupFrom i name (off + 16) k
    else pure none

/-- `dirlookup`: the inode and the offset of the entry. -/
def dirlookup (i : Nat) (name : Name) : FsM (Option (Nat × Nat)) := do
  let dp ← getInode i
  if dp.type ≠ T_DIR then panic "dirlookup not DIR"
  else dirlookupFrom i name 0 (dp.size / 16 + 1)

/-- The loop of `dirlink`: the offset of the first empty entry, or the end. -/
def emptyDirent (i off : Nat) : Nat → FsM Nat
  | 0 => pure off
  | k + 1 => do
    let dp ← getInode i
    if off < dp.size then
      let de ← readDirent i off "dirlink read"
      if direntInum de = 0 then return off else emptyDirent i (off + 16) k
    else pure off

/-- `dirlink`. -/
def dirlink (i : Nat) (name : Name) (inum : Nat) : FsM Int := do
  match ← dirlookup i name with
  | some (j, _) =>
    iput j
    return -1
  | none =>
    let dp ← getInode i
    let off ← emptyDirent i 0 (dp.size / 16 + 1)
    let n ← writei i (.ofBytes (dirent inum name)) off 16
    if n ≠ 16 then panic "dirlink" else return 0

/-- The loop of `isdirempty`. -/
def isdiremptyFrom (i off : Nat) : Nat → FsM Bool
  | 0 => pure true
  | k + 1 => do
    let dp ← getInode i
    if off < dp.size then
      let de ← readDirent i off "isdirempty: readi"
      if direntInum de ≠ 0 then return false else isdiremptyFrom i (off + 16) k
    else pure true

/-- `isdirempty`. -/
def isdirempty (i : Nat) : FsM Bool := do
  let dp ← getInode i
  isdiremptyFrom i 32 (dp.size / 16 + 1)

/-! ## Paths -/

/-- The byte of a slash. -/
def slash : UInt8 := 47

def dot : Name := [46]
def dotdot : Name := [46, 46]

/-- `skipelem`: the first element of the path and what follows it. -/
def skipelem (path : List UInt8) : Option (Name × List UInt8) :=
  match path.dropWhile (· = slash) with
  | [] => none
  | c :: cs =>
    let elem := (c :: cs).takeWhile (· ≠ slash)
    some (elem.take DIRSIZ, ((c :: cs).drop elem.length).dropWhile (· = slash))

/-- The loop of `namex`, from the inode `i` on.  The fuel `k` bounds the
elements that are left. -/
def namexFrom (nameiparent : Bool) (i : Nat) (path : List UInt8) :
    Nat → FsM (Option (Nat × Name))
  | 0 => panic "namex"
  | k + 1 =>
    match skipelem path with
    | none => if nameiparent then do
        iput i
        return none
      else return some (i, [])
    | some (name, rest) => do
      ilock i
      let ip ← getInode i
      if ip.type ≠ T_DIR then
        iunlockput i
        return none
      else if nameiparent ∧ rest = [] then
        iunlock i
        return some (i, name)
      else
        match ← dirlookup i name with
        | none =>
          iunlockput i
          return none
        | some (next, _) =>
          iunlockput i
          namexFrom nameiparent next rest k

/-- `namex`: the inode, and the last element of the path for
`nameiparent`. -/
def namex (cwd : Nat) (nameiparent : Bool) (path : List UInt8) :
    FsM (Option (Nat × Name)) := do
  let i ← if path.head? = some slash then iget ROOTINO else idup cwd
  namexFrom nameiparent i path (path.length + 1)

/-- `namei`. -/
def namei (cwd : Nat) (path : List UInt8) : FsM (Option Nat) := do
  return (← namex cwd false path).map Prod.fst

/-! ## System calls -/

/-- `create`: the new or existing inode, locked. -/
def create (cwd : Nat) (path : List UInt8) (type major minor : Int) : FsM (Option Nat) := do
  match ← namex cwd true path with
  | none => return none
  | some (dp, name) =>
    ilock dp
    match ← dirlookup dp name with
    | some (ip, _) =>
      iunlockput dp
      ilock ip
      let t := (← getInode ip).type
      if type = T_FILE ∧ (t = T_FILE ∨ t = T_DEVICE) then return some ip
      else
        iunlockput ip
        return none
    | none =>
      let ip ← ialloc type
      ilock ip
      modifyInode ip fun n => { n with major := major, minor := minor, nlink := 1 }
      iupdate ip
      if type = T_DIR then
        modifyInode dp fun n => { n with nlink := short (n.nlink + 1) }
        iupdate dp
        let r ← dirlink ip dot (← getInode ip).inum
        if r < 0 then panic "create dots"
        let r ← dirlink ip dotdot (← getInode dp).inum
        if r < 0 then panic "create dots"
      let r ← dirlink dp name (← getInode ip).inum
      if r < 0 then panic "create: dirlink"
      iunlockput dp
      return some ip

/-- `sys_link`. -/
def sysLink (cwd : Nat) (old new : List UInt8) : FsM Int := do
  match ← namei cwd old with
  | none => return -1
  | some ip =>
    ilock ip
    if (← getInode ip).type = T_DIR then
      iunlockput ip
      return -1
    else
      modifyInode ip fun n => { n with nlink := short (n.nlink + 1) }
      iupdate ip
      iunlock ip
      let linked ← do
        match ← namex cwd true new with
        | none => pure false
        | some (dp, name) =>
          ilock dp
          let r ← dirlink dp name (← getInode ip).inum
          iunlockput dp
          pure (decide (0 ≤ r))
      if linked then
        iput ip
        return 0
      else
        ilock ip
        modifyInode ip fun n => { n with nlink := short (n.nlink - 1) }
        iupdate ip
        iunlockput ip
        return -1

/-- The end of `sys_unlink`: the entry is cleared and the links go. -/
def unlinkEntry (dp ip off : Nat) : FsM Int := do
  let r ← writei dp (.ofBytes (List.replicate 16 0)) off 16
  if r ≠ 16 then panic "unlink: writei"
  else
    if (← getInode ip).type = T_DIR then
      modifyInode dp fun n => { n with nlink := short (n.nlink - 1) }
      iupdate dp
    iunlockput dp
    modifyInode ip fun n => { n with nlink := short (n.nlink - 1) }
    iupdate ip
    iunlockput ip
    return 0

/-- `sys_unlink`. -/
def sysUnlink (cwd : Nat) (path : List UInt8) : FsM Int := do
  match ← namex cwd true path with
  | none => return -1
  | some (dp, name) =>
    ilock dp
    if name = dot ∨ name = dotdot then
      iunlockput dp
      return -1
    else
      match ← dirlookup dp name with
      | none =>
        iunlockput dp
        return -1
      | some (ip, off) =>
        ilock ip
        let n ← getInode ip
        if n.nlink < 1 then panic "unlink: nlink < 1"
        else if n.type = T_DIR then
          if (← isdirempty ip) = false then
            iunlockput ip
            iunlockput dp
            return -1
          else unlinkEntry dp ip off
        else unlinkEntry dp ip off

/-- `sys_mkdir`. -/
def sysMkdir (cwd : Nat) (path : List UInt8) : FsM Int := do
  match ← create cwd path T_DIR 0 0 with
  | none => return -1
  | some ip =>
    iunlockput ip
    return 0

/-- `sys_mknod`. -/
def sysMknod (cwd : Nat) (path : List UInt8) (major minor : Int) : FsM Int := do
  match ← create cwd path T_DEVICE (short major) (short minor) with
  | none => return -1
  | some ip =>
    iunlockput ip
    return 0

def O_RDONLY : Nat := 0x000
def O_WRONLY : Nat := 0x001
def O_RDWR : Nat := 0x002
def O_CREATE : Nat := 0x200

/-- The first half of `sys_open`: the inode, locked. -/
def openInode (cwd : Nat) (path : List UInt8) (omode : Nat) : FsM (Option Nat) :=
  if omode &&& O_CREATE ≠ 0 then create cwd path T_FILE 0 0
  else do
    match ← namei cwd path with
    | none => return none
    | some ip =>
      ilock ip
      if (← getInode ip).type = T_DIR ∧ omode ≠ O_RDONLY then
        iunlockput ip
        return none
      else return some ip

/-- `sys_open` up to the new `struct file`: the inode, unlocked.  `room` says
whether `filealloc` and `fdalloc` succeed. -/
def sysOpen (cwd : Nat) (path : List UInt8) (omode : Nat) (room : Bool) :
    FsM (Option Nat) := do
  match ← openInode cwd path omode with
  | none => return none
  | some ip =>
    let n ← getInode ip
    if (n.type = T_DEVICE ∧ (n.major < 0 ∨ n.major ≥ NDEV)) ∨ room = false then
      iunlockput ip
      return none
    else
      iunlock ip
      return some ip

/-- `f->writable` of the file that `sys_open` returns. -/
def isWritable (omode : Nat) : Bool := omode &&& O_WRONLY ≠ 0 ∨ omode &&& O_RDWR ≠ 0

/-- One round of the loop of `filewrite`: the write of one chunk. -/
def writeChunk (ip : Nat) (src : Source) (off n : Nat) : FsM Int := do
  ilock ip
  let r ← writei ip src off n
  iunlock ip
  return r

/-- `sys_chdir`: the new current directory. -/
def sysChdir (cwd : Nat) (path : List UInt8) : FsM (Option Nat) := do
  match ← namei cwd path with
  | none => return none
  | some ip =>
    ilock ip
    if (← getInode ip).type ≠ T_DIR then
      iunlockput ip
      return none
    else
      iunlock ip
      iput cwd
      return some ip

/-! ## The machine -/

/-- A `struct file` of an inode. -/
structure File where
  ip : Nat
  /-- `FD_DEVICE`: writes do not reach the inode. -/
  device : Bool
  writable : Bool
  deriving DecidableEq, Repr

/-- The file system, the open files and the current directories. -/
structure World where
  fs : FsState
  files : List File
  cwds : List Nat
  stopped : Option Stop

/-- The transactions, and the recycling of a buffer. -/
inductive Op where
  /-- The buffer of block `b` is recycled. -/
  | recycle (b : Nat)
  /-- The first lookup of the root directory, by `userinit`. -/
  | root
  | open (cwd : Nat) (path : List UInt8) (omode : Nat) (room : Bool)
  /-- One round of the loop of `filewrite`. -/
  | write (f : File) (src : Source) (off n : Nat)
  /-- The last `fileclose` of an open file. -/
  | close (f : File)
  | link (cwd : Nat) (old new : List UInt8)
  | unlink (cwd : Nat) (path : List UInt8)
  | mkdir (cwd : Nat) (path : List UInt8)
  | mknod (cwd : Nat) (path : List UInt8) (major minor : Int)
  | chdir (cwd : Nat) (path : List UInt8)
  /-- `fork` duplicates the current directory. -/
  | fork (cwd : Nat)
  /-- `exit` drops the current directory. -/
  | exit (cwd : Nat)

namespace World

/-- Run a call and record its result. -/
def perform {α : Type} (w : World) (x : FsM α) (f : α → World → World) : World :=
  match x w.fs with
  | .ok (a, t) => f a { w with fs := t }
  | .error e => { w with stopped := some e }

/-- One transaction.  A kernel that stopped makes no more. -/
def step (w : World) (op : Op) : Option World :=
  if w.stopped.isSome then none
  else match op with
  | .recycle b =>
    some { w with fs := { w.fs with cache := Function.update w.fs.cache b (w.fs.disk b) } }
  | .root => some (w.perform (iget ROOTINO) fun i w => { w with cwds := i :: w.cwds })
  | .open cwd path omode room =>
    if cwd ∈ w.cwds then
      some (w.perform (do
          let r ← sysOpen cwd path omode room
          match r with
          | none => return none
          | some ip => return some (ip, (← getInode ip).type)) fun r w =>
        match r with
        | none => w
        | some (ip, type) =>
          { w with files := ⟨ip, type = T_DEVICE, isWritable omode⟩ :: w.files })
    else none
  | .write f src off n =>
    if f ∈ w.files ∧ f.writable = true ∧ f.device = false ∧ off < 2 ^ 32 ∧ n < 2 ^ 32 then
      some (w.perform (writeChunk f.ip src off n) fun _ w => w)
    else none
  | .close f =>
    if f ∈ w.files then
      some (w.perform (iput f.ip) fun _ w => { w with files := w.files.erase f })
    else none
  | .link cwd old new =>
    if cwd ∈ w.cwds then some (w.perform (sysLink cwd old new) fun _ w => w) else none
  | .unlink cwd path =>
    if cwd ∈ w.cwds then some (w.perform (sysUnlink cwd path) fun _ w => w) else none
  | .mkdir cwd path =>
    if cwd ∈ w.cwds then some (w.perform (sysMkdir cwd path) fun _ w => w) else none
  | .mknod cwd path major minor =>
    if cwd ∈ w.cwds then some (w.perform (sysMknod cwd path major minor) fun _ w => w)
    else none
  | .chdir cwd path =>
    if cwd ∈ w.cwds then
      some (w.perform (sysChdir cwd path) fun r w =>
        match r with
        | none => w
        | some ip => { w with cwds := ip :: w.cwds.erase cwd })
    else none
  | .fork cwd =>
    if cwd ∈ w.cwds then
      some (w.perform (idup cwd) fun i w => { w with cwds := i :: w.cwds })
    else none
  | .exit cwd =>
    if cwd ∈ w.cwds then
      some (w.perform (iput cwd) fun _ w => { w with cwds := w.cwds.erase cwd })
    else none

end World

/-- The file system as a machine. -/
def fileSystem : Machine World Op := ⟨World.step⟩

end SummerOsk.Fs
