import SummerOsk.Stop
import SummerOsk.Lib.Wp
import SummerOsk.Log.Defs

/-!
# Blocks and inodes

The lower half of `kernel/fs.c`: the block allocator, the on-disk inodes, the
inode cache and the contents of inodes.  A file system call runs these
functions inside one transaction, and calls of different processes that touch
the same inode exclude each other through its sleep lock, so the model runs one
call at a time.

`cache` is what `bread` returns for a block and `disk` what `log_write`
published last.  They differ for a block that was changed in its buffer and not
logged, which happens when `either_copyin` fails in `writei`; the buffer may be
recycled later, and then the change is gone.  The log and the buffer cache
behind this view are in `SummerOsk.Log` and `SummerOsk.Bio`.

There is one device, so `dev` is left out of the inodes.
-/

namespace SummerOsk.Fs

open Lib Log Function

/-! ## The on-disk format -/

def NDIRECT : Nat := 12
def NINDIRECT : Nat := BSIZE / 4
def MAXFILE : Nat := NDIRECT + NINDIRECT

/-- Inodes per block. -/
def IPB : Nat := BSIZE / 64

/-- Bitmap bits per block. -/
def BPB : Nat := BSIZE * 8

def T_DIR : Int := 1
def T_FILE : Int := 2
def T_DEVICE : Int := 3

/-- `struct superblock`, without the fields that the kernel does not read after
the boot. -/
structure Superblock where
  size : Nat
  nblocks : Nat
  ninodes : Nat
  inodestart : Nat
  bmapstart : Nat
  deriving DecidableEq, Repr

/-- `IBLOCK(i, sb)` -/
def Superblock.iblock (sb : Superblock) (inum : Nat) : Nat := inum / IPB + sb.inodestart

/-- `BBLOCK(b, sb)` -/
def Superblock.bblock (sb : Superblock) (b : Nat) : Nat := b / BPB + sb.bmapstart

/-- `struct dinode`.  The shorts are signed, `size` and `addrs` are unsigned
32-bit words, and `addrs` has `NDIRECT + 1` entries. -/
structure Dinode where
  type : Int
  major : Int
  minor : Int
  nlink : Int
  size : Nat
  addrs : Nat → Nat

/-- `(struct dinode*)bp->data + k` -/
def getDinode (x : Block) (k : Nat) : Dinode where
  type := getInt x (64 * k) 2
  major := getInt x (64 * k + 2) 2
  minor := getInt x (64 * k + 4) 2
  nlink := getInt x (64 * k + 6) 2
  size := getLE x (64 * k + 8) 4
  addrs := fun j => if j ≤ NDIRECT then getLE x (64 * k + 12 + 4 * j) 4 else 0

/-- `memmove(dip->addrs, ip->addrs, sizeof(ip->addrs))`, from entry `j` on. -/
def putAddrs (x : Block) (k j : Nat) (addrs : Nat → Nat) : Nat → Block
  | 0 => x
  | n + 1 => putAddrs (putLE x (64 * k + 12 + 4 * j) 4 (addrs j)) k (j + 1) addrs n

/-- Store all the fields of dinode `k` of a block. -/
def putDinode (x : Block) (k : Nat) (d : Dinode) : Block :=
  let x := putInt x (64 * k) 2 d.type
  let x := putInt x (64 * k + 2) 2 d.major
  let x := putInt x (64 * k + 4) 2 d.minor
  let x := putInt x (64 * k + 6) 2 d.nlink
  let x := putLE x (64 * k + 8) 4 d.size
  putAddrs x k 0 d.addrs (NDIRECT + 1)

/-- A block of zeros. -/
def zeroBlock : Block := fun _ => 0

/-- A dinode after `memset(dip, 0, sizeof(*dip))`. -/
def zeroDinode : Dinode := ⟨0, 0, 0, 0, 0, fun _ => 0⟩

/-! ## The state -/

/-- `struct inode`. -/
structure Inode extends Dinode where
  inum : Nat
  ref : Int
  /-- The sleep lock is held. -/
  locked : Bool
  valid : Bool

/-- The blocks, the superblock and the `NINODE` entries of the inode cache. -/
structure FsState where
  cache : Nat → Block
  disk : Nat → Block
  sb : Superblock
  icache : Nat → Inode

abbrev FsM (α : Type) : Type := Prog Stop FsState α

def panic {α : Type} (msg : String) : FsM α := throw (.panic msg)

def getSb : FsM Superblock := do return (← get).sb

def getInode (i : Nat) : FsM Inode := do return (← get).icache i

def setInode (i : Nat) (ip : Inode) : FsM Unit :=
  modify fun s => { s with icache := update s.icache i ip }

/-- Change fields of `ip`. -/
def modifyInode (i : Nat) (f : Inode → Inode) : FsM Unit := do
  setInode i (f (← getInode i))

/-- The contents of the buffer that `bread` returns. -/
def bread (b : Nat) : FsM Block := do return (← get).cache b

/-- Change the buffer of a block and pass it to `log_write`. -/
def logWrite (b : Nat) (x : Block) : FsM Unit :=
  modify fun s => { s with
    cache := update s.cache b x, disk := update s.disk b x }

/-- Change the buffer of a block and release it without `log_write`. -/
def scribble (b : Nat) (x : Block) : FsM Unit :=
  modify fun s => { s with cache := update s.cache b x }

/-! ## Blocks -/

def bzero (b : Nat) : FsM Unit := logWrite b zeroBlock

/-- The inner loop of `balloc`, from bit `bi` on, with `n` bits left: the first
free bit of the bitmap block `x`, which describes the blocks from `b` on. -/
def freeBit (size : Nat) (x : Block) (b bi : Nat) : Nat → Option Nat
  | 0 => none
  | n + 1 =>
    if b + bi < size then
      if getBit x bi = false then some bi else freeBit size x b (bi + 1) n
    else none

/-- The outer loop of `balloc`, from block `b` on, with `n` bitmap blocks
left. -/
def ballocFrom (b : Nat) : Nat → FsM Nat
  | 0 => panic "balloc: out of blocks"
  | n + 1 => do
    let sb ← getSb
    if b < sb.size then
      let x ← bread (sb.bblock b)
      match freeBit sb.size x b 0 BPB with
      | some bi =>
        logWrite (sb.bblock b) (setBit x bi)
        bzero (b + bi)
        return b + bi
      | none => ballocFrom (b + BPB) n
    else panic "balloc: out of blocks"

/-- `balloc`. -/
def balloc : FsM Nat := do
  let sb ← getSb
  ballocFrom 0 (sb.size / BPB + 1)

/-- `bfree`. -/
def bfree (b : Nat) : FsM Unit := do
  let sb ← getSb
  let x ← bread (sb.bblock b)
  if getBit x (b % BPB) = false then panic "freeing free block"
  else logWrite (sb.bblock b) (clearBit x (b % BPB))

/-! ## Inodes -/

/-- `iupdate`. -/
def iupdate (i : Nat) : FsM Unit := do
  let ip ← getInode i
  let sb ← getSb
  let x ← bread (sb.iblock ip.inum)
  logWrite (sb.iblock ip.inum) (putDinode x (ip.inum % IPB) ip.toDinode)

/-- `iget`: the entry that holds the inode already, or the first one that is
free. -/
def iget (inum : Nat) : FsM Nat := do
  let s ← get
  match (List.range NINODE).find? fun i => 0 < (s.icache i).ref ∧ (s.icache i).inum = inum with
  | some i =>
    modifyInode i fun ip => { ip with ref := ip.ref + 1 }
    return i
  | none =>
    match (List.range NINODE).find? fun i => (s.icache i).ref = 0 with
    | some i =>
      modifyInode i fun ip => { ip with inum := inum, ref := 1, valid := false }
      return i
    | none => panic "iget: no inodes"

/-- `idup`. -/
def idup (i : Nat) : FsM Nat := do
  modifyInode i fun ip => { ip with ref := ip.ref + 1 }
  return i

/-- The loop of `ialloc`, from inode `inum` on, with `n` inodes left. -/
def iallocFrom (type : Int) (inum : Nat) : Nat → FsM Nat
  | 0 => panic "ialloc: no inodes"
  | n + 1 => do
    let sb ← getSb
    if inum < sb.ninodes then
      let x ← bread (sb.iblock inum)
      if (getDinode x (inum % IPB)).type = 0 then
        logWrite (sb.iblock inum) (putDinode x (inum % IPB) { zeroDinode with type := type })
        iget inum
      else iallocFrom type (inum + 1) n
    else panic "ialloc: no inodes"

/-- `ialloc`. -/
def ialloc (type : Int) : FsM Nat := do
  let sb ← getSb
  iallocFrom type 1 sb.ninodes

/-- `ilock`. -/
def ilock (i : Nat) : FsM Unit := do
  let ip ← getInode i
  if ip.ref < 1 then panic "ilock"
  else if ip.locked then throw .sleep
  else
    setInode i { ip with locked := true }
    if ip.valid = false then
      let sb ← getSb
      let x ← bread (sb.iblock ip.inum)
      let d := getDinode x (ip.inum % IPB)
      setInode i { ip with toDinode := d, locked := true, valid := true }
      if d.type = 0 then panic "ilock: no type"

/-- `iunlock`. -/
def iunlock (i : Nat) : FsM Unit := do
  let ip ← getInode i
  if ip.locked = false ∨ ip.ref < 1 then panic "iunlock"
  else setInode i { ip with locked := false }

/-- The first half of the indirect case of `bmap`: the indirect block, allocated
if necessary. -/
def loadIndirect (i : Nat) : FsM Nat := do
  let ip ← getInode i
  if ip.addrs NDIRECT = 0 then
    let b ← balloc
    modifyInode i fun ip => { ip with addrs := update ip.addrs NDIRECT b }
    return b
  else return ip.addrs NDIRECT

/-- `bmap`. -/
def bmap (i bn : Nat) : FsM Nat := do
  let ip ← getInode i
  if bn < NDIRECT then
    if ip.addrs bn = 0 then
      let b ← balloc
      modifyInode i fun ip => { ip with addrs := update ip.addrs bn b }
      return b
    else return ip.addrs bn
  else if bn - NDIRECT < NINDIRECT then
    let ib ← loadIndirect i
    let x ← bread ib
    if getLE x (4 * (bn - NDIRECT)) 4 = 0 then
      let b ← balloc
      logWrite ib (putLE x (4 * (bn - NDIRECT)) 4 b)
      return b
    else return getLE x (4 * (bn - NDIRECT)) 4
  else panic "bmap: out of range"

/-- The first loop of `itrunc`, from slot `j` on, with `n` slots left. -/
def truncDirect (i j : Nat) : Nat → FsM Unit
  | 0 => pure ()
  | n + 1 => do
    let ip ← getInode i
    if ip.addrs j ≠ 0 then
      bfree (ip.addrs j)
      modifyInode i fun ip => { ip with addrs := update ip.addrs j 0 }
    truncDirect i (j + 1) n

/-- The loop of `itrunc` over the indirect block `x`, from entry `j` on, with
`n` entries left. -/
def truncIndirect (x : Block) (j : Nat) : Nat → FsM Unit
  | 0 => pure ()
  | n + 1 => do
    if getLE x (4 * j) 4 ≠ 0 then bfree (getLE x (4 * j) 4)
    truncIndirect x (j + 1) n

/-- `itrunc`. -/
def itrunc (i : Nat) : FsM Unit := do
  truncDirect i 0 NDIRECT
  let ip ← getInode i
  if ip.addrs NDIRECT ≠ 0 then
    let x ← bread (ip.addrs NDIRECT)
    truncIndirect x 0 NINDIRECT
    bfree (ip.addrs NDIRECT)
    modifyInode i fun ip => { ip with addrs := update ip.addrs NDIRECT 0 }
  modifyInode i fun ip => { ip with size := 0 }
  iupdate i

/-- `iput`. -/
def iput (i : Nat) : FsM Unit := do
  let ip ← getInode i
  if ip.ref = 1 ∧ ip.valid ∧ ip.nlink = 0 then
    if ip.locked then throw .sleep
    itrunc i
    modifyInode i fun ip => { ip with type := 0 }
    iupdate i
    modifyInode i fun ip => { ip with valid := false }
  modifyInode i fun ip => { ip with ref := ip.ref - 1 }

/-- `iunlockput`. -/
def iunlockput (i : Nat) : FsM Unit := do
  iunlock i
  iput i

/-! ## Inode contents -/

/-- The loop of `readi` into a kernel buffer, with the bytes it copies.  The
fuel `k` bounds the blocks that are left. -/
def readLoop (i off n : Nat) : Nat → FsM (List UInt8)
  | 0 => pure []
  | k + 1 =>
    if 0 < n then do
      let b ← bmap i (off / BSIZE)
      let x ← bread b
      let m := min n (BSIZE - off % BSIZE)
      let rest ← readLoop i (off + m) (n - m) k
      return getBytes x (off % BSIZE) m ++ rest
    else pure []

/-- `readi` into a kernel buffer: -1, or the bytes it copies and returns the
number of. -/
def readi (i off n : Nat) : FsM (Option (List UInt8)) := do
  let ip ← getInode i
  if off > ip.size ∨ (off + n) % 2 ^ 32 < off then return none
  else
    let n := if off + n > ip.size then ip.size - off else n
    return some (← readLoop i off n (n / BSIZE + 2))

/-- A source of bytes for `either_copyin`, by the distance from `src`.  An
address that cannot be read has no byte. -/
abbrev Source := Nat → Option UInt8

/-- The bytes that `either_copyin` copies when it is asked for `m` bytes from
distance `o` on: up to the first address that cannot be read. -/
def Source.fetch (src : Source) (o : Nat) : Nat → List UInt8
  | 0 => []
  | m + 1 =>
    match src o with
    | some x => x :: src.fetch (o + 1) m
    | none => []

/-- A kernel buffer as a source. -/
def Source.ofBytes (bs : List UInt8) : Source := fun o => bs[o]?

/-- The loop of `writei`, which returns the offset it stopped at.  `tot` bytes
are written, `n` are left, and the fuel `k` bounds the blocks that are left. -/
def writeLoop (i : Nat) (src : Source) (tot off n : Nat) : Nat → FsM Nat
  | 0 => pure off
  | k + 1 =>
    if 0 < n then do
      let b ← bmap i (off / BSIZE)
      let x ← bread b
      let m := min n (BSIZE - off % BSIZE)
      let bs := src.fetch tot m
      if bs.length < m then
        scribble b (putBytes x (off % BSIZE) bs)
        return off
      else
        logWrite b (putBytes x (off % BSIZE) bs)
        writeLoop i src (tot + m) (off + m) (n - m) k
    else pure off

/-- `writei`. -/
def writei (i : Nat) (src : Source) (off n : Nat) : FsM Int := do
  let ip ← getInode i
  if off > ip.size ∨ (off + n) % 2 ^ 32 < off then return -1
  else if (off + n) % 2 ^ 32 > MAXFILE * BSIZE then return -1
  else
    let stop ← writeLoop i src 0 off n (n / BSIZE + 2)
    if n > 0 then
      modifyInode i fun ip => { ip with size := if stop > ip.size then stop else ip.size }
      iupdate i
    return n

end SummerOsk.Fs
