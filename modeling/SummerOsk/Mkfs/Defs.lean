import SummerOsk.Fs.Names
import SummerOsk.Fs.Layout

/-!
# mkfs

`mkfs/mkfs.c`, which runs on the host and writes the file system image.  The
image file is an array of sectors; reading a sector beyond its end fails, and
writing one extends the file.  Other failures of the host, which end the run
with an error as well, are left out.

The fields of the on-disk structures are little-endian, which is what `xshort`
and `xint` are for.  `argc` is an int and a block number beyond the image is
refused by `rsect`, so the counters `freeinode` and `freeblock` do not wrap.
-/

namespace SummerOsk.Mkfs

open Lib Log Fs Function

def NINODES : Nat := 200

def FSSIZE : Nat := 1000

def FSMAGIC : Nat := 0x10203040

def nbitmap : Nat := FSSIZE / (BSIZE * 8) + 1
def ninodeblocks : Nat := NINODES / IPB + 1
def nlog : Nat := LOGSIZE

/-- Number of meta blocks (boot, superblock, log, inodes, bitmap). -/
def nmeta : Nat := 2 + nlog + ninodeblocks + nbitmap

/-- Number of data blocks. -/
def nblocks : Nat := FSSIZE - nmeta

/-- The superblock that `main` fills in. -/
def sb : Superblock where
  size := FSSIZE
  nblocks := nblocks
  ninodes := NINODES
  inodestart := 2 + nlog
  bmapstart := 2 + nlog + ninodeblocks

theorem geometry : Geometry sb := ⟨by decide, by decide, by decide, by decide⟩

/-- The blocks of the image have their bits in the first bitmap block. -/
theorem bblock_eq {b : Nat} (hb : b < FSSIZE) : sb.bblock b = sb.bmapstart ∧ b % BPB = b := by
  have hBPB : FSSIZE < BPB := by decide
  have hlt : b < BPB := hb.trans hBPB
  exact ⟨by rw [Superblock.bblock, Nat.div_eq_of_lt hlt, Nat.zero_add], Nat.mod_eq_of_lt hlt⟩

def logstart : Nat := 2

/-- `memmove(buf, &sb, sizeof(sb))` into a buffer of zeros. -/
def sbBlock : Block :=
  let x := putLE zeroBlock 0 4 FSMAGIC
  let x := putLE x 4 4 sb.size
  let x := putLE x 8 4 sb.nblocks
  let x := putLE x 12 4 sb.ninodes
  let x := putLE x 16 4 nlog
  let x := putLE x 20 4 logstart
  let x := putLE x 24 4 sb.inodestart
  putLE x 28 4 sb.bmapstart

/-- Why a run ends before `exit(0)`. -/
inductive Exit where
  /-- `perror` and `exit(1)`. -/
  | error (msg : String)
  /-- A failed assertion. -/
  | assertion (msg : String)
  deriving DecidableEq, Repr

/-- The image file and the counters. -/
structure State where
  img : Nat → Block
  /-- The length of the image file. -/
  sectors : Nat
  freeinode : Nat
  freeblock : Nat
  /-- The inode numbers that `ialloc` returned. -/
  inodes : List Nat
  /-- The sectors that `winode` wrote. -/
  inodeWrites : List Nat

abbrev M (α : Type) : Type := Prog Exit State α

/-! ## Sectors -/

/-- The sector at the file offset `sec * BSIZE`, which is computed in 32 bits. -/
def sector (sec : Nat) : Nat := sec % 2 ^ 22

/-- `wsect`. -/
def wsect (sec : Nat) (buf : Block) : M Unit :=
  modify fun s => { s with
    img := update s.img (sector sec) buf
    sectors := max s.sectors (sector sec + 1) }

/-- `rsect`. -/
def rsect (sec : Nat) : M Block := do
  let s ← get
  if sector sec < s.sectors then return s.img (sector sec) else throw (.error "read")

/-! ## Inodes -/

/-- `winode`. -/
def winode (inum : Nat) (ip : Dinode) : M Unit := do
  let buf ← rsect (sb.iblock inum)
  wsect (sb.iblock inum) (putDinode buf (inum % IPB) ip)
  modify fun s => { s with inodeWrites := s.inodeWrites ++ [sector (sb.iblock inum)] }

/-- `rinode`. -/
def rinode (inum : Nat) : M Dinode := do
  let buf ← rsect (sb.iblock inum)
  return getDinode buf (inum % IPB)

/-- `ialloc`. -/
def ialloc (type : Int) : M Nat := do
  let inum := (← get).freeinode
  modify fun s => { s with freeinode := inum + 1, inodes := s.inodes ++ [inum] }
  winode inum { zeroDinode with type := type, nlink := 1 }
  return inum

/-- The loop of `balloc`, which marks the first `n` blocks. -/
def markUsed (x : Block) : Nat → Block
  | 0 => x
  | n + 1 => setBit (markUsed x n) n

theorem getBit_markUsed (n j : Nat) : getBit (markUsed zeroBlock n) j = decide (j < n) := by
  induction n with
  | zero => simp [markUsed, getBit, zeroBlock]
  | succ n ih =>
    rw [markUsed, getBit_setBit, ih, ← Bool.decide_or]
    congr 1
    apply propext
    omega

theorem usedBit_markUsed (D : Nat → Block) {b : Nat} (hb : b < FSSIZE) (n : Nat) :
    usedBit sb (update D sb.bmapstart (markUsed zeroBlock n)) b = decide (b < n) := by
  obtain ⟨hblock, hmod⟩ := bblock_eq hb
  rw [usedBit, hblock, hmod, update_self, getBit_markUsed]

/-- `balloc`: the bitmap with the first `used` blocks. -/
def balloc (used : Nat) : M Unit := do
  if used < BSIZE * 8 then wsect sb.bmapstart (markUsed zeroBlock used)
  else throw (.assertion "used < BSIZE*8")

/-- `freeblock++` -/
def nextBlock : M Nat := do
  let b := (← get).freeblock
  modify fun s => { s with freeblock := b + 1 }
  return b

/-- A slot of `din.addrs`, set to the next block if it is empty. -/
def slotBlock (din : Dinode) (j : Nat) : M Dinode := do
  if din.addrs j = 0 then
    let b ← nextBlock
    return { din with addrs := update din.addrs j b }
  else return din

/-- The block `x` of `iappend` for block `fbn` of the file. -/
def fileBlock (din : Dinode) (fbn : Nat) : M (Dinode × Nat) := do
  if fbn < NDIRECT then
    let din ← slotBlock din fbn
    return (din, din.addrs fbn)
  else
    let din ← slotBlock din NDIRECT
    let indirect ← rsect (din.addrs NDIRECT)
    if getLE indirect (4 * (fbn - NDIRECT)) 4 = 0 then
      let b ← nextBlock
      wsect (din.addrs NDIRECT) (putLE indirect (4 * (fbn - NDIRECT)) 4 b)
      return (din, b)
    else return (din, getLE indirect (4 * (fbn - NDIRECT)) 4)

/-- The loop of `iappend`.  The fuel `k` bounds the blocks that are left. -/
def iappendLoop (din : Dinode) (off : Nat) (p : List UInt8) : Nat → M (Dinode × Nat)
  | 0 => pure (din, off)
  | k + 1 =>
    if 0 < p.length then do
      let fbn := off / BSIZE
      if fbn < MAXFILE then
        let (din, x) ← fileBlock din fbn
        let n1 := min p.length ((fbn + 1) * BSIZE - off)
        let buf ← rsect x
        wsect x (putBytes buf (off - fbn * BSIZE) (p.take n1))
        iappendLoop din (off + n1) (p.drop n1) k
      else throw (.assertion "fbn < MAXFILE")
    else pure (din, off)

/-- `iappend`. -/
def iappend (inum : Nat) (p : List UInt8) : M Unit := do
  let din ← rinode inum
  let (din, off) ← iappendLoop din din.size p (p.length / BSIZE + 2)
  winode inum { din with size := off }

/-! ## `main` -/

/-- A file named on the command line, with the results of the successive calls
of `read`, or `none` if it cannot be opened. -/
structure HostFile where
  path : List UInt8
  reads : Option (List (List UInt8))

/-- `"user/"` -/
def userDir : List UInt8 := [117, 115, 101, 114, 47]

/-- `shortname` before the test for a slash. -/
def HostFile.shortname (f : HostFile) : List UInt8 :=
  if f.path.take 5 = userDir then f.path.drop 5 else f.path

/-- The name in the file system: a leading underscore is skipped. -/
def HostFile.name (f : HostFile) : Name :=
  if f.shortname.head? = some 95 then f.shortname.drop 1 else f.shortname

/-- The loop over `read`, until it returns 0. -/
def copyFile (inum : Nat) : List (List UInt8) → M Unit
  | [] => pure ()
  | buf :: rest =>
    if 0 < buf.length then do
      iappend inum buf
      copyFile inum rest
    else pure ()

/-- The body of the loop over the arguments. -/
def addFile (rootino : Nat) (f : HostFile) : M Unit := do
  if slash ∈ f.shortname then throw (.assertion "index(shortname, '/') == 0")
  else
    match f.reads with
    | none => throw (.error "open")
    | some reads =>
      let inum ← ialloc T_FILE
      iappend rootino (dirent inum f.name)
      copyFile inum reads

def addFiles (rootino : Nat) : List HostFile → M Unit
  | [] => pure ()
  | f :: fs => do
    addFile rootino f
    addFiles rootino fs

/-- Round the size of the root directory up to a block. -/
def fixRoot (rootino : Nat) : M Unit := do
  let din ← rinode rootino
  winode rootino { din with size := (din.size / BSIZE + 1) * BSIZE }

/-- The loop that clears the first `n` sectors. -/
def clear : Nat → M Unit
  | 0 => pure ()
  | n + 1 => do
    clear n
    wsect n zeroBlock

theorem clear_zero : clear 0 = pure () := rfl

theorem clear_succ (n : Nat) : clear (n + 1) = (do
    clear n
    wsect n zeroBlock) := rfl

-- the loop over all sectors is not to be unrolled
attribute [irreducible] clear

/-- `main`, after the image file was opened and truncated. -/
def main (files : List HostFile) : M Unit := do
  clear FSSIZE
  wsect 1 sbBlock
  let rootino ← ialloc T_DIR
  if rootino = ROOTINO then
    iappend rootino (dirent rootino dot)
    iappend rootino (dirent rootino dotdot)
    addFiles rootino files
    fixRoot rootino
    balloc (← get).freeblock
  else throw (.assertion "rootino == ROOTINO")

/-- The empty image file and the counters before `main`. -/
def start : State where
  img := fun _ => zeroBlock
  sectors := 0
  freeinode := 1
  freeblock := nmeta
  inodes := []
  inodeWrites := []

end SummerOsk.Mkfs
