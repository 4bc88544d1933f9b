import SummerOsk.Params
import SummerOsk.Lib.Bytes

/-!
# The redo log of `kernel/log.c`

A faithful model of the log functions.  The state holds the disk, the
contents that `bread` returns for each block, the pins that `bpin` and
`bunpin` put on the buffers, and the fields of `struct log`.

`bread` and `brelse` are balanced in every function of `log.c`, so they leave
no trace here: reading a block is reading `data`, and changing a buffer is
`setData`.  `SummerOsk.Bio` models the buffers themselves and proves that
this view of them is right after a boot with an empty log.  Any other boot log
makes `recover_from_log` unpin buffers that nobody pinned, and `data` is then
right for the recovery itself but not for what runs after it.  `bwrite` is the
only function that reaches the disk, and it also records the write in
`writes`, so that a crash is a prefix of that list.

The in-memory header `lh` is the list of the first `n` entries of
`lh.block`, and `lh.n` is its length.
-/

namespace SummerOsk.Log

open Lib Function

/-- The bytes of one disk block.  No access goes past `BSIZE`. -/
abbrev Block := Bytes

/-- One block write that reached the disk. -/
abbrev DiskWrite := Nat × Block

/-! ## The header block -/

/-- `lh->n` of a header block, a signed 32-bit field. -/
def headN (b : Block) : Int := getInt b 0 4

/-- `lh->block[i]` of a header block. -/
def headBlock (b : Block) (i : Nat) : Nat := getLE b (4 + 4 * i) 4

/-- The loop `hb->block[i] = log.lh.block[i]` of `write_head`, from index
`i`. -/
def putBlocks (b : Block) (i : Nat) : List Nat → Block
  | [] => b
  | x :: xs => putBlocks (putLE b (4 + 4 * i) 4 x) (i + 1) xs

/-- A header block with `n` and the first `n` entries replaced.  The other
bytes stay as they were in the buffer. -/
def putHead (b : Block) (lh : List Nat) : Block :=
  putBlocks (putLE b 0 4 lh.length) 0 lh

/-- The entries that `read_head` copies into the in-memory header. -/
def headList (b : Block) : List Nat :=
  (List.range (headN b).toNat).map (headBlock b)

/-! ## The state -/

/-- The disk, the buffers as `bread` shows them, and `struct log`. -/
structure LogState where
  /-- Contents of the disk. -/
  disk : Nat → Block
  /-- Contents that `bread` returns. -/
  data : Nat → Block
  /-- Pins held on the buffer of a block. -/
  pins : Nat → Int
  /-- The block writes that reached the disk, oldest first. -/
  writes : List DiskWrite
  /-- `log.start`, the block of the header. -/
  start : Nat
  /-- `log.size`, the number of blocks of the log area. -/
  size : Nat
  /-- `log.outstanding`, how many operations are executing. -/
  outstanding : Int
  /-- `log.committing`. -/
  committing : Bool
  /-- The first `log.lh.n` entries of `log.lh.block`. -/
  lh : List Nat

namespace LogState

variable (s : LogState)

/-- Change the contents of the buffer of block `b`. -/
def setData (b : Nat) (d : Block) : LogState :=
  { s with data := update s.data b d }

/-- `bwrite`: write the buffer of block `b` to the disk. -/
def bwrite (b : Nat) : LogState :=
  { s with
    disk := update s.disk b (s.data b)
    writes := s.writes ++ [(b, s.data b)] }

/-- `bpin`. -/
def bpin (b : Nat) : LogState :=
  { s with pins := update s.pins b (s.pins b + 1) }

/-- `bunpin`. -/
def bunpin (b : Nat) : LogState :=
  { s with pins := update s.pins b (s.pins b - 1) }

/-! ## Commit and recovery -/

/-- One round of the loop of `install_trans`. -/
def installStep (tail b : Nat) : LogState :=
  ((s.setData b (s.data (s.start + tail + 1))).bwrite b).bunpin b

/-- The loop of `install_trans` over the entries from index `tail` on. -/
def installFrom (s : LogState) (tail : Nat) : List Nat → LogState
  | [] => s
  | b :: bs => installFrom (s.installStep tail b) (tail + 1) bs

/-- `install_trans`: copy the committed blocks from the log to their home. -/
def installTrans : LogState := s.installFrom 0 s.lh

/-- `read_head`: load the on-disk header into memory. -/
def readHead : LogState := { s with lh := headList (s.data s.start) }

/-- `write_head`: write the in-memory header to the disk. -/
def writeHead : LogState :=
  (s.setData s.start (putHead (s.data s.start) s.lh)).bwrite s.start

/-- `log.lh.n = 0`. -/
def clearHead : LogState := { s with lh := [] }

/-- `recover_from_log`. -/
def recoverFromLog : LogState :=
  s.readHead.installTrans.clearHead.writeHead

/-- One round of the loop of `write_log`. -/
def writeLogStep (tail b : Nat) : LogState :=
  (s.setData (s.start + tail + 1) (s.data b)).bwrite (s.start + tail + 1)

/-- The loop of `write_log` over the entries from index `tail` on. -/
def writeLogFrom (s : LogState) (tail : Nat) : List Nat → LogState
  | [] => s
  | b :: bs => writeLogFrom (s.writeLogStep tail b) (tail + 1) bs

/-- `write_log`: copy the modified blocks from the cache to the log. -/
def writeLog : LogState := s.writeLogFrom 0 s.lh

/-- `commit`. -/
def commit : LogState :=
  if 0 < s.lh.length then
    s.writeLog.writeHead.installTrans.clearHead.writeHead
  else s

/-! ## The calls of the file system -/

/-- One pass through the loop of `begin_op`.  `none` is a pass that ends in
`sleep`. -/
def beginOp : Option LogState :=
  if s.committing then none
  else if (s.lh.length : Int) + (s.outstanding + 1) * MAXOPBLOCKS > LOGSIZE then none
  else some { s with outstanding := s.outstanding + 1 }

/-- The two tests of `log_write` that run before it takes `log.lock`. -/
def logWriteCheck : Except String Unit :=
  if (s.lh.length : Int) ≥ LOGSIZE ∨ (s.lh.length : Int) ≥ (s.size : Int) - 1 then
    .error "too big a transaction"
  else if s.outstanding < 1 then .error "log_write outside of trans"
  else .ok ()

/-- The part of `log_write` under `log.lock`.  A block that is in the header
is absorbed, a new one is appended and pinned. -/
def logWriteLocked (b : Nat) : LogState :=
  if b ∈ s.lh then s
  else { s.bpin b with lh := s.lh ++ [b] }

/-- `log_write`, run without interruption. -/
def logWrite (b : Nat) : Except String LogState := do
  s.logWriteCheck
  return s.logWriteLocked b

/-- The first critical section of `end_op`, with the value of `do_commit`. -/
def endOpEnter : Except String (Bool × LogState) :=
  if s.committing then .error "log.committing"
  else if s.outstanding - 1 = 0 then
    .ok (true, { s with outstanding := s.outstanding - 1, committing := true })
  else .ok (false, { s with outstanding := s.outstanding - 1 })

/-- The second critical section of `end_op`. -/
def endOpLeave : LogState := { s with committing := false }

/-- `end_op`, run without interruption. -/
def endOp : Except String LogState := do
  let (doCommit, s) ← s.endOpEnter
  return if doCommit then s.commit.endOpLeave else s

end LogState

/-- The state in which `initlog` calls `recover_from_log`: the cache is empty,
so `bread` returns what is on the disk. -/
def boot (start size : Nat) (d : Nat → Block) : LogState where
  disk := d
  data := d
  pins := fun _ => 0
  writes := []
  start := start
  size := size
  outstanding := 0
  committing := false
  lh := []

/-- `initlog` on the disk `d`. -/
def initlog (start size : Nat) (d : Nat → Block) : LogState :=
  (boot start size d).recoverFromLog

end SummerOsk.Log
