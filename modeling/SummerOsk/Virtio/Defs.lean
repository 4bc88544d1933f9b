import SummerOsk.Lib.Machine
import SummerOsk.Lib.Ring
import SummerOsk.Params

/-!
# The disk driver

`kernel/virtio_disk.c`, with the device on the other side of the rings.  The
code runs under `vdisk_lock`, which `sleep` gives up, so an action of a process
runs `virtio_disk_rw` up to its next `sleep` or to its end.  A process that
sleeps may go on at any time, since both loops test their condition again.  The
device takes steps at any time, also between the steps of `virtio_disk_intr`.

A caller of `virtio_disk_rw` holds the sleep lock of its buffer: `bwrite` panics
otherwise, and `bread` has just taken it.

The device takes the entries of the available ring in order, completes the
chains that it has taken in any order, with any status, and puts the head of
each into the used ring.

Four things are not in the kernel: the number of a request, which goes with the
head of its chain through the rings, the number of the last request for each
buffer, and the lists of the requests that the device has completed and that
`virtio_disk_intr` has handled.
-/

namespace SummerOsk.Virtio

open Lib Function

/-- The number of descriptors. -/
def NUM : Nat := 8

def VRING_DESC_F_NEXT : Nat := 1
def VRING_DESC_F_WRITE : Nat := 2
def VIRTIO_BLK_T_IN : Nat := 0
def VIRTIO_BLK_T_OUT : Nat := 1

variable (ι κ : Type)

/-- The addresses that the driver puts into descriptors. -/
inductive Addr where
  | null
  /-- `buf0` on the kernel stack of a process. -/
  | header (p : ι)
  /-- The data of a buffer. -/
  | data (b : κ)
  /-- `disk.info[i].status`. -/
  | status (i : Nat)
  deriving DecidableEq

/-- `struct VRingDesc`. -/
structure Desc where
  addr : Addr ι κ
  len : Nat
  flags : Nat
  next : Nat

/-- `struct virtio_blk_outhdr`. -/
structure OutHdr where
  type : Nat
  reserved : Nat
  sector : Nat

/-- An element of `disk.info`. -/
structure Info where
  b : Option κ
  status : UInt8

/-- The head of a chain in one of the rings, with the number of its request. -/
structure Entry where
  head : Nat
  req : Nat
  deriving DecidableEq

/-- Where a process is in `virtio_disk_rw`. -/
inductive Call where
  | idle
  /-- Asleep for descriptors. -/
  | waiting (b : κ) (write : Bool)
  /-- Asleep for the end of its request, with `idx`. -/
  | inflight (req : Nat) (b : κ) (write : Bool) (i0 i1 i2 : Nat)
  deriving DecidableEq

/-- Where a CPU is in `virtio_disk_intr`. -/
inductive Intr where
  | out
  /-- At the test of the loop. -/
  | test
  /-- In the body of the loop. -/
  | body
  deriving DecidableEq

structure State where
  desc : Nat → Desc ι κ
  /-- `avail[2..]`. -/
  avail : Nat → Entry
  /-- `avail[1]`. -/
  availIdx : BitVec 16
  /-- `used->elems`. -/
  elems : Nat → Entry
  /-- `used->id`. -/
  usedId : BitVec 16
  free : Nat → Bool
  usedIdx : BitVec 16
  info : Nat → Info κ
  buf0 : ι → OutHdr
  blockno : κ → Nat
  /-- `b->disk == 1`. -/
  disk : κ → Bool
  /-- The process that holds the sleep lock of a buffer for the call. -/
  holder : κ → Option ι
  intr : Intr
  call : ι → Call κ
  /-- How far the device has looked in the available ring. -/
  fetched : BitVec 16
  /-- The chains that the device works on. -/
  pending : List Entry
  requests : Nat
  request : κ → Nat
  completed : List Nat
  /-- The requests in the used ring that were handled, each with the request
  whose buffer was marked. -/
  cleared : List (Nat × Nat)

variable {ι κ}

/-! ## Descriptors -/

/-- `alloc_desc`. -/
def allocDesc (s : State ι κ) : State ι κ × Option Nat :=
  match (List.range NUM).find? s.free with
  | some i => ({ s with free := update s.free i false }, some i)
  | none => (s, none)

/-- `free_desc`. -/
def freeDesc (i : Nat) (s : State ι κ) : Except String (State ι κ) :=
  if i ≥ NUM then .error "virtio_disk_intr 1"
  else if s.free i then .error "virtio_disk_intr 2"
  else .ok { s with
    desc := update s.desc i { s.desc i with addr := .null }
    free := update s.free i true }

/-- `free_chain`.  A chain cannot be longer than the table: `free_desc` panics
at a descriptor that it meets again. -/
def freeChain : Nat → Nat → State ι κ → Except String (State ι κ)
  | 0, _, _ => .error "virtio_disk_intr 2"
  | n + 1, i, s => do
    let s ← freeDesc i s
    if (s.desc i).flags &&& VRING_DESC_F_NEXT ≠ 0 then freeChain n (s.desc i).next s
    else return s

/-- The inner loop of `alloc3_desc`. -/
def freeAll : List Nat → State ι κ → Except String (State ι κ)
  | [], s => .ok s
  | i :: idx, s => do freeAll idx (← freeDesc i s)

/-- The loop of `alloc3_desc` with `k` descriptors to go. -/
def allocLoop : Nat → List Nat → State ι κ → Except String (State ι κ × Option (List Nat))
  | 0, idx, s => .ok (s, some idx)
  | k + 1, idx, s =>
    match allocDesc s with
    | (s, some i) => allocLoop k (idx ++ [i]) s
    | (s, none) => do return (← freeAll idx s, none)

/-- `alloc3_desc`. -/
def alloc3Desc (s : State ι κ) : Except String (State ι κ × Option (List Nat)) := allocLoop 3 [] s

/-! ## Requests -/

variable [DecidableEq ι] [DecidableEq κ]

/-- The three descriptors of a request. -/
def descOf (p : ι) (b : κ) (write : Bool) (i0 i1 i2 : Nat) (desc : Nat → Desc ι κ) :
    Nat → Desc ι κ :=
  let desc := update desc i0 ⟨.header p, 16, VRING_DESC_F_NEXT, i1⟩
  let desc := update desc i1
    ⟨.data b, BSIZE, (if write then 0 else VRING_DESC_F_WRITE) ||| VRING_DESC_F_NEXT, i2⟩
  update desc i2 ⟨.status i0, 1, VRING_DESC_F_WRITE, 0⟩

/-- The sector of a block, which is computed in 32 bits. -/
def sectorOf (blockno : Nat) : Nat := blockno * (BSIZE / 512) % 2 ^ 32

/-- `virtio_disk_rw` from the descriptors to its second `sleep`. -/
def submit (p : ι) (b : κ) (write : Bool) (i0 i1 i2 : Nat) (s : State ι κ) : State ι κ :=
  { s with
    buf0 := update s.buf0 p
      ⟨if write then VIRTIO_BLK_T_OUT else VIRTIO_BLK_T_IN, 0, sectorOf (s.blockno b)⟩
    desc := descOf p b write i0 i1 i2 s.desc
    disk := update s.disk b true
    info := update s.info i0 ⟨some b, 0⟩
    avail := update s.avail (s.availIdx.toNat % NUM) ⟨i0, s.requests⟩
    availIdx := s.availIdx + 1
    call := update s.call p (.inflight s.requests b write i0 i1 i2)
    requests := s.requests + 1
    request := update s.request b s.requests }

/-- The first loop of `virtio_disk_rw`, up to a `sleep`. -/
def virtioDiskRw (p : ι) (b : κ) (write : Bool) (s : State ι κ) : Except String (State ι κ) := do
  match ← alloc3Desc s with
  | (s, some [i0, i1, i2]) => return submit p b write i0 i1 i2 s
  | (s, _) => return { s with call := update s.call p (.waiting b write) }

/-- The end of `virtio_disk_rw`, and of the call. -/
def finish (p : ι) (b : κ) (i0 : Nat) (s : State ι κ) : Except String (State ι κ) := do
  let s ← freeChain (NUM + 1) i0 { s with
    info := update s.info i0 { s.info i0 with b := none } }
  return { s with
    call := update s.call p .idle
    holder := update s.holder b none }

/-- The body of the loop of `virtio_disk_intr`. -/
def handle (s : State ι κ) : Except String (State ι κ) :=
  let e := s.elems s.usedIdx.toNat
  if (s.info e.head).status ≠ 0 then .error "virtio_disk_intr status"
  else match (s.info e.head).b with
    | none => .error "kerneltrap"
    | some b => .ok { s with
        disk := update s.disk b false
        usedIdx := BitVec.ofNat 16 ((s.usedIdx.toNat + 1) % NUM)
        intr := .test
        cleared := s.cleared ++ [(e.req, s.request b)] }

/-! ## The device -/

/-- The device takes the next chain from the available ring. -/
def fetch (s : State ι κ) : State ι κ :=
  { s with
    pending := s.pending ++ [s.avail (s.fetched.toNat % NUM)]
    fetched := s.fetched + 1 }

/-- The device writes the status of a chain, at the address in its third
descriptor. -/
def writeStatus (head : Nat) (status : UInt8) (s : State ι κ) : State ι κ :=
  match (s.desc (s.desc (s.desc head).next).next).addr with
  | .status i => { s with info := update s.info i { s.info i with status := status } }
  | _ => s

/-- The device completes a chain. -/
def complete (e : Entry) (status : UInt8) (s : State ι κ) : State ι κ :=
  let s := writeStatus e.head status s
  { s with
    pending := s.pending.erase e
    elems := update s.elems (s.usedId.toNat % NUM) e
    usedId := s.usedId + 1
    completed := s.completed ++ [e.req] }

/-! ## The machine -/

inductive Action (ι κ : Type) where
  /-- A process calls `virtio_disk_rw`. -/
  | rw (p : ι) (b : κ) (write : Bool)
  /-- It goes on after a `sleep` for descriptors. -/
  | retry (p : ι)
  /-- It goes on after its request is done. -/
  | finish (p : ι)
  /-- `virtio_disk_intr` starts. -/
  | intr
  | test
  | handle
  | fetch
  | complete (e : Entry) (status : UInt8)
  deriving DecidableEq

/-- One action, if it is enabled: a state or a panic. -/
def exec (s : State ι κ) : Action ι κ → Option (Except String (State ι κ))
  | .rw p b write =>
    if s.call p = .idle ∧ s.intr = .out ∧ s.holder b = none then
      some (virtioDiskRw p b write { s with holder := update s.holder b (some p) })
    else none
  | .retry p =>
    match s.call p with
    | .waiting b write => if s.intr = .out then some (virtioDiskRw p b write s) else none
    | _ => none
  | .finish p =>
    match s.call p with
    | .inflight _ b _ i0 _ _ =>
      if s.intr = .out ∧ s.disk b = false then some (finish p b i0 s) else none
    | _ => none
  | .intr => if s.intr = .out then some (.ok { s with intr := .test }) else none
  | .test =>
    if s.intr = .test then
      some (.ok { s with
        intr := if s.usedIdx.toNat % NUM ≠ s.usedId.toNat % NUM then .body else .out })
    else none
  | .handle => if s.intr = .body then some (handle s) else none
  | .fetch => if s.fetched ≠ s.availIdx then some (.ok (fetch s)) else none
  | .complete e status => if e ∈ s.pending then some (.ok (complete e status s)) else none

/-- The driver, the device and the processes. -/
def system : Machine (State ι κ) (Action ι κ) where
  step s a := (exec s a).bind Except.toOption

/-- The state after `virtio_disk_init`, for buffers of the blocks `blockno`. -/
def init (blockno : κ → Nat) : State ι κ where
  desc := fun _ => ⟨.null, 0, 0, 0⟩
  avail := fun _ => ⟨0, 0⟩
  availIdx := 0
  elems := fun _ => ⟨0, 0⟩
  usedId := 0
  free := fun _ => true
  usedIdx := 0
  info := fun _ => ⟨none, 0⟩
  buf0 := fun _ => ⟨0, 0, 0⟩
  blockno := blockno
  disk := fun _ => false
  holder := fun _ => none
  intr := .out
  call := fun _ => .idle
  fetched := 0
  pending := []
  requests := 0
  request := fun _ => 0
  completed := []
  cleared := []

end SummerOsk.Virtio
