import SummerOsk.Fs.ByteArray
import SummerOsk.Fs.Icache
import SummerOsk.Lib.Tagged

/-!
# Writers that share an open file

`filewrite` on one `struct file` of type `FD_INODE`, called by any number of
processes.  A call writes its buffer in chunks, each in a transaction of its
own, and reads and advances `f->off` while it holds the lock of the inode.
Other processes run between any two steps: before and after each lock
operation, between the blocks that `writei` copies, and between `writei` and the
change of `f->off`.  `begin_op` and `end_op` let every process through, which
allows more interleavings than the log does.

`shared_offset_writes` says that the chunks end up in the file one after the
other, in the order in which the lock was taken.
-/

namespace SummerOsk.Fs

open Lib Function List

/-! ## `writei` in steps -/

/-- The tests of `writei`: whether it goes on to the loop. -/
def writeCheck (i off n : Nat) : FsM Bool := do
  let ip ← getInode i
  if off > ip.size ∨ (off + n) % 2 ^ 32 < off then return false
  else if (off + n) % 2 ^ 32 > MAXFILE * BSIZE then return false
  else return true

/-- One round of the loop of `writei`: the number of bytes that it copied, or
`none` when `either_copyin` failed. -/
def writeBlock (i : Nat) (src : Source) (tot off n : Nat) : FsM (Option Nat) := do
  let b ← bmap i (off / BSIZE)
  let x ← bread b
  let m := min n (BSIZE - off % BSIZE)
  let bs := src.fetch tot m
  if bs.length < m then
    scribble b (putBytes x (off % BSIZE) bs)
    return none
  else
    logWrite b (putBytes x (off % BSIZE) bs)
    return some m

/-- The end of `writei`, after the loop stopped at offset `stop`. -/
def writeEnd (i n stop : Nat) : FsM Int := do
  if n > 0 then
    modifyInode i fun ip => { ip with size := if stop > ip.size then stop else ip.size }
    iupdate i
  return n

theorem writeLoop_succ (i : Nat) (src : Source) (tot off n k : Nat) :
    writeLoop i src tot off n (k + 1) =
      if 0 < n then do
        match ← writeBlock i src tot off n with
        | none => return off
        | some m => writeLoop i src (tot + m) (off + m) (n - m) k
      else return off := by
  rw [writeLoop]
  split_ifs
  · simp only [writeBlock, bind_assoc]
    congr 1
    funext b
    congr 1
    funext x
    split_ifs <;> simp
  · rfl

theorem writei_eq (i : Nat) (src : Source) (off n : Nat) :
    writei i src off n = do
      if ← writeCheck i off n then
        writeLoop i src 0 off n (n / BSIZE + 2) >>= writeEnd i n
      else return -1 := by
  simp only [writei, writeCheck, bind_assoc]
  congr 1
  funext ip
  by_cases hbad : off > ip.size ∨ (off + n) % 2 ^ 32 < off
  · rw [if_pos hbad, if_pos hbad]
    rfl
  · rw [if_neg hbad, if_neg hbad]
    by_cases hbig : (off + n) % 2 ^ 32 > MAXFILE * BSIZE
    · rw [if_pos hbig, if_pos hbig]
      rfl
    · rw [if_neg hbig, if_neg hbig]
      rfl

/-! ## The processes -/

/-- `((MAXOPBLOCKS-1-1-2) / 2) * BSIZE` -/
def maxChunk : Nat := (MAXOPBLOCKS - 1 - 1 - 2) / 2 * BSIZE

/-- Where a process is in the `FD_INODE` branch of `filewrite`. -/
inductive WritePc where
  /-- Before the test `i < n`. -/
  | loop
  /-- After `begin_op`, before `ilock`. -/
  | lock
  /-- Before the tests of `writei`. -/
  | write
  /-- In the loop of `writei`: `tot` bytes are copied, the next goes to offset
  `pos`, `left` are left, and the fuel is `k`. -/
  | copy (tot pos left k : Nat)
  /-- After the loop of `writei`. -/
  | size (stop : Nat)
  /-- After `writei` returned `r`, before the change of `f->off`. -/
  | advance (r : Int)
  /-- Before `iunlock`. -/
  | unlock (r : Int)
  /-- Before `end_op`. -/
  | endOp (r : Int)
  /-- Before the tests of `r`. -/
  | test (r : Int)
  deriving DecidableEq, Repr

/-- The process holds the lock of the inode. -/
def WritePc.holds : WritePc → Bool
  | .write | .copy .. | .size _ | .advance _ | .unlock _ => true
  | .loop | .lock | .endOp _ | .test _ => false

/-- A call `filewrite(f, addr, is_user, n)`, with the buffer as a source. -/
structure WriteCall where
  src : Source
  n : Int
  i : Nat
  pc : WritePc

/-- `n1`. -/
def WriteCall.n1 (c : WriteCall) : Nat := min (c.n - c.i).toNat maxChunk

/-- The buffer from `addr + i` on. -/
def WriteCall.rest (c : WriteCall) : Source := fun o => c.src (c.i + o)

/-- The bytes that the next `writei` is to write. -/
def WriteCall.chunk (c : WriteCall) : List UInt8 := c.rest.fetch 0 c.n1

/-- The file and the processes that write to it. -/
structure SharedFile (ι : Type) where
  fs : FsState
  /-- `f->ip` -/
  ip : Nat
  /-- `f->off` -/
  off : Nat
  /-- `f->writable` -/
  writable : Bool
  call : ι → Option WriteCall
  /-- The text of the panic that stopped the kernel. -/
  stopped : Option String
  /-- The chunks of the processes that took the lock, in this order. -/
  taken : List (ι × List UInt8)
  /-- The buffers of all calls. -/
  asked : List (ι × List UInt8)
  /-- The lengths and the results of the calls that returned. -/
  returned : List (Int × Int)

inductive WriteAction (ι : Type) where
  | call (p : ι) (src : Source) (n : Int)
  | step (p : ι)

namespace SharedFile

variable {ι : Type} [DecidableEq ι]

def setCall (s : SharedFile ι) (p : ι) (c : Option WriteCall) : SharedFile ι :=
  { s with call := update s.call p c }

/-- `p` goes on at `pc`. -/
def goto (s : SharedFile ι) (p : ι) (c : WriteCall) (pc : WritePc) : SharedFile ι :=
  s.setCall p (some { c with pc := pc })

/-- `ret = (i == n ? n : -1)` and the return. -/
def finish (s : SharedFile ι) (p : ι) (c : WriteCall) : SharedFile ι :=
  { s.setCall p none with returned := s.returned ++ [(c.n, if c.i = c.n then c.n else -1)] }

/-- Run a file system function.  It has no step while it sleeps. -/
def exec {α : Type} (s : SharedFile ι) (m : FsM α) (k : α → SharedFile ι → SharedFile ι) :
    Option (SharedFile ι) :=
  match m s.fs with
  | .ok (a, fs) => some (k a { s with fs := fs })
  | .error (.panic msg) => some { s with stopped := some msg }
  | .error .sleep => none

/-- The next step of process `p`. -/
def stepOf (s : SharedFile ι) (p : ι) (c : WriteCall) : Option (SharedFile ι) :=
  match c.pc with
  | .loop => if c.i < c.n then some (s.goto p c .lock) else some (s.finish p c)
  | .lock => s.exec (ilock s.ip) fun _ t =>
      { t.goto p c .write with taken := s.taken ++ [(p, c.chunk)] }
  | .write => s.exec (writeCheck s.ip s.off c.n1) fun ok t =>
      t.goto p c (if ok then .copy 0 s.off c.n1 (c.n1 / BSIZE + 2) else .advance (-1))
  | .copy _ pos _ 0 => some (s.goto p c (.size pos))
  | .copy tot pos left (k + 1) =>
    if 0 < left then
      s.exec (writeBlock s.ip c.rest tot pos left) fun
        | none, t => t.goto p c (.size pos)
        | some m, t => t.goto p c (.copy (tot + m) (pos + m) (left - m) k)
    else some (s.goto p c (.size pos))
  | .size stop => s.exec (writeEnd s.ip c.n1 stop) fun r t => t.goto p c (.advance r)
  | .advance r =>
    some { s.goto p c (.unlock r) with
      off := if 0 < r then (s.off + r.toNat) % 2 ^ 32 else s.off }
  | .unlock r => s.exec (iunlock s.ip) fun _ t => t.goto p c (.endOp r)
  | .endOp r => some (s.goto p c (.test r))
  | .test r =>
    if r < 0 then some (s.finish p c)
    else if r ≠ c.n1 then some { s with stopped := some "short filewrite" }
    else some (s.setCall p (some { c with i := c.i + r.toNat, pc := .loop }))

/-- The processes. -/
def writers : Machine (SharedFile ι) (WriteAction ι) where
  step s a :=
    if s.stopped.isSome then none
    else match a with
      | .call p src n =>
        match s.call p with
        | some _ => none
        | none =>
          if s.writable then
            some { s.setCall p (some ⟨src, n, 0, .loop⟩) with
              asked := s.asked ++ [(p, src.fetch 0 n.toNat)] }
          else some { s with returned := s.returned ++ [(n, -1)] }
      | .step p => (s.call p).bind (s.stepOf p)

end SharedFile

/-- The buffer of a call is mapped. -/
def WriteAction.Mapped {ι : Type} : WriteAction ι → Prop
  | .call _ src n => ∀ k < n.toNat, src k ≠ none
  | .step _ => True

/-! ## What stops a write -/

variable {src : Source} {off tot k n : Nat}

section

variable {s : FsState} {i : Nat}

/-- The disk is full. -/
def OutOfBlocks (e : Stop) : Prop := e = .panic "balloc: out of blocks"

theorem balloc_stops : wp balloc s (fun _ t => t.icache = s.icache) OutOfBlocks := by
  have hfrom : ∀ n b, wp (ballocFrom b n) s (fun _ t => t.icache = s.icache) OutOfBlocks := by
    intro n
    induction n with
    | zero => exact fun b => rfl
    | succ n ih =>
      intro b
      refine wp_ite (fun _ => ?_) fun _ => rfl
      simp only [wp_bind, wp_bread]
      cases freeBit s.sb.size (s.cache (s.sb.bblock b)) b 0 BPB with
      | none => exact ih _
      | some bi => simp only [wp_bind, wp_logWrite, bzero, wp_pure]
  exact hfrom _ 0

/-- The lock and the reference count of entry `i` are as before. -/
def SameLock (i : Nat) (s t : FsState) : Prop :=
  (t.icache i).locked = (s.icache i).locked ∧ (t.icache i).ref = (s.icache i).ref

/-- A new block for an empty slot. -/
theorem allocSlot_stops {j : Nat} :
    wp (do
        let b ← balloc
        modifyInode i fun ip => { ip with addrs := update ip.addrs j b }
        pure b : FsM Nat) s (fun _ t => SameLock i s t) OutOfBlocks := by
  simp only [wp_bind]
  refine wp_mono balloc_stops fun b t ht => ?_
  simp only [wp_modifyInode, wp_pure, SameLock, update_self, ht, and_self]

/-- `bmap` of a block that a file can have stops in `balloc` only. -/
theorem bmap_stops {bn : Nat} (hbn : bn < MAXFILE) :
    wp (bmap i bn) s (fun _ t => SameLock i s t) OutOfBlocks := by
  refine wp_ite (fun _ => wp_ite (fun _ => allocSlot_stops) fun _ => ⟨rfl, rfl⟩) fun hge => ?_
  rw [if_pos (by rw [MAXFILE] at hbn; omega)]
  have hload : wp (loadIndirect i) s (fun _ t => SameLock i s t) OutOfBlocks := by
    exact wp_ite (fun _ => allocSlot_stops) fun _ => ⟨rfl, rfl⟩
  refine wp_seq hload fun ib t ht => ?_
  refine wp_ite (fun _ => ?_) fun _ => ht
  simp only [wp_bind]
  refine wp_mono balloc_stops fun b u hu => ?_
  simp only [wp_logWrite, wp_pure, SameLock, hu]
  exact ht

theorem writeBlock_stops (hoff : off < MAXFILE * BSIZE) :
    wp (writeBlock i src tot off n) s
      (fun r t => SameLock i s t ∧ ∀ m, r = some m → m ≤ n) OutOfBlocks := by
  have hbn : off / BSIZE < MAXFILE := Nat.div_lt_of_lt_mul (by rwa [Nat.mul_comm])
  simp only [writeBlock, wp_bind]
  refine wp_mono (bmap_stops hbn) fun b t ht => ?_
  refine wp_ite (fun _ => ?_) fun _ => ?_
  · exact ⟨ht, fun m hm => by cases hm⟩
  · refine ⟨ht, fun m hm => ?_⟩
    cases hm
    exact min_le_left _ _

theorem writeLoop_stops (hmax : off + n ≤ MAXFILE * BSIZE) :
    wp (writeLoop i src tot off n k) s (fun _ _ => True) OutOfBlocks := by
  induction k generalizing s tot off n with
  | zero => exact trivial
  | succ k ih =>
    rw [writeLoop_succ]
    refine wp_ite (fun hpos => ?_) fun _ => trivial
    have hoff : off < MAXFILE * BSIZE := by omega
    refine wp_seq (writeBlock_stops hoff) fun r t hr => ?_
    cases r with
    | none => exact trivial
    | some m =>
      have hm := hr.2 m rfl
      exact ih (by omega)

theorem writei_stops (hmax : off + n ≤ MAXFILE * BSIZE) :
    wp (writei i src off n) s (fun _ _ => True) OutOfBlocks := by
  refine wp_ite (fun _ => trivial) fun _ => wp_ite (fun _ => trivial) fun _ => ?_
  refine wp_seq (writeLoop_stops hmax) fun stop t _ => ?_
  refine wp_ite (fun _ => ?_) fun _ => trivial
  simp only [wp_bind, wp_modifyInode, iupdate, wp_getInode, wp_getSb, wp_bread, wp_logWrite,
    wp_pure]

/-! ## The lock -/

/-- The state with the lock of entry `i` taken or released. -/
def FsState.setLocked (s : FsState) (i : Nat) (b : Bool) : FsState :=
  { s with icache := update s.icache i { s.icache i with locked := b } }

@[simp] theorem setLocked_locked (b : Bool) : ((s.setLocked i b).icache i).locked = b := by
  simp [FsState.setLocked]

theorem ilock_free (href : 0 < (s.icache i).ref) (hv : (s.icache i).valid)
    (hl : (s.icache i).locked = false) : ilock i s = .ok ((), s.setLocked i true) := by
  have hspec : wp (ilock i) s (fun _ t => t = s.setLocked i true) fun _ => False := by
    simp only [ilock, wp_bind, wp_getInode]
    rw [if_neg (by omega), hl, if_neg (by decide)]
    rw [if_neg (by rw [hv]; exact fun he => by cases he)]
    rfl
  obtain ⟨r, t, hres, rfl⟩ := wp_returns hspec
  exact hres

theorem ilock_held (href : 0 < (s.icache i).ref) (hl : (s.icache i).locked) :
    ilock i s = .error .sleep := by
  have hspec : wp (ilock i) s (fun _ _ => False) fun e => e = .sleep := by
    simp only [ilock, wp_bind, wp_getInode]
    rw [if_neg (by omega), if_pos hl]
    rfl
  cases hres : ilock i s with
  | ok r => exact (wp_ok hspec hres).elim
  | error e => rw [wp_error hspec hres]

theorem iunlock_held (href : 0 < (s.icache i).ref) (hl : (s.icache i).locked) :
    iunlock i s = .ok ((), s.setLocked i false) := by
  have hspec : wp (iunlock i) s (fun _ t => t = s.setLocked i false) fun _ => False := by
    simp only [iunlock, wp_bind, wp_getInode]
    rw [if_neg (by rw [hl]; rintro (h | h) <;> [cases h; omega])]
    rfl
  obtain ⟨r, t, hres, rfl⟩ := wp_returns hspec
  exact hres

end

/-! ## The file -/

variable {new : List UInt8}

theorem overwrite_overwrite {bs more : List UInt8} (hoff : off ≤ bs.length) :
    overwrite (overwrite bs off new) (off + new.length) more = overwrite bs off (new ++ more) := by
  have hlen : (bs.take off ++ new).length = off + new.length := by
    rw [length_append, length_take]
    omega
  unfold overwrite
  rw [take_left' hlen, drop_append, hlen, drop_eq_nil_of_le (by omega),
    nil_append, drop_drop, length_append, ← append_assoc]
  congr 2
  omega

/-- What the file was when the processes started, the number of bytes `total`
that they are to write, and whether the disk has `room` for them. -/
structure Origin where
  ip : Nat
  inum : Nat
  refs : Nat → Nat
  bytes : List UInt8
  off : Nat
  total : Nat
  room : Prop
  refs_pos : 0 < refs ip
  off_le : off ≤ bytes.length
  fits : off + total ≤ MAXFILE * BSIZE

/-- The file after the bytes `new` were written. -/
def Origin.File (o : Origin) (new : List UInt8) (fs : FsState) : Prop :=
  ∃ A, Mounted A o.refs fs ∧ (fs.icache o.ip).inum = o.inum ∧ (fs.icache o.ip).valid = true ∧
    contents A fs o.inum = overwrite o.bytes o.off new ∧
    (o.room → missing fs.sb.ninodes A fs.cache (touched o.inum o.off o.total) ≤ fs.nfree)

section

variable {o : Origin} {fs : FsState}

theorem Origin.File.ref_pos (h : o.File new fs) : 0 < (fs.icache o.ip).ref := by
  obtain ⟨A, hM, -⟩ := h
  rw [hM.cached.refs o.ip (hM.cached.bound o.ip o.refs_pos)]
  exact Int.natCast_pos.mpr o.refs_pos

theorem Origin.File.set_locked (h : o.File new fs) (b : Bool) :
    o.File new (fs.setLocked o.ip b) := by
  obtain ⟨A, hM, hinum, hv, hbytes, hroom⟩ := h
  refine ⟨A, mounted_iff.mpr ((mounted_iff.mp hM).set_locked o.ip b), ?_, ?_, hbytes, hroom⟩
  · simpa [FsState.setLocked] using hinum
  · simpa [FsState.setLocked] using hv

/-- `writei` adds a chunk to the file, or the disk has no room for it. -/
theorem Origin.File.writei (h : o.File new fs) (hn : new.length + n ≤ o.total)
    (hsrc : (src.fetch 0 n).length = n) :
    wp (Fs.writei o.ip src (o.off + new.length) n) fs
      (fun r t => r = n ∧ o.File (new ++ src.fetch 0 n) t ∧
        (t.icache o.ip).locked = (fs.icache o.ip).locked)
      fun e => OutOfBlocks e ∧ ¬ o.room := by
  obtain ⟨A, hM, hinum, hv, hbytes, hroom⟩ := h
  have hI := mounted_iff.mp hM
  have hfits := o.fits
  have hsmall : MAXFILE * BSIZE < 2 ^ 31 := by decide
  have hn32 : n < 2 ^ 32 := by omega
  have hsize : (fs.icache o.ip).size = (overwrite o.bytes o.off new).length := by
    rw [hI.data_eq o.refs_pos hv, hinum, ← hbytes, contents_length]
  have hoff : o.off + new.length ≤ (fs.icache o.ip).size := by
    rw [hsize, overwrite_length o.off_le]
    exact le_max_right _ _
  have hmax : o.off + new.length + n ≤ MAXFILE * BSIZE := by omega
  -- what it writes, and the only way to stop
  have hstops : wp (Fs.writei o.ip src (o.off + new.length) n) fs _ _ := writei_stops hmax
  have hspec := wp_and (writei_spec hI o.refs_pos hv hn32 False.elim) hstops
  have hkeep : wp (Fs.writei o.ip src (o.off + new.length) n) fs
      (fun _ t => o.room → ∀ A', Inv False A' none o.refs t →
        missing t.sb.ninodes A' t.cache (touched o.inum o.off o.total) ≤ t.nfree)
      fun _ => ¬ o.room := by
    by_cases hr : o.room
    · rw [← hinum] at hroom ⊢
      exact wp_imp (writei_room hI o.refs_pos hv hn32 (Nat.le_add_right _ _) (by omega) (hroom hr))
        (fun _ _ h _ => h) fun _ h => h.elim
    · exact wp_imp (wp_true _ fs) (fun _ _ _ h => absurd h hr) fun _ _ => hr
  refine wp_imp (wp_and hspec hkeep) ?_ fun e he => ⟨he.1.2, he.2⟩
  rintro r t ⟨⟨hr, -⟩, hroom'⟩
  rw [if_pos ⟨hoff, hmax⟩] at hr
  obtain ⟨rfl, A', stop, hI', hw⟩ := hr
  have hstop : stop = o.off + new.length + n := by
    rcases hw.full with hstop | ⟨k, hk, hkn, hnone⟩
    · exact hstop
    · have := hw.le_stop
      have hget : src (0 + (k - (o.off + new.length))) = _ := fetch_getD (m := n) (by omega)
      rw [hnone] at hget
      cases hget
  subst hstop
  obtain ⟨a, hic, -⟩ := hw.entry
  have hinum' : (t.icache o.ip).inum = o.inum := by rw [hic, update_self]; exact hinum
  have hv' : (t.icache o.ip).valid = true := by rw [hic, update_self]; exact hv
  obtain ⟨hnew, -⟩ := hw.contents_eq hI hI' o.refs_pos hv hoff hsrc
  rw [hinum, hbytes, overwrite_overwrite o.off_le] at hnew
  refine ⟨rfl, ⟨A', mounted_iff.mpr hI', hinum', hv', hnew, fun hr => hroom' hr A' hI'⟩, ?_⟩
  rw [hic, update_self]

end

/-! ## The calls -/

theorem fetch_length_of_mapped {o m : Nat} (h : ∀ k < m, src (o + k) ≠ none) :
    (src.fetch o m).length = m := by
  by_contra hne
  have hshort := Nat.lt_of_le_of_ne (fetch_length_le src o m) hne
  exact h _ hshort (fetch_short hshort)

theorem fetch_add {o a : Nat} (b : Nat) (h : (src.fetch o a).length = a) :
    src.fetch o (a + b) = src.fetch o a ++ src.fetch (o + a) b := by
  induction a generalizing o with
  | zero => simp [Source.fetch]
  | succ a ih =>
    rw [Nat.add_right_comm, Source.fetch, Source.fetch]
    cases hs : src o with
    | none => simp [Source.fetch, hs] at h
    | some x =>
      have hlen : (src.fetch (o + 1) a).length = a := by simpa [Source.fetch, hs] using h
      simp only [ih hlen, cons_append, Nat.add_right_comm o 1 a, Nat.add_assoc]

theorem fetch_shift (src : Source) (a o m : Nat) :
    Source.fetch (fun k => src (a + k)) o m = src.fetch (a + o) m := by
  induction m generalizing o with
  | zero => rfl
  | succ m ih => simp only [Source.fetch, ih, Nat.add_assoc]

/-- A call with a mapped buffer, between two steps. -/
structure WriteCall.Ok (c : WriteCall) : Prop where
  mapped : ∀ k < c.n.toNat, c.src k ≠ none
  le : c.i ≤ c.n.toNat
  more : c.pc ≠ .loop → c.i < c.n.toNat
  result : ∀ r, c.pc = .endOp r ∨ c.pc = .test r → r = c.n1

/-- The number of bytes of the buffer for which the lock was taken. -/
def WriteCall.done (c : WriteCall) : Nat :=
  match c.pc with
  | .loop | .lock => c.i
  | _ => c.i + c.n1

section

variable {c : WriteCall}

theorem WriteCall.n1_le (hle : c.i ≤ c.n.toNat) : c.i + c.n1 ≤ c.n.toNat := by
  rw [WriteCall.n1]
  omega

theorem WriteCall.Ok.chunk_length (h : c.Ok) : c.chunk.length = c.n1 := by
  refine fetch_length_of_mapped fun k hk => h.mapped _ ?_
  have := WriteCall.n1_le h.le
  omega

/-- The bytes of the buffer up to the end of the next chunk. -/
theorem WriteCall.Ok.fetch_chunk (h : c.Ok) :
    c.src.fetch 0 (c.i + c.n1) = c.src.fetch 0 c.i ++ c.chunk := by
  have hlen : (c.src.fetch 0 c.i).length = c.i := by
    refine fetch_length_of_mapped fun k hk => h.mapped _ ?_
    have := h.le
    omega
  have hchunk : c.chunk = c.src.fetch (c.i + 0) c.n1 := fetch_shift c.src c.i 0 c.n1
  rw [fetch_add _ hlen, Nat.zero_add, hchunk, Nat.add_zero]

theorem WriteCall.chunk_pos (h : c.i < c.n.toNat) : 0 < c.n1 ∧ c.n1 ≤ maxChunk := by
  have hmax : 0 < maxChunk := by decide
  rw [WriteCall.n1]
  omega

theorem WriteCall.done_le (h : c.Ok) : c.done ≤ c.n.toNat := by
  have := WriteCall.n1_le h.le
  have := h.le
  unfold WriteCall.done
  split <;> assumption

theorem WriteCall.Ok.fetch_done (h : c.Ok) : c.src.fetch 0 c.n.toNat =
    c.src.fetch 0 c.done ++ c.src.fetch (0 + c.done) (c.n.toNat - c.done) := by
  have hle := WriteCall.done_le h
  rw [← fetch_add, Nat.add_sub_cancel' hle]
  exact fetch_length_of_mapped fun k hk => h.mapped _ (by omega)

end

/-! ## The invariant -/

namespace SharedFile

variable {ι : Type}

/-- The process in call `c` has the lock, and the bytes `new` were written
before it took it. -/
def Held (o : Origin) (new : List UInt8) (c : WriteCall) (s : SharedFile ι) : Prop :=
  match c.pc with
  | .write => o.File new s.fs ∧ s.off = o.off + new.length
  -- the rest of `writei` does from here what the whole does from where it started
  | .copy tot pos left k => s.off = o.off + new.length ∧ pos + left ≤ MAXFILE * BSIZE ∧
      0 < (s.fs.icache o.ip).ref ∧ ∃ fs, o.File new fs ∧ (fs.icache o.ip).locked = true ∧
        (writeLoop o.ip c.rest tot pos left k >>= writeEnd o.ip c.n1) s.fs =
          writei o.ip c.rest (o.off + new.length) c.n1 fs
  | .size stop => s.off = o.off + new.length ∧ 0 < (s.fs.icache o.ip).ref ∧
      ∃ fs, o.File new fs ∧ (fs.icache o.ip).locked = true ∧
        writeEnd o.ip c.n1 stop s.fs = writei o.ip c.rest (o.off + new.length) c.n1 fs
  | .advance r => r = c.n1 ∧ o.File (new ++ c.chunk) s.fs ∧ s.off = o.off + new.length
  | .unlock r => r = c.n1 ∧ o.File (new ++ c.chunk) s.fs ∧
      s.off = o.off + (new ++ c.chunk).length
  | _ => False

/-- Nobody has the lock, and all chunks for which it was taken are written. -/
structure Free (o : Origin) (s : SharedFile ι) : Prop where
  unlocked : (s.fs.icache o.ip).locked = false
  nobody : ∀ p c, s.call p = some c → c.pc.holds = false
  file : o.File (untag s.taken) s.fs
  off : s.off = o.off + (untag s.taken).length

/-- Process `p` has the lock. -/
structure Locked (o : Origin) (s : SharedFile ι) (p : ι) (c : WriteCall) : Prop where
  locked : (s.fs.icache o.ip).locked = true
  call : s.call p = some c
  only : ∀ q d, s.call q = some d → d.pc.holds = true → q = p
  held : ∃ new, untag s.taken = new ++ c.chunk ∧ Held o new c s

variable {o : Origin} {s t : SharedFile ι} {p : ι} {c : WriteCall} {α : Type} {m : FsM α}
  {msg : String} {r : Int} {pos left : Nat} {A : Nat → Dinode} {refs : Nat → Nat}

theorem Held.holds (h : Held o new c s) : c.pc.holds = true := by
  unfold Held at h
  cases hpc : c.pc with
  | write | copy | size | advance | unlock => rfl
  | loop | lock | endOp | test =>
    rw [hpc] at h
    exact h.elim

theorem Held.congr (h : Held o new c s) (hfs : t.fs = s.fs)
    (hoff : t.off = s.off) : Held o new c t := by
  unfold Held at h ⊢
  rw [hfs, hoff]
  exact h

theorem Locked.holds (h : Locked o s p c) : c.pc.holds = true := by
  obtain ⟨new, -, hheld⟩ := h.held
  exact hheld.holds

theorem Locked.ref_pos (h : Locked o s p c) : 0 < (s.fs.icache o.ip).ref := by
  obtain ⟨new, -, hheld⟩ := h.held
  unfold Held at hheld
  cases hpc : c.pc with rw [hpc] at hheld
  | write => exact hheld.1.ref_pos
  | copy => exact hheld.2.2.1
  | size => exact hheld.2.1
  | advance | unlock => exact hheld.2.1.ref_pos
  | loop | lock | endOp | test => exact hheld.elim

theorem exec_eq_some {k : α → SharedFile ι → SharedFile ι} (h : s.exec m k = some t) :
    (∃ a fs, m s.fs = .ok (a, fs) ∧ t = k a { s with fs := fs }) ∨
      ∃ msg, m s.fs = .error (.panic msg) ∧ t = { s with stopped := some msg } := by
  unfold exec at h
  cases hm : m s.fs with
  | ok r =>
    rw [hm] at h
    exact .inl ⟨r.1, r.2, rfl, (Option.some.inj h).symm⟩
  | error e =>
    rw [hm] at h
    cases e with
    | panic msg => exact .inr ⟨msg, rfl, (Option.some.inj h).symm⟩
    | sleep => cases h

theorem exec_asked {k : α → SharedFile ι → SharedFile ι} (h : s.exec m k = some t)
    (hk : ∀ a t, t.asked = s.asked → (k a t).asked = s.asked) : t.asked = s.asked := by
  rcases exec_eq_some h with ⟨a, fs, -, rfl⟩ | ⟨msg, -, rfl⟩
  · exact hk _ _ rfl
  · rfl

variable [DecidableEq ι]

/-- What process `p` has asked for and what the lock was taken for. -/
def Mine (s : SharedFile ι) (p : ι) : Prop :=
  match s.call p with
  | none => taggedBy p s.taken = taggedBy p s.asked
  | some c => c.Ok ∧ ∃ before, taggedBy p s.asked = before ++ c.src.fetch 0 c.n.toNat ∧
      taggedBy p s.taken = before ++ c.src.fetch 0 c.done

/-- The lock is free or one call holds it, and every call has written what it asked
for as far as it got, in chunks that fit into an operation. -/
structure Inv (o : Origin) (s : SharedFile ι) : Prop where
  ip : s.ip = o.ip
  writable : s.writable = true
  stopped : ∀ msg, s.stopped = some msg → OutOfBlocks (.panic msg) ∧ ¬ o.room
  lock : s.stopped = none → Free o s ∨ ∃ p c, Locked o s p c
  mine : ∀ p, Mine s p
  chunks : ∀ x ∈ s.taken, 0 < x.2.length ∧ x.2.length ≤ maxChunk
  returned : ∀ x ∈ s.returned, x.2 = if x.1 < 0 then -1 else x.1

theorem mine_none (hc : s.call p = none) : Mine s p ↔ taggedBy p s.taken = taggedBy p s.asked := by
  rw [Mine, hc]

theorem mine_some (hc : s.call p = some c) :
    Mine s p ↔ c.Ok ∧ ∃ before, taggedBy p s.asked = before ++ c.src.fetch 0 c.n.toNat ∧
      taggedBy p s.taken = before ++ c.src.fetch 0 c.done := by
  rw [Mine, hc]

/-- No more was taken than asked for. -/
theorem Inv.taken_le (h : Inv o s) : (untag s.taken).length ≤ (untag s.asked).length := by
  refine length_untag_le fun p => ?_
  cases hc : s.call p with
  | none => exact (mine_none hc).mp (h.mine p) ▸ le_rfl
  | some c =>
    obtain ⟨hok, before, hasked, htaken⟩ := (mine_some hc).mp (h.mine p)
    rw [hasked, htaken, hok.fetch_done]
    simp only [length_append]
    omega

theorem done_of_holds (h : c.pc.holds) : c.done = c.i + c.n1 := by
  unfold WriteCall.done
  cases hpc : c.pc with
  | loop | lock =>
    rw [hpc] at h
    cases h
  | _ => rfl

theorem Mine.congr (h : Mine s p) (hcall : t.call p = s.call p)
    (hasked : taggedBy p t.asked = taggedBy p s.asked)
    (htaken : taggedBy p t.taken = taggedBy p s.taken) : Mine t p := by
  unfold Mine at h ⊢
  rw [hcall, hasked, htaken]
  exact h

section

variable (h : Inv o s)

include h

theorem Inv.mine_update {c' : Option WriteCall} (hcall : t.call = update s.call p c')
    (hasked : ∀ q, q ≠ p → taggedBy q t.asked = taggedBy q s.asked)
    (htaken : ∀ q, q ≠ p → taggedBy q t.taken = taggedBy q s.taken) (hmine : Mine t p) (q : ι) :
    Mine t q := by
  by_cases hq : q = p
  · rw [hq]
    exact hmine
  · refine (h.mine q).congr ?_ (hasked q hq) (htaken q hq)
    rw [hcall, update_of_ne hq]

/-! ## Steps without the lock -/

/-- A process that does not have the lock, before and after a step that does
not touch the file. -/
theorem Inv.outside (p : ι) (c' : Option WriteCall) {asked : List (ι × List UInt8)}
    {returned : List (Int × Int)} (hbefore : ∀ c, s.call p = some c → c.pc.holds = false)
    (hafter : ∀ c, c' = some c → c.pc.holds = false)
    (hasked : ∀ q, q ≠ p → taggedBy q asked = taggedBy q s.asked)
    (hmine : Mine { s.setCall p c' with asked := asked, returned := returned } p)
    (hret : ∀ x ∈ returned, x.2 = if x.1 < 0 then -1 else x.1) :
    Inv o { s.setCall p c' with asked := asked, returned := returned } := by
  have hself : (s.setCall p c').call p = c' := update_self ..
  have hother : ∀ q, q ≠ p → (s.setCall p c').call q = s.call q := fun q hq =>
    update_of_ne hq ..
  have hholds : ∀ q d, (s.setCall p c').call q = some d → d.pc.holds = true →
      s.call q = some d := by
    intro q d hd hdh
    have hq : q ≠ p := by
      rintro rfl
      rw [hafter d (hself.symm.trans hd)] at hdh
      cases hdh
    exact hother q hq ▸ hd
  refine ⟨h.ip, h.writable, h.stopped, fun hrun => ?_,
    h.mine_update rfl hasked (fun _ _ => rfl) hmine, h.chunks, hret⟩
  rcases h.lock hrun with hfree | ⟨q, d, hlocked⟩
  · refine .inl ⟨hfree.unlocked, fun q d hd => ?_, hfree.file, hfree.off⟩
    by_contra hdh
    exact hdh (hfree.nobody q d (hholds q d hd (by simpa using hdh)))
  · have hq : q ≠ p := by
      rintro rfl
      have hno := hbefore d hlocked.call
      rw [hlocked.holds] at hno
      cases hno
    obtain ⟨new, hnew, hheld⟩ := hlocked.held
    exact .inr ⟨q, d, hlocked.locked, (hother q hq).trans hlocked.call,
      fun r e he heh => hlocked.only r e (hholds r e he heh) heh, new, hnew,
      hheld.congr rfl rfl⟩

/-- A process without the lock goes on with its call. -/
theorem Inv.goto (hc : s.call p = some c) (hno : c.pc.holds = false) {d : WriteCall}
    (hd : d.pc.holds = false) (hok : d.Ok) (hsrc : d.src = c.src) (hn : d.n = c.n)
    (hdone : d.done = c.done) : Inv o (s.setCall p (some d)) := by
  obtain ⟨-, before, hasked, htaken⟩ := (mine_some hc).mp (h.mine p)
  refine h.outside p (some d) (fun e he => ?_) (fun e he => ?_)
    (fun _ _ => rfl) ?_ h.returned
  · rw [hc] at he
    cases he
    exact hno
  · cases he
    exact hd
  · refine (mine_some (update_self ..)).mpr ⟨hok, before, ?_, ?_⟩
    · rw [hsrc, hn]
      exact hasked
    · rw [hsrc, hdone]
      exact htaken

/-- The return of a call that has written its buffer. -/
theorem Inv.finish (hc : s.call p = some c) (hno : c.pc.holds = false) (hdone : c.done = c.n.toNat)
    (hi : c.i = c.n.toNat) : Inv o (s.finish p c) := by
  obtain ⟨-, before, hasked, htaken⟩ := (mine_some hc).mp (h.mine p)
  refine h.outside p none (fun e he => ?_) (fun e he => by cases he)
    (fun _ _ => rfl) ?_ fun x hx => ?_
  · rw [hc] at he
    cases he
    exact hno
  · rw [hdone] at htaken
    exact (mine_none (update_self ..)).mpr (htaken.trans hasked.symm)
  · rcases mem_append.mp hx with hx | hx
    · exact h.returned x hx
    · cases mem_singleton.mp hx
      split_ifs <;> omega

/-- The start of a call. -/
theorem Inv.call (hc : s.call p = none) {n : Int} (hsrc : ∀ k < n.toNat, src k ≠ none) :
    Inv o { s.setCall p (some ⟨src, n, 0, .loop⟩) with
      asked := s.asked ++ [(p, src.fetch 0 n.toNat)] } := by
  have hmine := (mine_none hc).mp (h.mine p)
  refine h.outside p (some ⟨src, n, 0, .loop⟩) (by simp [hc]) (fun e he => ?_) (fun q hq => ?_) ?_
    h.returned
  · cases he
    rfl
  · rw [taggedBy_concat, if_neg (Ne.symm hq), append_nil]
  · refine (mine_some (update_self ..)).mpr ⟨⟨hsrc, Nat.zero_le _,
      fun hne => absurd rfl hne, by simp⟩, taggedBy p s.asked, ?_, ?_⟩
    · rw [taggedBy_concat, if_pos rfl]
    · simp [setCall, hmine, WriteCall.done, Source.fetch]

/-! ## Steps with the lock -/

/-- A process inside the lock has it. -/
theorem Inv.locked (hrun : s.stopped = none) (hc : s.call p = some c) (hin : c.pc.holds) :
    Locked o s p c := by
  rcases h.lock hrun with hfree | ⟨q, d, hlocked⟩
  · rw [hfree.nobody p c hc] at hin
    cases hin
  · obtain rfl := hlocked.only p c hc hin
    have hcd := hlocked.call
    rw [hc] at hcd
    cases hcd
    exact hlocked

theorem Inv.stop (hmsg : OutOfBlocks (.panic msg)) (hr : ¬ o.room) :
    Inv o { s with stopped := some msg } := by
  refine ⟨h.ip, h.writable, fun m hm => ?_, fun hrun => (by cases hrun),
    fun q => (h.mine q).congr rfl rfl rfl, h.chunks, h.returned⟩
  cases hm
  exact ⟨hmsg, hr⟩

/-- The process with the lock takes a step and keeps it. -/
theorem Inv.inside (hl : Locked o s p c) (fs : FsState) (off : Nat) {pc : WritePc} (hpc : pc.holds)
    (hlocked : (fs.icache o.ip).locked) (hnew : untag s.taken = new ++ c.chunk)
    (hheld : Held o new { c with pc := pc }
    { s with fs := fs, off := off }) : Inv o { s.goto p c pc with fs := fs, off := off } := by
  obtain ⟨hok, before, hasked, htaken⟩ := (mine_some hl.call).mp (h.mine p)
  have hin := hl.holds
  have hne : c.pc ≠ .loop := fun he => by rw [he] at hin; cases hin
  refine ⟨h.ip, h.writable, h.stopped, fun _ => .inr ⟨p, { c with pc := pc }, hlocked,
    update_self .., fun q d hd hdh => ?_, new, hnew, hheld.congr rfl rfl⟩,
    h.mine_update rfl (fun _ _ => rfl) (fun _ _ => rfl) ?_, h.chunks, h.returned⟩
  · by_contra hq
    exact hq (hl.only q d ((update_of_ne hq ..).symm.trans hd) hdh)
  · refine (mine_some (c := { c with pc := pc }) (update_self ..)).mpr
      ⟨⟨hok.mapped, hok.le, fun _ => hok.more hne, fun r hr => ?_⟩, before, hasked, ?_⟩
    · rcases hr with rfl | rfl <;> cases hpc
    · rw [done_of_holds hin] at htaken
      rw [done_of_holds (c := { c with pc := pc }) hpc]
      exact htaken

/-- `ilock`: the next chunk of `p` comes after all others. -/
theorem Inv.acquire (hrun : s.stopped = none) (hc : s.call p = some c) (hpc : c.pc = .lock)
    (ht : s.exec (ilock s.ip) (fun _ t =>
      { t.goto p c .write with taken := s.taken ++ [(p, c.chunk)] }) = some t) : Inv o t := by
  obtain ⟨hok, before, hasked, htaken⟩ := (mine_some hc).mp (h.mine p)
  rw [h.ip] at ht
  rcases h.lock hrun with hfree | ⟨q, d, hlocked⟩
  · have hvalid : (s.fs.icache o.ip).valid = true := by
      obtain ⟨A, -, -, hv, -⟩ := hfree.file
      exact hv
    rw [exec, ilock_free hfree.file.ref_pos hvalid hfree.unlocked] at ht
    obtain rfl := Option.some.inj ht
    have hmore := hok.more (by simp [hpc])
    have hdone : c.done = c.i := by rw [WriteCall.done, hpc]
    rw [hdone] at htaken
    refine ⟨h.ip, h.writable, h.stopped, fun _ => .inr ⟨p, { c with pc := .write },
      setLocked_locked true, update_self .., fun q d hd hdh => ?_, untag s.taken,
      untag_concat .., hfree.file.set_locked true, hfree.off⟩,
      h.mine_update rfl (fun _ _ => rfl) (fun q hq => ?_) ?_, fun x hx => ?_, h.returned⟩
    · by_contra hq
      rw [hfree.nobody q d ((update_of_ne hq ..).symm.trans hd)] at hdh
      cases hdh
    · rw [taggedBy_concat, if_neg (Ne.symm hq), append_nil]
    · refine (mine_some (c := { c with pc := .write }) (update_self ..)).mpr
        ⟨⟨hok.mapped, hok.le, fun _ => hmore, by simp⟩, before, hasked, ?_⟩
      rw [taggedBy_concat, if_pos rfl, htaken, append_assoc, ← hok.fetch_chunk]
      rfl
    · rcases mem_append.mp hx with hx | hx
      · exact h.chunks x hx
      · cases mem_singleton.mp hx
        rw [hok.chunk_length]
        exact WriteCall.chunk_pos hmore
  · rw [exec, ilock_held hlocked.ref_pos hlocked.locked] at ht
    cases ht

section

variable (hl : Locked o s p c)

include hl

/-- `iunlock`: the chunk of `p` is written. -/
theorem Inv.release (hpc : c.pc = .unlock r)
    (ht : s.exec (iunlock s.ip) (fun _ t => t.goto p c (.endOp r)) = some t) : Inv o t := by
  obtain ⟨hok, before, hasked, htaken⟩ := (mine_some hl.call).mp (h.mine p)
  rw [done_of_holds hl.holds] at htaken
  rw [h.ip, exec, iunlock_held hl.ref_pos hl.locked] at ht
  obtain rfl := Option.some.inj ht
  obtain ⟨new, hnew, hheld⟩ := hl.held
  rw [Held, hpc] at hheld
  obtain ⟨hr, hfile, hoff⟩ := hheld
  rw [← hnew] at hfile hoff
  have hself : (s.goto p c (.endOp r)).call p = some { c with pc := .endOp r } :=
    update_self ..
  refine ⟨h.ip, h.writable, h.stopped, fun _ => .inl ⟨setLocked_locked false,
    fun q d hd => ?_, hfile.set_locked false, hoff⟩,
    h.mine_update rfl (fun _ _ => rfl) (fun _ _ => rfl) ?_, h.chunks, h.returned⟩
  · rcases eq_or_ne q p with rfl | hq
    · cases hself.symm.trans hd
      rfl
    · by_contra hdh
      exact hq (hl.only q d ((update_of_ne hq ..).symm.trans hd) (by simpa using hdh))
  · refine (mine_some hself).mpr ⟨⟨hok.mapped, hok.le, fun _ => hok.more (by simp [hpc]),
      fun r' hr' => ?_⟩, before, hasked, htaken⟩
    rcases hr' with hr' | hr' <;> cases hr'
    exact hr

/-- The lock is taken for no more than the processes asked for. -/
theorem Inv.chunk_le (htotal : (untag s.asked).length ≤ o.total)
    (hnew : untag s.taken = new ++ c.chunk) :
    new.length + c.n1 ≤ o.total ∧ (c.rest.fetch 0 c.n1).length = c.n1 := by
  have hok := ((mine_some hl.call).mp (h.mine p)).1
  have hlen := h.taken_le
  rw [hnew, length_append, hok.chunk_length] at hlen
  exact ⟨by omega, hok.chunk_length⟩

/-- The tests of `writei` succeed. -/
theorem Inv.check (htotal : (untag s.asked).length ≤ o.total) (hpc : c.pc = .write)
    (ht : s.exec (writeCheck s.ip s.off c.n1) (fun ok t =>
      t.goto p c (if ok then .copy 0 s.off c.n1 (c.n1 / BSIZE + 2) else .advance (-1))) = some t) :
    Inv o t := by
  obtain ⟨new, hnew, hheld⟩ := hl.held
  obtain ⟨hn, hsrc⟩ := h.chunk_le hl htotal hnew
  rw [Held, hpc] at hheld
  obtain ⟨hfile, hoff⟩ := hheld
  have hfits := o.fits
  have hread : wp (writeCheck o.ip s.off c.n1) s.fs (fun _ fs => fs = s.fs) fun _ => False := by
    simp only [writeCheck, wp_bind, wp_getInode]
    exact wp_ite (fun _ => rfl) fun _ => wp_ite (fun _ => rfl) fun _ => rfl
  obtain ⟨ok, fs, hres, rfl⟩ := wp_returns hread
  have hwritei := writei_eq o.ip c.rest s.off c.n1
  have hrun := congrFun hwritei s.fs
  rw [bind_of_ok hres] at hrun
  rw [h.ip, exec, hres] at ht
  obtain rfl := Option.some.inj ht
  cases ok with
  | false =>
    -- then `writei` would fail
    have hspec := hfile.writei hn hsrc
    rw [hoff] at hrun
    have := (wp_ok hspec hrun).1
    omega
  | true =>
    refine h.inside hl s.fs s.off rfl hl.locked hnew
      ⟨hoff, by omega, hl.ref_pos, s.fs, hfile, hl.locked, ?_⟩
    rw [← hoff]
    exact hrun.symm

/-- A step inside `writei` that stops stops all of it. -/
theorem Inv.writei_error (htotal : (untag s.asked).length ≤ o.total) {fs : FsState}
    (hnew : untag s.taken = new ++ c.chunk) (hfile : o.File new fs)
    (herr : Except.error (.panic msg) = writei o.ip c.rest (o.off + new.length) c.n1 fs) :
    Inv o { s with stopped := some msg } := by
  obtain ⟨hn, hsrc⟩ := h.chunk_le hl htotal hnew
  obtain ⟨hmsg, hr⟩ := wp_error (hfile.writei hn hsrc) herr.symm
  exact h.stop hmsg hr

/-- The end of the loop of `writei`. -/
theorem Inv.copied (hpc : c.pc = .copy tot pos left k) (hend : k = 0 ∨ left = 0) :
    Inv o (s.goto p c (.size pos)) := by
  obtain ⟨new, hnew, hheld⟩ := hl.held
  rw [Held, hpc] at hheld
  obtain ⟨hoff, -, href, fs, hfile, hlocked, heq⟩ := hheld
  refine h.inside hl s.fs s.off rfl hl.locked hnew ⟨hoff, href, fs, hfile, hlocked, ?_⟩
  have hloop : writeLoop o.ip c.rest tot pos left k = pure pos := by
    cases k with
    | zero => rfl
    | succ k =>
      rw [writeLoop, if_neg]
      omega
  rw [hloop, pure_bind] at heq
  exact heq

/-- One round of the loop of `writei`. -/
theorem Inv.round (htotal : (untag s.asked).length ≤ o.total)
    (hpc : c.pc = .copy tot pos left (k + 1)) (hleft : 0 < left)
    (ht : s.exec (writeBlock s.ip c.rest tot pos left) (fun
        | none, t => t.goto p c (.size pos)
        | some m, t => t.goto p c (.copy (tot + m) (pos + m) (left - m) k)) = some t) :
    Inv o t := by
  obtain ⟨new, hnew, hheld⟩ := hl.held
  rw [Held, hpc] at hheld
  obtain ⟨hoff, hmax, href, fs, hfile, hlocked, heq⟩ := hheld
  rw [writeLoop_succ, if_pos hleft, bind_assoc] at heq
  have hpos : pos < MAXFILE * BSIZE := by omega
  have hspec : wp (writeBlock o.ip c.rest tot pos left) s.fs _ _ := writeBlock_stops hpos
  rw [h.ip] at ht
  rcases exec_eq_some ht with ⟨r, fs', hres, rfl⟩ | ⟨msg, hres, rfl⟩
  · obtain ⟨⟨hlock', href'⟩, hm⟩ := wp_ok hspec hres
    rw [bind_of_ok hres] at heq
    rw [← href'] at href
    have hlocked' : (fs'.icache o.ip).locked = true := hlock'.trans hl.locked
    cases r with
    | none =>
      exact h.inside hl fs' s.off rfl hlocked' hnew ⟨hoff, href, fs, hfile, hlocked, heq⟩
    | some m =>
      have hm := hm m rfl
      exact h.inside hl fs' s.off rfl hlocked' hnew
        ⟨hoff, by omega, href, fs, hfile, hlocked, heq⟩
  · rw [bind_of_error hres] at heq
    exact h.writei_error hl htotal hnew hfile heq

/-- `writei` returns. -/
theorem Inv.wrote (htotal : (untag s.asked).length ≤ o.total) {stop : Nat} (hpc : c.pc = .size stop)
    (ht : s.exec (writeEnd s.ip c.n1 stop) (fun r t => t.goto p c (.advance r)) = some t) :
    Inv o t := by
  obtain ⟨new, hnew, hheld⟩ := hl.held
  obtain ⟨hn, hsrc⟩ := h.chunk_le hl htotal hnew
  rw [Held, hpc] at hheld
  obtain ⟨hoff, href, fs, hfile, hlocked, heq⟩ := hheld
  rw [h.ip] at ht
  rcases exec_eq_some ht with ⟨r, fs', hres, rfl⟩ | ⟨msg, hres, rfl⟩
  · obtain ⟨hr, hfile', hlock'⟩ := wp_ok (hfile.writei hn hsrc) (heq.symm.trans hres)
    exact h.inside hl fs' s.off rfl (hlock'.trans hlocked) hnew ⟨hr, hfile', hoff⟩
  · exact h.writei_error hl htotal hnew hfile (hres.symm.trans heq)

/-- `f->off += r` -/
theorem Inv.advance (htotal : (untag s.asked).length ≤ o.total) (hpc : c.pc = .advance r) :
    Inv o { s.goto p c (.unlock r) with
      off := if 0 < r then (s.off + r.toNat) % 2 ^ 32 else s.off } := by
  obtain ⟨new, hnew, hheld⟩ := hl.held
  obtain ⟨hn, hsrc⟩ := h.chunk_le hl htotal hnew
  have hok := ((mine_some hl.call).mp (h.mine p)).1
  have hmore := hok.more (by simp [hpc])
  have hpos := (WriteCall.chunk_pos hmore).1
  have hfits := o.fits
  have hsmall : MAXFILE * BSIZE < 2 ^ 31 := by decide
  rw [Held, hpc] at hheld
  obtain ⟨rfl, hfile, hoff⟩ := hheld
  refine h.inside hl s.fs _ rfl hl.locked hnew ⟨rfl, hfile, ?_⟩
  have hmod : (s.off + (c.n1 : Int).toNat) % 2 ^ 32 = s.off + c.n1 := Nat.mod_eq_of_lt (by omega)
  rw [if_pos (by omega), hmod, hoff, length_append]
  change o.off + new.length + c.n1 = o.off + (new.length + c.chunk.length)
  rw [hok.chunk_length]
  omega

end

/-! ## Runs -/

/-- What one step of a process keeps. -/
theorem Inv.stepOf (hrun : s.stopped = none) (htotal : (untag s.asked).length ≤ o.total)
    (hc : s.call p = some c) (ht : s.stepOf p c = some t) : Inv o t := by
  obtain ⟨hok, -⟩ := (mine_some hc).mp (h.mine p)
  have hle := hok.le
  have hlocked := h.locked hrun hc
  have hgoto := @Inv.goto _ o s p c _ h hc
  unfold SharedFile.stepOf at ht
  cases hpc : c.pc with simp only [hpc] at ht hlocked hgoto
  | loop =>
    split_ifs at ht with hmore
    · cases ht
      refine hgoto rfl rfl ⟨hok.mapped, hle, fun _ => ?_, by simp⟩ rfl rfl ?_
      · change c.i < c.n.toNat
        omega
      · simp only [WriteCall.done, hpc]
    · cases ht
      have hdone : c.done = c.i := by rw [WriteCall.done, hpc]
      exact h.finish hc (by rw [hpc]; rfl) (by omega) (by omega)
  | lock => exact h.acquire hrun hc hpc ht
  | write => exact h.check (hlocked rfl) htotal hpc ht
  | copy tot pos left k =>
    cases k with
    | zero =>
      cases ht
      exact h.copied (hlocked rfl) hpc (.inl rfl)
    | succ k =>
      simp only at ht
      split_ifs at ht with hleft
      · exact h.round (hlocked rfl) htotal hpc hleft ht
      · cases ht
        exact h.copied (hlocked rfl) hpc (.inr (by omega))
  | size stop => exact h.wrote (hlocked rfl) htotal hpc ht
  | advance r =>
    cases ht
    exact h.advance (hlocked rfl) htotal hpc
  | unlock r => exact h.release (hlocked rfl) hpc ht
  | endOp r =>
    cases ht
    refine hgoto rfl rfl ⟨hok.mapped, hle, fun _ => hok.more (by simp [hpc]), fun r' hr' => ?_⟩
      rfl rfl ?_
    · rcases hr' with hr' | hr' <;> cases hr'
      exact hok.result r (.inl hpc)
    · simp only [WriteCall.done, hpc]
      rfl
  | test r =>
    have hr := hok.result r (.inr hpc)
    have hstep := WriteCall.n1_le hle
    rw [if_neg (by omega), if_neg (by simpa using hr)] at ht
    cases ht
    refine hgoto rfl rfl ⟨hok.mapped, ?_, fun hne => absurd rfl hne, by simp⟩ rfl rfl ?_
    · change c.i + r.toNat ≤ c.n.toNat
      omega
    · simp only [WriteCall.done, hpc]
      omega

end

theorem stepOf_asked (ht : s.stepOf p c = some t) : t.asked = s.asked := by
  unfold SharedFile.stepOf at ht
  split at ht
  · split_ifs at ht <;> cases ht <;> rfl
  · exact exec_asked ht fun _ _ h => h
  · exact exec_asked ht fun _ _ h => h
  · cases ht
    rfl
  · split_ifs at ht
    · refine exec_asked ht fun r _ h => ?_
      cases r <;> exact h
    · cases ht
      rfl
  · exact exec_asked ht fun _ _ h => h
  · cases ht
    rfl
  · exact exec_asked ht fun _ _ h => h
  · cases ht
    rfl
  · split_ifs at ht <;> cases ht <;> rfl

/-- What one action keeps, as long as the processes do not ask for too much. -/
theorem Inv.step (a : WriteAction ι) (h : (untag s.asked).length ≤ o.total → Inv o s)
    (ha : a.Mapped)
    (ht : writers.step s a = some t) : (untag t.asked).length ≤ o.total → Inv o t := by
  intro htotal
  simp only [writers] at ht
  by_cases hstop : s.stopped.isSome = true
  · rw [if_pos hstop] at ht
    cases ht
  rw [if_neg hstop] at ht
  have hrun : s.stopped = none := by simpa using hstop
  cases a with
  | call p src n =>
    cases hc : s.call p with
    | some c => simp [hc] at ht
    | none =>
      simp only [hc] at ht
      split_ifs at ht with hw
      · cases ht
        have hle : (untag s.asked).length ≤ o.total := by
          refine le_trans ?_ htotal
          rw [untag_concat, length_append]
          exact Nat.le_add_right _ _
        exact (h hle).call hc ha
      · cases ht
        exact absurd (h htotal).writable hw
  | step p =>
    obtain ⟨c, hc, hstep⟩ := Option.bind_eq_some_iff.mp ht
    rw [stepOf_asked hstep] at htotal
    exact (h htotal).stepOf hrun htotal hc hstep

/-- The file is open for writing, and nobody writes yet. -/
structure Opened (A : Nat → Dinode) (refs : Nat → Nat) (s : SharedFile ι) : Prop where
  mounted : Mounted A refs s.fs
  refs_pos : 0 < refs s.ip
  valid : (s.fs.icache s.ip).valid = true
  unlocked : (s.fs.icache s.ip).locked = false
  off_le : s.off ≤ (s.fs.icache s.ip).size
  writable : s.writable = true
  running : s.stopped = none
  idle : ∀ p, s.call p = none
  taken : s.taken = []
  asked : s.asked = []
  returned : s.returned = []

theorem Opened.inv (h : Opened A refs s) (hip : o.ip = s.ip)
    (hinum : o.inum = (s.fs.icache s.ip).inum) (hrefs : o.refs = refs)
    (hbytes : o.bytes = contents A s.fs (s.fs.icache s.ip).inum) (hoff : o.off = s.off)
    (hroom : o.room ↔ missing s.fs.sb.ninodes A s.fs.cache
      (touched (s.fs.icache s.ip).inum s.off o.total) ≤ s.fs.nfree) : Inv o s := by
  refine ⟨hip.symm, h.writable, by simp [h.running], fun _ => .inl ?_, fun p => ?_,
    by simp [h.taken], by simp [h.returned]⟩
  · refine ⟨hip ▸ h.unlocked, by simp [h.idle], ⟨A, hrefs ▸ h.mounted, ?_, hip ▸ h.valid, ?_, ?_⟩,
      ?_⟩
    · rw [hip, hinum]
    · rw [h.taken, hinum, hbytes]
      simp [untag, overwrite]
    · rw [hroom, hinum, hoff]
      exact id
    · simp [h.taken, untag, hoff]
  · rw [mine_none (h.idle p), h.taken, h.asked]

/-- Processes that write through one open file neither lose nor overlap bytes:
the chunks follow each other in the file in the order in which the lock of the
inode was taken. -/
theorem shared_offset_writes {s t : SharedFile ι} {as : List (WriteAction ι)} (hs : Opened A refs s)
    (hrun : writers.run s as = some t) (hmapped : ∀ a ∈ as, a.Mapped)
    (htotal : s.off + (untag t.asked).length ≤ MAXFILE * BSIZE) :
    -- the chunks are short, and those of a process come in its own order
    (∀ x ∈ t.taken, 0 < x.2.length ∧ x.2.length ≤ maxChunk) ∧
    (∀ p, taggedBy p t.taken <+: taggedBy p t.asked) ∧
    (∀ p, t.call p = none → taggedBy p t.taken = taggedBy p t.asked) ∧
    (∀ x ∈ t.returned, x.2 = if x.1 < 0 then -1 else x.1) ∧
    -- the file and the offset whenever nobody has the lock
    (t.stopped = none → (t.fs.icache s.ip).locked = false →
      ∃ A', Mounted A' refs t.fs ∧ (t.fs.icache s.ip).inum = (s.fs.icache s.ip).inum ∧
        contents A' t.fs (s.fs.icache s.ip).inum =
          (contents A s.fs (s.fs.icache s.ip).inum).take s.off ++ untag t.taken ++
            (contents A s.fs (s.fs.icache s.ip).inum).drop (s.off + (untag t.taken).length) ∧
        t.off = s.off + (untag t.taken).length) ∧
    -- when all calls have returned, all bytes are written
    ((∀ p, t.call p = none) → (untag t.taken).length = (untag t.asked).length ∧
      (t.stopped = none → (t.fs.icache s.ip).locked = false)) ∧
    -- the only thing that can go wrong
    (∀ msg, t.stopped = some msg → msg = "balloc: out of blocks") ∧
    (missing s.fs.sb.ninodes A s.fs.cache
        (touched (s.fs.icache s.ip).inum s.off (untag t.asked).length) ≤ s.fs.nfree →
      t.stopped = none) := by
  let o : Origin :=
    { ip := s.ip, inum := (s.fs.icache s.ip).inum, refs := refs
      bytes := contents A s.fs (s.fs.icache s.ip).inum
      off := s.off, total := (untag t.asked).length
      room := missing s.fs.sb.ninodes A s.fs.cache
        (touched (s.fs.icache s.ip).inum s.off (untag t.asked).length) ≤ s.fs.nfree
      refs_pos := hs.refs_pos
      off_le := by
        rw [contents_length, ← (mounted_iff.mp hs.mounted).data_eq hs.refs_pos hs.valid]
        exact hs.off_le
      fits := htotal }
  have h : Inv o t := writers.run_invariant_of_forall
    (I := fun u => (untag u.asked).length ≤ o.total → Inv o u)
    (fun u a v hu ha hv => Inv.step a hu ha hv)
    (fun _ => hs.inv rfl rfl rfl rfl rfl Iff.rfl) hmapped hrun le_rfl
  refine ⟨h.chunks, fun p => ?_, fun p hp => (mine_none hp).mp (h.mine p), h.returned,
    fun hgo hfree => ?_, fun hidle => ⟨?_, fun hgo => ?_⟩, fun msg hmsg => ?_, fun hroom => ?_⟩
  · cases hc : t.call p with
    | none => rw [(mine_none hc).mp (h.mine p)]
    | some c =>
      obtain ⟨hok, before, hasked, htaken⟩ := (mine_some hc).mp (h.mine p)
      rw [hasked, htaken, hok.fetch_done]
      exact (prefix_append_right_inj before).mpr (prefix_append _ _)
  · rcases h.lock hgo with hf | ⟨p, c, hl⟩
    · obtain ⟨A', hM, hinum, -, hbytes, -⟩ := hf.file
      exact ⟨A', hM, hinum, hbytes, hf.off⟩
    · rw [hl.locked] at hfree
      cases hfree
  · refine le_antisymm h.taken_le (length_untag_le fun p => ?_)
    rw [(mine_none (hidle p)).mp (h.mine p)]
  · rcases h.lock hgo with hf | ⟨p, c, hl⟩
    · exact hf.unlocked
    · have hc := hl.call
      rw [hidle p] at hc
      cases hc
  · have hstop := (h.stopped msg hmsg).1
    injection hstop
  · cases hstop : t.stopped with
    | none => rfl
    | some msg => exact absurd hroom (h.stopped msg hstop).2

/-- The root directory of `mkfsWorld`, open for writing near its end. -/
def rootFile : SharedFile Nat where
  fs := rootOpen.setLocked 0 false
  ip := 0
  off := 1020
  writable := true
  call := fun _ => none
  stopped := none
  taken := []
  asked := []
  returned := []

/-- Two writers, of which the second waits for the lock. -/
def twoWriters : List (WriteAction Nat) :=
  [.call 0 (.ofBytes [1, 2, 3]) 3, .call 1 (.ofBytes [4]) 1, .step 1, .step 0] ++
    List.replicate 10 (.step 0) ++ List.replicate 10 (.step 1)

theorem rootFile_opened :
    Opened (dinodeAt Mkfs.sb mkfsDisk) (fun j => if j = 0 then 1 else 0) rootFile where
  mounted := mounted_iff.mpr ((mounted_iff.mp rootOpen_mounted).set_locked 0 false)
  refs_pos := by decide
  valid := rfl
  unlocked := rfl
  off_le := by decide
  writable := rfl
  running := rfl
  idle _ := rfl
  taken := rfl
  asked := rfl
  returned := rfl

theorem shared_offset_writes_two : ∃ t A', writers.run rootFile twoWriters = some t ∧
    contents A' t.fs ROOTINO =
      (contents (dinodeAt Mkfs.sb mkfsDisk) rootFile.fs ROOTINO).take 1020 ++ [1, 2, 3, 4] ∧
    t.off = 1024 := by
  have hsome : ((writers.run rootFile twoWriters).map fun t =>
      decide (t.taken = [(0, [1, 2, 3]), (1, [4])] ∧ t.asked = [(0, [1, 2, 3]), (1, [4])] ∧
        t.stopped = none ∧ (t.fs.icache 0).locked = false)) = some true := by decide +kernel
  obtain ⟨t, hrun, htest⟩ := Option.map_eq_some_iff.mp hsome
  obtain ⟨htaken, hasked, hstop, hfree⟩ := of_decide_eq_true htest
  have hmapped : ∀ a ∈ twoWriters, a.Mapped := by
    intro a ha
    have hshape : (∃ p, a = .step p) ∨ a = .call 0 (.ofBytes [1, 2, 3]) 3 ∨
        a = .call 1 (.ofBytes [4]) 1 := by
      simp only [twoWriters, mem_append, mem_cons, not_mem_nil, or_false, mem_replicate] at ha
      rcases ha with ((rfl | rfl | rfl | rfl) | ⟨-, rfl⟩) | ⟨-, rfl⟩ <;> simp
    rcases hshape with ⟨p, rfl⟩ | rfl | rfl
    · exact trivial
    · exact (by decide : ∀ k < 3, Source.ofBytes [1, 2, 3] k ≠ none)
    · exact (by decide : ∀ k < 1, Source.ofBytes [4] k ≠ none)
  have htotal : rootFile.off + (untag t.asked).length ≤ MAXFILE * BSIZE := by
    rw [hasked]
    decide
  obtain ⟨-, -, -, -, hfile, -⟩ := shared_offset_writes rootFile_opened hrun hmapped htotal
  obtain ⟨A', -, -, hbytes, hoff⟩ := hfile hstop hfree
  have hinum : (rootFile.fs.icache rootFile.ip).inum = ROOTINO := rfl
  have hnew : untag t.taken = [1, 2, 3, 4] := by rw [htaken]; rfl
  have hend : (contents (dinodeAt Mkfs.sb mkfsDisk) rootFile.fs ROOTINO).drop
      (rootFile.off + ([1, 2, 3, 4] : List UInt8).length) = [] :=
    drop_eq_nil_of_le (by rw [contents_length]; decide)
  rw [hnew, hinum, hend, append_nil] at hbytes
  rw [hnew] at hoff
  exact ⟨t, A', hrun, hbytes, hoff⟩

end SharedFile

end SummerOsk.Fs
