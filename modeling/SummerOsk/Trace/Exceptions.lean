import SummerOsk.Trace.Transparent

/-!
# Where tracing is not transparent

Three handlers are transparent in some states only.

* `sys_write` copies the bytes of the user into an array whose length is a
  variable that is not set yet, and prints `n` bytes of it.  The array may be too
  short, and where the copy stops before `n` bytes it prints what was on the
  stack.
* `sys_suspend` prints an array that was never written.
* `sys_pipe` prints the two descriptors it has found, which are neither arguments
  nor in user memory.

`transparent_iff` says in which states each handler is transparent.
-/

namespace SummerOsk.Trace

open Lib Vm Function List

variable {φ ι π κ α β : Type}

/-! ## The property -/

/-- What the trace of a handler prints. -/
def traced (c : Callees φ ι π κ) (h : Handler) (g : Frame) (k : Kernel φ κ) : List UInt8 :=
  (h.run c g ⟨k, true, []⟩).2.out

/-- With the flag and without, the handler returns the same and leaves the same
kernel.  No access to a local array is out of bounds.  The text, where there is
one, is the same in all states with the same process id, arguments and user
memory. -/
structure Transparent (c : Callees φ ι π κ) (h : Handler) (g : Frame) (k : Kernel φ κ) :
    Prop where
  result : (h.run c g ⟨k, true, []⟩).1 = (h.run c g ⟨k, false, []⟩).1
  kernel : (h.run c g ⟨k, true, []⟩).2.kernel = (h.run c g ⟨k, false, []⟩).2.kernel
  bounds : InBounds (h.run c g ⟨k, true, []⟩).1
  text : ∀ g' (k' : Kernel φ κ), k'.toCall = k.toCall → traced c h g k ≠ [] →
    traced c h g' k' ≠ [] → traced c h g' k' = traced c h g k

variable {c : Callees φ ι π κ} {h : Handler} {g : Frame} {k : Kernel φ κ} {fd : Fin NOFILE}
  {ofile : Fin NOFILE → Option φ} {T : List UInt8} {m : M φ κ α} {s : State φ κ} {p : Call}
  {f x : φ} {rest : κ} {text : Call → Except Fault (List UInt8)} {e : Fault}

theorem Fine.traced (hfine : Fine k.toCall T (h.run c g)) :
    traced c h g k = [] ∨ traced c h g k = T := by
  obtain ⟨r, k', t, -, ht, -, hon⟩ := hfine k rfl
  unfold Trace.traced
  rw [hon, nil_append]
  exact ht

/-- A handler with one text for each call. -/
theorem Transparent.of_fine (hfine : Fine k.toCall T (h.run c g))
    (hall : ∀ g' (k' : Kernel φ κ), k'.toCall = k.toCall →
      Trace.traced c h g' k' = [] ∨ Trace.traced c h g' k' = T) : Transparent c h g k := by
  obtain ⟨r, k', t, hr, ht, hoff, hon⟩ := hfine k rfl
  refine ⟨?_, ?_, ?_, fun g' k'' hcall hne hne' => ?_⟩
  · rw [hon, hoff]
  · rw [hon, hoff]
  · rw [hon]
    exact hr
  · rw [(hall g k rfl).resolve_left hne, (hall g' k'' hcall).resolve_left hne']

/-- A handler that prints nothing in this state. -/
theorem Transparent.of_silent {r : Except Fault Int} {q : Kernel φ κ} (hr : InBounds r)
    (hrun : ∀ tr, h.run c g ⟨k, tr, []⟩ = (r, ⟨q, tr, []⟩)) : Transparent c h g k := by
  refine ⟨?_, ?_, ?_, fun _ _ _ hne => ?_⟩
  · rw [hrun, hrun]
  · rw [hrun, hrun]
  · rw [hrun]
    exact hr
  · unfold Trace.traced at hne
    rw [hrun] at hne
    exact absurd rfl hne

theorem Quiet.silent (hm : Quiet m) (k : Kernel φ κ) :
    ∃ r k', InBounds r ∧ ∀ tr, m ⟨k, tr, []⟩ = (r, ⟨k', tr, []⟩) := by
  obtain ⟨r, k', hrun, hr⟩ := hm k
  exact ⟨r, k', hr, fun tr => hrun tr []⟩

/-! ## Steps of a run -/

theorem run_myproc (f : Caller φ → M φ κ α) (s : State φ κ) :
    (myproc >>= f) s = f s.kernel.toCaller s := rfl

theorem run_callRest {x : Fun κ α} {a : α} (hx : x s.kernel.rest = (.ok a, rest))
    (f : α → M φ κ β) :
    (callRest x >>= f) s = f a { s with kernel := { s.kernel with rest := rest } } := by
  rw [run_bind, callRest, call, hx]

theorem run_fdalloc_none (hfd : freeFd s.kernel.ofile = none) (f : Option (Fin NOFILE) → M φ κ α) :
    (fdalloc x >>= f) s = f none s := by
  have hrun : fdalloc x s = (.ok none, s) := by
    rw [fdalloc, run_myproc, hfd]
    rfl
  rw [run_bind, hrun]

theorem run_fdalloc_some (hfd : freeFd s.kernel.ofile = some fd)
    (f : Option (Fin NOFILE) → M φ κ α) :
    (fdalloc x >>= f) s = f (some fd) { s with kernel := { s.kernel with
      ofile := update s.kernel.ofile fd (some x) } } := by
  have hrun : fdalloc x s = (.ok (some fd),
      { s with kernel := { s.kernel with
        ofile := update s.kernel.ofile fd (some x) } }) := by
    rw [fdalloc, run_myproc, hfd]
    rfl
  rw [run_bind, hrun]

theorem out_call (x : Fun (Kernel φ κ) α) (s : State φ κ) : (call x s).2.out = s.out := by
  unfold call
  rcases x s.kernel with ⟨r, k'⟩
  cases r with
  | ok a => rfl
  | error msg => rfl

theorem Quiet.out (hm : Quiet m) (s : State φ κ) : (m s).2.out = s.out := by
  obtain ⟨r, k', hrun, -⟩ := hm s.kernel
  have hs := hrun s.tracing s.out
  rw [hs]

/-- What is printed before a program that prints nothing. -/
theorem out_whenTracing (ht : text k.toCall = .ok T) (hm : ∀ s, (m s).2.out = s.out) :
    ((whenTracing text >>= fun _ => m) ⟨k, true, []⟩).2.out = T := by
  rw [run_bind, whenTracing_on, ht]
  rw [hm, nil_append]

theorem fault_whenTracing (ht : text k.toCall = .error e) (out : List UInt8) :
    (whenTracing text >>= fun _ => m) ⟨k, true, out⟩ = (.error e, ⟨k, true, out⟩) := by
  rw [run_bind, whenTracing_on, ht]

/-! ## `sys_write` -/

/-- The bytes of the buffer are there, without a NUL before the last of them, and
the array has room for what is copied: `n` bytes, or for a negative `n` up to a
NUL or an address that cannot be read. -/
structure WriteFits (g : Frame) (p : Call) : Prop where
  room : ∀ j : Nat, j < p.argint 2 → j < g.n.toInt.toNat
  there : ∀ j : Nat, j < p.argint 2 → p.mem ((p.argaddr 1).toNat + j) ≠ none
  text : ∀ j : Nat, j + 1 < p.argint 2 → p.mem ((p.argaddr 1).toNat + j) ≠ some 0
  stops : p.argint 2 < 0 → ∃ j ≤ g.n.toInt.toNat, p.mem ((p.argaddr 1).toNat + j) = none ∨
    j < g.n.toInt.toNat ∧ p.mem ((p.argaddr 1).toNat + j) = some 0

theorem argint_bounds (p : Call) (i : Fin NARG) : -2 ^ 31 ≤ p.argint i ∧ p.argint i < 2 ^ 31 := by
  have hlo := BitVec.le_toInt ((p.tf i).setWidth 32)
  have hhi := BitVec.toInt_lt (x := (p.tf i).setWidth 32)
  exact ⟨hlo, hhi⟩

theorem lt_written {j : Nat} : j < p.written.length ↔
    j < (p.argint 2 % 2 ^ 64).toNat ∧ (∀ i ≤ j, p.mem ((p.argaddr 1).toNat + i) ≠ none) ∧
      ∀ i < j, p.mem ((p.argaddr 1).toNat + i) ≠ some 0 :=
  lt_copied_length

/-- The condition in terms of what is copied. -/
theorem writeFits_iff : WriteFits g p ↔
    (p.argint 2).toNat ≤ p.written.length ∧ p.written.length ≤ g.n.toInt.toNat := by
  have hbounds := argint_bounds p 2
  have hlen : g.n.toInt.toNat < 2 ^ 31 := by
    have := BitVec.toInt_lt (x := g.n)
    omega
  constructor
  · intro hfits
    have hle : (p.argint 2).toNat ≤ p.written.length := by
      by_contra hlt
      refine absurd (lt_written.mpr ⟨?_, ?_, ?_⟩) (lt_irrefl p.written.length)
      · omega
      · intro i hi
        exact hfits.there i (by omega)
      · intro i hi
        exact hfits.text i (by omega)
    refine ⟨hle, ?_⟩
    by_contra hlt
    have hlast := lt_written.mp (show g.n.toInt.toNat < p.written.length by omega)
    by_cases hneg : p.argint 2 < 0
    · obtain ⟨j, hj, hnone | ⟨hj', hnul⟩⟩ := hfits.stops hneg
      · exact hlast.2.1 j hj hnone
      · exact hlast.2.2 j hj' hnul
    · have := hfits.room g.n.toInt.toNat (by omega)
      omega
  · rintro ⟨hle, hroom⟩
    refine ⟨fun j hj => by omega, fun j hj => ?_, fun j hj => ?_, fun hneg => ?_⟩
    · exact (lt_written.mp (show j < p.written.length by omega)).2.1 j le_rfl
    · exact (lt_written.mp (show j + 1 < p.written.length by omega)).2.2 j (by omega)
    · -- the copy stops after `written`, and not because of the limit
      have hstop := fun hall => lt_irrefl p.written.length (lt_written.mpr hall)
      by_cases hnone : p.mem ((p.argaddr 1).toNat + p.written.length) = none
      · exact ⟨_, hroom, .inl hnone⟩
      · by_cases hpos : p.written.length = 0
        · refine absurd ⟨by omega, fun i hi => ?_, fun i hi => ?_⟩ hstop
          · obtain rfl : i = p.written.length := by omega
            exact hnone
          · omega
        · have hprev := lt_written.mp (show p.written.length - 1 < p.written.length by omega)
          refine ⟨p.written.length - 1, by omega, .inr ⟨by omega, ?_⟩⟩
          by_contra hnul
          refine absurd ⟨by omega, fun i hi => ?_, fun i hi => ?_⟩ hstop
          · by_cases hi' : i = p.written.length
            · rw [hi']
              exact hnone
            · exact hprev.2.1 i (by omega)
          · by_cases hi' : i = p.written.length - 1
            · rw [hi']
              exact hnul
            · exact hprev.2.2 i (by omega)

theorem getBytes_putBytes (d : Nat → UInt8) (w : List UInt8) (n : Nat) :
    getBytes (putBytes d 0 w) 0 n = w.take n ++ getBytes d w.length (n - w.length) := by
  apply ext_getElem
  · simp only [getBytes_length, length_append, length_take]
    omega
  · intro i hi hi'
    rw [getBytes_length] at hi
    by_cases hw : i < w.length
    · rw [getElem_append_left (by rw [length_take]; omega), getElem_take]
      simp only [getBytes, getElem_map, getElem_range, Nat.zero_add]
      rw [putBytes_of_mem _ _ (Nat.zero_le i) (by omega), Nat.sub_zero, getD_eq_getElem _ _ hw]
    · rw [getElem_append_right (by rw [length_take]; omega)]
      simp only [getBytes, getElem_map, getElem_range, Nat.zero_add, length_take]
      rw [putBytes_of_not_mem _ _ (by omega)]
      congr 1
      omega

/-- The text of `sys_write`, with what the array holds beyond the copy. -/
def writeText (g : Frame) (p : Call) (fd : Fin NOFILE) : List UInt8 :=
  printf "\n[%d]sys_write(%d, " [.int p.pid, .int fd.val] ++
    (p.written.take (p.argint 2).toNat ++ getBytes (g.buf "instr") p.written.length
      ((p.argint 2).toNat - p.written.length)).flatMap cputcEncoded ++
    printf ", %d)" [.int (p.argint 2)]

theorem writeText_eq (g : Frame) (p : Call) (fd : Fin NOFILE) :
    (do
      let (instr, _) ← fetchstr p.mem (p.argaddr 1) (g.array "instr" g.n.toInt.toNat) (p.argint 2)
      return printf "\n[%d]sys_write(%d, " [.int p.pid, .int fd.val] ++
        (← cprintfn instr (p.argint 2)) ++ printf ", %d)" [.int (p.argint 2)]) =
      if p.written.length ≤ g.n.toInt.toNat ∧ (p.argint 2).toNat ≤ g.n.toInt.toNat then
        Except.ok (writeText g p fd)
      else .error (.outOfBounds "instr" g.n.toInt.toNat) := by
  rw [fetchstr_eq (w := p.written) rfl]
  have hbytes := cprintfnFrom_eq (b := (g.array "instr" g.n.toInt.toNat).put 0 p.written)
    (i := 0) (k := (p.argint 2).toNat) (Nat.zero_le _)
  rw [Nat.zero_add] at hbytes
  by_cases hcopy : p.written.length ≤ g.n.toInt.toNat
  · rw [if_pos (by exact hcopy)]
    by_cases hprint : (p.argint 2).toNat ≤ g.n.toInt.toNat
    · have hboth : p.written.length ≤ g.n.toInt.toNat ∧ (p.argint 2).toNat ≤ g.n.toInt.toNat :=
        ⟨hcopy, hprint⟩
      have hdata : ((g.array "instr" g.n.toInt.toNat).put 0 p.written).data =
          putBytes (g.buf "instr") 0 p.written := rfl
      rw [if_pos (by exact hprint), hdata, getBytes_putBytes] at hbytes
      rw [if_pos hboth]
      simp only [bind, Except.bind, cprintfn, hbytes]
      rfl
    · have hnot : ¬ (p.written.length ≤ g.n.toInt.toNat ∧
          (p.argint 2).toNat ≤ g.n.toInt.toNat) := fun hboth => hprint hboth.2
      rw [if_neg (by exact hprint)] at hbytes
      rw [if_neg hnot]
      simp only [bind, Except.bind, cprintfn, hbytes]
      rfl
  · have hnot : ¬ (p.written.length ≤ g.n.toInt.toNat ∧
        (p.argint 2).toNat ≤ g.n.toInt.toNat) := fun hboth => hcopy hboth.1
    rw [if_neg (by exact hcopy), if_neg hnot]
    rfl

/-- `sys_write` on an open file, with the flag set. -/
theorem run_write (hfd : k.argfd 0 = some (fd, f)) (tr : Bool) :
    Handler.run c g .write ⟨k, tr, []⟩ =
      (whenTracing (fun p => do
        let (instr, _) ← fetchstr p.mem (k.argaddr 1) (g.array "instr" g.n.toInt.toNat) (k.argint 2)
        return printf "\n[%d]sys_write(%d, " [.int p.pid, .int fd.val] ++
          (← cprintfn instr (k.argint 2)) ++ printf ", %d)" [.int (k.argint 2)]) >>=
        fun _ => call (c.filewrite f (k.argaddr 1) (k.argint 2))) ⟨k, tr, []⟩ := by
  show sysWrite c g ⟨k, tr, []⟩ = _
  rw [sysWrite, run_myproc, hfd]
  rfl

theorem run_write_none (hfd : k.argfd 0 = none) (tr : Bool) :
    Handler.run c g .write ⟨k, tr, []⟩ = (.ok (-1), ⟨k, tr, []⟩) := by
  show sysWrite c g ⟨k, tr, []⟩ = _
  rw [sysWrite, run_myproc, hfd]
  rfl

theorem write_traced (hfd : k.argfd 0 = some (fd, f)) :
    traced c .write g k =
      if k.written.length ≤ g.n.toInt.toNat ∧ (k.argint 2).toNat ≤ g.n.toInt.toNat then
        writeText g k.toCall fd
      else [] := by
  have htext := writeText_eq g k.toCall fd
  have hrun := run_write (c := c) (g := g) hfd true
  unfold traced
  rw [hrun]
  split_ifs at htext ⊢ with hboth
  · exact out_whenTracing htext (out_call _)
  · rw [fault_whenTracing htext]

theorem writeText_ne_nil (g : Frame) (p : Call) (fd : Fin NOFILE) : writeText g p fd ≠ [] := by
  intro hnil
  have htail := (append_eq_nil_iff.mp hnil).2
  exact cons_ne_nil _ _ htail

/-- The text of a `sys_write` that fits is that of the call. -/
theorem writeText_of_fits {p : Caller φ} (hfd : p.argfd 0 = some (fd, f))
    (hle : (p.argint 2).toNat ≤ p.written.length) :
    writeText g p.toCall fd = Handler.text .write p.toCall := by
  rw [writeText, argfd_fst hfd, Nat.sub_eq_zero_of_le hle]
  simp [getBytes, Handler.text]

theorem transparent_write (hfits : WriteFits g k.toCall) : Transparent c .write g k := by
  obtain ⟨hle, hroom⟩ := writeFits_iff.mp hfits
  refine Transparent.of_fine (T := Handler.text .write k.toCall) ?_ ?_
  · refine Fine.bind Steady.myproc fun p hp => ?_
    cases hfd : p.argfd 0 with
    | none => exact Fine.of_quiet (Quiet.pure _)
    | some x =>
      refine Fine.bind Steady.myproc fun q hq => Fine.bind Steady.myproc fun q' hq' => ?_
      refine Fine.whenTracing ?_ (Quiet.call _)
      have htext := writeText_eq g k.toCall x.1
      rw [if_pos (by omega)] at htext
      rw [hq, hq', htext, ← hp, writeText_of_fits hfd (by rw [hp]; exact hle)]
  · intro g' k' hcall
    cases hfd : k'.argfd 0 with
    | none =>
      unfold traced
      rw [run_write_none hfd]
      exact .inl rfl
    | some x =>
      rw [write_traced hfd]
      split_ifs with hboth
      · refine .inr ?_
        rw [writeText_of_fits hfd (by rw [hcall]; exact hle), hcall]
      · exact .inl rfl

/-- A frame with one byte all over its arrays. -/
def Frame.filled (g : Frame) (x : UInt8) : Frame := ⟨g.n, fun _ _ => x⟩

theorem getBytes_const (x : UInt8) (o n : Nat) :
    getBytes (fun _ => x) o n = List.replicate n x := by
  simp [getBytes, map_const']

/-- Where the copy ends early, the text shows what was in the array. -/
theorem writeText_filled_ne (hlt : p.written.length < (p.argint 2).toNat) :
    writeText (g.filled 97) p fd ≠ writeText (g.filled 98) p fd := by
  intro heq
  simp only [writeText, Frame.filled, getBytes_const, flatMap_append] at heq
  have hmid := append_cancel_left (append_cancel_left
    (by simpa only [append_assoc] using append_cancel_right heq))
  obtain ⟨n, hn⟩ : ∃ n, (p.argint 2).toNat - p.written.length = n + 1 :=
    ⟨(p.argint 2).toNat - p.written.length - 1, by omega⟩
  rw [hn, replicate_succ, replicate_succ] at hmid
  have hhead := (cons.inj hmid).1
  revert hhead
  decide

theorem write_not_transparent (hfd : k.argfd 0 = some (fd, f))
    (hfits : ¬ WriteFits g k.toCall) : ¬ Transparent c .write g k := by
  intro ht
  rw [writeFits_iff] at hfits
  by_cases hboth : k.written.length ≤ g.n.toInt.toNat ∧ (k.argint 2).toNat ≤ g.n.toInt.toNat
  · -- two frames of the same length, one with an `a` and one with a `b` all over
    have hprint : ∀ g' : Frame, g'.n = g.n → traced c .write g' k = writeText g' k.toCall fd := by
      intro g' hn
      rw [write_traced hfd, if_pos (by rw [hn]; exact hboth)]
    have hsame : ∀ g' : Frame, g'.n = g.n →
        writeText g' k.toCall fd = writeText g k.toCall fd := by
      intro g' hn
      rw [← hprint g' hn, ← hprint g rfl]
      refine ht.text g' k rfl ?_ ?_
      · rw [hprint g rfl]
        exact writeText_ne_nil _ _ _
      · rw [hprint g' hn]
        exact writeText_ne_nil _ _ _
    have hshort : k.written.length < (k.argint 2).toNat := by omega
    have hfilled := (hsame (g.filled 97) rfl).trans (hsame (g.filled 98) rfl).symm
    exact writeText_filled_ne hshort hfilled
  · have htext := writeText_eq g k.toCall fd
    rw [if_neg hboth] at htext
    have hrun : (Handler.run c g .write ⟨k, true, []⟩).1 =
        .error (.outOfBounds "instr" g.n.toInt.toNat) := by
      rw [run_write hfd, fault_whenTracing htext]
    exact ht.bounds _ _ hrun

/-! ## `sys_suspend` -/

theorem run_suspend (hfd : k.argfd 1 = some (fd, f)) :
    Handler.run c g .suspend ⟨k, true, []⟩ =
      (trace "\n[%d]sys_suspendproc(%d, %s)"
        (do return [.int (k.argint 0), .str (← (g.array "path" 16).str)]) >>=
        fun _ => get >>= fun s => call (c.ksuspend s.tracing (k.argint 0) f)) ⟨k, true, []⟩ := by
  show sysSuspend c g ⟨k, true, []⟩ = _
  rw [sysSuspend, run_myproc, run_myproc, hfd]

theorem run_suspend_none (hfd : k.argfd 1 = none) (tr : Bool) :
    Handler.run c g .suspend ⟨k, tr, []⟩ = (.ok (-1), ⟨k, tr, []⟩) := by
  show sysSuspend c g ⟨k, tr, []⟩ = _
  rw [sysSuspend, run_myproc, run_myproc, hfd]
  rfl

/-- The text of `sys_suspend`, with what its array holds. -/
def suspendText (p : Call) (s : List UInt8) : List UInt8 :=
  printf "\n[%d]sys_suspendproc(%d, %s)" [.int p.pid, .int (p.argint 0), .str s]

theorem suspendText_eq (p : Call) (s : List UInt8) :
    suspendText p s = printf "\n[%d]sys_suspendproc(%d, " [.int p.pid, .int (p.argint 0)] ++
      (s ++ [41]) := by
  simp [suspendText, printf, format]

theorem suspend_traced {s : List UInt8} (hfd : k.argfd 1 = some (fd, f))
    (hs : (g.array "path" 16).str = .ok s) : traced c .suspend g k = suspendText k.toCall s := by
  unfold traced
  rw [run_suspend hfd, hs]
  exact out_whenTracing rfl fun s => out_call _ s

/-- Reading a string stops with a fault beyond the array only. -/
theorem strFrom_error {b : Buf} {i n : Nat} (h : b.strFrom i n = .error e) :
    ∃ j, e = .outOfBounds b.name j := by
  induction n generalizing i with
  | zero => exact ⟨i, (Except.error.inj h).symm⟩
  | succ n ih =>
    rw [Buf.strFrom, Buf.load] at h
    by_cases hi : i < b.len
    · simp only [hi, if_true, bind, Except.bind] at h
      by_cases hx : b.data i = 0
      · simp only [hx, if_true] at h
        cases h
      · simp only [hx, if_false] at h
        cases hrest : b.strFrom (i + 1) n with
        | error e' =>
          rw [hrest] at h
          cases h
          exact ih hrest
        | ok t =>
          rw [hrest] at h
          cases h
    · simp only [hi, if_false, bind, Except.bind] at h
      exact ⟨i, (Except.error.inj h).symm⟩

theorem suspend_not_transparent (hfd : k.argfd 1 = some (fd, f)) :
    ¬ Transparent c .suspend g k := by
  intro ht
  cases hstr : (g.array "path" 16).str with
  | error e =>
    obtain ⟨j, rfl⟩ := strFrom_error hstr
    have hrun : (Handler.run c g .suspend ⟨k, true, []⟩).1 = .error (.outOfBounds "path" j) := by
      rw [run_suspend hfd, hstr]
      exact congrArg Prod.fst (fault_whenTracing rfl [])
    exact ht.bounds _ _ hrun
  | ok s =>
    -- an empty array, and one with a letter
    have hsame : ∀ g' s', (Frame.array g' "path" 16).str = .ok s' →
        suspendText k.toCall s' = suspendText k.toCall s := by
      intro g' s' hs'
      have hne : ∀ t, suspendText k.toCall t ≠ [] := by
        intro t hnil
        rw [suspendText_eq] at hnil
        simp at hnil
      have heq := ht.text g' k rfl
      rw [suspend_traced hfd hstr, suspend_traced hfd hs'] at heq
      exact heq (hne s) (hne s')
    have hempty := hsame ⟨0, fun _ _ => 0⟩ [] rfl
    have hletter := hsame ⟨0, fun _ i => if i = 0 then 97 else 0⟩ [97] rfl
    rw [← hletter, suspendText_eq, suspendText_eq] at hempty
    have hlist := append_cancel_left hempty
    revert hlist
    decide

/-! ## `sys_pipe` -/

/-- Two free descriptors. -/
def TwoFree (ofile : Fin NOFILE → Option φ) : Prop :=
  ∃ fd fd', fd ≠ fd' ∧ ofile fd = none ∧ ofile fd' = none

theorem freeFd_eq_none (h : freeFd ofile = none) (fd : Fin NOFILE) : ofile fd ≠ none := by
  have hall := find?_eq_none.mp h fd (mem_finRange fd)
  simpa using hall

theorem freeFd_eq_some (h : freeFd ofile = some fd) : ofile fd = none := by
  have hfd := find?_some h
  simpa using hfd

/-- The way out of `sys_pipe` when there is no descriptor. -/
theorem quiet_close (c : Callees φ ι π κ) (rf wf : φ) :
    Quiet (do call (c.fileclose rf); call (c.fileclose wf); return -1 : M φ κ Int) :=
  (Quiet.call _).bind fun _ => (Quiet.call _).bind fun _ => Quiet.pure _

/-- `pipealloc` returns two files in this state. -/
def PipeAllocates (c : Callees φ ι π κ) (k : Kernel φ κ) : Prop :=
  ∃ rf wf rest, c.pipealloc k.rest = (.ok (some (rf, wf)), rest)

theorem transparent_pipe (hcond : PipeAllocates c k → ¬ TwoFree k.ofile) :
    Transparent c .pipe g k := by
  have hpipe : ∀ tr, Handler.run c g .pipe ⟨k, tr, []⟩ = sysPipe c ⟨k, tr, []⟩ := fun _ => rfl
  rcases hp : c.pipealloc k.rest with ⟨r, rest⟩
  cases r with
  | error msg =>
    refine Transparent.of_silent (r := .error (.panic msg)) (q := { k with rest := rest })
      (inBounds_panic msg) fun tr => ?_
    rw [hpipe, sysPipe, run_myproc, run_bind, callRest, call, hp]
  | ok o =>
    cases o with
    | none =>
      refine Transparent.of_silent (r := .ok (-1)) (q := { k with rest := rest })
        (inBounds_ok _) fun tr => ?_
      rw [hpipe, sysPipe, run_myproc, run_callRest hp]
      rfl
    | some files =>
      obtain ⟨rf, wf⟩ := files
      have hfew := hcond ⟨rf, wf, rest, hp⟩
      cases hfd : freeFd k.ofile with
      | none =>
        obtain ⟨r, k', hr, hquiet⟩ := (quiet_close c rf wf).silent { k with rest := rest }
        refine Transparent.of_silent (q := k') hr fun tr => ?_
        rw [hpipe, sysPipe, run_myproc, run_callRest hp]
        dsimp only
        rw [run_fdalloc_none (by exact hfd)]
        exact hquiet tr
      | some fd =>
        have hnone : freeFd (update k.ofile fd (some rf)) = none := by
          cases hfd' : freeFd (update k.ofile fd (some rf)) with
          | none => rfl
          | some fd' =>
            have hfree := freeFd_eq_some hfd'
            by_cases heq : fd' = fd
            · rw [heq, update_self] at hfree
              cases hfree
            · rw [update_of_ne heq] at hfree
              exact absurd ⟨fd', fd, heq, hfree, freeFd_eq_some hfd⟩ hfew
        obtain ⟨r, k', hr, hquiet⟩ :=
          ((Quiet.setOfile fd none).bind fun _ => quiet_close c rf wf).silent
            { k with rest := rest, ofile := update k.ofile fd (some rf) }
        refine Transparent.of_silent (q := k') hr fun tr => ?_
        rw [hpipe, sysPipe, run_myproc, run_callRest hp]
        dsimp only
        rw [run_fdalloc_some (by exact hfd)]
        dsimp only
        rw [run_fdalloc_none (by exact hnone)]
        exact hquiet tr

/-- The text of `sys_pipe`. -/
def pipeText (p : Call) (fd fd' : Fin NOFILE) : List UInt8 :=
  printf "\n[%d]sys_pipe(%d,%d)" [.int p.pid, .int fd.val, .int fd'.val]

theorem pipeText_eq (p : Call) (fd fd' : Fin NOFILE) :
    pipeText p fd fd' = printf "\n[%d]sys_pipe(" [.int p.pid] ++
      printf "%d,%d)" [.int fd.val, .int fd'.val] := by
  simp [pipeText, printf, format]

theorem pipe_traced {rf wf : φ} {fd' : Fin NOFILE}
    (hp : c.pipealloc k.rest = (.ok (some (rf, wf)), rest)) (hfd : freeFd k.ofile = some fd)
    (hfd' : freeFd (update k.ofile fd (some rf)) = some fd') :
    traced c .pipe g k = pipeText k.toCall fd fd' := by
  have hpipe : Handler.run c g .pipe ⟨k, true, []⟩ = sysPipe c ⟨k, true, []⟩ := rfl
  unfold traced
  rw [hpipe, sysPipe, run_myproc, run_callRest hp]
  dsimp only
  rw [run_fdalloc_some (by exact hfd)]
  dsimp only
  rw [run_fdalloc_some (by exact hfd')]
  refine out_whenTracing rfl (Quiet.out ?_)
  have hundo := (Quiet.setOfile fd none).bind fun _ =>
    (Quiet.setOfile fd' none).bind fun _ => quiet_close c rf wf
  refine (Quiet.call _).bind fun r => Quiet.ite ((Quiet.pure r).bind fun r' => ?_)
    ((Quiet.call _).bind fun r' => ?_)
  · exact hundo.ite (Quiet.pure _)
  · exact hundo.ite (Quiet.pure _)

theorem TwoFree.freeFd (h : TwoFree ofile) (x : φ) :
    ∃ fd fd', Trace.freeFd ofile = some fd ∧
      Trace.freeFd (update ofile fd (some x)) = some fd' := by
  obtain ⟨a, b, hab, ha, hb⟩ := h
  cases hfd : Trace.freeFd ofile with
  | none => exact absurd ha (freeFd_eq_none hfd a)
  | some fd =>
    cases hfd' : Trace.freeFd (update ofile fd (some x)) with
    | some fd' => exact ⟨fd, fd', rfl, hfd'⟩
    | none =>
      -- one of the two is not the one that was taken
      by_cases hafd : a = fd
      · have hbfd : b ≠ fd := fun heq => hab (hafd.trans heq.symm)
        exact absurd ((update_of_ne hbfd _ _).trans hb) (freeFd_eq_none hfd' b)
      · exact absurd ((update_of_ne hafd _ _).trans ha) (freeFd_eq_none hfd' a)

theorem pipe_not_transparent (halloc : PipeAllocates c k) (hfree : TwoFree k.ofile) :
    ¬ Transparent c .pipe g k := by
  intro ht
  obtain ⟨rf, wf, rest, hp⟩ := halloc
  obtain ⟨fd, fd', hfd, hfd'⟩ := hfree.freeFd rf
  have hne : ∀ a b, pipeText k.toCall a b ≠ [] := by
    intro a b hnil
    rw [pipeText_eq] at hnil
    simp [printf, format] at hnil
  -- the same call with another table of descriptors
  have hsame : ∀ ofile a b, freeFd ofile = some a →
      freeFd (update ofile a (some rf)) = some b →
      pipeText k.toCall a b = pipeText k.toCall fd fd' := by
    intro ofile a b ha hb
    have heq := ht.text g { k with ofile := ofile } rfl
    rw [pipe_traced hp hfd hfd', pipe_traced (k := { k with ofile := ofile }) hp ha hb] at heq
    exact heq (hne _ _) (hne _ _)
  have hfirst := hsame (fun _ => none) ⟨0, by decide⟩ ⟨1, by decide⟩ rfl rfl
  have hsecond := hsame (update (fun _ => none) ⟨0, by decide⟩ (some rf))
    ⟨1, by decide⟩ ⟨2, by decide⟩ rfl rfl
  rw [← hsecond, pipeText_eq, pipeText_eq] at hfirst
  have hlist := append_cancel_left hfirst
  revert hlist
  decide

/-! ## All handlers -/

/-- The states in which a handler is transparent. -/
def Handler.Clean (c : Callees φ ι π κ) (g : Frame) (k : Kernel φ κ) : Handler → Prop
  | .write => k.argfd 0 = none ∨ WriteFits g k.toCall
  | .suspend => k.argfd 1 = none
  | .pipe => PipeAllocates c k → ¬ TwoFree k.ofile
  | _ => True

/-- The handlers with one text for each call. -/
theorem fine_of_ne (hw : h ≠ .write) (hs : h ≠ .suspend) (hp : h ≠ .pipe) (v : Call) :
    Fine v (h.text v) (h.run c g) := by
  cases h with
  | exit => exact fine_exit c
  | getpid => exact fine_getpid
  | fork => exact fine_fork c
  | wait => exact fine_wait c
  | sbrk => exact fine_sbrk c
  | sleep => exact fine_sleep c
  | kill => exact fine_kill c
  | uptime => exact fine_uptime c
  | ps => exact fine_ps c
  | resume => exact fine_resume c
  | dup => exact fine_dup c
  | read => exact fine_read c
  | write => exact absurd rfl hw
  | close => exact fine_close c
  | fstat => exact fine_fstat c
  | link => exact fine_link c
  | unlink => exact fine_unlink c
  | «open» => exact fine_open c
  | mkdir => exact fine_mkdir c
  | mknod => exact fine_mknod c
  | chdir => exact fine_chdir c
  | exec => exact fine_exec c
  | pipe => exact absurd rfl hp
  | suspend => exact absurd rfl hs

/-- Tracing is transparent exactly in the states of `Handler.Clean`. -/
theorem transparent_iff (c : Callees φ ι π κ) (h : Handler) (g : Frame) (k : Kernel φ κ) :
    Transparent c h g k ↔ h.Clean c g k := by
  rcases eq_or_ne h .write with rfl | hw
  · constructor
    · intro ht
      cases hfd : k.argfd 0 with
      | none => exact .inl hfd
      | some x =>
        refine .inr ?_
        by_contra hfits
        exact write_not_transparent hfd hfits ht
    · rintro (hfd | hfits)
      · exact Transparent.of_silent (inBounds_ok _) (run_write_none hfd)
      · exact transparent_write hfits
  rcases eq_or_ne h .suspend with rfl | hs
  · constructor
    · intro ht
      cases hfd : k.argfd 1 with
      | none => exact hfd
      | some x => exact absurd ht (suspend_not_transparent hfd)
    · intro hfd
      exact Transparent.of_silent (inBounds_ok _) (run_suspend_none hfd)
  rcases eq_or_ne h .pipe with rfl | hp
  · constructor
    · intro ht halloc hfree
      exact pipe_not_transparent halloc hfree ht
    · exact transparent_pipe
  have hfine := fun g' v => fine_of_ne (c := c) (g := g') hw hs hp v
  refine iff_of_true (Transparent.of_fine (hfine g k.toCall) fun g' k' hcall => ?_) ?_
  · rw [← hcall]
    exact (hfine g' k'.toCall).traced
  · cases h with
    | write => exact absurd rfl hw
    | suspend => exact absurd rfl hs
    | pipe => exact absurd rfl hp
    | _ => trivial

/-! ## A write of one byte -/

/-- Functions that do nothing. -/
def idle : Callees Unit Unit Unit Unit where
  beginOp := fun k => (.ok (), k)
  endOp := fun k => (.ok (), k)
  create := fun _ _ _ _ k => (.ok none, k)
  namei := fun _ k => (.ok none, k)
  iunlockput := fun _ k => (.ok (), k)
  kalloc := fun k => (.ok none, k)
  kfree := fun _ k => (.ok (), k)
  pipealloc := fun k => (.ok none, k)
  filedup := fun _ k => (.ok (), k)
  fileclose := fun _ k => (.ok (), k)
  fileread := fun _ _ _ k => (.ok 0, k)
  filewrite := fun _ _ n k => (.ok n, k)
  filestat := fun _ _ k => (.ok 0, k)
  link := fun _ _ k => (.ok 0, k)
  unlink := fun _ k => (.ok 0, k)
  openFile := fun _ _ k => (.ok 0, k)
  chdir := fun _ k => (.ok 0, k)
  exec := fun _ _ k => (.ok 0, k)
  copyout := fun _ _ k => (.ok 0, k)
  ksuspend := fun _ _ _ k => (.ok 0, k)
  exit := fun _ k => (.ok (), k)
  fork := fun k => (.ok 0, k)
  wait := fun _ k => (.ok 0, k)
  growproc := fun _ k => (.ok 0, k)
  sleep := fun _ k => (.ok 0, k)
  kill := fun _ k => (.ok 0, k)
  ticks := fun k => (.ok 0, k)
  kps := fun _ k => (.ok (), k)
  kresume := fun _ k => (.ok 0, k)

/-- A process that writes the byte at address 0 to descriptor 1. -/
def writer : Kernel Unit Unit where
  pid := 1
  tf := fun i => if i = 1 then 0 else 1
  sz := 4096
  mem := fun va => if va < 4096 then some 97 else none
  mem_top := fun va hva => if_neg (by unfold MAXVA at hva; omega)
  ofile := fun _ => some ()
  rest := ()

/-- With 0 on the stack where `n` is, the traced call writes beyond its array,
and the other one returns 1. -/
theorem writer_overruns :
    (Handler.run idle ⟨0, fun _ _ => 0⟩ .write ⟨writer, true, []⟩).1 =
        .error (.outOfBounds "instr" 0) ∧
      (Handler.run idle ⟨0, fun _ _ => 0⟩ .write ⟨writer, false, []⟩).1 = .ok 1 ∧
      ¬ Transparent idle .write ⟨0, fun _ _ => 0⟩ writer := by
  have hon : (Handler.run idle ⟨0, fun _ _ => 0⟩ .write ⟨writer, true, []⟩).1 =
      .error (.outOfBounds "instr" 0) := by
    decide
  refine ⟨hon, by decide, fun ht => ?_⟩
  exact ht.bounds _ _ hon

end SummerOsk.Trace
