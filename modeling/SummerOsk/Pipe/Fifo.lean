import SummerOsk.Pipe.Defs

/-!
# A pipe is a FIFO queue

`Pipe.contents` is what is in the buffer.  `writeLoop_spec` and `readLoop_spec`
say that a stretch of `pipewrite` appends the next bytes of its caller to it and
that `piperead` takes bytes from its front.  `Fifo` collects this over a whole
run: what was sent is what was delivered and then the contents, and the bytes of
each writer are those of its calls, in their order.
-/

namespace SummerOsk.Pipe

open Lib Function List State

/-! ## The buffer -/

/-- The bytes in the buffer, the oldest first. -/
def contents (pi : Pipe) : List UInt8 := queue PIPESIZE pi.data pi.nread pi.nwrite

/-- The buffer does not hold more than its size. -/
def Valid (pi : Pipe) : Prop := (pi.nwrite - pi.nread).toNat ≤ PIPESIZE

variable {pi : Pipe} {killed : Bool} {src : Nat → Option UInt8} {dst : Nat → Bool} {n : Int}

theorem full_iff : pi.full = true ↔ (pi.nwrite - pi.nread).toNat = PIPESIZE := by
  rw [full, decide_eq_true_iff]
  constructor
  · intro h
    rw [h, BitVec.add_comm, BitVec.add_sub_cancel]
    rfl
  · intro h
    rw [← h, counter_add_sub]

theorem Valid.put (h : pi.Valid) (hfull : pi.full = false) (ch : UInt8) :
    (pi.put ch).Valid ∧ (pi.put ch).contents = pi.contents ++ [ch] := by
  have hne : (pi.nwrite - pi.nread).toNat ≠ PIPESIZE := by
    rw [Ne, ← full_iff, hfull]
    exact Bool.false_ne_true
  have hlt : (pi.nwrite - pi.nread).toNat < PIPESIZE := Nat.lt_of_le_of_ne h hne
  have hsize : PIPESIZE < 2 ^ 32 := by decide
  refine ⟨?_, queue_push (by decide) hsize hlt ch⟩
  change (pi.nwrite + 1 - pi.nread).toNat ≤ PIPESIZE
  rw [toNat_succ_sub (by omega)]
  exact hlt

/-- What a stretch of `pipewrite` at byte `i`, with `k` bytes to go, does. -/
structure Writes (pi : Pipe) (src : Nat → Option UInt8) (n : Int) (i k : Nat) (pi' : Pipe)
    (j : Nat) (r : Option Int) : Prop where
  valid : pi'.Valid
  first : i ≤ j
  last : j ≤ i + k
  contents : pi'.contents = pi.contents ++ (List.range' i (j - i)).filterMap src
  result : (∀ m, i ≤ m → m < i + k → (src m).isSome) →
    r = some n ∧ j = i + k ∨ (r = some (-1) ∨ r = none) ∧ j < i + k

theorem writeLoop_spec (h : pi.Valid) (k i : Nat) :
    Writes pi src n i k (writeLoop killed src n k i pi).1 (writeLoop killed src n k i pi).2.1
      (writeLoop killed src n k i pi).2.2 := by
  have hstop : ∀ {k : Nat} {pi : Pipe} {r : Option Int}, pi.Valid → ∀ i,
      ((∀ m, i ≤ m → m < i + k → (src m).isSome) →
        r = some n ∧ i = i + k ∨ (r = some (-1) ∨ r = none) ∧ i < i + k) →
      Writes pi src n i k pi i r :=
    fun hpi i hr => ⟨hpi, Nat.le_refl i, Nat.le_add_right i _, by simp, hr⟩
  induction k generalizing i pi with
  | zero => exact hstop h i fun _ => .inl ⟨rfl, rfl⟩
  | succ k ih =>
    rw [writeLoop]
    split_ifs with hfull hopen
    · exact hstop h i fun _ => .inr ⟨.inl rfl, by omega⟩
    · exact hstop h i fun _ => .inr ⟨.inr rfl, by omega⟩
    · split
      · rename_i hsrc
        refine hstop h i fun hmapped => ?_
        have hsome := hmapped i (Nat.le_refl i) (by omega)
        rw [hsrc] at hsome
        cases hsome
      · rename_i ch hsrc
        obtain ⟨hvalid, hput⟩ := h.put (by simpa using hfull) ch
        have hw := ih hvalid (i + 1)
        refine ⟨hw.valid, by have := hw.first; omega, by have := hw.last; omega, ?_, ?_⟩
        · have hlen : ∀ j, i + 1 ≤ j → j - i = (j - (i + 1)) + 1 := by
            intro j hj
            omega
          rw [hw.contents, hput, hlen _ hw.first, range'_succ, filterMap_cons, hsrc, append_assoc]
          rfl
        · intro hmapped
          have hres := hw.result fun m hm hmk => hmapped m (by omega) (by omega)
          rwa [Nat.add_right_comm, Nat.add_assoc] at hres

/-- What the second loop of `piperead` does. -/
structure Reads (pi : Pipe) (k : Nat) (pi' : Pipe) (bs : List UInt8) : Prop where
  valid : pi'.Valid
  contents : pi.contents = bs ++ pi'.contents
  short : bs.length ≤ k
  drained : bs.length < k → pi'.nread = pi'.nwrite
  writeopen : pi'.writeopen = pi.writeopen

theorem readLoop_spec (h : pi.Valid) (k i : Nat) (hdst : ∀ m, i ≤ m → m < i + k → dst m = true) :
    Reads pi k (readLoop dst k i pi).1 (readLoop dst k i pi).2 := by
  induction k generalizing i pi with
  | zero => exact ⟨h, rfl, Nat.le_refl 0, fun hlt => absurd hlt (Nat.lt_irrefl 0), rfl⟩
  | succ k ih =>
    rw [readLoop]
    by_cases hempty : pi.nread = pi.nwrite
    · rw [if_pos hempty]
      exact ⟨h, rfl, Nat.zero_le _, fun _ => hempty, rfl⟩
    · rw [if_neg hempty]
      simp only [hdst i (Nat.le_refl i) (by omega), if_true]
      have hvalid : Valid { pi with nread := pi.nread + 1 } := by
        change (pi.nwrite - (pi.nread + 1)).toNat ≤ PIPESIZE
        rw [toNat_sub_succ hempty]
        exact (Nat.sub_le _ _).trans h
      have hr := ih hvalid (i + 1) fun m hm hmk => hdst m (by omega) (by omega)
      refine ⟨hr.valid, ?_, ?_, fun hlt => hr.drained ?_, hr.writeopen⟩
      · rw [cons_append, ← hr.contents]
        exact queue_pop hempty
      · exact Nat.succ_le_succ hr.short
      · exact Nat.lt_of_succ_lt_succ hlt

/-! ## The runs -/

/-- The bytes that a write has put into the pipe. -/
def Call.written : Call → List UInt8
  | .write src _ i => (List.range i).filterMap src
  | .read _ _ => []

/-- A write that succeeds has written its whole buffer, and one that fails a
part of it.  A read returns the number of bytes that it copied. -/
def Return.Complete {ι : Type} (r : Return ι) : Prop :=
  match r.call with
  | .write _ n i => r.bytes = [] ∧ (r.value = n ∧ i = n.toNat ∨ r.value = -1 ∧ i < n.toNat)
  | .read _ n => r.value = r.bytes.length ∧ r.bytes.length ≤ n.toNat ∨ r.value = -1 ∧ r.bytes = []

/-- The buffer of a call is mapped, and a write is in it. -/
def Call.Mapped : Call → Prop
  | .write src n i => i ≤ n.toNat ∧ ∀ m < n.toNat, (src m).isSome
  | .read dst n => ∀ m < n.toNat, dst m = true

section Runs

variable {ι : Type} [DecidableEq ι] {s t : State ι} {p : ι}

/-- The bytes of writer `p` that went into the pipe. -/
def State.sentBy (s : State ι) (p : ι) : List UInt8 :=
  s.sent.filterMap fun x => if x.1 = p then some x.2 else none

/-- The bytes that the calls of writer `p` have written, in the order of the
calls. -/
def State.wrote (s : State ι) (p : ι) : List UInt8 :=
  (s.returned.flatMap fun r => if r.who = p then r.call.written else []) ++
    ((s.call p).map Call.written).getD []

structure Fifo (s : State ι) : Prop where
  valid : s.pipe.Valid
  order : s.sent.map Prod.snd = s.delivered ++ s.pipe.contents
  writers : ∀ p, s.sentBy p = s.wrote p
  returned : ∀ r ∈ s.returned, r.Complete
  calls : ∀ p call, s.call p = some call → call.Mapped

theorem filterMap_tagged (bs : List UInt8) (q : ι) :
    (bs.map (p, ·)).filterMap (fun x => if x.1 = q then some x.2 else none) =
      if p = q then bs else [] := by
  split_ifs with hpq
  · simp [hpq, filterMap_map]
  · simp [hpq, filterMap_map]

/-- A stretch of `pipewrite` keeps the order. -/
theorem Fifo.write {i : Nat} (h : Fifo s) (hcall : s.call p = some (.write src n i)) :
    Fifo (s.exec p killed (.write src n i)) := by
  obtain ⟨hi, hmapped⟩ := h.calls p _ hcall
  have hw : Writes s.pipe src n i (n.toNat - i) (s.pipe.pipewrite killed src n i).1
      (s.pipe.pipewrite killed src n i).2.1 (s.pipe.pipewrite killed src n i).2.2 :=
    writeLoop_spec h.valid _ i
  rw [State.exec]
  generalize s.pipe.pipewrite killed src n i = x at hw ⊢
  obtain ⟨pi, j, r⟩ := x
  have hres := hw.result fun m _ hm => hmapped m (by omega)
  have hlast : i + (n.toNat - i) = n.toNat := Nat.add_sub_of_le hi
  have hj : j ≤ n.toNat := hlast ▸ hw.last
  rw [hlast] at hres
  have hwritten : Call.written (.write src n j) =
      Call.written (.write src n i) ++ (range' i (j - i)).filterMap src := by
    have hij : i + (j - i) = j := Nat.add_sub_of_le hw.first
    rw [Call.written, Call.written, ← filterMap_append, range_eq_range',
      range_eq_range', ← hij, Nat.add_sub_cancel_left, ← range'_append_1, Nat.zero_add]
  have horder : (s.sent ++ ((range' i (j - i)).filterMap src).map (p, ·)).map Prod.snd =
      s.delivered ++ pi.contents := by
    rw [map_append, h.order, hw.contents, append_assoc, map_map]
    simp [Function.comp_def]
  have hsent : ∀ q, (s.sent ++ ((range' i (j - i)).filterMap src).map (p, ·)).filterMap
      (fun x => if x.1 = q then some x.2 else none) =
      s.wrote q ++ if p = q then (range' i (j - i)).filterMap src else [] := by
    intro q
    rw [filterMap_append, filterMap_tagged, ← h.writers q]
    rfl
  cases r with
  | none =>
    refine ⟨hw.valid, horder, fun q => (hsent q).trans ?_, h.returned, fun q call hq => ?_⟩
    · rcases eq_or_ne p q with rfl | hpq
      · simp [wrote, hcall, hwritten]
      · simp [wrote, hpq, Ne.symm hpq]
    · rcases eq_or_ne q p with rfl | hpq
      · simp only [update_self, Option.some.injEq] at hq
        subst hq
        exact ⟨hj, hmapped⟩
      · simp only [update_of_ne hpq] at hq
        exact h.calls q call hq
  | some v =>
    refine ⟨hw.valid, ?_, fun q => (hsent q).trans ?_, fun x hx => ?_, fun q call hq => ?_⟩
    · simpa [delivered] using horder
    · rcases eq_or_ne p q with rfl | hpq
      · simp [wrote, hcall, hwritten]
      · simp [wrote, hpq, Ne.symm hpq]
    · rcases mem_append.mp hx with hx | hx
      · exact h.returned x hx
      · cases mem_singleton.mp hx
        refine ⟨rfl, hres.imp (fun hr => ⟨Option.some.inj hr.1, hr.2⟩) fun hr => ?_⟩
        obtain ⟨hv | hv, hlt⟩ := hr
        · exact ⟨Option.some.inj hv, hlt⟩
        · cases hv
    · rcases eq_or_ne q p with rfl | hpq
      · simp at hq
      · simp only [update_of_ne hpq] at hq
        exact h.calls q call hq

/-- What `piperead` does when it returns: the bytes come from the front, and
there are none only at the end of file. -/
theorem piperead_spec (h : pi.Valid) (hdst : ∀ m < n.toNat, dst m = true) {pi' : Pipe}
    {bs : List UInt8} {r : Option Int} (hr : pi.piperead killed dst n = (pi', bs, r)) :
    pi'.Valid ∧ pi.contents = bs ++ pi'.contents ∧
      (r = none ∧ bs = [] ∧ pi' = pi ∨ r = some (-1) ∧ bs = [] ∨
        r = some (bs.length : Int) ∧ bs.length ≤ n.toNat ∧
          (bs = [] → 0 < n → pi'.writeopen = false ∧ pi'.nread = pi'.nwrite)) := by
  rw [piperead] at hr
  split_ifs at hr with hwait hkilled
  · cases hr
    exact ⟨h, rfl, .inr (.inl ⟨rfl, rfl⟩)⟩
  · cases hr
    exact ⟨h, rfl, .inl ⟨rfl, rfl, rfl⟩⟩
  · have hreads := readLoop_spec h n.toNat 0 fun m _ hm => hdst m (by omega)
    cases hr
    refine ⟨hreads.valid, hreads.contents, .inr (.inr ⟨rfl, hreads.short, fun hnil hn => ?_⟩)⟩
    have hempty := hreads.drained (by rw [hnil, length_nil]; omega)
    refine ⟨?_, hempty⟩
    -- nothing was taken, so the pipe was empty and not waited for
    have hcont := hreads.contents
    rw [hnil, nil_append, contents, contents, hempty, queue_self] at hcont
    have hpi : pi.nread = pi.nwrite := by
      have hlen : (queue PIPESIZE pi.data pi.nread pi.nwrite).length =
        (pi.nwrite - pi.nread).toNat := length_queue
      rw [← toNat_sub_eq_zero, ← hlen, hcont]
      rfl
    rw [hreads.writeopen]
    simpa [hpi] using hwait

/-- A stretch of `piperead` keeps the order. -/
theorem Fifo.read (h : Fifo s) (hcall : s.call p = some (.read dst n)) :
    Fifo (s.exec p killed (.read dst n)) := by
  obtain ⟨⟨pi, bs, r⟩, hr⟩ : ∃ x, s.pipe.piperead killed dst n = x := ⟨_, rfl⟩
  obtain ⟨hvalid, hcont, hres⟩ := piperead_spec h.valid (h.calls p _ hcall) hr
  rw [State.exec, hr]
  cases r with
  | none =>
    obtain ⟨-, rfl, rfl⟩ : none = (none : Option Int) ∧ bs = [] ∧ pi = s.pipe := by
      rcases hres with hres | ⟨hres, -⟩ | ⟨hres, -⟩
      · exact hres
      · cases hres
      · cases hres
    exact ⟨h.valid, h.order, h.writers, h.returned, h.calls⟩
  | some v =>
    refine ⟨hvalid, ?_, fun q => (h.writers q).trans ?_, fun x hx => ?_, fun q call hq => ?_⟩
    · rw [h.order, hcont]
      simp [delivered]
    · rcases eq_or_ne p q with rfl | hpq
      · simp [wrote, hcall, Call.written]
      · simp [wrote, hpq, Ne.symm hpq]
    · rcases mem_append.mp hx with hx | hx
      · exact h.returned x hx
      · cases mem_singleton.mp hx
        rcases hres with ⟨hv, -⟩ | ⟨hv, hbs⟩ | ⟨hv, hbs, -⟩
        · cases hv
        · exact .inr ⟨Option.some.inj hv, hbs⟩
        · exact .inl ⟨Option.some.inj hv, hbs⟩
    · rcases eq_or_ne q p with rfl | hpq
      · simp at hq
      · simp only [update_of_ne hpq] at hq
        exact h.calls q call hq

/-- A call begins. -/
theorem Fifo.call {call : Call} (h : Fifo s) (hfree : s.call p = none) (hmapped : call.Mapped)
    (hnil : call.written = []) : Fifo { s with call := update s.call p (some call) } := by
  refine ⟨h.valid, h.order, fun q => (h.writers q).trans ?_, h.returned, fun q call' hq => ?_⟩
  · rcases eq_or_ne q p with rfl | hpq
    · simp [wrote, hfree, hnil]
    · simp [wrote, hpq]
  · rcases eq_or_ne q p with rfl | hpq
    · simp only [update_self, Option.some.injEq] at hq
      exact hq ▸ hmapped
    · simp only [update_of_ne hpq] at hq
      exact h.calls q call' hq

theorem Fifo.step {a : Act ι} (h : Fifo s) (hmapped : a.Mapped)
    (hstep : (users ι).step s a = some t) : Fifo t := by
  change s.step a = some t at hstep
  unfold State.step at hstep
  split_ifs at hstep
  cases a with
  | write p src n =>
    dsimp only at hstep
    split_ifs at hstep with hcall
    cases hstep
    exact h.call (by simpa using hcall) ⟨Nat.zero_le _, hmapped⟩ rfl
  | read p dst n =>
    dsimp only at hstep
    split_ifs at hstep with hcall
    cases hstep
    exact h.call (by simpa using hcall) hmapped rfl
  | run p killed =>
    obtain ⟨call, hcall, rfl⟩ := Option.map_eq_some_iff.mp hstep
    cases call with
    | write src n i => exact h.write hcall
    | read dst n => exact h.read hcall
  | close writable =>
    cases hstep
    cases writable
    · exact ⟨h.valid, h.order, h.writers, h.returned, h.calls⟩
    · exact ⟨h.valid, h.order, h.writers, h.returned, h.calls⟩

theorem State.Init.fifo (h : s.Init) : Fifo s := by
  obtain ⟨data, hpipe⟩ := h.pipe
  refine ⟨?_, ?_, fun p => ?_, fun r hr => ?_, fun p call hcall => ?_⟩
  · simp [Valid, hpipe, alloc]
  · simp [h.sent, delivered, h.returned, hpipe, alloc, contents]
  · simp [sentBy, wrote, h.sent, h.returned, h.call p]
  · simp [h.returned] at hr
  · simp [h.call p] at hcall

/-- In every run whose calls have mapped buffers, the buffer holds at most
PIPESIZE bytes, what went into the pipe is what reads have returned and then what
the buffer holds, the bytes of each writer went in as its calls wrote them, and a
read of more than 0 bytes returns 0 only when the write end is closed and the
buffer is empty. -/
theorem pipe_fifo {s₀ : State ι} {as : List (Act ι)} (hinit : s₀.Init)
    (hmapped : ∀ a ∈ as, a.Mapped) (hrun : (users ι).run s₀ as = some s) :
    (s.pipe.nwrite - s.pipe.nread).toNat ≤ PIPESIZE ∧
    s.sent.map Prod.snd = s.delivered ++ s.pipe.contents ∧
    (∀ p, s.sentBy p = s.wrote p) ∧
    (∀ r ∈ s.returned, r.Complete) ∧
    ∀ p killed dst n bs t, (users ι).step s (.run p killed) = some t →
      t.returned = s.returned ++ [⟨p, .read dst n, bs, 0⟩] → 0 < n →
      t.pipe.writeopen = false ∧ t.pipe.nread = t.pipe.nwrite := by
  have h : Fifo s := (users ι).run_invariant_of_forall
    (fun _ _ _ hu ha hstep => hu.step ha hstep) hinit.fifo hmapped hrun
  refine ⟨h.valid, h.order, h.writers, h.returned, ?_⟩
  intro p killed dst n bs t hstep hret hn
  change s.step (.run p killed) = some t at hstep
  unfold step at hstep
  split_ifs at hstep
  obtain ⟨call, hcall, rfl⟩ := Option.map_eq_some_iff.mp hstep
  cases call with
  | write src m i =>
    rw [State.exec] at hret
    generalize s.pipe.pipewrite killed src m i = x at hret
    obtain ⟨pi, j, r⟩ := x
    cases r with
    | none => simp at hret
    | some v => simp at hret
  | read dst' m =>
    obtain ⟨⟨pi, bs', r⟩, hr⟩ : ∃ x, s.pipe.piperead killed dst' m = x := ⟨_, rfl⟩
    obtain ⟨-, -, hres⟩ := piperead_spec h.valid (h.calls p _ hcall) hr
    rw [State.exec, hr] at hret ⊢
    cases r with
    | none => simp at hret
    | some v =>
      simp only [append_cancel_left_eq, cons.injEq, Return.mk.injEq, Call.read.injEq,
        true_and, and_true] at hret
      obtain ⟨⟨rfl, rfl⟩, rfl, rfl⟩ := hret
      rcases hres with ⟨hv, -⟩ | ⟨hv, -⟩ | ⟨hv, -, heof⟩
      · cases hv
      · cases hv
      · have hnil : bs' = [] := length_eq_zero_iff.mp (by
          have hlen := Option.some.inj hv
          omega)
        exact heof hnil hn

end Runs

/-- A new pipe with two users. -/
def fresh : State Bool where
  pipe := alloc fun _ => 0
  call _ := none
  sent := []
  returned := []

/-- One process writes 600 bytes and sleeps when the buffer is full.  The other
one reads 3 bytes, and the writer goes on. -/
def blockedWrite : List (Act Bool) :=
  [.write true (fun i => some (UInt8.ofNat i)) 600, .run true false,
    .read false (fun _ => true) 3, .run false false, .run true false]

theorem fifo_of_blockedWrite : ∃ s, (users Bool).run fresh blockedWrite = some s ∧
    s.delivered = [0, 1, 2] ∧ s.sent.length = 515 ∧
    s.sent.map Prod.snd = s.delivered ++ s.pipe.contents := by
  have hsome : ((users Bool).run fresh blockedWrite).isSome = true := by decide +kernel
  obtain ⟨s, hs⟩ := Option.isSome_iff_exists.mp hsome
  have hread : ((users Bool).run fresh blockedWrite).map delivered = some [0, 1, 2] := by
    decide +kernel
  have hsent : ((users Bool).run fresh blockedWrite).map (fun s => s.sent.length) = some 515 := by
    decide +kernel
  have hmapped : ∀ a ∈ blockedWrite, a.Mapped := by
    simp [blockedWrite, Act.Mapped]
  rw [hs] at hread hsent
  exact ⟨s, hs, Option.some.inj hread, Option.some.inj hsent,
    (pipe_fifo ⟨⟨_, rfl⟩, fun _ => rfl, rfl, rfl⟩ hmapped hs).2.1⟩

end SummerOsk.Pipe
