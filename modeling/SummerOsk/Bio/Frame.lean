import SummerOsk.Bio.Invariant

/-!
# What a move leaves alone

A move changes its own process and at most one buffer.  A buffer that another
process holds keeps everything but its count, and a buffer with a reference
keeps its block.
-/

namespace SummerOsk.Bio

open Log Function BState

variable {ι κ : Type} [DecidableEq ι] [DecidableEq κ] [Fintype ι]
  {d : Nat → Block} {s t : BState ι κ} {a : Act ι κ} {p : ι}

/-- The process that takes an action. -/
def Act.actor : Act ι κ → ι
  | .beginOp p | .bget p _ | .acquiresleep p | .bread p | .modify p _ _ | .logWrite p _
  | .logLocked p | .releasesleep p _ | .brelse p | .endOp p | .exec p | .leave p => p

section

omit [Fintype ι]

theorem proc_of_move (hm : Move s a t) {q : ι} (hq : q ≠ a.actor) : t.proc q = s.proc q := by
  cases hm with
  | panic | beginSleep | modify => rfl
  | dropRef =>
    refine (update_of_ne hq _ _).trans ?_
    rw [dropRef_proc]
  | bread =>
    refine (update_of_ne hq _ _).trans ?_
    rw [fill_proc]
  | logLocked =>
    refine (update_of_ne hq _ _).trans ?_
    rw [logWriteLocked_proc]
  | beginAdmit | bgetHit | bgetMiss | acquire | logWrite | release | releaseCommit | endLast
  | endMore | memmove | putHead | bwrite | bunpin | clear | leave =>
    exact update_of_ne hq _ _

theorem geometry_of_move (hm : Move s a t) : t.start = s.start ∧ t.size = s.size := by
  cases hm with
  | dropRef hcall =>
    obtain ⟨l, -, heq⟩ := s.dropRef_eq _
    rw [heq]
    exact ⟨rfl, rfl⟩
  | bread hcall =>
    rw [fill_eq]
    exact ⟨rfl, rfl⟩
  | @logLocked p i hcall =>
    obtain ⟨n, l, m, heq⟩ := s.logWriteLocked_eq i p
    rw [heq]
    exact ⟨rfl, rfl⟩
  | panic | beginSleep | modify | beginAdmit | bgetHit | bgetMiss | acquire | logWrite | release
  | releaseCommit | endLast | endMore | memmove | putHead | bwrite | bunpin | clear | leave =>
    exact ⟨rfl, rfl⟩

theorem home_of_move (hm : Move s a t) (b : Nat) : t.home b ↔ s.home b := by
  obtain ⟨hstart, hsize⟩ := geometry_of_move hm
  rw [home, home, hstart, hsize]

theorem mayRead_of_move (hm : Move s a t) (hp : (t.proc p).mode = (s.proc p).mode)
    (b : Nat) : t.mayRead p b = s.mayRead p b := by
  unfold mayRead
  rw [hp]
  simp only [home_of_move hm]

end

/-- What a move does to one buffer. -/
inductive BufMove (s : BState ι κ) (a : Act ι κ) (t : BState ι κ) (i : κ) : Buf ι → Prop
  /-- Only the count changes. -/
  | count (n : Int) : BufMove s a t i { s.buf i with refcnt := n }
  | recycle (b : Nat) (hzero : (s.buf i).refcnt = 0) :
      BufMove s a t i { s.buf i with
        dev := ROOTDEV, blockno := b, valid := false, refcnt := 1 }
  | acquire {b : Nat} (hfree : (s.buf i).holder = none)
      (hcall : (t.proc a.actor).call = .locked b i) :
      BufMove s a t i { s.buf i with holder := some a.actor }
  | release (hheld : (s.buf i).holder = some a.actor) (hclean : (s.buf i).dirty = false)
      (ha : a = .releasesleep a.actor i) : BufMove s a t i { s.buf i with holder := none }
  /-- The holder changes the contents. -/
  | write (hheld : (s.buf i).holder = some a.actor) (x : Block) (n : Int) (v e : Bool)
      (hvalid : (s.buf i).valid = true → v = true)
      (hdirty : e = true → (s.buf i).dirty = true ∨ t.proc a.actor = ⟨.inOp, .none⟩) :
      BufMove s a t i { s.buf i with data := x, refcnt := n, valid := v, dirty := e }

omit [DecidableEq ι] [Fintype ι] [DecidableEq κ] in
theorem BufMove.same (s : BState ι κ) (i : κ) : BufMove s a t i (s.buf i) :=
  .count (s.buf i).refcnt

omit [DecidableEq ι] [Fintype ι] in
theorem BufMove.setBuf {i : κ} {x : Buf ι} (h : BufMove s a t i x) (j : κ) :
    BufMove s a t j ((s.setBuf i x).buf j) := by
  rw [setBuf_buf]
  by_cases hj : j = i
  · rw [if_pos hj, hj]
    exact h
  · rw [if_neg hj]
    exact .same s j

/-- Every move does one of these to each buffer. -/
theorem bufMove_of_move (hinv : Inv d s) (hm : Move s a t) (i : κ) : BufMove s a t i (t.buf i) := by
  have hcalls := hinv.calls
  cases hm with
  | panic | beginSleep | beginAdmit | logWrite | endLast | endMore | bwrite | clear | leave =>
    exact .same s i
  | bgetHit | bunpin => exact (BufMove.count _).setBuf i
  | bgetMiss hcall hread hmiss hi => exact (BufMove.recycle _ (unused_refcnt hi)).setBuf i
  | @acquire p b j hcall hfree =>
    exact (BufMove.acquire (b := b) hfree (by simp [Act.actor, setCall_proc])).setBuf i
  | @bread p b j hcall =>
    rw [fill_eq]
    have hheld := (hcalls.locked p b j hcall).1
    exact (BufMove.write hheld _ (s.buf j).refcnt true _ (fun _ => rfl) .inl).setBuf i
  | @modify p j x hp hheld =>
    exact (BufMove.write hheld x _ _ true id fun _ => .inr hp).setBuf i
  | @logLocked p j hcall =>
    have hheld := (hcalls.logging p j hcall).1
    obtain ⟨n, l, m, heq⟩ := s.logWriteLocked_eq j p
    rw [heq]
    exact (BufMove.write hheld _ n _ false id (by simp)).setBuf i
  | release hcall hmode hheld hclean => exact (BufMove.release hheld hclean rfl).setBuf i
  | @releaseCommit p j r is regs hp hr hheld =>
    refine (BufMove.release hheld ?_ rfl).setBuf i
    by_contra hdirty
    obtain ⟨q, hq, hmode, -⟩ := hcalls.dirty j (by simpa using hdirty)
    rw [hheld] at hq
    cases hq
    rw [hp] at hmode
    cases hmode
  | @dropRef p j hcall =>
    obtain ⟨l, -, heq⟩ := s.dropRef_eq j
    rw [heq]
    exact (BufMove.count _).setBuf i
  | @memmove p dst src is regs j k hp hdst hsrc =>
    have hheld := (hcalls.regs p dst j (by rw [hp]; exact hdst)).1
    exact (BufMove.write hheld _ _ _ _ id .inl).setBuf i
  | @putHead p r is regs j hp hr =>
    have hheld := (hcalls.regs p r j (by rw [hp]; exact hr)).1
    exact (BufMove.write hheld _ _ _ _ id .inl).setBuf i

section Buffer

variable {i : κ} {x : Buf ι}

omit [DecidableEq ι]

/-- A buffer that another process holds keeps everything but its count. -/
theorem BufMove.other (h : BufMove s a t i x) (hrefs : Refs s)
    (hheld : (s.buf i).holder = some p) (hp : p ≠ a.actor) :
    x = { s.buf i with refcnt := x.refcnt } := by
  have hpos := hrefs.holder_pos hheld
  cases h with
  | count n => rfl
  | recycle b hzero => omega
  | acquire hfree =>
    rw [hheld] at hfree
    cases hfree
  | release hown | write hown =>
    rw [hheld] at hown
    cases hown
    exact absurd rfl hp

omit [Fintype ι] [DecidableEq κ]

/-- A buffer with a reference keeps its block. -/
theorem BufMove.block (h : BufMove s a t i x) (hpos : 1 ≤ (s.buf i).refcnt) :
    x.dev = (s.buf i).dev ∧ x.blockno = (s.buf i).blockno := by
  cases h with
  | recycle b hzero => omega
  | count | acquire | release | write => exact ⟨rfl, rfl⟩

/-- A buffer with a reference stays valid. -/
theorem BufMove.valid (h : BufMove s a t i x) (hpos : 1 ≤ (s.buf i).refcnt)
    (hvalid : (s.buf i).valid) : x.valid = true := by
  cases h with
  | count | acquire | release => exact hvalid
  | recycle b hzero => omega
  | write hown y n v e hv => exact hv hvalid

end Buffer

/-! ## The disk and the log -/

/-- The move leaves the disk, the header, the pins and the published contents
alone. -/
structure Quiet (s t : BState ι κ) : Prop where
  disk : t.disk = s.disk
  lh : t.lh = s.lh
  pinned : t.pinned = s.pinned
  store : ∀ d, store d t.trace = store d s.trace

omit [Fintype ι] in
/-- Only `log_write` and `commit` touch the disk and the log. -/
theorem quiet_of_move (hm : Move s a t) :
    Quiet s t ∨ (∃ p i, a = .logLocked p ∧ (s.proc p).call = .logging i ∧
      t = (s.logWriteLocked p i).setCall p .none) ∨
      (∃ p, a = .exec p ∧ (s.proc p).mode.role = .owner) := by
  cases hm with
  | panic | beginSleep | beginAdmit | bgetHit | bgetMiss | acquire | modify | logWrite | release
  | releaseCommit | endLast | endMore | leave | memmove | putHead =>
    exact .inl ⟨rfl, rfl, rfl, fun _ => rfl⟩
  | dropRef =>
    obtain ⟨l, -, heq⟩ := s.dropRef_eq _
    rw [heq]
    exact .inl ⟨rfl, rfl, rfl, fun _ => rfl⟩
  | bread =>
    rw [fill_eq]
    exact .inl ⟨rfl, rfl, rfl, fun d => store_bread d _ _ _ _⟩
  | logLocked hcall => exact .inr (.inl ⟨_, _, rfl, hcall, rfl⟩)
  | bwrite hp | bunpin hp | clear hp =>
    exact .inr (.inr ⟨_, rfl, by simp [hp, Mode.role]⟩)

/-- While a process commits, the others leave the disk and the log alone. -/
theorem quiet_of_owner (hinv : Inv d s) (hm : Move s a t) (hp : (s.proc p).mode.role = .owner)
    (ha : p ≠ a.actor) : Quiet s t := by
  rcases quiet_of_move hm with h | ⟨q, i, rfl, hcall, -⟩ | ⟨q, rfl, hq⟩
  · exact h
  · obtain ⟨-, hmode⟩ := hinv.calls.logging q i hcall
    exact absurd (by simp [hmode, Mode.role]) (hinv.gate.alone p q hp)
  · exact absurd (hinv.gate.unique p q hp hq) ha

end SummerOsk.Bio
