import SummerOsk.Bio.Commit
import SummerOsk.Bio.Moves

/-!
# The invariant of the block layer

`store` is the abstract block store: the initial disk with every `log_write` of
a trace applied.  The invariant says how the cache, the log and the disk
represent it.

- `Refs`: a block has at most one buffer, and `refcnt` counts the lock holder,
  the processes that wait for the lock or are about to drop their reference,
  and the pin of the log.
- `Calls`: what a process in the middle of a call knows about its buffer, and
  who may hold which buffer.
- `Pins`: a pinned block has a valid buffer, and a home block that is not pinned
  is up to date on disk.
- `Contents`: a valid buffer of a home block has its published contents unless
  its holder is changing it, a buffer of a log block agrees with the disk, and
  the rest of a running `commit` is `Fine`.
-/

namespace SummerOsk.Bio

open Lib Log Function

variable {ι κ : Type} {regs : Reg → Option κ} {b : Nat} {r : Reg} {i : κ}

/-- The abstract block store after a trace. -/
def store (d : Nat → Block) (tr : List (Event ι)) : Nat → Block :=
  tr.foldl (fun d e => match e with
    | .bread _ _ _ => d
    | .logWrite _ b x => update d b x) d

@[simp] theorem store_nil (d : Nat → Block) : store d ([] : List (Event ι)) = d := rfl

@[simp] theorem store_bread (d : Nat → Block) (tr : List (Event ι)) (p : ι) (b : Nat)
    (x : Block) : store d (tr ++ [.bread p b x]) = store d tr := by
  rw [store, List.foldl_append]
  rfl

@[simp] theorem store_logWrite (d : Nat → Block) (tr : List (Event ι)) (p : ι) (b : Nat)
    (x : Block) : store d (tr ++ [.logWrite p b x]) = update (store d tr) b x := by
  rw [store, List.foldl_append]
  rfl

/-- The part of the state that a committing process with these pointers
owns. -/
def view (d : Nat → Block) (s : BState ι κ) (regs : Reg → Option κ) : View where
  disk := s.disk
  store := store d s.trace
  lh := s.lh
  pinned := s.pinned
  lbuf := (regs .lbuf).map fun i => ((s.buf i).blockno, (s.buf i).data)
  dbuf := (regs .dbuf).map fun i => ((s.buf i).blockno, (s.buf i).data)

theorem view_reg (d : Nat → Block) (s : BState ι κ) (regs : Reg → Option κ) (r : Reg) :
    (view d s regs).reg r = (regs r).map fun i => ((s.buf i).blockno, (s.buf i).data) := by
  cases r <;> rfl

theorem reg_of_view {d : Nat → Block} {s : BState ι κ} {x : Block} (hr : regs r = some i)
    (h : (view d s regs).reg r = some (b, x)) : (s.buf i).blockno = b ∧ (s.buf i).data = x := by
  rwa [view_reg, hr, Option.map_some, Option.some.injEq, Prod.mk.injEq] at h

/-- Buffer `i` is the buffer of block `b`. -/
def BState.Caches (s : BState ι κ) (i : κ) (b : Nat) : Prop :=
  (s.buf i).dev = ROOTDEV ∧ (s.buf i).blockno = b

/-- Every buffer is pinned, so the first `bread` of `write_log` finds none. -/
def Stuck (s : BState ι κ) (p : ι) : Prop :=
  (∃ is regs, s.proc p = ⟨.commit (.bread .lbuf (s.start + 1) :: is) regs, .none⟩) ∧
    ∀ i, ∃ b ∈ s.pinned, s.Caches i b

variable [DecidableEq κ]

/-- The references to buffer `i` by processes that do not hold it. -/
def refCount [Fintype ι] (s : BState ι κ) (i : κ) : Nat :=
  (Finset.univ.filter fun p => (s.proc p).call.refers i = true).card

/-- A block has at most one buffer, and `refcnt` counts the holder, the processes on
their way to the buffer and the pin of the log. -/
structure Refs [Fintype ι] (s : BState ι κ) : Prop where
  lru_all : ∀ i, i ∈ s.lru
  unique : ∀ i j b, s.Caches i b → s.Caches j b → i = j
  count : ∀ i, (s.buf i).refcnt =
    (if (s.buf i).holder.isSome = true then 1 else 0) + refCount s i +
      if (s.buf i).dev = ROOTDEV ∧ (s.buf i).blockno ∈ s.pinned then 1 else 0

variable [DecidableEq ι]

/-- A process in a call has the buffer that the call is about, a buffer that is
held has a holder that can name it, and only an operation makes it dirty. -/
structure Calls (s : BState ι κ) : Prop where
  waiting : ∀ p b i, (s.proc p).call = .waiting b i →
    s.Caches i b ∧ s.mayRead p b = true
  locked : ∀ p b i, (s.proc p).call = .locked b i →
    (s.buf i).holder = some p ∧ s.Caches i b ∧ s.mayRead p b = true
  logging : ∀ p i, (s.proc p).call = .logging i →
    (s.buf i).holder = some p ∧ (s.proc p).mode = .inOp
  /-- A holder is inside `bread`, or it has a valid buffer: of a home block, or
  one of the two that `commit` works on. -/
  held : ∀ i p, (s.buf i).holder = some p →
    (∃ b, (s.proc p).call = .locked b i) ∨
      ((s.buf i).dev = ROOTDEV ∧ (s.buf i).valid = true ∧
        (s.home (s.buf i).blockno ∨ ∃ r, (s.proc p).mode.regs r = some i))
  regs : ∀ p r i, (s.proc p).mode.regs r = some i →
    (s.buf i).holder = some p ∧ ∀ b, (s.proc p).call ≠ .locked b i
  regs_inj : ∀ p r r' i, (s.proc p).mode.regs r = some i →
    (s.proc p).mode.regs r' = some i → r = r'
  dirty : ∀ i, (s.buf i).dirty = true → ∃ p, (s.buf i).holder = some p ∧
    (s.proc p).mode = .inOp ∧ ∀ b, (s.proc p).call ≠ .locked b i

structure Pins (d : Nat → Block) (s : BState ι κ) : Prop where
  pinned_home : ∀ b ∈ s.pinned, s.home b
  pinned_valid : ∀ b ∈ s.pinned, ∃ i, s.Caches i b ∧ (s.buf i).valid = true
  nodup : s.pinned.Nodup
  disk_home : ∀ b, s.home b → b ∉ s.pinned → s.disk b = store d s.trace b

structure Contents (d : Nat → Block) (s : BState ι κ) : Prop extends Pins d s where
  home_data : ∀ i b, s.Caches i b → s.home b → (s.buf i).valid = true →
    (s.buf i).dirty = false → (s.buf i).data = store d s.trace b
  log_data : ∀ i b, s.Caches i b → ¬ s.home b → (s.buf i).valid = true →
    (∀ p r, (s.proc p).mode.regs r ≠ some i) → (s.buf i).data = s.disk b
  /-- Outside `commit` the pinned blocks are those in the header. -/
  pinned_lh : (∀ p, (s.proc p).mode.role ≠ .owner) → s.pinned = s.lh
  fine : ∀ p is regs, (s.proc p).mode = .commit is regs →
    Fine s.start s.size (view d s regs) is ∨ Stuck s p

/-- The invariant of the block layer over the initial disk `d`. -/
structure Inv [Fintype ι] (d : Nat → Block) (s : BState ι κ) : Prop where
  gate : Gate (fun p => (s.proc p).mode.role) s.outstanding s.committing
  refs : Refs s
  calls : Calls s
  contents : Contents d s

/-! ## Consequences -/

section Consequences

variable [Fintype ι] {d : Nat → Block} {s : BState ι κ} {p : ι} {is : List Instr} {c : Call κ}

omit [DecidableEq ι]

theorem Refs.holder_pos (h : Refs s) (hp : (s.buf i).holder = some p) : 1 ≤ (s.buf i).refcnt := by
  rw [h.count i, hp]
  simp only [Option.isSome_some, if_true]
  split_ifs <;> omega

theorem Refs.refers_pos (h : Refs s)
    (hp : (s.proc p).call.refers i) : 1 ≤ (s.buf i).refcnt := by
  have hcard : 1 ≤ refCount s i :=
    Finset.card_pos.mpr ⟨p, Finset.mem_filter.mpr ⟨Finset.mem_univ p, hp⟩⟩
  rw [h.count i]
  split_ifs <;> omega

theorem Refs.pinned_pos (h : Refs s) (hi : s.Caches i b)
    (hb : b ∈ s.pinned) : 1 ≤ (s.buf i).refcnt := by
  rw [h.count i, if_pos (show (s.buf i).dev = ROOTDEV ∧ (s.buf i).blockno ∈ s.pinned from
    ⟨hi.1, hi.2 ▸ hb⟩)]
  split_ifs <;> omega

omit [DecidableEq κ] [Fintype ι] in
theorem caches_of_cached (h : s.cached b = some i) : s.Caches i b := by
  have := List.find?_some h
  simpa [BState.Caches] using this

theorem Refs.not_caches (h : Refs s) (hmiss : s.cached b = none) (i : κ) : ¬ s.Caches i b := by
  have := List.find?_eq_none.mp hmiss i (h.lru_all i)
  simpa [BState.Caches] using this

omit [DecidableEq κ] [Fintype ι]

theorem unused_refcnt (h : s.unused = some i) : (s.buf i).refcnt = 0 := by
  have := List.find?_some h
  simpa using this

/-- A register of `commit` points to a valid buffer that the process holds. -/
theorem Calls.reg_valid (h : Calls s) (hr : (s.proc p).mode.regs r = some i) :
    s.Caches i (s.buf i).blockno ∧ (s.buf i).valid = true := by
  obtain ⟨hheld, hnot⟩ := h.regs p r i hr
  rcases h.held i p hheld with ⟨b, hlocked⟩ | ⟨hdev, hvalid, -⟩
  · exact absurd hlocked (hnot b)
  · exact ⟨⟨hdev, rfl⟩, hvalid⟩

/-- The rest of `commit` is safe to run when it is past its first `bread`. -/
theorem Contents.fine_of_proc (h : Contents d s) (hp : s.proc p = ⟨.commit is regs, c⟩)
    (his : ∀ b is', is ≠ .bread .lbuf b :: is') : Fine s.start s.size (view d s regs) is := by
  rcases h.fine p is regs (by rw [hp]) with hfine | ⟨⟨is', regs', hstuck⟩, -⟩
  · exact hfine
  · rw [hp] at hstuck
    cases hstuck
    exact absurd rfl (his _ is')

/-- A call of `bread` is the next instruction of `commit`, or it is for a home
block. -/
theorem mayRead_cases (h : s.mayRead p b) :
    (∃ r is regs, (s.proc p).mode = .commit (.bread r b :: is) regs) ∨
      ((s.proc p).mode.role ≠ .owner ∧ s.home b) := by
  unfold BState.mayRead at h
  split at h
  · rename_i r c is regs hmode
    have hc : c = b := by simpa using h
    exact .inl ⟨r, is, regs, hc ▸ hmode⟩
  · cases h
  · rename_i hmode
    exact .inr ⟨by simp [hmode, Mode.role], by simpa using h⟩
  · rename_i hmode
    exact .inr ⟨by simp [hmode, Mode.role], by simpa using h⟩

/-- A process inside a `bread` of `commit` has the register free. -/
theorem Contents.reg_free (h : Contents d s)
    (hmode : (s.proc p).mode = .commit (.bread r b :: is) regs) (hcall : (s.proc p).call ≠ .none) :
    regs r = none ∧ Fine s.start s.size (view d s regs) (.bread r b :: is) := by
  rcases h.fine p _ regs hmode with hfine | ⟨⟨is', regs', hstuck⟩, -⟩
  · have hreg := hfine.1
    rw [view_reg, Option.map_eq_none_iff] at hreg
    exact ⟨hreg, hfine⟩
  · rw [hstuck] at hcall
    exact absurd rfl hcall

/-- `commit` ends with both registers free. -/
theorem Contents.regs_free (h : Contents d s) (hp : s.proc p = ⟨.commit [] regs, c⟩) (r : Reg) :
    regs r = none := by
  obtain ⟨hl, hd, -⟩ := h.fine_of_proc hp (by simp)
  cases r with
  | lbuf => exact Option.map_eq_none_iff.mp hl
  | dbuf => exact Option.map_eq_none_iff.mp hd

end Consequences

end SummerOsk.Bio
