import SummerOsk.Bio.Defs

/-!
# The code of `commit`, run alone

While a process commits, it is the only one that writes the disk, changes the
header or drops pins, and the published contents do not change.  So what
`commit` does can be followed on a small state of its own: `View` has the disk,
the published contents, the header, the pinned blocks and the two buffers that
the process holds.

`Fine v is` says that the instructions `is` are safe from `v` on: a home block
is written with its published contents only, a buffer is unpinned once its
home block is up to date on disk, and the buffer of a log block is released
once it agrees with the disk.  `fine_commitProg` proves it of the whole code.
-/

namespace SummerOsk.Bio

open Lib Log Function List

/-- What the committing process owns. -/
structure View where
  disk : Nat → Block
  /-- The published contents of the home blocks. -/
  store : Nat → Block
  lh : List Nat
  pinned : List Nat
  /-- The block number and the data of the buffer in each register. -/
  lbuf : Option (Nat × Block)
  dbuf : Option (Nat × Block)

def View.reg (v : View) : Reg → Option (Nat × Block)
  | .lbuf => v.lbuf
  | .dbuf => v.dbuf

def View.setReg (v : View) (r : Reg) (x : Option (Nat × Block)) : View :=
  match r with
  | .lbuf => { v with lbuf := x }
  | .dbuf => { v with dbuf := x }

/-- What `bread` of block `b` returns to the committing process. -/
def View.contents (v : View) (start size b : Nat) : Block :=
  if InLog start size b then v.disk b else v.store b

/-- The instructions are safe to run. -/
def Fine (start size : Nat) : View → List Instr → Prop
  | v, [] => v.lbuf = none ∧ v.dbuf = none ∧ v.pinned = v.lh
  | v, .bread r b :: is =>
    v.reg r = none ∧ Fine start size (v.setReg r (some (b, v.contents start size b))) is
  | v, .memmove dst src :: is =>
    ∃ b x c y, v.reg dst = some (b, x) ∧ v.reg src = some (c, y) ∧
      (¬ InLog start size b → y = v.store b) ∧
      Fine start size (v.setReg dst (some (b, y))) is
  | v, .putHead r :: is =>
    ∃ b x, v.reg r = some (b, x) ∧ InLog start size b ∧
      Fine start size (v.setReg r (some (b, putHead x v.lh))) is
  | v, .bwrite r :: is =>
    ∃ b x, v.reg r = some (b, x) ∧ (¬ InLog start size b → x = v.store b) ∧
      Fine start size { v with disk := update v.disk b x } is
  | v, .bunpin r :: is =>
    ∃ b x, v.reg r = some (b, x) ∧ b ∈ v.pinned ∧ v.disk b = v.store b ∧
      Fine start size { v with pinned := v.pinned.erase b } is
  | v, .brelse r :: is =>
    ∃ b x, v.reg r = some (b, x) ∧ (InLog start size b → x = v.disk b) ∧
      Fine start size (v.setReg r none) is
  | v, .clear :: is => Fine start size { v with lh := [] } is

variable {start size tail : Nat} {disk store : Nat → Block} {lh pinned bs : List Nat}
  {rest : List Instr}

/-- `write_log` copies the published contents of the blocks to the log. -/
theorem fine_writeLogProg (hlen : tail + bs.length < size) (hbs : ∀ b ∈ bs, ¬ InLog start size b)
    (h : Fine start size
      ⟨applyWrites disk (copyWrites start store tail bs), store, lh, pinned, none, none⟩
      rest) :
    Fine start size ⟨disk, store, lh, pinned, none, none⟩
      (writeLogProg start tail bs ++ rest) := by
  induction bs generalizing disk tail with
  | nil => simpa [writeLogProg, copyWrites] using h
  | cons b bs ih =>
    rw [length_cons] at hlen
    have hlog : InLog start size (start + tail + 1) := ⟨by omega, by omega⟩
    have hb := hbs b mem_cons_self
    have hrest := ih (by omega) (fun x hx => hbs x (mem_cons_of_mem _ hx)) h
    refine ⟨rfl, rfl, _, _, _, _, rfl, rfl, fun hn => absurd hlog hn, _, _, rfl,
      fun hn => absurd hlog hn, _, _, rfl, fun hin => absurd hin hb, _, _, rfl, fun _ => ?_, ?_⟩
    · simp [View.contents, View.setReg, hb]
    · simpa [View.contents, View.setReg, hb] using hrest

/-- `write_head` writes the header and nothing else. -/
theorem fine_writeHeadProg (hsize : 0 < size)
    (h : Fine start size ⟨update disk start (putHead (disk start) lh), store, lh,
      pinned, none, none⟩ rest) :
    Fine start size ⟨disk, store, lh, pinned, none, none⟩ (writeHeadProg start ++ rest) := by
  have hlog : InLog start size start := ⟨le_refl _, by omega⟩
  refine ⟨rfl, _, _, rfl, hlog, _, _, rfl, fun hn => absurd hlog hn, _, _, rfl, fun _ => ?_, ?_⟩
  · simp [View.contents, View.setReg, hlog]
  · simpa [View.contents, View.setReg, hlog] using h

/-- `install_trans` writes the published contents home and unpins the blocks,
when the log has them. -/
theorem fine_installProg (hlen : tail + bs.length < size) (hbs : ∀ b ∈ bs, ¬ InLog start size b)
    (hlogged : installWrites start disk tail bs = bs.map fun b => (b, store b))
    (h : ∀ d, Fine start size ⟨d, store, lh, [], none, none⟩ rest) :
    Fine start size ⟨disk, store, lh, bs, none, none⟩ (installProg start tail bs ++ rest) := by
  induction bs generalizing disk tail with
  | nil => exact h disk
  | cons b bs ih =>
    rw [length_cons] at hlen
    have hlog : InLog start size (start + tail + 1) := ⟨by omega, by omega⟩
    have hb := hbs b mem_cons_self
    have hrest : ∀ x ∈ bs, ¬ InLog start size x :=
      fun x hx => hbs x (mem_cons_of_mem _ hx)
    rw [installWrites, map_cons, List.cons.injEq, Prod.mk.injEq] at hlogged
    obtain ⟨⟨-, hcopy⟩, htail⟩ := hlogged
    have hdisk : installWrites start (update disk b (store b)) (tail + 1) bs =
        bs.map fun b => (b, store b) := by
      rw [← htail]
      refine installWrites_congr (show tail + 1 + bs.length < size by omega) fun x hx => ?_
      have hxb : x ≠ b := by
        rintro rfl
        exact hb hx
      exact update_of_ne hxb _ _
    refine ⟨rfl, rfl, _, _, _, _, rfl, rfl, fun _ => ?_, _, _, rfl, fun _ => ?_, _, _, rfl,
      mem_cons_self, ?_, _, _, rfl, fun _ => ?_, _, _, rfl, fun hin => absurd hin hb, ?_⟩
    · simpa [View.contents, View.setReg, hlog] using hcopy
    · simpa [View.contents, View.setReg, hlog] using hcopy
    · simpa [View.contents, View.setReg, hlog] using hcopy
    · have hne : start + tail + 1 ≠ b := by
        rintro rfl
        exact hb hlog
      simp [View.contents, View.setReg, hlog, hne]
    · have hfine := ih (by omega) hrest hdisk
      simpa [View.contents, View.setReg, hlog, hcopy] using hfine

/-- The code of `commit` is safe when the header fits in the log and the
header is the list of the pinned blocks. -/
theorem fine_commitProg (hlen : lh.length < size) (hlh : ∀ b ∈ lh, ¬ InLog start size b) :
    Fine start size ⟨disk, store, lh, lh, none, none⟩ (commitProg start lh) := by
  unfold commitProg
  split_ifs with hpos
  · have hsize : 0 < size := by omega
    refine fine_writeLogProg (by omega) hlh (fine_writeHeadProg hsize
      (fine_installProg (by omega) hlh ?_ fun d => ?_))
    · exact installWrites_after_writeHead start disk store _ lh
    · exact fine_writeHeadProg hsize ⟨rfl, rfl, rfl⟩
  · exact ⟨rfl, rfl, rfl⟩

end SummerOsk.Bio
