import SummerOsk.Log.Defs
import SummerOsk.Lib.Disk
import Mathlib.Data.List.GetD

/-!
# The header block and the write lists of the log

`headList_putHead` says that `read_head` reads back what `write_head` wrote.
The spec lemmas `installFrom_eq`, `writeLogFrom_eq` and `writeHead_eq` then
give the state after each loop of `log.c` as a list of block writes, so that
the crash proofs never unfold a loop.
-/

namespace SummerOsk.Log

open Lib Function List

variable {i j : Nat} {lh : List Nat} {w : DiskWrite}

/-! ## The header codec -/

theorem putBlocks_of_lt (b : Block) {o : Nat} (xs : List Nat) (h : o < 4 + 4 * i) :
    putBlocks b i xs o = b o := by
  induction xs generalizing b i with
  | nil => rfl
  | cons x xs ih =>
    rw [putBlocks, ih _ (by omega)]
    exact putLE_of_not_mem b x (.inl h)

theorem headBlock_putBlocks_of_lt (b : Block) (xs : List Nat) (h : j < i) :
    headBlock (putBlocks b i xs) j = headBlock b j :=
  getLE_congr fun o _ ho => putBlocks_of_lt b xs (by omega)

theorem headBlock_putBlocks (b : Block) (i : Nat) (xs : List Nat) (h : j < xs.length) :
    headBlock (putBlocks b i xs) (i + j) = xs.getD j 0 % 2 ^ 32 := by
  induction xs generalizing b i j with
  | nil => simp at h
  | cons x xs ih =>
    rw [putBlocks]
    cases j with
    | zero =>
      have hi : i + 0 < i + 1 := by omega
      rw [headBlock_putBlocks_of_lt _ _ hi, Nat.add_zero, headBlock, getLE_putLE]
      rfl
    | succ j =>
      have hj : j < xs.length := by simpa using h
      rw [show i + (j + 1) = i + 1 + j by omega, ih _ _ hj]
      simp

/-- `lh->n` of the block that `write_head` builds. -/
theorem headN_putHead (b : Block) (h : lh.length ≤ LOGSIZE) : headN (putHead b lh) = lh.length := by
  have hlog : lh.length ≤ 30 := h
  have hput : getLE (putHead b lh) 0 4 = getLE (putLE b 0 4 lh.length) 0 4 :=
    getLE_congr fun o _ ho => putBlocks_of_lt _ lh (by omega)
  have hword : getLE (putHead b lh) 0 4 = lh.length := by
    rw [hput, getLE_putLE, Nat.mod_eq_of_lt (by omega)]
  rw [headN, getInt_of_lt (by rw [hword]; omega), hword]

/-- `read_head` reads back the header that `write_head` wrote. -/
theorem headList_putHead (b : Block) (h : lh.length ≤ LOGSIZE) (hb : ∀ x ∈ lh, x < 2 ^ 32) :
    headList (putHead b lh) = lh := by
  rw [headList, headN_putHead b h, Int.toNat_natCast]
  apply ext_getElem
  · simp
  · intro j hj hj'
    have hblock := headBlock_putBlocks (putLE b 0 4 lh.length) 0 lh hj'
    rw [Nat.zero_add, getD_eq_getElem _ _ hj', Nat.mod_eq_of_lt (hb _ (getElem_mem hj'))] at hblock
    simpa [putHead] using hblock

@[simp] theorem headList_putHead_nil (b : Block) : headList (putHead b []) = [] :=
  headList_putHead b (Nat.zero_le _) (by simp)

@[simp] theorem headN_putHead_nil (b : Block) : headN (putHead b []) = 0 :=
  headN_putHead b (Nat.zero_le _)

/-! ## The log area -/

/-- Block `b` lies in the log area. -/
def InLog (start size b : Nat) : Prop := start ≤ b ∧ b < start + size

instance (start size b : Nat) : Decidable (InLog start size b) :=
  inferInstanceAs (Decidable (_ ∧ _))

/-- The writes that install the entries `bs`, whose logged copies start at
index `tail`, from the disk `src`. -/
def installWrites (start : Nat) (src : Nat → Block) : Nat → List Nat → List DiskWrite
  | _, [] => []
  | tail, b :: bs => (b, src (start + tail + 1)) :: installWrites start src (tail + 1) bs

/-- The writes that copy the buffers of `bs` to the log from index `tail`
on. -/
def copyWrites (start : Nat) (src : Nat → Block) : Nat → List Nat → List DiskWrite
  | _, [] => []
  | tail, b :: bs => (start + tail + 1, src b) :: copyWrites start src (tail + 1) bs

theorem installWrites_map_fst (start : Nat) (src : Nat → Block) (tail : Nat)
    (bs : List Nat) : (installWrites start src tail bs).map Prod.fst = bs := by
  induction bs generalizing tail with
  | nil => rfl
  | cons b bs ih => simp [installWrites, ih]

variable {bs : List Nat} {src : Nat → Block} {tail start : Nat}

theorem mem_installWrites (h : w ∈ installWrites start src tail bs) : w.1 ∈ bs := by
  rw [← installWrites_map_fst start src tail bs]
  exact mem_map_of_mem h

theorem mem_copyWrites (h : w ∈ copyWrites start src tail bs) :
    start + tail < w.1 ∧ w.1 ≤ start + tail + bs.length := by
  induction bs generalizing tail with
  | nil => simp [copyWrites] at h
  | cons b bs ih =>
    rw [copyWrites, mem_cons] at h
    rw [length_cons]
    rcases h with rfl | h
    · exact ⟨by simp, by simp⟩
    · have hrest := ih h
      exact ⟨by omega, by omega⟩

/-- The install writes depend on the log area only. -/
theorem installWrites_congr {size : Nat} {src' : Nat → Block} (hlen : tail + bs.length < size)
    (h : ∀ b, InLog start size b → src b = src' b) :
    installWrites start src tail bs = installWrites start src' tail bs := by
  induction bs generalizing tail with
  | nil => rfl
  | cons b bs ih =>
    rw [length_cons] at hlen
    rw [installWrites, installWrites, ih (by omega), h _ ⟨by omega, by omega⟩]

/-- The logged copies that the copy writes leave behind are the ones that the
install writes bring home. -/
theorem installWrites_applyWrites_copyWrites (d src : Nat → Block) (bs : List Nat) :
    installWrites start (applyWrites d (copyWrites start src tail bs)) tail bs =
      bs.map fun b => (b, src b) := by
  induction bs generalizing d tail with
  | nil => rfl
  | cons b bs ih =>
    rw [copyWrites, installWrites, applyWrites_cons, ih, map_cons]
    rw [applyWrites_of_not_mem]
    · simp
    · intro w hw
      have := (mem_copyWrites hw).1
      omega

/-- The install writes do not depend on the header block. -/
theorem installWrites_update_start (start : Nat) (src : Nat → Block) (c : Block)
    (tail : Nat) (bs : List Nat) :
    installWrites start (update src start c) tail bs =
      installWrites start src tail bs := by
  induction bs generalizing tail with
  | nil => rfl
  | cons b bs ih =>
    have hne : start + tail + 1 ≠ start := by omega
    rw [installWrites, installWrites, ih, update_of_ne hne]

/-- The copies in the log after `write_log` and `write_head`. -/
theorem installWrites_after_writeHead (start : Nat) (d src : Nat → Block) (c : Block)
    (bs : List Nat) :
    installWrites start
        (update (applyWrites d (copyWrites start src 0 bs)) start c) 0 bs =
      bs.map fun b => (b, src b) := by
  rw [installWrites_update_start, installWrites_applyWrites_copyWrites]

/-! ## Spec lemmas for the loops -/

variable {s : LogState} {size : Nat}

/-- The pins after `bunpin` on each block of a list. -/
def unpinAll (pins : Nat → Int) (bs : List Nat) : Nat → Int :=
  bs.foldl (fun p b => update p b (p b - 1)) pins

theorem installFrom_eq (hlen : tail + bs.length < size) (hbs : ∀ b ∈ bs, ¬ InLog s.start size b) :
    s.installFrom tail bs =
      { s with
        disk := applyWrites s.disk (installWrites s.start s.data tail bs)
        data := applyWrites s.data (installWrites s.start s.data tail bs)
        writes := s.writes ++ installWrites s.start s.data tail bs
        pins := unpinAll s.pins bs } := by
  induction bs generalizing s tail with
  | nil => simp [LogState.installFrom, installWrites, unpinAll]
  | cons b bs ih =>
    rw [length_cons] at hlen
    have hb := hbs b mem_cons_self
    have hrest : ∀ x ∈ bs, ¬ InLog s.start size x :=
      fun x hx => hbs x (mem_cons_of_mem _ hx)
    have hcongr : installWrites s.start
        (update s.data b (s.data (s.start + tail + 1))) (tail + 1) bs =
        installWrites s.start s.data (tail + 1) bs := by
      have hlen' : tail + 1 + bs.length < size := by omega
      refine installWrites_congr hlen' fun x hx => ?_
      have hxb : x ≠ b := fun he => hb (he ▸ hx)
      exact update_of_ne hxb _ _
    rw [LogState.installFrom, ih (s := s.installStep tail b) (by omega) hrest]
    simp [LogState.installStep, LogState.setData, LogState.bwrite, LogState.bunpin,
      hcongr, installWrites, applyWrites_cons, unpinAll]

theorem writeLogFrom_eq (hlen : tail + bs.length < size) (hbs : ∀ b ∈ bs, ¬ InLog s.start size b) :
    s.writeLogFrom tail bs =
      { s with
        disk := applyWrites s.disk (copyWrites s.start s.data tail bs)
        data := applyWrites s.data (copyWrites s.start s.data tail bs)
        writes := s.writes ++ copyWrites s.start s.data tail bs } := by
  induction bs generalizing s tail with
  | nil => simp [LogState.writeLogFrom, copyWrites]
  | cons b bs ih =>
    rw [length_cons] at hlen
    have hrest : ∀ x ∈ bs, ¬ InLog s.start size x :=
      fun x hx => hbs x (mem_cons_of_mem _ hx)
    have hcongr : copyWrites s.start
        (update s.data (s.start + tail + 1) (s.data b)) (tail + 1) bs =
        copyWrites s.start s.data (tail + 1) bs := by
      have hkey : ∀ (tail' : Nat) (cs : List Nat),
          (∀ x ∈ cs, ¬ InLog s.start size x) →
          copyWrites s.start
            (update s.data (s.start + tail + 1) (s.data b)) tail' cs =
          copyWrites s.start s.data tail' cs := by
        intro tail' cs hcs
        induction cs generalizing tail' with
        | nil => rfl
        | cons c cs ihc =>
          have hc : c ≠ s.start + tail + 1 := fun he =>
            hcs c mem_cons_self ⟨by omega, by omega⟩
          rw [copyWrites, copyWrites,
            ihc (tail' + 1) (fun x hx => hcs x (mem_cons_of_mem _ hx)), update_of_ne hc]
      exact hkey (tail + 1) bs hrest
    rw [LogState.writeLogFrom, ih (s := s.writeLogStep tail b) (by omega) hrest]
    simp [LogState.writeLogStep, LogState.setData, LogState.bwrite, hcongr,
      copyWrites, applyWrites_cons]

theorem writeHead_eq : s.writeHead =
    { s with
      disk := update s.disk s.start (putHead (s.data s.start) s.lh)
      data := update s.data s.start (putHead (s.data s.start) s.lh)
      writes := s.writes ++ [(s.start, putHead (s.data s.start) s.lh)] } := by
  simp [LogState.writeHead, LogState.setData, LogState.bwrite]

end SummerOsk.Log
