import SummerOsk.Bio.BlockStore
import SummerOsk.Lib.Except
import Mathlib.Algebra.BigOperators.Fin

/-!
# Recovery and the reference counts

`initlog` runs at the boot, before there is a second process, so its calls of
`bread` and `brelse` run alone.  `install_trans` unpins the buffer of every home
block that it installs.  In `commit` that undoes the pin of `log_write`; at the
boot nobody has pinned anything, so each installed block leaves a reference too
few behind (`refSum_installFrom`).  `usable_iff` draws the line: the buffer
cache is usable after the recovery exactly when there was nothing to install.
-/

namespace SummerOsk.Bio

open Lib Log Function List

variable {ι κ : Type} [DecidableEq ι] [DecidableEq κ]

/-! ## The code -/

namespace BState

/-- `bread` by a process that runs alone.  If the buffer is locked, then nobody
will ever wake the process up. -/
def breadAlone (s : BState ι κ) (p : ι) (b : Nat) : Except String (κ × BState ι κ) := do
  let (i, s) ← s.bget b
  if (s.buf i).holder = none then
    return (i, (s.setBuf i { s.buf i with holder := some p }).fill i)
  else throw "acquiresleep"

/-- `brelse` by a process that runs alone. -/
def brelseAlone (s : BState ι κ) (p : ι) (i : κ) : Except String (BState ι κ) :=
  if (s.buf i).holder = some p then
    return (s.setBuf i { s.buf i with holder := none }).dropRef i
  else throw "brelse"

/-- `bwrite`. -/
def bwrite (s : BState ι κ) (p : ι) (i : κ) : Except String (BState ι κ) :=
  if (s.buf i).holder = some p then
    return { s with disk := update s.disk (s.buf i).blockno (s.buf i).data }
  else throw "bwrite"

/-- `bunpin`. -/
def bunpin (s : BState ι κ) (i : κ) : BState ι κ :=
  s.setBuf i { s.buf i with refcnt := (s.buf i).refcnt - 1 }

/-- One round of the loop of `install_trans`. -/
def installStep (s : BState ι κ) (p : ι) (tail b : Nat) : Except String (BState ι κ) := do
  let (lbuf, s) ← s.breadAlone p (s.start + tail + 1)
  let (dbuf, s) ← s.breadAlone p b
  let s ← (s.setBuf dbuf { s.buf dbuf with data := (s.buf lbuf).data }).bwrite p dbuf
  let s ← (s.bunpin dbuf).brelseAlone p lbuf
  s.brelseAlone p dbuf

/-- The loop of `install_trans`, from index `tail` on. -/
def installFrom (s : BState ι κ) (p : ι) (tail : Nat) : List Nat → Except String (BState ι κ)
  | [] => return s
  | b :: bs => do
    let s ← s.installStep p tail b
    s.installFrom p (tail + 1) bs

/-- `read_head`. -/
def readHead (s : BState ι κ) (p : ι) : Except String (BState ι κ) := do
  let (i, s) ← s.breadAlone p s.start
  { s with lh := headList (s.buf i).data }.brelseAlone p i

/-- `write_head`. -/
def writeHead (s : BState ι κ) (p : ι) : Except String (BState ι κ) := do
  let (i, s) ← s.breadAlone p s.start
  let s ← (s.setBuf i { s.buf i with data := Log.putHead (s.buf i).data s.lh }).bwrite p i
  s.brelseAlone p i

/-- `recover_from_log`. -/
def recoverFromLog (s : BState ι κ) (p : ι) : Except String (BState ι κ) := do
  let s ← s.readHead p
  let s ← s.installFrom p 0 s.lh
  { s with lh := [] }.writeHead p

/-- `initlog`, with the fields of the superblock that it reads. -/
def initlog (s : BState ι κ) (p : ι) (logstart nlog : Nat) : Except String (BState ι κ) :=
  if 4 + 4 * LOGSIZE ≥ BSIZE then throw "initlog: too big logheader"
  else { s with start := logstart, size := nlog }.recoverFromLog p

end BState

/-! ## The sum of the reference counts -/

variable {s t : BState ι κ} {p : ι} {i : κ} {b : Nat}

section Sum

variable [Fintype κ] {tail : Nat}

def refSum (s : BState ι κ) : Int := ∑ i, (s.buf i).refcnt

section

omit [DecidableEq ι]

theorem refSum_setBuf {x : Buf ι} {d : Int} (hx : x.refcnt = (s.buf i).refcnt + d) :
    refSum (s.setBuf i x) = refSum s + d := by
  have hother : ∀ j ∈ Finset.univ.erase i,
      ((s.setBuf i x).buf j).refcnt = (s.buf j).refcnt := by
    intro j hj
    simp only [BState.setBuf, update_of_ne (Finset.ne_of_mem_erase hj)]
  have hself : ((s.setBuf i x).buf i).refcnt = x.refcnt := by
    simp only [BState.setBuf, update_self]
  rw [refSum, refSum, ← Finset.sum_erase_add _ _ (Finset.mem_univ i),
    ← Finset.sum_erase_add Finset.univ (fun j => (s.buf j).refcnt) (Finset.mem_univ i),
    Finset.sum_congr rfl hother, hself, hx]
  omega

theorem refSum_bget (h : s.bget b = .ok (i, t)) : refSum t = refSum s + 1 := by
  rw [BState.bget] at h
  split at h
  · cases h
    exact refSum_setBuf rfl
  · split at h
    · rename_i hunused
      cases h
      have hzero : (s.buf i).refcnt = 0 := by
        simpa using find?_some hunused
      refine refSum_setBuf ?_
      rw [hzero]
      rfl
    · cases h

theorem refSum_fill (s : BState ι κ) (i : κ) : refSum (s.fill i) = refSum s := by
  rw [BState.fill]
  split_ifs
  · rfl
  · have hsum := refSum_setBuf (s := s) (i := i) (d := 0)
      (x := { s.buf i with data := s.disk (s.buf i).blockno, valid := true }) (Int.add_zero _).symm
    exact hsum.trans (Int.add_zero _)

theorem refSum_breadAlone (h : s.breadAlone p b = .ok (i, t)) : refSum t = refSum s + 1 := by
  obtain ⟨⟨j, u⟩, hget, h⟩ := bind_eq_ok.mp h
  simp only at h
  split_ifs at h
  cases h
  rw [refSum_fill, ← refSum_bget hget]
  have hsum := refSum_setBuf (s := u) (i := i) (d := 0) (x := { u.buf i with holder := some p })
    (Int.add_zero _).symm
  exact hsum.trans (Int.add_zero _)

theorem refSum_dropRef (s : BState ι κ) (i : κ) : refSum (s.dropRef i) = refSum s - 1 := by
  have hdrop : refSum (s.setBuf i { s.buf i with refcnt := (s.buf i).refcnt - 1 }) =
      refSum s + -1 := refSum_setBuf rfl
  rw [BState.dropRef]
  split_ifs
  · exact hdrop
  · exact hdrop

end

theorem refSum_brelseAlone (h : s.brelseAlone p i = .ok t) : refSum t = refSum s - 1 := by
  rw [BState.brelseAlone] at h
  split_ifs at h
  cases h
  have hlock : refSum (s.setBuf i { s.buf i with holder := none }) = refSum s + 0 :=
    refSum_setBuf (Int.add_zero _).symm
  rw [refSum_dropRef]
  omega

omit [DecidableEq κ] in
theorem refSum_bwrite (h : s.bwrite p i = .ok t) : refSum t = refSum s := by
  rw [BState.bwrite] at h
  split_ifs at h
  cases h
  rfl

/-- One round of `install_trans` takes two references, and drops three. -/
theorem refSum_installStep (h : s.installStep p tail b = .ok t) : refSum t = refSum s - 1 := by
  obtain ⟨⟨lbuf, s1⟩, h1, h⟩ := bind_eq_ok.mp h
  obtain ⟨⟨dbuf, s2⟩, h2, h⟩ := bind_eq_ok.mp h
  obtain ⟨s3, h3, h⟩ := bind_eq_ok.mp h
  obtain ⟨s4, h4, h⟩ := bind_eq_ok.mp h
  have e1 := refSum_breadAlone h1
  have e2 := refSum_breadAlone h2
  have e3 := refSum_bwrite h3
  have e4 := refSum_brelseAlone h4
  have e5 := refSum_brelseAlone h
  have hcopy : refSum (s2.setBuf dbuf { s2.buf dbuf with data := (s2.buf lbuf).data }) =
      refSum s2 + 0 := refSum_setBuf (Int.add_zero _).symm
  have hunpin : refSum (s3.bunpin dbuf) = refSum s3 + -1 := refSum_setBuf rfl
  omega

theorem refSum_installFrom {bs : List Nat} (h : s.installFrom p tail bs = .ok t) :
    refSum t = refSum s - bs.length := by
  induction bs generalizing s tail with
  | nil =>
    cases h
    simp
  | cons b bs ih =>
    obtain ⟨u, hstep, hrest⟩ := bind_eq_ok.mp h
    rw [ih hrest, refSum_installStep hstep, length_cons]
    omega

end Sum

/-! ## The use of one block -/

omit [DecidableEq ι] in
/-- A buffer for block `b`, when no buffer is referenced. -/
theorem BState.Init.bget [Nonempty κ] (h : s.Init) (b : Nat) :
    ∃ i x, s.bget b = .ok (i, s.setBuf i x) ∧ x.dev = ROOTDEV ∧ x.blockno = b ∧
      x.holder = none ∧ x.refcnt = 1 ∧ x.dirty = false ∧ (x.valid = true → x.data = s.disk b) ∧
      ∀ j, j ≠ i → ¬ s.Caches j b := by
  rw [BState.bget]
  cases hcached : s.cached b with
  | some i =>
    have hi : s.Caches i b := by simpa [BState.Caches] using find?_some hcached
    obtain ⟨href, hholder, hdirty⟩ := h.unreferenced i
    refine ⟨i, _, rfl, hi.1, hi.2, hholder, ?_, hdirty, fun hv => ?_, fun j hj hc => ?_⟩
    · simp [href]
    · rw [← hi.2]
      exact h.coherent i hv hi.1
    · exact hj (h.unique j i hc.1 hi.1 (hc.2.trans hi.2.symm))
  | none =>
    have hnone : ∀ j, ¬ s.Caches j b := by
      intro j hj
      have := find?_eq_none.mp hcached j (h.lru_all j)
      simp [hj.1, hj.2] at this
    cases hunused : s.unused with
    | some i =>
      obtain ⟨-, hholder, hdirty⟩ := h.unreferenced i
      refine ⟨i, _, rfl, rfl, rfl, hholder, rfl, hdirty, fun hv => ?_, fun j _ => hnone j⟩
      cases hv
    | none =>
      obtain ⟨i⟩ := ‹Nonempty κ›
      have := find?_eq_none.mp hunused i (mem_reverse.mpr (h.lru_all i))
      simp [(h.unreferenced i).1] at this

/-- A buffer of block `b` with the contents `x` and a reference of process
`p`. -/
def lockedBuf (p : ι) (b : Nat) (x : Block) : Buf ι :=
  { valid := true, dev := ROOTDEV, blockno := b, holder := some p, refcnt := 1, data := x
    dirty := false }

omit [DecidableEq ι] in
theorem BState.Init.breadAlone [Nonempty κ] (h : s.Init) (p : ι) (b : Nat) :
    ∃ i, s.breadAlone p b = .ok (i, s.setBuf i (lockedBuf p b (s.disk b))) ∧
      ∀ j, j ≠ i → ¬ s.Caches j b := by
  obtain ⟨i, x, hget, hdev, hblock, hholder, href, hdirty, hdata, hother⟩ := h.bget b
  refine ⟨i, ?_, hother⟩
  rw [BState.breadAlone, hget]
  simp only [bind, Except.bind, BState.setBuf, update_self, update_idem, BState.fill]
  obtain ⟨valid, dev, blockno, holder, refcnt, data, dirty⟩ := x
  simp only at hdev hblock hholder href hdirty hdata
  subst hdev hblock hholder href hdirty
  cases valid with
  | true => simp [lockedBuf, hdata, pure, Except.pure]
  | false => simp [lockedBuf, pure, Except.pure]

/-- The state after block `b` was read, given the contents `x`, written to the
disk and released. -/
def BState.stored (s : BState ι κ) (i : κ) (b : Nat) (x : Block) : BState ι κ :=
  { s with
    buf := update s.buf i
      { valid := true, dev := ROOTDEV, blockno := b, holder := none, refcnt := 0, data := x
        dirty := false }
    disk := update s.disk b x
    lru := i :: s.lru.erase i }

omit [DecidableEq ι] in
theorem BState.Init.stored (h : s.Init) (hother : ∀ j, j ≠ i → ¬ s.Caches j b) (x : Block) :
    (s.stored i b x).Init where
  idle := h.idle
  running := h.running
  lh_nil := h.lh_nil
  outstanding_zero := h.outstanding_zero
  not_committing := h.not_committing
  lru_all j := by
    by_cases hj : j = i
    · rw [hj]
      exact mem_cons_self
    · exact mem_cons_of_mem _ ((mem_erase_of_ne hj).mpr (h.lru_all j))
  unreferenced j := by
    by_cases hj : j = i
    · simp [BState.stored, hj]
    · simpa [BState.stored, hj] using h.unreferenced j
  unique j k hj hk hjk := by
    by_cases hji : j = i
    · by_cases hki : k = i
      · rw [hji, hki]
      · simp [BState.stored, hji, hki] at hk hjk
        exact absurd ⟨hk, hjk.symm⟩ (hother k hki)
    · by_cases hki : k = i
      · simp [BState.stored, hji, hki] at hj hjk
        exact absurd ⟨hj, hjk⟩ (hother j hji)
      · simp [BState.stored, hji, hki] at hj hk hjk
        exact h.unique j k hj hk hjk
  coherent j hv hdev := by
    by_cases hj : j = i
    · simp [BState.stored, hj]
    · simp [BState.stored, hj] at hv hdev ⊢
      have hne : (s.buf j).blockno ≠ b := fun he => hother j hj ⟨hdev, he⟩
      rw [update_of_ne hne]
      exact h.coherent j hv hdev
  pinned_nil := h.pinned_nil
  trace_nil := h.trace_nil

theorem brelseAlone_locked (s : BState ι κ) (p : ι) (i : κ) (b : Nat) (x : Block) :
    ({ s.setBuf i (lockedBuf p b x) with disk := update s.disk b x }).brelseAlone p i =
      .ok (s.stored i b x) := by
  simp [BState.brelseAlone, BState.setBuf, lockedBuf, BState.dropRef, BState.stored, pure,
    Except.pure]

/-- Read block `b` and set the header by what it contains. -/
theorem BState.Init.readAlone [Nonempty κ] (h : s.Init) (p : ι) (b : Nat) (f : Block → List Nat) :
    ∃ i, (do
        let (i, s) ← s.breadAlone p b
        { s with lh := f (s.buf i).data }.brelseAlone p i) =
        .ok { s.stored i b (s.disk b) with lh := f (s.disk b) } ∧
      ∀ j, j ≠ i → ¬ s.Caches j b := by
  obtain ⟨i, hread, hother⟩ := h.breadAlone p b
  refine ⟨i, ?_, hother⟩
  have hdata : ((s.setBuf i (lockedBuf p b (s.disk b))).buf i).data = s.disk b := by
    simp [BState.setBuf, lockedBuf]
  have hrel := brelseAlone_locked { s with lh := f (s.disk b) } p i b (s.disk b)
  rw [update_eq_self] at hrel
  rw [hread]
  simp only [bind, Except.bind, hdata]
  exact hrel

theorem BState.Init.readHead [Nonempty κ] (h : s.Init) (p : ι) :
    ∃ i, s.readHead p =
        .ok { s.stored i s.start (s.disk s.start) with lh := headList (s.disk s.start) } ∧
      ∀ j, j ≠ i → ¬ s.Caches j s.start :=
  h.readAlone p s.start headList

theorem BState.Init.writeHead [Nonempty κ] (h : s.Init) (p : ι) :
    ∃ i x, s.writeHead p = .ok (s.stored i s.start x) ∧ ∀ j, j ≠ i → ¬ s.Caches j s.start := by
  obtain ⟨i, hread, hother⟩ := h.breadAlone p s.start
  refine ⟨i, Log.putHead (s.disk s.start) s.lh, ?_, hother⟩
  have hrel := brelseAlone_locked s p i s.start (Log.putHead (s.disk s.start) s.lh)
  rw [BState.writeHead, hread]
  simp only [bind, Except.bind, BState.setBuf, update_self, update_idem,
    BState.bwrite, lockedBuf, if_true, pure, Except.pure]
  exact hrel

theorem refSum_writeHead [Fintype κ] (h : s.writeHead p = .ok t) : refSum t = refSum s := by
  obtain ⟨⟨i, s1⟩, h1, h⟩ := bind_eq_ok.mp h
  obtain ⟨s2, h2, h⟩ := bind_eq_ok.mp h
  have e1 := refSum_breadAlone h1
  have e2 := refSum_bwrite h2
  have e3 := refSum_brelseAlone h
  have hput : refSum (s1.setBuf i { s1.buf i with data := Log.putHead (s1.buf i).data s1.lh }) =
      refSum s1 + 0 := refSum_setBuf (Int.add_zero _).symm
  omega

omit [DecidableEq ι] [DecidableEq κ] in
theorem BState.Init.refSum_eq [Fintype κ] (h : s.Init) : refSum s = 0 :=
  Finset.sum_eq_zero fun i _ => (h.unreferenced i).1

/-! ## After the recovery -/

/-- The cache can be used: no buffer is referenced, and in every run from here
on a locked buffer has a reference and is not recycled for another block. -/
def Usable [Fintype κ] (t : BState ι κ) : Prop :=
  (∀ i, (t.buf i).refcnt = 0) ∧
    ∀ as u, (blockLayer ι κ).run t as = some u → u.panicked = none →
      (∀ i q, (u.buf i).holder = some q → 0 < (u.buf i).refcnt) ∧
        ∀ b i v, u.bget b = .ok (i, v) → (u.buf i).holder ≠ none → u.Caches i b

/-- The buffers after the boot, when nothing was left to install, are usable. -/
theorem BState.Init.usable [Fintype ι] {s : BState ι (Fin NBUF)} (h : s.Init)
    (hsize : LOGSIZE ≤ s.size) : Usable s := by
  refine ⟨fun i => (h.unreferenced i).1, fun as u hrun hpan => ?_⟩
  have hcard : Fintype.card (Fin NBUF) ≤ s.size := by
    exact hsize
  have hinv := (inv_of_run h hcard (lt_of_lt_of_le (by decide) hsize) hrun).2 hpan
  have hpos : ∀ i q, (u.buf i).holder = some q → 0 < (u.buf i).refcnt := by
    intro i q hq
    have := hinv.refs.holder_pos hq
    omega
  refine ⟨hpos, fun b i v hget hheld => ?_⟩
  obtain ⟨q, hq⟩ := Option.ne_none_iff_exists'.mp hheld
  rw [BState.bget] at hget
  split at hget
  · rename_i hcached
    cases hget
    simpa [BState.Caches] using find?_some hcached
  · split at hget
    · rename_i hunused
      cases hget
      have hzero : (u.buf i).refcnt = 0 := by simpa using find?_some hunused
      have := hpos i q hq
      omega
    · cases hget

section

variable [Fintype κ] {lh : List Nat} (hstored : (s.stored i s.start (s.disk s.start)).Init)
  (hread : s.readHead p = .ok { s.stored i s.start (s.disk s.start) with lh := lh })
include hstored hread

/-- The sum of the counts after the recovery is the number of installed blocks,
negated. -/
theorem refSum_recoverFromLog (hrec : s.recoverFromLog p = .ok t) :
    refSum t = -(lh.length : Int) := by
  obtain ⟨s1, h1, hrest⟩ := bind_eq_ok.mp hrec
  rw [hread] at h1
  cases h1
  obtain ⟨s2, h2, h3⟩ := bind_eq_ok.mp hrest
  have e1 := hstored.refSum_eq
  have e2 := refSum_installFrom h2
  change refSum s2 = refSum (s.stored i s.start (s.disk s.start)) - (lh.length : Int) at e2
  have e3 := refSum_writeHead h3
  change refSum t = refSum s2 at e3
  rw [e3, e2, e1, Int.zero_sub]

omit [Fintype κ] in
/-- Without blocks to install, the recovery rewrites the header. -/
theorem recoverFromLog_nil [Nonempty κ] (hnil : lh = []) :
    ∃ t, s.recoverFromLog p = .ok t ∧ t.Init ∧ t.size = s.size := by
  have hsame : ({ s.stored i s.start (s.disk s.start) with lh := [] } : BState ι κ) =
      s.stored i s.start (s.disk s.start) := by
    rw [← hstored.lh_nil]
  rw [hnil, hsame] at hread
  obtain ⟨j, x, hwrite, hother⟩ := hstored.writeHead p
  refine ⟨_, ?_, hstored.stored hother x, rfl⟩
  rw [BState.recoverFromLog, hread]
  simp only [bind, Except.bind]
  rw [hstored.lh_nil]
  simp only [BState.installFrom, pure, Except.pure]
  rw [hsame]
  exact hwrite

end

theorem headList_length (x : Block) : (headList x).length = (headN x).toNat := by
  simp [headList]

/-- The buffer cache is usable after `initlog` if and only if there was no
committed transaction to install. -/
theorem usable_iff [Fintype ι] {s : BState ι (Fin NBUF)} (h : s.Init) (p : ι)
    {logstart nlog : Nat} (hsize : LOGSIZE ≤ nlog) :
    (∃ t, s.initlog p logstart nlog = .ok t ∧ Usable t) ↔ headN (s.disk logstart) ≤ 0 := by
  have hinit : BState.Init { s with start := logstart, size := nlog } :=
    ⟨h.idle, h.running, h.lh_nil, h.outstanding_zero, h.not_committing, h.lru_all,
      h.unreferenced, h.unique, h.coherent, h.pinned_nil, h.trace_nil⟩
  have : Nonempty (Fin NBUF) := ⟨⟨0, by decide⟩⟩
  obtain ⟨i, hread, hother⟩ := hinit.readHead p
  have hstored := hinit.stored hother (s.disk logstart)
  have hlength := headList_length (s.disk logstart)
  have hcode : s.initlog p logstart nlog =
      ({ s with start := logstart, size := nlog } : BState ι (Fin NBUF)).recoverFromLog p :=
    if_neg (by decide)
  constructor
  · rintro ⟨t, hrec, hzero, -⟩
    have hsum := refSum_recoverFromLog hstored hread hrec
    have hnone : refSum t = 0 := Finset.sum_eq_zero fun j _ => hzero j
    simp only [hnone, hlength] at hsum
    omega
  · intro hn
    have hnil : headList (s.disk logstart) = [] := by
      rw [← length_eq_zero_iff, hlength]
      omega
    obtain ⟨t, hrec, htinit, htsize⟩ := recoverFromLog_nil hstored hread hnil
    exact ⟨t, hrec, htinit.usable (htsize ▸ hsize)⟩

theorem usable_iff_empty : ∃ t : BState Bool (Fin NBUF),
    (BState.booted (fun _ _ => 0) 0 0).initlog false 2 LOGSIZE = .ok t ∧ Usable t :=
  (usable_iff (BState.booted_init _ 0 0) false (le_refl LOGSIZE)).mpr (by decide)

/-- A disk whose log has one committed block, with the home block 46. -/
def committedDisk (b : Nat) : Block := if b = 2 then Log.putHead (fun _ => 0) [46] else fun _ => 0

/-- The recovery leaves buffer 2, that of block 46, with the count -1.  Then a
process that has locked it has no reference, and the next `bget` takes the
buffer away from it. -/
theorem recovered_buffer_recycled : ∃ (t u v : BState Bool (Fin NBUF)) (i : Fin NBUF),
    (BState.booted committedDisk 0 0).initlog false 2 LOGSIZE = .ok t ∧
      (t.buf i).refcnt % 2 ^ 32 = 2 ^ 32 - 1 ∧
      (blockLayer Bool (Fin NBUF)).run t [.bget true 46, .acquiresleep true, .bread true] =
        some u ∧
      (u.buf i).holder = some true ∧ (u.buf i).blockno = 46 ∧ (u.buf i).refcnt = 0 ∧
      u.bget 50 = .ok (i, v) ∧ (v.buf i).holder = some true ∧ (v.buf i).blockno = 50 :=
  ⟨_, _, _, ⟨2, by decide⟩, rfl, rfl, rfl, rfl, rfl, rfl, rfl, rfl, rfl⟩

end SummerOsk.Bio
