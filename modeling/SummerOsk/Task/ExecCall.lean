import SummerOsk.Task.Spaces

/-!
# `exec` with the file system

`execCall` is `exec` with its calls of the file system: the operation of the
log, the inode and its lock.  It is the `exec` on the contents of the file
(`wp_execCall`), since every way out gives back the lock, the reference and the
operation.  So it does not panic, and when it fails the caller has what it had.
-/

namespace SummerOsk.Task

open Lib Vm Function

/-! ## The file system and the name -/

/-- The file system as `exec` uses it; `Task.ExecFs` compares it with `Fs`. -/
structure FsView where
  /-- The inode that a path names. -/
  lookup : List UInt8 → Option Nat
  contents : Nat → List UInt8
  ref : Nat → Nat
  /-- The inodes whose sleep-lock is held. -/
  locked : Nat → Bool
  /-- The operations of the log that are open. -/
  outstanding : Nat

/-- The file that a path names. -/
def FsView.file (fs : FsView) (path : List UInt8) : Option (List UInt8) :=
  (fs.lookup path).map fs.contents

structure Kernel where
  sys : Sys
  fs : FsView
  /-- `char name[16]` of each process. -/
  name : Fin NPROC → Bytes

abbrev ExecM (α : Type) : Type := Prog Stop Kernel α

/-- Run a function of `vm.c`. -/
def onMem {α : Type} (x : VmM α) : ExecM α :=
  zoom (fun k => k.sys.mem) (fun k m => { k with sys := { k.sys with mem := m } }) x

def modifyFs (f : FsView → FsView) : ExecM Unit := modify fun k => { k with fs := f k.fs }

def beginOp : ExecM Unit := modifyFs fun fs => { fs with outstanding := fs.outstanding + 1 }

def endOp : ExecM Unit := modifyFs fun fs => { fs with outstanding := fs.outstanding - 1 }

/-- `namei`, which takes a reference to what it returns. -/
def namei (path : List UInt8) : ExecM (Option Nat) := do
  match (← get).fs.lookup path with
  | none => return none
  | some ip =>
    modifyFs fun fs => { fs with ref := update fs.ref ip (fs.ref ip + 1) }
    return some ip

/-- `ilock`, which sleeps while the lock is held. -/
def ilock (ip : Nat) : ExecM Unit := do
  if (← get).fs.locked ip then throw .sleep
  else modifyFs fun fs => { fs with locked := update fs.locked ip true }

def iunlockput (ip : Nat) : ExecM Unit :=
  modifyFs fun fs => { fs with
    locked := update fs.locked ip false
    ref := update fs.ref ip (fs.ref ip - 1) }

/-- The loop over the path for the last name in it. -/
def lastName : List UInt8 → List UInt8 → List UInt8
  | [], last => last
  | c :: s, last => lastName s (if c = 47 then s else last)

/-- The name of a program, over that of the one before. -/
def programName (name : Bytes) (path : List UInt8) : Bytes :=
  safestrcpy name 0 (fun i => (lastName path path).getD i 0) 0 16

/-- Save the name of the program. -/
def saveName (p : Fin NPROC) (path : List UInt8) : ExecM Unit :=
  modify fun k => { k with name := update k.name p (programName (k.name p) path) }

/-- Write words of the trapframe. -/
def modifyTf (tf : Nat) (f : Bytes → Bytes) : ExecM Unit :=
  onMem (modify fun m => m.setPage tf (f (m.page tf)))

/-- Write fields of `p`. -/
def modifyTask (p : Fin NPROC) (f : Proc → Proc) : ExecM Unit :=
  modify fun k => { k with sys := { k.sys with
    proc := update k.sys.proc p (f (k.sys.proc p)) } }

/-- `exec`. -/
def execCall (p : Fin NPROC) (path : List UInt8) (argv : List (List UInt8)) : ExecM Int := do
  beginOp
  match ← namei path with
  | none =>
    endOp
    return -1
  | some ip =>
    ilock ip
    let k ← get
    let bs := k.fs.contents ip
    if goodHeader bs = false then
      iunlockput ip
      endOp
      return -1
    else
      let pr := k.sys.proc p
      let pt ← onMem (procPagetable k.sys.trampoline pr.tf)
      let (ok, sz) ← onMem
        (loadSegments pt bs (fileWord bs 56 2) (fileWord bs 32 8 % 2 ^ 32) 0)
      if ok = false then
        onMem (procFreepagetable pt sz)
        iunlockput ip
        endOp
        return -1
      else
        iunlockput ip
        endOp
        let (sp, sz) ← onMem (setupStack pt sz argv)
        match sp with
        | none =>
          onMem (procFreepagetable pt sz)
          return -1
        | some sp =>
          modifyTf pr.tf fun b => putLE b 120 8 sp
          saveName p path
          modifyTask p fun pr => { pr with pagetable := pt, sz := sz }
          modifyTf pr.tf fun b => putLE (putLE b 24 8 (fileWord bs 24 8)) 48 8 sp
          onMem (procFreepagetable pr.pagetable pr.sz)
          return argv.length

/-! ## The two models of `exec` -/

variable {k k' : Kernel} {p : Fin NPROC} {path : List UInt8} {argv : List (List UInt8)}
variable {E : Stop → Prop} {Q : Int → Kernel → Prop} {ip : Nat} {bs : List UInt8}

@[simp] theorem wp_onMem {α : Type} (x : VmM α) {Q : α → Kernel → Prop} :
    wp (onMem x) k Q E ↔
      wp x k.sys.mem (fun a m => Q a { k with sys := { k.sys with mem := m } }) E := wp_zoom x

/-- The name of `p` after an `exec` that returned `r`. -/
def nameAfter (k : Kernel) (p : Fin NPROC) (path : List UInt8) (r : Int) : Fin NPROC → Bytes :=
  if r = -1 then k.name else update k.name p (programName (k.name p) path)

/-- The lock, the reference and the operation are given back. -/
theorem fs_restored {fs : FsView} (h : fs.locked ip = false) :
    ({ fs with
      outstanding := fs.outstanding + 1 - 1
      locked := update (update fs.locked ip true) ip false
      ref := update (update fs.ref ip (fs.ref ip + 1)) ip
        (update fs.ref ip (fs.ref ip + 1) ip - 1) } : FsView) = fs := by
  rw [update_self, update_idem, update_idem, Nat.add_sub_cancel,
    Nat.add_sub_cancel, ← h, update_eq_self, update_eq_self]

theorem setPage_setPage (m : Mem) (q : Nat) (x y : Bytes) :
    (m.setPage q x).setPage q y = m.setPage q y := by
  unfold Mem.setPage
  rw [update_idem]

/-- `execCall` is `exec` on the file that the path names. -/
theorem wp_execCall (hfree : ∀ ip, k.fs.lookup path = some ip → k.fs.locked ip = false) :
    wp (execCall p path argv) k Q E ↔
      wp (exec p (k.fs.file path) argv) k.sys
        (fun r s' => Q r { k with sys := s', name := nameAfter k p path r }) E := by
  unfold execCall exec FsView.file
  cases hl : k.fs.lookup path with
  | none =>
    simp only [beginOp, endOp, modifyFs, namei, wp_bind, wp_modify, wp_get, hl, wp_pure,
      Option.map_none, Nat.add_sub_cancel, nameAfter, if_pos]
  | some ip =>
    have hlock := hfree ip hl
    have hback := fs_restored hlock
    simp only [beginOp, modifyFs, namei, ilock, wp_bind, wp_modify, wp_get, hl, wp_pure,
      Option.map_some, hlock, Bool.false_eq_true, if_false]
    by_cases hgood : goodHeader (k.fs.contents ip) = false
    · rw [if_pos hgood, if_pos hgood]
      simp only [iunlockput, endOp, modifyFs, wp_bind, wp_modify, wp_pure, hback]
      rfl
    · rw [if_neg hgood, if_neg hgood]
      simp only [wp_bind, wp_onMem, wp_get, wp_getProc, wp_vm, execImage]
      refine wp_congr fun pt m1 => wp_congr fun r m2 => ?_
      obtain ⟨ok, sz⟩ := r
      cases ok with
      | false =>
        rw [if_pos rfl, if_pos rfl]
        simp only [iunlockput, endOp, modifyFs, wp_bind, wp_onMem, wp_modify, wp_pure, hback]
        rfl
      | true =>
        dsimp only
        rw [if_neg (by decide), if_neg (by decide)]
        simp only [iunlockput, endOp, modifyFs, wp_bind, wp_onMem, wp_modify, hback]
        refine wp_congr fun r m3 => ?_
        obtain ⟨sp, sz'⟩ := r
        cases sp with
        | none =>
          simp only [wp_bind, wp_onMem, wp_pure]
          rfl
        | some sp =>
          have hret : nameAfter k p path (argv.length : Int) =
              update k.name p (programName (k.name p) path) := if_neg (by omega)
          simp only [modifyTf, saveName, modifyTask, wp_bind, wp_onMem, wp_modify, wp_pure, wp_vm,
            wp_modifyProc, Mem.page_setPage_self, setPage_setPage, hret]

/-- A lock that another process holds. -/
theorem wp_execCall_locked (hl : k.fs.lookup path = some ip) (hlock : k.fs.locked ip) :
    wp (execCall p path argv) k Q E ↔ E .sleep := by
  unfold execCall
  simp only [beginOp, modifyFs, namei, ilock, wp_bind, wp_modify, wp_get, hl, wp_pure, hlock,
    if_true, wp_throw]

/-! ## A failed call -/

/-- The caller has all that it had: the fields of its slot, with the page table,
the size and the open files, its memory, its trapframe and its name; and the
file system has the references, the locks and the operations that it had. -/
structure CallerKept (k k' : Kernel) (p : Fin NPROC) : Prop where
  fs : k'.fs = k.fs
  name : k'.name = k.name
  proc : k'.sys.proc = k.sys.proc
  file : k'.sys.file = k.sys.file
  pipe : k'.sys.pipe = k.sys.pipe
  map : k'.sys.mem.entry (k.sys.proc p).pagetable = k.sys.mem.entry (k.sys.proc p).pagetable
  memory : k'.sys.mem.user (k.sys.proc p).pagetable = k.sys.mem.user (k.sys.proc p).pagetable
  pages : ∀ q ∈ (k.sys.proc p).pages k.sys.mem, k'.sys.mem.page q = k.sys.mem.page q
  trapframe : k'.sys.mem.page (k.sys.proc p).tf = k.sys.mem.page (k.sys.proc p).tf

theorem Untouched.callerKept {s' : Sys} (h : Untouched k.sys s') (hinv : Inv k.sys)
    (hp : (k.sys.proc p).state = .live) :
    CallerKept k { k with sys := s', name := nameAfter k p path (-1) } p := by
  have hused : (k.sys.proc p).state ≠ .unused := by
    rw [hp]
    decide
  have hsound := hinv.mem.sound p hused
  obtain ⟨⟨m', rfl⟩, hpage⟩ := h
  have hpages : ∀ q ∈ (k.sys.proc p).pages k.sys.mem, m'.page q = k.sys.mem.page q := fun q hq =>
    hpage q (hinv.mem.parted.held (some p) q (by rw [Sys.hold_used hused]; exact hq)).2
  have hholds : ∀ q ∈ k.sys.mem.holds (k.sys.proc p).pagetable (pages (k.sys.proc p).sz),
      m'.page q = k.sys.mem.page q := fun q hq => hpages q (.inr hq)
  exact ⟨rfl, rfl, rfl, rfl, rfl, entry_frame fun q hq => hholds q (.inl hq),
    user_frame hsound.space (procTop_guarded _ _) hholds, hpages, hpages _ (.inl rfl)⟩

/-- `exec` does not panic, and when it returns -1 nothing of the caller has
changed.  It may wait for the lock of the inode. -/
theorem exec_robust_and_atomic (path : List UInt8) (argv : List (List UInt8)) (h : Inv k.sys)
    (hp : (k.sys.proc p).state = .live) (hcan : CanExec k.sys.mem (k.fs.file path)) :
    wp (execCall p path argv) k
      (fun r k' => k'.fs = k.fs ∧ (r = -1 → CallerKept k k' p))
      fun e => e = .sleep ∧ ∃ ip, k.fs.lookup path = some ip ∧ k.fs.locked ip = true := by
  by_cases hfree : ∀ ip, k.fs.lookup path = some ip → k.fs.locked ip = false
  · rw [wp_execCall hfree]
    refine wp_imp (exec_spec _ argv h hp hcan) (fun r s' hr => ⟨rfl, fun hret => ?_⟩)
      fun _ hf => hf.elim
    obtain ⟨-, ⟨rfl, hsame⟩ | ⟨hlen, -⟩⟩ := hr
    · exact hsame.callerKept h hp
    · omega
  · push Not at hfree
    obtain ⟨ip, hl, hlock⟩ := hfree
    replace hlock : k.fs.locked ip = true := by simpa using hlock
    rw [wp_execCall_locked hl hlock]
    exact ⟨rfl, ip, hl, hlock⟩

/-- A file system in which every path names a file with the contents `bs`. -/
def oneFile (bs : List UInt8) : FsView where
  lookup := fun _ => some 0
  contents := fun _ => bs
  ref := fun _ => 0
  locked := fun _ => false
  outstanding := 0

/-- The first process, with `bs` for every file. -/
def booted (s : Sys) (bs : List UInt8) : Kernel := ⟨s, oneFile bs, fun _ _ => 0⟩

/-- The first process has memory for `exec`. -/
def canStart (s : Sys) : Bool := (s.proc slot0).state = .live ∧ 3 ≤ s.mem.free.length

set_option maxRecDepth 20000 in
theorem exec_robust_at_boot : ∃ s₀, userinit (blank bootMem 0x80007000) = .ok ((), s₀) ∧
    ∀ bs path argv, ∃ r k', execCall slot0 path argv (booted s₀ bs) = .ok (r, k') ∧
      (r = -1 → CallerKept (booted s₀ bs) k' slot0) := by
  have hboots : boots ProcPagetableSucceeds [] canStart = true := by decide +kernel
  obtain ⟨s₀, s, hinit, hrun, -, htest⟩ := boots_cases hboots
  obtain rfl : s₀ = s := by simpa using hrun
  obtain ⟨hlive, hcount⟩ := of_decide_eq_true htest
  have hinv := (wp_ok (userinit_spec bootMem_free (by decide) (by decide)) hinit).1
  refine ⟨s₀, hinit, fun bs path argv => ?_⟩
  have hwp := exec_robust_and_atomic (k := booted s₀ bs) path argv hinv hlive fun _ _ _ => hcount
  obtain ⟨r, k', hrun', -, hkept⟩ := wp_returns (wp_imp hwp (fun _ _ hr => hr) fun e he => by
    obtain ⟨-, ip, -, hlock⟩ := he
    cases hlock)
  exact ⟨r, k', hrun', hkept⟩

/-! ## The arguments -/

/-- Whether `exec` gets the two pages for the stack. -/
def stackReached (trampoline tf : Nat) (bs : List UInt8) : VmM Bool := do
  let pt ← procPagetable trampoline tf
  let (ok, sz) ← loadSegments pt bs (fileWord bs 56 2) (fileWord bs 32 8 % 2 ^ 32) 0
  if ok = false then return false
  else
    let sz := pgroundup sz
    let sz ← uvmalloc pt sz ((sz + 2 * PGSIZE) % 2 ^ 64)
    return sz ≠ 0

/-- `exec` of the file `bs` gets as far as the stack. -/
def StackReached (s : Sys) (p : Fin NPROC) (bs : List UInt8) : Prop :=
  goodHeader bs = true ∧
    wp (stackReached s.trampoline (s.proc p).tf bs) s.mem (fun r _ => r = true) fun _ => False

variable {s : Sys} {m : Mem} {pt : Nat} {top : Nat → Option Nat}

/-- After the stack pages are there, the size is not zero. -/
theorem setupStack_size {sz : Nat} (argv : List (List UInt8))
    (h : wp (uvmalloc pt (pgroundup sz) ((pgroundup sz + 2 * PGSIZE) % 2 ^ 64)) m
      (fun sz _ => sz ≠ 0) fun _ => False) :
    wp (setupStack pt sz argv) m (fun r _ => r.2 ≠ 0) fun _ => True := by
  unfold setupStack
  rw [wp_bind]
  refine wp_imp h (fun sz1 m1 hsz => ?_) fun _ hf => hf.elim
  rw [if_neg hsz, wp_bind]
  generalize sz1 - PGSIZE = base
  generalize sz1 - 2 * PGSIZE = guard
  refine wp_mono (wp_true _ _) fun _ m2 _ => ?_
  refine wp_seq (wp_true _ _) fun r m3 _ => ?_
  cases r with
  | none => exact hsz
  | some r =>
    refine wp_ite (fun _ => hsz) fun _ => ?_
    refine wp_seq (wp_true _ _) fun _ m4 _ => ?_
    exact wp_ite (fun _ => hsz) fun _ => hsz

/-- With the stack pages there, `exec` fails exactly when the arguments do not
fit. -/
theorem execImage_fails_iff {trampoline tf : Nat} (hfree : m.FreeList) (hcount : 3 ≤ m.free.length)
    (htr : trampoline < 2 ^ 64) (htf : tf < 2 ^ 64)
    (hreach : wp (stackReached trampoline tf bs) m (fun r _ => r = true) fun _ => False)
    (hshort : Short argv) (hlen : argv.length < MAXARG) :
    wp (execImage trampoline tf bs argv) m
      (fun r _ => r = none ↔ PGSIZE < stackSpace argv) fun _ => True := by
  have htop := procTop_guarded trampoline tf
  unfold execImage
  unfold stackReached at hreach
  rw [wp_bind] at hreach ⊢
  refine wp_imp (wp_total hreach (procPagetable_spec hfree hcount htr htf)) (fun pt m1 hr => ?_)
    fun _ hf => hf.elim
  obtain ⟨hreach, hsp1, -⟩ := hr
  rw [wp_bind] at hreach ⊢
  have hsp1' : Space m1 pt (pages 0) (procTop trampoline tf) := hsp1
  refine wp_imp (wp_total hreach (loadSegments_spec htop _ hsp1' userPages_zero))
    (fun r m2 hr => ?_) fun _ hf => hf.elim
  obtain ⟨ok, sz⟩ := r
  obtain ⟨hreach, ⟨k, hpart, hk⟩, -⟩ := hr
  cases ok with
  | false =>
    cases hreach
  | true =>
    have hk' : k = pages sz := hk rfl
    subst hk'
    dsimp only at hreach ⊢
    rw [if_neg (by decide), wp_bind] at hreach
    rw [if_neg (by decide), wp_bind]
    have hsize := setupStack_size argv (wp_mono hreach fun sz1 _ hsz => by
      exact of_decide_eq_true hsz)
    refine wp_imp (wp_total hsize (setupStack_spec hpart.space htop)) (fun r m3 hr => ?_)
      fun _ hf => hf.elim
    obtain ⟨sp, sz'⟩ := r
    obtain ⟨hne, -, hend⟩ := hr
    have hend' : StackEnd m3 pt sz' argv sp := by
      rcases hend with ⟨-, hzero, -⟩ | ⟨-, hend⟩
      · exact absurd hzero hne
      · exact hend hshort hlen
    cases sp with
    | none =>
      exact wp_seq (wp_true _ _) fun _ _ _ => iff_of_true rfl hend'
    | some sp =>
      refine iff_of_false (by simp) ?_
      have := hend'.1
      omega

theorem exec_fails_iff (h : Inv s) (hp : (s.proc p).state = .live) (hcount : 3 ≤ s.mem.free.length)
    (hreach : StackReached s p bs) (hshort : Short argv) (hlen : argv.length < MAXARG) :
    wp (exec p (some bs) argv) s (fun r _ => r = -1 ↔ PGSIZE < stackSpace argv)
      fun _ => True := by
  have hused : (s.proc p).state ≠ .unused := by
    rw [hp]
    decide
  have htf := (tf_freeable h.mem hused).1.lt
  unfold exec
  dsimp only
  rw [if_neg (by rw [hreach.1]; decide), wp_bind, wp_get, wp_bind, wp_getProc, wp_bind, wp_vm]
  refine wp_mono (execImage_fails_iff h.mem.parted.free hcount h.mem.trampoline_lt htf hreach.2
    hshort hlen) fun r m1 hr => ?_
  cases r with
  | none => exact iff_of_true rfl (hr.mp rfl)
  | some r =>
    rw [wp_bind, wp_vm, wp_modify, wp_bind, wp_modifyProc]
    refine wp_seq (wp_true _ _) fun _ _ _ => ?_
    exact iff_of_false (by omega) fun hgt => by cases hr.mpr hgt

/-- The arguments of a new image.  `sp` and `a1` are words of the trapframe. -/
theorem exec_argument_vector (file : Option (List UInt8)) (argv : List (List UInt8)) (h : Inv s)
    (hp : (s.proc p).state = .live) (hcan : CanExec s.mem file) (hshort : Short argv)
    (hlen : argv.length < MAXARG) :
    wp (exec p file argv) s
        (fun r s' => r = -1 ∨ r = argv.length ∧ s'.tfWord p 48 = s'.tfWord p 120 ∧
          ∃ addrs, ArgvLayout s'.mem (s'.proc p).pagetable (s'.proc p).sz (s'.tfWord p 48) argv
            addrs)
        (fun _ => False) ∧
      (∀ bs, file = some bs → StackReached s p bs →
        wp (exec p file argv) s (fun r _ => r = -1 ↔ PGSIZE < stackSpace argv) fun _ => False) ∧
      ∀ m pt sz, Space m pt (pages sz) (procTop s.trampoline (s.proc p).tf) →
        setupStackChecked pt sz argv m = setupStack pt sz argv m := by
  have hexec := exec_spec file argv h hp hcan
  refine ⟨wp_mono hexec fun r s' hr => ?_, fun bs hbs hreach => ?_, fun m pt sz hsp => ?_⟩
  · rcases hr.2 with ⟨hr, -⟩ | ⟨hr, bs, -, hnew⟩
    · exact .inl hr
    · exact .inr ⟨hr, hnew.a1.symm, (hnew.stack hshort hlen).2⟩
  · subst hbs
    have hfails := exec_fails_iff h hp (hcan bs rfl hreach.1) hreach hshort hlen
    exact wp_mono (wp_total hfails hexec) fun _ _ hr => hr.1
  · exact setupStackChecked_eq hsp (procTop_guarded _ _) hshort hlen

/-- An executable without segments. -/
def bareElf : List UInt8 := [0x7F, 0x45, 0x4C, 0x46] ++ List.replicate 60 0

/-- The first process gets the stack for `bareElf`. -/
def reachesStack (s : Sys) : Bool :=
  canStart s && match stackReached s.trampoline (s.proc slot0).tf bareElf s.mem with
  | .ok r => r.1
  | .error _ => false

set_option maxRecDepth 20000 in
theorem exec_argument_vector_at_boot : ∃ s₀ s',
    userinit (blank bootMem 0x80007000) = .ok ((), s₀) ∧
      exec slot0 (some bareElf) [[108, 115], [47]] s₀ = .ok (2, s') ∧
      ∃ addrs, ArgvLayout s'.mem (s'.proc slot0).pagetable (s'.proc slot0).sz
        (s'.tfWord slot0 48) [[108, 115], [47]] addrs := by
  have hboots : boots ProcPagetableSucceeds [] reachesStack = true := by decide +kernel
  obtain ⟨s₀, s, hinit, hrun, -, htest⟩ := boots_cases hboots
  obtain rfl : s₀ = s := by simpa using hrun
  obtain ⟨hstart, hreach⟩ := Bool.and_eq_true_iff.mp htest
  obtain ⟨hlive, hcount⟩ := of_decide_eq_true hstart
  have hinv := (wp_ok (userinit_spec bootMem_free (by decide) (by decide)) hinit).1
  have hstack : StackReached s₀ slot0 bareElf := by
    refine ⟨by decide, ?_⟩
    unfold wp
    cases hx : stackReached s₀.trampoline (s₀.proc slot0).tf bareElf s₀.mem with
    | ok r =>
      rw [hx] at hreach
      exact hreach
    | error e =>
      rw [hx] at hreach
      cases hreach
  obtain ⟨hlayout, hfails, -⟩ := exec_argument_vector (p := slot0) (some bareElf)
    [[108, 115], [47]] hinv hlive (fun _ _ _ => hcount) (by decide) (by decide)
  obtain ⟨r, s', hrun', hiff, hlayout⟩ :=
    wp_returns (wp_total (hfails bareElf rfl hstack) hlayout)
  have hfit : r ≠ -1 := fun hr => absurd (hiff.mp hr) (by decide)
  obtain ⟨rfl, -, hl⟩ := hlayout.resolve_left hfit
  exact ⟨s₀, s', hinit, hrun', hl⟩

end SummerOsk.Task
