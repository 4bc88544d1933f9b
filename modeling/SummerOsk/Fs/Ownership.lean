import SummerOsk.Fs.Calls
import SummerOsk.Fs.Image

/-!
# Block ownership

The machine of `SummerOsk.Fs.Names` runs the transactions of any number of
processes.  Between two transactions the references to inodes are those of the
open files and of the current directories, and the invariant of the file system
holds with them.  `block_ownership` states what that means for the disk: no
block is referred to from two places, the bitmap marks exactly the blocks in
use, and `bfree` never panics.
-/

namespace SummerOsk.Fs

open Function Lib List Option

theorem FsState.Boot.inv {s : FsState} (hb : s.Boot) : FsInv (fun _ => 0) s := by
  refine ⟨dinodeAt s.sb s.disk, ?_, ?_, ?_⟩
  · rw [hb.cache]
    exact ⟨⟨hb.image.geom, hb.image.ok, fun _ => hb.image.free, hb.image.whole,
      fun _ => hb.image.dirs, fun _ b hne => absurd rfl hne⟩, hb.image.owned⟩
  · refine ⟨fun i hi => ?_, fun i hi => ?_, fun i hi => ?_, fun i j hi => ?_, fun i hi => ?_,
      fun i hi => ?_⟩
    · exact absurd hi (lt_irrefl 0)
    · simpa using hb.refs i hi
    all_goals exact absurd hi (lt_irrefl 0)
  · intro inum _ _
    rw [hb.cache]

/-! ## The invariant of the machine -/

/-- The references that the open files and the current directories hold. -/
def World.refs (w : World) (i : Nat) : Nat := (w.files.map File.ip).count i + w.cwds.count i

/-- The file system is in order, with the references of `World.refs`. -/
structure World.Inv (w : World) : Prop where
  fs : FsInv w.refs w.fs
  /-- A file that can be written is not a directory. -/
  writers : ∀ f ∈ w.files, f.writable = true → f.device = false →
    (w.fs.icache f.ip).valid = true ∧ (w.fs.icache f.ip).type ≠ T_DIR

variable {w w' w₀ : World} {h : Nat → Nat} {f : File} {c cwd : Nat} {α : Type} {x : FsM α} {op : Op}
  {ops : List Op} {A : Nat → Dinode}

theorem World.refs_pos_of_cwd (hc : cwd ∈ w.cwds) : 0 < w.refs cwd := by
  have := count_pos_iff.mpr hc
  rw [World.refs]
  omega

theorem World.refs_pos_of_file (hf : f ∈ w.files) : 0 < w.refs f.ip := by
  have := count_pos_iff.mpr (mem_map_of_mem (f := File.ip) hf)
  rw [World.refs]
  omega

theorem World.refs_file (w : World) (f : File) :
    World.refs { w with files := f :: w.files } = hold w.refs f.ip := by
  funext i
  rcases eq_or_ne i f.ip with rfl | hi
  · simp [World.refs, hold]
    omega
  · have hne : f.ip ≠ i := fun he => hi he.symm
    simp [World.refs, hold_of_ne _ hi, hne]

theorem World.refs_cwd (w : World) (c : Nat) :
    World.refs { w with cwds := c :: w.cwds } = hold w.refs c := by
  funext i
  rcases eq_or_ne i c with rfl | hi
  · simp [World.refs, hold]
    omega
  · have hne : c ≠ i := fun he => hi he.symm
    simp [World.refs, hold_of_ne _ hi, hne]

theorem World.refs_erase_file (hf : f ∈ w.files) :
    w.refs = hold (World.refs { w with files := w.files.erase f }) f.ip := by
  rw [← World.refs_file]
  funext i
  have hperm := (perm_cons_erase hf).map File.ip
  rw [World.refs, World.refs, hperm.count_eq]

theorem World.refs_erase_cwd (hc : c ∈ w.cwds) :
    w.refs = hold (World.refs { w with cwds := w.cwds.erase c }) c := by
  rw [← World.refs_cwd]
  funext i
  rw [World.refs, World.refs, (perm_cons_erase hc).count_eq]

/-- Files whose entries are held throughout a call stay as they are. -/
theorem World.Inv.writers_of_stable (hw : w.Inv) {t : FsState} (hS : Stable h w.fs t)
    (hf : f ∈ w.files) (hpos : 0 < h f.ip) (hwr : f.writable) (hdev : f.device = false) :
    (t.icache f.ip).valid = true ∧ (t.icache f.ip).type ≠ T_DIR := by
  obtain ⟨hv, ht⟩ := hw.writers f hf hwr hdev
  obtain ⟨hv', ht'⟩ := hS.valid f.ip hpos hv
  exact ⟨hv', ht'.symm ▸ ht⟩

/-- A call that returned, or stopped in an allowed way. -/
theorem World.perform_cases {f : α → World → World} {Q : α → FsState → Prop}
    (hx : wp x w.fs Q Allowed) :
    (∃ a t, Q a t ∧ w.perform x f = f a { w with fs := t }) ∨
      ∃ e, Allowed e ∧ w.perform x f = { w with stopped := some e } := by
  rw [wp] at hx
  rw [World.perform]
  cases hres : x w.fs with
  | ok r =>
    rw [hres] at hx
    exact .inl ⟨r.1, r.2, hx, rfl⟩
  | error e =>
    rw [hres] at hx
    exact .inr ⟨e, hx, rfl⟩

/-- What a step keeps: the invariant, and the panic of `bfree` is not met. -/
def World.Safe (w : World) : Prop := w.Inv ∧ ∀ e, w.stopped = some e → Allowed e

theorem World.Inv.stop (hw : w.Inv) {e : Stop} (he : Allowed e) :
    World.Safe { w with stopped := some e } := by
  refine ⟨⟨hw.fs, hw.writers⟩, fun e' hs => ?_⟩
  cases hs
  exact he

/-- A call that keeps the references. -/
theorem World.Inv.perform (hw : w.Inv) (hs : w.stopped = none)
    (hx : wp x w.fs (fun _ t => FsInv w.refs t ∧ Stable w.refs w.fs t) Allowed) :
    (w.perform x fun _ w => w).Safe := by
  obtain ⟨a, t, ⟨hI, hS⟩, heq⟩ | ⟨e, he, heq⟩ := World.perform_cases hx
  · rw [heq]
    refine ⟨⟨hI, fun f hf hwr hdev => ?_⟩, fun e hs' => ?_⟩
    · exact hw.writers_of_stable hS hf (World.refs_pos_of_file hf) hwr hdev
    · rw [hs] at hs'
      cases hs'
  · rw [heq]
    exact hw.stop he

/-! ## Steps -/

/-- The buffer of a block is recycled, and with it changes that were not
logged. -/
theorem FsInv.recycle {s : FsState} (hI : FsInv h s) (b : Nat) :
    FsInv h { s with cache := update s.cache b (s.disk b) } := by
  obtain ⟨A, hI⟩ := hI
  by_cases heq : s.cache b = s.disk b
  · refine ⟨A, ?_⟩
    rw [← heq, update_eq_self]
    exact hI
  · obtain ⟨hm, hind, hdir⟩ := hI.good.torn trivial b heq
    have href : ∀ p, refOf s.sb.ninodes A (update s.cache b (s.disk b)) p =
        refOf s.sb.ninodes A s.cache p := by
      intro p
      refine refOf_congr rfl fun ib hib => update_of_ne ?_ _ _
      rintro rfl
      exact hind _ hib
    have hgood : Good True s.sb A (update s.cache b (s.disk b)) s.disk :=
      { geom := hI.good.geom
        ok := hI.good.ok
        free := hI.good.free
        whole := fun inum hi bn hbn => by
          rw [href]
          exact hI.good.whole inum hi bn hbn
        dirs := fun _ inum hi ht off b' ho hs hb' => by
          rw [href] at hb'
          have hne : b' ≠ b := by
            rintro rfl
            exact hdir inum _ ht hb'
          rw [update_of_ne hne]
          exact hI.good.dirs trivial inum hi ht off b' ho hs hb'
        torn := fun _ b' hb' => by
          have hne : b' ≠ b := by
            rintro rfl
            simp at hb'
          rw [update_of_ne hne] at hb'
          obtain ⟨hm', hi', hd'⟩ := hI.good.torn trivial b' hb'
          exact ⟨hm', fun inum => by rw [href]; exact hi' inum,
            fun inum bn ht => by rw [href]; exact hd' inum bn ht⟩
        owned := by
          refine Allocated.congr hI.good.owned (fun b' hb' => ?_) href
          rw [usedBit_update_of_ne]
          have := hI.good.geom.bblock_lt hb'
          omega }
    refine ⟨A, hgood, hI.cached, fun inum hlt hx => ?_⟩
    have := hI.good.geom.iblock_lt_nmeta hlt
    have hne : s.sb.iblock inum ≠ b := by omega
    exact (dinodeAt_update_of_ne _ hne).trans (hI.synced inum hlt hx)

section

variable (hw : w.Inv) (hs : w.stopped = none)

include hw hs

theorem World.Inv.recycle (b : Nat) :
    World.Safe
      { w with fs := { w.fs with cache := update w.fs.cache b (w.fs.disk b) } } := by
  refine ⟨⟨hw.fs.recycle b, hw.writers⟩, fun e he => ?_⟩
  rw [hs] at he
  cases he

/-- A call that returns one more current directory. -/
theorem World.Inv.perform_cwd {x : FsM Nat}
    (hx : wp x w.fs (fun i t => FsInv (hold w.refs i) t ∧ Stable w.refs w.fs t) Allowed) :
    (w.perform x fun i w => { w with cwds := i :: w.cwds }).Safe := by
  obtain ⟨i, t, ⟨hI, hS⟩, heq⟩ | ⟨e, he, heq⟩ :=
    World.perform_cases (f := fun i w => { w with cwds := i :: w.cwds }) hx
  · rw [heq]
    refine ⟨⟨?_, fun f hf hwr hdev => ?_⟩, fun e he => ?_⟩
    · have := World.refs_cwd { w with fs := t } i
      rw [this]
      exact hI
    · exact hw.writers_of_stable hS hf (World.refs_pos_of_file hf) hwr hdev
    · change w.stopped = some e at he
      rw [hs] at he
      cases he
  · rw [heq]
    exact hw.stop he

/-- `sys_open` and the new file. -/
theorem World.Inv.open (hc : cwd ∈ w.cwds) (path : List UInt8) (omode : Nat) (room : Bool) :
    (w.perform (do
        let r ← sysOpen cwd path omode room
        match r with
        | none => return none
        | some ip => return some (ip, (← getInode ip).type)) fun r w =>
      match r with
      | none => w
      | some (ip, type) =>
        { w with files := ⟨ip, type = T_DEVICE, isWritable omode⟩ :: w.files }).Safe := by
  have hx : wp (do
      let r ← sysOpen cwd path omode room
      match r with
      | none => return none
      | some ip => return some (ip, (← getInode ip).type) : FsM (Option (Nat × Int))) w.fs
      (fun r t => Opened w.refs omode w.fs (r.map Prod.fst) t) Allowed := by
    refine wp_seq (sysOpen_spec hw.fs (World.refs_pos_of_cwd hc) path omode room) ?_
    intro r t hr
    cases r with
    | none => exact hr
    | some ip => exact hr
  obtain ⟨r, t, ⟨hI, hS, hr⟩, heq⟩ | ⟨e, he, heq⟩ := World.perform_cases (f := fun r w =>
      match r with
      | none => w
      | some (ip, type) =>
        { w with files := ⟨ip, type = T_DEVICE, isWritable omode⟩ :: w.files }) hx
  · rw [heq]
    have hrun : ∀ e, w.stopped = some e → Allowed e := by
      intro e he
      rw [hs] at he
      cases he
    cases r with
    | none =>
      refine ⟨⟨hI, fun f hf hwr hdev => ?_⟩, hrun⟩
      exact hw.writers_of_stable hS hf (World.refs_pos_of_file hf) hwr hdev
    | some r =>
      obtain ⟨ip, type⟩ := r
      refine ⟨⟨?_, fun f hf hwr hdev => ?_⟩, hrun⟩
      · have := World.refs_file { w with fs := t } ⟨ip, type = T_DEVICE, isWritable omode⟩
        simp only [this]
        exact hI
      · rcases mem_cons.mp hf with rfl | hf
        · obtain ⟨hv, hdir⟩ := hr ip rfl
          exact ⟨hv, hdir hwr⟩
        · exact hw.writers_of_stable hS hf (World.refs_pos_of_file hf) hwr hdev
  · rw [heq]
    exact hw.stop he

/-- The last `fileclose` of a file. -/
theorem World.Inv.close (hf : f ∈ w.files) :
    (w.perform (iput f.ip) fun _ w => { w with files := w.files.erase f }).Safe := by
  have hI := hw.fs
  rw [World.refs_erase_file hf] at hI
  obtain ⟨a, t, ⟨hI', hS⟩, heq⟩ | ⟨e, he, heq⟩ :=
    World.perform_cases (f := fun _ w => { w with files := w.files.erase f }) (iput_spec hI)
  · rw [heq]
    refine ⟨⟨hI', fun g hg hwr hdev => ?_⟩, fun e he => ?_⟩
    · have hpos : 0 < World.refs { w with files := w.files.erase f } g.ip :=
        World.refs_pos_of_file (w := { w with files := w.files.erase f }) hg
      exact hw.writers_of_stable hS (mem_of_mem_erase hg) hpos hwr hdev
    · change w.stopped = some e at he
      rw [hs] at he
      cases he
  · rw [heq]
    exact hw.stop he

/-- A current directory is given up. -/
theorem World.Inv.exit (hc : c ∈ w.cwds) :
    (w.perform (iput c) fun _ w => { w with cwds := w.cwds.erase c }).Safe := by
  have hI := hw.fs
  rw [World.refs_erase_cwd hc] at hI
  obtain ⟨a, t, ⟨hI', hS⟩, heq⟩ | ⟨e, he, heq⟩ :=
    World.perform_cases (f := fun _ w => { w with cwds := w.cwds.erase c }) (iput_spec hI)
  · rw [heq]
    refine ⟨⟨hI', fun g hg hwr hdev => ?_⟩, fun e he => ?_⟩
    · have hpos : 0 < World.refs { w with cwds := w.cwds.erase c } g.ip :=
        World.refs_pos_of_file (w := { w with cwds := w.cwds.erase c }) hg
      exact hw.writers_of_stable hS hg hpos hwr hdev
    · change w.stopped = some e at he
      rw [hs] at he
      cases he
  · rw [heq]
    exact hw.stop he

/-- `sys_chdir` and the new current directory. -/
theorem World.Inv.chdir (hc : c ∈ w.cwds) (path : List UInt8) :
    (w.perform (sysChdir c path) fun r w =>
      match r with
      | none => w
      | some ip => { w with cwds := ip :: w.cwds.erase c }).Safe := by
  have hI := hw.fs
  rw [World.refs_erase_cwd hc] at hI
  obtain ⟨r, t, ⟨hI', hS⟩, heq⟩ | ⟨e, he, heq⟩ := World.perform_cases (f := fun r w =>
      match r with
      | none => w
      | some ip => { w with cwds := ip :: w.cwds.erase c }) (sysChdir_spec hI path)
  · rw [heq]
    have hrun : ∀ e, w.stopped = some e → Allowed e := by
      intro e he
      rw [hs] at he
      cases he
    have hwriters : ∀ f ∈ w.files, f.writable = true → f.device = false →
        (t.icache f.ip).valid = true ∧ (t.icache f.ip).type ≠ T_DIR := by
      intro f hf hwr hdev
      have hpos : 0 < World.refs { w with cwds := w.cwds.erase c } f.ip :=
        World.refs_pos_of_file (w := { w with cwds := w.cwds.erase c }) hf
      exact hw.writers_of_stable hS hf hpos hwr hdev
    cases r with
    | none =>
      refine ⟨⟨?_, hwriters⟩, hrun⟩
      have := World.refs_erase_cwd (w := { w with fs := t }) hc
      simp only [this]
      exact hI'
    | some ip =>
      refine ⟨⟨?_, hwriters⟩, hrun⟩
      have := World.refs_cwd { w with fs := t, cwds := w.cwds.erase c } ip
      simp only [this]
      exact hI'
  · rw [heq]
    exact hw.stop he

/-- Every transaction keeps the invariant. -/
theorem World.Inv.step (hstep : w.step op = some w') : w'.Safe := by
  have hgo : w.stopped.isSome = false := by rw [hs]; rfl
  rw [World.step.eq_def, hgo, if_neg (by decide)] at hstep
  cases op with
  | recycle b =>
    cases hstep
    exact hw.recycle hs b
  | root =>
    cases hstep
    apply hw.perform_cwd hs
    obtain ⟨A, hI⟩ := hw.fs
    refine wp_mono (iget_spec hI hI.good.geom.root) ?_
    intro i t hi
    exact ⟨⟨A, hi.1⟩, hi.2.1⟩
  | «open» cwd path omode room =>
    simp only [ite_none_right_eq_some, Option.some.injEq] at hstep
    rw [← hstep.2]
    exact hw.open hs hstep.1 path omode room
  | write f src off n =>
    simp only [ite_none_right_eq_some, Option.some.injEq] at hstep
    obtain ⟨⟨hf, hwr, hdev, -, hn⟩, rfl⟩ := hstep
    obtain ⟨hv, hdir⟩ := hw.writers f hf hwr hdev
    exact hw.perform hs (writeChunk_spec hw.fs (World.refs_pos_of_file hf) hv hdir src off hn)
  | close f =>
    simp only [ite_none_right_eq_some, Option.some.injEq] at hstep
    rw [← hstep.2]
    exact hw.close hs hstep.1
  | link cwd old new =>
    simp only [ite_none_right_eq_some, Option.some.injEq] at hstep
    rw [← hstep.2]
    exact hw.perform hs (sysLink_spec hw.fs (World.refs_pos_of_cwd hstep.1) old new)
  | unlink cwd path =>
    simp only [ite_none_right_eq_some, Option.some.injEq] at hstep
    rw [← hstep.2]
    exact hw.perform hs (sysUnlink_spec hw.fs (World.refs_pos_of_cwd hstep.1) path)
  | mkdir cwd path =>
    simp only [ite_none_right_eq_some, Option.some.injEq] at hstep
    rw [← hstep.2]
    exact hw.perform hs (sysMkdir_spec hw.fs (World.refs_pos_of_cwd hstep.1) path)
  | mknod cwd path major minor =>
    simp only [ite_none_right_eq_some, Option.some.injEq] at hstep
    rw [← hstep.2]
    exact hw.perform hs (sysMknod_spec hw.fs (World.refs_pos_of_cwd hstep.1) path major minor)
  | chdir cwd path =>
    simp only [ite_none_right_eq_some, Option.some.injEq] at hstep
    rw [← hstep.2]
    exact hw.chdir hs hstep.1 path
  | fork cwd =>
    simp only [ite_none_right_eq_some, Option.some.injEq] at hstep
    rw [← hstep.2]
    apply hw.perform_cwd hs
    refine wp_mono (idup_spec hw.fs (World.refs_pos_of_cwd hstep.1)) ?_
    rintro i t ⟨rfl, hi⟩
    exact hi
  | exit cwd =>
    simp only [ite_none_right_eq_some, Option.some.injEq] at hstep
    rw [← hstep.2]
    exact hw.exit hs hstep.1

end

theorem World.Safe.step (hw : w.Safe) (hstep : w.step op = some w') : w'.Safe := by
  cases hs : w.stopped with
  | none => exact hw.1.step hs hstep
  | some e =>
    rw [World.step.eq_def, hs] at hstep
    cases hstep

theorem World.Boot.safe (hb : w.Boot) : w.Safe := by
  have hrefs : w.refs = fun _ => 0 := by
    funext i
    simp [World.refs, hb.files, hb.cwds]
  refine ⟨⟨?_, fun f hf => ?_⟩, fun e he => ?_⟩
  · rw [hrefs]
    exact hb.fs.inv
  · rw [hb.files] at hf
    cases hf
  · rw [hb.stopped] at he
    cases he

/-- Every state that the machine reaches after the boot. -/
theorem World.Boot.safe_run (hb : w.Boot) (hrun : fileSystem.run w ops = some w') : w'.Safe :=
  fileSystem.run_invariant (fun _ _ _ hw hstep => hw.step hstep) hb.safe hrun

/-! ## The disk -/

/-- The block that a place refers to, by what is on disk. -/
def FsState.diskRef (s : FsState) (p : Place) : Option Nat :=
  refOf s.sb.ninodes (dinodeAt s.sb s.disk) s.disk p

variable {s : FsState}

/-- The blocks before the data blocks are logged whenever they change. -/
theorem FsInv.disk_meta (hI : FsInv h s) {b : Nat} (hb : b < s.sb.nmeta) :
    s.disk b = s.cache b := by
  obtain ⟨A, hI⟩ := hI
  by_contra hne
  have := (hI.good.torn trivial b fun he => hne he.symm).1
  omega

/-- Between transactions the disk has the references of the invariant. -/
theorem Inv.diskRef_eq (hI : Inv True A none h s) (p : Place) :
    s.diskRef p = refOf s.sb.ninodes A s.cache p := by
  by_cases hp : p.inum < s.sb.ninodes
  · refine refOf_congr ?_ fun ib hib => ?_
    · have hsynced := hI.synced p.inum hp fun i hi => by cases hi
      have hdisk := FsInv.disk_meta ⟨A, hI⟩ (hI.good.geom.iblock_lt_nmeta hp)
      rw [← hsynced, dinodeAt, dinodeAt, hdisk]
    · by_contra hne
      exact (hI.good.torn trivial ib fun he => hne he.symm).2.1 _ hib
  · rw [FsState.diskRef, refOf_of_le (Nat.le_of_not_lt hp), refOf_of_le (Nat.le_of_not_lt hp)]

/-- Over every sequence of transactions on a consistent image, no block is
referred to from two places, a block has its bit in the bitmap exactly when it
is before the data blocks or referred to, only data blocks are referred to, and
`bfree` never meets a free block. -/
theorem block_ownership {w : World} (hboot : w₀.Boot) (hrun : fileSystem.run w₀ ops = some w) :
    (∀ p q b, w.fs.diskRef p = some b → w.fs.diskRef q = some b → p = q) ∧
    (∀ b < w.fs.sb.size, usedBit w.fs.sb w.fs.disk b = true ↔
      b < w.fs.sb.nmeta ∨ ∃ p, w.fs.diskRef p = some b) ∧
    (∀ p b, w.fs.diskRef p = some b → w.fs.sb.nmeta ≤ b ∧ b < w.fs.sb.size) ∧
    w.stopped ≠ some (.panic "freeing free block") := by
  obtain ⟨hw, hstopped⟩ := hboot.safe_run hrun
  obtain ⟨A, hI⟩ := hw.fs
  have howned := hI.good.owned
  have href : w.fs.diskRef = refOf w.fs.sb.ninodes A w.fs.cache := funext hI.diskRef_eq
  rw [href]
  refine ⟨fun p q b hp hq => howned.inj p q b hp hq, fun b hb => ?_, fun p b hp => ?_, ?_⟩
  · have hdisk := hw.fs.disk_meta (hI.good.geom.bblock_lt hb)
    rw [usedBit, hdisk]
    exact howned.used_iff b hb
  · have := howned.range p b hp
    exact ⟨Nat.le_of_not_lt this.2, this.1⟩
  · intro hs
    have := hstopped _ hs
    simp [Allowed] at this

theorem block_ownership_mkdir : ∃ w,
    fileSystem.run mkfsWorld [.root, .mkdir 0 [97]] = some w ∧ w.stopped = none ∧
    (∀ p q b, w.fs.diskRef p = some b → w.fs.diskRef q = some b → p = q) ∧
    (∀ b < w.fs.sb.size, usedBit w.fs.sb w.fs.disk b = true ↔
      b < w.fs.sb.nmeta ∨ ∃ p, w.fs.diskRef p = some b) ∧
    (∀ p b, w.fs.diskRef p = some b → w.fs.sb.nmeta ≤ b ∧ b < w.fs.sb.size) ∧
    w.stopped ≠ some (.panic "freeing free block") := by
  have hrun : (fileSystem.run mkfsWorld [.root, .mkdir 0 [97]]).map World.stopped = some none := by
    decide +kernel
  obtain ⟨w, hw, hs⟩ := map_eq_some_iff.mp hrun
  exact ⟨w, hw, hs, block_ownership mkfsWorld_boot hw⟩

/-! ## The inode cache and the image -/

/-- Between transactions the dinodes of the invariant are those on disk. -/
theorem Inv.dinodeAt_disk (hI : Inv True A none h s) {inum : Nat} (hn : inum < s.sb.ninodes) :
    dinodeAt s.sb s.disk inum = A inum := by
  rw [← hI.synced inum hn nofun, dinodeAt, dinodeAt,
    FsInv.disk_meta ⟨A, hI⟩ (hI.good.geom.iblock_lt_nmeta hn)]

/-- In every run an entry of the inode cache counts the open files and current
directories that refer to it, two entries in use do not hold the same inode, a
valid one is a copy of its dinode on disk, which is not free, and `filewrite` does not
reach a directory. -/
theorem icache_coherent {w : World} (hboot : w₀.Boot) (hrun : fileSystem.run w₀ ops = some w) :
    (∀ i < NINODE, (w.fs.icache i).ref = w.refs i) ∧
    (∀ i j, 0 < w.refs i → 0 < w.refs j →
      (w.fs.icache i).inum = (w.fs.icache j).inum → i = j) ∧
    (∀ i, 0 < w.refs i → (w.fs.icache i).valid = true →
      (w.fs.icache i).toDinode = dinodeAt w.fs.sb w.fs.disk (w.fs.icache i).inum ∧
      (w.fs.icache i).type ≠ 0) ∧
    ∀ f ∈ w.files, f.writable = true → f.device = false →
      (w.fs.icache f.ip).valid = true ∧ (w.fs.icache f.ip).type ≠ T_DIR := by
  obtain ⟨⟨⟨A, hI⟩, hwriters⟩, -⟩ := hboot.safe_run hrun
  refine ⟨hI.cached.refs, hI.cached.uniq, fun i hi hv => ⟨?_, hI.cached.live i hi hv⟩, hwriters⟩
  rw [hI.dinodeAt_disk (hI.cached.inum i hi)]
  exact hI.cached.data i hi hv

/-- A new file is open for writing beside the current directory. -/
theorem icache_coherent_create : ∃ w,
    fileSystem.run mkfsWorld [.root, .open 0 [97] 0x202 true] = some w ∧
    (∀ i < NINODE, (w.fs.icache i).ref = w.refs i) ∧
    (w.fs.icache 0).inum ≠ (w.fs.icache 1).inum ∧
    (w.fs.icache 1).toDinode = dinodeAt w.fs.sb w.fs.disk (w.fs.icache 1).inum ∧
    (w.fs.icache 1).type ≠ T_DIR := by
  have hrun : (fileSystem.run mkfsWorld [.root, .open 0 [97] 0x202 true]).map (fun w =>
      (w.files, w.cwds)) = some ([⟨1, false, true⟩], [0]) := by decide +kernel
  obtain ⟨w, hw, hopen⟩ := map_eq_some_iff.mp hrun
  obtain ⟨hfiles, hcwds⟩ := Prod.mk.inj hopen
  obtain ⟨href, huniq, hcopy, hwriter⟩ := icache_coherent mkfsWorld_boot hw
  have hrefs : 0 < w.refs 0 ∧ 0 < w.refs 1 := by
    rw [World.refs, World.refs, hfiles, hcwds]
    decide
  obtain ⟨hvalid, htype⟩ := hwriter ⟨1, false, true⟩ (by rw [hfiles]; exact mem_cons_self)
    rfl rfl
  exact ⟨w, hw, href, fun he => absurd (huniq 0 1 hrefs.1 hrefs.2 he) Nat.zero_ne_one,
    (hcopy 1 hrefs.2 hvalid).1, htype⟩

/-- After every run the disk is an image that a checker would accept, so that a
kernel can boot from it. -/
theorem image_after_run {w : World} (hboot : w₀.Boot) (hrun : fileSystem.run w₀ ops = some w) :
    Image w.fs.sb w.fs.disk := by
  obtain ⟨⟨⟨A, hI⟩, -⟩, -⟩ := hboot.safe_run hrun
  have hgood := hI.good
  have href : refOf w.fs.sb.ninodes (dinodeAt w.fs.sb w.fs.disk) w.fs.disk =
      refOf w.fs.sb.ninodes A w.fs.cache := funext hI.diskRef_eq
  refine ⟨hgood.geom, fun inum hn => ?_, fun inum hn => ?_, fun inum hn => ?_,
    fun inum hn ht off b ho hs hb => ?_, ?_⟩
  · rw [hI.dinodeAt_disk hn]
    exact hgood.ok inum hn
  · rw [hI.dinodeAt_disk hn]
    exact hgood.free trivial inum hn
  · rw [hI.dinodeAt_disk hn, href]
    exact hgood.whole inum hn
  · rw [hI.dinodeAt_disk hn] at ht hs
    rw [href] at hb
    -- a buffer that differs from the disk is in no directory
    have hclean : w.fs.cache b = w.fs.disk b :=
      by_contra fun hne => (hgood.torn trivial b hne).2.2 inum _ ht hb
    rw [← hclean]
    exact hgood.dirs trivial inum hn ht off b ho hs hb
  · refine Allocated.congr hgood.owned (fun b hb => ?_) (congrFun href)
    rw [usedBit, usedBit, FsInv.disk_meta ⟨A, hI⟩ (hgood.geom.bblock_lt hb)]

theorem image_after_mkdir : ∃ w,
    fileSystem.run mkfsWorld [.root, .mkdir 0 [97]] = some w ∧ Image w.fs.sb w.fs.disk := by
  have hsome : (fileSystem.run mkfsWorld [.root, .mkdir 0 [97]]).isSome := by decide +kernel
  obtain ⟨w, hw⟩ := isSome_iff_exists.mp hsome
  exact ⟨w, hw, image_after_run mkfsWorld_boot hw⟩

end SummerOsk.Fs
