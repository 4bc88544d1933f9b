import SummerOsk.Task.Invariant

/-!
# Files and pipes keep the invariant

`filealloc` and `filedup` make a reference that the call holds, `fdalloc` and
`clearFd` move it between the call and a descriptor slot, and `fileclose` drops
it; the last one to be dropped closes an end of a pipe, and the second end frees
the buffer.
-/

namespace SummerOsk.Task

open Lib Vm Function List

variable {s s' : Sys} {E : Stop → Prop} {Q : Unit → Sys → Prop}

/-! ## The primitives -/

@[simp] theorem wp_vm {α : Type} (x : VmM α) {Q : α → Sys → Prop} :
    wp (vm x) s Q E ↔ wp x s.mem (fun a m => Q a { s with mem := m }) E := wp_zoom x

@[simp] theorem wp_getProc (p : Fin NPROC) {Q : Proc → Sys → Prop} :
    wp (getProc p) s Q E ↔ Q (s.proc p) s := Iff.rfl

@[simp] theorem wp_modifyProc (p : Fin NPROC) (f : Proc → Proc) :
    wp (modifyProc p f) s Q E ↔
      Q () { s with proc := update s.proc p (f (s.proc p)) } := Iff.rfl

@[simp] theorem wp_setFile (f : Fin NFILE) (x : File) :
    wp (setFile f x) s Q E ↔ Q () { s with file := update s.file f x } := Iff.rfl

@[simp] theorem wp_modifyFile (f : Fin NFILE) (g : File → File) :
    wp (modifyFile f g) s Q E ↔
      Q () { s with file := update s.file f (g (s.file f)) } := Iff.rfl

@[simp] theorem wp_setPipe (q : Nat) (x : Pipe) :
    wp (setPipe q x) s Q E ↔ Q () { s with pipe := update s.pipe q x } := Iff.rfl

/-- The file table is not part of the memory. -/
theorem MemInv.setFile (h : MemInv s) (file : Fin NFILE → File) : MemInv { s with file := file } :=
  ⟨h.parted, h.sound, h.trampoline, h.kend⟩

/-! ## References -/

variable {file : Fin NFILE → File} {pipe : Nat → Pipe}
  {slot : Fin NPROC × Fin NOFILE → Option (Fin NFILE)} {pend : List (Fin NFILE)}
  {f : Fin NFILE} {k : Fin NPROC × Fin NOFILE}

/-- A reference of the call goes to an empty slot. -/
theorem Files.fill (h : Files file pipe slot (f :: pend)) (hk : slot k = none) :
    Files file pipe (update slot k (some f)) pend := by
  refine ⟨fun g => ?_, h.closed, h.ends, h.unique, h.opened⟩
  have hupd := refCount_update slot k (some f) g
  rw [hk, if_neg (by simp)] at hupd
  rw [h.ref, count_cons]
  simp only [Option.some.injEq, beq_iff_eq] at *
  omega

/-- The reference of a slot goes to the call. -/
theorem Files.drain (h : Files file pipe slot pend) (hk : slot k = some f) :
    Files file pipe (update slot k none) (f :: pend) := by
  refine ⟨fun g => ?_, h.closed, h.ends, h.unique, h.opened⟩
  have hupd := refCount_update slot k none g
  rw [hk, if_neg (show none ≠ some g by simp)] at hupd
  rw [h.ref, count_cons]
  simp only [Option.some.injEq, beq_iff_eq] at *
  omega

theorem Files.pos (h : Files file pipe slot (f :: pend)) : 0 < (file f).ref := by
  rw [h.ref, count_cons_self]
  omega

/-- The count of a file changes, and the references with it. -/
theorem Files.recount {n : Nat} {pend' : List (Fin NFILE)} (h : Files file pipe slot pend)
    (hn : n = refCount slot f + pend'.count f) (hpos : 0 < n)
    (hother : ∀ g, g ≠ f → pend'.count g = pend.count g) :
    Files (update file f { file f with ref := n }) pipe slot pend' := by
  have hfields : ∀ g, (update file f { file f with ref := n } g).type = (file g).type ∧
      (update file f { file f with ref := n } g).pipe = (file g).pipe ∧
      (update file f { file f with ref := n } g).writable = (file g).writable := by
    intro g
    rcases eq_or_ne g f with rfl | hg
    · rw [update_self]
      exact ⟨rfl, rfl, rfl⟩
    · rw [update_of_ne hg]
      exact ⟨rfl, rfl, rfl⟩
  refine ⟨fun g => ?_, fun g hg => ?_, fun g hg => ?_, fun g g' hg hg' hp hw => ?_,
    fun q w hq => ?_⟩
  · rcases eq_or_ne g f with rfl | hg
    · rw [update_self]
      exact hn
    · rw [update_of_ne hg, h.ref, hother g hg]
  · rcases eq_or_ne g f with rfl | hgf
    · rw [update_self] at hg
      exact absurd hg (by show n ≠ 0; omega)
    · rw [update_of_ne hgf] at *
      exact h.closed g hg
  · rw [(hfields g).1] at hg
    rw [(hfields g).2.1, (hfields g).2.2]
    exact h.ends g hg
  · rw [(hfields g).1] at hg
    rw [(hfields g').1] at hg'
    rw [(hfields g).2.1, (hfields g').2.1] at hp
    rw [(hfields g).2.2, (hfields g').2.2] at hw
    exact h.unique g g' hg hg' hp hw
  · obtain ⟨g, h1, h2, h3⟩ := h.opened q w hq
    exact ⟨g, (hfields g).1 ▸ h1, (hfields g).2.1 ▸ h2, (hfields g).2.2 ▸ h3⟩

/-- `filedup`. -/
theorem filedup_spec (hf : Files s.file s.pipe slot pend) (hpos : 0 < (s.file f).ref) :
    wp (filedup f) s
      (fun _ s' => Files s'.file s'.pipe slot (f :: pend) ∧ s' = { s with file := s'.file })
      fun _ => False := by
  unfold filedup
  rw [wp_bind, wp_get, if_neg (by omega), wp_setFile]
  refine ⟨hf.recount ?_ (by omega) fun g hg => ?_, rfl⟩
  · rw [hf.ref, count_cons_self]
    omega
  · rw [count_cons_of_ne (Ne.symm hg)]

/-- The first file without a reference. -/
theorem filealloc_spec (hf : Files s.file s.pipe slot pend) :
    wp filealloc s
      (fun r s' => (r = none ∧ s' = s) ∨ ∃ f, r = some f ∧
        Files s'.file s'.pipe slot (f :: pend) ∧ (s'.file f).ref = 1 ∧
        (s'.file f).type = .none ∧ (∀ g, g ≠ f → s'.file g = s.file g) ∧
        s' = { s with file := s'.file })
      fun _ => False := by
  unfold filealloc
  rw [wp_bind, wp_get]
  cases hfind : (finRange NFILE).find? fun f => (s.file f).ref = 0 with
  | none => exact .inl ⟨rfl, rfl⟩
  | some f =>
    have hzero : (s.file f).ref = 0 := by simpa using find?_some hfind
    refine .inr ⟨f, rfl, hf.recount ?_ (by decide) fun g hg => ?_, ?_, ?_,
      fun g hg => update_of_ne hg _ _, rfl⟩
    · have := hf.ref f
      rw [count_cons_self]
      omega
    · rw [count_cons_of_ne (Ne.symm hg)]
    · show (update s.file f _ f).ref = 1
      rw [update_self]
    · show (update s.file f _ f).type = .none
      rw [update_self]
      exact hf.closed f hzero

/-! ## `fileclose` -/

/-- Close one end of a pipe. -/
def Pipe.close (pi : Pipe) (writable : Bool) : Pipe :=
  if writable then { pi with writeopen := false } else { pi with readopen := false }

theorem Pipe.isOpen_close (pi : Pipe) (w w' : Bool) :
    (pi.close w).isOpen w' = if w' = w then false else pi.isOpen w' := by
  cases w <;> cases w' <;> rfl

theorem Pipe.closed_iff (pi : Pipe) :
    pi.readopen = false ∧ pi.writeopen = false ↔ ∀ w, pi.isOpen w = false := by
  constructor
  · rintro ⟨h1, h2⟩ w
    cases w
    · exact h1
    · exact h2
  · intro h
    exact ⟨h false, h true⟩

theorem Sys.mem_hold_none (q : Nat) : q ∈ s.hold none ↔ ∃ w, (s.pipe q).isOpen w = true := by
  show (s.pipe q).readopen = true ∨ (s.pipe q).writeopen = true ↔ _
  constructor
  · rintro (h | h)
    · exact ⟨false, h⟩
    · exact ⟨true, h⟩
  · rintro ⟨w, h⟩
    cases w
    · exact .inl h
    · exact .inr h

/-- The last reference to a file that is not a pipe, or to one end of a pipe,
is dropped. -/
theorem Files.close {pipe' : Nat → Pipe} (h : Files file pipe slot (f :: pend))
    (hone : (file f).ref = 1)
    (hpipe : ∀ q w, (pipe' q).isOpen w = if (file f).type = .pipe ∧ q = (file f).pipe ∧
      w = (file f).writable then false else (pipe q).isOpen w) :
    Files (update file f { file f with ref := 0, type := .none }) pipe' slot pend := by
  have hnew : ∀ g, (update file f { file f with ref := 0, type := .none } g).type = .pipe →
      g ≠ f := by
    intro g hg hgf
    subst hgf
    rw [update_self] at hg
    cases hg
  refine ⟨fun g => ?_, fun g hg => ?_, fun g hg => ?_, fun g g' hg hg' hp hw => ?_,
    fun q w hq => ?_⟩
  · have hrefs := h.ref g
    rw [count_cons] at hrefs
    rcases eq_or_ne g f with rfl | hgf
    · rw [update_self]
      simp only [beq_self_eq_true, if_true] at hrefs
      show 0 = _
      omega
    · rw [update_of_ne hgf, hrefs]
      have : ¬ (f = g) := fun he => hgf he.symm
      simp [this]
  · rcases eq_or_ne g f with rfl | hgf
    · rw [update_self]
    · rw [update_of_ne hgf] at *
      exact h.closed g hg
  · have hgf := hnew g hg
    rw [update_of_ne hgf] at *
    rw [hpipe, if_neg]
    · exact h.ends g hg
    · rintro ⟨hp, hq, hw⟩
      exact hgf (h.unique g f hg hp hq hw)
  · have hgf := hnew g hg
    have hgf' := hnew g' hg'
    rw [update_of_ne hgf] at *
    rw [update_of_ne hgf'] at *
    exact h.unique g g' hg hg' hp hw
  · rw [hpipe] at hq
    split_ifs at hq with hcase
    obtain ⟨g, h1, h2, h3⟩ := h.opened q w hq
    have hgf : g ≠ f := by
      rintro rfl
      exact hcase ⟨h1, h2.symm, h3.symm⟩
    refine ⟨g, ?_⟩
    rw [update_of_ne hgf]
    exact ⟨h1, h2, h3⟩

/-- The pages of the pipes after one end was closed. -/
theorem pipeclose_spec {q : Nat} {w : Bool} (hm : MemInv s) (hopen : (s.pipe q).isOpen w) :
    wp (pipeclose q w) s
      (fun _ s' => MemInv s' ∧ s'.pipe = update s.pipe q ((s.pipe q).close w) ∧
        s'.file = s.file ∧ s'.proc = s.proc ∧ s'.trampoline = s.trampoline ∧ s'.total = s.total)
      fun _ => False := by
  have hheld : q ∈ s.hold none := (Sys.mem_hold_none q).mpr ⟨w, hopen⟩
  have hpi : (if w then { s.pipe q with writeopen := false }
      else { s.pipe q with readopen := false }) = (s.pipe q).close w := rfl
  have hhold (s' : Sys) (hpipe : s'.pipe = update s.pipe q ((s.pipe q).close w)) (r : Nat) :
      r ∈ s'.hold none ↔ (r ≠ q ∧ r ∈ s.hold none) ∨
        r = q ∧ ∃ w', ((s.pipe q).close w).isOpen w' = true := by
    rw [Sys.mem_hold_none, Sys.mem_hold_none, hpipe]
    rcases eq_or_ne r q with rfl | hr
    · simp
    · simp [hr]
  have hfinish : ∀ s' : Sys, s'.pipe = update s.pipe q ((s.pipe q).close w) →
      s'.proc = s.proc → s'.trampoline = s.trampoline →
      Conserves s.mem s'.mem (s.hold none) (s'.hold none) → MemInv s' ∧ s'.total = s.total := by
    intro s' hpipe hproc htr hc
    have hstep := hm.exchange s' (i := none) (L := ∅) (by rwa [Set.union_empty])
      (fun p _ => by rw [hproc]; exact Proc.SameSpace.refl _) (fun hne => absurd rfl hne) htr
      (fun p hp => by cases hp)
    refine ⟨hstep.1, Set.ext fun r => ?_⟩
    rw [← hstep.2 r]
    simp
  have hhold1 := hhold { s with pipe := update s.pipe q ((s.pipe q).close w) } rfl
  unfold pipeclose
  rw [wp_bind, wp_get]
  rw [hpi, wp_bind, wp_setPipe]
  refine wp_ite (fun hclosed => ?_) fun hopen' => ?_
  · -- the other end was closed before
    rw [Pipe.closed_iff] at hclosed
    rw [wp_vm]
    refine kfree_spec (fun hok => ?_) fun hbad => hbad (hm.parted.held none q hheld).1
    have hset : s.hold none = insert q
        (({ s with pipe := update s.pipe q ((s.pipe q).close w) } : Sys).hold none) := by
      ext r
      rw [Set.mem_insert_iff, hhold1]
      constructor
      · intro hr
        by_cases hrq : r = q
        · exact .inl hrq
        · exact .inr (.inl ⟨hrq, hr⟩)
      · rintro (rfl | hr | ⟨rfl, -⟩)
        · exact hheld
        · exact hr.2
        · exact hheld
    have hfin := hfinish { s with
      pipe := update s.pipe q ((s.pipe q).close w), mem := s.mem.release q } rfl rfl rfl (by
        rw [hset]
        refine release_conserves hm.parted.free (hm.parted.held none q hheld).2 ?_ hok ?_
        · rw [hhold1]
          rintro (⟨hne, -⟩ | ⟨-, w', hw'⟩)
          · exact hne rfl
          · rw [hclosed w'] at hw'
            cases hw'
        · intro r hr
          rw [hhold1] at hr
          rcases hr with hr | ⟨rfl, -⟩
          · exact (hm.parted.held none r hr.2).2
          · exact (hm.parted.held none r hheld).2)
    exact ⟨hfin.1, rfl, rfl, rfl, rfl, hfin.2⟩
  · have hset : ({ s with pipe := update s.pipe q ((s.pipe q).close w) } : Sys).hold none =
        s.hold none := by
      ext r
      rw [hhold1]
      constructor
      · rintro (hr | ⟨rfl, -⟩)
        · exact hr.2
        · exact hheld
      · intro hr
        by_cases hrq : r = q
        · refine .inr ⟨hrq, ?_⟩
          rw [Pipe.closed_iff] at hopen'
          push Not at hopen'
          obtain ⟨w', hw'⟩ := hopen'
          exact ⟨w', by simpa using hw'⟩
        · exact .inl ⟨hrq, hr⟩
    have hfin := hfinish { s with pipe := update s.pipe q ((s.pipe q).close w) } rfl rfl rfl
      (by
        rw [hset]
        exact Conserves.refl hm.parted.free fun r hr => (hm.parted.held none r hr).2)
    exact ⟨hfin.1, rfl, rfl, rfl, rfl, hfin.2⟩

/-- `fileclose` drops a reference of the call. -/
theorem fileclose_spec (hm : MemInv s) (hf : Files s.file s.pipe slot (f :: pend)) :
    wp (fileclose f) s
      (fun _ s' => MemInv s' ∧ Files s'.file s'.pipe slot pend ∧ s'.proc = s.proc ∧
        s'.trampoline = s.trampoline ∧ s'.total = s.total)
      fun _ => False := by
  have hpos := hf.pos
  unfold fileclose
  rw [wp_bind, wp_get]
  rw [if_neg (by omega)]
  refine wp_ite (fun hmore => ?_) fun hlast => ?_
  · refine ⟨hm.setFile _, hf.recount ?_ hmore fun g hg => ?_, rfl, rfl, rfl⟩
    · rw [hf.ref, count_cons_self]
      omega
    · rw [count_cons_of_ne (Ne.symm hg)]
  · have hone : (s.file f).ref = 1 := by omega
    refine wp_ite (fun hpipe => ?_) fun hpipe => ?_
    · refine wp_mono (pipeclose_spec (hm.setFile _) (hf.ends f hpipe)) fun _ s' hs' => ?_
      obtain ⟨hm', hp', hfile, hproc, htr, htotal⟩ := hs'
      refine ⟨hm', ?_, hproc, htr, htotal⟩
      rw [hfile]
      refine hf.close hone fun q w => ?_
      rw [hp']
      show (update s.pipe _ _ q).isOpen w = _
      by_cases hq : q = (s.file f).pipe
      · subst hq
        rw [update_self, Pipe.isOpen_close]
        simp [hpipe]
      · rw [update_of_ne hq, if_neg (fun hcase => hq hcase.2.1)]
    · refine ⟨hm.setFile _, hf.close hone fun q w => ?_, rfl, rfl, rfl⟩
      rw [if_neg (fun hcase => hpipe hcase.1)]

end SummerOsk.Task
