import SummerOsk.Bio.Refine

/-!
# The block layer is a block store

`Inv.move` puts the parts of the invariant together: every action keeps it,
unless the kernel panics.  `Serves` says that a trace is one of the abstract
block store, and `block_store` that every trace of the block layer is.

The bound on the number of buffers is needed.  The tests of `log_write` run
without `log.lock`, so two processes can fill the header beyond the log area.
There are then as many pinned blocks as buffers, and `write_log` stops at its
first `bread` with the panic "bget: no buffers" before it writes anything.
-/

namespace SummerOsk.Bio

open Lib Log List

variable {ι κ : Type} [DecidableEq ι] [DecidableEq κ] [Fintype ι] {d : Nat → Block}
  {s t : BState ι κ} {a : Act ι κ} {home : Nat → Prop}

/-! ## The invariant over whole runs -/

section

variable [Fintype κ] (hinv : Inv d s) (hm : Move s a t) (hcard : Fintype.card κ ≤ s.size)
  (hsize : 1 < s.size)

include hinv hm hcard hsize

theorem Contents.move : Contents d t where
  toPins := Pins.move hinv hm
  home_data := home_data_of_move hinv hm
  log_data := log_data_of_move hinv hm
  pinned_lh := pinned_lh_of_move hinv hm
  fine p is regs hmode := by
    rcases eq_or_ne p a.actor with rfl | hp
    · exact fine_of_actor hinv hm hcard hsize hmode
    · rw [proc_of_move hm hp] at hmode
      exact fine_of_other hinv hm hp hmode

theorem Inv.move (hrun : t.panicked = none) :
    Inv d t where
  gate := gate_of_move hinv hm
  refs := Refs.move hinv hm hrun
  calls := Calls.move hinv hm
  contents := Contents.move hinv hm hcard hsize

end

omit [DecidableEq ι] in
theorem BState.Init.inv (h : s.Init) : Inv s.disk s where
  gate := by
    rw [h.outstanding_zero, h.not_committing]
    exact Gate.init fun p => by rw [h.idle]; rfl
  refs :=
    { lru_all := h.lru_all
      unique := fun i j b hi hj => h.unique i j hi.1 hj.1 (hi.2.trans hj.2.symm)
      count := fun i => by
        obtain ⟨href, hholder, -⟩ := h.unreferenced i
        simp [href, hholder, refCount, h.idle, Call.refers, h.pinned_nil] }
  calls :=
    { waiting := fun p b i hp => by simp [h.idle] at hp
      locked := fun p b i hp => by simp [h.idle] at hp
      logging := fun p i hp => by simp [h.idle] at hp
      held := fun i p hp => by simp [(h.unreferenced i).2.1] at hp
      regs := fun p r i hr => by simp [h.idle, Mode.regs] at hr
      regs_inj := fun p r r' i hr => by simp [h.idle, Mode.regs] at hr
      dirty := fun i hi => by simp [(h.unreferenced i).2.2] at hi }
  contents :=
    { pinned_home := by simp [h.pinned_nil]
      pinned_valid := by simp [h.pinned_nil]
      nodup := by simp [h.pinned_nil]
      disk_home := fun b _ _ => by simp [h.trace_nil]
      home_data := fun i b hi _ hvalid _ => by
        rw [h.trace_nil, store_nil, h.coherent i hvalid hi.1, hi.2]
      log_data := fun i b hi _ hvalid _ => by rw [h.coherent i hvalid hi.1, hi.2]
      pinned_lh := fun _ => by rw [h.pinned_nil, h.lh_nil]
      fine := fun p is regs hmode => by simp [h.idle] at hmode }

/-! ## The traces of the block store -/

/-- Every `bread` of a trace of a block for which `home` holds returned the
contents that the last `log_write` before it published, or those of `d`. -/
def Serves (home : Nat → Prop) (d : Nat → Block) (tr : List (Event ι)) : Prop :=
  ∀ pre p b x post, tr = pre ++ .bread p b x :: post → home b → x = store d pre b

section

omit [DecidableEq ι] [Fintype ι]

theorem serves_nil (home : Nat → Prop) : Serves home d ([] : List (Event ι)) := by
  intro pre p b x post h
  simp at h

theorem Serves.snoc {tr : List (Event ι)} (h : Serves home d tr) {e : Event ι}
    (he : ∀ p b x, e = .bread p b x → home b → x = store d tr b) : Serves home d (tr ++ [e]) := by
  intro pre p b x post heq hb
  -- the event is the new one, or it stands in the old trace
  rcases eq_nil_or_concat post with rfl | ⟨post, e', rfl⟩
  · obtain ⟨rfl, hlast⟩ := append_inj' heq rfl
    exact he p b x (by simpa using hlast) hb
  · rw [concat_eq_append, ← cons_append, ← append_assoc] at heq
    obtain ⟨hold, -⟩ := append_inj' heq rfl
    exact h pre p b x post hold hb

end

/-- What an action adds to the trace. -/
theorem Serves.move (h : Serves home d s.trace) (hinv : Inv d s) (hhome : ∀ b, home b → s.home b)
    (hm : Move s a t) : Serves home d t.trace := by
  cases hm with
  | panic | beginSleep | beginAdmit | bgetHit | bgetMiss | acquire | modify | logWrite | release
  | releaseCommit | endLast | endMore | memmove | putHead | bwrite | bunpin | clear | leave =>
    exact h
  | @dropRef p i =>
    rw [show ((s.dropRef i).setCall p .none).trace = s.trace from (s.dropRef_frame i).1]
    exact h
  | bread hcall =>
    refine h.snoc fun p' b' x he hb => ?_
    cases he
    exact bread_contents hinv hcall (hhome _ hb)
  | @logLocked p i =>
    refine h.snoc (e := .logWrite p (s.buf i).blockno (s.buf i).data) fun p' b' x he _ => ?_
    cases he

/-- A run keeps the log area where it is, its trace is one of the block store,
and the invariant holds until the kernel panics. -/
theorem inv_of_run [Fintype κ] {s0 : BState ι κ} {as : List (Act ι κ)} (hinit : s0.Init)
    (hcard : Fintype.card κ ≤ s0.size) (hsize : 1 < s0.size)
    (hrun : (blockLayer ι κ).run s0 as = some s) :
    Serves s0.home s0.disk s.trace ∧ (s.panicked = none → Inv s0.disk s) := by
  have hall : (s.start = s0.start ∧ s.size = s0.size) ∧ Serves s0.home s0.disk s.trace ∧
      (s.panicked = none → Inv s0.disk s) := by
    refine (blockLayer ι κ).run_invariant (I := fun u =>
      (u.start = s0.start ∧ u.size = s0.size) ∧ Serves s0.home s0.disk u.trace ∧
        (u.panicked = none → Inv s0.disk u)) ?_ ?_ hrun
    · rintro u b v ⟨⟨hstart, hsz⟩, hserves, hinv⟩ hstep
      obtain ⟨hpan, hm⟩ := move_of_step hstep
      obtain ⟨hstart', hsz'⟩ := geometry_of_move hm
      have hhome : ∀ c, s0.home c → u.home c := fun c hc => by
        rw [BState.home, hstart, hsz]
        exact hc
      refine ⟨⟨hstart'.trans hstart, hsz'.trans hsz⟩, hserves.move (hinv hpan) hhome hm, ?_⟩
      exact (hinv hpan).move hm (by rw [hsz]; exact hcard) (by rw [hsz]; exact hsize)
    · refine ⟨⟨rfl, rfl⟩, ?_, fun _ => hinit.inv⟩
      rw [hinit.trace_nil]
      exact serves_nil _
  exact hall.2

/-- Every `bread` of a block outside the log area returns the contents that
`log_write` published last, or the initial ones, in every interleaving of any
number of processes over the `NBUF` buffers of the kernel. -/
theorem block_store {s₀ s : BState ι (Fin NBUF)} {as : List (Act ι (Fin NBUF))}
    (hinit : s₀.Init) (hsize : LOGSIZE ≤ s₀.size)
    (hrun : (blockLayer ι (Fin NBUF)).run s₀ as = some s)
    {pre post : List (Event ι)} {p : ι} {b : Nat} {x : Block}
    (hbread : s.trace = pre ++ .bread p b x :: post) (hhome : s₀.home b) :
    x = store s₀.disk pre b := by
  have hcard : Fintype.card (Fin NBUF) ≤ s₀.size := by
    exact hsize
  have hone : 1 < s₀.size := lt_of_lt_of_le (by decide) hsize
  exact (inv_of_run hinit hcard hone hrun).1 pre p b x post hbread hhome

omit [DecidableEq ι] [Fintype ι] in
theorem BState.booted_init (disk : Nat → Block) (start size : Nat) :
    (BState.booted disk start size : BState ι (Fin NBUF)).Init where
  idle _ := rfl
  running := rfl
  lh_nil := rfl
  outstanding_zero := rfl
  not_committing := rfl
  lru_all i := by simp [BState.booted]
  unreferenced _ := ⟨rfl, rfl, rfl⟩
  unique i j hi := by simp [BState.booted, ROOTDEV] at hi
  coherent i hi := by simp [BState.booted] at hi
  pinned_nil := rfl
  trace_nil := rfl

/-- An operation changes block 50, and a reader outside of any operation reads
it before the commit. -/
def reread : List (Act Bool (Fin NBUF)) :=
  [.beginOp true, .bget true 50, .acquiresleep true, .bread true,
    .modify true ⟨0, zero_lt_NBUF⟩ fun _ => 7, .logWrite true ⟨0, zero_lt_NBUF⟩, .logLocked true,
    .releasesleep true ⟨0, zero_lt_NBUF⟩, .brelse true, .bget false 50, .acquiresleep false,
    .bread false]

/-- The reader gets the published contents while the disk still has the old
ones. -/
theorem block_store_reread : ∃ s pre,
    (blockLayer Bool (Fin NBUF)).run (.booted (fun _ _ => 0) 2 LOGSIZE) reread = some s ∧
      s.disk 50 0 = 0 ∧ s.trace = pre ++ .bread false 50 (fun _ => 7) :: [] ∧
      (fun _ => 7) = store (fun _ _ => 0) pre 50 := by
  obtain ⟨s, pre, hrun, hdisk, htrace⟩ : ∃ s pre,
      (blockLayer Bool (Fin NBUF)).run (.booted (fun _ _ => 0) 2 LOGSIZE) reread = some s ∧
        s.disk 50 0 = 0 ∧ s.trace = pre ++ .bread false 50 (fun _ => 7) :: [] :=
    ⟨_, [.bread true 50 fun _ => 0, .logWrite true 50 fun _ => 7], rfl, rfl, rfl⟩
  exact ⟨s, pre, hrun, hdisk, htrace,
    block_store (BState.booted_init _ 2 LOGSIZE) (le_refl _) hrun htrace (by decide)⟩

end SummerOsk.Bio
