import SummerOsk.Bio.BlockStore

/-!
# When the buffer pool runs out

`bget` panics when its block has no buffer and every buffer has a reference.
References are held by processes, also by those that wait for the disk or for
the lock of a buffer, and by the log, for the blocks that it has pinned.  As
two buffers never have the same block, what matters is the number of blocks in
use: `bget_error_iff`.

`begin_op` reserves space in the log, not buffers, and `read` does not even
call it.  So nothing keeps the number of blocks in use below `NBUF`: one
`read` call in each of 31 processes is enough (`thirty_one_readers`).
-/

namespace SummerOsk.Bio

open Lib Log BState Finset

variable {ι κ : Type} [DecidableEq ι] [DecidableEq κ] [Fintype ι] {d : Nat → Block}
  {s t : BState ι κ} {a : Act ι κ} {i : κ}

/-- Some process holds the lock of the buffer, waits for it, or is in `brelse`
with its reference. -/
def BState.Used (s : BState ι κ) (i : κ) : Prop :=
  (s.buf i).holder.isSome = true ∨ ∃ p, (s.proc p).call.refers i = true

instance (s : BState ι κ) (i : κ) : Decidable (s.Used i) := inferInstanceAs (Decidable (_ ∨ _))

/-- The blocks that processes use or that the log has pinned. -/
def BState.inUse [Fintype κ] (s : BState ι κ) : Finset Nat :=
  ((Finset.univ.filter s.Used).image fun i => (s.buf i).blockno) ∪ s.pinned.toFinset

/-- The buffer that a process is about to drop still has a block. -/
def Releasing (s : BState ι κ) : Prop :=
  ∀ p i, (s.proc p).call = .releasing i → (s.buf i).dev = ROOTDEV

/-! ## References and blocks -/

theorem Releasing.move (h : Releasing s) (hinv : Inv d s) (hm : Move s a t) : Releasing t := by
  intro p i hcall
  have hkeep : (s.proc p).call = .releasing i → (t.buf i).dev = ROOTDEV := by
    intro hold
    have hpos := hinv.refs.refers_pos (i := i) (p := p) (by simp [hold, Call.refers])
    exact (caches_of_move hinv hm ⟨h p i hold, rfl⟩ hpos).1
  rcases eq_or_ne p a.actor with rfl | hp
  · cases hm with
    | panic | beginSleep | modify => exact hkeep hcall
    | beginAdmit | endLast | endMore | memmove | putHead | bwrite | bunpin | clear | leave
    | bread => simp [Act.actor, setProc_proc] at hcall
    | bgetHit | bgetMiss | acquire | logWrite | logLocked | dropRef =>
      simp [Act.actor, setCall_proc] at hcall
    | release hnone hmode hheld hclean =>
      simp only [Act.actor, setCall_proc, if_true, Call.releasing.injEq] at hcall
      subst hcall
      rcases hinv.calls.held _ _ hheld with ⟨b, hlocked⟩ | ⟨hdev, -⟩
      · rw [hnone] at hlocked
        cases hlocked
      · simpa [setBuf_buf] using hdev
    | releaseCommit hproc hr hheld =>
      simp only [Act.actor, setProc_proc, if_true, Call.releasing.injEq] at hcall
      subst hcall
      rcases hinv.calls.held _ _ hheld with ⟨b, hlocked⟩ | ⟨hdev, -⟩
      · rw [hproc] at hlocked
        cases hlocked
      · simpa [setBuf_buf] using hdev
  · rw [proc_of_move hm hp] at hcall
    exact hkeep hcall

section

omit [DecidableEq ι]

theorem Inv.dev_of_used (hinv : Inv d s) (hrel : Releasing s) (h : s.Used i) :
    (s.buf i).dev = ROOTDEV := by
  rcases h with hheld | ⟨p, hp⟩
  · obtain ⟨p, hp⟩ := Option.isSome_iff_exists.mp hheld
    rcases hinv.calls.held i p hp with ⟨b, hlocked⟩ | ⟨hdev, -⟩
    · exact (hinv.calls.locked p b i hlocked).2.1.1
    · exact hdev
  · cases hcall : (s.proc p).call with
    | none | locked | logging => simp [hcall, Call.refers] at hp
    | waiting b j =>
      obtain rfl : j = i := by simpa [hcall, Call.refers] using hp
      exact (hinv.calls.waiting p b j hcall).1.1
    | releasing j =>
      obtain rfl : j = i := by simpa [hcall, Call.refers] using hp
      exact hrel p j hcall

theorem Refs.used_of_refcnt (h : Refs s) (hi : (s.buf i).refcnt ≠ 0) :
    s.Used i ∨ ((s.buf i).dev = ROOTDEV ∧ (s.buf i).blockno ∈ s.pinned) := by
  by_contra hno
  rw [not_or, Used, not_or, not_exists] at hno
  obtain ⟨⟨hheld, hrefers⟩, hpinned⟩ := hno
  have hcount : refCount s i = 0 := by
    rw [refCount, card_eq_zero, filter_eq_empty_iff]
    exact fun p _ => hrefers p
  exact hi (by rw [h.count i, if_neg hheld, if_neg hpinned, hcount]; rfl)

theorem Refs.refcnt_of_used (h : Refs s) (hi : s.Used i) : (s.buf i).refcnt ≠ 0 := by
  rcases hi with hheld | ⟨p, hp⟩
  · obtain ⟨p, hp⟩ := Option.isSome_iff_exists.mp hheld
    have := h.holder_pos hp
    omega
  · have := h.refers_pos hp
    omega

theorem Inv.dev_of_refcnt (hinv : Inv d s) (hrel : Releasing s)
    (hi : (s.buf i).refcnt ≠ 0) : (s.buf i).dev = ROOTDEV := by
  rcases hinv.refs.used_of_refcnt hi with hused | ⟨hdev, -⟩
  · exact hinv.dev_of_used hrel hused
  · exact hdev

end

variable [Fintype κ] {b : Nat} {as : List (Act ι κ)}

section

omit [DecidableEq ι]

/-- The blocks in use are those of the buffers with references. -/
theorem Inv.inUse_eq (hinv : Inv d s) :
    s.inUse = (univ.filter fun i => (s.buf i).refcnt ≠ 0).image fun i =>
      (s.buf i).blockno := by
  ext b
  simp only [inUse, mem_union, mem_image, mem_filter, mem_univ, true_and, List.mem_toFinset]
  constructor
  · rintro (⟨i, hi, rfl⟩ | hb)
    · exact ⟨i, hinv.refs.refcnt_of_used hi, rfl⟩
    · obtain ⟨i, hi, -⟩ := hinv.contents.pinned_valid b hb
      have := hinv.refs.pinned_pos hi hb
      exact ⟨i, by omega, hi.2⟩
  · rintro ⟨i, hi, rfl⟩
    rcases hinv.refs.used_of_refcnt hi with hused | ⟨-, hpinned⟩
    · exact .inl ⟨i, hused, rfl⟩
    · exact .inr hpinned

theorem Inv.card_inUse (hinv : Inv d s) (hrel : Releasing s) :
    s.inUse.card = (univ.filter fun i => (s.buf i).refcnt ≠ 0).card := by
  rw [hinv.inUse_eq]
  refine card_image_of_injOn fun i hi j hj hij => ?_
  have hi' := hinv.dev_of_refcnt hrel (mem_filter.mp hi).2
  have hj' := hinv.dev_of_refcnt hrel (mem_filter.mp hj).2
  exact hinv.refs.unique i j _ ⟨hi', rfl⟩ ⟨hj', hij.symm⟩

/-- `bget` finds no buffer exactly if as many other blocks are in use as there
are buffers. -/
theorem Inv.bget_error_iff (hinv : Inv d s) (hrel : Releasing s) (b : Nat) :
    (∃ e, s.bget b = .error e) ↔ b ∉ s.inUse ∧ Fintype.card κ ≤ s.inUse.card := by
  have hfull : Fintype.card κ ≤ s.inUse.card ↔ ∀ i, (s.buf i).refcnt ≠ 0 := by
    rw [hinv.card_inUse hrel]
    constructor
    · intro hcard i
      have hall := eq_univ_of_card _ (le_antisymm (card_le_univ _) hcard)
      have hi := mem_univ i
      rw [← hall] at hi
      exact (mem_filter.mp hi).2
    · intro hall
      rw [filter_true_of_mem fun i _ => hall i]
      exact le_refl _
  rw [hfull]
  constructor
  · rintro ⟨e, he⟩
    unfold BState.bget at he
    cases hcached : s.cached b with
    | some i =>
      rw [hcached] at he
      cases he
    | none =>
      rw [hcached] at he
      cases hunused : s.unused with
      | some i =>
        rw [hunused] at he
        cases he
      | none =>
        have hall : ∀ i, (s.buf i).refcnt ≠ 0 := fun i => by
          have hmem : i ∈ s.lru.reverse := List.mem_reverse.mpr (hinv.refs.lru_all i)
          simpa using List.find?_eq_none.mp hunused i hmem
        refine ⟨fun hb => ?_, hall⟩
        rw [hinv.inUse_eq] at hb
        obtain ⟨i, hi, hblock⟩ := mem_image.mp hb
        exact hinv.refs.not_caches hcached i ⟨hinv.dev_of_refcnt hrel (hall i), hblock⟩
  · rintro ⟨hb, hall⟩
    have hcached : s.cached b = none := by
      refine List.find?_eq_none.mpr fun i _ hi => hb ?_
      rw [hinv.inUse_eq]
      have hi' : s.Caches i b := by simpa [Caches] using hi
      exact mem_image.mpr ⟨i, by simp [hall i], hi'.2⟩
    have hunused : s.unused = none :=
      List.find?_eq_none.mpr fun i _ hi => hall i (by simpa using hi)
    refine ⟨"bget: no buffers", ?_⟩
    rw [BState.bget, hcached]
    simp only [hunused]

end

/-! ## The panics of a step -/

section

omit [Fintype ι] [Fintype κ]

variable {e : String}

section

omit [DecidableEq ι]

theorem bget_error (h : s.bget b = .error e) : e = "bget: no buffers" := by
  unfold BState.bget at h
  split at h
  · cases h
  · split at h
    · cases h
    · cases h
      rfl

theorem bget_panicked (h : s.bget b = .ok (i, t)) : t.panicked = s.panicked := by
  unfold BState.bget at h
  split at h
  · cases h
    rfl
  · split at h
    · cases h
      rfl
    · cases h

theorem fill_panicked (i : κ) : (s.fill i).panicked = s.panicked := by
  rw [fill_eq]
  rfl

theorem dropRef_panicked (i : κ) : (s.dropRef i).panicked = s.panicked := by
  obtain ⟨l, -, heq⟩ := s.dropRef_eq i
  rw [heq]
  rfl

theorem logWriteLocked_panicked (p : ι) (i : κ) : (s.logWriteLocked p i).panicked = s.panicked := by
  unfold logWriteLocked
  dsimp only
  split_ifs <;> rfl

omit [DecidableEq κ] in
theorem logWriteCheck_error (h : s.logWriteCheck = .error e) : e ≠ "bget: no buffers" := by
  unfold logWriteCheck at h
  split_ifs at h
  all_goals cases h
  all_goals decide

end

variable {p : ι} {regs : Reg → Option κ} {x : Instr}

theorem execInstr_panicked (h : s.execInstr p regs x = some (.ok t)) : t.panicked = s.panicked := by
  cases x <;> simp only [execInstr] at h <;> repeat' split at h
  all_goals cases h
  all_goals rfl

theorem execInstr_error (h : s.execInstr p regs x = some (.error e)) : e = "bwrite" := by
  cases x <;> simp only [execInstr] at h <;> repeat' split at h
  all_goals cases h
  all_goals rfl

end

omit [Fintype ι] in
/-- Only `bget` stops the kernel with this message. -/
theorem panicked_of_step (hstep : s.step a = some t) (ha : ∀ p b, a ≠ .bget p b) :
    t.panicked ≠ some "bget: no buffers" := by
  obtain ⟨hpan, -⟩ := move_of_step hstep
  unfold step at hstep
  rw [if_neg (by simp [hpan])] at hstep
  cases a with
  | bget p b => exact absurd rfl (ha p b)
  | exec p =>
    simp only at hstep
    split at hstep
    · split at hstep
      · rename_i hexec
        cases hstep
        simp [BState.setProc, execInstr_panicked hexec, hpan]
      · rename_i hexec
        cases hstep
        simp [execInstr_error hexec]
      · cases hstep
    · cases hstep
  | logWrite p i =>
    simp only at hstep
    split at hstep
    · split_ifs at hstep
      split at hstep
      · cases hstep
        simp [setCall, BState.setProc, hpan]
      · rename_i hcheck
        cases hstep
        exact fun he => logWriteCheck_error hcheck (Option.some.inj he)
    · cases hstep
  | _ =>
    -- the other panics have other messages
    simp only at hstep
    repeat' split at hstep
    all_goals cases hstep
    all_goals simp [setCall, BState.setProc, setBuf, fill_panicked,
      dropRef_panicked, logWriteLocked_panicked, hpan]

omit [Fintype ι] in
theorem panicked_of_bget {p : ι} (hstep : s.step (.bget p b) = some t) :
    t.panicked = some "bget: no buffers" ↔ ∃ e, s.bget b = .error e := by
  obtain ⟨hpan, -⟩ := move_of_step hstep
  unfold step at hstep
  rw [if_neg (by simp [hpan])] at hstep
  simp only at hstep
  split at hstep
  · split_ifs at hstep
    cases hget : s.bget b with
    | ok x =>
      rw [hget] at hstep
      cases hstep
      have hok : x.2.panicked = s.panicked := bget_panicked (i := x.1) hget
      simp [setCall, BState.setProc, hok, hpan]
    | error e =>
      rw [hget] at hstep
      cases hstep
      simp [bget_error hget]
  · cases hstep

/-! ## Runs -/

/-- There is room for the block of a `bget`: it is in use, or fewer blocks than
buffers are. -/
def Room (s : BState ι κ) : Act ι κ → Prop
  | .bget _ b => b ∈ s.inUse ∨ s.inUse.card < Fintype.card κ
  | _ => True

theorem panicked_iff_not_room (hinv : Inv d s) (hrel : Releasing s) (hstep : s.step a = some t) :
    t.panicked = some "bget: no buffers" ↔ ¬ Room s a := by
  by_cases ha : ∃ p b, a = .bget p b
  · obtain ⟨p, b, rfl⟩ := ha
    rw [panicked_of_bget hstep, hinv.bget_error_iff hrel b, Room, not_or, not_lt]
  · push Not at ha
    refine iff_of_false (panicked_of_step hstep ha) (not_not.mpr ?_)
    cases a with
    | bget p b => exact absurd rfl (ha p b)
    | _ => trivial

omit [Fintype ι] in
/-- A kernel that panicked stays where it is. -/
theorem run_of_panicked (hpan : s.panicked ≠ none) (hrun : (blockLayer ι κ).run s as = some t) :
    as = [] ∧ t = s := by
  cases as with
  | nil => exact ⟨rfl, (Option.some.inj hrun).symm⟩
  | cons a as =>
    obtain ⟨u, hu, -⟩ := (blockLayer ι κ).run_cons_eq_some hrun
    exact absurd (move_of_step hu).1 hpan

theorem no_buffers_iff_of_inv (hinv : Inv d s) (hrel : Releasing s)
    (hcard : Fintype.card κ ≤ s.size) (hsize : 1 < s.size) (hpan : s.panicked = none)
    (hrun : (blockLayer ι κ).run s as = some t) :
    t.panicked ≠ some "bget: no buffers" ↔ (blockLayer ι κ).Meets Room s as := by
  induction as generalizing s with
  | nil =>
    cases hrun
    simp [Machine.Meets, hpan]
  | cons a as ih =>
    obtain ⟨u, hu, hrest⟩ := (blockLayer ι κ).run_cons_eq_some hrun
    have hroom := panicked_iff_not_room hinv hrel hu
    have hmeets : (blockLayer ι κ).Meets Room s (a :: as) ↔
        Room s a ∧ (blockLayer ι κ).Meets Room u as := by
      simp [Machine.Meets, hu]
    rw [hmeets]
    obtain ⟨-, hm⟩ := move_of_step hu
    cases hupan : u.panicked with
    | none =>
      obtain ⟨-, hsz⟩ := geometry_of_move hm
      have hok : Room s a := by
        by_contra hno
        rw [hroom.mpr hno] at hupan
        cases hupan
      rw [ih (hinv.move hm hcard hsize hupan) (hrel.move hinv hm) (hsz ▸ hcard) (hsz ▸ hsize)
        hupan hrest]
      exact ⟨fun h => ⟨hok, h⟩, fun h => h.2⟩
    | some e =>
      obtain ⟨rfl, rfl⟩ := run_of_panicked (by simp [hupan]) hrest
      rw [ne_eq, hroom, not_not]
      exact ⟨fun h => ⟨h, trivial⟩, fun h => h.1⟩

/-- A run of the block layer does not end in the panic of `bget` if and only if
each `bget` of the run was for a block in use, or met fewer than `NBUF` blocks in
use. -/
theorem no_buffers_iff {s₀ s : BState ι (Fin NBUF)} {as : List (Act ι (Fin NBUF))}
    (hinit : s₀.Init) (hsize : LOGSIZE ≤ s₀.size)
    (hrun : (blockLayer ι (Fin NBUF)).run s₀ as = some s) :
    s.panicked ≠ some "bget: no buffers" ↔ (blockLayer ι (Fin NBUF)).Meets Room s₀ as := by
  have hcard : Fintype.card (Fin NBUF) ≤ s₀.size := by
    exact hsize
  refine no_buffers_iff_of_inv hinit.inv (fun p i hcall => ?_) hcard
    (lt_of_lt_of_le (by decide) hsize) hinit.running hrun
  rw [hinit.idle p] at hcall
  cases hcall

theorem room_of_reread :
    (blockLayer Bool (Fin NBUF)).Meets Room (.booted (fun _ _ => 0) 2 LOGSIZE) reread := by
  obtain ⟨s, hrun, hpan⟩ : ∃ s,
      (blockLayer Bool (Fin NBUF)).run (.booted (fun _ _ => 0) 2 LOGSIZE) reread = some s ∧
        s.panicked = none := ⟨_, rfl, rfl⟩
  exact (no_buffers_iff (BState.booted_init _ 2 LOGSIZE) (le_refl _) hrun).mp (by simp [hpan])

/-- Processes 0 to 29 are in `read` calls on files of their own, whose inodes are
cached.  The `bread` in `readi` has the buffer of a data block and waits for the
disk.  Then process 30 calls `read` on another file. -/
def readers : List (Act (Fin NPROC) (Fin NBUF)) :=
  ((List.finRange NPROC).take NBUF).flatMap (fun p => [.bget p (100 + p), .acquiresleep p]) ++
    [.bget ⟨30, by decide⟩ 130]

theorem thirty_one_readers :
    ∃ s, (blockLayer (Fin NPROC) (Fin NBUF)).run (.booted (fun _ _ => 0) 2 LOGSIZE) readers =
      some s ∧ s.panicked = some "bget: no buffers" := by
  have hpan : ((blockLayer (Fin NPROC) (Fin NBUF)).run (.booted (fun _ _ => 0) 2 LOGSIZE)
      readers).map (fun s => s.panicked) = some (some "bget: no buffers") := by decide +kernel
  exact Option.map_eq_some_iff.mp hpan

end SummerOsk.Bio
