import SummerOsk.Bio.Invariant

/-!
# The cache keeps its references

Every move keeps `Refs`: at most one buffer for a block, and exact reference
counts.  The count of a buffer has three parts, `lockRef`, `refCount` and
`pinRef`.  `Refs.of_same_blocks` reduces a move that does not recycle a buffer
to the balance of these parts, buffer by buffer.
-/

namespace SummerOsk.Bio

open Lib Log Function BState

variable {ι κ : Type} [DecidableEq κ] [Fintype ι] {d : Nat → Block} {s t : BState ι κ} {y : Proc κ}
  {p : ι}

/-! ## Counting references -/

/-- The reference of the lock holder to a buffer. -/
def lockRef (s : BState ι κ) (i : κ) : Int :=
  if (s.buf i).holder.isSome = true then 1 else 0

/-- The reference of the log to a buffer. -/
def pinRef (s : BState ι κ) (i : κ) : Int :=
  if (s.buf i).dev = ROOTDEV ∧ (s.buf i).blockno ∈ s.pinned then 1 else 0

section

omit [DecidableEq κ] [Fintype ι]

theorem pinRef_nonneg (s : BState ι κ) (i : κ) : 0 ≤ pinRef s i := by
  unfold pinRef
  split_ifs <;> omega

theorem lockRef_nonneg (s : BState ι κ) (i : κ) : 0 ≤ lockRef s i := by
  unfold lockRef
  split_ifs <;> omega

end

/-- The parts of the count of a buffer. -/
def parts (s : BState ι κ) (i : κ) : Int := lockRef s i + refCount s i + pinRef s i

theorem Refs.count_eq (h : Refs s) (i : κ) : (s.buf i).refcnt = parts s i := h.count i

/-- The count of the calls changes with the process that moves. -/
theorem refCount_update [DecidableEq ι] (hproc : t.proc = update s.proc p y) (i : κ) :
    refCount t i + (if (s.proc p).call.refers i = true then 1 else 0) =
      refCount s i + if y.call.refers i = true then 1 else 0 := by
  have h := card_filter_update (fun y : Proc κ => y.call.refers i) s.proc p y
  rw [← hproc] at h
  exact h

/-- A move that does not recycle a buffer keeps the references, if each count
changes with its parts. -/
theorem Refs.of_same_blocks (h : Refs s) (hlru : ∀ i, i ∈ t.lru)
    (htag : ∀ j, (t.buf j).dev = (s.buf j).dev ∧ (t.buf j).blockno = (s.buf j).blockno)
    (hcount : ∀ j, (t.buf j).refcnt + parts s j = (s.buf j).refcnt + parts t j) : Refs t := by
  have hcaches : ∀ j b, t.Caches j b → s.Caches j b := by
    rintro j b ⟨hdev, hblock⟩
    exact ⟨(htag j).1 ▸ hdev, (htag j).2 ▸ hblock⟩
  refine ⟨hlru, fun i j b hi hj => h.unique i j b (hcaches i b hi) (hcaches j b hj),
    fun j => ?_⟩
  have hold := h.count_eq j
  have hnew := hcount j
  change (t.buf j).refcnt = parts t j
  omega

variable [DecidableEq ι] {b : Nat} {i : κ} {x : Buf ι}

section

variable (h : Refs s)

include h

/-- The move changes the references of buffer `i` only, and leaves the pins
alone. -/
theorem Refs.of_one (hlru : ∀ i, i ∈ t.lru) (hpin : t.pinned = s.pinned)
    (hproc : t.proc = update s.proc p y) (hbuf : t.buf = update s.buf i x)
    (htag : x.dev = (s.buf i).dev ∧ x.blockno = (s.buf i).blockno)
    (hother : ∀ j, j ≠ i → (s.proc p).call.refers j = false ∧ y.call.refers j = false)
    (hcount : x.refcnt + lockRef s i + (if (s.proc p).call.refers i = true then 1 else 0) =
      (s.buf i).refcnt + (if x.holder.isSome = true then 1 else 0) +
        (if y.call.refers i = true then 1 else 0)) : Refs t := by
  have htags : ∀ j, (t.buf j).dev = (s.buf j).dev ∧ (t.buf j).blockno = (s.buf j).blockno := by
    intro j
    by_cases hj : j = i
    · rw [hbuf, hj, update_self]
      exact htag
    · rw [hbuf, update_of_ne hj]
      exact ⟨rfl, rfl⟩
  refine h.of_same_blocks hlru htags fun j => ?_
  have hpins : pinRef t j = pinRef s j := by
    rw [pinRef, pinRef, (htags j).1, (htags j).2, hpin]
  have hrefs := refCount_update hproc j
  unfold parts
  rcases eq_or_ne j i with rfl | hj
  · have hj : t.buf j = x := by rw [hbuf, update_self]
    have hlock : lockRef t j = if x.holder.isSome = true then 1 else 0 := by rw [lockRef, hj]
    rw [hlock, hj]
    split_ifs at hcount hrefs ⊢ <;> omega
  · obtain ⟨hold, hnew⟩ := hother j hj
    have hlock : lockRef t j = lockRef s j := by
      rw [lockRef, lockRef, hbuf, update_of_ne hj]
    rw [hold, hnew] at hrefs
    rw [hbuf, update_of_ne hj]
    omega

section

variable (hlru : t.lru = s.lru) (hpin : t.pinned = s.pinned) (hproc : t.proc = update s.proc p y)

include hlru hpin hproc

/-- The move leaves the counts and the holders alone, and no call gains or
loses a reference. -/
theorem Refs.quiet
    (hbuf : ∀ j, (t.buf j).dev = (s.buf j).dev ∧ (t.buf j).blockno = (s.buf j).blockno ∧
      (t.buf j).refcnt = (s.buf j).refcnt ∧ (t.buf j).holder = (s.buf j).holder)
    (hcall : ∀ j, (s.proc p).call.refers j = false ∧ y.call.refers j = false) : Refs t := by
  refine h.of_same_blocks (by rw [hlru]; exact h.lru_all)
    (fun j => ⟨(hbuf j).1, (hbuf j).2.1⟩) fun j => ?_
  obtain ⟨hdev, hblock, hrefcnt, hholder⟩ := hbuf j
  have hrefs := refCount_update hproc j
  rw [(hcall j).1, (hcall j).2] at hrefs
  have hpins : pinRef t j = pinRef s j := by rw [pinRef, pinRef, hdev, hblock, hpin]
  have hlock : lockRef t j = lockRef s j := by rw [lockRef, lockRef, hholder]
  unfold parts
  omega

/-- The form for a change of one buffer. -/
theorem Refs.quiet_set (hbuf : t.buf = update s.buf i x)
    (hx : x.dev = (s.buf i).dev ∧ x.blockno = (s.buf i).blockno ∧
      x.refcnt = (s.buf i).refcnt ∧ x.holder = (s.buf i).holder)
    (hcall : ∀ j, (s.proc p).call.refers j = false ∧ y.call.refers j = false) : Refs t := by
  refine h.quiet hlru hpin hproc (fun j => ?_) hcall
  by_cases hj : j = i
  · rw [hbuf, hj, update_self]
    exact hx
  · rw [hbuf, update_of_ne hj]
    exact ⟨rfl, rfl, rfl, rfl⟩

end

/-! ## The moves that change what a buffer stands for or its pin -/

/-- A recycled buffer had no reference, and the new block had no buffer. -/
theorem Refs.bgetMiss (hpinned : ∀ b ∈ s.pinned, ∃ i, s.Caches i b)
    (hcall : (s.proc p).call = .none) (hmiss : s.cached b = none) (hi : s.unused = some i) :
    Refs ((s.setBuf i { s.buf i with
      dev := ROOTDEV, blockno := b, valid := false, refcnt := 1 }).setCall p
      (.waiting b i)) := by
  have hnone := h.not_caches hmiss
  have hb : b ∉ s.pinned := fun hb => (hpinned b hb).elim fun j hj => hnone j hj
  refine ⟨h.lru_all, fun j k c hj hk => ?_, fun j => ?_⟩
  · simp only [Caches, setCall_buf, setBuf_buf] at hj hk
    by_cases hji : j = i <;> by_cases hki : k = i
    · rw [hji, hki]
    · simp only [hji, hki, if_true, if_false] at hj hk
      exact absurd (hj.2 ▸ hk) (hnone k)
    · simp only [hji, hki, if_true, if_false] at hj hk
      exact absurd (hk.2 ▸ hj) (hnone j)
    · simp only [hji, hki, if_false] at hj hk
      exact h.unique j k c hj hk
  · generalize ht : (s.setBuf i { s.buf i with
      dev := ROOTDEV, blockno := b, valid := false, refcnt := 1 }).setCall p
      (.waiting b i) = t
    have hproc : t.proc = update s.proc p { s.proc p with call := .waiting b i } := by
      rw [← ht]
      rfl
    have hbuf : t.buf j = if j = i then { s.buf i with
        dev := ROOTDEV, blockno := b, valid := false, refcnt := 1 } else s.buf j := by
      rw [← ht, setCall_buf, setBuf_buf]
    have hpin : t.pinned = s.pinned := by
      rw [← ht]
      rfl
    have hrefs := refCount_update hproc j
    have hold := h.count_eq j
    change (t.buf j).refcnt = parts t j
    unfold parts at hold ⊢
    rcases eq_or_ne j i with rfl | hj
    · have hzero := unused_refcnt hi
      have hlock : lockRef t j = lockRef s j := by simp [lockRef, hbuf]
      have hpins : pinRef t j = 0 := by simp [pinRef, hbuf, hpin, hb]
      have := pinRef_nonneg s j
      have := lockRef_nonneg s j
      have hone : (t.buf j).refcnt = 1 := by rw [hbuf, if_pos rfl]
      simp only [hcall, Call.refers, decide_true, if_true, Bool.false_eq_true, if_false] at hrefs
      omega
    · have hji : ¬ i = j := fun h => hj h.symm
      rw [if_neg hj] at hbuf
      have hlock : lockRef t j = lockRef s j := by rw [lockRef, lockRef, hbuf]
      have hpins : pinRef t j = pinRef s j := by rw [pinRef, pinRef, hbuf, hpin]
      simp only [hcall, Call.refers, hji, decide_false, Bool.false_eq_true, if_false] at hrefs
      rw [hbuf]
      omega

/-- The move changes the pin of the block of buffer `i` and its count with
it. -/
theorem Refs.of_pin (hi : s.Caches i b) (hlru : t.lru = s.lru) (hproc : t.proc = update s.proc p y)
    (hbuf : ∀ j, (t.buf j).dev = (s.buf j).dev ∧ (t.buf j).blockno = (s.buf j).blockno ∧
      (t.buf j).holder = (s.buf j).holder ∧ (j ≠ i → (t.buf j).refcnt = (s.buf j).refcnt))
    (hcall : ∀ j, (s.proc p).call.refers j = false ∧ y.call.refers j = false)
    (hpin : ∀ c, c ≠ b → (c ∈ t.pinned ↔ c ∈ s.pinned))
    (hcount : (t.buf i).refcnt + (if b ∈ s.pinned then 1 else 0) =
      (s.buf i).refcnt + (if b ∈ t.pinned then 1 else 0)) : Refs t := by
  refine h.of_same_blocks (by rw [hlru]; exact h.lru_all)
    (fun j => ⟨(hbuf j).1, (hbuf j).2.1⟩) fun j => ?_
  obtain ⟨hdev, hblock, hholder, hrefcnt⟩ := hbuf j
  have hrefs := refCount_update hproc j
  rw [(hcall j).1, (hcall j).2] at hrefs
  have hlock : lockRef t j = lockRef s j := by rw [lockRef, lockRef, hholder]
  unfold parts
  rcases eq_or_ne j i with rfl | hj
  · have hpins : ∀ u : BState ι κ, (u.buf j).dev = (s.buf j).dev →
        (u.buf j).blockno = (s.buf j).blockno →
        pinRef u j = if b ∈ u.pinned then 1 else 0 := by
      intro u hd hb
      simp [pinRef, hd, hb, hi.1, hi.2]
    rw [hpins t hdev hblock, hpins s rfl rfl]
    omega
  · have hpins : pinRef t j = pinRef s j := by
      unfold pinRef
      rw [hdev, hblock]
      by_cases hroot : (s.buf j).dev = ROOTDEV
      · have hne : (s.buf j).blockno ≠ b := fun hb => hj (h.unique j i b ⟨hroot, hb⟩ hi)
        simp only [hpin _ hne]
      · simp [hroot]
    have := hrefcnt hj
    omega

theorem Refs.logLocked (hcall : (s.proc p).call = .logging i) (hi : s.Caches i b)
    (hpin : s.pinned = s.lh) : Refs ((s.logWriteLocked p i).setCall p .none) := by
  have hrefers : ∀ j, (s.proc p).call.refers j = false := fun j => by simp [hcall, Call.refers]
  by_cases hb : (s.buf i).blockno ∈ s.lh
  · rw [logWriteLocked_absorb _ _ _ hb]
    exact h.quiet_set rfl rfl rfl rfl ⟨rfl, rfl, rfl, rfl⟩ fun j => ⟨hrefers j, rfl⟩
  · rw [logWriteLocked_new _ _ _ hb]
    refine h.of_pin ⟨hi.1, rfl⟩ rfl rfl (fun j => ?_) (fun j => ⟨hrefers j, rfl⟩)
      (fun c hc => ?_) ?_
    · rcases eq_or_ne j i with rfl | hj
      · simp [setBuf_buf]
      · simp [setBuf_buf, hj]
    · simp [setCall, BState.setProc, hc]
    · simp [setBuf_buf, setCall, BState.setProc, hpin, hb]

theorem Refs.bunpin (hi : s.Caches i b)
    (hcall : ∀ j, (s.proc p).call.refers j = false ∧ y.call.refers j = false) (hb : b ∈ s.pinned)
    (hnodup : s.pinned.Nodup) :
    Refs ({ s.setBuf i { s.buf i with refcnt := (s.buf i).refcnt - 1 } with
      pinned := s.pinned.erase (s.buf i).blockno }.setProc p y) := by
  refine h.of_pin hi rfl rfl (fun j => ?_) hcall (fun c hc => ?_) ?_
  · rcases eq_or_ne j i with rfl | hj
    · simp [setBuf_buf]
    · simp [setBuf_buf, hj]
  · simp only [BState.setProc, hi.2]
    exact List.mem_erase_of_ne hc
  · have hnot : b ∉ s.pinned.erase b := hnodup.not_mem_erase
    simp [setBuf_buf, BState.setProc, hi.2, hb, hnot]

end

/-- Every move that does not panic keeps the references. -/
theorem Refs.move {a : Act ι κ} (hinv : Inv d s) (hm : Move s a t)
    (hrun : t.panicked = none) : Refs t := by
  have h := hinv.refs
  have hnone : ∀ {p : ι} {m : Mode κ}, s.proc p = ⟨m, .none⟩ →
      ∀ j, (s.proc p).call.refers j = false := fun hp j => by simp [hp, Call.refers]
  cases hm with
  | panic e => cases hrun
  | beginSleep => exact h
  | beginAdmit hp | endLast hp | endMore hp | clear hp | leave hp | bwrite hp | logWrite hp =>
    exact h.quiet rfl rfl rfl (fun _ => ⟨rfl, rfl, rfl, rfl⟩) fun j => ⟨hnone hp j, rfl⟩
  | bgetHit hcall hread hi =>
    refine h.of_one h.lru_all rfl rfl rfl ⟨rfl, rfl⟩ (fun j hj => ?_) ?_
    · simp [hcall, Call.refers, Ne.symm hj]
    · simp [lockRef, hcall, Call.refers]
      ring
  | bgetMiss hcall hread hmiss hi =>
    exact h.bgetMiss (fun b hb => (hinv.contents.pinned_valid b hb).imp fun _ h => h.1)
      hcall hmiss hi
  | acquire hcall hfree =>
    refine h.of_one h.lru_all rfl rfl rfl ⟨rfl, rfl⟩ (fun j hj => ?_) ?_
    · simp [hcall, Call.refers, Ne.symm hj]
    · simp [lockRef, hcall, hfree, Call.refers]
  | bread hcall =>
    rw [fill_eq]
    exact h.quiet_set rfl rfl rfl rfl ⟨rfl, rfl, rfl, rfl⟩
      fun j => ⟨by simp [hcall, Call.refers], rfl⟩
  | @modify p i x hp hheld =>
    exact h.quiet_set rfl rfl (update_eq_self p s.proc).symm rfl ⟨rfl, rfl, rfl, rfl⟩
      fun j => ⟨hnone hp j, hnone hp j⟩
  | @logLocked p i hcall =>
    obtain ⟨hheld, hmode⟩ := hinv.calls.logging p i hcall
    have hpin := hinv.contents.pinned_lh (hinv.gate.not_owner_of_inside (p := p)
      (by simp [hmode, Mode.role]))
    rcases hinv.calls.held i p hheld with ⟨b, hlocked⟩ | ⟨hdev, -, -⟩
    · rw [hcall] at hlocked
      cases hlocked
    · exact h.logLocked hcall ⟨hdev, rfl⟩ hpin
  | @release p i hcall hmode hheld hclean =>
    refine h.of_one h.lru_all rfl rfl rfl ⟨rfl, rfl⟩ (fun j hj => ?_) ?_
    · simp [hcall, Call.refers, Ne.symm hj]
    · simp [lockRef, hcall, hheld, Call.refers]
  | releaseCommit hp hr hheld =>
    refine h.of_one h.lru_all rfl rfl rfl ⟨rfl, rfl⟩ (fun j hj => ?_) ?_
    · simp [hp, Call.refers, Ne.symm hj]
    · simp [lockRef, hp, hheld, Call.refers]
  | @dropRef p i hcall =>
    obtain ⟨l, hl, heq⟩ := s.dropRef_eq i
    rw [heq]
    refine h.of_one (fun j => hl j (h.lru_all j)) rfl rfl rfl ⟨rfl, rfl⟩ (fun j hj => ?_) ?_
    · simp [hcall, Call.refers, Ne.symm hj]
    · simp [lockRef, hcall, Call.refers]
      ring
  | memmove hp | putHead hp =>
    exact h.quiet_set rfl rfl rfl rfl ⟨rfl, rfl, rfl, rfl⟩ fun j => ⟨hnone hp j, rfl⟩
  | @bunpin p r is regs i hp hr =>
    obtain ⟨b, x, hreg, hb, -, -⟩ := hinv.contents.fine_of_proc hp (by simp)
    have hreg := reg_of_view hr hreg
    have hcaches := (hinv.calls.reg_valid (p := p) (r := r) (by rw [hp]; exact hr)).1
    rw [hreg.1] at hcaches
    exact h.bunpin hcaches (fun j => ⟨hnone hp j, rfl⟩) hb hinv.contents.nodup

end SummerOsk.Bio
