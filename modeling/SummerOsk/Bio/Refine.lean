import SummerOsk.Bio.Cache
import SummerOsk.Bio.Ownership
import Mathlib.Data.Fintype.EquivFin

/-!
# The block layer refines a block store

Every move keeps `Contents`, so the invariant holds along every run
(`inv_of_run`).  `bread_contents` is what it is for: a `bread` of a home block
returns what the abstract store has.  `block_store` states it for every run.
-/

namespace SummerOsk.Bio

open Log Function List BState

variable {ι κ : Type} [DecidableEq ι] [DecidableEq κ] [Fintype ι] {d : Nat → Block}
  {s t : BState ι κ} {a : Act ι κ} {regs : Reg → Option κ} {is : List Instr} {b : Nat} {p : ι}
  {r : Reg} {i j : κ}

/-! ## What `bread` returns -/

section

omit [DecidableEq ι]

omit [Fintype ι] in
theorem fill_data (s : BState ι κ) (i : κ) : ((s.fill i).buf i).data =
    if (s.buf i).valid then (s.buf i).data else s.disk (s.buf i).blockno := by
  rw [fill_eq, setBuf_buf, if_pos rfl]

/-- `bread` of a home block returns its published contents. -/
theorem bread_contents (hinv : Inv d s) (hcall : (s.proc p).call = .locked b i) (hhome : s.home b) :
    ((s.fill i).buf i).data = store d s.trace b := by
  obtain ⟨hheld, hcaches, -⟩ := hinv.calls.locked p b i hcall
  rw [fill_data]
  split_ifs with hvalid
  · refine hinv.contents.home_data i b hcaches hhome hvalid ?_
    by_contra hdirty
    obtain ⟨q, hq, -, hnot⟩ := hinv.calls.dirty i (by simpa using hdirty)
    rw [hheld] at hq
    cases hq
    exact hnot b hcall
  · rw [hcaches.2]
    refine hinv.contents.disk_home b hhome fun hb => hvalid ?_
    -- a pinned block has a valid buffer, and there is only one buffer
    obtain ⟨j, hj, hjvalid⟩ := hinv.contents.pinned_valid b hb
    rwa [hinv.refs.unique i j b hcaches hj]

/-- `bread` of a log block returns what is on disk. -/
theorem bread_log_contents (hinv : Inv d s) (hcall : (s.proc p).call = .locked b i)
    (hlog : ¬ s.home b) : ((s.fill i).buf i).data = s.disk b := by
  obtain ⟨hheld, hcaches, -⟩ := hinv.calls.locked p b i hcall
  rw [fill_data]
  split_ifs with hvalid
  · refine hinv.contents.log_data i b hcaches hlog hvalid fun q r hr => ?_
    obtain ⟨hq, hnot⟩ := hinv.calls.regs q r i hr
    rw [hheld] at hq
    cases hq
    exact hnot b hcall
  · rw [hcaches.2]

omit [DecidableEq κ] [Fintype ι] in
/-- What a process in an operation holds and may change is a valid buffer of a
home block. -/
theorem Calls.usable (h : Calls s) (hheld : (s.buf i).holder = some p)
    (hmode : (s.proc p).mode = .inOp) (hcall : ∀ b, (s.proc p).call ≠ .locked b i) :
    s.Caches i (s.buf i).blockno ∧ (s.buf i).valid = true ∧ s.home (s.buf i).blockno := by
  rcases h.held i p hheld with ⟨b, hlocked⟩ | ⟨hdev, hvalid, hhome | ⟨r, hr⟩⟩
  · exact absurd hlocked (hcall b)
  · exact ⟨⟨hdev, rfl⟩, hvalid, hhome⟩
  · simp [hmode, Mode.regs] at hr

end

/-! ## Home blocks -/

section

variable (hinv : Inv d s)

include hinv

/-- `log_write` publishes the contents of its buffer and of no other. -/
theorem home_data_of_logLocked (hj : s.Caches j (s.buf j).blockno)
    (hcaches : ((s.logWriteLocked p j).setCall p .none).Caches i b) (hhome : s.home b)
    (hvalid : (((s.logWriteLocked p j).setCall p .none).buf i).valid)
    (hclean : (((s.logWriteLocked p j).setCall p .none).buf i).dirty = false) :
    (((s.logWriteLocked p j).setCall p .none).buf i).data =
      store d ((s.logWriteLocked p j).setCall p .none).trace b := by
  obtain ⟨n, hbuf⟩ := s.logWriteLocked_buf j p
  have htrace : ((s.logWriteLocked p j).setCall p .none).trace =
      s.trace ++ [.logWrite p (s.buf j).blockno (s.buf j).data] := rfl
  rw [htrace, store_logWrite]
  simp only [Caches, setCall_buf, hbuf] at hcaches hvalid hclean ⊢
  rcases eq_or_ne i j with rfl | hij
  · simp only [update_self] at hcaches ⊢
    rw [hcaches.2, update_self]
  · rw [update_of_ne hij] at hcaches hvalid hclean ⊢
    have hne : b ≠ (s.buf j).blockno := by
      rintro rfl
      exact hij (hinv.refs.unique i j _ hcaches hj)
    rw [update_of_ne hne]
    exact hinv.contents.home_data i b hcaches hhome hvalid hclean

theorem home_data_of_move (hm : Move s a t) :
    ∀ i b, t.Caches i b → t.home b → (t.buf i).valid = true → (t.buf i).dirty = false →
      (t.buf i).data = store d t.trace b := by
  intro i b hcaches hhome hvalid hclean
  rw [home_of_move hm] at hhome
  have hold := hinv.contents.home_data i b
  have hset : ∀ {j : κ} {x : Buf ι}, t.buf = update s.buf j x →
      store d t.trace = store d s.trace →
      (i = j → x.dev = ROOTDEV → x.blockno = b → x.valid = true → x.dirty = false →
        x.data = store d s.trace b) → (t.buf i).data = store d t.trace b := by
    intro j x hbuf hstore hx
    rw [Caches] at hcaches
    rw [hbuf] at hcaches hvalid hclean ⊢
    rw [hstore]
    rcases eq_or_ne i j with rfl | hj
    · rw [update_self] at hcaches hvalid hclean ⊢
      exact hx rfl hcaches.1 hcaches.2 hvalid hclean
    · rw [update_of_ne hj] at hcaches hvalid hclean ⊢
      exact hold hcaches hhome hvalid hclean
  have hkeep := fun hdev hblock => hold ⟨hdev, hblock⟩ hhome
  cases hm with
  | panic | beginSleep | beginAdmit | logWrite | endLast | endMore | bwrite | clear | leave =>
    exact hold hcaches hhome hvalid hclean
  | bgetHit | bunpin | acquire | release | releaseCommit =>
    refine hset rfl rfl fun hj => ?_
    subst hj
    exact hkeep
  | bgetMiss => exact hset rfl rfl fun _ _ _ hv => by cases hv
  | modify => exact hset rfl rfl fun _ _ _ _ hc => by cases hc
  | dropRef =>
    refine hset (dropRef_buf _ _) (congrArg (store d) (dropRef_frame _ _).1) fun hj => ?_
    subst hj
    exact hkeep
  | @bread p c j hcall =>
    refine hset (fill_buf _ _) (store_bread d _ _ _ _) fun hj hdev hblock _ _ => ?_
    obtain ⟨-, hcaches', -⟩ := hinv.calls.locked p c j hcall
    have hc : c = b := hcaches'.2.symm.trans hblock
    subst hc
    exact (fill_data s j).symm.trans (bread_contents hinv hcall hhome)
  | @logLocked p j hcall =>
    obtain ⟨hheld, hmode⟩ := hinv.calls.logging p j hcall
    obtain ⟨hcaches', -, -⟩ := hinv.calls.usable hheld hmode (by simp [hcall])
    exact home_data_of_logLocked hinv hcaches' hcaches hhome hvalid hclean
  | memmove hp hdst hsrc =>
    obtain ⟨b', x, c, y, hreg, hreg', hy, -⟩ := hinv.contents.fine_of_proc hp (by simp)
    have hreg := reg_of_view hdst hreg
    have hreg' := reg_of_view hsrc hreg'
    refine hset rfl rfl fun hj hdev hblock _ _ => ?_
    have hb : b' = b := hreg.1.symm.trans hblock
    subst hb
    exact hreg'.2.trans (hy hhome)
  | putHead hp hr =>
    obtain ⟨b', x, hreg, hlog, -⟩ := hinv.contents.fine_of_proc hp (by simp)
    have hreg := reg_of_view hr hreg
    refine hset rfl rfl fun hj hdev hblock _ _ => ?_
    have hb : b' = b := hreg.1.symm.trans hblock
    subst hb
    exact absurd hlog hhome

/-! ## Log blocks -/

theorem log_data_of_move (hm : Move s a t) :
    ∀ i b, t.Caches i b → ¬ t.home b → (t.buf i).valid = true →
      (∀ p r, (t.proc p).mode.regs r ≠ some i) → (t.buf i).data = t.disk b := by
  intro i b hcaches hlog hvalid hnone
  rw [home_of_move hm] at hlog
  have hold := hinv.contents.log_data i b
  have hfree : (∀ p, a ≠ .releasesleep p i) → ∀ p r, (s.proc p).mode.regs r ≠ some i := by
    intro ha p r hr
    exact (reg_kept hinv hm hr).elim (hnone p r) (ha p)
  have hset : ∀ {j : κ} {x : Buf ι}, t.buf = update s.buf j x → t.disk = s.disk →
      (∀ p, i ≠ j → a ≠ .releasesleep p i) →
      (i = j → x.dev = ROOTDEV → x.blockno = b → x.valid = true → x.data = s.disk b) →
      (t.buf i).data = t.disk b := by
    intro j x hbuf hdisk ha hx
    rw [Caches] at hcaches
    rw [hbuf] at hcaches hvalid ⊢
    rw [hdisk]
    rcases eq_or_ne i j with rfl | hj
    · rw [update_self] at hcaches hvalid ⊢
      exact hx rfl hcaches.1 hcaches.2 hvalid
    · rw [update_of_ne hj] at hcaches hvalid ⊢
      exact hold hcaches hlog hvalid (hfree fun p => ha p hj)
  cases hm with
  | panic => exact hold hcaches hlog hvalid hnone
  | beginSleep | beginAdmit | logWrite | endLast | endMore | clear | leave =>
    exact hold hcaches hlog hvalid (hfree (by simp))
  | bgetHit | bunpin | acquire =>
    refine hset rfl rfl (by simp) fun hj hdev hblock hv => ?_
    subst hj
    exact hold ⟨hdev, hblock⟩ hlog hv (hfree (by simp))
  | bgetMiss => exact hset rfl rfl (by simp) fun _ _ _ hv => by cases hv
  | modify hp hheld =>
    obtain ⟨-, -, hhome⟩ := hinv.calls.usable hheld (by rw [hp]) (by simp [hp])
    exact hset rfl rfl (by simp) fun _ _ hblock _ => absurd (hblock ▸ hhome) hlog
  | @release p j hcall hmode hheld hclean =>
    refine hset rfl rfl (fun q hij => by simp [Ne.symm hij]) fun hj hdev hblock hv => ?_
    subst hj
    exact hold ⟨hdev, hblock⟩ hlog hv fun q r hr => hnone q r (by simpa using hr)
  | releaseCommit hp hr hheld =>
    obtain ⟨c, x, hreg, hx, -⟩ := hinv.contents.fine_of_proc hp (by simp)
    have hreg := reg_of_view hr hreg
    refine hset rfl rfl (fun q hij => by simp [Ne.symm hij]) fun hj hdev hblock hv => ?_
    have hb : c = b := hreg.1.symm.trans hblock
    subst hb
    exact hreg.2.trans (hx (not_not.mp hlog))
  | dropRef =>
    refine hset (dropRef_buf _ _) (dropRef_frame _ _).2.1 (by simp)
      fun hj hdev hblock hv => ?_
    subst hj
    exact hold ⟨hdev, hblock⟩ hlog hv (hfree (by simp))
  | @bread p c j hcall =>
    obtain ⟨-, hcaches', hread⟩ := hinv.calls.locked p c j hcall
    refine hset (fill_buf _ _) (fill_frame _ _).2.1 (by simp)
      fun hj hdev hblock _ => ?_
    have hc : c = b := hcaches'.2.symm.trans hblock
    subst hc hj
    rcases returned_use hread i with hhome | ⟨r, hr⟩
    · exact absurd hhome hlog
    · exact absurd (by simpa [setProc_proc] using hr) (hnone p r)
  | @logLocked p j hcall =>
    obtain ⟨hheld, hmode⟩ := hinv.calls.logging p j hcall
    obtain ⟨-, -, hhome⟩ := hinv.calls.usable hheld hmode (by simp [hcall])
    obtain ⟨n, hbuf⟩ := s.logWriteLocked_buf j p
    exact hset hbuf (s.logWriteLocked_disk j p) (by simp)
      fun _ _ hblock _ => absurd (hblock ▸ hhome) hlog
  | @memmove p dst src is regs j k hp hdst hsrc =>
    refine hset rfl rfl (by simp) fun hj _ _ _ => ?_
    subst hj
    exact absurd (by simp [setProc_proc, Mode.regs, hdst]) (hnone p dst)
  | @putHead p r is regs j hp hr =>
    refine hset rfl rfl (by simp) fun hj _ _ _ => ?_
    subst hj
    exact absurd (by simp [setProc_proc, Mode.regs, hr]) (hnone p r)
  | @bwrite p r is regs j hp hr =>
    have hreg : (s.proc p).mode.regs r = some j := by rw [hp]; exact hr
    have hne : b ≠ (s.buf j).blockno := by
      rintro rfl
      have hij := hinv.refs.unique i j _ hcaches (hinv.calls.reg_valid hreg).1
      subst hij
      exact hnone p r (by simp [setProc_proc, Mode.regs, hr])
    change (s.buf i).data = update s.disk (s.buf j).blockno (s.buf j).data b
    rw [update_of_ne hne]
    exact hold hcaches hlog hvalid (hfree (by simp))

/-! ## Pinned blocks -/

/-- The buffer of a pinned block is not recycled. -/
theorem pinned_kept (hm : Move s a t) (hb : b ∈ s.pinned) :
    ∃ i, t.Caches i b ∧ (t.buf i).valid = true := by
  obtain ⟨i, hi, hvalid⟩ := hinv.contents.pinned_valid b hb
  have hpos := hinv.refs.pinned_pos hi hb
  exact ⟨i, caches_of_move hinv hm hi hpos, (bufMove_of_move hinv hm i).valid hpos hvalid⟩

theorem pins_of_quiet (hm : Move s a t) (hq : Quiet s t) : Pins d t where
  pinned_home b hb := by
    rw [hq.pinned] at hb
    rw [home_of_move hm]
    exact hinv.contents.pinned_home b hb
  pinned_valid b hb := pinned_kept hinv hm (hq.pinned ▸ hb)
  nodup := hq.pinned ▸ hinv.contents.nodup
  disk_home b hhome hb := by
    rw [home_of_move hm] at hhome
    rw [hq.pinned] at hb
    rw [hq.disk, hq.store]
    exact hinv.contents.disk_home b hhome hb

theorem pins_of_logLocked (hcall : (s.proc p).call = .logging i) :
    Pins d ((s.logWriteLocked p i).setCall p .none) := by
  have hm : Move s (.logLocked p) ((s.logWriteLocked p i).setCall p .none) := .logLocked hcall
  obtain ⟨hheld, hmode⟩ := hinv.calls.logging p i hcall
  obtain ⟨hi, hvalid, hhome⟩ := hinv.calls.usable hheld hmode (by simp [hcall])
  have hpin : s.pinned = s.lh := hinv.contents.pinned_lh
    (hinv.gate.not_owner_of_inside (p := p) (by simp [hmode, Mode.role]))
  set t := (s.logWriteLocked p i).setCall p .none with ht
  -- the block of the buffer joins the pinned ones, if it is not there
  have hpinned : (∀ c, c ∈ t.pinned ↔ c ∈ s.pinned ∨ c = (s.buf i).blockno) ∧ t.pinned.Nodup := by
    by_cases hb : (s.buf i).blockno ∈ s.lh
    · have heq : t.pinned = s.pinned := by
        rw [ht, logWriteLocked_absorb _ _ _ hb]
        rfl
      rw [heq]
      refine ⟨fun c => (or_iff_left_of_imp ?_).symm, hinv.contents.nodup⟩
      rintro rfl
      exact hpin ▸ hb
    · have heq : t.pinned = s.pinned ++ [(s.buf i).blockno] := by
        rw [ht, logWriteLocked_new _ _ _ hb]
        rfl
      rw [heq]
      refine ⟨by simp, nodup_append.mpr ⟨hinv.contents.nodup, by simp, fun x hx y hy => ?_⟩⟩
      rw [mem_singleton.mp hy]
      rintro rfl
      exact hb (hpin ▸ hx)
  refine ⟨fun c hc => ?_, fun c hc => ?_, hpinned.2, fun c hc hnot => ?_⟩
  · rw [home_of_move hm]
    rcases (hpinned.1 c).mp hc with hc | rfl
    · exact hinv.contents.pinned_home c hc
    · exact hhome
  · rcases (hpinned.1 c).mp hc with hc | rfl
    · exact pinned_kept hinv hm hc
    · have hpos := hinv.refs.holder_pos hheld
      exact ⟨i, caches_of_move hinv hm hi hpos, (bufMove_of_move hinv hm i).valid hpos hvalid⟩
  · rw [home_of_move hm] at hc
    rw [hpinned.1, not_or] at hnot
    change (s.logWriteLocked p i).disk c =
      store d (s.trace ++ [.logWrite p (s.buf i).blockno (s.buf i).data]) c
    rw [s.logWriteLocked_disk i p, store_logWrite, update_of_ne hnot.2]
    exact hinv.contents.disk_home c hc hnot.1

theorem Pins.move (hm : Move s a t) : Pins d t := by
  have hquiet : Quiet s t → Pins d t := pins_of_quiet hinv hm
  cases hm with
  | panic | beginSleep | beginAdmit | bgetHit | bgetMiss | acquire | modify | logWrite | release
  | releaseCommit | endLast | endMore | leave | memmove | putHead =>
    exact hquiet ⟨rfl, rfl, rfl, fun _ => rfl⟩
  | dropRef =>
    obtain ⟨htrace, hdisk, hpin, hlh⟩ := s.dropRef_frame _
    exact hquiet ⟨hdisk, hlh, hpin, fun d => congrArg (store d) htrace⟩
  | bread =>
    obtain ⟨htrace, hdisk, hpin, hlh⟩ := s.fill_frame _
    exact hquiet ⟨hdisk, hlh, hpin, fun d => store_bread d _ _ _ _⟩
  | logLocked hcall => exact pins_of_logLocked hinv hcall
  | clear hp => exact ⟨hinv.contents.pinned_home, hinv.contents.pinned_valid,
      hinv.contents.nodup, hinv.contents.disk_home⟩
  | @bwrite p r is regs i hp hr =>
    obtain ⟨c, x, hreg, hx, -⟩ := hinv.contents.fine_of_proc hp (by simp)
    have hreg := reg_of_view hr hreg
    refine ⟨hinv.contents.pinned_home, hinv.contents.pinned_valid, hinv.contents.nodup,
      fun b hb hnot => ?_⟩
    change update s.disk (s.buf i).blockno (s.buf i).data b = store d s.trace b
    by_cases hbi : b = (s.buf i).blockno
    · rw [hbi, update_self, hreg.2, hreg.1]
      refine hx ?_
      rw [← hreg.1, ← hbi]
      exact hb
    · rw [update_of_ne hbi]
      exact hinv.contents.disk_home b hb hnot
  | @bunpin p r is regs i hp hr =>
    have hm : Move s (.exec p) _ := .bunpin hp hr
    obtain ⟨c, x, hreg, hc, hdisk, -⟩ := hinv.contents.fine_of_proc hp (by simp)
    have hreg := reg_of_view hr hreg
    have hsub : ∀ b ∈ s.pinned.erase (s.buf i).blockno, b ∈ s.pinned :=
      fun b hb => mem_of_mem_erase hb
    refine ⟨fun b hb => hinv.contents.pinned_home b (hsub b hb),
      fun b hb => pinned_kept hinv hm (hsub b hb), hinv.contents.nodup.erase _,
      fun b hb hnot => ?_⟩
    change s.disk b = store d s.trace b
    by_cases hbi : b = (s.buf i).blockno
    · rw [hbi, hreg.1]
      exact hdisk
    · exact hinv.contents.disk_home b hb fun hmem =>
        hnot ((mem_erase_of_ne hbi).mpr hmem)

end

/-! ## The committing process -/

omit [Fintype ι] in
/-- A process that commits goes on until `leave`. -/
theorem owner_kept (hm : Move s a t) (hp : (s.proc p).mode.role = .owner) :
    (t.proc p).mode.role = .owner ∨ ∃ regs, s.proc p = ⟨.commit [] regs, .none⟩ ∧
      t.pinned = s.pinned ∧ t.lh = s.lh := by
  by_cases ha : p = a.actor
  swap
  · exact .inl (by rw [proc_of_move hm ha, hp])
  subst ha
  cases hm with
  | panic | beginSleep | modify => exact .inl hp
  | beginAdmit hproc | endMore hproc | endLast hproc =>
    simp [Act.actor, hproc, Mode.role] at hp
  | memmove | putHead | bwrite | bunpin | clear | releaseCommit =>
    exact .inl (by simp [Act.actor, setProc_proc, Mode.role])
  | bgetHit | bgetMiss | acquire | logWrite | release =>
    exact .inl (by rw [setCall_mode]; exact hp)
  | dropRef | logLocked =>
    left
    simpa using hp
  | bread => exact .inl (by simpa [Act.actor, setProc_proc, returned_role] using hp)
  | leave hproc => exact .inr ⟨_, hproc, rfl, rfl⟩

theorem pinned_lh_of_move (hinv : Inv d s) (hm : Move s a t) :
    (∀ p, (t.proc p).mode.role ≠ .owner) → t.pinned = t.lh := by
  intro hnone
  by_cases hs : ∃ p, (s.proc p).mode.role = .owner
  · obtain ⟨p, hp⟩ := hs
    obtain ⟨regs, hproc, hpin, hlh⟩ := (owner_kept hm hp).resolve_left (hnone p)
    rw [hpin, hlh]
    exact (hinv.contents.fine_of_proc hproc (by simp)).2.2
  · have hpl := hinv.contents.pinned_lh fun p hp => hs ⟨p, hp⟩
    rcases quiet_of_move hm with hq | ⟨p, i, -, -, rfl⟩ | ⟨p, -, hp⟩
    · rw [hq.pinned, hq.lh, hpl]
    · by_cases hb : (s.buf i).blockno ∈ s.lh
      · rw [logWriteLocked_absorb _ _ _ hb]
        exact hpl
      · rw [logWriteLocked_new _ _ _ hb]
        simp [setCall, BState.setProc, hpl]
    · exact absurd ⟨p, hp⟩ hs

section

omit [DecidableEq ι] [DecidableEq κ] [Fintype ι]

theorem view_congr (hq : Quiet s t)
    (hregs : ∀ r i, regs r = some i →
      (t.buf i).blockno = (s.buf i).blockno ∧ (t.buf i).data = (s.buf i).data) :
    view d t regs = view d s regs := by
  have hreg : ∀ r, (regs r).map (fun i => ((t.buf i).blockno, (t.buf i).data)) =
      (regs r).map fun i => ((s.buf i).blockno, (s.buf i).data) := by
    intro r
    cases hr : regs r with
    | none => rfl
    | some i =>
      obtain ⟨hblock, hdata⟩ := hregs r i hr
      rw [Option.map_some, Option.map_some, hblock, hdata]
  simp only [view, hq.disk, hq.store, hq.lh, hq.pinned, hreg]

theorem view_setReg {x : Option κ} :
    view d s (update regs r x) =
      (view d s regs).setReg r (x.map fun i => ((s.buf i).blockno, (s.buf i).data)) := by
  cases r <;> simp [view, View.setReg]

end

/-- The other processes leave a running `commit` alone. -/
theorem fine_of_other (hinv : Inv d s) (hm : Move s a t) (hp : p ≠ a.actor)
    (hmode : (s.proc p).mode = .commit is regs) :
    Fine t.start t.size (view d t regs) is ∨ Stuck t p := by
  have hq := quiet_of_owner hinv hm (p := p) (by rw [hmode]; rfl) hp
  obtain ⟨hstart, hsize⟩ := geometry_of_move hm
  rcases hinv.contents.fine p is regs hmode with hfine | ⟨⟨is', regs', hproc⟩, hall⟩
  · left
    rw [hstart, hsize, view_congr hq]
    · exact hfine
    · intro r i hr
      have hheld := (hinv.calls.regs p r i (by rw [hmode]; exact hr)).1
      have hbuf := (bufMove_of_move hinv hm i).other hinv.refs hheld hp
      rw [hbuf]
      exact ⟨rfl, rfl⟩
  · right
    refine ⟨⟨is', regs', by rw [proc_of_move hm hp, hstart, hproc]⟩, fun i => ?_⟩
    obtain ⟨b, hb, hi⟩ := hall i
    exact ⟨b, hq.pinned ▸ hb, caches_of_move hinv hm hi (hinv.refs.pinned_pos hi hb)⟩

omit [DecidableEq ι] in
/-- A full cache of pinned buffers. -/
theorem all_pinned [Fintype κ] (hinv : Inv d s)
    (hfull : Fintype.card κ ≤ s.pinned.length) (i : κ) : ∃ b ∈ s.pinned, s.Caches i b := by
  have : Nonempty κ := ⟨i⟩
  choose! f hf using hinv.contents.pinned_valid
  have hinj : Set.InjOn f s.pinned.toFinset := by
    intro b hb c hc heq
    have hb := (hf b (by simpa using hb)).1
    have hc := (hf c (by simpa using hc)).1
    rw [heq] at hb
    exact hb.2.symm.trans hc.2
  have hcard : (s.pinned.toFinset.image f).card = s.pinned.length := by
    rw [Finset.card_image_of_injOn hinj, toFinset_card_of_nodup hinv.contents.nodup]
  have huniv : s.pinned.toFinset.image f = Finset.univ := by
    refine Finset.eq_univ_of_card _ (le_antisymm (Finset.card_le_univ _) ?_)
    rw [hcard]
    exact hfull
  obtain ⟨b, hb, rfl⟩ := Finset.mem_image.mp (huniv ▸ Finset.mem_univ i)
  have hb : b ∈ s.pinned := by simpa using hb
  exact ⟨b, hb, (hf b hb).1⟩

/-- `commit` starts with a header that fits in the log, or with every buffer
pinned. -/
theorem fine_of_endLast [Fintype κ] (hinv : Inv d s) (hcard : Fintype.card κ ≤ s.size)
    (hsize : 1 < s.size) (hp : s.proc p = ⟨.inOp, .none⟩) :
    Fine s.start s.size (view d s fun _ => none) (commitProg s.start s.lh) ∨
      Stuck ({ s with outstanding := 0, committing := true }.setProc p
        ⟨.commit (commitProg s.start s.lh) fun _ => none, .none⟩) p := by
  have hpin : s.pinned = s.lh := hinv.contents.pinned_lh
    (hinv.gate.not_owner_of_inside (p := p) (by simp [hp, Mode.role]))
  by_cases hlen : s.lh.length < s.size
  · left
    have hfine : Fine s.start s.size ⟨s.disk, store d s.trace, s.lh, s.lh, none, none⟩
        (commitProg s.start s.lh) :=
      fine_commitProg hlen fun b hb => hinv.contents.pinned_home b (hpin ▸ hb)
    simpa [view, hpin] using hfine
  · right
    have hall := all_pinned hinv (show Fintype.card κ ≤ s.pinned.length by rw [hpin]; omega)
    obtain ⟨b, bs, hlh⟩ : ∃ b bs, s.lh = b :: bs :=
      exists_cons_of_length_pos (by omega)
    obtain ⟨rest, hrest⟩ : ∃ rest, commitProg s.start (b :: bs) =
        .bread .lbuf (s.start + 1) :: rest := ⟨_, rfl⟩
    refine ⟨⟨rest, fun _ => none, ?_⟩, hall⟩
    rw [setProc_proc, if_pos rfl, hlh, hrest]
    rfl

section

omit [DecidableEq ι]

omit [Fintype ι] in
/-- A change of a buffer other than those in the registers, or of neither its
block nor its data, does not show. -/
theorem view_setBuf (hq : Quiet s t) {x : Buf ι} (hbuf : t.buf = update s.buf j x)
    (hx : (∀ r, regs r ≠ some j) ∨
      (x.blockno = (s.buf j).blockno ∧ x.data = (s.buf j).data)) :
    view d t regs = view d s regs := by
  refine view_congr hq fun r i hr => ?_
  rcases eq_or_ne i j with rfl | hij
  · obtain ⟨hblock, hdata⟩ := hx.resolve_left fun h => h r hr
    rw [hbuf, update_self]
    exact ⟨hblock, hdata⟩
  · rw [hbuf, update_of_ne hij]
    exact ⟨rfl, rfl⟩

omit [Fintype ι] in
/-- A change of the data of the buffer in a register. -/
theorem view_write (hq : Quiet s t) (hr : regs r = some i) (hinj : ∀ r', regs r' = some i → r' = r)
    {x : Block} (hbuf : t.buf = update s.buf i { s.buf i with data := x }) :
    view d t regs = (view d s regs).setReg r (some ((s.buf i).blockno, x)) := by
  have hfree : ∀ r', update regs r none r' ≠ some i := by
    intro r' hr'
    by_cases hne : r' = r
    · simp [hne] at hr'
    · rw [update_of_ne hne] at hr'
      exact hne (hinj r' hr')
  have hregs : regs = update (update regs r none) r (some i) := by
    rw [update_idem, ← hr, update_eq_self]
  have hview : view d t (update regs r none) = view d s (update regs r none) :=
    view_setBuf hq hbuf (.inl hfree)
  rw [hregs, view_setReg, hview, ← hregs, view_setReg, Option.map_some, hbuf, update_self]
  cases r <;> rfl

/-- A stuck `commit` finds no buffer for its first `bread`. -/
theorem Stuck.no_buffers (hinv : Inv d s) (hsize : 1 < s.size) (h : Stuck s p)
    (hread : s.mayRead p b) (i : κ) : ¬ s.Caches i b ∧ 1 ≤ (s.buf i).refcnt := by
  obtain ⟨⟨is, regs, hp⟩, hall⟩ := h
  have hb : b = s.start + 1 := by
    rcases mayRead_cases hread with ⟨r, is', regs', hmode⟩ | ⟨hrole, -⟩
    · rw [hp] at hmode
      cases hmode
      rfl
    · simp [hp, Mode.role] at hrole
  obtain ⟨c, hc, hi⟩ := hall i
  refine ⟨fun hib => ?_, hinv.refs.pinned_pos hi hc⟩
  have hcb : c = s.start + 1 := hi.2.symm.trans (hib.2.trans hb)
  exact hinv.contents.pinned_home c hc ⟨by omega, by omega⟩

/-- The buffer that `bread` returns to `commit` is as `Fine` expects. -/
theorem fine_of_bread (hinv : Inv d s) (hcall : (s.proc p).call = .locked b i)
    (hmode : (s.proc p).mode.returned i = .commit is regs) (hq : Quiet s t)
    (hbuf : t.buf = (s.fill i).buf) : Fine s.start s.size (view d t regs) is := by
  obtain ⟨hheld, hcaches, hread⟩ := hinv.calls.locked p b i hcall
  rcases mayRead_cases hread with ⟨r, is', regs', hold⟩ | ⟨hrole, -⟩
  · obtain ⟨-, hfine⟩ := hinv.contents.reg_free hold (by simp [hcall])
    rw [hold, Mode.returned, Mode.commit.injEq] at hmode
    obtain ⟨rfl, rfl⟩ := hmode
    have hregs : ∀ r', regs' r' ≠ some i := fun r' hr' =>
      (hinv.calls.regs p r' i (by rw [hold]; exact hr')).2 b hcall
    have hview : view d t regs' = view d s regs' :=
      view_setBuf hq (hbuf.trans (s.fill_buf i)) (.inl hregs)
    have hblock : (t.buf i).blockno = b := by
      rw [hbuf, fill_buf, update_self]
      exact hcaches.2
    have hdata : (t.buf i).data = (view d s regs').contents s.start s.size b := by
      rw [hbuf, View.contents]
      split_ifs with hlog
      · exact bread_log_contents hinv hcall (not_not.mpr hlog)
      · exact bread_contents hinv hcall hlog
    rw [view_setReg, hview, Option.map_some, hblock, hdata]
    exact hfine.2
  · cases hold : (s.proc p).mode with
    | out | inOp => simp [hold, Mode.returned] at hmode
    | commit => simp [hold, Mode.role] at hrole

end

omit [DecidableEq κ] [Fintype ι] in
theorem commit_of_setProc {is' : List Instr} {regs' : Reg → Option κ} {c : Call κ}
    (h : ((s.setProc p ⟨.commit is regs, c⟩).proc p).mode = .commit is' regs') :
    is = is' ∧ regs = regs' := by
  rwa [setProc_proc, if_pos rfl, Mode.commit.injEq] at h

/-- The committing process runs its code as `Fine` says. -/
theorem fine_of_actor [Fintype κ] (hinv : Inv d s) (hm : Move s a t)
    (hcard : Fintype.card κ ≤ s.size) (hsize : 1 < s.size)
    (hmode : (t.proc a.actor).mode = .commit is regs) :
    Fine t.start t.size (view d t regs) is ∨ Stuck t a.actor := by
  obtain ⟨hstart, hsz⟩ := geometry_of_move hm
  -- a call into `bio.c` that changes neither the block nor the data of a held buffer
  have hkeep : (s.proc a.actor).mode = .commit is regs → ¬ Stuck s a.actor →
      view d t regs = view d s regs →
      Fine t.start t.size (view d t regs) is ∨ Stuck t a.actor := by
    intro hold hstuck hview
    left
    rw [hstart, hsz, hview]
    exact (hinv.contents.fine _ is regs hold).resolve_right hstuck
  have hheld : (s.proc a.actor).mode = .commit is regs → ∀ r i, regs r = some i →
      (s.buf i).holder = some a.actor :=
    fun hold r i hr => (hinv.calls.regs _ r i (by rw [hold]; exact hr)).1
  have hinj : ∀ {p : ι} {is' : List Instr} {regs' : Reg → Option κ} {r : Reg} {i : κ},
      s.proc p = ⟨.commit is' regs', .none⟩ → regs' r = some i →
      ∀ r', regs' r' = some i → r' = r := by
    intro p is' regs' r i hp hr r' hr'
    exact hinv.calls.regs_inj p r' r i (by rw [hp]; exact hr') (by rw [hp]; exact hr)
  have hidle : (s.proc a.actor).call ≠ .none → ¬ Stuck s a.actor := by
    rintro hcall ⟨⟨is', regs', hp⟩, -⟩
    exact hcall (by rw [hp])
  cases hm with
  | panic | beginSleep => exact hinv.contents.fine _ is regs hmode
  | modify hp => simp [Act.actor, hp] at hmode
  | beginAdmit | endMore | leave => simp [Act.actor, setProc_proc] at hmode
  | logWrite hp => simp [Act.actor, hp] at hmode
  | @logLocked p i hcall =>
    have hin := (hinv.calls.logging p i hcall).2
    simp [Act.actor, hin] at hmode
  | release hcall hrole =>
    simp only [Act.actor, setCall_mode, setBuf_proc] at hmode
    simp [hmode, Mode.role] at hrole
  | endLast hp hout hclean =>
    obtain ⟨rfl, rfl⟩ := commit_of_setProc hmode
    exact fine_of_endLast hinv hcard hsize hp
  | @bgetHit p b i hcall hread hi =>
    rw [setCall_mode] at hmode
    refine hkeep hmode (fun hstuck => ?_)
      (view_setBuf ⟨rfl, rfl, rfl, fun _ => rfl⟩ rfl (.inr ⟨rfl, rfl⟩))
    exact (hstuck.no_buffers hinv hsize hread i).1 (caches_of_cached hi)
  | @bgetMiss p b i hcall hread hmiss hi =>
    rw [setCall_mode] at hmode
    have hzero := unused_refcnt hi
    refine hkeep hmode (fun hstuck => ?_)
      (view_setBuf ⟨rfl, rfl, rfl, fun _ => rfl⟩ rfl (.inl fun r hr => ?_))
    · have := (hstuck.no_buffers hinv hsize hread i).2
      omega
    · have := hinv.refs.holder_pos (hheld hmode r i hr)
      omega
  | acquire hcall hfree =>
    rw [setCall_mode] at hmode
    exact hkeep hmode (hidle (by simp [Act.actor, hcall]))
      (view_setBuf ⟨rfl, rfl, rfl, fun _ => rfl⟩ rfl (.inr ⟨rfl, rfl⟩))
  | @dropRef p i hcall =>
    obtain ⟨htrace, hdisk, hpin, hlh⟩ := s.dropRef_frame i
    rw [setCall_mode, dropRef_proc] at hmode
    exact hkeep hmode (hidle (by simp [Act.actor, hcall]))
      (view_setBuf ⟨hdisk, hlh, hpin, fun d => congrArg (store d) htrace⟩ (s.dropRef_buf i)
        (.inr ⟨rfl, rfl⟩))
  | @bread p b i hcall =>
    obtain ⟨htrace, hdisk, hpin, hlh⟩ := s.fill_frame i
    simp only [Act.actor, setProc_proc, if_true] at hmode
    left
    rw [hstart, hsz]
    exact fine_of_bread hinv hcall hmode ⟨hdisk, hlh, hpin, fun d => store_bread d _ _ _ _⟩ rfl
  | @releaseCommit p i r is' regs' hp hr hown =>
    obtain ⟨rfl, rfl⟩ := commit_of_setProc hmode
    obtain ⟨c, x, hreg, -, hfine⟩ := hinv.contents.fine_of_proc hp (by simp)
    left
    have hview : view d ((s.setBuf i { s.buf i with holder := none }).setProc p
        ⟨.commit is' (update regs' r none), .releasing i⟩) regs' = view d s regs' :=
      view_setBuf ⟨rfl, rfl, rfl, fun _ => rfl⟩ rfl (.inr ⟨rfl, rfl⟩)
    rw [view_setReg, hview]
    exact hfine
  | @memmove p dst src is' regs' i j hp hdst hsrc =>
    obtain ⟨rfl, rfl⟩ := commit_of_setProc hmode
    obtain ⟨b, x, c, y, hreg, hreg', -, hfine⟩ := hinv.contents.fine_of_proc hp (by simp)
    obtain ⟨rfl, rfl⟩ := reg_of_view hdst hreg
    obtain ⟨rfl, rfl⟩ := reg_of_view hsrc hreg'
    left
    have hview : view d ((s.setBuf i { s.buf i with data := (s.buf j).data }).setProc p
        ⟨.commit is' regs', .none⟩) regs' =
        (view d s regs').setReg dst (some ((s.buf i).blockno, (s.buf j).data)) := by
      refine view_write ?_ hdst (hinj hp hdst) rfl
      exact ⟨rfl, rfl, rfl, fun _ => rfl⟩
    rw [hview]
    exact hfine
  | @putHead p r is' regs' i hp hr =>
    obtain ⟨rfl, rfl⟩ := commit_of_setProc hmode
    obtain ⟨b, x, hreg, -, hfine⟩ := hinv.contents.fine_of_proc hp (by simp)
    obtain ⟨rfl, rfl⟩ := reg_of_view hr hreg
    left
    have hview : view d ((s.setBuf i { s.buf i with
        data := Log.putHead (s.buf i).data s.lh }).setProc p ⟨.commit is' regs', .none⟩) regs' =
        (view d s regs').setReg r
          (some ((s.buf i).blockno, Log.putHead (s.buf i).data s.lh)) := by
      refine view_write ?_ hr (hinj hp hr) rfl
      exact ⟨rfl, rfl, rfl, fun _ => rfl⟩
    rw [hview]
    exact hfine
  | bwrite hp hr =>
    obtain ⟨rfl, rfl⟩ := commit_of_setProc hmode
    obtain ⟨c, x, hreg, -, hfine⟩ := hinv.contents.fine_of_proc hp (by simp)
    obtain ⟨rfl, rfl⟩ := reg_of_view hr hreg
    exact .inl hfine
  | @bunpin p r is' regs' i hp hr =>
    obtain ⟨rfl, rfl⟩ := commit_of_setProc hmode
    obtain ⟨c, x, hreg, -, -, hfine⟩ := hinv.contents.fine_of_proc hp (by simp)
    obtain ⟨rfl, rfl⟩ := reg_of_view hr hreg
    left
    have hview : view d (s.setBuf i { s.buf i with refcnt := (s.buf i).refcnt - 1 }) regs' =
        view d s regs' := view_setBuf ⟨rfl, rfl, rfl, fun _ => rfl⟩ rfl (.inr ⟨rfl, rfl⟩)
    rw [← hview] at hfine
    exact hfine
  | clear hp =>
    obtain ⟨rfl, rfl⟩ := commit_of_setProc hmode
    exact .inl (hinv.contents.fine_of_proc hp (by simp))

end SummerOsk.Bio
