import SummerOsk.Log.GroupCommit
import Mathlib.Algebra.Order.BigOperators.Group.Finset

/-!
# The log space reservation

`begin_op` admits an operation when `lh.n + (outstanding + 1) * MAXOPBLOCKS` is
at most `LOGSIZE`.  `mkfs` makes the log `LOGSIZE` blocks long, and one of them
is the header, so the on-disk log has one slot less than `begin_op` hands out.

`overcommit_panics` is the run that shows it: three operations of `MAXOPBLOCKS`
blocks each are admitted together, and the last `log_write` panics.
`reservation_sound_iff` says which runs are safe.  A run is safe exactly when
each `log_write` finds a free slot among the blocks logged since the last
commit, and this is so whenever each operation logs fewer than `MAXOPBLOCKS`
distinct blocks.
-/

namespace SummerOsk.Log

open Lib Function List

variable {ι : Type} [DecidableEq ι] {m b : Nat} {as' : List (Act ι)}

/-! ## What a run asks of the log -/

/-- The distinct blocks logged since the last commit. -/
def txnBlocks (as : List (Act ι)) : List Nat :=
  as.foldl (fun bs a => match a with
    | .logLocked _ b => if b ∈ bs then bs else bs ++ [b]
    | .commit _ => []
    | _ => bs) []

/-- The distinct blocks on which `p` called `log_write` since its last
`begin_op`. -/
def opBlocks (p : ι) (as : List (Act ι)) : Finset Nat :=
  as.foldl (fun bs a => match a with
    | .beginOp q => if q = p then ∅ else bs
    | .logWrite q b => if q = p then insert b bs else bs
    | _ => bs) ∅

/-- Every operation of the run calls `log_write` on at most `m` distinct
blocks. -/
def OpsWithin (m : Nat) (as : List (Act ι)) : Prop :=
  ∀ p, ∀ pre ∈ as.inits, (opBlocks p pre).card ≤ m

instance [Fintype ι] (m : Nat) (as : List (Act ι)) : Decidable (OpsWithin m as) :=
  inferInstanceAs (Decidable (∀ _, _))

/-- A `log_write` after the actions `pre` has a slot in the on-disk log. -/
def HasSlot (pre : List (Act ι)) : Act ι → Prop
  | .logWrite _ _ => (txnBlocks pre).length < LOGSIZE - 1
  | .logLocked _ b => b ∈ txnBlocks pre ∨ (txnBlocks pre).length < LOGSIZE - 1
  | _ => True

/-- Every `log_write` of the run has a slot in the on-disk log. -/
def Fits (as : List (Act ι)) : Prop :=
  ∀ pre a, pre ++ [a] <+: as → HasSlot pre a

/-- `log_write` did not run out of log, and every entry of the header has a
slot inside the on-disk log area. -/
def GState.Good (s : GState ι) : Prop :=
  s.panicked ≠ some "too big a transaction" ∧
    ∀ i < s.log.lh.length, InLog s.log.start s.log.size (s.log.start + i + 1)

omit [DecidableEq ι] in
theorem txnBlocks_append (as : List (Act ι)) (a : Act ι) :
    txnBlocks (as ++ [a]) = match a with
      | .logLocked _ b => if b ∈ txnBlocks as then txnBlocks as else txnBlocks as ++ [b]
      | .commit _ => []
      | _ => txnBlocks as := by
  rw [txnBlocks, foldl_append]
  rfl

theorem opBlocks_append (p : ι) (as : List (Act ι)) (a : Act ι) :
    opBlocks p (as ++ [a]) = match a with
      | .beginOp q => if q = p then ∅ else opBlocks p as
      | .logWrite q b => if q = p then insert b (opBlocks p as) else opBlocks p as
      | _ => opBlocks p as := by
  rw [opBlocks, foldl_append]
  rfl

theorem OpsWithin.of_append {as bs : List (Act ι)} (h : OpsWithin m (as ++ bs)) :
    OpsWithin m as := by
  intro p pre hpre
  refine h p pre ?_
  rw [mem_inits] at hpre ⊢
  exact hpre.trans (prefix_append as bs)

theorem OpsWithin.card_le {as : List (Act ι)} (h : OpsWithin m as) (p : ι) :
    (opBlocks p as).card ≤ m :=
  h p as ((mem_inits _ _).mpr (prefix_refl as))

variable {s₀ s t : GState ι} {as : List (Act ι)} {a : Act ι}

/-! ## The header of a run -/

/-- The header lists the blocks logged since the last commit, and the size of
the log does not change. -/
theorem lh_of_run (h0 : s₀.log.lh = []) (hrun : (protocol ι).run s₀ as = some s) :
    s.log.lh = txnBlocks as ∧ s.log.size = s₀.log.size := by
  refine (protocol ι).run_history (P := fun as s => s.log.lh = txnBlocks as ∧
    s.log.size = s₀.log.size) ⟨h0, rfl⟩ (fun as s a t _ hs hstep => ?_) hrun
  obtain ⟨hlh, hsize⟩ := hs
  have hm := (move_of_step hstep).2
  rw [txnBlocks_append]
  cases hm with
  | beginSleep | beginAdmit | modify | logWrite | logPanic | endLast | endMore | endPanic
  | leave => exact ⟨hlh, hsize⟩
  | logLocked hpc =>
    simp only [GState.setPc, LogState.logWriteLocked, ← hlh]
    split_ifs
    · exact ⟨rfl, hsize⟩
    · exact ⟨rfl, hsize⟩
  | commit hpc =>
    obtain ⟨hfixed, hnil, -⟩ := commit_frame s.log
    exact ⟨hnil, (congrArg (fun x => x.2.1) hfixed).trans hsize⟩

omit [DecidableEq ι] in
theorem good_iff (hsize : s.log.size = LOGSIZE) :
    s.Good ↔ s.panicked ≠ some "too big a transaction" ∧ s.log.lh.length < LOGSIZE := by
  refine and_congr_right fun _ => ⟨fun h => ?_, fun h i hi => ⟨by omega, by omega⟩⟩
  by_contra hlen
  have := (h (s.log.lh.length - 1) (by have : LOGSIZE = 30 := rfl; omega)).2
  omega

/-- `log_write` runs out of log exactly when the header fills every slot. -/
theorem logWriteCheck_full {l : LogState} (hsize : l.size = LOGSIZE) :
    l.logWriteCheck = .error "too big a transaction" ↔ LOGSIZE - 1 ≤ l.lh.length := by
  have hlog : LOGSIZE = 30 := rfl
  unfold LogState.logWriteCheck
  split_ifs with h1 h2
  · simp only [true_iff]
    omega
  · simp only [Except.error.injEq, String.reduceEq, false_iff]
    omega
  · simp only [false_iff]
    omega

/-! ## The runs that fit -/

omit [DecidableEq ι] in
theorem fits_append : Fits (as ++ [a]) ↔ Fits as ∧ HasSlot as a := by
  refine ⟨fun h => ⟨fun pre x hpre => ?_, h as a (prefix_refl _)⟩, ?_⟩
  · exact h pre x (hpre.trans (prefix_append as [a]))
  · rintro ⟨hfits, hslot⟩ pre x hpre
    rcases prefix_concat_iff.mp hpre with heq | hpre
    · obtain ⟨rfl, hx⟩ := append_inj' heq rfl
      cases hx
      exact hslot
    · exact hfits pre x hpre

/-- A step of a state with room in its header, for an action that has a slot,
leads to such a state. -/
theorem room_of_move (hm : Move s a t) (hsize : s.log.size = LOGSIZE)
    (hlh : s.log.lh = txnBlocks as) (hslot : HasSlot as a) (hs : s.panicked = none)
    (hlen : s.log.lh.length < LOGSIZE) :
    t.panicked ≠ some "too big a transaction" ∧ t.log.lh.length < LOGSIZE := by
  cases hm with
  | beginSleep | beginAdmit | modify | logWrite | endLast | endMore | leave =>
    exact ⟨by simp [GState.setPc, hs], hlen⟩
  | endPanic => exact ⟨by simp, hlen⟩
  | logPanic hpc hcheck =>
    refine ⟨fun he => ?_, hlen⟩
    rw [Option.some_inj.mp he, logWriteCheck_full hsize, hlh] at hcheck
    exact absurd hslot (by simpa [HasSlot] using hcheck)
  | logLocked hpc =>
    refine ⟨by simp [GState.setPc, hs], ?_⟩
    simp only [GState.setPc, LogState.logWriteLocked]
    split_ifs with hb
    · exact hlen
    · have hroom : s.log.lh.length < LOGSIZE - 1 := by
        rw [hlh] at hb ⊢
        exact hslot.resolve_left hb
      simp only [length_append, length_singleton]
      omega
  | commit hpc =>
    refine ⟨by simp [GState.setPc, hs], ?_⟩
    change s.log.commit.lh.length < LOGSIZE
    rw [(commit_frame s.log).2.1]
    decide

/-- An action that leads to a good state had a slot. -/
theorem hasSlot_of_move (hm : Move s a t) (hsize : s.log.size = LOGSIZE)
    (hlh : s.log.lh = txnBlocks as)
    (ht : t.panicked ≠ some "too big a transaction" ∧ t.log.lh.length < LOGSIZE) :
    HasSlot as a := by
  cases hm with
  | beginSleep | beginAdmit | modify | endLast | endMore | endPanic | leave | commit =>
    exact trivial
  | logWrite hpc hcheck =>
    by_contra hslot
    rw [HasSlot, ← hlh, not_lt] at hslot
    rw [(logWriteCheck_full hsize).mpr hslot] at hcheck
    cases hcheck
  | logPanic hpc hcheck =>
    by_contra hslot
    rw [HasSlot, ← hlh, not_lt] at hslot
    rw [(logWriteCheck_full hsize).mpr hslot] at hcheck
    cases hcheck
    exact ht.1 rfl
  | @logLocked p b hpc =>
    rw [HasSlot, ← hlh]
    by_cases hb : b ∈ s.log.lh
    · exact .inl hb
    · have hlen := ht.2
      simp only [GState.setPc, LogState.logWriteLocked, if_neg hb, length_append,
        length_singleton] at hlen
      exact .inr (by omega)

theorem good_of_fits (h0 : s₀.Init) (hsize : s₀.log.size = LOGSIZE) (hfits : Fits as)
    (hrun : (protocol ι).run s₀ as = some s) : s.Good := by
  have hgood : Fits as → s.panicked ≠ some "too big a transaction" ∧
      s.log.lh.length < LOGSIZE := by
    refine (protocol ι).run_history (P := fun as s => Fits as →
      s.panicked ≠ some "too big a transaction" ∧ s.log.lh.length < LOGSIZE)
      (fun _ => by simp [h0.running, h0.lh_nil, LOGSIZE, MAXOPBLOCKS])
      (fun as s a t hpre hs hstep hfits => ?_) hrun
    obtain ⟨hfits, hslot⟩ := fits_append.mp hfits
    obtain ⟨hlh, hsize'⟩ := lh_of_run h0.lh_nil hpre
    obtain ⟨hrunning, hm⟩ := move_of_step hstep
    exact room_of_move hm (hsize'.trans hsize) hlh hslot hrunning (hs hfits).2
  exact (good_iff ((lh_of_run h0.lh_nil hrun).2.trans hsize)).mpr (hgood hfits)

theorem fits_of_good (h0 : s₀.Init) (hsize : s₀.log.size = LOGSIZE)
    (hrun : (protocol ι).run s₀ as = some s)
    (hgood : ∀ pre u, pre <+: as → (protocol ι).run s₀ pre = some u → u.Good) : Fits as := by
  intro pre a hpre
  obtain ⟨rest, rfl⟩ := hpre
  obtain ⟨v, hv, -⟩ := (protocol ι).run_append_eq_some hrun
  obtain ⟨u, hu, huv⟩ := (protocol ι).run_append_eq_some hv
  obtain ⟨w, hw, hwv⟩ := (protocol ι).run_cons_eq_some huv
  cases hwv
  obtain ⟨hlh, hsize'⟩ := lh_of_run h0.lh_nil hu
  have hgood' := hgood _ v (prefix_append _ _) hv
  rw [good_iff ((lh_of_run h0.lh_nil hv).2.trans hsize)] at hgood'
  exact hasSlot_of_move (move_of_step hw).2 (hsize'.trans hsize) hlh hgood'

/-! ## Operations that stay below their reservation -/

variable [Fintype ι] {p : ι}

/-- How many more distinct blocks `p` may log in its operation. -/
def debt (as : List (Act ι)) (lh : List Nat) (p : ι) : Nat :=
  MAXOPBLOCKS - 1 - (opBlocks p as ∩ lh.toFinset).card

/-- What `outstanding` operations may still log fits in the log. -/
def Reserved (as : List (Act ι)) (s : GState ι) : Prop :=
  s.log.lh.length + ∑ p ∈ insiders (Pc.role ∘ s.pc), debt as s.log.lh p ≤ LOGSIZE - 2

section

omit [Fintype ι]

theorem debt_le (as : List (Act ι)) (lh : List Nat) (p : ι) :
    debt as lh p ≤ MAXOPBLOCKS - 1 := Nat.sub_le _ _

theorem debt_anti {lh lh' : List Nat} (h : opBlocks p as ⊆ opBlocks p as') (hlh : lh ⊆ lh') :
    debt as' lh' p ≤ debt as lh p := by
  refine Nat.sub_le_sub_left (Finset.card_le_card (Finset.inter_subset_inter h ?_)) _
  intro x hx
  exact mem_toFinset.mpr (hlh (mem_toFinset.mp hx))

/-- A process that is about to log a block after another process, or itself,
moved elsewhere was about to log it before. -/
theorem logging_of_update {pc : ι → Pc} {q : ι} {c : Pc} (hc : c ≠ .logging b)
    (h : update pc p c q = .logging b) : q ≠ p ∧ pc q = .logging b := by
  rcases eq_or_ne q p with rfl | hq
  · rw [update_self] at h
    exact absurd h hc
  · rw [update_of_ne hq] at h
    exact ⟨hq, h⟩

/-- A block that `log_write` is about to log was called for. -/
theorem mem_opBlocks_of_logging (h0 : s₀.Init) (hrun : (protocol ι).run s₀ as = some s) :
    ∀ p b, s.pc p = .logging b → b ∈ opBlocks p as := by
  refine (protocol ι).run_history (P := fun as s => ∀ p b, s.pc p = .logging b →
    b ∈ opBlocks p as) (fun p b hp => by simp [h0.idle p] at hp)
    (fun as s a t _ hs hstep q b hq => ?_) hrun
  have hm := (move_of_step hstep).2
  rw [opBlocks_append]
  cases hm with
  | modify | endPanic => exact hs q b hq
  | logLocked | endLast | endMore | commit | leave =>
    exact hs q b (logging_of_update (by simp) hq).2
  | @beginSleep p hpc =>
    have hpq : p ≠ q := by
      rintro rfl
      rw [hpc] at hq
      cases hq
    simpa [hpq] using hs q b hq
  | beginAdmit =>
    obtain ⟨hpq, hq⟩ := logging_of_update (by simp) hq
    simpa [hpq.symm] using hs q b hq
  | @logPanic p x e hpc =>
    have hpq : p ≠ q := by
      rintro rfl
      rw [show s.pc p = .logging b from hq] at hpc
      cases hpc
    simpa [hpq] using hs q b hq
  | @logWrite p x hpc =>
    rcases eq_or_ne p q with rfl | hpq
    · have hx : Pc.logging x = .logging b := by simpa [GState.setPc] using hq
      cases hx
      simp
    · simp only [hpq, if_false]
      refine hs q b ?_
      rw [← hq]
      exact (update_of_ne (Ne.symm hpq) _ _).symm

end

omit [DecidableEq ι] in
/-- The header is empty when no operation runs and none commits. -/
theorem lh_nil_of_quiet (h : s.Inv) (hout : s.log.outstanding = 0)
    (hcommit : s.log.committing = false) : s.log.lh = [] := by
  have hgate := h.gate
  rw [hout, hcommit] at hgate
  refine h.rest_nil fun p => ?_
  have hp : (s.pc p).role = .outside := hgate.outside_of_zero p
  cases hpc : s.pc p with
  | idle => rfl
  | inOp | logging b | committing | leaving => simp [hpc, Pc.role] at hp

theorem reserved_of_le (h : Reserved as s) (hlh : t.log.lh = s.log.lh)
    (hactive : insiders (Pc.role ∘ t.pc) ⊆ insiders (Pc.role ∘ s.pc))
    (hblocks : ∀ p ∈ insiders (Pc.role ∘ t.pc), opBlocks p as ⊆ opBlocks p as') : Reserved as' t :=
    by
  have hsum : ∑ p ∈ insiders (Pc.role ∘ t.pc), debt as' t.log.lh p ≤
      ∑ p ∈ insiders (Pc.role ∘ s.pc), debt as s.log.lh p := by
    refine le_trans (Finset.sum_le_sum fun p hp => ?_) (Finset.sum_le_sum_of_subset hactive)
    rw [hlh]
    exact debt_anti (hblocks p hp) (Subset.refl _)
  unfold Reserved at h ⊢
  rw [hlh] at hsum ⊢
  omega

/-- The test of `begin_op` leaves room for one more operation that stays below
its reservation. -/
theorem reserved_beginAdmit (hinv : s.Inv) (hpc : s.pc p = .idle)
    (hcommit : s.log.committing = false)
    (hroom : (s.log.lh.length : Int) + (s.log.outstanding + 1) * MAXOPBLOCKS ≤ LOGSIZE) :
    Reserved (as ++ [.beginOp p])
      ({ s with log := { s.log with outstanding := s.log.outstanding + 1 } }.setPc p
        .inOp) := by
  have hcard : (insiders (Pc.role ∘ update s.pc p .inOp)).card =
      (insiders (Pc.role ∘ s.pc)).card + 1 := by
    rw [comp_update]
    have hmem : p ∉ insiders (Pc.role ∘ s.pc) := by simp [mem_insiders, hpc, Pc.role]
    exact (congrArg Finset.card Gate.insiders_enter).trans (Finset.card_insert_of_notMem hmem)
  have hsum : ∑ q ∈ insiders (Pc.role ∘ update s.pc p .inOp),
      debt (as ++ [.beginOp p]) s.log.lh q ≤ ((insiders (Pc.role ∘ s.pc)).card + 1) *
        (MAXOPBLOCKS - 1) := by
    rw [← hcard]
    exact Finset.sum_le_card_nsmul _ _ _ fun q _ => debt_le _ _ q
  have hcount := hinv.gate.count
  have hmax : MAXOPBLOCKS = 10 := rfl
  have hlog : LOGSIZE = 30 := rfl
  have hnil : (insiders (Pc.role ∘ s.pc)).card = 0 → s.log.lh.length = 0 := by
    intro hzero
    rw [lh_nil_of_quiet hinv (by omega) hcommit]
    rfl
  unfold Reserved
  simp only [GState.setPc]
  rw [hmax] at hsum hroom
  omega

theorem reserved_logLocked (h : Reserved as s) (hpc : s.pc p = .logging b) (hb : b ∈ opBlocks p as)
    (hcard : (opBlocks p as).card ≤ MAXOPBLOCKS - 1) :
    Reserved (as ++ [.logLocked p b])
      ({ s with log := s.log.logWriteLocked b }.setPc p .inOp) := by
  have hroles : Pc.role ∘ update s.pc p .inOp = Pc.role ∘ s.pc :=
    role_stay (by rw [hpc]; rfl)
  by_cases hmem : b ∈ s.log.lh
  · refine reserved_of_le h ?_ ?_ fun q _ => ?_
    · simp [GState.setPc, LogState.logWriteLocked, hmem]
    · rw [GState.setPc, hroles]
    · rw [opBlocks_append]
  · -- the new entry of the header is paid for by the debt of `p`
    have hop : ∀ q, opBlocks q (as ++ [.logLocked p b]) = opBlocks q as := fun q => by
      rw [opBlocks_append]
    have hlt : debt (as ++ [.logLocked p b]) (s.log.lh ++ [b]) p < debt as s.log.lh p := by
      have hgrow : (opBlocks p as ∩ s.log.lh.toFinset).card <
          (opBlocks p as ∩ (s.log.lh ++ [b]).toFinset).card := by
        refine Finset.card_lt_card (Finset.ssubset_iff_of_subset ?_ |>.mpr ⟨b, ?_, ?_⟩)
        · exact Finset.inter_subset_inter_left fun x hx => by simp_all
        · simp [hb]
        · simp [hmem]
      have hsub : opBlocks p as ∩ (s.log.lh ++ [b]).toFinset ⊆ opBlocks p as :=
        Finset.inter_subset_left
      have hle := (Finset.card_le_card hsub).trans hcard
      unfold debt
      rw [hop]
      omega
    have hsum : ∑ q ∈ insiders (Pc.role ∘ s.pc), debt (as ++ [.logLocked p b]) (s.log.lh ++ [b]) q <
        ∑ q ∈ insiders (Pc.role ∘ s.pc), debt as s.log.lh q := by
      refine Finset.sum_lt_sum (fun q _ => ?_) ⟨p, mem_insiders.mpr (congrArg Pc.role hpc), hlt⟩
      exact debt_anti (by rw [hop]) (subset_append_left _ _)
    unfold Reserved at h ⊢
    simp only [GState.setPc, hroles, LogState.logWriteLocked, if_neg hmem, length_append,
      length_singleton]
    omega

section

variable (h0 : s₀.Init) (hops : OpsWithin (MAXOPBLOCKS - 1) as)
  (hrun : (protocol ι).run s₀ as = some s)

include h0 hops hrun

/-- Operations that each log fewer than `MAXOPBLOCKS` distinct blocks stay
within their reservations. -/
theorem reserved_of_run : Reserved as s := by
  have hreserved : OpsWithin (MAXOPBLOCKS - 1) as → Reserved as s := by
    refine (protocol ι).run_history (P := fun as s => OpsWithin (MAXOPBLOCKS - 1) as →
      Reserved as s) (fun _ => ?_) (fun as s a t hpre hs hstep hops => ?_) hrun
    · have hempty : insiders (Pc.role ∘ s₀.pc) = ∅ := by
        ext p
        simp [mem_insiders, h0.idle p, Pc.role]
      simp [Reserved, hempty, h0.lh_nil]
    · have hinv := inv_of_run h0.inv hpre
      have hs := hs hops.of_append
      have hcard := fun p => hops.of_append.card_le p
      have hlogging := mem_opBlocks_of_logging h0 hpre
      have hm := (move_of_step hstep).2
      cases hm with
      | modify | endPanic =>
        exact reserved_of_le hs rfl (Finset.Subset.refl _) fun q _ => by rw [opBlocks_append]
      | @beginSleep p hpc =>
        refine reserved_of_le hs rfl (Finset.Subset.refl _) fun q hq => ?_
        have hpq : p ≠ q := by
          rintro rfl
          simp [mem_insiders, hpc, Pc.role] at hq
        simp [opBlocks_append, hpq]
      | beginAdmit hpc hcommit hroom => exact reserved_beginAdmit hinv hpc hcommit hroom
      | logPanic =>
        refine reserved_of_le hs rfl (Finset.Subset.refl _) fun q _ => ?_
        rw [opBlocks_append]
        dsimp only
        split_ifs
        · exact Finset.subset_insert _ _
        · exact Finset.Subset.refl _
      | logWrite hpc =>
        refine reserved_of_le hs rfl ?_ fun q _ => ?_
        · rw [GState.setPc, role_stay (by rw [hpc]; rfl)]
        · rw [opBlocks_append]
          dsimp only
          split_ifs
          · exact Finset.subset_insert _ _
          · exact Finset.Subset.refl _
      | logLocked hpc => exact reserved_logLocked hs hpc (hlogging _ _ hpc) (hcard _)
      | endLast hpc | endMore hpc =>
        refine reserved_of_le hs rfl ?_ fun q _ => by rw [opBlocks_append]
        rw [GState.setPc, comp_update, Gate.insiders_exit (by simp [Pc.role])]
        exact Finset.erase_subset _ _
      | leave hpc =>
        refine reserved_of_le hs rfl ?_ fun q _ => by rw [opBlocks_append]
        rw [GState.setPc, comp_update, Gate.insiders_exit (by simp [Pc.role])]
        exact Finset.erase_subset _ _
      | @commit p hpc =>
        have hempty : insiders (Pc.role ∘ update s.pc p .leaving) = ∅ := by
          rw [role_stay (by rw [hpc]; rfl)]
          ext q
          simpa [mem_insiders] using hinv.gate.alone p q (congrArg Pc.role hpc)
        simp [Reserved, GState.setPc, hempty, (commit_frame s.log).2.1]
  exact hreserved hops

theorem fits_of_opsWithin : Fits as := by
  intro pre a hpre
  obtain ⟨rest, rfl⟩ := hpre
  obtain ⟨v, hv, -⟩ := (protocol ι).run_append_eq_some hrun
  obtain ⟨u, hu, -⟩ := (protocol ι).run_append_eq_some hv
  have hreserved := reserved_of_run h0 hops.of_append.of_append hu
  have hlen : (txnBlocks pre).length < LOGSIZE - 1 := by
    rw [← (lh_of_run h0.lh_nil hu).1]
    have hlog : LOGSIZE = 30 := rfl
    unfold Reserved at hreserved
    omega
  cases a with
  | logWrite p b => exact hlen
  | logLocked p b => exact .inr hlen
  | beginOp | modify | endOp | commit | leave => exact trivial

end

/-- A run on a log of `LOGSIZE` blocks stays within it exactly when each
`log_write` has a slot, and it does when each operation logs fewer than
`MAXOPBLOCKS` distinct blocks. -/
theorem reservation_sound_iff (h₀ : s₀.Init) (hsize : s₀.log.size = LOGSIZE)
    (hrun : (protocol ι).run s₀ as = some s) :
    ((∀ pre u, pre <+: as → (protocol ι).run s₀ pre = some u → u.Good) ↔ Fits as) ∧
      (OpsWithin (MAXOPBLOCKS - 1) as → Fits as) := by
  refine ⟨⟨fits_of_good h₀ hsize hrun, fun hfits pre u hpre hu => ?_⟩,
    fun hops => fits_of_opsWithin h₀ hops hrun⟩
  exact good_of_fits h₀ hsize (fun pre' a hpre' => hfits pre' a (hpre'.trans hpre)) hu

/-- One operation that logs one block. -/
theorem reservation_sound_iff_one :
    ∃ s : GState (Fin 1), (protocol (Fin 1)).run (GState.booted (fun _ _ => 0) 2 LOGSIZE)
        [.beginOp 0, .logWrite 0 40, .logLocked 0 40] = some s ∧
      OpsWithin (MAXOPBLOCKS - 1)
        ([.beginOp 0, .logWrite 0 40, .logLocked 0 40] : List (Act (Fin 1))) ∧ s.Good := by
  have hops : OpsWithin (MAXOPBLOCKS - 1)
      ([.beginOp 0, .logWrite 0 40, .logLocked 0 40] : List (Act (Fin 1))) := by decide
  refine ⟨_, rfl, hops, ?_⟩
  obtain ⟨hiff, hfits⟩ := reservation_sound_iff
    (GState.booted_init (fun _ _ => 0) 2 LOGSIZE) rfl
    (show (protocol (Fin 1)).run _ [.beginOp 0, .logWrite 0 40, .logLocked 0 40] = some _ from rfl)
  exact hiff.mpr (hfits hops) _ _ (prefix_refl _) rfl

/-- Three operations that are admitted together and then log `MAXOPBLOCKS`
distinct blocks each, up to the last call of `log_write`. -/
def overcommit : List (Act (Fin 3)) :=
  [.beginOp 0, .beginOp 1, .beginOp 2] ++
    (List.range 29).flatMap (fun i =>
      [.logWrite (Fin.ofNat 3 (i / 10)) (100 + i), .logLocked (Fin.ofNat 3 (i / 10)) (100 + i)]) ++
    [.logWrite 2 129]

/-- The reservation is not sound for operations of `MAXOPBLOCKS` blocks. -/
theorem overcommit_panics :
    ¬ ∀ (as : List (Act (Fin 3))) (s : GState (Fin 3)),
      (protocol (Fin 3)).run (GState.booted (fun _ _ => 0) 2 LOGSIZE) as = some s →
      OpsWithin MAXOPBLOCKS as → s.Good := by
  intro h
  have hrun : ((protocol (Fin 3)).run (GState.booted (fun _ _ => 0) 2 LOGSIZE)
      overcommit).map GState.panicked = some (some "too big a transaction") := by
    decide +kernel
  obtain ⟨s, hs, hpanic⟩ := Option.map_eq_some_iff.mp hrun
  exact (h overcommit s hs (by decide +kernel)).1 hpanic

end SummerOsk.Log
