import SummerOsk.Log.Header

/-!
# Crash atomicity of the log

A disk determines the contents of the home blocks once its log is installed:
`recovered` is that view.  Every block write of `log.c` but one keeps it.  The
one that changes it is the header write with `n > 0` in `commit`, which moves
it from the state before the transaction to the state after it.

* `recovery_keeps` and `recovery_exposes` are the two facts about the
  writes of a recovery, for a prefix of them and for all of them.
* `commit_crash` is the same for the writes of one `commit`.
* `runTxns_crash` is the induction over the transactions.
* `recover_after_crash` is the result, for a system booted with an empty log:
  any interrupted recovery after any crash leaves the home blocks as after the
  transactions whose header reached the disk.
-/

namespace SummerOsk.Log

open Lib Function List

/-! ## What a disk says about the home blocks -/

/-- The on-disk header is one that `read_head` can load: its entries fit in
the log area and name blocks outside it. -/
structure WfLog (start size : Nat) (d : Nat → Block) : Prop where
  fits : (headList (d start)).length < size
  home : ∀ b ∈ headList (d start), ¬ InLog start size b

/-- The blocks as they are once the on-disk log is installed. -/
def recovered (start : Nat) (d : Nat → Block) : Nat → Block :=
  applyWrites d (installWrites start d 0 (headList (d start)))

/-- The block writes that `initlog` issues on the disk `d`. -/
def recoveryWrites (start size : Nat) (d : Nat → Block) : List DiskWrite :=
  (initlog start size d).writes

/-- How many of the writes are header writes with `n > 0`. -/
def commits (start : Nat) (ws : List DiskWrite) : Nat :=
  ws.countP fun w => w.1 = start ∧ 0 < headN w.2

variable {start size b : Nat} {d d' : Nat → Block} {bs : List Nat} {c : Block} {T : Txn}
  {Ts : List Txn}

theorem recovered_of_headList_nil (h : headList (d start) = []) : recovered start d = d := by
  rw [recovered, h]
  rfl

theorem start_not_mem (hfits : bs.length < size) (hhome : ∀ x ∈ bs, ¬ InLog start size x) :
    start ∉ bs :=
  fun hmem => hhome _ hmem ⟨le_refl _, by omega⟩

theorem WfLog.of_headList_nil (hsize : 0 < size) (h : headList (d start) = []) :
    WfLog start size d where
  fits := by rw [h]; exact hsize
  home := by simp [h]

/-- Writes outside the log area leave the log area alone. -/
theorem applyWrites_inLog {ws : List DiskWrite} (hws : ∀ w ∈ ws, ¬ InLog start size w.1)
    (hb : InLog start size b) : applyWrites d ws b = d b :=
  applyWrites_of_not_mem fun w hw he => hws w hw (he ▸ hb)

/-- A disk that already holds a part of the installed blocks has the same
log, and its log installs to the same blocks. -/
theorem install_prefix (h : WfLog start size d) (k : Nat) :
    let d' := applyWrites d ((installWrites start d 0 (headList (d start))).take k)
    WfLog start size d' ∧ recovered start d' = recovered start d := by
  intro d'
  have hmem : ∀ w ∈ (installWrites start d 0 (headList (d start))).take k,
      ¬ InLog start size w.1 :=
    fun w hw => h.home _ (mem_installWrites (mem_of_mem_take hw))
  have hlog : ∀ b, InLog start size b → d' b = d b :=
    fun b hb => applyWrites_inLog hmem hb
  have hfits := h.fits
  have hhead : d' start = d start := hlog start ⟨le_refl _, by omega⟩
  have hwrites : installWrites start d' 0 (headList (d start)) =
      installWrites start d 0 (headList (d start)) :=
    installWrites_congr (show 0 + (headList (d start)).length < size by omega) hlog
  refine ⟨⟨by rw [hhead]; exact h.fits, by rw [hhead]; exact h.home⟩, ?_⟩
  rw [recovered, hhead, hwrites, recovered]
  exact applyWrites_absorb fun w hw => ⟨w, mem_of_mem_take hw, rfl⟩

/-- The header write that clears the log keeps the home blocks, once they are
installed. -/
theorem clear_recovered (h : WfLog start size d) (hc : headList c = [])
    (hb : ¬ InLog start size b) :
    let d' := update (recovered start d) start c
    WfLog start size d' ∧ recovered start d' b = recovered start d b ∧
      d' b = recovered start d b := by
  intro d'
  have hsize : 0 < size := by
    have := h.fits
    omega
  have hhead : headList (d' start) = [] := by simp [d', hc]
  have hne : b ≠ start := by
    rintro rfl
    exact hb ⟨le_refl _, by omega⟩
  have hdb : d' b = recovered start d b := update_of_ne hne _ _
  refine ⟨WfLog.of_headList_nil hsize hhead, ?_, hdb⟩
  rw [recovered_of_headList_nil hhead, hdb]

/-- The writes that install the log and then clear it keep the view of the
home blocks at every prefix. -/
theorem install_clear_prefix (h : WfLog start size d) (hc : headList c = []) (k : Nat) :
    let ws := installWrites start d 0 (headList (d start)) ++ [(start, c)]
    WfLog start size (applyWrites d (ws.take k)) ∧
      ∀ b, ¬ InLog start size b →
        recovered start (applyWrites d (ws.take k)) b = recovered start d b := by
  intro ws
  by_cases hk : k ≤ (installWrites start d 0 (headList (d start))).length
  · have htake : ws.take k = (installWrites start d 0 (headList (d start))).take k :=
      take_append_of_le_length hk
    rw [htake]
    obtain ⟨hwf, hrec⟩ := install_prefix h k
    exact ⟨hwf, fun b _ => by rw [hrec]⟩
  · have htake : ws.take k = ws := by
      apply take_of_length_le
      simp only [ws, length_append, length_singleton]
      omega
    have hall : applyWrites d ws = update (recovered start d) start c := by
      rw [applyWrites_append, applyWrites_singleton]
      rfl
    rw [htake, hall]
    refine ⟨?_, fun b hb => (clear_recovered h hc hb).2.1⟩
    have hsize : 0 < size := by
      have := h.fits
      omega
    exact WfLog.of_headList_nil hsize (by simp [hc])

/-! ## Recovery -/

/-- `install_trans` and the header clear, from a booted state with the
in-memory header `L`. -/
theorem boot_install_clear_eq {L : List Nat} (hfits : L.length < size)
    (hhome : ∀ b ∈ L, ¬ InLog start size b) :
    let ws := installWrites start d 0 L ++ [(start, putHead (d start) [])]
    { boot start size d with lh := L }.installTrans.clearHead.writeHead =
      { boot start size d with
        disk := applyWrites d ws
        data := applyWrites d ws
        writes := ws
        pins := unpinAll (fun _ => 0) L } := by
  have hstart : applyWrites d (installWrites start d 0 L) start = d start := by
    refine applyWrites_of_not_mem fun w hw he => ?_
    have hmem : w.1 ∈ L := mem_installWrites hw
    exact hhome w.1 hmem ⟨by omega, by omega⟩
  rw [LogState.installTrans, installFrom_eq (by simpa [boot] using hfits) hhome, writeHead_eq]
  simp [LogState.clearHead, boot, hstart, applyWrites_append]

section

variable (h : WfLog start size d)

include h

/-- `initlog` as a list of writes: install the log, then clear the header. -/
theorem initlog_eq :
    let ws := installWrites start d 0 (headList (d start)) ++
      [(start, putHead (d start) [])]
    initlog start size d =
      { boot start size d with
        disk := applyWrites d ws
        data := applyWrites d ws
        writes := ws
        pins := unpinAll (fun _ => 0) (headList (d start)) } := by
  have hread : (boot start size d).readHead =
      { boot start size d with lh := headList (d start) } := rfl
  rw [initlog, LogState.recoverFromLog, hread]
  exact boot_install_clear_eq h.fits h.home

theorem recoveryWrites_eq :
    recoveryWrites start size d =
      installWrites start d 0 (headList (d start)) ++ [(start, putHead (d start) [])] := by
  rw [recoveryWrites, initlog_eq h]

theorem recovery_keeps (k : Nat) :
    WfLog start size (applyWrites d ((recoveryWrites start size d).take k)) ∧
      ∀ b, ¬ InLog start size b →
        recovered start (applyWrites d ((recoveryWrites start size d).take k)) b =
          recovered start d b := by
  rw [recoveryWrites_eq h]
  exact install_clear_prefix h (headList_putHead_nil _) k

theorem recovery_exposes (hb : ¬ InLog start size b) :
    applyWrites d (recoveryWrites start size d) b = recovered start d b := by
  rw [recoveryWrites_eq h, applyWrites_append, applyWrites_singleton]
  exact (clear_recovered h (headList_putHead_nil _) hb).2.2

end

/-- A recovery that is cut short any number of times and then completed
leaves the home blocks as the log on the first disk says. -/
theorem recovers_home (hr : Recovers (recoveryWrites start size) d d') (hwf : WfLog start size d)
    (hb : ¬ InLog start size b) : d' b = recovered start d b :=
  Recovers.abstract (P := fun b => ¬ InLog start size b)
    (fun _ (h : WfLog start size _) k => recovery_keeps h k)
    (fun _ h _ hb => recovery_exposes h hb) hr hwf b hb

/-! ## Transactions -/

/-- A transaction: the blocks it logs with their new contents, in order. -/
abbrev Txn := List (Nat × Block)

/-- The body of a transaction: `bread`, modify, `log_write`, `brelse` for
each of its blocks. -/
def logTxn (s : LogState) : Txn → Except String LogState
  | [] => .ok s
  | (b, x) :: rest =>
    match (s.setData b x).logWrite b with
    | .ok t => logTxn t rest
    | .error e => .error e

/-- `begin_op`, the body, `end_op`.  There is no result when `begin_op` would
sleep or one of the calls panics. -/
def runTxn (s : LogState) (T : Txn) : Option LogState := do
  let s ← s.beginOp
  let s ← (logTxn s T).toOption
  s.endOp.toOption

/-- A sequence of transactions, one after the other. -/
def runTxns (s : LogState) : List Txn → Option LogState
  | [] => some s
  | T :: Ts => (runTxn s T).bind fun t => runTxns t Ts

/-- What holds between two transactions and while one is being logged: the
on-disk log is empty, and a home block that is not in the in-memory header has
the same contents in its buffer and on the disk. -/
structure Synced (s : LogState) : Prop where
  fits : s.lh.length < s.size
  fitsHeader : s.lh.length ≤ LOGSIZE
  lh_home : ∀ b ∈ s.lh, ¬ InLog s.start s.size b
  lh_word : ∀ b ∈ s.lh, b < 2 ^ 32
  head : headList (s.disk s.start) = []
  head_data : s.data s.start = s.disk s.start
  home_data : ∀ b, ¬ InLog s.start s.size b → b ∉ s.lh → s.data b = s.disk b

/-- The blocks of a transaction are home blocks with 32-bit numbers. -/
def HomeTxn (start size : Nat) (T : Txn) : Prop :=
  ∀ w ∈ T, ¬ InLog start size w.1 ∧ w.1 < 2 ^ 32

variable {s t : LogState}

theorem logWrite_ok (h : s.logWrite b = .ok t) :
    s.lh.length < LOGSIZE ∧ s.lh.length + 1 < s.size ∧ t = s.logWriteLocked b := by
  unfold LogState.logWrite LogState.logWriteCheck at h
  split_ifs at h with h1 h2
  · cases h
  · cases h
  · cases h
    refine ⟨by omega, by omega, rfl⟩

theorem mem_logWriteLocked_lh {x : Nat} : x ∈ (s.logWriteLocked b).lh ↔ x ∈ s.lh ∨ x = b := by
  unfold LogState.logWriteLocked
  split_ifs with h
  · constructor
    · exact .inl
    · rintro (hx | rfl)
      · exact hx
      · exact h
  · simp

theorem logWriteLocked_lh_length_le (b : Nat) :
    (s.logWriteLocked b).lh.length ≤ s.lh.length + 1 := by
  unfold LogState.logWriteLocked
  split_ifs <;> simp

/-- The part of `log_write` under the lock changes `lh` and the pins only. -/
theorem logWriteLocked_eq (b : Nat) :
    s.logWriteLocked b =
      { s with lh := (s.logWriteLocked b).lh, pins := (s.logWriteLocked b).pins } := by
  unfold LogState.logWriteLocked LogState.bpin
  split_ifs <;> rfl

/-- What `logTxn` changes: the buffers, the header and the pins. -/
structure Logged (s : LogState) (T : Txn) (t : LogState) : Prop where
  frame : t = { s with data := t.data, lh := t.lh, pins := t.pins }
  data : t.data = applyWrites s.data T
  mem_lh : ∀ b, b ∈ t.lh ↔ b ∈ s.lh ∨ ∃ w ∈ T, w.1 = b
  synced : Synced t

theorem logTxn_ok (hs : Synced s) (hT : HomeTxn s.start s.size T) (h : logTxn s T = .ok t) :
    Logged s T t := by
  induction T generalizing s with
  | nil =>
    cases h
    exact ⟨rfl, rfl, by simp, hs⟩
  | cons w T ih =>
    obtain ⟨b, x⟩ := w
    rw [logTxn] at h
    split at h
    · rename_i u hu
      obtain ⟨hlog, hlen, rfl⟩ := logWrite_ok hu
      obtain ⟨hb, hbw⟩ := hT (b, x) mem_cons_self
      have hstart : s.start ≠ b := by
        rintro rfl
        have := hs.fits
        exact hb ⟨le_refl _, by omega⟩
      have hframe := logWriteLocked_eq (s := s.setData b x) b
      generalize hu' : (s.setData b x).logWriteLocked b = u at *
      have hle : u.lh.length ≤ s.lh.length + 1 := by
        rw [← hu']
        exact logWriteLocked_lh_length_le b
      have hmem : ∀ y, y ∈ u.lh ↔ y ∈ s.lh ∨ y = b := by
        intro y
        rw [← hu']
        exact mem_logWriteLocked_lh
      have hdisk : u.disk = s.disk := by rw [hframe]; rfl
      have hdata : u.data = update s.data b x := by rw [hframe]; rfl
      have hstart' : u.start = s.start := by rw [hframe]; rfl
      have hsize' : u.size = s.size := by rw [hframe]; rfl
      have hlen' : s.lh.length + 1 < s.size := hlen
      have hlog' : s.lh.length < LOGSIZE := hlog
      have hsync : Synced u := by
        refine ⟨by omega, by omega, ?_, ?_, ?_, ?_, ?_⟩
        · intro y hy
          rw [hstart', hsize']
          rcases (hmem y).mp hy with hy | rfl
          · exact hs.lh_home y hy
          · exact hb
        · intro y hy
          rcases (hmem y).mp hy with hy | rfl
          · exact hs.lh_word y hy
          · exact hbw
        · rw [hdisk, hstart']
          exact hs.head
        · rw [hdisk, hdata, hstart', update_of_ne hstart]
          exact hs.head_data
        · intro y hy hyl
          rw [hstart', hsize'] at hy
          rw [hmem, not_or] at hyl
          rw [hdisk, hdata, update_of_ne hyl.2]
          exact hs.home_data y hy hyl.1
      have hrest : HomeTxn u.start u.size T := by
        rw [hstart', hsize']
        exact fun w hw => hT w (mem_cons_of_mem _ hw)
      have hind := ih hsync hrest h
      refine ⟨?_, ?_, ?_, hind.synced⟩
      · rw [hind.frame, hframe]
        rfl
      · rw [hind.data, hdata]
        rfl
      · intro y
        rw [hind.mem_lh y, hmem y]
        constructor
        · rintro ((hy | rfl) | ⟨w, hw, rfl⟩)
          · exact .inl hy
          · exact .inr ⟨_, mem_cons_self, rfl⟩
          · exact .inr ⟨w, mem_cons_of_mem _ hw, rfl⟩
        · rintro (hy | ⟨w, hw, rfl⟩)
          · exact .inl (.inl hy)
          · rcases mem_cons.mp hw with rfl | hw
            · exact .inl (.inr rfl)
            · exact .inr ⟨w, hw, rfl⟩
    · cases h

/-! ## One commit -/

/-- The block writes of `commit`. -/
def commitWrites (s : LogState) : List DiskWrite :=
  copyWrites s.start s.data 0 s.lh ++
    (s.start, putHead (s.data s.start) s.lh) ::
      ((s.lh.map fun b => (b, s.data b)) ++
        [(s.start, putHead (putHead (s.data s.start) s.lh) [])])

theorem copyWrites_ne_start {start : Nat} {src : Nat → Block} {w : DiskWrite}
    (hw : w ∈ copyWrites start src 0 bs) : w.1 ≠ start := by
  have := (mem_copyWrites hw).1
  omega

theorem commit_eq (hfits : s.lh.length < size) (hhome : ∀ b ∈ s.lh, ¬ InLog s.start size b)
    (hlh : s.lh ≠ []) :
    s.commit =
      { s with
        disk := applyWrites s.disk (commitWrites s)
        data := applyWrites s.data (commitWrites s)
        writes := s.writes ++ commitWrites s
        lh := []
        pins := unpinAll s.pins s.lh } := by
  have hpos : 0 < s.lh.length := length_pos_iff.mpr hlh
  have hfits' : 0 + s.lh.length < size := by omega
  have hdata : applyWrites s.data (copyWrites s.start s.data 0 s.lh) s.start =
      s.data s.start :=
    applyWrites_of_not_mem fun w hw => copyWrites_ne_start hw
  have hcopies := installWrites_after_writeHead s.start s.data s.data
    (putHead (s.data s.start) s.lh) s.lh
  have hhead : ∀ e : Nat → Block,
      applyWrites e (s.lh.map fun b => (b, s.data b)) s.start = e s.start := by
    intro e
    rw [applyWrites_map, if_neg (start_not_mem hfits hhome)]
  have hlog : s.writeLog =
      { s with
        disk := applyWrites s.disk (copyWrites s.start s.data 0 s.lh)
        data := applyWrites s.data (copyWrites s.start s.data 0 s.lh)
        writes := s.writes ++ copyWrites s.start s.data 0 s.lh } :=
    writeLogFrom_eq hfits' hhome
  have hput : s.writeLog.writeHead =
      { s with
        disk := update (applyWrites s.disk (copyWrites s.start s.data 0 s.lh))
          s.start (putHead (s.data s.start) s.lh)
        data := update (applyWrites s.data (copyWrites s.start s.data 0 s.lh))
          s.start (putHead (s.data s.start) s.lh)
        writes := s.writes ++ copyWrites s.start s.data 0 s.lh ++
          [(s.start, putHead (s.data s.start) s.lh)] } := by
    rw [hlog, writeHead_eq]
    simp only [hdata]
  rw [LogState.commit, if_pos hpos, hput, LogState.installTrans,
    installFrom_eq hfits' (by exact hhome), writeHead_eq]
  simp only [LogState.clearHead, hcopies, hhead, update_self, commitWrites, applyWrites_append,
    applyWrites_cons, applyWrites_nil, append_assoc, cons_append, nil_append]

/-- The writes of `commit` up to a point behind the header write count as one
commit. -/
theorem commits_commitWrites_take (hs : Synced s) (hlh : s.lh ≠ []) (j : Nat) :
    commits s.start ((commitWrites s).take
      ((copyWrites s.start s.data 0 s.lh).length + (j + 1))) = 1 := by
  have hpos : 0 < s.lh.length := length_pos_iff.mpr hlh
  have hcopy : (copyWrites s.start s.data 0 s.lh).countP
      (fun w => w.1 = s.start ∧ 0 < headN w.2) = 0 :=
    countP_eq_zero.mpr fun w hw => by simp [copyWrites_ne_start hw]
  have hrest : (((s.lh.map fun b => (b, s.data b)) ++
      [(s.start, putHead (putHead (s.data s.start) s.lh) [])]).take j).countP
      (fun w => w.1 = s.start ∧ 0 < headN w.2) = 0 := by
    refine countP_eq_zero.mpr fun w hw => ?_
    rcases mem_append.mp (mem_of_mem_take hw) with hw | hw
    · obtain ⟨b, hb, rfl⟩ := mem_map.mp hw
      have hne : b ≠ s.start := fun he => start_not_mem hs.fits hs.lh_home (he ▸ hb)
      simp [hne]
    · rw [mem_singleton.mp hw]
      simp
  rw [commitWrites, take_length_add_append, take_succ_cons, commits,
    countP_append, countP_cons, hcopy, hrest]
  simp [headN_putHead _ hs.fitsHeader, hpos]

theorem commits_commitWrites (hs : Synced s) (hlh : s.lh ≠ []) :
    commits s.start (commitWrites s) = 1 := by
  have hall := commits_commitWrites_take hs hlh (s.lh.length + 1)
  rwa [take_of_length_le (by simp [commitWrites])] at hall

/-- A home block after the writes of `commit`. -/
theorem applyWrites_commitWrites (hs : Synced s) (e : Nat → Block) (hb : ¬ InLog s.start s.size b) :
    applyWrites e (commitWrites s) b = if b ∈ s.lh then s.data b else e b := by
  have hfits := hs.fits
  have hne : b ≠ s.start := by
    rintro rfl
    exact hb ⟨le_refl _, by omega⟩
  have hcopy : applyWrites e (copyWrites s.start s.data 0 s.lh) b = e b := by
    refine applyWrites_of_not_mem fun w hw heq => hb ?_
    have hmem := mem_copyWrites hw
    exact ⟨by omega, by omega⟩
  rw [commitWrites, applyWrites_append, applyWrites_cons, applyWrites_append, applyWrites_singleton,
    update_of_ne hne, applyWrites_map, update_of_ne hne, hcopy]

/-- The writes of `commit`, cut at any point.  Up to the header write the
disk shows the state before the transaction, from then on the state after. -/
theorem commit_crash (hs : Synced s) (hlh : s.lh ≠ []) (k : Nat) :
    let d := applyWrites s.disk ((commitWrites s).take k)
    let n := commits s.start ((commitWrites s).take k)
    WfLog s.start s.size d ∧ n ≤ 1 ∧
      ∀ b, ¬ InLog s.start s.size b →
        recovered s.start d b = if n = 0 then s.disk b else s.data b := by
  have hsize : 0 < s.size := lt_of_le_of_lt (Nat.zero_le _) hs.fits
  have hzero : ∀ j, commits s.start ((copyWrites s.start s.data 0 s.lh).take j) = 0 := by
    intro j
    refine countP_eq_zero.mpr fun w hw => ?_
    simp [copyWrites_ne_start (mem_of_mem_take hw)]
  have hhome : ∀ j b, ¬ InLog s.start s.size b →
      applyWrites s.disk ((copyWrites s.start s.data 0 s.lh).take j) b = s.disk b := by
    intro j b hb
    refine applyWrites_of_not_mem fun w hw he => hb ?_
    have hmem := mem_copyWrites (mem_of_mem_take hw)
    have := hs.fits
    exact ⟨by omega, by omega⟩
  by_cases hk : k ≤ (copyWrites s.start s.data 0 s.lh).length
  · -- The crash comes before the header write: the on-disk log is still empty.
    rw [commitWrites, take_append_of_le_length hk]
    have hhead : headList (applyWrites s.disk
        ((copyWrites s.start s.data 0 s.lh).take k) s.start) = [] := by
      rw [applyWrites_of_not_mem fun w hw => copyWrites_ne_start (mem_of_mem_take hw)]
      exact hs.head
    refine ⟨WfLog.of_headList_nil hsize hhead, by rw [hzero]; omega, fun b hb => ?_⟩
    rw [recovered_of_headList_nil hhead, hhome k b hb, if_pos (hzero k)]
  · -- The header is on the disk: what is left is to install and to clear.
    obtain ⟨j, rfl⟩ : ∃ j, k = (copyWrites s.start s.data 0 s.lh).length + (j + 1) :=
      ⟨k - (copyWrites s.start s.data 0 s.lh).length - 1, by omega⟩
    have hone := commits_commitWrites_take hs hlh j
    rw [commitWrites, take_length_add_append, take_succ_cons] at hone ⊢
    generalize hd2 : update (applyWrites s.disk
      (copyWrites s.start s.data 0 s.lh)) s.start (putHead (s.data s.start) s.lh) = d2
    have hhead : headList (d2 s.start) = s.lh := by
      rw [← hd2, update_self]
      exact headList_putHead _ hs.fitsHeader hs.lh_word
    have hcopies : installWrites s.start d2 0 (headList (d2 s.start)) =
        s.lh.map fun b => (b, s.data b) := by
      rw [hhead, ← hd2]
      exact installWrites_after_writeHead s.start s.disk s.data _ s.lh
    have hwf : WfLog s.start s.size d2 :=
      ⟨by rw [hhead]; exact hs.fits, by rw [hhead]; exact hs.lh_home⟩
    have hrec : ∀ b, ¬ InLog s.start s.size b → recovered s.start d2 b = s.data b := by
      intro b hb
      rw [recovered, hcopies, applyWrites_map]
      split_ifs with hmem
      · rfl
      · have hne : b ≠ s.start := by
          rintro rfl
          exact hb ⟨le_refl _, by omega⟩
        have hcopy := hhome (copyWrites s.start s.data 0 s.lh).length b hb
        rw [take_length] at hcopy
        rw [← hd2, update_of_ne hne, hcopy]
        exact (hs.home_data b hb hmem).symm
    have hinstall := install_clear_prefix hwf
      (headList_putHead_nil (putHead (s.data s.start) s.lh)) j
    rw [hcopies] at hinstall
    rw [applyWrites_append, applyWrites_cons, hd2, hone]
    refine ⟨hinstall.1, le_refl _, fun b hb => ?_⟩
    rw [hinstall.2 b hb, hrec b hb, if_neg (by omega)]

/-! ## A sequence of transactions -/

/-- No operation is running and nothing waits to be committed. -/
structure Quiet (s : LogState) : Prop extends Synced s where
  lh_nil : s.lh = []
  outstanding_zero : s.outstanding = 0
  not_committing : s.committing = false

/-- What one transaction does to a quiet log. -/
structure Committed (s : LogState) (T : Txn) (t : LogState) (ws : List DiskWrite) : Prop where
  quiet : Quiet t
  start_eq : t.start = s.start
  size_eq : t.size = s.size
  writes_eq : t.writes = s.writes ++ ws
  disk_eq : t.disk = applyWrites s.disk ws
  data_eq : ∀ b, ¬ InLog s.start s.size b → t.data b = applyWrites s.data T b
  commits_eq : commits s.start ws = if T = [] then 0 else 1
  crash : ∀ k, WfLog s.start s.size (applyWrites s.disk (ws.take k)) ∧
    commits s.start (ws.take k) ≤ commits s.start ws ∧
    ∀ b, ¬ InLog s.start s.size b →
      recovered s.start (applyWrites s.disk (ws.take k)) b =
        if commits s.start (ws.take k) = 0 then s.data b else applyWrites s.data T b

theorem commits_take_le (start : Nat) (ws : List DiskWrite) (k : Nat) :
    commits start (ws.take k) ≤ commits start ws :=
  (take_sublist k ws).countP_le

/-- `commit` on a synced state with a non-empty header leaves a synced
state. -/
theorem commit_synced (hs : Synced s) (hlh : s.lh ≠ []) : Synced s.commit := by
  have hlast : ∀ e : Nat → Block, applyWrites e (commitWrites s) s.start =
      putHead (putHead (s.data s.start) s.lh) [] := by
    intro e
    rw [commitWrites, applyWrites_append, applyWrites_cons, applyWrites_append,
      applyWrites_singleton, update_self]
  rw [commit_eq hs.fits hs.lh_home hlh]
  refine ⟨lt_of_le_of_lt (Nat.zero_le _) hs.fits, Nat.zero_le _, by simp, by simp, ?_, ?_, ?_⟩
  · simp only [hlast]
    exact headList_putHead_nil _
  · simp only [hlast]
  · intro b hb _
    simp only [applyWrites_commitWrites hs _ hb]
    split_ifs with hmem
    · rfl
    · exact hs.home_data b hb hmem

/-- `commit` does not change what `bread` returns for a home block. -/
theorem commit_data (hs : Synced s) (hlh : s.lh ≠ [])
    (hb : ¬ InLog s.start s.size b) : s.commit.data b = s.data b := by
  rw [commit_eq hs.fits hs.lh_home hlh]
  simp only [applyWrites_commitWrites hs _ hb, ite_self]

/-- One transaction on a quiet log. -/
theorem runTxn_committed (hs : Quiet s) (hT : HomeTxn s.start s.size T) (h : runTxn s T = some t) :
    ∃ ws, Committed s T t ws := by
  have hbegin : s.beginOp = some { s with outstanding := 1 } := by
    simp [LogState.beginOp, hs.not_committing, hs.lh_nil, hs.outstanding_zero, MAXOPBLOCKS, LOGSIZE]
  simp only [runTxn, hbegin, Option.bind_eq_bind, Option.bind_some] at h
  obtain ⟨u, hu, h⟩ := Option.bind_eq_some_iff.mp h
  have hlog : logTxn { s with outstanding := 1 } T = .ok u := by
    revert hu
    cases logTxn { s with outstanding := 1 } T <;> simp [Except.toOption]
  have hsync : Synced { s with outstanding := 1 } := { hs.toSynced with }
  have hl := logTxn_ok hsync hT hlog
  have hucommit : u.committing = false := by rw [hl.frame]; exact hs.not_committing
  have huout : u.outstanding = 1 := by rw [hl.frame]
  have hudisk : u.disk = s.disk := by rw [hl.frame]
  have huwrites : u.writes = s.writes := by rw [hl.frame]
  have hustart : u.start = s.start := by rw [hl.frame]
  have husize : u.size = s.size := by rw [hl.frame]
  have ht : t = { u with outstanding := 0, committing := true }.commit.endOpLeave := by
    simpa [LogState.endOp, LogState.endOpEnter, hucommit, huout, Except.toOption, bind,
      Except.bind, pure, Except.pure, eq_comm] using h
  have hv : Synced { u with outstanding := 0, committing := true } := { hl.synced with }
  have hhome : ∀ b, ¬ InLog s.start s.size b → s.data b = s.disk b := fun b hb =>
    hs.home_data b hb (by simp [hs.lh_nil])
  by_cases hT0 : T = []
  · -- Nothing was logged, so `commit` does nothing.
    have hulh : u.lh = [] := by
      rw [eq_nil_iff_forall_not_mem]
      intro b hb
      have := (hl.mem_lh b).mp hb
      simp [hs.lh_nil, hT0] at this
    have hcommit : { u with outstanding := 0, committing := true }.commit =
        { u with outstanding := 0, committing := true } := by
      simp [LogState.commit, hulh]
    rw [hcommit] at ht
    have htsync : Synced t := by rw [ht]; exact { hl.synced with }
    refine ⟨[], ⟨⟨htsync, ?_, ?_, ?_⟩, ?_, ?_, ?_, ?_, ?_, ?_, ?_⟩⟩
    · rw [ht]; exact hulh
    · rw [ht]; rfl
    · rw [ht]; rfl
    · rw [ht]; exact hustart
    · rw [ht]; exact husize
    · rw [ht]; simpa [LogState.endOpLeave] using huwrites
    · rw [ht]; exact hudisk
    · intro b _
      rw [ht]
      exact congrFun hl.data b
    · simp [hT0, commits]
    · intro k
      have hsize : 0 < s.size := lt_of_le_of_lt (Nat.zero_le _) hs.fits
      refine ⟨?_, by simp, fun b hb => ?_⟩
      · simpa using WfLog.of_headList_nil hsize hs.head
      · simp only [take_nil, applyWrites_nil]
        rw [recovered_of_headList_nil hs.head, ← hhome b hb, if_pos (by simp [commits])]
  · have hulh : u.lh ≠ [] := by
      obtain ⟨w, hw⟩ := exists_mem_of_ne_nil T hT0
      exact ne_nil_of_mem ((hl.mem_lh w.1).mpr (.inr ⟨w, hw, rfl⟩))
    have htsync : Synced t := by rw [ht]; exact { commit_synced hv hulh with }
    have hceq := commit_eq hv.fits hv.lh_home hulh
    refine ⟨commitWrites u, ⟨⟨htsync, ?_, ?_, ?_⟩, ?_, ?_, ?_, ?_, ?_, ?_, ?_⟩⟩
    · rw [ht, hceq]; rfl
    · rw [ht, hceq]; rfl
    · rw [ht]; rfl
    · rw [ht, hceq]; exact hustart
    · rw [ht, hceq]; exact husize
    · rw [ht, hceq]; simpa [LogState.endOpLeave, commitWrites] using huwrites
    · rw [ht, hceq, ← hudisk]; rfl
    · intro b hb
      rw [ht, LogState.endOpLeave, commit_data hv hulh (by rwa [hustart, husize])]
      exact congrFun hl.data b
    · rw [if_neg hT0, ← hustart]
      exact commits_commitWrites hl.synced hulh
    · intro k
      have hcrash := commit_crash hl.synced hulh k
      rw [hustart, husize, hudisk] at hcrash
      refine ⟨hcrash.1, commits_take_le _ _ _, fun b hb => ?_⟩
      rw [hcrash.2.2 b hb, hhome b hb, hl.data]

/-- The transactions that log at least one block.  The others write nothing
to the disk, not even a header. -/
def writing (Ts : List Txn) : List Txn := Ts.filter fun T => !T.isEmpty

/-- The writes of a sequence of transactions, cut at any point, show the
state after the transactions whose header reached the disk. -/
theorem runTxns_crash (hs : Quiet s) (hTs : ∀ T ∈ Ts, HomeTxn s.start s.size T)
    (h : runTxns s Ts = some t) :
    ∃ ws, t.writes = s.writes ++ ws ∧ ∀ k,
      WfLog s.start s.size (applyWrites s.disk (ws.take k)) ∧
      ∀ b, ¬ InLog s.start s.size b →
        recovered s.start (applyWrites s.disk (ws.take k)) b =
          applyWrites s.data
            ((writing Ts).take (commits s.start (ws.take k))).flatten b := by
  induction Ts generalizing s with
  | nil =>
    cases h
    have hsize : 0 < t.size := lt_of_le_of_lt (Nat.zero_le _) hs.fits
    refine ⟨[], by simp, fun k => ⟨?_, fun b hb => ?_⟩⟩
    · simpa using WfLog.of_headList_nil hsize hs.head
    · simp [writing, recovered_of_headList_nil hs.head, hs.home_data b hb (by simp [hs.lh_nil])]
  | cons T Ts ih =>
    obtain ⟨u, hu, htu⟩ := Option.bind_eq_some_iff.mp h
    obtain ⟨ws1, hc⟩ := runTxn_committed hs (hTs T mem_cons_self) hu
    obtain ⟨ws2, hw2, hcrash2⟩ := ih hc.quiet (by
      rw [hc.start_eq, hc.size_eq]
      exact fun T' hT' => hTs T' (mem_cons_of_mem _ hT')) htu
    rw [hc.start_eq, hc.size_eq, hc.disk_eq] at hcrash2
    refine ⟨ws1 ++ ws2, by rw [hw2, hc.writes_eq, append_assoc], fun k => ?_⟩
    by_cases hk : k ≤ ws1.length
    · -- The crash falls in the first transaction.
      rw [take_append_of_le_length hk]
      obtain ⟨hwf, hle, hrec⟩ := hc.crash k
      refine ⟨hwf, fun b hb => ?_⟩
      rw [hrec b hb]
      by_cases hn : commits s.start (ws1.take k) = 0
      · rw [if_pos hn, hn]
        simp
      · have hT : T ≠ [] := by
          rintro rfl
          rw [hc.commits_eq, if_pos rfl] at hle
          omega
        have hone : commits s.start (ws1.take k) = 1 := by
          rw [hc.commits_eq, if_neg hT] at hle
          omega
        rw [if_neg hn, hone]
        simp [writing, hT]
    · -- The first transaction is complete, and the crash falls in a later one.
      obtain ⟨j, rfl⟩ : ∃ j, k = ws1.length + j := ⟨k - ws1.length, by omega⟩
      obtain ⟨hwf, hrec⟩ := hcrash2 j
      rw [take_length_add_append, applyWrites_append]
      refine ⟨hwf, fun b hb => ?_⟩
      have hcount : commits s.start (ws1 ++ ws2.take j) =
          (if T = [] then 0 else 1) + commits s.start (ws2.take j) := by
        rw [← hc.commits_eq]
        exact countP_append
      rw [hrec b hb, hcount, applyWrites_congr _ (hc.data_eq b hb)]
      by_cases hT : T = []
      · subst hT
        simp [writing]
      · rw [if_neg hT, show writing (T :: Ts) = T :: writing Ts by simp [writing, hT],
          Nat.add_comm, take_succ_cons, flatten_cons, applyWrites_append]

/-- A booted log is quiet, and its buffers and its disk are those of the
recovered disk. -/
theorem initlog_quiet (h : WfLog start size d) :
    Quiet (initlog start size d) ∧ (initlog start size d).start = start ∧
      (initlog start size d).size = size ∧
      (initlog start size d).data = applyWrites d (recoveryWrites start size d) ∧
      (initlog start size d).disk = applyWrites d (recoveryWrites start size d) := by
  have hsize : 0 < size := lt_of_le_of_lt (Nat.zero_le _) h.fits
  have hhead : applyWrites d (recoveryWrites start size d) start = putHead (d start) [] := by
    rw [recoveryWrites_eq h, applyWrites_append, applyWrites_singleton, update_self]
  have heq := initlog_eq h
  rw [← recoveryWrites_eq h] at heq
  rw [heq]
  generalize applyWrites d (recoveryWrites start size d) = e at hhead ⊢
  refine ⟨⟨⟨hsize, Nat.zero_le _, by simp [boot], by simp [boot], ?_, rfl,
    fun _ _ _ => rfl⟩, rfl, rfl, rfl⟩, rfl, rfl, rfl, rfl⟩
  change headList (e start) = []
  rw [hhead]
  exact headList_putHead_nil _

/-- A recovery writes no header with `n > 0`. -/
theorem commits_recoveryWrites (h : WfLog start size d) :
    commits start (recoveryWrites start size d) = 0 := by
  rw [recoveryWrites_eq h]
  refine countP_eq_zero.mpr fun w hw => ?_
  rcases mem_append.mp hw with hw | hw
  · have hmem := mem_installWrites hw
    have hne : w.1 ≠ start := by
      intro he
      rw [he] at hmem
      exact start_not_mem h.fits h.home hmem
    simp [hne]
  · rw [mem_singleton.mp hw]
    simp

/-- Boot on a disk whose log is empty, run any sequence of transactions, crash
between any two block writes, and recover, with any number of further crashes
during the recovery.  The home blocks are then those of the disk the system
booted from, after exactly the first `j` transactions that log a block, where
`j` counts the header writes with `n > 0` that reached the disk.

The boot log is empty because the recovery of another one leaves reference
counts in the buffer cache with which `data` is no longer what `bread` returns
to the transactions.  The recovery after the crash boots with a fresh cache. -/
theorem recover_after_crash {d₀ : Nat → Block} (hsize : 0 < size) (hempty : headN (d₀ start) ≤ 0)
    (hTs : ∀ T ∈ Ts, HomeTxn start size T) (hrun : runTxns (initlog start size d₀) Ts = some s)
    (k : Nat) (hrec : Recovers (recoveryWrites start size) (applyWrites d₀ (s.writes.take k)) d')
    {b : Nat} (hb : ¬ InLog start size b) :
    d' b = applyWrites d₀
      ((writing Ts).take (commits start (s.writes.take k))).flatten b := by
  have hnil : headList (d₀ start) = [] := by simp [headList, Int.toNat_of_nonpos hempty]
  have hd := WfLog.of_headList_nil hsize hnil
  obtain ⟨hq, hstart, hsize, hdata, hdisk⟩ := initlog_quiet hd
  obtain ⟨ws, hws, hcrash⟩ := runTxns_crash hq (by rwa [hstart, hsize]) hrun
  rw [hstart, hsize, hdisk, hdata] at hcrash
  rw [hws, ← recoveryWrites] at hrec ⊢
  by_cases hk : k ≤ (recoveryWrites start size d₀).length
  · -- The crash falls in the recovery at boot.
    rw [take_append_of_le_length hk] at hrec ⊢
    obtain ⟨hwf, hkeep⟩ := recovery_keeps hd k
    have hzero : commits start ((recoveryWrites start size d₀).take k) = 0 := by
      have := commits_take_le start (recoveryWrites start size d₀) k
      rw [commits_recoveryWrites hd] at this
      omega
    rw [recovers_home hrec hwf hb, hkeep b hb, recovered_of_headList_nil hnil, hzero,
      take_zero, flatten_nil, applyWrites_nil]
  · obtain ⟨j, rfl⟩ : ∃ j, k = (recoveryWrites start size d₀).length + j :=
      ⟨k - (recoveryWrites start size d₀).length, by omega⟩
    rw [take_length_add_append] at hrec ⊢
    rw [applyWrites_append] at hrec
    obtain ⟨hwf, hshow⟩ := hcrash j
    have hcount : commits start (recoveryWrites start size d₀ ++ ws.take j) =
        commits start (ws.take j) := by
      have := commits_recoveryWrites hd
      rw [commits, countP_append]
      rw [commits] at this
      rw [this, Nat.zero_add, commits]
    rw [recovers_home hrec hwf hb, hshow b hb, hcount,
      applyWrites_congr _ (recovery_exposes hd hb), recovered_of_headList_nil hnil]

/-- A transaction that writes block 40, on the empty disk of the layout that
`mkfs` builds.  A crash right after the header write keeps the
transaction. -/
theorem recover_after_header_write :
    ∃ s, runTxns (initlog 2 30 fun _ _ => 0) [[(40, fun _ => 7)]] = some s ∧
      commits 2 (s.writes.take 3) = 1 ∧
      ∀ d', Recovers (recoveryWrites 2 30)
        (applyWrites (fun _ _ => 0) (s.writes.take 3)) d' → d' 40 = fun _ => 7 := by
  have hhome : ∀ T ∈ [[(40, fun _ => 7)]], HomeTxn 2 30 T := by
    simp [HomeTxn, InLog]
  refine ⟨_, rfl, by decide, fun d' hr => ?_⟩
  exact recover_after_crash (by decide) (by decide) hhome (by rfl) 3 hr (by decide)

end SummerOsk.Log
