import SummerOsk.Fs.SharedWrite

/-!
# The log space of one chunk of a write

`filewrite` writes at most `maxChunk` bytes in one operation, for which
`begin_op` reserved `MAXOPBLOCKS` blocks of the log.  For each function below
`writei` the `Logs` of that function are the block numbers that it passes to
`log_write`, in order; a call that stops in a panic has passed those from before
the panic.  They are counted as data blocks, bitmap blocks, the indirect block
and the block of the inode.
-/

namespace SummerOsk.Fs

open Lib Log Function List

variable {strict : Prop} {s t : FsState} {A : Nat → Dinode} {x : Option Nat} {h : Nat → Nat}
  {i a d b n off : Nat} {l l' : List Nat} {α β : Type} {next : α → FsState → List Nat}
  {P : List Nat → Prop} {m : FsM α} {f : α → FsM β}

/-! ## The block numbers -/

/-- What comes after `x` returned, if it does. -/
def after {α : Type} (x : FsM α) (s : FsState) (next : α → FsState → List Nat) : List Nat :=
  match x s with
  | .ok (a, t) => next a t
  | .error _ => []

/-- `balloc` marks the block in the bitmap and zeroes it. -/
def ballocLogs (s : FsState) : List Nat := after balloc s fun b _ => [s.sb.bblock b, b]

def loadIndirectLogs (i : Nat) (s : FsState) : List Nat :=
  if (s.icache i).addrs NDIRECT = 0 then ballocLogs s else []

/-- The second half of the indirect case of `bmap`, for entry `k` of the
indirect block `ib`. -/
def mapEntryLogs (ib k : Nat) (s : FsState) : List Nat :=
  if getLE (s.cache ib) (4 * k) 4 = 0 then ballocLogs s ++ after balloc s fun _ _ => [ib] else []

def bmapLogs (i bn : Nat) (s : FsState) : List Nat :=
  if bn < NDIRECT then
    if (s.icache i).addrs bn = 0 then ballocLogs s else []
  else if bn - NDIRECT < NINDIRECT then
    loadIndirectLogs i s ++ after (loadIndirect i) s (mapEntryLogs · (bn - NDIRECT))
  else []

/-- One round of the loop of `writei` and those after it.  A round in which
`either_copyin` fails does not log the data. -/
def writeLoopLogs (i : Nat) (src : Source) (tot off n : Nat) : Nat → FsState → List Nat
  | 0, _ => []
  | k + 1, s =>
    if 0 < n then
      let m := min n (BSIZE - off % BSIZE)
      bmapLogs i (off / BSIZE) s ++ after (bmap i (off / BSIZE)) s fun b t =>
        if (src.fetch tot m).length < m then []
        else b :: after (logWrite b (putBytes (t.cache b) (off % BSIZE) (src.fetch tot m))) t
          fun _ u => writeLoopLogs i src (tot + m) (off + m) (n - m) k u
    else []

/-- `writei`: the loop, and the block of the inode in `iupdate`. -/
def writeiLogs (i : Nat) (src : Source) (off n : Nat) (s : FsState) : List Nat :=
  if off > (s.icache i).size ∨ (off + n) % 2 ^ 32 < off then []
  else if (off + n) % 2 ^ 32 > MAXFILE * BSIZE then []
  else
    writeLoopLogs i src 0 off n (n / BSIZE + 2) s ++
      after (writeLoop i src 0 off n (n / BSIZE + 2)) s fun _ t =>
        if n > 0 then [t.sb.iblock (t.icache i).inum] else []

theorem after_wp {x : FsM α} (h : wp x s (fun a t => P (next a t)) fun _ => P []) :
    P (after x s next) := by
  unfold wp at h
  unfold after
  cases hx : x s with
  | ok r =>
    rw [hx] at h
    exact h
  | error e =>
    rw [hx] at h
    exact h

/-- What a specification of `x` says about the numbers of `x` itself and those
that come after it. -/
theorem append_after_wp {x : FsM α} (h : wp x s (fun a t => P (l ++ next a t)) fun _ => P l) :
    P (l ++ after x s next) :=
  after_wp (P := fun rest => P (l ++ rest)) (by rwa [append_nil])

theorem after_of_ok {x : FsM α} {a : α} (hx : x s = .ok (a, t)) : after x s next = next a t := by
  rw [after, hx]

theorem after_of_error {x : FsM α} {e : Stop} (hx : x s = .error e) : after x s next = [] := by
  rw [after, hx]

/-! ## What is published -/

/-- Of the blocks on disk, `m` changes those of `l` only. -/
def Publishes {α : Type} (m : FsM α) (s : FsState) (l : List Nat) : Prop :=
  wp m s (fun _ t => ∀ b, b ∉ l → t.disk b = s.disk b) fun _ => True

theorem Publishes.bind (hm : Publishes m s l) (hf : ∀ a t, Publishes (f a) t (next a t)) :
    Publishes (m >>= f) s (l ++ after m s next) := by
  rw [Publishes, wp_bind]
  refine wp_imp (wp_and hm (wp_self m s)) ?_ fun _ _ => trivial
  rintro a t ⟨hl, hrun⟩
  refine wp_mono (hf a t) fun _ u hu b hb => ?_
  rw [after_of_ok hrun, mem_append, not_or] at hb
  rw [hu b hb.2, hl b hb.1]

theorem Publishes.bind_left (hm : Publishes m s l) (hf : ∀ a t, Publishes (f a) t []) :
    Publishes (m >>= f) s l := by
  refine wp_seq hm fun a t hl => ?_
  refine wp_mono (hf a t) fun _ u hu b hb => ?_
  rw [hu b not_mem_nil, hl b hb]

/-- `balloc`, and what comes after it. -/
theorem balloc_after (s : FsState) :
    wp balloc s (fun b t => (b < s.sb.size ∧ usedBit s.sb s.cache b = false ∧ t = s.take b) ∧
        ∀ next, after balloc s next = next b t)
      fun _ => ∀ next, after balloc s next = [] :=
  wp_imp (wp_and balloc_spec (wp_self balloc s)) (fun _ _ hr => ⟨hr.1, fun _ => after_of_ok hr.2⟩)
    fun _ he _ => after_of_error he.2

theorem balloc_publishes (s : FsState) : Publishes balloc s (ballocLogs s) := by
  refine wp_imp (balloc_after s) ?_ fun _ _ => trivial
  rintro b t ⟨⟨-, -, rfl⟩, hafter⟩ b' hb'
  rw [ballocLogs, hafter, mem_cons, mem_singleton, not_or] at hb'
  exact (update_of_ne hb'.2 _ _).trans (update_of_ne hb'.1 _ _)

theorem allocSlot_publishes (s : FsState) (j : Nat) :
    Publishes (do
        let b ← balloc
        modifyInode i fun ip => { ip with addrs := update ip.addrs j b }
        pure b : FsM Nat) s (ballocLogs s) :=
  (balloc_publishes s).bind_left fun _ _ _ _ => rfl

theorem logWrite_publishes (b : Nat) (y : Block) (s : FsState) : Publishes (logWrite b y) s [b] :=
  fun _ hb => update_of_ne (fun he => hb (mem_singleton.mpr he)) _ _

theorem Publishes.ite {c : Prop} [Decidable c] {m' : FsM α} (hm : c → Publishes m s l)
    (hm' : ¬ c → Publishes m' s l') : Publishes (if c then m else m') s (if c then l else l') := by
  split_ifs with hc
  · exact hm hc
  · exact hm' hc

theorem bmap_publishes (bn : Nat) (s : FsState) : Publishes (bmap i bn) s (bmapLogs i bn s) := by
  refine Publishes.ite (fun _ => Publishes.ite (fun _ => allocSlot_publishes s bn) fun _ _ _ => rfl)
    fun _ => Publishes.ite (fun _ => .bind ?_ fun ib t => ?_) fun _ => trivial
  · exact Publishes.ite (fun _ => allocSlot_publishes s NDIRECT) fun _ _ _ => rfl
  · refine Publishes.ite (fun _ => (balloc_publishes t).bind fun b u => ?_) fun _ _ _ => rfl
    exact (logWrite_publishes _ _ _).bind_left fun _ _ _ _ => rfl

theorem writeLoop_publishes (src : Source) (tot off n k : Nat) (s : FsState) :
    Publishes (writeLoop i src tot off n k) s (writeLoopLogs i src tot off n k s) := by
  induction k generalizing tot off n s with
  | zero => exact fun _ _ => rfl
  | succ k ih =>
    refine Publishes.ite (fun _ => (bmap_publishes _ s).bind fun b t => ?_) fun _ _ _ => rfl
    exact Publishes.ite (fun _ _ _ => rfl) fun _ =>
      (logWrite_publishes _ _ _).bind fun _ u => ih _ _ _ u

/-- The numbers are complete: `writei` changes no other block on disk. -/
theorem writei_publishes (src : Source) (off n : Nat) (s : FsState) :
    Publishes (writei i src off n) s (writeiLogs i src off n s) := by
  refine Publishes.ite (fun _ _ _ => rfl) fun _ => Publishes.ite (fun _ _ _ => rfl) fun _ =>
    (writeLoop_publishes src 0 off n _ s).bind fun stop t => ?_
  refine Publishes.ite (fun _ => ?_) fun _ _ _ => rfl
  simp only [Publishes, iupdate, wp_bind, wp_modifyInode, wp_getInode, wp_getSb, wp_bread,
    wp_logWrite, wp_pure, update_self, mem_singleton]
  exact fun b hb => update_of_ne hb _ _

/-! ## Counting -/

/-- The indirect block of entry `i`, if it has one. -/
def indirectOf (i : Nat) (s : FsState) : Finset Nat :=
  if (s.icache i).addrs NDIRECT = 0 then ∅ else {(s.icache i).addrs NDIRECT}

/-- One if the indirect block is still to be allocated. -/
def unborn (i : Nat) (s : FsState) : Nat := if (s.icache i).addrs NDIRECT = 0 then 1 else 0

theorem indirect_congr (h : (t.icache i).addrs NDIRECT = (s.icache i).addrs NDIRECT) :
    indirectOf i t = indirectOf i s ∧ unborn i t = unborn i s := by
  unfold indirectOf unborn
  rw [h]
  exact ⟨rfl, rfl⟩

/-- `l` is made of `d` data blocks, `a` blocks of the bitmap and the indirect
block of entry `i`. -/
def Within (i : Nat) (s : FsState) (d a : Nat) (l : List Nat) : Prop :=
  ∃ D B I : Finset Nat, D.card ≤ d ∧ B.card ≤ a ∧ I.card ≤ 1 ∧ indirectOf i s ⊆ I ∧
    ∀ b ∈ l, b ∈ D ∨ b ∈ B ∨ b ∈ I

theorem Within.nil (i : Nat) (s : FsState) (d a : Nat) : Within i s d a [] := by
  refine ⟨∅, ∅, indirectOf i s, by simp, by simp, ?_, Finset.Subset.refl _, fun b hb => by cases hb⟩
  unfold indirectOf
  split_ifs <;> simp

theorem Within.mono {d' a' : Nat} (h : Within i s d a l) (hd : d ≤ d') (ha : a ≤ a') (hl : l' ⊆ l) :
    Within i s d' a' l' := by
  obtain ⟨D, B, I, hD, hB, hI, hsub, hmem⟩ := h
  exact ⟨D, B, I, hD.trans hd, hB.trans ha, hI, hsub, fun b hb => hmem b (hl hb)⟩

theorem Within.card_le (h : Within i s d a l) : l.toFinset.card ≤ d + a + 1 := by
  obtain ⟨D, B, I, hD, hB, hI, -, hmem⟩ := h
  have hsub : l.toFinset ⊆ D ∪ (B ∪ I) := fun b hb => by
    rw [Finset.mem_union, Finset.mem_union]
    exact hmem b (mem_toFinset.mp hb)
  have := Finset.card_le_card hsub
  have := Finset.card_union_le D (B ∪ I)
  have := Finset.card_union_le B I
  omega

/-- The blocks that `bmap` logs besides the block that it returns. -/
structure Mapped (i : Nat) (s t : FsState) (b a : Nat) (l : List Nat) (B : Finset Nat) : Prop where
  bitmap : B.card + unborn i t ≤ a + unborn i s
  kept : indirectOf i s ⊆ indirectOf i t
  logs : ∀ c ∈ l, c = b ∨ c ∈ B ∨ c ∈ indirectOf i t

theorem Mapped.none {s : FsState} (b a : Nat) : Mapped i s s b a [] ∅ :=
  ⟨by simp, Finset.Subset.refl _, nofun⟩

/-- A block that is not the indirect block. -/
theorem Mapped.single {c : Nat} (hslot : (t.icache i).addrs NDIRECT = (s.icache i).addrs NDIRECT) :
    Mapped i s t b 1 [c, b] {c} := by
  obtain ⟨hind, hborn⟩ := indirect_congr hslot
  refine ⟨by rw [hborn, Finset.card_singleton], hind.ge, fun c' hc => ?_⟩
  rw [mem_cons, mem_singleton] at hc
  rw [Finset.mem_singleton]
  tauto

/-- The numbers of one round and those of the rounds after it. -/
theorem Mapped.round {e : Nat} {rest : List Nat} {B : Finset Nat} {u : FsState}
    (hm : Mapped i s t b a l B) (hu : u.icache i = t.icache i)
    (hw : Within i u d (e + unborn i u) rest) :
    Within i s (d + 1) (e + a + unborn i s) (l ++ b :: rest) := by
  obtain ⟨D, B', I, hD, hB, hI, hsub, hl⟩ := hw
  rw [indirectOf, hu] at hsub
  rw [unborn, hu] at hB
  refine ⟨insert b D, B ∪ B', I, ?_, ?_, hI, hm.kept.trans hsub, fun c hc => ?_⟩
  · exact (Finset.card_insert_le b D).trans (Nat.add_le_add_right hD 1)
  · have := Finset.card_union_le B B'
    have := hm.bitmap
    unfold unborn at *
    omega
  · rw [Finset.mem_insert, Finset.mem_union]
    rcases mem_append.mp hc with hc | hc
    · rcases hm.logs c hc with hb | hB | hI
      · exact .inl (.inl hb)
      · exact .inr (.inl (.inl hB))
      · exact .inr (.inr (hsub hI))
    · rcases mem_cons.mp hc with hb | hc
      · exact .inl (.inl hb)
      · rcases hl c hc with hD | hB | hI
        · exact .inl (.inr hD)
        · exact .inr (.inl (.inr hB))
        · exact .inr (.inr hI)

theorem loadIndirect_logs (hI : Inv strict A x h s) :
    wp (loadIndirect i) s
      (fun ib t => indirectOf i t = {ib} ∧ unborn i t = 0 ∧ indirectOf i s ⊆ {ib} ∧
        ∃ B : Finset Nat, B.card ≤ unborn i s ∧ ∀ c ∈ loadIndirectLogs i s, c ∈ B ∨ c = ib)
      fun _ => loadIndirectLogs i s = [] := by
  rw [loadIndirect, wp_bind, wp_getInode]
  unfold loadIndirectLogs indirectOf unborn
  by_cases hempty : (s.icache i).addrs NDIRECT = 0
  · simp only [if_pos hempty, wp_bind, ballocLogs]
    refine wp_imp (balloc_after s) ?_ fun _ hnil => hnil _
    rintro b t ⟨⟨hb, hfree, rfl⟩, hafter⟩
    have hb0 : b ≠ 0 := by
      have := hI.good.nmeta_le_of_free hb hfree
      have := hI.good.geom.nmeta_pos
      omega
    simp only [wp_modifyInode, wp_pure, update_self]
    rw [if_neg hb0, if_neg hb0, hafter]
    refine ⟨rfl, rfl, Finset.empty_subset _, {s.sb.bblock b}, le_rfl, fun c hc => ?_⟩
    rw [mem_cons, mem_singleton] at hc
    rwa [Finset.mem_singleton]
  · simp only [if_neg hempty]
    exact ⟨if_neg hempty, if_neg hempty, Finset.Subset.refl _, ∅, le_rfl, forall_mem_nil _⟩

theorem mapEntry_logs {ib k : Nat} :
    wp (mapEntry ib k) s
      (fun b t => t.icache = s.icache ∧
        ∃ B : Finset Nat, B.card ≤ 1 ∧ ∀ c ∈ mapEntryLogs ib k s, c = b ∨ c ∈ B ∨ c = ib)
      fun _ => mapEntryLogs ib k s = [] := by
  rw [mapEntry, wp_bind, wp_bread, mapEntryLogs]
  by_cases hempty : getLE (s.cache ib) (4 * k) 4 = 0
  · rw [if_pos hempty, if_pos hempty, wp_bind]
    refine wp_imp (balloc_after s) ?_ fun _ hnil => by rw [ballocLogs, hnil, hnil]; rfl
    rintro b t ⟨⟨-, -, rfl⟩, hafter⟩
    rw [wp_bind, wp_logWrite, wp_pure, ballocLogs, hafter, hafter]
    refine ⟨rfl, {s.sb.bblock b}, le_rfl, fun c hc => ?_⟩
    simp only [cons_append, nil_append, mem_cons, not_mem_nil] at hc
    rw [Finset.mem_singleton]
    tauto
  · rw [if_neg hempty, if_neg hempty]
    exact ⟨rfl, ∅, by simp, nofun⟩

/-- `bmap` logs the block that it returns, one block of the bitmap for it, one
for a new indirect block, and the indirect block. -/
theorem bmap_logs (hI : Inv strict A x h s) (bn : Nat) :
    wp (bmap i bn) s (fun b t => ∃ B, Mapped i s t b 1 (bmapLogs i bn s) B)
      fun _ => Within i s 0 (unborn i s) (bmapLogs i bn s) := by
  rw [bmap, wp_bind, wp_getInode, bmapLogs]
  by_cases hbn : bn < NDIRECT
  · rw [if_pos hbn, if_pos hbn]
    by_cases hempty : (s.icache i).addrs bn = 0
    · rw [if_pos hempty, if_pos hempty, wp_bind]
      refine wp_imp (balloc_after s) ?_ fun _ hnil => by
        rw [ballocLogs, hnil]
        exact Within.nil i s _ _
      rintro b t ⟨⟨-, -, rfl⟩, hafter⟩
      rw [wp_bind, wp_modifyInode, wp_pure, ballocLogs, hafter]
      refine ⟨_, Mapped.single ?_⟩
      dsimp only
      rw [update_self]
      exact update_of_ne (Nat.ne_of_gt hbn) _ _
    · rw [if_neg hempty, if_neg hempty]
      exact ⟨∅, .none _ _⟩
  · rw [if_neg hbn, if_neg hbn]
    by_cases hlt : bn - NDIRECT < NINDIRECT
    · rw [if_pos hlt, if_pos hlt, wp_bind]
      refine wp_imp (wp_and (loadIndirect_logs hI) (wp_self (loadIndirect i) s)) ?_ ?_
      · rintro ib t ⟨⟨hib, hborn, hsub, B, hB, hlogs⟩, hrun⟩
        rw [after_of_ok hrun]
        refine wp_imp mapEntry_logs ?_ ?_
        · rintro b u ⟨hu, B', hB', hlogs'⟩
          obtain ⟨hind, hborn'⟩ := indirect_congr (i := i) (s := t) (t := u) (by rw [hu])
          rw [hib] at hind
          have hcard := Finset.card_union_le B B'
          refine ⟨B ∪ B', by omega, hind ▸ hsub, fun c hc => ?_⟩
          rw [hind, Finset.mem_union, Finset.mem_singleton]
          rcases mem_append.mp hc with hc | hc
          · have := hlogs c hc
            tauto
          · have := hlogs' c hc
            tauto
        · intro e hnil
          rw [hnil, append_nil]
          refine ⟨∅, B, {ib}, by simp, hB, by simp, hsub, fun c hc => .inr ?_⟩
          rw [Finset.mem_singleton]
          exact hlogs c hc
      · rintro e ⟨hnil, hrun⟩
        rw [after_of_error hrun, hnil]
        exact Within.nil i s _ _
    · rw [if_neg hlt, if_neg hlt]
      exact Within.nil i s _ _

/-! ## The loop -/

/-- The number of blocks that a range of `n` bytes from `off` on meets. -/
def rounds (off n : Nat) : Nat := if n = 0 then 0 else (off % BSIZE + n - 1) / BSIZE + 1

theorem rounds_step (off : Nat) (hn : 0 < n) :
    rounds off n =
      rounds (off + min n (BSIZE - off % BSIZE)) (n - min n (BSIZE - off % BSIZE)) + 1 := by
  unfold rounds
  rw [if_neg hn.ne']
  split_ifs with hrest
  · simp only [BSIZE] at *
    omega
  · simp only [BSIZE] at *
    omega

section

variable (hI : Inv False A (some i) h s) (hi : 0 < h i) (hv : (s.icache i).valid) (src : Source)

include hI hi hv src

/-- One round, when `bmap` takes `a` blocks of the bitmap for the block that it
returns. -/
theorem writeLoop_round (tot off k : Nat) (hn : 0 < n) (hmap : wp (bmap i (off / BSIZE)) s
      (fun b t => ∃ B, Mapped i s t b a (bmapLogs i (off / BSIZE) s) B)
      fun _ => Within i s 0 (unborn i s) (bmapLogs i (off / BSIZE) s))
    (hrest : ∀ A' u m, Inv False A' (some i) h u → (u.icache i).valid = true →
      Within i u (rounds (off + m) (n - m)) (rounds (off + m) (n - m) + unborn i u)
        (writeLoopLogs i src (tot + m) (off + m) (n - m) k u)) :
    Within i s (rounds off n) (rounds off n - 1 + a + unborn i s)
      (writeLoopLogs i src tot off n (k + 1) s) := by
  rw [writeLoopLogs, if_pos hn]
  have hstep := rounds_step off hn
  set m := min n (BSIZE - off % BSIZE) with hm
  refine append_after_wp (wp_imp (wp_and (bmap_spec hI hi hv _) hmap) ?_ ?_)
  · rintro b t ⟨⟨A1, hI1, hgrow, hb⟩, B, hB⟩
    obtain ⟨addrs, hic, -⟩ := hgrow.entry
    have hinum : (t.icache i).inum = (s.icache i).inum := by rw [hic, update_self]
    have hv1 : (t.icache i).valid = true := by rw [hic, update_self]; exact hv
    rw [← hgrow.sb, ← hinum] at hb
    split_ifs with hshort
    · refine (hB.round rfl (Within.nil i t 0 (0 + unborn i t))).mono (by omega) (by omega) ?_
      rw [append_nil]
      exact subset_append_left _ _
    · obtain ⟨hI2, -⟩ := hI1.put_bytes hb (fun hst => hst.elim) (hI1.cached.inum i hi) (.inl rfl)
      have hw := hrest _ _ m hI2 hv1
      exact (hB.round rfl hw).mono (by omega) (by omega) (Subset.refl _)
  · rintro e ⟨-, hw⟩
    exact hw.mono (Nat.zero_le _) (by omega) (Subset.refl _)

theorem writeLoop_logs (tot off n k : Nat) :
    Within i s (rounds off n) (rounds off n + unborn i s)
      (writeLoopLogs i src tot off n k s) := by
  induction k generalizing s A tot off n with
  | zero => exact Within.nil i s _ _
  | succ k ih =>
    by_cases hn : 0 < n
    · have hstep := rounds_step off hn
      have hround := writeLoop_round hI hi hv src tot off k hn (bmap_logs hI _)
        fun A' u m hI' hv' => ih hI' hv' _ _ _
      rwa [hstep, Nat.add_sub_cancel, ← hstep] at hround
    · rw [writeLoopLogs, if_neg hn]
      exact Within.nil i s _ _

end

/-! ## One chunk -/

/-- A block that the file has is found without a `log_write`. -/
theorem bmapLogs_of_refOf (hI : Inv strict A x h s) (hi : 0 < h i) (hv : (s.icache i).valid)
    {bn : Nat} (hb : refOf s.sb.ninodes A s.cache (place (s.icache i).inum bn) = some b) :
    bmapLogs i bn s = [] := by
  have hinum := hI.cached.inum i hi
  have haddrs := hI.addrs_eq hi hv
  rw [bmapLogs]
  by_cases hbn : bn < NDIRECT
  · rw [place, if_pos hbn, refOf, if_pos ⟨hinum, hbn⟩, ptr_eq_some, ← haddrs] at hb
    rw [if_pos hbn, if_neg hb.2]
  · rw [place, if_neg hbn] at hb
    split_ifs with hlt
    · cases hib : refOf s.sb.ninodes A s.cache (.indirect (s.icache i).inum) with
      | none =>
        rw [refOf_entry_eq_none hib] at hb
        cases hb
      | some ib =>
        rw [refOf_entry hib hlt, ptr_eq_some] at hb
        rw [refOf, if_pos hinum, ptr_eq_some, ← haddrs] at hib
        obtain ⟨rfl, hib0⟩ := hib
        have hload : loadIndirect i s = .ok ((s.icache i).addrs NDIRECT, s) := by
          refine run_of_wp ?_
          rw [loadIndirect, wp_bind, wp_getInode, if_neg hib0]
          exact ⟨rfl, rfl⟩
        rw [loadIndirectLogs, if_neg hib0, after_of_ok hload, mapEntryLogs, if_neg hb.2]
        rfl
    · rfl

section

variable (hI : Inv strict A none h s) (hi : 0 < h i) (hv : (s.icache i).valid) (src : Source)

include hI hi hv src

/-- The loop of `writei` for a chunk.  A chunk that starts inside a block finds
that block in the file. -/
theorem chunk_logs (k : Nat) (hoff : off ≤ (s.icache i).size) (hn : n ≤ maxChunk) :
    ∃ d a, Within i s d a (writeLoopLogs i src 0 off n k s) ∧ d + a + 2 ≤ MAXOPBLOCKS := by
  have hborn : unborn i s ≤ 1 := by
    unfold unborn
    split_ifs <;> omega
  have hmax : maxChunk = 3 * BSIZE := by decide
  have hI' := hI.relax.out (i := i)
  by_cases hinside : n ≠ 0 ∧ off % BSIZE ≠ 0
  · cases k with
    | zero => exact ⟨0, 0, Within.nil i s 0 0, by decide⟩
    | succ k =>
      have hlt : off / BSIZE * BSIZE < (s.icache i).size := by
        have := Nat.div_add_mod' off BSIZE
        omega
      rw [hI.data_eq hi hv] at hlt
      obtain ⟨b, hb⟩ := Option.ne_none_iff_exists'.mp
        (hI.good.whole _ (hI.cached.inum i hi) _ hlt)
      have hnil := bmapLogs_of_refOf hI hi hv hb
      refine ⟨_, _, writeLoop_round hI' hi hv src 0 off k (Nat.pos_of_ne_zero hinside.1)
        (a := 0) (wp_mono (bmap_of_refOf hI hi hv hb) ?_)
        fun A' u m hI' hv' => writeLoop_logs hI' hi hv' src _ _ _ k, ?_⟩
      · rintro r t ⟨rfl, rfl⟩
        rw [hnil]
        exact ⟨∅, .none _ _⟩
      · have hrounds : rounds off n ≤ 4 := by
          unfold rounds
          simp only [BSIZE] at *
          split_ifs <;> omega
        unfold MAXOPBLOCKS
        omega
  · refine ⟨_, _, writeLoop_logs hI' hi hv src 0 off n k, ?_⟩
    have hrounds : rounds off n ≤ 3 := by
      unfold rounds
      simp only [BSIZE] at *
      split_ifs <;> omega
    unfold MAXOPBLOCKS
    omega

theorem writeiLogs_card (hoff : off ≤ (s.icache i).size) (hn : n ≤ maxChunk) :
    (writeiLogs i src off n s).toFinset.card ≤ MAXOPBLOCKS := by
  unfold writeiLogs
  by_cases hbad : off > (s.icache i).size ∨ (off + n) % 2 ^ 32 < off
  · rw [if_pos hbad]
    exact Nat.zero_le _
  rw [if_neg hbad]
  by_cases hbig : (off + n) % 2 ^ 32 > MAXFILE * BSIZE
  · rw [if_pos hbig]
    exact Nat.zero_le _
  rw [if_neg hbig]
  obtain ⟨d, a, hw, hle⟩ := chunk_logs hI hi hv src (n / BSIZE + 2) hoff hn
  have hloop := hw.card_le
  have hinode : (after (writeLoop i src 0 off n (n / BSIZE + 2)) s fun _ t =>
      if n > 0 then [t.sb.iblock (t.icache i).inum] else []).length ≤ 1 := by
    refine after_wp (P := fun l => l.length ≤ 1) (wp_imp (wp_true _ s) (fun _ t _ => ?_) ?_)
    · split_ifs <;> simp
    · simp
  generalize after (writeLoop i src 0 off n (n / BSIZE + 2)) s _ = rest at hinode
  have hunion := Finset.card_union_le
    (writeLoopLogs i src 0 off n (n / BSIZE + 2) s).toFinset rest.toFinset
  have hrest := toFinset_card_le rest
  rw [toFinset_append]
  omega

end

/-- A chunk fits the space that `begin_op` reserved: `writei` publishes blocks
through `log_write` only, and it passes at most `MAXOPBLOCKS` of them. -/
theorem chunk_fits_reservation (hI : Inv strict A none h s) (hi : 0 < h i)
    (hv : (s.icache i).valid) (src : Source) (hoff : off ≤ (s.icache i).size)
    (hn : n ≤ maxChunk) :
    Publishes (writei i src off n) s (writeiLogs i src off n s) ∧
      (writeiLogs i src off n s).toFinset.card ≤ MAXOPBLOCKS :=
  ⟨writei_publishes src off n s, writeiLogs_card hI hi hv src hoff hn⟩

open SharedFile in
/-- Writing the root directory of `mkfsWorld` from inside its block on. -/
theorem chunk_fits_rootFile : (rootFile.fs.icache 0).valid = true ∧
    1020 ≤ (rootFile.fs.icache 0).size ∧
    (writeiLogs 0 (.ofBytes (List.replicate 3072 7)) 1020 3072 rootFile.fs).toFinset.card ≤
      MAXOPBLOCKS :=
  ⟨rootFile_opened.valid, rootFile_opened.off_le,
    (chunk_fits_reservation (mounted_iff.mp rootFile_opened.mounted) rootFile_opened.refs_pos
      rootFile_opened.valid _ rootFile_opened.off_le (by decide)).2⟩

end SummerOsk.Fs
