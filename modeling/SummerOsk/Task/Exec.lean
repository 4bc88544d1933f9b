import SummerOsk.Task.Argv

/-!
# `exec`

The new image is built in an address space of its own, in steps that each may
fail.  On a failure `exec` frees what it has with the size it has reached; where
that size is zero, or was set to zero by an `uvmalloc` that failed, the pages
stay allocated.  `segmentsFit` is the run of `exec` over the program headers
that says whether this happens.
-/

namespace SummerOsk.Task

open Lib Vm Function List

variable {s s' : Sys} {m m' m1 m2 : Mem} {p : Fin NPROC} {pt n k va offset tf sz trampoline : Nat}
  {top : Nat → Option Nat} {argv : List (List UInt8)} {bs : List UInt8}

/-! ## Segments -/

/-- User mode can get at all the pages.  The pages of a new image are so until
`uvmclear`. -/
def UserPages (m : Mem) (pt n : Nat) : Prop := ∀ v < n, m.UserPage pt v

theorem UserPages.of_entry (h : UserPages m pt n) (hent : m'.entry pt = m.entry pt) :
    UserPages m' pt n := by
  intro v hv
  obtain ⟨e, he, huser⟩ := h v hv
  exact ⟨e, by rw [hent, he], huser⟩

theorem UserPages.grow (h : UserPages m pt n) (hgrown : UserGrown m m' pt n k) :
    UserPages m' pt k := by
  intro v hv
  by_cases hvn : v < n
  · obtain ⟨e, he, huser⟩ := h v hvn
    exact ⟨e, by rw [hgrown.old v hvn, he], huser⟩
  · exact hgrown.new v (by omega) hv

/-- `loadsegLoop` gets all the bytes it asks for. -/
def segmentRead (bs : List UInt8) (offset sz : Nat) : Nat → Nat → Bool
  | 0, _ => true
  | k + 1, i =>
    if i < sz then
      let n := if sz - i < PGSIZE then sz - i else PGSIZE
      if ((bs.drop ((offset + i) % 2 ^ 32)).take n).length ≠ n then false
      else segmentRead bs offset sz k (i + PGSIZE)
    else true

theorem loadsegLoop_spec (htop : Guarded top) (hfit : va + sz ≤ n * PGSIZE) (k : Nat) :
    ∀ {m : Mem} {i : Nat}, Space m pt n top →
    UserPages m pt n →
    wp (loadsegLoop pt va bs offset sz k i) m
      (fun r m' => Space m' pt n top ∧ Conserves m m' (m.holds pt n) (m'.holds pt n) ∧
        m'.free = m.free ∧ UserPages m' pt n ∧
        (¬ r < 0 → segmentRead bs offset sz k i = true))
      fun _ => False := by
  induction k with
  | zero =>
    intro m i h huser
    exact ⟨h, h.conserves_refl, rfl, huser, fun _ => rfl⟩
  | succ k ih =>
    intro m i h huser
    unfold loadsegLoop segmentRead
    by_cases hi : i < sz
    · rw [if_pos hi, if_pos hi, wp_bind, wp_walkaddr]
      have hpage : (va + i) / PGSIZE < n := by
        unfold PGSIZE at *
        omega
      have hpa : m.userPa pt (va + i) ≠ 0 := fun hzero =>
        h.user_ne_none hpage (huser _ hpage) (Mem.user_eq_none.mpr hzero)
      obtain ⟨e, hv, he, hpa'⟩ := h.userPa_mem htop hpa
      rw [if_neg hpa, hpa', wp_bind, wp_modify]
      dsimp only
      generalize hn : (if sz - i < PGSIZE then sz - i else PGSIZE) = chunk
      generalize hdata : (bs.drop ((offset + i) % 2 ^ 32)).take chunk = data
      obtain ⟨hsp, hc⟩ := h.write_user hv he (putBytes (m.page (pte2pa e)) 0 data)
      have huser' := huser.of_entry
        (h.entry_write_user hv he (putBytes (m.page (pte2pa e)) 0 data))
      by_cases hlen : data.length ≠ chunk
      · rw [if_pos hlen, if_pos hlen]
        exact ⟨hsp, hc, rfl, huser', fun hr => absurd (by decide) hr⟩
      · rw [if_neg hlen, if_neg hlen]
        refine wp_mono (ih hsp huser') fun r m' hr => ?_
        obtain ⟨hsp', hc', hfree, hrest⟩ := hr
        exact ⟨hsp', hc.trans hc', hfree, hrest⟩
    · rw [if_neg hi, if_neg hi]
      exact ⟨h, h.conserves_refl, rfl, huser, fun _ => rfl⟩

/-- `loadseg` gets all the bytes of the segment. -/
def loadsegRead (bs : List UInt8) (offset sz : Nat) : Bool :=
  segmentRead bs offset sz (sz / PGSIZE + 1) 0

/-- `loadseg` does not panic: the pages of the segment are there. -/
theorem loadseg_spec (h : Space m pt n top) (htop : Guarded top) (huser : UserPages m pt n)
    (hfit : va + sz ≤ n * PGSIZE) (halign : va % PGSIZE = 0) :
    wp (loadseg pt va bs offset sz) m
      (fun r m' => Space m' pt n top ∧ Conserves m m' (m.holds pt n) (m'.holds pt n) ∧
        m'.free = m.free ∧ UserPages m' pt n ∧
        (¬ r < 0 → loadsegRead bs offset sz = true))
      fun _ => False := by
  unfold loadseg
  rw [if_neg (not_not.mpr halign)]
  exact loadsegLoop_spec htop hfit _ h huser

/-- The loop of `exec` over the `n` program headers that are left, with `avail`
free pages: where it fails the size is not zero, and there is memory for all the
segments and the stack. -/
def segmentsFit (bs : List UInt8) : Nat → Nat → Nat → Nat → Bool
  | 0, _, sz, avail => growth (pages sz) (pages sz + 2) ≤ avail
  | n + 1, off, sz, avail =>
    let ph := proghdrAt bs off
    if ¬ Readable bs off 56 then 0 < sz
    else if ph.type ≠ ELF_PROG_LOAD then segmentsFit bs n ((off + 56) % 2 ^ 32) sz avail
    else if ph.memsz < ph.filesz then 0 < sz
    else if (ph.vaddr + ph.memsz) % 2 ^ 64 < ph.vaddr then 0 < sz
    else
      let newsz := max sz (ph.vaddr + ph.memsz)
      let need := growth (pages sz) (pages newsz)
      if newsz = 0 then false
      else if avail < need then false
      else if ph.vaddr % PGSIZE ≠ 0 then true
      else if loadsegRead bs (ph.off % 2 ^ 32) (ph.filesz % 2 ^ 32) = false then true
      else segmentsFit bs n ((off + 56) % 2 ^ 32) newsz (avail - need)

section Fit

variable {off avail : Nat}

/-- A header that `exec` rejects before it allocates. -/
def Rejected (bs : List UInt8) (off : Nat) : Prop :=
  ¬ Readable bs off 56 ∨ (proghdrAt bs off).type = ELF_PROG_LOAD ∧
    ((proghdrAt bs off).memsz < (proghdrAt bs off).filesz ∨
      ((proghdrAt bs off).vaddr + (proghdrAt bs off).memsz) % 2 ^ 64 < (proghdrAt bs off).vaddr)

theorem segmentsFit_rejected (h : Rejected bs off) :
    segmentsFit bs (n + 1) off sz avail = decide (0 < sz) := by
  unfold segmentsFit
  rcases h with hread | ⟨htype, hbad⟩
  · rw [if_pos hread]
  · by_cases hread : ¬ Readable bs off 56
    · rw [if_pos hread]
    · rw [if_neg hread, if_neg (not_not.mpr htype)]
      by_cases hsize : (proghdrAt bs off).memsz < (proghdrAt bs off).filesz
      · rw [if_pos hsize]
      · rw [if_neg hsize, if_pos (hbad.resolve_left hsize)]

theorem segmentsFit_skip (hread : Readable bs off 56)
    (htype : (proghdrAt bs off).type ≠ ELF_PROG_LOAD) :
    segmentsFit bs (n + 1) off sz avail =
      segmentsFit bs n ((off + 56) % 2 ^ 32) sz avail := by
  rw [segmentsFit]
  rw [if_neg (not_not.mpr hread), if_pos htype]

/-- The part of a `LOAD` segment that is not rejected. -/
theorem segmentsFit_load (hread : Readable bs off 56)
    (htype : (proghdrAt bs off).type = ELF_PROG_LOAD) (hrej : ¬ Rejected bs off)
    (hfit : segmentsFit bs (n + 1) off sz avail) :
    max sz ((proghdrAt bs off).vaddr + (proghdrAt bs off).memsz) ≠ 0 ∧
      growth (pages sz)
        (pages (max sz ((proghdrAt bs off).vaddr + (proghdrAt bs off).memsz))) ≤ avail ∧
      ((proghdrAt bs off).vaddr % PGSIZE = 0 →
        loadsegRead bs ((proghdrAt bs off).off % 2 ^ 32) ((proghdrAt bs off).filesz % 2 ^ 32) =
          true →
        segmentsFit bs n ((off + 56) % 2 ^ 32)
          (max sz ((proghdrAt bs off).vaddr + (proghdrAt bs off).memsz))
          (avail - growth (pages sz)
            (pages (max sz ((proghdrAt bs off).vaddr + (proghdrAt bs off).memsz)))) = true) := by
  unfold Rejected at hrej
  push Not at hrej
  rw [segmentsFit] at hfit
  rw [if_neg (not_not.mpr hread), if_neg (not_not.mpr htype), if_neg (by omega),
    if_neg (by omega)] at hfit
  generalize proghdrAt bs off = ph at *
  generalize max sz (ph.vaddr + ph.memsz) = newsz at *
  by_cases hzero : newsz = 0
  · rw [if_pos hzero] at hfit
    cases hfit
  rw [if_neg hzero] at hfit
  by_cases hless : avail < growth (pages sz) (pages newsz)
  · rw [if_pos hless] at hfit
    cases hfit
  rw [if_neg hless] at hfit
  refine ⟨hzero, by omega, fun halign hdata => ?_⟩
  rw [if_neg (not_not.mpr halign), if_neg (by rw [hdata]; decide)] at hfit
  exact hfit

end Fit

/-- `uvmalloc` in `exec`, where the new size may be the smaller one. -/
theorem uvmalloc_max {oldsz newsz : Nat} (h : Space m pt (pages oldsz) top) :
    wp (uvmalloc pt oldsz newsz) m
      (fun r m' => (r = max oldsz newsz ∧ Space m' pt (pages r) top ∧
          Conserves m m' (m.holds pt (pages oldsz)) (m'.holds pt (pages r)) ∧
          m.free.length ≤ m'.free.length + growth (pages oldsz) (pages r) ∧
          UserGrown m m' pt (pages oldsz) (pages r)) ∨
        (r = 0 ∧ Space m' pt (pages oldsz) top ∧
          Conserves m m' (m.holds pt (pages oldsz)) (m'.holds pt (pages oldsz)) ∧
          m.free.length < growth (pages oldsz) (pages (max oldsz newsz))))
      fun _ => False := by
  by_cases hle : oldsz ≤ newsz
  · rw [max_eq_right hle]
    refine wp_mono (h.uvmalloc hle) fun r m' hr => ?_
    rcases hr with ⟨rfl, hr⟩ | hr
    · exact .inl ⟨rfl, hr⟩
    · exact .inr hr
  · unfold uvmalloc
    rw [if_pos (by omega), wp_pure]
    exact .inl ⟨(max_eq_left (by omega)).symm, h, h.conserves_refl, by omega,
      UserGrown.refl m pt _⟩

/-- The loop of `exec` over the program headers. -/
theorem loadSegments_spec (htop : Guarded top) (n : Nat) :
    ∀ {m : Mem} {off sz : Nat}, Space m pt (pages sz) top → UserPages m pt (pages sz) →
    wp (loadSegments pt bs n off sz) m
      (fun r m' => (∃ k, Partial m m' pt top (m.holds pt (pages sz)) k r.2 ∧
          (r.1 = true → k = pages r.2)) ∧
        ∀ avail ≤ m.free.length, segmentsFit bs n off sz avail = true →
          if r.1 then growth (pages r.2) (pages r.2 + 2) ≤ m'.free.length else 0 < r.2)
      fun _ => False := by
  induction n with
  | zero =>
    intro m off sz h _
    refine ⟨⟨_, ⟨h, h.conserves_refl, .inr rfl⟩, fun _ => rfl⟩, fun avail hle hfit => ?_⟩
    exact (of_decide_eq_true hfit).trans hle
  | succ n ih =>
    intro m off sz h huser
    have hstay : ∃ k, Partial m m pt top (m.holds pt (pages sz)) k sz ∧
        (false = true → k = pages sz) :=
      ⟨_, ⟨h, h.conserves_refl, .inr rfl⟩, fun _ => rfl⟩
    have hreject : Rejected bs off → (∃ k, Partial m m pt top (m.holds pt (pages sz)) k sz ∧
        (false = true → k = pages sz)) ∧ ∀ avail ≤ m.free.length,
        segmentsFit bs (n + 1) off sz avail = true →
          if false = true then growth (pages sz) (pages sz + 2) ≤ m.free.length else 0 < sz := by
      intro hrej
      refine ⟨hstay, fun avail _ hfit => ?_⟩
      rw [segmentsFit_rejected hrej] at hfit
      exact of_decide_eq_true hfit
    have hload : ∀ avail, Readable bs off 56 → (proghdrAt bs off).type = ELF_PROG_LOAD →
        ¬ Rejected bs off → segmentsFit bs (n + 1) off sz avail = true → _ :=
      fun avail hread htype hrej hfit => segmentsFit_load hread htype hrej hfit
    have hskip : Readable bs off 56 → (proghdrAt bs off).type ≠ ELF_PROG_LOAD →
        ∀ avail, segmentsFit bs (n + 1) off sz avail = _ :=
      fun hread htype avail => segmentsFit_skip hread htype
    unfold Rejected at hreject hload
    unfold loadSegments
    generalize proghdrAt bs off = ph at *
    refine wp_ite (fun hread => hreject (.inl hread)) fun hread => ?_
    rw [not_not] at hread
    refine wp_ite (fun htype => ?_) fun htype => ?_
    · refine wp_mono (ih h huser) fun r m' hr => ⟨hr.1, fun avail hle hfit => ?_⟩
      rw [hskip hread htype] at hfit
      exact hr.2 avail hle hfit
    rw [not_not] at htype
    refine wp_ite (fun hsize => hreject (.inr ⟨htype, .inl hsize⟩)) fun hsize => ?_
    refine wp_ite (fun hwrap => hreject (.inr ⟨htype, .inr hwrap⟩)) fun hwrap => ?_
    replace hload := fun avail => hload avail hread htype (by tauto)
    refine wp_seq (uvmalloc_max h) fun sz1 m1 hr1 => ?_
    rcases hr1 with ⟨hsz1, hsp1, hc1, hcount1, hgrown⟩ | ⟨rfl, hsp1, hc1, hless1⟩
    · rw [← hsz1] at hload
      have hfail : (∃ k, Partial m m1 pt top (m.holds pt (pages sz)) k sz1 ∧
          (false = true → k = pages sz1)) ∧ ∀ avail ≤ m.free.length,
          segmentsFit bs (n + 1) off sz avail = true →
            if false = true then growth (pages sz1) (pages sz1 + 2) ≤ m1.free.length
            else 0 < sz1 := by
        refine ⟨⟨_, ⟨hsp1, hc1, .inr rfl⟩, fun _ => rfl⟩, fun avail _ hfit => ?_⟩
        exact Nat.pos_of_ne_zero (hload avail hfit).1
      refine wp_ite (fun _ => hfail) fun hpos => ?_
      refine wp_ite (fun _ => hfail) fun halign => ?_
      rw [not_not] at halign
      -- `uvmalloc` has made room for the segment
      have hroom : ph.vaddr + ph.filesz % 2 ^ 32 ≤ pages sz1 * PGSIZE := by
        unfold pages PGSIZE at *
        omega
      refine wp_seq (loadseg_spec hsp1 htop (huser.grow hgrown) hroom halign) fun r m2 hr2 => ?_
      obtain ⟨hsp2, hc2, hfree2, huser2, hdata⟩ := hr2
      refine wp_ite (fun _ => ?_) fun hr => ?_
      · refine ⟨⟨_, ⟨hsp2, hc1.trans hc2, .inr rfl⟩, fun _ => rfl⟩, fun avail _ hfit => ?_⟩
        exact Nat.pos_of_ne_zero (hload avail hfit).1
      · refine wp_mono (ih hsp2 huser2) fun r' m3 hr3 => ?_
        obtain ⟨⟨k, hpart, hk⟩, hfit3⟩ := hr3
        refine ⟨⟨k, ⟨hpart.space, (hc1.trans hc2).trans hpart.conserves, hpart.size⟩, hk⟩,
          fun avail hle hfit => ?_⟩
        obtain ⟨-, hneed, hrest⟩ := hload avail hfit
        refine hfit3 _ ?_ (hrest halign (hdata hr))
        rw [hfree2]
        omega
    · refine ⟨⟨_, ⟨hsp1, hc1, .inl rfl⟩, fun hf => by cases hf⟩, fun avail hle hfit => ?_⟩
      have hneed := (hload avail hfit).2.1
      omega

/-! ## The image -/

/-- The program headers of a file fit, with `avail` free pages. -/
def imageFits (bs : List UInt8) (avail : Nat) : Bool :=
  segmentsFit bs (fileWord bs 56 2) (fileWord bs 32 8 % 2 ^ 32) 0 (avail - 3)

/-- The jump to `bad`. -/
theorem Partial.free {A : Set Nat} (h : Partial m m' pt (procTop trampoline tf) A k sz) :
    wp (procFreepagetable pt sz) m'
      (fun _ m'' => ∃ L, Conserves m m'' A L ∧ (0 < sz → L = ∅)) fun _ => False := by
  refine wp_mono (procFreepagetable_spec h.space h.size) fun _ m'' hr => ?_
  obtain ⟨L, hc, hL, -⟩ := hr
  exact ⟨L, h.conserves.trans hc, hL⟩

theorem userPages_zero : UserPages m pt (pages 0) := fun _ hv => absurd hv (Nat.not_lt_zero _)

/-- The new image of `exec`. -/
theorem execImage_spec (hfree : m.FreeList) (hcount : 3 ≤ m.free.length) (htr : trampoline < 2 ^ 64)
    (htf : tf < 2 ^ 64) :
    wp (execImage trampoline tf bs argv) m
      (fun r m' =>
        match r with
        | none => ∃ L, Conserves m m' ∅ L ∧ (imageFits bs m.free.length = true → L = ∅)
        | some (pt, sz, sp) => Space m' pt (pages sz) (procTop trampoline tf) ∧
            Conserves m m' ∅ (m'.holds pt (pages sz)) ∧
            (Short argv → argv.length < MAXARG → StackEnd m' pt sz argv (some sp)))
      fun _ => False := by
  have htop := procTop_guarded trampoline tf
  refine wp_seq (procPagetable_spec hfree hcount htr htf) fun pt m1 hr1 => ?_
  obtain ⟨hsp1, hc1, hcount1⟩ := hr1
  rw [wp_bind]
  have hsp1' : Space m1 pt (pages 0) (procTop trampoline tf) := hsp1
  refine wp_mono (loadSegments_spec htop _ hsp1' userPages_zero) fun r m2 hr2 => ?_
  obtain ⟨ok, sz⟩ := r
  obtain ⟨⟨k, hpart, hk⟩, hfit⟩ := hr2
  replace hfit := hfit (m.free.length - 3) (by omega)
  have hpart2 : Partial m m2 pt (procTop trampoline tf) ∅ k sz :=
    ⟨hpart.space, hc1.trans hpart.conserves, hpart.size⟩
  cases ok with
  | false =>
    refine wp_seq hpart2.free fun _ m3 hr3 => ?_
    obtain ⟨L, hc3, hL⟩ := hr3
    exact ⟨L, hc3, fun hfits => hL (hfit hfits)⟩
  | true =>
    have hk' : k = pages sz := hk rfl
    subst hk'
    refine wp_seq (setupStack_spec hpart2.space htop) fun r m3 hr3 => ?_
    obtain ⟨sp, sz'⟩ := r
    obtain ⟨⟨k3, hpart3, hk3⟩, hend⟩ := hr3
    have hpart3' : Partial m m3 pt (procTop trampoline tf) ∅ k3 sz' :=
      ⟨hpart3.space, hpart2.conserves.trans hpart3.conserves, hpart3.size⟩
    cases sp with
    | none =>
      refine wp_seq hpart3'.free fun _ m4 hr4 => ?_
      obtain ⟨L, hc4, hL⟩ := hr4
      refine ⟨L, hc4, fun hfits => hL ?_⟩
      rcases hend with ⟨-, -, hless⟩ | ⟨hpos, -⟩
      · exact absurd (hfit hfits) (by dsimp only; rw [if_pos rfl]; omega)
      · exact hpos
    | some sp =>
      have hk3' : k3 = pages sz' := hk3 (by simp)
      subst hk3'
      rcases hend with ⟨hnone, -⟩ | ⟨-, hend⟩
      · cases hnone
      · exact ⟨hpart3'.space, hpart3'.conserves, hend⟩

/-! ## The call -/

/-- `exec` gets to `proc_pagetable` only with the pages that it takes. -/
def CanExec (m : Mem) (file : Option (List UInt8)) : Prop :=
  ∀ bs, file = some bs → goodHeader bs = true → 3 ≤ m.free.length

/-- The new image fits. -/
def ImageFits (m : Mem) (file : Option (List UInt8)) : Prop :=
  ∀ bs, file = some bs → goodHeader bs = true → imageFits bs m.free.length = true

/-- The new image takes the place of the old one, which is freed. -/
theorem replace_spec {pr : Proc} {pt n : Nat} {x : Bytes} (hold : pr.Sound m trampoline)
    (hfree : pr.tf ∉ m.free) (hsp : Space m' pt n (procTop trampoline pr.tf))
    (hc : Conserves m m' ∅ (m'.holds pt n)) :
    wp (procFreepagetable pr.pagetable pr.sz) (m'.setPage pr.tf x)
      (fun _ m'' => ∃ L, Space m'' pt n (procTop trampoline pr.tf) ∧
        pr.tf ∉ m''.holds pt n ∧
        Conserves m m'' (pr.pages m) (insert pr.tf (m''.holds pt n) ∪ L) ∧ (0 < pr.sz → L = ∅) ∧
        (∀ q ∈ m'.holds pt n, m''.page q = m'.page q) ∧ m''.page pr.tf = x)
      fun _ => False := by
  have hnone : ∀ q : Nat, q ∉ (∅ : Set Nat) := fun q hq => hq
  obtain ⟨hold1, hholds1⟩ := hold.space.conserved hc fun q _ => hnone q
  have hne := hc.not_mem hfree (hnone _)
  -- the old image, the new one and the trapframe are apart
  have hapart : ∀ q ∈ m.holds pr.pagetable (pages pr.sz), q ∉ m'.holds pt n := fun q hq =>
    (hc.not_mem (hold.space.not_free hq) (hnone q)).2
  have hheld : ∀ q ∈ pr.pages m, q ∉ m.free := by
    rintro q (rfl | hq)
    · exact hfree
    · exact hold.space.not_free hq
  have hwrite : ∀ A : Set Nat, pr.tf ∈ A → (∀ q ∈ A, q ∉ m'.free) →
      Conserves m' (m'.setPage pr.tf x) A A := fun A hin hA =>
    write_conserves hsp.wf.free hA hin x
  have hone : ∀ q ∈ ({pr.tf} : Set Nat), q = pr.tf := fun q hq => hq
  have hwrite1 := hwrite {pr.tf} rfl fun q hq => by rw [hone q hq]; exact hne.1
  obtain ⟨hold2, hholds2⟩ := hold1.conserved hwrite1 fun q hq hin => by
    rw [hone q hin, hholds1] at hq
    exact hold.tf hq
  obtain ⟨hsp2, hnew2⟩ := hsp.conserved hwrite1 fun q hq hin => by
    rw [hone q hin] at hq
    exact hne.2 hq
  refine wp_mono (procFreepagetable_spec hold2 (.inr rfl)) fun _ m3 hr => ?_
  obtain ⟨L, hc3, hL, -⟩ := hr
  rw [hholds2, hholds1] at hc3
  obtain ⟨hsp3, hnew3⟩ := hsp2.conserved hc3 fun q hq hin => by
    rw [hnew2] at hq
    exact hapart q hin hq
  rw [hnew2] at hnew3
  -- the new image and the trapframe stay as they are
  have hkept : ∀ q ∈ m'.holds pt n, m3.page q = m'.page q := fun q hq => by
    rw [hc3.frame q (hsp.not_free hq) fun hin => hapart q hin hq]
    exact m'.page_setPage_of_ne _ fun heq => hne.2 (heq ▸ hq)
  have htf : m3.page pr.tf = x := by
    rw [hc3.frame pr.tf hne.1 hold.tf, Mem.page_setPage_self]
  refine ⟨L, hsp3, by rw [hnew3]; exact hne.2, ?_, hL, hkept, htf⟩
  rw [hnew3]
  have hwide := hc.widen hheld fun q _ => hnone q
  rw [Set.empty_union] at hwide
  have hwide2 := hwrite (m'.holds pt n ∪ pr.pages m) (.inr (.inl rfl)) hwide.apart
  have hwide3 := hc3.widen (B := insert pr.tf (m'.holds pt n)) (fun q hq => ?_) fun q hq hin => ?_
  · refine hwide.trans (hwide2.trans ?_)
    have hset : m'.holds pt n ∪ pr.pages m =
        m.holds pr.pagetable (pages pr.sz) ∪ insert pr.tf (m'.holds pt n) := by
      ext q
      unfold Proc.pages
      simp only [Set.mem_union, Set.mem_insert_iff]
      tauto
    rw [hset, Set.union_comm _ L]
    exact hwide3
  · rcases hq with rfl | hq
    · exact hne.1
    · exact hsp.not_free hq
  · rcases hq with rfl | hq
    · exact hold.tf hin
    · exact hapart q hin hq

/-- A word of the trapframe. -/
def Sys.tfWord (s : Sys) (p : Fin NPROC) (o : Nat) : Nat := getLE (s.mem.page (s.proc p).tf) o 8

/-- The processes and the open files are the same, and so is every page that was
in use. -/
def Untouched (s s' : Sys) : Prop :=
  (∃ m', s' = { s with mem := m' }) ∧ ∀ q ∉ s.mem.free, s'.mem.page q = s.mem.page q

/-- The process `p` has the image of the file `bs`.  The words of the trapframe
are `epc`, `sp` and `a1`. -/
structure Replaced (s s' : Sys) (p : Fin NPROC) (bs : List UInt8) (argv : List (List UInt8)) :
    Prop where
  state : ∃ m' pt sz, s' = { s with
    mem := m', proc := update s.proc p { s.proc p with pagetable := pt, sz := sz } }
  epc : s'.tfWord p 24 = fileWord bs 24 8
  a1 : s'.tfWord p 120 = s'.tfWord p 48
  stack : Short argv → argv.length < MAXARG →
    StackEnd s'.mem (s'.proc p).pagetable (s'.proc p).sz argv (some (s'.tfWord p 48))

theorem fileWord_lt (bs : List UInt8) (o : Nat) : fileWord bs o 8 < 2 ^ 64 := getLE_lt _ _ 8

/-- The words that `exec` puts into the trapframe. -/
theorem tf_words (b : Bytes) (sp : Nat) {entry : Nat} (hentry : entry < 2 ^ 64) :
    let x := putLE (putLE (putLE b 120 8 sp) 24 8 entry) 48 8 sp
    getLE x 24 8 = entry ∧ getLE x 48 8 = sp % 2 ^ 64 ∧ getLE x 120 8 = sp % 2 ^ 64 := by
  refine ⟨?_, getLE_putLE _ _ _ _, ?_⟩
  · rw [getLE_putLE_of_disjoint _ _ (by omega), getLE_putLE]
    exact Nat.mod_eq_of_lt hentry
  · rw [getLE_putLE_of_disjoint _ _ (by omega), getLE_putLE_of_disjoint _ _ (by omega), getLE_putLE]
    rfl

/-- What user mode sees depends on the pages of the address space only. -/
theorem user_frame (h : Space m1 pt n top) (htop : Guarded top)
    (hkept : ∀ q ∈ m1.holds pt n, m2.page q = m1.page q) : m2.user pt = m1.user pt := by
  have hent : m2.entry pt = m1.entry pt := entry_frame fun q hq => hkept q (.inl hq)
  funext va
  by_cases hpa : m1.userPa pt va = 0
  · rw [Mem.user_eq_none.mpr hpa, Mem.user_eq_none, Mem.userPa_of_entry hent, hpa]
  · obtain ⟨e, hv, he, heq⟩ := h.userPa_mem htop hpa
    exact Mem.user_of_entry hent (hkept _ (heq ▸ Mem.holds_of_entry hv he))

theorem StackEnd.of_user {r : Option Nat} (h : StackEnd m1 pt sz argv r)
    (huser : m2.user pt = m1.user pt) : StackEnd m2 pt sz argv r := by
  cases r with
  | none => exact h
  | some sp =>
    obtain ⟨hfit, addrs, hl⟩ := h
    have hholds : ∀ a bs, m1.Holds pt a bs → m2.Holds pt a bs := fun a bs hb j hj => by
      rw [huser]
      exact hb j hj
    exact ⟨hfit, addrs, hl.aligned, fun k hk => hholds _ _ (hl.words k hk),
      hl.strings.imp fun _ _ hb => hholds _ _ hb, hl.apart, hl.inside⟩

/-- The stack pointer is an address. -/
theorem StackEnd.lt {sp : Nat} (h : StackEnd m pt sz argv (some sp))
    (hsp : Space m pt (pages sz) top) : sp < 2 ^ 64 := by
  obtain ⟨-, addrs, hl⟩ := h
  have hle := (hl.inside _ mem_cons_self).2
  have hn := hsp.le_npages
  unfold pages NPAGES PHYSTOP KERNBASE PGSIZE at *
  omega

/-- `exec`. -/
theorem exec_spec (file : Option (List UInt8)) (argv : List (List UInt8)) (h : Inv s)
    (hp : (s.proc p).state = .live) (hcan : CanExec s.mem file) :
    wp (exec p file argv) s
      (fun r s' => (s'.mem.kend = s.mem.kend ∧ ∃ L, Inv s' ∧ Loses s s' L ∧
          (ImageFits s.mem file → (r ≠ -1 → 0 < (s.proc p).sz) → L = ∅)) ∧
        (r = -1 ∧ Untouched s s' ∨
          r = argv.length ∧ ∃ bs, file = some bs ∧ Replaced s s' p bs argv))
      fun _ => False := by
  have hused : (s.proc p).state ≠ .unused := by
    rw [hp]
    decide
  have hsound := h.mem.sound p hused
  have htf : (s.proc p).tf ∈ s.hold (some p) := by
    rw [Sys.hold_used hused]
    exact .inl rfl
  have htf' := h.mem.parted.held (some p) _ htf
  cases file with
  | none =>
    exact ⟨⟨rfl, ∅, h, loses_empty rfl, fun _ _ => rfl⟩, .inl ⟨rfl, ⟨_, rfl⟩, fun _ _ => rfl⟩⟩
  | some bs =>
    refine wp_ite (fun _ => ?_) fun hgood => ?_
    · exact ⟨⟨rfl, ∅, h, loses_empty rfl, fun _ _ => rfl⟩, .inl ⟨rfl, ⟨_, rfl⟩, fun _ _ => rfl⟩⟩
    replace hgood : goodHeader bs = true := by simpa using hgood
    rw [wp_bind, wp_get, wp_bind, wp_getProc, wp_bind, wp_vm]
    refine wp_mono (execImage_spec h.mem.parted.free (hcan bs rfl hgood)
      h.mem.trampoline_lt htf'.1.lt) fun r m1 hr => ?_
    cases r with
    | none =>
      obtain ⟨L, hc, hL⟩ := hr
      have hpool := h.pool stray_empty hc
      refine ⟨⟨hc.kend, L, hpool.1, fun q => (hpool.2.1 q).trans ?_, fun hfits _ => ?_⟩,
        .inl ⟨rfl, ⟨_, rfl⟩, fun q hq => hc.frame q hq fun hin => hin⟩⟩
      · rw [Set.mem_empty_iff_false, or_false]
      · exact hL (hfits bs rfl hgood)
    | some r =>
      obtain ⟨pt, sz, sp⟩ := r
      obtain ⟨hsp, hc, hend⟩ := hr
      rw [wp_bind, wp_vm, wp_modify, wp_bind, wp_modifyProc, wp_bind, wp_vm]
      refine wp_mono (replace_spec hsound htf'.2 hsp hc) fun _ m2 hr2 => ?_
      obtain ⟨L, hsp2, htf2, hc2, hL, hkept, hpage⟩ := hr2
      have hnew := h.respace (x := { s.proc p with pagetable := pt, sz := sz }) hp hp rfl
        ⟨hsp2, htf2⟩ hc2
      refine ⟨⟨hc2.kend, L, hnew.1, hnew.2, fun _ hsz => hL (hsz (by omega))⟩,
        .inr ⟨rfl, bs, rfl, ?_⟩⟩
      obtain ⟨hepc, hstack, ha1⟩ := tf_words (m1.page (s.proc p).tf) sp (fileWord_lt bs 24)
      rw [← hpage] at hepc hstack ha1
      have hword : ∀ o, ({ s with
          mem := m2, proc := update s.proc p
            { s.proc p with pagetable := pt, sz := sz } } : Sys).tfWord p o =
          getLE (m2.page (s.proc p).tf) o 8 := fun o => by
        unfold Sys.tfWord
        dsimp only
        rw [update_self]
      refine ⟨⟨_, _, _, rfl⟩, (hword 24).trans hepc, ?_, fun hshort hlen => ?_⟩
      · rw [hword, hword, ha1, hstack]
      · have hend := hend hshort hlen
        rw [hword, hstack, Nat.mod_eq_of_lt (hend.lt hsp)]
        dsimp only
        rw [update_self]
        exact hend.of_user (user_frame hsp (procTop_guarded _ _) hkept)

/-! ## The arguments -/

/-- `sys_exec` gets all the arguments. -/
def Fetched (uargv : List (Option (List UInt8))) (i : Nat) : Prop :=
  uargv.length + i < MAXARG ∧ ∀ arg ∈ uargv, arg ≠ none

instance (uargv : List (Option (List UInt8))) (i : Nat) : Decidable (Fetched uargv i) :=
  inferInstanceAs (Decidable (_ ∧ _))

/-- The loop of `sys_exec` takes the pages `new`, one for each argument. -/
theorem fetchArgs_spec (uargv : List (Option (List UInt8))) : ∀ {m : Mem} {i : Nat}
    {taken : List Nat}, m.FreeList →
    wp (fetchArgs uargv i taken) m
      (fun r m' => ∃ new, r.2 = taken ++ new ∧ Conserves m m' ∅ {q | q ∈ new} ∧ new.Nodup ∧
        (∀ q ∈ new, m'.Freeable q) ∧
        (r.1 ≠ none → Fetched uargv i ∧ m.free.length = m'.free.length + uargv.length))
      fun _ => True := by
  induction uargv with
  | nil =>
    intro m i taken hfree
    refine ⟨[], (append_nil _).symm, ?_, nodup_nil, by simp,
      fun hr => ⟨⟨?_, by simp⟩, rfl⟩⟩
    · have hset : {q : Nat | q ∈ ([] : List Nat)} = ∅ := by simp
      rw [hset]
      exact Conserves.refl hfree fun _ hq => hq.elim
    · by_contra hmax
      rw [length_nil, Nat.zero_add] at hmax
      rw [if_pos (by omega)] at hr
      exact hr rfl
  | cons arg rest ih =>
    intro m i taken hfree
    refine wp_ite (fun hmax => ?_) fun hmax => ?_
    · refine ⟨[], (append_nil _).symm, ?_, nodup_nil, by simp,
        fun hr => absurd rfl hr⟩
      have hset : {q : Nat | q ∈ ([] : List Nat)} = ∅ := by simp
      rw [hset]
      exact Conserves.refl hfree fun _ hq => hq.elim
    refine wp_seq kalloc_spec fun r m1 hr => ?_
    rcases hr with ⟨rfl, -, -⟩ | ⟨q, rfl, ht⟩
    · trivial
    have hfree1 := ht.freeList hfree
    have hc1 : Conserves m m1 ∅ {q} := by
      have := ht.conserves (A := ∅) hfree fun _ hq => hq.elim
      rwa [insert_empty_eq] at this
    have hlen : m.free.length = m1.free.length + 1 := by rw [ht.free, length_cons]
    cases arg with
    | none =>
      refine ⟨[q], rfl, ?_, nodup_singleton q, fun r hr => ?_, fun hr => absurd rfl hr⟩
      · have hset : {r : Nat | r ∈ [q]} = {q} := by
          ext r
          simp
        rw [hset]
        exact hc1
      · rw [mem_singleton.mp hr]
        exact ht.freeable hfree
    | some a =>
      refine wp_seq (ih hfree1) fun r m2 hr2 => ?_
      obtain ⟨new, hnew, hc2, hnodup, hok, hcount⟩ := hr2
      have hq1 : q ∉ m1.free := hc1.apart q rfl
      have hq2 := hc2.not_mem hq1 fun hq => hq
      have hwide := hc2.widen (B := {q})
        (fun r hr => by rw [Set.mem_singleton_iff.mp hr]; exact hq1) fun _ _ hr => hr
      refine ⟨q :: new, ?_, ?_, nodup_cons.mpr ⟨hq2.2, hnodup⟩, fun r hr => ?_,
        fun hr => ?_⟩
      · rw [hnew, append_assoc]
        rfl
      · have hset : {r : Nat | r ∈ q :: new} = {r | r ∈ new} ∪ {q} := by
          ext r
          simp
        rw [hset]
        rw [Set.empty_union] at hwide
        exact hc1.trans hwide
      · rcases mem_cons.mp hr with rfl | hr
        · exact (freeable_congr hc2.kend _).mpr (ht.freeable hfree)
        · exact hok r hr
      · have hfetched := hcount fun hnone => hr (by rw [hnone]; rfl)
        refine ⟨⟨?_, fun arg harg => ?_⟩, ?_⟩
        · have := hfetched.1.1
          rw [length_cons]
          omega
        · rcases mem_cons.mp harg with rfl | harg
          · simp
          · exact hfetched.1.2 arg harg
        · rw [length_cons]
          omega

/-- The pages of the arguments go back. -/
theorem freeArgs_spec (l : List Nat) : ∀ {m : Mem}, m.FreeList → l.Nodup →
    (∀ q ∈ l, m.Freeable q ∧ q ∉ m.free) →
    wp (freeArgs l) m (fun _ m' => Conserves m m' {q | q ∈ l} ∅) fun _ => False := by
  induction l with
  | nil =>
    intro m hfree _ _
    have hset : {q : Nat | q ∈ ([] : List Nat)} = ∅ := by simp
    rw [hset]
    exact Conserves.refl hfree fun _ hq => hq.elim
  | cons q l ih =>
    intro m hfree hnodup hok
    have hnd := nodup_cons.mp hnodup
    unfold freeArgs
    rw [wp_bind]
    refine kfree_spec (fun hq => ?_) fun hbad => hbad (hok q mem_cons_self).1
    have hset : {r : Nat | r ∈ q :: l} = insert q {r | r ∈ l} := by
      ext r
      simp
    have hc1 := release_conserves (A := {r | r ∈ l}) hfree (hok q mem_cons_self).2 hnd.1 hq
      fun r hr => (hok r (mem_cons_of_mem _ hr)).2
    refine wp_mono (ih hc1.free hnd.2 fun r hr => ⟨?_, hc1.apart r hr⟩) fun _ m' hc2 => ?_
    · exact (freeable_congr hc1.kend r).mpr (hok r (mem_cons_of_mem _ hr)).1
    · rw [hset]
      exact hc1.trans hc2

/-- The pages of the arguments go back after the call in between. -/
theorem freeArgs_pool {l : List Nat} (h : Inv s) (hnodup : l.Nodup)
    (hstray : Stray s.mem s.hold {q | q ∈ l}) (hfree : ∀ q ∈ l, q ∉ s.mem.free) :
    wp (vm (freeArgs l)) s
      (fun _ s' => Inv s' ∧ ∀ q, q ∈ s'.total ↔ q ∈ s.total ∨ q ∈ l) fun _ => False := by
  rw [wp_vm]
  refine wp_mono (freeArgs_spec l h.mem.parted.free hnodup fun q hq =>
    ⟨(hstray q hq).1, hfree q hq⟩) fun _ m' hc => ?_
  have hpool := h.pool hstray hc
  refine ⟨hpool.1, fun q => ?_⟩
  have := hpool.2.1 q
  rw [Set.mem_empty_iff_false, or_false] at this
  exact this

/-- `sys_exec` gets to `proc_pagetable` only with the pages that it takes. -/
def CanSysExec (s : Sys) (file : Option (List UInt8)) (uargv : List (Option (List UInt8)))
    (bad : Bool) : Prop :=
  Fetched uargv 0 → bad = false → ∀ bs, file = some bs → goodHeader bs = true →
    3 + uargv.length ≤ s.mem.free.length

instance (s : Sys) (file : Option (List UInt8)) (uargv : List (Option (List UInt8)))
    (bad : Bool) : Decidable (CanSysExec s file uargv bad) :=
  match file with
  | none => isTrue fun _ _ _ hbs => by cases hbs
  | some bs => decidable_of_iff
      (Fetched uargv 0 → bad = false → goodHeader bs = true → 3 + uargv.length ≤ s.mem.free.length)
      ⟨fun h hf hb _ hbs hg => h hf hb (Option.some.inj hbs ▸ hg), fun h hf hb => h hf hb bs rfl⟩

/-- The image fits after the pages of the arguments were taken. -/
def SysExecFits (s : Sys) (file : Option (List UInt8)) (uargv : List (Option (List UInt8)))
    (bad : Bool) : Prop :=
  Fetched uargv 0 → bad = false → ∀ bs, file = some bs → goodHeader bs = true →
    imageFits bs (s.mem.free.length - uargv.length) = true

instance (s : Sys) (file : Option (List UInt8)) (uargv : List (Option (List UInt8)))
    (bad : Bool) : Decidable (SysExecFits s file uargv bad) :=
  match file with
  | none => isTrue fun _ _ _ hbs => by cases hbs
  | some bs => decidable_of_iff
      (Fetched uargv 0 → bad = false → goodHeader bs = true →
        imageFits bs (s.mem.free.length - uargv.length) = true)
      ⟨fun h hf hb b hbs hg => by cases hbs; exact h hf hb hg, fun h hf hb => h hf hb bs rfl⟩

/-- `sys_exec`. -/
theorem sysExec_spec {file : Option (List UInt8)} {uargv : List (Option (List UInt8))} {bad : Bool}
    (h : Inv s) (hp : (s.proc p).state = .live) (hcan : CanSysExec s file uargv bad) :
    wp (sysExec p file uargv bad) s
      (fun r s' => ∃ L, Inv s' ∧ Loses s s' L ∧
        (SysExecFits s file uargv bad → (r ≠ -1 → 0 < (s.proc p).sz) → L = ∅))
      fun _ => True := by
  unfold sysExec
  rw [wp_bind, wp_vm]
  refine wp_mono (fetchArgs_spec uargv h.mem.parted.free) fun r m1 hr => ?_
  obtain ⟨argv, args⟩ := r
  obtain ⟨new, hnew, hc1, hnodup, hok, hcount⟩ := hr
  subst hnew
  -- the pages of the arguments are in no part of the state during `exec`
  have hpool := h.pool stray_empty hc1
  have htotal1 : ∀ q, q ∈ ({ s with mem := m1 } : Sys).total ∨ q ∈ args ↔ q ∈ s.total := by
    intro q
    have := hpool.2.1 q
    rwa [Set.mem_empty_iff_false, or_false] at this
  have hout1 : ∀ q ∈ args, q ∉ ({ s with mem := m1 } : Sys).total := hpool.2.2
  have hback : ∀ {s2 : Sys} {L : Set Nat}, Inv s2 → s2.mem.kend = m1.kend →
      Loses { s with mem := m1 } s2 L →
      wp (vm (freeArgs args)) s2 (fun _ s' => Inv s' ∧ Loses s s' L) fun _ => False := by
    intro s2 L h2 hkend hloses
    have hout2 : ∀ q ∈ args, q ∉ s2.total := fun q hq hin =>
      hout1 q hq ((hloses q).mp (.inl hin))
    have hstray : Stray s2.mem s2.hold {q | q ∈ args} := fun q hq =>
      ⟨(freeable_congr hkend q).mpr (hok q hq), fun j hj => hout2 q hq (.inr ⟨j, hj⟩)⟩
    refine wp_mono (freeArgs_pool h2 hnodup hstray fun q hq hin => hout2 q hq (.inl hin))
      fun _ s3 hs3 => ⟨hs3.1, fun q => ?_⟩
    rw [hs3.2 q, ← htotal1 q, ← hloses q]
    exact or_right_comm
  have hnothing : Loses { s with mem := m1 } { s with mem := m1 } ∅ := loses_empty rfl
  cases argv with
  | none =>
    rw [wp_bind]
    refine wp_imp (hback hpool.1 rfl hnothing) (fun _ s' hs' => ?_) fun _ hf => hf.elim
    exact ⟨∅, hs'.1, hs'.2, fun _ _ => rfl⟩
  | some argv =>
    obtain ⟨hfetched, hlen⟩ := hcount (by simp)
    refine wp_ite (fun _ => ?_) fun hbad => ?_
    · rw [wp_bind]
      refine wp_imp (hback hpool.1 rfl hnothing) (fun _ s' hs' => ?_) fun _ hf => hf.elim
      exact ⟨∅, hs'.1, hs'.2, fun _ _ => rfl⟩
    · replace hbad : bad = false := by simpa using hbad
      have hexec := exec_spec file argv (s := { s with mem := m1 }) (p := p)
        hpool.1 hp fun bs hbs hgood => by
          have := hcan hfetched hbad bs hbs hgood
          dsimp only
          omega
      rw [wp_bind]
      refine wp_imp hexec (fun r s2 hs2 => ?_) fun _ hf => hf.elim
      obtain ⟨⟨hkend, L, h2, hloses, hL⟩, -⟩ := hs2
      rw [wp_bind]
      refine wp_imp (hback h2 hkend hloses) (fun _ s' hs' => ?_) fun _ hf => hf.elim
      refine ⟨L, hs'.1, hs'.2, fun hfits hsz => hL (fun bs hbs hgood => ?_) hsz⟩
      have hfit := hfits hfetched hbad bs hbs hgood
      have hsame : s.mem.free.length - uargv.length = m1.free.length := by omega
      rw [hsame] at hfit
      exact hfit

end SummerOsk.Task
