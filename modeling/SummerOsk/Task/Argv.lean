import SummerOsk.Task.Memory

/-!
# The argument vector of `exec`

`exec` puts the argument strings on the stack page from the top down, each at a
multiple of 16, and under them the array of their addresses.  `stackSpace` is
what that takes.  The page is enough exactly if `stackSpace` is at most
`PGSIZE`, and then `ArgvLayout` says what the new program finds at its stack
pointer.  No subtraction goes below zero: `setupStackChecked` stops where one
would, and it is the same as `setupStack`.
-/

namespace SummerOsk.Task

open Lib Vm List

variable {m m' m1 : Mem} {pt n sp a sz base : Nat} {top : Nat → Option Nat}
  {argv : List (List UInt8)} {addrs : List Nat}

/-! ## Space on the stack -/

def align16 (n : Nat) : Nat := (n + 15) / 16 * 16

/-- The space for an argument with its terminator. -/
def argSpace (arg : List UInt8) : Nat := align16 (arg.length + 1)

def argsSpace (argv : List (List UInt8)) : Nat := (argv.map argSpace).sum

/-- The space for the arguments and the array of pointers. -/
def stackSpace (argv : List (List UInt8)) : Nat :=
  argsSpace argv + align16 ((argv.length + 1) * 8)

/-- The arguments as `sys_exec` delivers them, each from a page of its own. -/
def Short (argv : List (List UInt8)) : Prop := ∀ arg ∈ argv, arg.length < PGSIZE

instance (argv : List (List UInt8)) : Decidable (Short argv) :=
  inferInstanceAs (Decidable (∀ arg ∈ argv, _))

theorem argsSpace_cons (arg : List UInt8) (rest : List (List UInt8)) :
    argsSpace (arg :: rest) = argSpace arg + argsSpace rest := by
  simp [argsSpace]

theorem le_align16 (n : Nat) : n ≤ align16 n := by
  unfold align16
  omega

/-- `sp -= n; sp -= sp % 16`. -/
theorem sub_align16 {n : Nat} (hsp : sp % 16 = 0) (hn : n ≤ sp) (hlt : sp < 2 ^ 64) :
    (sp + 2 ^ 64 - n) % 2 ^ 64 - (sp + 2 ^ 64 - n) % 2 ^ 64 % 16 = sp - align16 n := by
  unfold align16
  omega

theorem align16_le {n : Nat} (hsp : sp % 16 = 0) (hn : n ≤ sp) : align16 n ≤ sp := by
  unfold align16
  omega

/-! ## What is on the stack -/

/-- The addresses and lengths of the strings, with their terminators. -/
def places (argv : List (List UInt8)) (addrs : List Nat) : List (Nat × Nat) :=
  List.zipWith (fun arg a => (a, arg.length + 1)) argv addrs

/-- Two ranges, each an address and a length, have no byte in common. -/
def RangesApart (x y : Nat × Nat) : Prop := x.1 + x.2 ≤ y.1 ∨ y.1 + y.2 ≤ x.1

/-- The strings are on the stack between `sp'` and `sp`, and nothing else has
changed. -/
structure Pushed (m m' : Mem) (pt : Nat) (argv : List (List UInt8)) (addrs : List Nat)
    (sp sp' : Nat) : Prop where
  entry : m'.entry pt = m.entry pt
  strings : List.Forall₂ (fun arg a => m'.Holds pt a (arg ++ [0])) argv addrs
  apart : (places argv addrs).Pairwise RangesApart
  inside : ∀ x ∈ places argv addrs, sp' ≤ x.1 ∧ x.1 + x.2 ≤ sp
  outside : ∀ w, w < sp' ∨ sp ≤ w → m'.user pt w = m.user pt w

theorem Pushed.nil (m : Mem) (pt sp : Nat) : Pushed m m pt [] [] sp sp :=
  ⟨rfl, .nil, .nil, (fun _ hx => absurd hx not_mem_nil), fun _ _ => rfl⟩

theorem Pushed.cons {arg : List UInt8} {rest : List (List UInt8)} {sp' : Nat}
    (hw : m.Written m1 pt a (arg ++ [0])) (ha : a + (arg.length + 1) ≤ sp) (hle : sp' ≤ a)
    (h : Pushed m1 m' pt rest addrs a sp') : Pushed m m' pt (arg :: rest) (a :: addrs) sp sp' := by
  have hlen : (arg ++ [(0 : UInt8)]).length = arg.length + 1 := by simp
  refine ⟨h.entry.trans hw.entry, .cons (fun j hj => ?_) h.strings, ?_, ?_, fun w hout => ?_⟩
  · rw [h.outside _ (.inr (Nat.le_add_right a j))]
    exact hw.inside j hj
  · refine List.Pairwise.cons (fun y hy => .inr ?_) h.apart
    exact (h.inside y hy).2
  · intro x hx
    rcases mem_cons.mp hx with rfl | hx
    · exact ⟨hle, ha⟩
    · have := h.inside x hx
      omega
  · rw [h.outside w (by omega), hw.outside w (by rw [hlen]; omega)]

/-- The stack from `base` to `sp` is there to be written. -/
structure StackTop (m : Mem) (pt base sp : Nat) : Prop where
  aligned : sp % 16 = 0
  low : PGSIZE ≤ base
  le : base ≤ sp
  lt : sp < 2 ^ 64
  user : ∀ w, base ≤ w → w < sp → m.user pt w ≠ none

theorem StackTop.lower {bs : List UInt8} (h : StackTop m pt base sp) (hw : m.Written m' pt a bs)
    (halign : a % 16 = 0) (hbase : base ≤ a) (hle : a ≤ sp) : StackTop m' pt base a := by
  refine ⟨halign, h.low, hbase, by have := h.lt; omega, fun w hge hlt => ?_⟩
  rw [Ne, hw.user_eq_none]
  exact h.user w hge (by omega)

/-- How the loop over the arguments ends. -/
def PushEnd (m m' : Mem) (pt base sp : Nat) (argv : List (List UInt8)) :
    Option (List Nat × Nat) → Prop
  | none => sp < base + argsSpace argv
  | some (addrs, sp') => sp' + argsSpace argv = sp ∧ StackTop m' pt base sp' ∧
      Pushed m m' pt argv addrs sp sp'

theorem pushArgs_spec (htop : Guarded top) (argv : List (List UInt8)) :
    ∀ {m : Mem} {argc sp : Nat}, Space m pt n top →
    wp (pushArgs pt base argv argc sp) m
      (fun r m' => Space m' pt n top ∧ Conserves m m' (m.holds pt n) (m'.holds pt n) ∧
        (StackTop m pt base sp → Short argv → argc + argv.length ≤ MAXARG →
          PushEnd m m' pt base sp argv r))
      fun _ => False := by
  induction argv with
  | nil =>
    intro m argc sp h
    exact ⟨h, h.conserves_refl, fun hs _ _ => ⟨rfl, hs, Pushed.nil m pt sp⟩⟩
  | cons arg rest ih =>
    intro m argc sp h
    -- the address of this string, where the subtraction does not wrap
    have haddr : StackTop m pt base sp → Short (arg :: rest) →
        (sp + 2 ^ 64 - (arg.length + 1)) % 2 ^ 64 -
          (sp + 2 ^ 64 - (arg.length + 1)) % 2 ^ 64 % 16 = sp - argSpace arg ∧
        argSpace arg ≤ sp := by
      intro hs hshort
      have hlen : arg.length + 1 ≤ sp := by
        have := hshort arg mem_cons_self
        have := hs.low
        have := hs.le
        omega
      exact ⟨sub_align16 hs.aligned hlen hs.lt, align16_le hs.aligned hlen⟩
    refine wp_ite (fun hmax => ⟨h, h.conserves_refl, fun _ _ hle => ?_⟩) fun _ => ?_
    · rw [length_cons] at hle
      omega
    dsimp only
    generalize (sp + 2 ^ 64 - (arg.length + 1)) % 2 ^ 64 -
      (sp + 2 ^ 64 - (arg.length + 1)) % 2 ^ 64 % 16 = a at *
    refine wp_ite (fun hlow => ⟨h, h.conserves_refl, fun hs hshort _ => ?_⟩) fun hge => ?_
    · obtain ⟨rfl, hle⟩ := haddr hs hshort
      show sp < base + argsSpace (arg :: rest)
      rw [argsSpace_cons]
      omega
    refine wp_seq (copyout_spec h htop) fun r m1 hr => ?_
    obtain ⟨hsp1, hc1, -, k, -, hw, hres⟩ := hr
    have hlen : (arg ++ [(0 : UInt8)]).length = arg.length + 1 := by simp
    have hspace := le_align16 (arg.length + 1)
    -- the string is written to its end
    have hall : StackTop m pt base sp → Short (arg :: rest) →
        r = 0 ∧ m.Written m1 pt a (arg ++ [0]) ∧ StackTop m1 pt base a ∧
          a + argSpace arg = sp := by
      intro hs hshort
      obtain ⟨rfl, hle⟩ := haddr hs hshort
      obtain ⟨hr, hw⟩ := hw.all hres fun w hge' hlt => hs.user w (by omega) (by
        unfold argSpace at *
        omega)
      refine ⟨hr, hw, hs.lower hw ?_ (by omega) (Nat.sub_le _ _), Nat.sub_add_cancel hle⟩
      have := hs.aligned
      unfold argSpace align16 at *
      omega
    refine wp_ite (fun hneg => ⟨hsp1, hc1, fun hs hshort _ => ?_⟩) fun _ => ?_
    · have := (hall hs hshort).1
      omega
    refine wp_seq (ih hsp1) fun r m2 hr => ?_
    obtain ⟨hsp2, hc2, hend⟩ := hr
    have hrest : StackTop m pt base sp → Short (arg :: rest) →
        argc + (arg :: rest).length ≤ MAXARG → PushEnd m1 m2 pt base a rest r := by
      intro hs hshort hle
      rw [length_cons] at hle
      exact hend (hall hs hshort).2.2.1 (fun b hb => hshort b (mem_cons_of_mem _ hb))
        (by omega)
    cases r with
    | none =>
      refine ⟨hsp2, hc1.trans hc2, fun hs hshort hle => ?_⟩
      have hlt : a < base + argsSpace rest := hrest hs hshort hle
      have := (hall hs hshort).2.2.2
      show sp < base + argsSpace (arg :: rest)
      rw [argsSpace_cons]
      omega
    | some r =>
      refine ⟨hsp2, hc1.trans hc2, fun hs hshort hle => ?_⟩
      obtain ⟨hsum, htop', hpushed⟩ := hrest hs hshort hle
      obtain ⟨-, hw, -, ha⟩ := hall hs hshort
      refine ⟨?_, htop', hpushed.cons hw ?_ ?_⟩
      · rw [argsSpace_cons]
        omega
      · unfold argSpace at ha
        omega
      · omega

/-! ## The pointers -/

theorem wordBytes_length (x : Nat) : (wordBytes x).length = 8 := getBytes_length _ _ _

theorem flatMap_wordBytes_length (xs : List Nat) :
    (xs.flatMap wordBytes).length = xs.length * 8 := by
  induction xs with
  | nil => rfl
  | cons x xs ih =>
    rw [flatMap_cons, length_append, ih, wordBytes_length, length_cons]
    omega

/-- The words of an array, one by one. -/
theorem holds_words (xs : List Nat) (h : m.Holds pt a (xs.flatMap wordBytes)) :
    ∀ k < xs.length, m.Holds pt (a + 8 * k) (wordBytes (xs.getD k 0)) := by
  induction xs generalizing a with
  | nil => exact fun k hk => absurd hk (Nat.not_lt_zero k)
  | cons x xs ih =>
    intro k hk
    rw [flatMap_cons] at h
    cases k with
    | zero =>
      intro j hj
      rw [getD_cons_zero] at hj ⊢
      have := h j (by rw [length_append]; omega)
      rwa [getD_append _ _ _ _ hj] at this
    | succ k =>
      rw [show a + 8 * (k + 1) = (a + 8) + 8 * k by omega]
      refine ih (fun j hj => ?_) k (by simpa using hk)
      have := h (8 + j) (by rw [length_append, wordBytes_length]; omega)
      rwa [getD_append_right _ _ _ _ (by rw [wordBytes_length]; omega), wordBytes_length,
        Nat.add_sub_cancel_left, ← Nat.add_assoc] at this

/-- What the new program finds at its stack pointer. -/
structure ArgvLayout (m : Mem) (pt sz sp : Nat) (argv : List (List UInt8)) (addrs : List Nat) :
    Prop where
  aligned : sp % 16 = 0
  words : ∀ k ≤ argv.length, m.Holds pt (sp + 8 * k) (wordBytes ((addrs ++ [0]).getD k 0))
  strings : List.Forall₂ (fun arg a => m.Holds pt a (arg ++ [0])) argv addrs
  apart : ((sp, (argv.length + 1) * 8) :: places argv addrs).Pairwise RangesApart
  inside : ∀ x ∈ (sp, (argv.length + 1) * 8) :: places argv addrs,
    sz - PGSIZE ≤ x.1 ∧ x.1 + x.2 ≤ sz

/-- The array of pointers under the strings. -/
theorem Pushed.layout (h : Pushed m m1 pt argv addrs sz sp)
    (hw : m1.Written m' pt a ((addrs ++ [0]).flatMap wordBytes)) (halign : a % 16 = 0)
    (hbase : sz - PGSIZE ≤ a) (ha : a + (argv.length + 1) * 8 ≤ sp) (hle : sp ≤ sz) :
    ArgvLayout m' pt sz a argv addrs := by
  have hcount : addrs.length = argv.length := h.strings.length_eq.symm
  have hlen : ((addrs ++ [0]).flatMap wordBytes).length = (argv.length + 1) * 8 := by
    rw [flatMap_wordBytes_length, length_append, hcount]
    rfl
  have hplace : ∀ x ∈ places argv addrs, sp ≤ x.1 ∧ x.1 + x.2 ≤ sz := h.inside
  refine ⟨halign, fun k hk => ?_, ?_, ?_, ?_⟩
  · refine holds_words _ hw.inside k ?_
    rw [length_append, hcount]
    exact Nat.lt_succ_of_le hk
  · -- the strings are above the array
    refine forall₂_iff_zip.mpr ⟨hcount.symm, fun {arg b} hmem j hj => ?_⟩
    have hin : (b, arg.length + 1) ∈ places argv addrs := by
      unfold places
      rw [← map_uncurry_zip_eq_zipWith]
      exact mem_map.mpr ⟨(arg, b), hmem, rfl⟩
    have hb := (hplace _ hin).1
    rw [hw.outside _ (by rw [hlen]; dsimp only at hb; omega)]
    exact (forall₂_iff_zip.mp h.strings).2 hmem j hj
  · refine List.Pairwise.cons (fun y hy => .inl ?_) h.apart
    exact ha.trans (hplace y hy).1
  · intro x hx
    rcases mem_cons.mp hx with rfl | hx
    · omega
    · have := hplace x hx
      omega

/-! ## The stack of the new image -/

/-- What is left of the address space after a step of `exec` that ended with the
size `sz`. -/
structure Partial (m m' : Mem) (pt : Nat) (top : Nat → Option Nat) (A : Set Nat) (k sz : Nat) :
    Prop where
  space : Space m' pt k top
  conserves : Conserves m m' A (m'.holds pt k)
  size : sz = 0 ∨ k = pages sz

/-- The two pages that `exec` adds after the segments. -/
theorem stack_size (h : Space m pt (pages sz) top) :
    (pgroundup sz + 2 * PGSIZE) % 2 ^ 64 = (pages sz + 2) * PGSIZE := by
  have hle := h.le_npages
  rw [pgroundup_eq hle, Nat.mod_eq_of_lt]
  · ring
  · unfold NPAGES PHYSTOP KERNBASE at hle
    unfold PGSIZE at *
    omega

/-- The upper one of the two pages is the stack. -/
theorem stackTop_of_grown {m2 : Mem} {k : Nat} (h : Space m2 pt (k + 2) top)
    (hgrown : UserGrown m m1 pt k (k + 2)) (hclear : ∀ w, w ≠ k → m2.entry pt w = m1.entry pt w) :
    StackTop m2 pt ((k + 2) * PGSIZE - PGSIZE) ((k + 2) * PGSIZE) := by
  have hle := h.le_npages
  refine ⟨?_, ?_, ?_, ?_, fun w hge hlt => h.user_ne_none ?_ ?_⟩
  · unfold PGSIZE
    omega
  · unfold PGSIZE
    omega
  · exact Nat.sub_le _ _
  · unfold NPAGES PHYSTOP KERNBASE at hle
    unfold PGSIZE at *
    omega
  · unfold PGSIZE at *
    omega
  · have hpage : w / PGSIZE = k + 1 := by
      unfold PGSIZE at *
      omega
    obtain ⟨e, he, huser⟩ := hgrown.new (k + 1) (by omega) (by omega)
    exact ⟨e, by rw [hpage, hclear _ (by omega), he], huser⟩

/-- How `setupStack` ends when it has the two pages. -/
def StackEnd (m : Mem) (pt sz : Nat) (argv : List (List UInt8)) : Option Nat → Prop
  | none => PGSIZE < stackSpace argv
  | some sp => stackSpace argv ≤ PGSIZE ∧ ∃ addrs, ArgvLayout m pt sz sp argv addrs

/-- The stack of the new image. -/
theorem setupStack_spec (h : Space m pt (pages sz) top) (htop : Guarded top) :
    wp (setupStack pt sz argv) m
      (fun r m' => (∃ k, Partial m m' pt top (m.holds pt (pages sz)) k r.2 ∧
          (r.1 ≠ none → k = pages r.2)) ∧
        (r.1 = none ∧ r.2 = 0 ∧ m.free.length < growth (pages sz) (pages sz + 2) ∨
          0 < r.2 ∧ (Short argv → argv.length < MAXARG → StackEnd m' pt r.2 argv r.1)))
      fun _ => False := by
  have hle := h.le_npages
  unfold setupStack
  dsimp only
  rw [stack_size h, pgroundup_eq hle, wp_bind]
  generalize hk : pages sz = k at *
  have hsp : Space m pt (pages (k * PGSIZE)) top := by
    rw [pages_mul]
    exact h
  refine wp_mono (hsp.uvmalloc (Nat.mul_le_mul_right _ (by omega))) fun sz1 m1 hr1 => ?_
  rw [pages_mul, pages_mul] at hr1
  rcases hr1 with ⟨hsz1, hsp1, hc1, -, hgrown⟩ | ⟨rfl, hsp1, hc1, hless1⟩
  · have hpos : 0 < sz1 := by
      rw [hsz1]
      unfold PGSIZE
      omega
    have hpages : k + 2 = pages sz1 := by rw [hsz1, pages_mul]
    have hguard : sz1 - 2 * PGSIZE = k * PGSIZE := by rw [hsz1, Nat.add_mul, Nat.add_sub_cancel]
    have hend : ∀ {m' : Mem} {r : Option Nat}, Space m' pt (k + 2) top →
        Conserves m m' (m.holds pt k) (m'.holds pt (k + 2)) →
        (Short argv → argv.length < MAXARG → StackEnd m' pt sz1 argv r) →
        (∃ k', Partial m m' pt top (m.holds pt k) k' sz1 ∧ (r ≠ none → k' = pages sz1)) ∧
        (r = none ∧ sz1 = 0 ∧ m.free.length < growth k (k + 2) ∨
          0 < sz1 ∧ (Short argv → argv.length < MAXARG → StackEnd m' pt sz1 argv r)) := by
      intro m' r hsp' hc' hlayout
      exact ⟨⟨k + 2, ⟨hsp', hc', .inr hpages⟩, fun _ => hpages⟩, .inr ⟨hpos, hlayout⟩⟩
    rw [if_neg hpos.ne', wp_bind, hguard]
    refine wp_mono (hsp1.uvmclear (by omega)) fun _ m2 hr2 => ?_
    obtain ⟨hsp2, hc2, -, hclear⟩ := hr2
    have hstack := stackTop_of_grown hsp2 hgrown hclear
    rw [← hsz1] at hstack
    have hsize : sz1 - PGSIZE + PGSIZE = sz1 := by
      rw [hsz1]
      unfold PGSIZE
      omega
    generalize hbase : sz1 - PGSIZE = base at *
    refine wp_seq (pushArgs_spec htop argv hsp2) fun r m3 hr3 => ?_
    obtain ⟨hsp3, hc3, hpush⟩ := hr3
    have hc : Conserves m m3 (m.holds pt k) (m3.holds pt (k + 2)) := (hc1.trans hc2).trans hc3
    replace hpush : Short argv → argv.length < MAXARG →
        PushEnd m2 m3 pt base sz1 argv r := fun hshort hlen =>
      hpush hstack hshort (by omega)
    cases r with
    | none =>
      refine hend hsp3 hc fun hshort hlen => ?_
      have hlt : sz1 < base + argsSpace argv := hpush hshort hlen
      show PGSIZE < argsSpace argv + _
      omega
    | some r =>
      obtain ⟨addrs, sp⟩ := r
      -- the address of the array, where the subtraction does not wrap
      have harray : Short argv → argv.length < MAXARG →
          (sp + 2 ^ 64 - (addrs.length + 1) * 8) % 2 ^ 64 -
            (sp + 2 ^ 64 - (addrs.length + 1) * 8) % 2 ^ 64 % 16 =
              sp - align16 ((argv.length + 1) * 8) ∧ align16 ((argv.length + 1) * 8) ≤ sp := by
        intro hshort hlen
        obtain ⟨-, hs, hpushed⟩ := hpush hshort hlen
        have hcount : addrs.length = argv.length := hpushed.strings.length_eq.symm
        have hfit : (argv.length + 1) * 8 ≤ sp := by
          have := hs.le
          unfold MAXARG at hlen
          unfold PGSIZE at *
          omega
        rw [hcount]
        exact ⟨sub_align16 hs.aligned hfit hs.lt, align16_le hs.aligned hfit⟩
      dsimp only
      generalize (sp + 2 ^ 64 - (addrs.length + 1) * 8) % 2 ^ 64 -
        (sp + 2 ^ 64 - (addrs.length + 1) * 8) % 2 ^ 64 % 16 = a at *
      refine wp_ite (fun hlow => ?_) fun hge => ?_
      · refine hend hsp3 hc fun hshort hlen => ?_
        obtain ⟨hsum, hs, -⟩ := hpush hshort hlen
        obtain ⟨rfl, hle⟩ := harray hshort hlen
        show PGSIZE < argsSpace argv + _
        omega
      refine wp_seq (copyout_spec hsp3 htop) fun r m4 hr4 => ?_
      obtain ⟨hsp4, hc4, -, j, -, hw, hres⟩ := hr4
      have hspace := le_align16 ((argv.length + 1) * 8)
      have hall : Short argv → argv.length < MAXARG →
          r = 0 ∧ m3.Written m4 pt a ((addrs ++ [0]).flatMap wordBytes) := by
        intro hshort hlen
        obtain ⟨-, hs, hpushed⟩ := hpush hshort hlen
        obtain ⟨rfl, hle⟩ := harray hshort hlen
        refine hw.all hres fun w hge' hlt => hs.user w (by omega) ?_
        rw [flatMap_wordBytes_length, length_append, ← hpushed.strings.length_eq,
          length_singleton] at hlt
        omega
      refine wp_ite (fun hneg => ?_) fun _ => ?_
      · refine hend hsp4 (hc.trans hc4) fun hshort hlen => ?_
        have := (hall hshort hlen).1
        omega
      · refine hend hsp4 (hc.trans hc4) fun hshort hlen => ?_
        obtain ⟨hsum, hs, hpushed⟩ := hpush hshort hlen
        obtain ⟨rfl, hle⟩ := harray hshort hlen
        refine ⟨?_, addrs, hpushed.layout (hall hshort hlen).2 ?_ (by omega) (by omega)
          (by omega)⟩
        · unfold stackSpace
          omega
        · have := hs.aligned
          unfold align16 at *
          omega
  · exact ⟨⟨k, ⟨hsp1, hc1, .inl rfl⟩, fun hne => absurd rfl hne⟩, .inl ⟨rfl, rfl, hless1⟩⟩

/-! ## The subtractions -/

/-- A subtraction of `uint64`s that stops when it would wrap. -/
def subChecked (a b : Nat) : VmM Nat :=
  if a < b then Vm.panic "underflow" else return a - b

theorem subChecked_of_le {b : Nat} (h : b ≤ a) : subChecked a b = pure (a - b) :=
  if_neg (by omega)

/-- `pushArgs` with checked subtractions. -/
def pushArgsChecked (pt stackbase : Nat) :
    List (List UInt8) → Nat → Nat → VmM (Option (List Nat × Nat))
  | [], _, sp => return some ([], sp)
  | arg :: rest, argc, sp => do
    if argc ≥ MAXARG then return none
    else
      let sp ← subChecked sp (arg.length + 1)
      let sp ← subChecked sp (sp % 16)
      if sp < stackbase then return none
      else if (← copyout pt sp (arg ++ [0])) < 0 then return none
      else
        match ← pushArgsChecked pt stackbase rest (argc + 1) sp with
        | none => return none
        | some (ustack, sp') => return some (sp :: ustack, sp')

/-- `setupStack` with checked subtractions. -/
def setupStackChecked (pt sz : Nat) (argv : List (List UInt8)) : VmM (Option Nat × Nat) := do
  let sz := pgroundup sz
  let sz ← uvmalloc pt sz ((sz + 2 * PGSIZE) % 2 ^ 64)
  if sz = 0 then return (none, sz)
  else
    uvmclear pt (← subChecked sz (2 * PGSIZE))
    let stackbase ← subChecked sz PGSIZE
    match ← pushArgsChecked pt stackbase argv 0 sz with
    | none => return (none, sz)
    | some (ustack, sp) =>
      let sp ← subChecked sp ((ustack.length + 1) * 8)
      let sp ← subChecked sp (sp % 16)
      if sp < stackbase then return (none, sz)
      else if (← copyout pt sp ((ustack ++ [0]).flatMap wordBytes)) < 0 then return (none, sz)
      else return (some sp, sz)

/-- Both forms of the subtraction, where it does not wrap. -/
theorem sub_mod {n : Nat} (hn : n ≤ sp) (hlt : sp < 2 ^ 64) :
    (sp + 2 ^ 64 - n) % 2 ^ 64 = sp - n := by
  omega

theorem pushArgsChecked_eq (hbase : PGSIZE ≤ base) (argv : List (List UInt8)) :
    ∀ {argc sp : Nat}, base ≤ sp → sp < 2 ^ 64 → Short argv →
    pushArgsChecked pt base argv argc sp = pushArgs pt base argv argc sp := by
  induction argv with
  | nil => exact fun _ _ _ => rfl
  | cons arg rest ih =>
    intro argc sp hle hlt hshort
    have hlen : arg.length + 1 ≤ sp := by
      have := hshort arg mem_cons_self
      omega
    have hrest : Short rest := fun b hb => hshort b (mem_cons_of_mem _ hb)
    unfold pushArgsChecked pushArgs
    dsimp only
    rw [subChecked_of_le hlen, pure_bind, subChecked_of_le (Nat.mod_le _ _), pure_bind,
      sub_mod hlen hlt]
    generalize ha : sp - (arg.length + 1) - (sp - (arg.length + 1)) % 16 = a
    by_cases hlow : a < base
    · rw [if_pos hlow, if_pos hlow]
    · have hnext := @ih (argc + 1) a (by omega) (by omega) hrest
      exact hnext ▸ rfl

/-- No subtraction of `setupStack` wraps. -/
theorem setupStackChecked_eq (h : Space m pt (pages sz) top) (htop : Guarded top)
    (hshort : Short argv)
    (hlen : argv.length < MAXARG) : setupStackChecked pt sz argv m = setupStack pt sz argv m := by
  have hle := h.le_npages
  unfold setupStackChecked setupStack
  rw [stack_size h, pgroundup_eq hle]
  generalize hk : pages sz = k at *
  have hsp : Space m pt (pages (k * PGSIZE)) top := by
    rw [pages_mul]
    exact h
  refine bind_eq_of_wp (wp_imp (hsp.uvmalloc (Nat.mul_le_mul_right _ (by omega)))
    (fun sz1 m1 hr1 => ?_) fun _ _ => trivial)
  rw [pages_mul, pages_mul] at hr1
  rcases hr1 with ⟨hsz1, hsp1, -, -, hgrown⟩ | ⟨rfl, -⟩
  · have htwo : 2 * PGSIZE ≤ sz1 := by
      rw [hsz1]
      exact Nat.mul_le_mul_right _ (by omega)
    have hone : PGSIZE ≤ sz1 := by
      omega
    have hguard : sz1 - 2 * PGSIZE = k * PGSIZE := by rw [hsz1, Nat.add_mul, Nat.add_sub_cancel]
    have hpos : sz1 ≠ 0 := by
      unfold PGSIZE at *
      omega
    rw [if_neg hpos, if_neg hpos, subChecked_of_le htwo, pure_bind, hguard]
    refine bind_eq_of_wp (wp_imp (hsp1.uvmclear (by omega)) (fun _ m2 hr2 => ?_)
      fun _ _ => trivial)
    obtain ⟨hsp2, -, -, hclear⟩ := hr2
    have hstack := stackTop_of_grown hsp2 hgrown hclear
    rw [← hsz1] at hstack
    rw [subChecked_of_le hone, pure_bind, pushArgsChecked_eq hstack.low argv hstack.le hstack.lt
      hshort]
    refine bind_eq_of_wp (wp_imp (pushArgs_spec htop argv hsp2) (fun r m3 hr3 => ?_)
      fun _ _ => trivial)
    have hend := hr3.2.2 hstack hshort (by omega)
    cases r with
    | none => rfl
    | some r =>
      obtain ⟨addrs, sp⟩ := r
      obtain ⟨-, hs, hpushed⟩ := hend
      have hcount : addrs.length = argv.length := hpushed.strings.length_eq.symm
      have hfit : (addrs.length + 1) * 8 ≤ sp := by
        have := hs.low
        have := hs.le
        unfold MAXARG at hlen
        unfold PGSIZE at *
        omega
      dsimp only
      rw [subChecked_of_le hfit, pure_bind, subChecked_of_le (Nat.mod_le _ _), pure_bind,
        sub_mod hfit hs.lt]
  · rw [if_pos rfl, if_pos rfl]

end SummerOsk.Task
