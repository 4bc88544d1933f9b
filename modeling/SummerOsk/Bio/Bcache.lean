import SummerOsk.Bio.Defs
import SummerOsk.Lib.DList
import SummerOsk.Lib.RefCount

/-!
# The buffer cache with its links

This is `kernel/bio.c` alone, with the `prev` and `next` fields of the buffers,
the unsigned `refcnt`, and callers that may use it in any order.  As in
`Bio.Defs` an action is one critical section of `bcache.lock` or one piece of
code outside it.  The callers keep to two rules, which are the only ones: a
process is in one call at a time, and a `bunpin` undoes a `bpin`.

Three fields are not in the kernel.  `pins` counts the calls of `bpin` that no
`bunpin` has undone.  `freed` is the time at which `brelse` last took the count
of a buffer down to zero, on a `clock` that only `brelse` advances.  Before its
first `brelse` a buffer has the time at which `binit` put it into the list.

`bcache_representation` is about every state that runs of this machine reach.
The last section says that the list of `Bio.Defs` is what the links represent.
-/

namespace SummerOsk.Bcache

open Lib Log Function List

/-! ## The code -/

/-- `struct buf`, apart from its links. -/
structure Buf (ι : Type) where
  valid : Bool
  dev : Nat
  blockno : Nat
  /-- The process that holds the sleep lock. -/
  holder : Option ι
  refcnt : BitVec 32
  data : Block

/-- The call that a process is in. -/
inductive Call (κ : Type) where
  | none
  /-- In `bget` for a block, at `acquiresleep`. -/
  | waiting (b : Nat) (i : κ)
  /-- In `bread`, after `bget`. -/
  | locked (i : κ)
  /-- In `brelse`, past `releasesleep`. -/
  | releasing (i : κ)
  deriving DecidableEq

/-- The buffer that the call refers to beside the holder of the lock. -/
@[simp] def Call.refers {κ : Type} : Call κ → Option κ
  | .waiting _ i | .releasing i => some i
  | .none | .locked _ => Option.none

/-- The disk, `bcache` and the processes. -/
structure State (ι κ : Type) where
  disk : Nat → Block
  buf : κ → Buf ι
  links : Links κ
  call : ι → Call κ
  panicked : Option String
  /-- Not in the kernel. -/
  pins : κ → Nat
  /-- Not in the kernel. -/
  freed : κ → Nat
  /-- Not in the kernel. -/
  clock : Nat

/-- The actions of the processes `ι` on the buffers `κ`. -/
inductive Act (ι κ : Type) where
  /-- The call of `bread` and the critical section of `bget`. -/
  | bget (p : ι) (b : Nat)
  /-- `acquiresleep` in `bget`. -/
  | acquiresleep (p : ι)
  /-- The rest of `bread`. -/
  | bread (p : ι)
  /-- The holder of a buffer changes its data. -/
  | modify (p : ι) (i : κ) (x : Block)
  | bwrite (p : ι) (i : κ)
  /-- The call of `brelse` and its `releasesleep`. -/
  | releasesleep (p : ι) (i : κ)
  /-- The critical section of `brelse`. -/
  | brelse (p : ι)
  | bpin (i : κ)
  | bunpin (i : κ)

/-- The loop of `binit` over the buffers of the array. -/
def binit {κ : Type} [DecidableEq κ] (bufs : List κ) : Links κ :=
  bufs.foldl Links.pushFront Links.empty

namespace State

variable {ι κ : Type} [DecidableEq κ]

def setBuf (s : State ι κ) (i : κ) (x : Buf ι) : State ι κ :=
  { s with buf := update s.buf i x }

def setCall [DecidableEq ι] (s : State ι κ) (p : ι) (c : Call κ) : State ι κ :=
  { s with call := update s.call p c }

/-- The buffer is bound to block `b` of `ROOTDEV`. -/
def Bound (s : State ι κ) (i : κ) (b : Nat) : Prop :=
  (s.buf i).dev = ROOTDEV ∧ (s.buf i).blockno = b

instance (s : State ι κ) (i : κ) (b : Nat) : Decidable (s.Bound i b) :=
  inferInstanceAs (Decidable (_ ∧ _))

section

variable [Fintype κ]

/-- The first loop of `bget`, which meets every buffer once. -/
def cached (s : State ι κ) (b : Nat) : Option κ :=
  s.links.findNext (fun i => s.Bound i b) (Fintype.card κ + 1)

/-- The second loop of `bget`. -/
def unused (s : State ι κ) : Option κ :=
  s.links.findPrev (fun i => (s.buf i).refcnt = 0) (Fintype.card κ + 1)

/-- The critical section of `bget`. -/
def bget (s : State ι κ) (b : Nat) : Except String (κ × State ι κ) :=
  match s.cached b with
  | some i => .ok (i, s.setBuf i { s.buf i with refcnt := (s.buf i).refcnt + 1 })
  | none =>
    match s.unused with
    | some i =>
      .ok (i, s.setBuf i
        { s.buf i with dev := ROOTDEV, blockno := b, valid := false, refcnt := 1 })
    | none => .error "bget: no buffers"

end

/-- What `bread` does once it holds the buffer. -/
def fill (s : State ι κ) (i : κ) : State ι κ :=
  if (s.buf i).valid then s
  else s.setBuf i { s.buf i with data := s.disk (s.buf i).blockno, valid := true }

/-- The critical section of `brelse`. -/
def dropRef (s : State ι κ) (i : κ) : State ι κ :=
  let t := s.setBuf i { s.buf i with refcnt := (s.buf i).refcnt - 1 }
  if (s.buf i).refcnt - 1 = 0 then
    { t with
      links := (s.links.unlink i).pushFront i
      freed := update s.freed i s.clock
      clock := s.clock + 1 }
  else t

/-- One action.  An action that its process cannot take now has no step, and a
kernel that panicked takes no more steps. -/
def step [DecidableEq ι] [Fintype κ] (s : State ι κ) (a : Act ι κ) : Option (State ι κ) :=
  if s.panicked.isSome then none
  else match a with
  | .bget p b =>
    match s.call p with
    | .none =>
      match s.bget b with
      | .ok (i, t) => some (t.setCall p (.waiting b i))
      | .error e => some { s with panicked := some e }
    | _ => none
  | .acquiresleep p =>
    match s.call p with
    | .waiting _ i =>
      if (s.buf i).holder = none then
        some ((s.setBuf i { s.buf i with holder := some p }).setCall p (.locked i))
      else none
    | _ => none
  | .bread p =>
    match s.call p with
    | .locked i => some ((s.fill i).setCall p .none)
    | _ => none
  | .modify p i x =>
    if s.call p = .none ∧ (s.buf i).holder = some p then
      some (s.setBuf i { s.buf i with data := x })
    else none
  | .bwrite p i =>
    if s.call p = .none then
      if (s.buf i).holder = some p then
        some { s with disk := update s.disk (s.buf i).blockno (s.buf i).data }
      else some { s with panicked := some "bwrite" }
    else none
  | .releasesleep p i =>
    if s.call p = .none then
      if (s.buf i).holder = some p then
        some ((s.setBuf i { s.buf i with holder := none }).setCall p (.releasing i))
      else some { s with panicked := some "brelse" }
    else none
  | .brelse p =>
    match s.call p with
    | .releasing i => some ((s.dropRef i).setCall p .none)
    | _ => none
  | .bpin i =>
    some { s.setBuf i { s.buf i with refcnt := (s.buf i).refcnt + 1 } with
      pins := update s.pins i (s.pins i + 1) }
  | .bunpin i =>
    if s.pins i = 0 then none
    else some { s.setBuf i { s.buf i with refcnt := (s.buf i).refcnt - 1 } with
      pins := update s.pins i (s.pins i - 1) }

/-- The state after `binit`, with the static `bcache` all zero. -/
def boot (ι : Type) (disk : Nat → Block) : State ι (Fin NBUF) where
  disk := disk
  buf := fun _ => ⟨false, 0, 0, none, 0, fun _ => 0⟩
  links := binit (List.finRange NBUF)
  call := fun _ => .none
  panicked := none
  pins := fun _ => 0
  freed := fun i => i
  clock := NBUF

end State

/-- The buffer cache as a machine. -/
def bcache (ι κ : Type) [DecidableEq ι] [DecidableEq κ] [Fintype κ] :
    Machine (State ι κ) (Act ι κ) := ⟨State.step⟩

/-! ## What an action can do -/

open State

section

variable {ι κ : Type} [DecidableEq ι] [DecidableEq κ] {s t : State ι κ} {a : Act ι κ}

/-- The effects of the actions with their conditions. -/
inductive Move [Fintype κ] (s : State ι κ) : Act ι κ → State ι κ → Prop where
  | hit {p b i} : s.call p = .none → s.cached b = some i →
      Move s (.bget p b)
        ((s.setBuf i { s.buf i with refcnt := (s.buf i).refcnt + 1 }).setCall p (.waiting b i))
  | miss {p b i} : s.call p = .none → s.cached b = none → s.unused = some i →
      Move s (.bget p b) ((s.setBuf i
        { s.buf i with dev := ROOTDEV, blockno := b, valid := false, refcnt := 1 }).setCall p
          (.waiting b i))
  | full {p b} : s.call p = .none → s.cached b = none → s.unused = none →
      Move s (.bget p b) { s with panicked := some "bget: no buffers" }
  | acquiresleep {p b i} : s.call p = .waiting b i → (s.buf i).holder = none →
      Move s (.acquiresleep p)
        ((s.setBuf i { s.buf i with holder := some p }).setCall p (.locked i))
  | bread {p i x} : s.call p = .locked i →
      Move s (.bread p) ((s.setBuf i { s.buf i with data := x, valid := true }).setCall p .none)
  | modify {p i x} : Move s (.modify p i x) (s.setBuf i { s.buf i with data := x })
  | bwrite {p i d} : Move s (.bwrite p i) { s with disk := d }
  | bwriteUnheld {p i} : Move s (.bwrite p i) { s with panicked := some "bwrite" }
  | releasesleep {p i} : s.call p = .none → (s.buf i).holder = some p →
      Move s (.releasesleep p i)
        ((s.setBuf i { s.buf i with holder := none }).setCall p (.releasing i))
  | brelseUnheld {p i} : Move s (.releasesleep p i) { s with panicked := some "brelse" }
  | brelse {p i} : s.call p = .releasing i →
      Move s (.brelse p) ((s.dropRef i).setCall p .none)
  | bpin {i} : Move s (.bpin i)
      { s.setBuf i { s.buf i with refcnt := (s.buf i).refcnt + 1 } with
        pins := update s.pins i (s.pins i + 1) }
  | bunpin {i} : s.pins i ≠ 0 → Move s (.bunpin i)
      { s.setBuf i { s.buf i with refcnt := (s.buf i).refcnt - 1 } with
        pins := update s.pins i (s.pins i - 1) }

omit [DecidableEq ι] in
theorem State.fill_eq (i : κ) :
    ∃ x, s.fill i = s.setBuf i { s.buf i with data := x, valid := true } := by
  unfold State.fill
  split_ifs with h
  · refine ⟨(s.buf i).data, ?_⟩
    rw [State.setBuf, ← h, update_eq_self]
  · exact ⟨_, rfl⟩

theorem move_of_step [Fintype κ] (h : s.step a = some t) : Move s a t := by
  unfold State.step at h
  split at h
  · cases h
  · cases a with
    | bget p b =>
      dsimp only at h
      split at h
      · rename_i hcall
        unfold State.bget at h
        cases hcached : s.cached b with
        | some i =>
          rw [hcached] at h
          cases h
          exact .hit hcall hcached
        | none =>
          rw [hcached] at h
          cases hunused : s.unused with
          | some i =>
            rw [hunused] at h
            cases h
            exact .miss hcall hcached hunused
          | none =>
            rw [hunused] at h
            cases h
            exact .full hcall hcached hunused
      · cases h
    | acquiresleep p =>
      dsimp only at h
      split at h
      · rename_i hcall
        split_ifs at h with hfree
        cases h
        exact .acquiresleep hcall hfree
      · cases h
    | bread p =>
      dsimp only at h
      split at h
      · rename_i hcall
        cases h
        obtain ⟨x, hx⟩ := fill_eq (s := s) ‹κ›
        rw [hx]
        exact .bread hcall
      · cases h
    | modify p i x =>
      dsimp only at h
      split_ifs at h
      cases h
      exact .modify
    | bwrite p i =>
      dsimp only at h
      split_ifs at h
      · cases h
        exact .bwrite
      · cases h
        exact .bwriteUnheld
    | releasesleep p i =>
      dsimp only at h
      split_ifs at h with hcall hheld
      · cases h
        exact .releasesleep hcall hheld
      · cases h
        exact .brelseUnheld
    | brelse p =>
      dsimp only at h
      split at h
      · cases h
        exact .brelse ‹_›
      · cases h
    | bpin i =>
      cases h
      exact .bpin
    | bunpin i =>
      dsimp only at h
      split_ifs at h with hpins
      cases h
      exact .bunpin hpins

/-! ## Reference counts -/

/-- The holder of the sleep lock counts once. -/
def State.holders (s : State ι κ) (i : κ) : Nat := if (s.buf i).holder.isSome then 1 else 0

variable [Fintype ι]

/-- The processes that wait for the lock, and those in `brelse` that have
released it and still have their reference. -/
def State.waiters (s : State ι κ) (i : κ) : Nat := refCount (fun p => (s.call p).refers) i

def State.references (s : State ι κ) (i : κ) : Nat := s.holders i + s.waiters i + s.pins i

/-- The count of every buffer is the number of its references, as an unsigned
number. -/
def Counted (s : State ι κ) : Prop :=
  ∀ i, (s.buf i).refcnt = BitVec.ofNat 32 (s.references i)

theorem waiters_setCall (s : State ι κ) (p : ι) (c : Call κ) (i : κ) :
    (s.setCall p c).waiters i + (if (s.call p).refers = some i then 1 else 0) =
      s.waiters i + if c.refers = some i then 1 else 0 := by
  have hupdate := refCount_update (fun q => (s.call q).refers) p c.refers i
  have hslots : (fun q => ((s.setCall p c).call q).refers) =
      update (fun q => (s.call q).refers) p c.refers := by
    funext q
    rcases eq_or_ne q p with rfl | hq
    · simp [State.setCall]
    · simp [State.setCall, hq]
  rw [waiters, waiters, hslots]
  exact hupdate

omit [DecidableEq ι] in
/-- One buffer and its references change. -/
theorem Counted.of_one (h : Counted s) {i : κ} (hbuf : ∀ j, j ≠ i → t.buf j = s.buf j)
    (hwaiters : ∀ j, j ≠ i → t.waiters j = s.waiters j) (hpins : ∀ j, j ≠ i → t.pins j = s.pins j)
    {d e : Nat} (hrefs : t.references i + d = s.references i + e)
    (hcount : (t.buf i).refcnt + BitVec.ofNat 32 d = (s.buf i).refcnt + BitVec.ofNat 32 e) :
    Counted t := by
  intro j
  rcases eq_or_ne j i with rfl | hj
  · rw [h j, ← BitVec.ofNat_add, ← hrefs, BitVec.ofNat_add] at hcount
    exact (BitVec.add_left_inj _).mp hcount
  · have hsame : t.references j = s.references j := by
      rw [references, references, holders, holders, hbuf j hj, hwaiters j hj, hpins j hj]
    rw [hbuf j hj, hsame]
    exact h j

/-- A process takes or drops a reference to buffer `i`, or turns one reference
into another. -/
theorem Counted.of_call (h : Counted s) {i : κ} {x : Buf ι} {p : ι} {c : Call κ}
    (hfrom : (s.call p).refers = none ∨ (s.call p).refers = some i)
    (hto : c.refers = none ∨ c.refers = some i) {d e : Nat}
    (hrefs : (if x.holder.isSome then 1 else 0) + (if c.refers = some i then 1 else 0) + d =
      s.holders i + (if (s.call p).refers = some i then 1 else 0) + e)
    (hcount : x.refcnt + BitVec.ofNat 32 d = (s.buf i).refcnt + BitVec.ofNat 32 e) :
    Counted ((s.setBuf i x).setCall p c) := by
  have hw := waiters_setCall (s.setBuf i x) p c
  refine h.of_one (d := d) (e := e) (fun j hj => update_of_ne hj _ _) (fun j hj => ?_)
    (fun j _ => rfl) ?_ ?_
  · have hfrom' : (s.call p).refers ≠ some j := by
      rcases hfrom with hf | hf <;> rw [hf]
      · simp
      · exact fun heq => hj (Option.some.inj heq).symm
    have hto' : c.refers ≠ some j := by
      rcases hto with hc | hc <;> rw [hc]
      · simp
      · exact fun heq => hj (Option.some.inj heq).symm
    have hwj := hw j
    rw [if_neg hto', if_neg (show ((s.setBuf i x).call p).refers ≠ some j from hfrom')] at hwj
    exact hwj
  · have hwi : ((s.setBuf i x).setCall p c).waiters i +
      (if (s.call p).refers = some i then 1 else 0) =
        s.waiters i + if c.refers = some i then 1 else 0 := hw i
    have hholders : ((s.setBuf i x).setCall p c).holders i = if x.holder.isSome then 1 else 0 := by
      show (if (update s.buf i x i).holder.isSome then 1 else 0) = _
      rw [update_self]
    have hpins : ((s.setBuf i x).setCall p c).pins i = s.pins i := rfl
    rw [references, references, hholders, hpins]
    omega
  · show (update s.buf i x i).refcnt + _ = _
    rw [update_self]
    exact hcount

omit [DecidableEq ι] in
theorem Counted.quiet (h : Counted s) (hbuf : t.buf = s.buf) (hcall : t.call = s.call)
    (hpins : t.pins = s.pins) : Counted t := by
  intro i
  have hrefs : t.references i = s.references i := by
    rw [references, references, holders, holders, waiters, waiters, hbuf, hcall, hpins]
  rw [hbuf, hrefs]
  exact h i

/-- `brelse` moves the buffer in the list, which the counts do not see. -/
theorem Counted.dropRef (h : Counted s) {p : ι} {i : κ} (hcall : s.call p = .releasing i) :
    Counted ((s.dropRef i).setCall p .none) := by
  have hdrop : Counted ((s.setBuf i { s.buf i with refcnt := (s.buf i).refcnt - 1 }).setCall p
      .none) := by
    refine h.of_call (d := 1) (e := 0) (by simp [hcall]) (by simp) ?_ ?_
    · simp [hcall, holders]
    · exact (BitVec.sub_add_cancel _ _).trans (BitVec.add_zero _).symm
  unfold State.dropRef
  split
  · exact hdrop.quiet rfl rfl rfl
  · exact hdrop

omit [DecidableEq ι] in
theorem Counted.of_pins (h : Counted s) {i : κ} {r : BitVec 32} {n d e : Nat}
    (hpins : n + d = s.pins i + e)
    (hcount : r + BitVec.ofNat 32 d = (s.buf i).refcnt + BitVec.ofNat 32 e) :
    Counted { s.setBuf i { s.buf i with refcnt := r } with
      pins := update s.pins i n } := by
  refine h.of_one (d := d) (e := e) (fun j hj => update_of_ne hj _ _) (fun j _ => rfl)
    (fun j hj => update_of_ne hj _ _) ?_ ?_
  · simp only [references, holders, waiters, State.setBuf, update_self]
    omega
  · simpa [State.setBuf] using hcount

theorem Counted.move [Fintype κ] (h : Counted s) (hunused : ∀ i, s.unused = some i →
    (s.buf i).refcnt = 0) (hm : Move s a t) : Counted t := by
  cases hm with
  | hit hcall _ =>
    refine h.of_call (d := 0) (e := 1) (by simp [hcall]) (by simp) ?_ ?_
    · simp [hcall, holders]
    · simp
  | @miss p b i hcall _ hfree =>
    refine h.of_call (d := 0) (e := 1) (by simp [hcall]) (by simp) ?_ ?_
    · simp [hcall, holders]
    · simp [hunused i hfree]
  | acquiresleep hcall hfree =>
    refine h.of_call (d := 0) (e := 0) (by simp [hcall]) (by simp) ?_ ?_
    · simp [hcall, holders, hfree]
    · simp
  | bread hcall =>
    refine h.of_call (d := 0) (e := 0) (by simp [hcall]) (by simp) ?_ ?_
    · simp [hcall, holders]
    · simp
  | @modify p i x =>
    refine h.of_one (i := i) (d := 0) (e := 0) (fun j hj => update_of_ne hj _ _)
      (fun _ _ => rfl) (fun _ _ => rfl) ?_ ?_
    · simp [references, holders, waiters, State.setBuf]
    · simp [State.setBuf]
  | bwrite | full | bwriteUnheld | brelseUnheld => exact h.quiet rfl rfl rfl
  | releasesleep hcall hheld =>
    refine h.of_call (d := 0) (e := 0) (by simp [hcall]) (by simp) ?_ ?_
    · simp [hcall, holders, hheld]
    · simp
  | brelse hcall => exact h.dropRef hcall
  | bpin => exact h.of_pins (d := 0) (e := 1) rfl (by simp)
  | bunpin hpins =>
    refine h.of_pins (d := 1) (e := 0) (by omega) ?_
    exact (BitVec.sub_add_cancel _ _).trans (BitVec.add_zero _).symm

end

/-! ## The list -/

variable {b : Nat}

section

variable {ι κ : Type} {s t : State ι κ}

/-- The links represent a list of all the buffers, in the order in which they
were freed, the last one first. -/
structure Listed (s : State ι κ) (xs : List κ) : Prop where
  represents : s.links.Represents xs
  all : ∀ i, i ∈ xs
  recent : xs.Pairwise fun i j => s.freed j < s.freed i
  clock : ∀ i, s.freed i < s.clock

variable {xs : List κ}

theorem Listed.quiet (h : Listed s xs) (hlinks : t.links = s.links) (hfreed : t.freed = s.freed)
    (hclock : t.clock = s.clock) : Listed t xs := by
  refine ⟨?_, h.all, ?_, ?_⟩
  · rw [hlinks]
    exact h.represents
  · rw [hfreed]
    exact h.recent
  · rw [hfreed, hclock]
    exact h.clock

theorem Listed.dropRef [DecidableEq κ] (h : Listed s xs) (i : κ) :
    ∃ ys, Listed (s.dropRef i) ys := by
  unfold State.dropRef
  split
  · have hne : ∀ j ∈ xs.erase i, j ≠ i := fun j hj => (h.represents.2.mem_erase_iff.mp hj).1
    refine ⟨i :: xs.erase i, h.represents.moveFront (h.all i), fun j => ?_, ?_, fun j => ?_⟩
    · by_cases hj : j = i
      · rw [hj]
        exact mem_cons_self
      · exact mem_cons_of_mem _ ((mem_erase_of_ne hj).mpr (h.all j))
    · show List.Pairwise (fun j k => update s.freed i s.clock k <
        update s.freed i s.clock j) _
      refine pairwise_cons.mpr ⟨fun j hj => ?_, ?_⟩
      · rw [update_self, update_of_ne (hne j hj)]
        exact h.clock j
      · refine (h.recent.sublist erase_sublist).imp_of_mem fun hj hk hlt => ?_
        rwa [update_of_ne (hne _ hj), update_of_ne (hne _ hk)]
    · show update s.freed i s.clock j < s.clock + 1
      by_cases hj : j = i
      · rw [hj, update_self]
        exact Nat.lt_succ_self _
      · rw [update_of_ne hj]
        exact Nat.lt_succ_of_lt (h.clock j)
  · exact ⟨xs, h.quiet rfl rfl rfl⟩

theorem Listed.move [DecidableEq ι] [DecidableEq κ] [Fintype κ] {a : Act ι κ}
    (h : Listed s xs) (hm : Move s a t) : ∃ ys, Listed t ys := by
  cases hm with
  | brelse hcall =>
    obtain ⟨ys, hys⟩ := h.dropRef _
    exact ⟨ys, hys.quiet rfl rfl rfl⟩
  | _ => exact ⟨xs, h.quiet rfl rfl rfl⟩

variable [Fintype κ]

section

variable (h : Listed s xs)

include h

theorem Listed.length_lt : xs.length < Fintype.card κ + 1 :=
  Nat.lt_succ_of_le h.represents.2.length_le_card

theorem Listed.cached_eq (b : Nat) : s.cached b = xs.find? fun i => s.Bound i b :=
  h.represents.findNext h.length_lt

theorem Listed.unused_eq : s.unused = xs.reverse.find? fun i => (s.buf i).refcnt = 0 :=
  h.represents.findPrev h.length_lt

theorem Listed.bound_of_cached {i : κ} (hc : s.cached b = some i) : s.Bound i b := by
  rw [h.cached_eq] at hc
  simpa using find?_some hc

theorem Listed.not_bound (hc : s.cached b = none) (i : κ) : ¬ s.Bound i b := by
  rw [h.cached_eq] at hc
  simpa using find?_eq_none.mp hc i (h.all i)

theorem Listed.refcnt_of_unused {i : κ} (hu : s.unused = some i) : (s.buf i).refcnt = 0 := by
  rw [h.unused_eq] at hu
  simpa using find?_some hu

/-- The second loop of `bget` stops at the unreferenced buffer that was freed
first. -/
theorem Listed.oldest_of_unused {i : κ} (hu : s.unused = some i) {j : κ} (hj : (s.buf j).refcnt = 0)
    (hne : j ≠ i) : s.freed i < s.freed j := by
  rw [h.unused_eq] at hu
  obtain ⟨-, as, bs, hsplit, hbusy⟩ := find?_eq_some_iff_append.mp hu
  have hmem : j ∈ as ++ i :: bs := by
    rw [← hsplit]
    exact mem_reverse.mpr (h.all j)
  have hjbs : j ∈ bs := by
    rcases mem_append.mp hmem with has | hibs
    · have := hbusy j has
      simp [hj] at this
    · exact (mem_cons.mp hibs).resolve_left hne
  have hpair : (as ++ i :: bs).Pairwise fun i j => s.freed i < s.freed j := by
    rw [← hsplit]
    exact pairwise_reverse.mpr h.recent
  exact rel_of_pairwise_cons (pairwise_append.mp hpair).2.1 hjbs

end

end

/-! ## The bindings -/

section

variable {ι κ : Type} [DecidableEq ι] [DecidableEq κ] [Fintype κ] {s t : State ι κ} {a : Act ι κ}

/-- An action binds a buffer only in the second loop of `bget`. -/
theorem binding_of_move (hm : Move s a t) (i : κ) :
    ((t.buf i).dev = (s.buf i).dev ∧ (t.buf i).blockno = (s.buf i).blockno) ∨
      ∃ p b, a = .bget p b ∧ s.cached b = none ∧ s.unused = some i ∧ t.Bound i b := by
  -- an update of other fields of one buffer binds none
  have hkeep : ∀ (j : κ) (x : Buf ι), x.dev = (s.buf j).dev → x.blockno = (s.buf j).blockno →
      ((update s.buf j x i).dev = (s.buf i).dev ∧
        (update s.buf j x i).blockno = (s.buf i).blockno) := by
    intro j x hdev hblockno
    rcases eq_or_ne i j with rfl | hi
    · rw [update_self]
      exact ⟨hdev, hblockno⟩
    · rw [update_of_ne hi]
      exact ⟨rfl, rfl⟩
  cases hm with
  | @miss p b j _ hcached hunused =>
    rcases eq_or_ne i j with rfl | hi
    · refine .inr ⟨p, b, rfl, hcached, hunused, ?_⟩
      show (update s.buf i _ i).dev = ROOTDEV ∧ (update s.buf i _ i).blockno = b
      rw [update_self]
      exact ⟨rfl, rfl⟩
    · refine .inl ?_
      show (update s.buf j _ i).dev = _ ∧ (update s.buf j _ i).blockno = _
      rw [update_of_ne hi]
      exact ⟨rfl, rfl⟩
  | @brelse p j _ =>
    refine .inl ?_
    have hbuf : ((s.dropRef j).setCall p .none).buf =
        update s.buf j { s.buf j with refcnt := (s.buf j).refcnt - 1 } := by
      unfold State.dropRef
      split <;> rfl
    rw [hbuf]
    exact hkeep j _ rfl rfl
  | bwrite | full | bwriteUnheld | brelseUnheld => exact .inl ⟨rfl, rfl⟩
  | _ => exact .inl (hkeep _ _ rfl rfl)

variable [Fintype ι]

/-- What holds in every state that a run reaches. -/
structure Inv (s : State ι κ) : Prop where
  listed : ∃ xs, Listed s xs
  counted : Counted s
  unique : ∀ i j b, s.Bound i b → s.Bound j b → i = j

theorem Inv.unique_move (h : Inv s) (hm : Move s a t) {i j : κ} (hi : t.Bound i b)
    (hj : t.Bound j b) : i = j := by
  obtain ⟨xs, hlisted⟩ := h.listed
  -- a buffer that was just bound is the only one, as the first loop found none
  have hnew : ∀ {i j : κ}, t.Bound i b → t.Bound j b →
      ((t.buf i).dev = (s.buf i).dev ∧ (t.buf i).blockno = (s.buf i).blockno) →
      ¬ ∃ p b, a = .bget p b ∧ s.cached b = none ∧ s.unused = some j ∧ t.Bound j b := by
    rintro i j hi hj ⟨hdev, hblockno⟩ ⟨p, b', -, hcached, -, hbound⟩
    refine hlisted.not_bound hcached i ⟨hdev.symm.trans hi.1, ?_⟩
    exact (hblockno.symm.trans hi.2).trans (hj.2.symm.trans hbound.2)
  rcases binding_of_move hm i with hi' | hi' <;> rcases binding_of_move hm j with hj' | hj'
  · refine h.unique i j b ⟨hi'.1.symm.trans hi.1, hi'.2.symm.trans hi.2⟩ ?_
    exact ⟨hj'.1.symm.trans hj.1, hj'.2.symm.trans hj.2⟩
  · exact absurd hj' (hnew hi hj hi')
  · exact absurd hi' (hnew hj hi hj')
  · obtain ⟨-, -, -, -, hui, -⟩ := hi'
    obtain ⟨-, -, -, -, huj, -⟩ := hj'
    exact Option.some.inj (hui.symm.trans huj)

theorem Inv.step (h : Inv s) (hstep : s.step a = some t) : Inv t := by
  have hm := move_of_step hstep
  obtain ⟨xs, hlisted⟩ := h.listed
  exact ⟨hlisted.move hm, h.counted.move (fun i => hlisted.refcnt_of_unused) hm,
    fun i j b => h.unique_move hm⟩

/-- A buffer with references keeps its block. -/
theorem Inv.keeps_binding (h : Inv s) (hstep : s.step a = some t) {i : κ}
    (hi : (s.buf i).refcnt ≠ 0) :
    (t.buf i).dev = (s.buf i).dev ∧ (t.buf i).blockno = (s.buf i).blockno := by
  obtain ⟨xs, hlisted⟩ := h.listed
  rcases binding_of_move (move_of_step hstep) i with hkeep | ⟨-, -, -, -, hunused, -⟩
  · exact hkeep
  · exact absurd (hlisted.refcnt_of_unused hunused) hi

/-- `bget` takes, for a block that is not cached, the unreferenced buffer that
was freed first. -/
theorem Inv.recycles (h : Inv s) {p : ι} {i : κ} (hstep : s.step (.bget p b) = some t)
    (hwait : t.call p = .waiting b i) (hmiss : ∀ j, ¬ s.Bound j b) :
    t.Bound i b ∧ (s.buf i).refcnt = 0 ∧
      ∀ j, (s.buf j).refcnt = 0 → j ≠ i → s.freed i < s.freed j := by
  obtain ⟨xs, hlisted⟩ := h.listed
  cases move_of_step hstep with
  | hit _ hcached => exact absurd (hlisted.bound_of_cached hcached) (hmiss _)
  | @miss _ _ j _ hcached hunused =>
    have hij : j = i := by simpa [State.setCall] using hwait
    subst hij
    refine ⟨?_, hlisted.refcnt_of_unused hunused, fun k => hlisted.oldest_of_unused hunused⟩
    show (update s.buf j _ j).dev = ROOTDEV ∧ (update s.buf j _ j).blockno = b
    rw [update_self]
    exact ⟨rfl, rfl⟩
  | full hcall => cases hcall.symm.trans hwait

end

/-! ## Runs -/

theorem binit_represents : (binit (finRange NBUF)).Represents (finRange NBUF).reverse := by
  rw [← append_nil (finRange NBUF).reverse]
  exact Links.represents_empty.foldl_pushFront (nodup_finRange NBUF) (by simp)

section

variable {ι : Type} [DecidableEq ι] [Fintype ι]

omit [DecidableEq ι] in
theorem inv_boot (disk : Nat → Block) : Inv (State.boot ι disk) where
  listed := by
    refine ⟨(finRange NBUF).reverse, binit_represents, fun i => by simp, ?_, fun i => i.isLt⟩
    exact pairwise_reverse.mpr (pairwise_lt_finRange NBUF)
  counted := fun i => by
    have hrefs : (State.boot ι disk).references i = 0 := by
      have hwaiters : (State.boot ι disk).waiters i = 0 := refCount_none i
      rw [references, hwaiters]
      rfl
    rw [hrefs]
    rfl
  unique := fun i j b hi => absurd hi.1 (show ¬ 0 = ROOTDEV by decide)

/-- In every state of a run of `bread`, `bwrite`, `brelse`, `bpin` and `bunpin`
in any order, the links are a circular list of all the buffers, the counts are
those of the references, a block of `ROOTDEV` has at most one buffer, and the
next action binds no buffer with references to another block and recycles the
unreferenced buffer that was freed first. -/
theorem bcache_representation {disk : Nat → Block} {as : List (Act ι (Fin NBUF))}
    {s : State ι (Fin NBUF)} (hrun : (bcache ι (Fin NBUF)).run (State.boot ι disk) as = some s) :
    (∃ xs, s.links.Represents xs ∧ ∀ i, i ∈ xs) ∧
    (∀ i, (s.buf i).refcnt = BitVec.ofNat 32 (s.holders i + s.waiters i + s.pins i)) ∧
    (∀ i j b, s.Bound i b → s.Bound j b → i = j) ∧
    (∀ a t i, s.step a = some t → (s.buf i).refcnt ≠ 0 →
      (t.buf i).dev = (s.buf i).dev ∧ (t.buf i).blockno = (s.buf i).blockno) ∧
    ∀ p b t i, s.step (.bget p b) = some t → t.call p = .waiting b i → (∀ j, ¬ s.Bound j b) →
      t.Bound i b ∧ (s.buf i).refcnt = 0 ∧
        ∀ j, (s.buf j).refcnt = 0 → j ≠ i → s.freed i < s.freed j := by
  have hinv : Inv s := (bcache ι (Fin NBUF)).run_invariant (I := Inv) (fun _ _ _ h => h.step)
    (inv_boot disk) hrun
  obtain ⟨xs, hlisted⟩ := hinv.listed
  exact ⟨⟨xs, hlisted.represents, hlisted.all⟩, hinv.counted, hinv.unique,
    fun a t i hstep => hinv.keeps_binding hstep, fun p b t i hstep => hinv.recycles hstep⟩

/-- `bcache.buf[0]`, the first buffer that `bget` recycles. -/
def buf0 : Fin NBUF := ⟨0, by decide⟩

/-- Two processes read block 5 at the same time, one of them pins it, and both
release it. -/
def sharedBlock : List (Act (Fin 2) (Fin NBUF)) :=
  [.bget 0 5, .acquiresleep 0, .bread 0, .bget 1 5, .bpin buf0, .releasesleep 0 buf0,
    .acquiresleep 1, .brelse 0, .bread 1, .bwrite 1 buf0, .releasesleep 1 buf0, .brelse 1,
    .bunpin buf0]

theorem representation_of_sharedBlock :
    ∃ s, (bcache (Fin 2) (Fin NBUF)).run (State.boot (Fin 2) fun _ _ => 0) sharedBlock = some s ∧
      s.Bound buf0 5 ∧ (s.buf buf0).refcnt = 0 ∧ (∃ xs, s.links.Represents xs ∧ ∀ i, i ∈ xs) ∧
      ∀ j, s.Bound j 5 → j = buf0 := by
  have hsome : ((bcache (Fin 2) (Fin NBUF)).run (State.boot (Fin 2) fun _ _ => 0)
      sharedBlock).isSome := by decide +kernel
  obtain ⟨s, hs⟩ := Option.isSome_iff_exists.mp hsome
  have hbuf : ((bcache (Fin 2) (Fin NBUF)).run (State.boot (Fin 2) fun _ _ => 0)
      sharedBlock).map (fun s => (decide (s.Bound buf0 5), (s.buf buf0).refcnt)) =
        some (true, 0) := by decide +kernel
  rw [hs] at hbuf
  obtain ⟨hdec, hcount⟩ := Prod.mk.inj (Option.some.inj hbuf)
  have hrep := bcache_representation hs
  have hbound : s.Bound buf0 5 := of_decide_eq_true hdec
  exact ⟨s, hs, hbound, hcount, hrep.1, fun j hj => hrep.2.2.1 j buf0 5 hj hbound⟩

end

/-! ## The list of the block layer -/

/-- The loops of `bget` and the assignments of `brelse` on links that represent
the list of `Bio.Defs` do what is said there of the list. -/
theorem blockLayer_list {ι κ : Type} [DecidableEq κ] (s : Bio.BState ι κ) {l : Links κ}
    (h : l.Represents s.lru) (n : Nat) :
    (∀ b, l.findNext (fun i => (s.buf i).dev = ROOTDEV ∧ (s.buf i).blockno = b)
      (s.lru.length + n + 1) = s.cached b) ∧
    l.findPrev (fun i => (s.buf i).refcnt = 0) (s.lru.length + n + 1) = s.unused ∧
    ∀ i ∈ s.lru, (s.buf i).refcnt - 1 = 0 →
      ((l.unlink i).pushFront i).Represents (s.dropRef i).lru := by
  have hfuel : s.lru.length < s.lru.length + n + 1 := by omega
  refine ⟨fun b => h.findNext hfuel, h.findPrev hfuel, fun i hi hzero => ?_⟩
  have hlru : (s.dropRef i).lru = i :: s.lru.erase i := by
    rw [Bio.BState.dropRef, if_pos hzero]
  rw [hlru]
  exact h.moveFront hi

/-- After the boot, with block 5 in the first buffer and one reference to it. -/
def oneReader : Bio.BState Bool (Fin NBUF) :=
  (Bio.BState.booted (fun _ _ => 0) 2 LOGSIZE).setBuf buf0
    { valid := true, dev := ROOTDEV, blockno := 5, holder := none, refcnt := 1
      data := fun _ => 0, dirty := false }

/-- The scans find the buffer of the block and, from the end, the next one, and
the last reader moves its buffer to the front. -/
theorem blockLayer_list_oneReader :
    (binit (finRange NBUF)).findNext (fun i => (oneReader.buf i).dev = ROOTDEV ∧
      (oneReader.buf i).blockno = 5) (NBUF + 1) = some buf0 ∧
    ((binit (finRange NBUF)).findPrev (fun i => (oneReader.buf i).refcnt = 0)
      (NBUF + 1)).map Fin.val = some 1 ∧
    (((binit (finRange NBUF)).unlink buf0).pushFront buf0).Represents
      (oneReader.dropRef buf0).lru := by
  obtain ⟨hnext, hprev, hmove⟩ := blockLayer_list oneReader binit_represents 0
  refine ⟨(hnext 5).trans (by decide), ?_, hmove buf0 (by decide) (by decide)⟩
  exact (congrArg (Option.map Fin.val) hprev).trans (by decide)

end SummerOsk.Bcache
