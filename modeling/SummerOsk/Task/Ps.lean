import SummerOsk.Sched.Defs
import SummerOsk.Vm.Uvmcopy
import SummerOsk.Vm.User

/-!
# What `ps` copies to user space

`kps` of `kernel/proc.c` fills a `struct pinfo` on the kernel stack and copies
all of it to the user.  The loop sets one entry for each slot of the process
table that is in use; the entries after them and, in each entry, the bytes after
the end of the name keep what was on the stack.

`kps_discloses_iff` says for which tables and destinations nothing of the stack
reaches the user.  A slot is what `kps` sees of it while it holds its lock.
-/

namespace SummerOsk.Ps

open Lib Vm Sched Function List Option

variable {us : List Slot} {o i b : Nat}

/-! ## The program -/

def MAX_PROC : Nat := 64

/-- The fields of a `struct proc` that `kps` reads. -/
structure Slot where
  state : ProcState
  pid : Int
  sz : Nat
  /-- `char name[16]` -/
  name : Bytes

/-- `sizeof(struct pdata)`: a pid, a size and a name. -/
def pdataSize : Nat := 4 + 4 + 16

/-- The offset of `kpi.proc[i]`, after `kpi.count`. -/
def pdataOffset (i : Nat) : Nat := 4 + pdataSize * i

/-- `sizeof(struct pinfo)` -/
def pinfoSize : Nat := 4 + pdataSize * MAX_PROC

/-- The assignments to `kpi.proc[i]`. -/
def fillPdata (kpi : Bytes) (i : Nat) (p : Slot) : Bytes :=
  let kpi := putInt kpi (pdataOffset i) 4 p.pid
  let kpi := putLE kpi (pdataOffset i + 4) 4 p.sz
  safestrcpy kpi (pdataOffset i + 8) p.name 0 16

/-- The loop of `kps`, with the slots that are left. -/
def kpsLoop : List Slot → Bytes → Nat → Bytes × Nat
  | [], kpi, i => (kpi, i)
  | p :: ps, kpi, i =>
    if p.state ≠ .unused then kpsLoop ps (fillPdata kpi i p) (i + 1) else kpsLoop ps kpi i

/-- `kpi` when it is copied, over what was on the stack. -/
def fillPinfo (proc : Fin NPROC → Slot) (stack : Bytes) : Bytes :=
  let (kpi, i) := kpsLoop ((List.finRange NPROC).map proc) stack 0
  putLE kpi 0 4 i

/-- `kps`, for the page table of the caller. -/
def kps (proc : Fin NPROC → Slot) (stack : Bytes) (pagetable piaddr : Nat) : VmM Unit := do
  let _ ← copyout pagetable piaddr (getBytes (fillPinfo proc stack) 0 pinfoSize)
  return ()

/-! ## `safestrcpy` -/

/-- The bytes that `safestrcpy` stores: the string, a NUL, and a second NUL if
there is room. -/
def strBytes (t : Bytes) (i : Nat) : Nat → List UInt8
  | 0 => []
  | 1 => [0]
  | n + 2 => if t i ≠ 0 then t i :: strBytes t (i + 1) (n + 1) else [0, 0]

theorem strBytes_length_le (t : Bytes) (i n : Nat) : (strBytes t i n).length ≤ n := by
  induction n generalizing i with
  | zero => exact Nat.le_refl 0
  | succ n ih =>
    cases n with
    | zero => exact Nat.le_refl 1
    | succ n =>
      rw [strBytes]
      split_ifs
      · have := ih (i + 1)
        rw [length_cons]
        omega
      · rw [length_cons, length_singleton]
        omega

theorem safestrcpy_eq (d : Bytes) (o : Nat) (t : Bytes) (i n : Nat) :
    safestrcpy d o t i n = putBytes d o (strBytes t i n) := by
  induction n generalizing d o i with
  | zero => rw [safestrcpy, strBytes, putBytes_nil]
  | succ n ih =>
    cases n with
    | zero => rw [safestrcpy, strBytes, putBytes_cons, putBytes_nil]
    | succ n =>
      rw [safestrcpy, strBytes]
      by_cases ht : t i ≠ 0
      · rw [if_pos ht, if_pos ht, ih, putBytes_cons]
      · rw [if_neg ht, if_neg ht, putBytes_cons, putBytes_cons, putBytes_nil, not_not.mp ht]

/-- A string is not longer than its copy, and its first NUL is in the copy. -/
theorem takeWhile_strBytes (t : Bytes) (i n : Nat) :
    (strBytes t i (n + 1)).takeWhile (· ≠ 0) = (getBytes t i n).takeWhile (· ≠ 0) := by
  induction n generalizing i with
  | zero => rfl
  | succ n ih =>
    have hcons : getBytes t i (n + 1) = t i :: getBytes t (i + 1) n := by
      rw [getBytes, range_succ_eq_map, map_cons, List.map_map, Nat.add_zero, getBytes]
      congr 1
      apply map_congr_left
      intro j _
      show t (i + (j + 1)) = t (i + 1 + j)
      congr 1
      omega
    rw [strBytes, hcons]
    by_cases ht : t i = 0
    · rw [if_neg (by simpa using ht), ht, takeWhile_cons_of_neg (by decide),
        takeWhile_cons_of_neg (by decide)]
    · rw [if_pos ht, takeWhile_cons_of_pos (by simpa using ht),
        takeWhile_cons_of_pos (by simpa using ht), ih]

/-! ## The bytes of the structure -/

/-- The bytes of the entry of a slot that the loop sets. -/
def Slot.bytes (p : Slot) : List UInt8 :=
  getBytes (putInt (fun _ => 0) 0 4 p.pid) 0 4 ++ getBytes (putLE (fun _ => 0) 0 4 p.sz) 0 4 ++
    strBytes p.name 0 16

theorem Slot.bytes_length_le (p : Slot) : p.bytes.length ≤ pdataSize := by
  have := strBytes_length_le p.name 0 16
  simp only [bytes, length_append, getBytes_length, pdataSize]
  omega

/-- A store of a list is a store of each of its parts. -/
theorem putBytes_append (d : Bytes) (o : Nat) (bs cs : List UInt8) :
    putBytes d o (bs ++ cs) = putBytes (putBytes d o bs) (o + bs.length) cs := by
  induction bs generalizing d o with
  | nil => rw [putBytes_nil, nil_append, length_nil, Nat.add_zero]
  | cons x bs ih =>
    rw [cons_append, putBytes_cons, putBytes_cons, ih, length_cons]
    congr 1
    omega

theorem putLE_eq_putBytes (d : Bytes) (o w x : Nat) :
    putLE d o w x = putBytes d o (getBytes (putLE (fun _ => 0) 0 w x) 0 w) := by
  funext i
  by_cases hi : o ≤ i ∧ i < o + w
  · rw [putBytes_of_mem _ _ hi.1 (by rw [getBytes_length]; omega), getBytes_getD (by omega),
      Nat.zero_add, putLE, putLE, if_pos hi, if_pos (by omega), Nat.sub_zero]
  · rw [putLE_of_not_mem _ _ (by omega), putBytes_of_not_mem _ _ (by rw [getBytes_length]; omega)]

theorem fillPdata_eq (kpi : Bytes) (i : Nat) (p : Slot) :
    fillPdata kpi i p = putBytes kpi (pdataOffset i) p.bytes := by
  have hpid : putInt kpi (pdataOffset i) 4 p.pid =
      putBytes kpi (pdataOffset i) (getBytes (putInt (fun _ => 0) 0 4 p.pid) 0 4) :=
    putLE_eq_putBytes _ _ _ _
  rw [fillPdata, hpid, putLE_eq_putBytes _ (pdataOffset i + 4), safestrcpy_eq, Slot.bytes,
    putBytes_append, putBytes_append]
  simp only [length_append, getBytes_length]

/-- The slots in use. -/
def used (ps : List Slot) : List Slot := ps.filter fun p => p.state ≠ .unused

/-- The byte at offset `b` of the entries, if the loop sets it. -/
def entryByte (us : List Slot) (b : Nat) : Option UInt8 :=
  us[b / pdataSize]?.bind fun p => p.bytes[b % pdataSize]?

theorem kpsLoop_count (ps : List Slot) (kpi : Bytes) (i : Nat) :
    (kpsLoop ps kpi i).2 = i + (used ps).length := by
  induction ps generalizing kpi i with
  | nil => rfl
  | cons p ps ih =>
    rw [kpsLoop, used]
    by_cases hp : p.state ≠ .unused
    · rw [if_pos hp, ih, filter_cons_of_pos (by simpa using hp), length_cons, used]
      omega
    · rw [if_neg hp, ih, filter_cons_of_neg (by simpa using hp), used]

/-- What the loop leaves at each offset. -/
theorem kpsLoop_apply (ps : List Slot) (kpi : Bytes) (i o : Nat) :
    (kpsLoop ps kpi i).1 o =
      if pdataOffset i ≤ o then (entryByte (used ps) (o - pdataOffset i)).getD (kpi o)
      else kpi o := by
  induction ps generalizing kpi i with
  | nil =>
    split_ifs <;> rfl
  | cons p ps ih =>
    rw [kpsLoop]
    by_cases hp : p.state ≠ .unused
    · have hus : used (p :: ps) = p :: used ps := filter_cons_of_pos (by simpa using hp)
      have hlen := p.bytes_length_le
      rw [if_pos hp, ih, hus, fillPdata_eq]
      have hnext : pdataOffset (i + 1) = pdataOffset i + pdataSize := by
        unfold pdataOffset
        rw [Nat.mul_add, Nat.mul_one, Nat.add_assoc]
      rw [hnext]
      have hpos : 0 < pdataSize := by decide
      by_cases hlo : pdataOffset i ≤ o
      · rw [if_pos hlo]
        by_cases hhi : pdataOffset i + pdataSize ≤ o
        · -- an entry after this one
          have hoff : o - pdataOffset i = o - (pdataOffset i + pdataSize) + pdataSize := by omega
          have hdiv : (o - pdataOffset i) / pdataSize =
              (o - (pdataOffset i + pdataSize)) / pdataSize + 1 := by
            rw [hoff, Nat.add_div_right _ hpos]
          have hmod : (o - pdataOffset i) % pdataSize =
              (o - (pdataOffset i + pdataSize)) % pdataSize := by
            rw [hoff, Nat.add_mod_right]
          rw [if_pos hhi, putBytes_of_not_mem _ _ (by omega), entryByte, entryByte, hdiv, hmod,
            getElem?_cons_succ]
        · -- this entry
          have hdiv : (o - pdataOffset i) / pdataSize = 0 := Nat.div_eq_of_lt (by omega)
          have hmod : (o - pdataOffset i) % pdataSize = o - pdataOffset i :=
            Nat.mod_eq_of_lt (by omega)
          rw [if_neg hhi, entryByte, hdiv, hmod, getElem?_cons_zero, bind_some]
          by_cases hin : o - pdataOffset i < p.bytes.length
          · rw [putBytes_of_mem _ _ hlo (by omega), getElem?_eq_getElem hin,
              getD_eq_getElem _ _ hin, getD_some]
          · rw [putBytes_of_not_mem _ _ (by omega), getElem?_eq_none (by omega), getD_none]
      · rw [if_neg hlo, if_neg (by omega), putBytes_of_not_mem _ _ (by omega)]
    · have hus : used (p :: ps) = used ps := filter_cons_of_neg (by simpa using hp)
      rw [if_neg hp, ih, hus]

/-! ## What is set -/

/-- The slots in use of a process table, in order. -/
def usedSlots (proc : Fin NPROC → Slot) : List Slot := used ((List.finRange NPROC).map proc)

/-- The byte at an offset of the structure, if `kps` sets it. -/
def pinfoByte (us : List Slot) (o : Nat) : Option UInt8 :=
  if o < 4 then some (putLE (fun _ => 0) 0 4 us.length o) else entryByte us (o - 4)

theorem fillPinfo_apply (proc : Fin NPROC → Slot) (stack : Bytes) (o : Nat) :
    fillPinfo proc stack o = (pinfoByte (usedSlots proc) o).getD (stack o) := by
  have hfill : fillPinfo proc stack = putLE (kpsLoop ((finRange NPROC).map proc) stack 0).1
      0 4 (kpsLoop ((finRange NPROC).map proc) stack 0).2 := rfl
  rw [hfill, kpsLoop_count, Nat.zero_add, pinfoByte]
  by_cases ho : o < 4
  · rw [if_pos ho, getD_some, putLE, putLE, if_pos (by omega), if_pos (by omega)]
    rfl
  · have hloop := kpsLoop_apply ((finRange NPROC).map proc) stack 0 o
    rw [if_pos (show pdataOffset 0 ≤ o by unfold pdataOffset; omega)] at hloop
    rw [if_neg ho, putLE_of_not_mem _ _ (by omega), hloop]
    rfl

/-- The length of a name, as `safestrcpy` sees it. -/
def Slot.strlen (p : Slot) : Nat := ((getBytes p.name 0 15).takeWhile (· ≠ 0)).length

theorem strBytes_length (t : Bytes) (i n : Nat) : (strBytes t i (n + 1)).length =
    min (n + 1) (((strBytes t i (n + 1)).takeWhile (· ≠ 0)).length + 2) := by
  induction n generalizing i with
  | zero => rfl
  | succ n ih =>
    rw [strBytes]
    by_cases ht : t i = 0
    · rw [if_neg (by simpa using ht), takeWhile_cons_of_neg (by decide)]
      simp
    · rw [if_pos ht, takeWhile_cons_of_pos (by simpa using ht), length_cons, length_cons, ih]
      omega

theorem Slot.bytes_length (p : Slot) : p.bytes.length = 8 + min 16 (p.strlen + 2) := by
  have hname := strBytes_length p.name 0 15
  rw [takeWhile_strBytes] at hname
  simp only [bytes, length_append, getBytes_length, hname, strlen]

/-- `kps` sets the byte at offset `o`: it belongs to the count, or to the entry of
a slot in use and there to the pid, the size, the name or the two bytes after
it. -/
def IsSet (us : List Slot) (o : Nat) : Prop :=
  o < 4 ∨ ∃ p, us[(o - 4) / pdataSize]? = some p ∧ (o - 4) % pdataSize < 8 + min 16 (p.strlen + 2)

theorem isSet_iff : IsSet us o ↔ pinfoByte us o ≠ none := by
  unfold IsSet pinfoByte entryByte
  by_cases ho : o < 4
  · rw [if_pos ho]
    exact iff_of_true (.inl ho) nofun
  · rw [if_neg ho, or_iff_right ho]
    cases hp : us[(o - 4) / pdataSize]? with
    | none =>
      refine iff_of_false ?_ (fun hne => hne rfl)
      rintro ⟨p, hp', -⟩
      cases hp'
    | some p =>
      rw [bind_some, Ne, List.getElem?_eq_none_iff, Nat.not_le, p.bytes_length]
      constructor
      · rintro ⟨q, hq, hlt⟩
        cases hq
        exact hlt
      · intro hlt
        exact ⟨p, rfl, hlt⟩

/-! ## The entries -/

/-- What `kps` reads of a slot in use. -/
def Slot.seen (p : Slot) : Int × Nat × List UInt8 := (p.pid, p.sz, getBytes p.name 0 16)

theorem strBytes_congr {t t' : Bytes} {n : Nat} (h : ∀ j < n, t (i + j) = t' (i + j)) :
    strBytes t i (n + 1) = strBytes t' i (n + 1) := by
  induction n generalizing i with
  | zero => rfl
  | succ n ih =>
    have hfirst : t i = t' i := h 0 (Nat.succ_pos n)
    have hrest : strBytes t (i + 1) (n + 1) = strBytes t' (i + 1) (n + 1) := by
      apply ih
      intro j hj
      rw [Nat.add_right_comm]
      exact h (j + 1) (by omega)
    rw [strBytes, strBytes, hfirst, hrest]

variable {p : Slot}

theorem Slot.bytes_of_seen {q : Slot} (h : p.seen = q.seen) : p.bytes = q.bytes := by
  obtain ⟨hpid, hrest⟩ := Prod.mk.inj h
  obtain ⟨hsz, hname⟩ := Prod.mk.inj hrest
  have hstr : strBytes p.name 0 16 = strBytes q.name 0 16 := by
    apply strBytes_congr
    intro j hj
    have hj' : j < 16 := by omega
    have hp := getBytes_getD (m := p.name) (o := 0) hj'
    have hq := getBytes_getD (m := q.name) (o := 0) hj'
    rw [← hp, ← hq, hname]
  rw [bytes, bytes, hpid, hsz, hstr]

theorem pinfoByte_of_seen {vs : List Slot} (h : us.map Slot.seen = vs.map Slot.seen) (o : Nat) :
    pinfoByte us o = pinfoByte vs o := by
  have hlen : us.length = vs.length := by
    have := congrArg List.length h
    rwa [length_map, length_map] at this
  have hentry : ∀ b, entryByte us b = entryByte vs b := by
    intro b
    have hb := congrArg (·[b / pdataSize]?) h
    simp only [getElem?_map] at hb
    unfold entryByte
    cases hu : us[b / pdataSize]? with
    | none =>
      rw [hu, map_none] at hb
      rw [map_eq_none_iff.mp hb.symm]
    | some p =>
      rw [hu, map_some] at hb
      obtain ⟨q, hq, hpq⟩ := map_eq_some_iff.mp hb.symm
      rw [hq, bind_some, bind_some, Slot.bytes_of_seen hpq]
  unfold pinfoByte
  rw [hlen, hentry]

variable {proc : Fin NPROC → Slot}

/-- The bytes of an entry stand in the structure. -/
theorem fillPinfo_entry (stack : Bytes) (hp : (usedSlots proc)[i]? = some p)
    (hb : b < p.bytes.length) : fillPinfo proc stack (pdataOffset i + b) = p.bytes.getD b 0 := by
  have hlt : b < pdataSize := Nat.lt_of_lt_of_le hb p.bytes_length_le
  have hpos : 0 < pdataSize := by decide
  have hoff : pdataOffset i + b - 4 = pdataSize * i + b := by
    unfold pdataOffset
    omega
  have hdiv : (pdataSize * i + b) / pdataSize = i := by
    rw [Nat.mul_add_div hpos, Nat.div_eq_of_lt hlt, Nat.add_zero]
  have hmod : (pdataSize * i + b) % pdataSize = b := by
    rw [Nat.mul_add_mod, Nat.mod_eq_of_lt hlt]
  rw [fillPinfo_apply, pinfoByte, if_neg (by unfold pdataOffset; omega), hoff, entryByte, hdiv,
    hmod, hp, bind_some, getElem?_eq_getElem hb, getD_some, getD_eq_getElem _ _ hb]

/-- The entry of a slot as the user reads it. -/
structure EntryOf (d : Bytes) (i : Nat) (p : Slot) : Prop where
  pid : getInt d (pdataOffset i) 4 = p.pid.bmod (2 ^ 32)
  sz : getLE d (pdataOffset i + 4) 4 = p.sz % 2 ^ 32
  name : (getBytes d (pdataOffset i + 8) 16).takeWhile (· ≠ 0) =
    (getBytes p.name 0 15).takeWhile (· ≠ 0)

theorem fillPinfo_eq_fillPdata (stack : Bytes) (hp : (usedSlots proc)[i]? = some p)
    (hb : b < p.bytes.length) :
    fillPinfo proc stack (pdataOffset i + b) = fillPdata (fun _ => 0) i p (pdataOffset i + b) := by
  rw [fillPinfo_entry stack hp hb, fillPdata_eq, putBytes_of_mem _ _ (by omega) (by omega),
    Nat.add_sub_cancel_left]

theorem entryOf_fillPinfo (stack : Bytes) (hp : (usedSlots proc)[i]? = some p) :
    EntryOf (fillPinfo proc stack) i p := by
  have hlen := p.bytes_length
  have hword : ∀ x, pdataOffset i ≤ x → x < pdataOffset i + 8 →
      fillPinfo proc stack x =
        putLE (putInt (fun _ => 0) (pdataOffset i) 4 p.pid) (pdataOffset i + 4) 4 p.sz x := by
    intro x hlo hhi
    have hx := fillPinfo_eq_fillPdata stack hp (show x - pdataOffset i < p.bytes.length by omega)
    rw [show pdataOffset i + (x - pdataOffset i) = x by omega] at hx
    rw [hx, fillPdata, safestrcpy_eq, putBytes_of_not_mem _ _ (by omega)]
  refine ⟨?_, ?_, ?_⟩
  · have hsame : getInt (fillPinfo proc stack) (pdataOffset i) 4 =
        getInt (putInt (fun _ => 0) (pdataOffset i) 4 p.pid) (pdataOffset i) 4 := by
      apply getInt_congr
      intro x hlo hhi
      rw [hword x hlo (by omega), putLE_of_not_mem _ _ (by omega)]
    rw [hsame, getInt_putInt]
    rfl
  · have hsame : getLE (fillPinfo proc stack) (pdataOffset i + 4) 4 =
        getLE (putLE (putInt (fun _ => 0) (pdataOffset i) 4 p.pid) (pdataOffset i + 4) 4 p.sz)
          (pdataOffset i + 4) 4 := by
      apply getLE_congr
      intro x hlo hhi
      exact hword x (by omega) (by omega)
    rw [hsame, getLE_putLE]
    rfl
  · -- the copy of the name ends with a NUL, so what comes after it does not matter
    have htw : ((strBytes p.name 0 16).takeWhile (· ≠ 0)).length = p.strlen := by
      rw [takeWhile_strBytes, Slot.strlen]
    have hstr : (strBytes p.name 0 16).length = min 16 (p.strlen + 2) := by
      rw [strBytes_length, htw]
    have hle : p.strlen ≤ 15 := by
      have := ( takeWhile_prefix (l := getBytes p.name 0 15) (· ≠ 0)).length_le
      rwa [getBytes_length] at this
    have hbytes : getBytes (fillPinfo proc stack) (pdataOffset i + 8) 16 =
        strBytes p.name 0 16 ++ getBytes (fillPinfo proc stack)
          (pdataOffset i + 8 + (strBytes p.name 0 16).length)
          (16 - (strBytes p.name 0 16).length) := by
      apply ext_getElem
      · rw [length_append, getBytes_length, getBytes_length]
        omega
      · intro j hj hj'
        by_cases hin : j < (strBytes p.name 0 16).length
        · have hentry := fillPinfo_entry stack hp (show 8 + j < p.bytes.length by omega)
          rw [getElem_append_left hin]
          simp only [getBytes, getElem_map, getElem_range]
          rw [Nat.add_assoc, hentry, Slot.bytes, getD_append_right _ _ _ _ (by simp)]
          simp only [length_append, getBytes_length]
          rw [show 8 + j - (4 + 4) = j by omega, getD_eq_getElem _ _ hin]
        · rw [getElem_append_right (by omega)]
          simp only [getBytes, getElem_map, getElem_range]
          congr 1
          omega
    rw [hbytes, takeWhile_append, if_neg (by rw [htw]; omega), takeWhile_strBytes]

/-! ## The result -/

/-- `kps` shows the process table and nothing else: what it does to the memory of
the user follows from the pids, sizes and names of the slots in use, whatever is
on the stack, and the structure holds their number and one entry for each, in
order. -/
structure DisclosesTable (m : Mem) (pt piaddr : Nat) (proc : Fin NPROC → Slot) : Prop where
  same : ∀ proc' stack stack',
    (usedSlots proc').map Slot.seen = (usedSlots proc).map Slot.seen →
    kps proc' stack' pt piaddr m = kps proc stack pt piaddr m
  count : ∀ stack, getLE (fillPinfo proc stack) 0 4 = (usedSlots proc).length
  entries : ∀ stack i p, (usedSlots proc)[i]? = some p → EntryOf (fillPinfo proc stack) i p

theorem usedSlots_length_le (proc : Fin NPROC → Slot) : (usedSlots proc).length ≤ NPROC := by
  have hle := length_filter_le (fun p : Slot => decide (p.state ≠ .unused))
    ((finRange NPROC).map proc)
  rwa [length_map, length_finRange] at hle

theorem count_fillPinfo (proc : Fin NPROC → Slot) (stack : Bytes) :
    getLE (fillPinfo proc stack) 0 4 = (usedSlots proc).length := by
  have hsame : getLE (fillPinfo proc stack) 0 4 =
      getLE (putLE (fun _ => 0) 0 4 (usedSlots proc).length) 0 4 := by
    apply getLE_congr
    intro o _ ho
    rw [fillPinfo_apply, pinfoByte, if_pos (by omega), getD_some]
  have hle := usedSlots_length_le proc
  unfold NPROC at hle
  rw [hsame, getLE_putLE]
  omega

variable {m m1 m2 : Mem} {pt va : Nat}

theorem kps_run (h : UserTable m pt) (proc : Fin NPROC → Slot) (stack : Bytes) (va : Nat) :
    ∃ r k m', kps proc stack pt va m = .ok ((), m') ∧
      CopiedOut m m' pt va (getBytes (fillPinfo proc stack) 0 pinfoSize) r k := by
  unfold kps
  generalize getBytes (fillPinfo proc stack) 0 pinfoSize = src
  have hspec : wp (copyout pt va src) m _ _ := h.copyout
  obtain ⟨r, m', hrun, k, hc⟩ := wp_returns hspec
  refine ⟨r, k, m', ?_, hc⟩
  rw [bind_of_ok hrun]
  rfl

/-- Every byte that reaches the user is set by `kps`. -/
def OnlySet (m : Mem) (pt va : Nat) (us : List Slot) : Prop :=
  ∀ o < pinfoSize, (∀ j ≤ o, m.user pt (va + j) ≠ none) → IsSet us o

theorem discloses_of_onlySet (h : UserTable m pt)
    (hset : OnlySet m pt va (usedSlots proc)) : DisclosesTable m pt va proc := by
  refine ⟨?_, count_fillPinfo proc, fun stack i p hp => entryOf_fillPinfo stack hp⟩
  intro proc' stack stack' hseen
  obtain ⟨r1, k1, m1, hrun1, hc1⟩ := kps_run h proc' stack' va
  obtain ⟨r2, k2, m2, hrun2, hc2⟩ := kps_run h proc stack va
  have heq : m1 = m2 := by
    apply hc1.unique hc2
    · rw [getBytes_length, getBytes_length]
    · intro j hj
      have hle := hc1.le
      rw [getBytes_length] at hle
      have hset' := hset j (by omega) fun i hi => hc1.written.user_ne_none (by
        rw [length_take, getBytes_length]
        omega)
      rw [isSet_iff] at hset'
      rw [getBytes_getD (by omega), getBytes_getD (by omega), Nat.zero_add, fillPinfo_apply,
        fillPinfo_apply, pinfoByte_of_seen hseen]
      cases hbyte : pinfoByte (usedSlots proc) j with
      | none => exact absurd hbyte hset'
      | some x => rfl
  rw [hrun1, hrun2, heq]

/-- A byte that is not set is the one that was on the stack. -/
theorem user_of_not_set {x : UInt8} {m' : Mem} (h : UserTable m pt) (ho : o < pinfoSize)
    (huser : ∀ j ≤ o, m.user pt (va + j) ≠ none) (hset : ¬ IsSet (usedSlots proc) o)
    (hrun : kps proc (fun _ => x) pt va m = .ok ((), m')) : m'.user pt (va + o) = some x := by
  rw [isSet_iff, not_not] at hset
  obtain ⟨r, k, m'', hrun', hc⟩ := kps_run h proc (fun _ => x) va
  rw [hrun] at hrun'
  cases hrun'
  have hk : o < k := by
    by_contra hge
    rcases hc.result with ⟨-, hlen⟩ | ⟨-, -, hnone⟩
    · rw [getBytes_length] at hlen
      omega
    · exact huser k (by omega) hnone
  have hin := hc.written.inside o (by
    rw [length_take, getBytes_length]
    omega)
  rw [hin, getD_eq_getElem?_getD, getElem?_take_of_lt hk, ← getD_eq_getElem?_getD,
    getBytes_getD ho, Nat.zero_add, fillPinfo_apply, hset]
  rfl

/-- The user can tell two stacks apart. -/
theorem kps_shows_stack (h : UserTable m pt) (ho : o < pinfoSize)
    (huser : ∀ j ≤ o, m.user pt (va + j) ≠ none) (hset : ¬ IsSet (usedSlots proc) o) :
    kps proc (fun _ => 0) pt va m ≠ kps proc (fun _ => 1) pt va m := by
  intro hsame
  obtain ⟨r, k, m', hrun, -⟩ := kps_run h proc (fun _ => 0) va
  have hzero := user_of_not_set h ho huser hset hrun
  rw [user_of_not_set h ho huser hset (hsame ▸ hrun)] at hzero
  cases hzero

/-- `kps` shows nothing but the process table exactly if every byte that it
copies is one that it has set. -/
theorem kps_discloses_iff (h : UserTable m pt) (va : Nat) (proc : Fin NPROC → Slot) :
    DisclosesTable m pt va proc ↔ OnlySet m pt va (usedSlots proc) := by
  refine ⟨fun hd o ho huser => ?_, discloses_of_onlySet h⟩
  by_contra hset
  exact kps_shows_stack h ho huser hset (hd.same proc (fun _ => 1) (fun _ => 0) rfl)

/-! ## A destination that can be written to its end -/

theorem usedSlots_of_full (h : ∀ i, (proc i).state ≠ .unused) :
    usedSlots proc = (finRange NPROC).map proc := by
  apply filter_eq_self.mpr
  intro p hp
  obtain ⟨i, -, rfl⟩ := mem_map.mp hp
  simpa using h i

theorem getElem?_usedSlots (h : ∀ i, (proc i).state ≠ .unused) {j : Nat}
    (hj : j < NPROC) : (usedSlots proc)[j]? = some (proc ⟨j, hj⟩) := by
  rw [usedSlots_of_full h, getElem?_map, getElem?_eq_getElem (by simpa using hj),
    getElem_finRange, map_some]
  rfl

theorem full_of_last (h : (usedSlots proc)[NPROC - 1]? = some p)
    (i : Fin NPROC) : (proc i).state ≠ .unused := by
  obtain ⟨hlt, -⟩ := List.getElem?_eq_some_iff.mp h
  have hall : usedSlots proc = (finRange NPROC).map proc := by
    refine filter_sublist.eq_of_length_le ?_
    exact Nat.le_of_pred_lt hlt
  have hi : proc i ∈ usedSlots proc := by
    rw [hall]
    exact mem_map_of_mem (mem_finRange i)
  simpa using (mem_filter.mp hi).2

/-- All slots are in use and all names have 14 characters or more. -/
theorem onlySet_iff_full (hopen : ∀ j < pinfoSize, m.user pt (va + j) ≠ none) :
    OnlySet m pt va (usedSlots proc) ↔
      ∀ i, (proc i).state ≠ .unused ∧ 14 ≤ (proc i).strlen := by
  constructor
  · intro hset
    have hlast : ∀ i < NPROC, IsSet (usedSlots proc) (pdataOffset i + 23) := by
      intro i hi
      have ho : pdataOffset i + 23 < pinfoSize := by
        unfold pdataOffset pinfoSize pdataSize MAX_PROC NPROC at *
        omega
      exact hset _ ho fun j hj => hopen j (by omega)
    have hentry : ∀ i < NPROC, ∃ p, (usedSlots proc)[i]? = some p ∧ 14 ≤ p.strlen := by
      intro i hi
      have hdiv : (pdataOffset i + 23 - 4) / pdataSize = i := by
        unfold pdataOffset pdataSize
        omega
      have hmod : (pdataOffset i + 23 - 4) % pdataSize = 23 := by
        unfold pdataOffset pdataSize
        omega
      rcases hlast i hi with hlt | ⟨p, hp, hlt⟩
      · omega
      · rw [hdiv] at hp
        exact ⟨p, hp, by omega⟩
    obtain ⟨p, hp, -⟩ := hentry (NPROC - 1) (by decide)
    have hfull := full_of_last hp
    intro i
    obtain ⟨q, hq, hlen⟩ := hentry i i.isLt
    rw [getElem?_usedSlots hfull i.isLt, Option.some.injEq] at hq
    subst hq
    exact ⟨hfull i, hlen⟩
  · intro hfull o ho _
    by_cases hcount : o < 4
    · exact .inl hcount
    · have hj : (o - 4) / pdataSize < NPROC := by
        unfold pinfoSize pdataSize MAX_PROC NPROC at *
        omega
      refine .inr ⟨_, getElem?_usedSlots (fun i => (hfull i).1) hj, ?_⟩
      have hlen := (hfull ⟨(o - 4) / pdataSize, hj⟩).2
      unfold pdataSize at *
      omega

/-! ## One page of user memory -/

/-- Where the page of `onePage` is. -/
def onePagePa (n : Nat) : Nat :=
  match onePage (freshMem n) with
  | .ok ((pt, _), m) => m.userPa pt 0
  | .error _ => 0

/-- An address space in which the first page can be written. -/
theorem onePage_user : ∃ m pt new, onePage (freshMem 8) = .ok ((pt, new), m) ∧ UserTable m pt ∧
    ∀ j < PGSIZE, m.user pt (0 + j) ≠ none := by
  obtain ⟨⟨pt, new⟩, m, hrun, hspace, -, -⟩ :=
    wp_returns (onePage_spec (freshMem_free (by decide)) (by decide : 5 ≤ (freshMem 8).free.length))
  have hpa : onePagePa 8 ≠ 0 := by decide +kernel
  rw [onePagePa, hrun] at hpa
  refine ⟨m, pt, new, hrun, hspace.userTable nofun, fun j hj => ?_⟩
  have hdiv : (0 + j) / PGSIZE = 0 / PGSIZE := by
    rw [Nat.zero_add, Nat.div_eq_of_lt hj]
    rfl
  rwa [Ne, Mem.user_eq_none, Mem.userPa_congr hdiv]

/-- A table with 64 processes with names of 15 letters. -/
def crowd : Fin NPROC → Slot := fun i => ⟨.runnable, i + 1, 4096, fun _ => 97⟩

theorem kps_discloses_crowd : ∃ m pt new, onePage (freshMem 8) = .ok ((pt, new), m) ∧
    DisclosesTable m pt 0 crowd := by
  obtain ⟨m, pt, new, hrun, htable, huser⟩ := onePage_user
  refine ⟨m, pt, new, hrun, (kps_discloses_iff htable 0 crowd).mpr ?_⟩
  rw [onlySet_iff_full fun j hj => huser j (by unfold PGSIZE; exact lt_trans hj (by decide))]
  intro i
  refine ⟨nofun, ?_⟩
  show 14 ≤ ((getBytes (fun _ => 97) 0 15).takeWhile (· ≠ 0)).length
  decide

/-- A table with one process, `init`. -/
def onlyInit : Fin NPROC → Slot := fun i =>
  if i.val = 0 then ⟨.sleeping, 1, 4096, fun j => [105, 110, 105, 116].getD j 0⟩
  else ⟨.unused, 0, 0, fun _ => 0⟩

/-- With a single process, `kps` copies 63 entries of the stack. -/
theorem kps_shows_stack_of_onlyInit : ∃ m pt new,
    onePage (freshMem 8) = .ok ((pt, new), m) ∧ UserTable m pt ∧
      kps onlyInit (fun _ => 0) pt 0 m ≠ kps onlyInit (fun _ => 1) pt 0 m := by
  obtain ⟨m, pt, new, hrun, htable, huser⟩ := onePage_user
  refine ⟨m, pt, new, hrun, htable, kps_shows_stack (o := 100) htable (by decide) ?_ ?_⟩
  · exact fun j hj => huser j (by unfold PGSIZE; omega)
  · rintro (hlt | ⟨p, hp, -⟩)
    · omega
    · obtain ⟨hlt, -⟩ := List.getElem?_eq_some_iff.mp hp
      revert hlt
      decide

end SummerOsk.Ps
