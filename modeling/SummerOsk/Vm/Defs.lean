import SummerOsk.Stop
import SummerOsk.Lib.Bytes
import SummerOsk.Lib.Wp
import Mathlib.Data.List.FinRange

/-!
# Physical pages and page tables

`kernel/kalloc.c` and the user half of `kernel/vm.c`, with what they and others use
of `kernel/string.c`.  Physical memory is a
family of pages by their address.  The free list is a list of pages next to the
memory: the code links it through the first word of each free page, which
nothing but `kalloc` and `kfree` touches.

A pointer to a page table entry is the page it lies in and its index there.
`uint64` arithmetic is written with `% 2 ^ 64` where it can wrap.
-/

namespace SummerOsk.Vm

open Lib Function

/-! ## The constants of `riscv.h` and `memlayout.h` -/

def PGSIZE : Nat := 4096

/-- One beyond the highest virtual address. -/
def MAXVA : Nat := 2 ^ 38

def TRAMPOLINE : Nat := MAXVA - PGSIZE
def TRAPFRAME : Nat := TRAMPOLINE - PGSIZE

def KERNBASE : Nat := 0x80000000
def PHYSTOP : Nat := KERNBASE + 128 * 1024 * 1024

def PTE_V : Nat := 1
def PTE_R : Nat := 2
def PTE_W : Nat := 4
def PTE_X : Nat := 8
def PTE_U : Nat := 16

/-- `PGROUNDUP(sz)` -/
def pgroundup (sz : Nat) : Nat := (sz + PGSIZE - 1) % 2 ^ 64 / PGSIZE * PGSIZE

/-- `PGROUNDDOWN(a)` -/
def pgrounddown (a : Nat) : Nat := a / PGSIZE * PGSIZE

/-- `PA2PTE(pa)` -/
def pa2pte (pa : Nat) : Nat := pa / 2 ^ 12 * 2 ^ 10

/-- `PTE2PA(pte)` -/
def pte2pa (pte : Nat) : Nat := pte / 2 ^ 10 * 2 ^ 12 % 2 ^ 64

/-- `PTE_FLAGS(pte)` -/
def pteFlags (pte : Nat) : Nat := pte % 2 ^ 10

/-- `PX(level, va)` -/
def px (level va : Nat) : Fin 512 := Fin.ofNat 512 (va / 2 ^ (12 + 9 * level))

/-! ## Memory -/

/-- Physical memory, `kmem.freelist` and the address `end`. -/
structure Mem where
  page : Nat → Bytes
  free : List Nat
  kend : Nat

abbrev VmM (α : Type) : Type := Prog Stop Mem α

def panic {α : Type} (msg : String) : VmM α := throw (.panic msg)

def Mem.setPage (m : Mem) (p : Nat) (x : Bytes) : Mem :=
  { m with page := update m.page p x }

/-- The page table entry `i` of the page `t`. -/
@[irreducible] def Mem.pte (m : Mem) (t : Nat) (i : Fin 512) : Nat := getLE (m.page t) (8 * i) 8

def Mem.setPte (m : Mem) (t : Nat) (i : Fin 512) (e : Nat) : Mem :=
  m.setPage t (putLE (m.page t) (8 * i) 8 e)

/-- `safestrcpy(s, t, n)`, with `s` and `t` at the offsets `o` and `i`. -/
def safestrcpy (d : Bytes) (o : Nat) (t : Bytes) (i : Nat) : Nat → Bytes
  | 0 => d
  | 1 => update d o 0
  | n + 2 =>
    if t i ≠ 0 then safestrcpy (update d o (t i)) (o + 1) t (i + 1) (n + 1)
    else update (update d o (t i)) (o + 1) 0

/-- `memset(p, v, PGSIZE)` -/
def memset (p : Nat) (v : UInt8) : VmM Unit := modify fun m => m.setPage p fun _ => v

def loadPte (q : Nat × Fin 512) : VmM Nat := do return (← get).pte q.1 q.2

def storePte (q : Nat × Fin 512) (e : Nat) : VmM Unit := modify fun m => m.setPte q.1 q.2 e

/-- `kalloc`. -/
def kalloc : VmM (Option Nat) := do
  let m ← get
  match m.free with
  | [] => return none
  | r :: rest =>
    set { m with free := rest }
    memset r 5
    return some r

/-- `kfree`. -/
def kfree (pa : Nat) : VmM Unit := do
  let m ← get
  if pa % PGSIZE ≠ 0 ∨ pa < m.kend ∨ PHYSTOP ≤ pa then panic "kfree"
  else
    memset pa 1
    modify fun m => { m with free := pa :: m.free }

/-! ## Page tables -/

/-- The loop of `walk`, and its last line. -/
def walkFrom (va : Nat) (alloc : Bool) : Nat → Nat → VmM (Option (Nat × Fin 512))
  | 0, t => return some (t, px 0 va)
  | level + 1, t => do
    let e ← loadPte (t, px (level + 1) va)
    if e &&& PTE_V ≠ 0 then walkFrom va alloc level (pte2pa e)
    else if alloc = false then return none
    else
      match ← kalloc with
      | none => return none
      | some p =>
        memset p 0
        storePte (t, px (level + 1) va) (pa2pte p ||| PTE_V)
        walkFrom va alloc level p

/-- `walk`. -/
def walk (pt va : Nat) (alloc : Bool) : VmM (Option (Nat × Fin 512)) :=
  if va ≥ MAXVA then panic "walk" else walkFrom va alloc 2 pt

/-- `walkaddr`. -/
def walkaddr (pt va : Nat) : VmM Nat := do
  if va ≥ MAXVA then return 0
  else
    match ← walk pt va false with
    | none => return 0
    | some q =>
      let e ← loadPte q
      if e &&& PTE_V = 0 then return 0
      else if e &&& PTE_U = 0 then return 0
      else return pte2pa e

/-- The pages from `a` to the top of the address space.  It bounds the loops
that go up from `a` through `walk`, which panics at the top. -/
def pagesFrom (a : Nat) : Nat := MAXVA / PGSIZE - a / PGSIZE

/-- The loop of `mappages`. -/
def mappagesLoop (pt last perm : Nat) : Nat → Nat → Nat → VmM Int
  | 0, _, _ => panic "walk"
  | n + 1, a, pa => do
    match ← walk pt a true with
    | none => return -1
    | some q =>
      let e ← loadPte q
      if e &&& PTE_V ≠ 0 then panic "remap"
      else
        storePte q (pa2pte pa ||| perm ||| PTE_V)
        if a = last then return 0
        else mappagesLoop pt last perm n (a + PGSIZE) ((pa + PGSIZE) % 2 ^ 64)

/-- The page of the last byte of a range, `PGROUNDDOWN(va + size - 1)`. -/
def lastPage (va size : Nat) : Nat := pgrounddown ((va + size + (2 ^ 64 - 1)) % 2 ^ 64)

/-- `mappages`. -/
def mappages (pt va size pa perm : Nat) : VmM Int :=
  mappagesLoop pt (lastPage va size) perm (pagesFrom va) (pgrounddown va) pa

/-- The loop of `uvmunmap`. -/
def uvmunmapLoop (pt last : Nat) (doFree : Bool) : Nat → Nat → VmM Unit
  | 0, _ => panic "walk"
  | n + 1, a => do
    match ← walk pt a false with
    | none => panic "uvmunmap: walk"
    | some q =>
      let e ← loadPte q
      if e &&& PTE_V = 0 then panic "uvmunmap: not mapped"
      else if pteFlags e = PTE_V then panic "uvmunmap: not a leaf"
      else
        if doFree then kfree (pte2pa e)
        storePte q 0
        if a = last then return ()
        else uvmunmapLoop pt last doFree n (a + PGSIZE)

/-- `uvmunmap`. -/
def uvmunmap (pt va size : Nat) (doFree : Bool) : VmM Unit :=
  uvmunmapLoop pt (lastPage va size) doFree (pagesFrom va) (pgrounddown va)

/-- `uvmcreate`. -/
def uvmcreate : VmM Nat := do
  match ← kalloc with
  | none => panic "uvmcreate: out of memory"
  | some p =>
    memset p 0
    return p

/-- `uvmdealloc`. -/
def uvmdealloc (pt oldsz newsz : Nat) : VmM Nat := do
  if newsz ≥ oldsz then return oldsz
  else
    let newup := pgroundup newsz
    if newup < pgroundup oldsz then uvmunmap pt newup (oldsz - newup) true
    return newsz

/-- The loop of `uvmalloc`, from address `a` on; `oldsz` is rounded up. -/
def uvmallocLoop (pt oldsz newsz : Nat) : Nat → Nat → VmM Nat
  | 0, _ => panic "walk"
  | n + 1, a => do
    if a < newsz then
      match ← kalloc with
      | none =>
        let _ ← uvmdealloc pt a oldsz
        return 0
      | some mem =>
        memset mem 0
        if (← mappages pt a PGSIZE mem (PTE_W ||| PTE_X ||| PTE_R ||| PTE_U)) ≠ 0 then
          kfree mem
          let _ ← uvmdealloc pt a oldsz
          return 0
        else uvmallocLoop pt oldsz newsz n (a + PGSIZE)
    else return newsz

/-- `uvmalloc`. -/
def uvmalloc (pt oldsz newsz : Nat) : VmM Nat :=
  if newsz < oldsz then return oldsz
  else uvmallocLoop pt (pgroundup oldsz) newsz (pagesFrom (pgroundup oldsz) + 1) (pgroundup oldsz)

/-- The loop of `freewalk` over the entries that are left, and its last line.
`sub` frees a lower table. -/
def freewalkLoop (sub : Nat → VmM Unit) (t : Nat) : List (Fin 512) → VmM Unit
  | [] => kfree t
  | i :: rest => do
    let e ← loadPte (t, i)
    if e &&& PTE_V ≠ 0 ∧ e &&& (PTE_R ||| PTE_W ||| PTE_X) = 0 then
      sub (pte2pa e)
      storePte (t, i) 0
      freewalkLoop sub t rest
    else if e &&& PTE_V ≠ 0 then panic "freewalk: leaf"
    else freewalkLoop sub t rest

/-- `freewalk`, down to `depth` levels.  A table that goes deeper than the
kernel stack is a fault in kernel mode. -/
def freewalk : Nat → Nat → VmM Unit
  | 0, _ => panic "kerneltrap"
  | depth + 1, t => freewalkLoop (freewalk depth) t (List.finRange 512)

/-- `uvmfree`. -/
def uvmfree (pt sz : Nat) : VmM Unit := do
  uvmunmap pt 0 sz true
  freewalk 16 pt

/-- The loop of `uvmcopy`, from address `i` on. -/
def uvmcopyLoop (old new sz : Nat) : Nat → Nat → VmM Int
  | 0, _ => panic "walk"
  | n + 1, i => do
    if i < sz then
      match ← walk old i false with
      | none => panic "uvmcopy: pte should exist"
      | some q =>
        let e ← loadPte q
        if e &&& PTE_V = 0 then panic "uvmcopy: page not present"
        else
          match ← kalloc with
          | none =>
            uvmunmap new 0 i true
            return -1
          | some mem =>
            modify fun m => m.setPage mem (m.page (pte2pa e))
            if (← mappages new i PGSIZE mem (pteFlags e)) ≠ 0 then
              kfree mem
              uvmunmap new 0 i true
              return -1
            else uvmcopyLoop old new sz n (i + PGSIZE)
    else return 0

/-- `uvmcopy`. -/
def uvmcopy (old new sz : Nat) : VmM Int := uvmcopyLoop old new sz (MAXVA / PGSIZE + 1) 0

/-- `uvmclear`. -/
def uvmclear (pt va : Nat) : VmM Unit := do
  match ← walk pt va false with
  | none => panic "uvmclear"
  | some q =>
    let e ← loadPte q
    storePte q (e &&& (2 ^ 64 - 1 - PTE_U))

/-! ## The page tables of processes, from `kernel/proc.c` -/

/-- `proc_pagetable`, for the physical page of the trampoline code and the
trapframe `tf`.  It ignores what `mappages` returns. -/
def procPagetable (trampoline tf : Nat) : VmM Nat := do
  let pt ← uvmcreate
  let _ ← mappages pt TRAMPOLINE PGSIZE trampoline (PTE_R ||| PTE_X)
  let _ ← mappages pt TRAPFRAME PGSIZE tf (PTE_R ||| PTE_W)
  return pt

/-- `proc_freepagetable`. -/
def procFreepagetable (pt sz : Nat) : VmM Unit := do
  uvmunmap pt TRAMPOLINE PGSIZE false
  uvmunmap pt TRAPFRAME PGSIZE false
  if sz > 0 then uvmfree pt sz

/-! ## Copies between the kernel and a user address space -/

/-- The bytes from `va` to the end of its page, at most `len`. -/
def pagePart (va len : Nat) : Nat := min (PGSIZE - va % PGSIZE) len

/-- The loop of `copyout`, with the bytes that are left. -/
def copyoutLoop (pt : Nat) : Nat → Nat → List UInt8 → VmM Int
  | 0, _, _ => return 0
  | k + 1, dstva, src => do
    if 0 < src.length then
      let pa0 ← walkaddr pt (pgrounddown dstva)
      if pa0 = 0 then return -1
      else
        let n := pagePart dstva src.length
        modify fun m => m.setPage pa0 (putBytes (m.page pa0) (dstva % PGSIZE) (src.take n))
        copyoutLoop pt k ((pgrounddown dstva + PGSIZE) % 2 ^ 64) (src.drop n)
    else return 0

/-- `copyout`.  Each round copies at least one byte. -/
def copyout (pt dstva : Nat) (src : List UInt8) : VmM Int := copyoutLoop pt src.length dstva src

/-- The loop of `copyin`: the bytes it copies, and whether it copied all. -/
def copyinLoop (pt : Nat) : Nat → Nat → Nat → VmM (List UInt8 × Bool)
  | 0, _, _ => return ([], true)
  | k + 1, srcva, len => do
    if 0 < len then
      let pa0 ← walkaddr pt (pgrounddown srcva)
      if pa0 = 0 then return ([], false)
      else
        let n := pagePart srcva len
        let m ← get
        let (bs, all) ← copyinLoop pt k ((pgrounddown srcva + PGSIZE) % 2 ^ 64) (len - n)
        return (getBytes (m.page pa0) (srcva % PGSIZE) n ++ bs, all)
    else return ([], true)

/-- `copyin`: the bytes that reach `dst`, and whether it returns 0. -/
def copyin (pt srcva len : Nat) : VmM (List UInt8 × Bool) := copyinLoop pt len srcva len

/-- The inner loop of `copyinstr`, over `n` bytes of a page from `o` on: the bytes
it stores, and whether it found a NUL. -/
def copyinstrPage (x : Bytes) (o : Nat) : Nat → List UInt8 × Bool
  | 0 => ([], false)
  | n + 1 =>
    if x o = 0 then ([0], true)
    else
      let (bs, gotNull) := copyinstrPage x (o + 1) n
      (x o :: bs, gotNull)

/-- The loop of `copyinstr`. -/
def copyinstrLoop (pt : Nat) : Nat → Nat → Nat → VmM (List UInt8 × Bool)
  | 0, _, _ => return ([], false)
  | k + 1, srcva, max => do
    if 0 < max then
      let pa0 ← walkaddr pt (pgrounddown srcva)
      if pa0 = 0 then return ([], false)
      else
        let n := pagePart srcva max
        let m ← get
        let (bs, gotNull) := copyinstrPage (m.page pa0) (srcva % PGSIZE) n
        if gotNull then return (bs, true)
        else
          let (cs, r) ← copyinstrLoop pt k ((pgrounddown srcva + PGSIZE) % 2 ^ 64) (max - n)
          return (bs ++ cs, r)
    else return ([], false)

/-- `copyinstr`: the bytes that reach `dst`, and whether it returns 0. -/
def copyinstr (pt srcva max : Nat) : VmM (List UInt8 × Bool) := copyinstrLoop pt max srcva max

end SummerOsk.Vm
