import SummerOsk.Vm.Uvmcopy

/-!
# `uvmfree` gives back every page once

`Space.uvmfree` says which pages are free in the end.  What it does not say is
how they got there.  `uvmfree` calls `kfree` and never `kalloc`, so the pages in
front of the old free list are those that it freed, one entry for each call of
`kfree`.  A page that was freed twice would stand there twice.
-/

namespace SummerOsk.Vm

open Lib List

/-! ## Programs that do not call `kalloc` -/

/-- The free list only grows at its front. -/
def OnlyFrees {α : Type} (x : VmM α) : Prop :=
  ∀ m, wp x m (fun _ m' => m.free <:+ m'.free) fun _ => True

section Rules

variable {α β : Type} {x y : VmM α}

theorem OnlyFrees.pure (a : α) : OnlyFrees (Pure.pure a) := fun _ => suffix_rfl

theorem OnlyFrees.panic (msg : String) : OnlyFrees (Vm.panic msg : VmM α) := fun _ => trivial

theorem OnlyFrees.bind {f : α → VmM β} (hx : OnlyFrees x) (hf : ∀ a, OnlyFrees (f a)) :
    OnlyFrees (x >>= f) := by
  intro m
  refine wp_seq (hx m) fun a m1 h1 => ?_
  exact wp_mono (hf a m1) fun _ _ h2 => h1.trans h2

theorem OnlyFrees.ite {c : Prop} [Decidable c] (hx : OnlyFrees x) (hy : OnlyFrees y) :
    OnlyFrees (if c then x else y) := fun m =>
  wp_ite (fun _ => hx m) fun _ => hy m

theorem OnlyFrees.loadPte (q : Nat × Fin 512) : OnlyFrees (Vm.loadPte q) := fun _ =>
  suffix_rfl

theorem OnlyFrees.storePte (q : Nat × Fin 512) (e : Nat) : OnlyFrees (Vm.storePte q e) := fun _ =>
  suffix_rfl

theorem OnlyFrees.kfree (p : Nat) : OnlyFrees (Vm.kfree p) := fun m =>
  kfree_spec (fun _ => suffix_cons p m.free) fun _ => trivial

theorem OnlyFrees.walk (pt va : Nat) : OnlyFrees (Vm.walk pt va false) := by
  intro m
  by_cases hva : va < MAXVA
  · rw [wp_walk hva]
  · unfold Vm.walk
    rw [if_pos (by omega)]
    exact OnlyFrees.panic "walk" m

end Rules

theorem OnlyFrees.uvmunmapLoop (pt last : Nat) (doFree : Bool) (n a : Nat) :
    OnlyFrees (Vm.uvmunmapLoop pt last doFree n a) := by
  induction n generalizing a with
  | zero => exact OnlyFrees.panic "walk"
  | succ n ih =>
    refine (OnlyFrees.walk pt a).bind fun o => ?_
    cases o with
    | none => exact OnlyFrees.panic _
    | some q =>
      refine (OnlyFrees.loadPte q).bind fun e => ?_
      have hnext : OnlyFrees (do
          Vm.storePte q 0
          if a = last then return () else Vm.uvmunmapLoop pt last doFree n (a + PGSIZE)) :=
        (OnlyFrees.storePte q 0).bind fun _ => (OnlyFrees.pure _).ite (ih _)
      refine (OnlyFrees.panic _).ite ((OnlyFrees.panic _).ite ?_)
      cases doFree with
      | false => exact hnext
      | true => exact (OnlyFrees.kfree _).bind fun _ => hnext

theorem OnlyFrees.uvmunmap (pt va size : Nat) (doFree : Bool) :
    OnlyFrees (Vm.uvmunmap pt va size doFree) := by
  apply OnlyFrees.uvmunmapLoop

theorem OnlyFrees.freewalkLoop {sub : Nat → VmM Unit} (hsub : ∀ c, OnlyFrees (sub c)) (t : Nat)
    (L : List (Fin 512)) : OnlyFrees (Vm.freewalkLoop sub t L) := by
  induction L with
  | nil => exact OnlyFrees.kfree t
  | cons i L ih =>
    refine (OnlyFrees.loadPte _).bind fun e => OnlyFrees.ite ?_ ((OnlyFrees.panic _).ite ih)
    exact (hsub _).bind fun _ => (OnlyFrees.storePte _ _).bind fun _ => ih

theorem OnlyFrees.freewalk (depth t : Nat) : OnlyFrees (Vm.freewalk depth t) := by
  induction depth generalizing t with
  | zero => exact OnlyFrees.panic _
  | succ depth ih => exact OnlyFrees.freewalkLoop ih t _

theorem OnlyFrees.uvmfree (pt sz : Nat) : OnlyFrees (Vm.uvmfree pt sz) := by
  unfold Vm.uvmfree
  -- as in `Space.uvmfree`, the unifier would unfold the recursion
  generalize 16 = depth
  exact (OnlyFrees.uvmunmap pt 0 sz true).bind fun _ => OnlyFrees.freewalk depth pt

/-! ## The pages of an address space -/

/-- `uvmfree` returns, and the pages it has put in front of the free list are the
user pages and the tables, each of them once.  No other page is touched. -/
theorem uvmfree_frees_once {m : Mem} {pt sz : Nat} (h : Space m pt (pages sz) fun _ => none)
    (hsz : 0 < sz) :
    ∃ freed m', uvmfree pt sz m = .ok ((), m') ∧ m'.free = freed ++ m.free ∧ freed.Nodup ∧
      (∀ p, p ∈ freed ↔ m.IsTable pt p ∨
        ∃ v e, v < pages sz ∧ m.entry pt v = some e ∧ pte2pa e = p) ∧
      ∀ p, p ∉ freed → p ∉ m.free → m'.page p = m.page p := by
  have hboth := wp_total (OnlyFrees.uvmfree pt sz m) (h.uvmfree hsz)
  obtain ⟨⟨⟩, m', hrun, ⟨freed, hfreed⟩, hc⟩ := wp_returns hboth
  have hnodup : (freed ++ m.free).Nodup := by
    rw [hfreed]
    exact hc.free.nodup
  have hmem : ∀ p, p ∈ freed ↔ p ∈ m.holds pt (pages sz) := by
    intro p
    have hsame := hc.same p
    rw [← hfreed, mem_append, Set.mem_empty_iff_false, or_false] at hsame
    have hapart : p ∈ freed → p ∉ m.free := fun hp hfree =>
      (nodup_append.mp hnodup).2.2 p hp p hfree rfl
    have hused : p ∈ m.holds pt (pages sz) → p ∉ m.free := h.not_free
    constructor
    · intro hp
      exact (hsame.mp (.inl hp)).resolve_left (hapart hp)
    · intro hp
      exact (hsame.mpr (.inr hp)).resolve_right (hused hp)
  refine ⟨freed, m', hrun, hfreed.symm, (nodup_append.mp hnodup).1, hmem, ?_⟩
  intro p hp hfree
  rw [hmem] at hp
  exact hc.frame p hfree hp

/-- A new address space with one page: the page, and the tables on the way to
it. -/
theorem uvmfree_frees_onePage : ∃ m pt new,
    onePage (freshMem 8) = .ok ((pt, new), m) ∧
      ∃ freed m', uvmfree pt PGSIZE m = .ok ((), m') ∧ m'.free = freed ++ m.free ∧ freed.Nodup ∧
        (∀ p, p ∈ freed ↔ m.IsTable pt p ∨
          ∃ v e, v < pages PGSIZE ∧ m.entry pt v = some e ∧ pte2pa e = p) ∧
        ∀ p, p ∉ freed → p ∉ m.free → m'.page p = m.page p := by
  obtain ⟨⟨pt, new⟩, m, hrun, hspace, -, -⟩ :=
    wp_returns (onePage_spec (freshMem_free (by decide)) (by decide : 5 ≤ (freshMem 8).free.length))
  exact ⟨m, pt, new, hrun, uvmfree_frees_once hspace (by decide)⟩

end SummerOsk.Vm
