import SummerOsk.Virtio.Defs
import Mathlib.Data.List.Count
import Mathlib.Data.List.Nodup
import Mathlib.Data.List.Perm.Subperm

/-!
# Requests and their descriptors

`Inv` is the invariant of the driver.  A request that is in flight has three
descriptors of its own, which link up, so there are at most two requests in
flight.  Each of them that is not done has one entry in one of three places: the
available ring, the device, or the used ring (`State.queued`).  Each request that
has no entry was cleared once, for its own entry in the used ring.
-/

namespace SummerOsk.Virtio

open Lib Function List

variable {ι κ : Type} {s t : State ι κ}

/-! ## Descriptors -/

theorem allocDesc_cases (s : State ι κ) :
    (∃ i < NUM, s.free i = true ∧
        allocDesc s = ({ s with free := update s.free i false }, some i)) ∨
      allocDesc s = (s, none) := by
  unfold allocDesc
  cases hfind : (List.range NUM).find? s.free with
  | none => exact .inr rfl
  | some i =>
    have hmem := mem_of_find?_eq_some hfind
    exact .inl ⟨i, mem_range.mp hmem, find?_some hfind, rfl⟩

/-- Mark a descriptor as free. -/
def State.freeing (s : State ι κ) (i : Nat) : State ι κ :=
  { s with
    desc := update s.desc i { s.desc i with addr := .null }
    free := update s.free i true }

theorem freeDesc_ok {i : Nat} (hi : i < NUM) (hfree : s.free i = false) :
    freeDesc i s = .ok (s.freeing i) := by
  unfold freeDesc
  rw [if_neg (by omega), if_neg (by rw [hfree]; decide)]
  rfl

/-- The state with the descriptors `idx` taken. -/
def State.taken (s : State ι κ) (idx : List Nat) : State ι κ :=
  { s with free := fun i => if i ∈ idx then false else s.free i }

theorem freeAll_taken (idx : List Nat) (hlt : ∀ i ∈ idx, i < NUM ∧ s.free i = true)
    (hnodup : idx.Nodup) :
    ∃ desc, freeAll idx (s.taken idx) = .ok { s with desc := desc } ∧
      ∀ i, s.free i = false → desc i = s.desc i := by
  induction idx generalizing s with
  | nil => exact ⟨s.desc, rfl, fun _ _ => rfl⟩
  | cons i idx ih =>
    obtain ⟨hi, hfree⟩ := hlt i mem_cons_self
    obtain ⟨hnot, hrest⟩ := nodup_cons.mp hnodup
    have hfalse : (s.taken (i :: idx)).free i = false := if_pos mem_cons_self
    rw [freeAll, freeDesc_ok hi hfalse]
    -- with the first one free, the state is one with the others taken
    let s' : State ι κ :=
      { s with desc := update s.desc i { s.desc i with addr := .null } }
    have hstate : (s.taken (i :: idx)).freeing i = s'.taken idx := by
      unfold State.freeing State.taken
      congr 1
      funext j
      rcases eq_or_ne j i with rfl | hj
      · rw [update_self, if_neg hnot]
        exact hfree.symm
      · rw [update_of_ne hj]
        simp only [mem_cons, hj, false_or]
        rfl
    obtain ⟨desc, hok, hkeep⟩ := ih (s := s') (fun j hj => hlt j (mem_cons_of_mem _ hj)) hrest
    refine ⟨desc, ?_, fun j hj => ?_⟩
    · show freeAll idx ((s.taken (i :: idx)).freeing i) = _
      rw [hstate]
      exact hok
    · have hne : j ≠ i := by
        rintro rfl
        rw [hfree] at hj
        cases hj
      rw [hkeep j hj]
      exact update_of_ne hne _ _

theorem allocLoop_cases (k : Nat) (idx : List Nat) (hlt : ∀ i ∈ idx, i < NUM ∧ s.free i = true)
    (hnodup : idx.Nodup) :
    (∃ idx', allocLoop k idx (s.taken idx) = .ok (s.taken idx', some idx') ∧
        idx'.length = idx.length + k ∧ (∀ i ∈ idx', i < NUM ∧ s.free i = true) ∧ idx'.Nodup) ∨
      ∃ desc, allocLoop k idx (s.taken idx) = .ok ({ s with desc := desc }, none) ∧
        ∀ i, s.free i = false → desc i = s.desc i := by
  induction k generalizing idx with
  | zero => exact .inl ⟨idx, rfl, rfl, hlt, hnodup⟩
  | succ k ih =>
    rw [allocLoop]
    rcases allocDesc_cases (s.taken idx) with ⟨i, hi, hfree, halloc⟩ | halloc
    · rw [halloc]
      have hnew : i ∉ idx ∧ s.free i = true := by
        by_cases hin : i ∈ idx
        · rw [show (s.taken idx).free i = false from if_pos hin] at hfree
          cases hfree
        · exact ⟨hin, by rwa [show (s.taken idx).free i = s.free i from if_neg hin] at hfree⟩
      have hstate : ({ s.taken idx with
          free := update (s.taken idx).free i false } : State ι κ) =
          s.taken (idx ++ [i]) := by
        show ({ s with free := update (s.taken idx).free i false } : State ι κ) =
          { s with free := fun j => if j ∈ idx ++ [i] then false else s.free j }
        congr 1
        funext j
        rcases eq_or_ne j i with rfl | hj
        · rw [update_self, if_pos (by simp)]
        · rw [update_of_ne hj]
          simp only [mem_append, mem_singleton, hj, or_false]
          rfl
      rw [hstate]
      have hall : ∀ j ∈ idx ++ [i], j < NUM ∧ s.free j = true := by
        intro j hj
        rcases mem_append.mp hj with hj | hj
        · exact hlt j hj
        · rw [mem_singleton.mp hj]
          exact ⟨hi, hnew.2⟩
      have hnd : (idx ++ [i]).Nodup := by
        rw [nodup_append]
        exact ⟨hnodup, nodup_singleton i, fun a ha b hb hab =>
          hnew.1 (by rw [← mem_singleton.mp hb, ← hab]; exact ha)⟩
      rcases ih (idx ++ [i]) hall hnd with ⟨idx', hok, hlen, hrest⟩ | hfail
      · refine .inl ⟨idx', hok, ?_, hrest⟩
        rw [hlen, length_append, length_singleton]
        omega
      · exact .inr hfail
    · rw [halloc]
      obtain ⟨desc, hok, hkeep⟩ := freeAll_taken idx hlt hnodup
      refine .inr ⟨desc, ?_, hkeep⟩
      dsimp only
      rw [hok]
      rfl

/-- `alloc3_desc` takes three free descriptors, or it leaves the free ones as they
are. -/
theorem alloc3Desc_cases (s : State ι κ) :
    (∃ i0 i1 i2, alloc3Desc s = .ok (s.taken [i0, i1, i2], some [i0, i1, i2]) ∧
        (∀ i ∈ [i0, i1, i2], i < NUM ∧ s.free i = true) ∧ [i0, i1, i2].Nodup) ∨
      ∃ desc, alloc3Desc s = .ok ({ s with desc := desc }, none) ∧
        ∀ i, s.free i = false → desc i = s.desc i := by
  have hcases := allocLoop_cases (s := s) 3 [] (fun i hi => absurd hi not_mem_nil)
    nodup_nil
  rcases hcases with ⟨idx, hok, hlen, hrest⟩ | hfail
  · obtain ⟨i0, i1, i2, rfl⟩ := length_eq_three.mp hlen
    exact .inl ⟨i0, i1, i2, hok, hrest⟩
  · exact .inr hfail

/-! ## The invariant -/

/-- The descriptors of a call. -/
def Call.chain : Call κ → List Nat
  | .inflight _ _ _ i0 i1 i2 => [i0, i1, i2]
  | _ => []

/-- The buffer of a call. -/
def Call.buf : Call κ → Option κ
  | .idle => none
  | .waiting b _ => some b
  | .inflight _ b _ _ _ _ => some b

/-- The chains that the device has not taken yet. -/
def State.unfetched (s : State ι κ) : List Entry := queue NUM s.avail s.fetched s.availIdx

/-- The completions that `virtio_disk_intr` has not handled yet. -/
def State.unhandled (s : State ι κ) : List Entry :=
  queue NUM s.elems (BitVec.ofNat 16 s.cleared.length) s.usedId

/-- The requests that are not done. -/
def State.queued (s : State ι κ) : List Entry := s.unfetched ++ s.pending ++ s.unhandled

/-- A request in flight: its descriptors, as the device and `free_chain` find
them, and its entry in `disk.info`. -/
structure Request (s : State ι κ) (p : ι) (req : Nat) (b : κ) (write : Bool) (i0 i1 i2 : Nat) :
    Prop where
  used : ∀ i ∈ [i0, i1, i2], i < NUM ∧ s.free i = false
  nodup : [i0, i1, i2].Nodup
  desc₀ : s.desc i0 = ⟨.header p, 16, VRING_DESC_F_NEXT, i1⟩
  desc₁ : s.desc i1 =
    ⟨.data b, BSIZE, (if write then 0 else VRING_DESC_F_WRITE) ||| VRING_DESC_F_NEXT, i2⟩
  desc₂ : s.desc i2 = ⟨.status i0, 1, VRING_DESC_F_WRITE, 0⟩
  header : s.buf0 p =
    ⟨if write then VIRTIO_BLK_T_OUT else VIRTIO_BLK_T_IN, 0, sectorOf (s.blockno b)⟩
  info : (s.info i0).b = some b
  request : s.request b = req
  number : req < s.requests

/-- The descriptors in use are those of the calls in flight, each in one call.  The
rings hold each request that is not done once, and the completions that were
handled are those of the device, in its order. -/
structure Inv (s : State ι κ) : Prop where
  request : ∀ p req b write i0 i1 i2, s.call p = .inflight req b write i0 i1 i2 →
    Request s p req b write i0 i1 i2
  holder : ∀ p b, (s.call p).buf = some b → s.holder b = some p
  apart : ∀ p q, p ≠ q → ∀ i ∈ (s.call p).chain, i ∉ (s.call q).chain
  taken : ∀ i < NUM, s.free i = false → ∃ p, i ∈ (s.call p).chain
  owner : ∀ e ∈ s.queued, ∃ p b write i1 i2,
    s.call p = .inflight e.req b write e.head i1 i2 ∧ s.disk b = true
  busy : ∀ p req b write i0 i1 i2, s.call p = .inflight req b write i0 i1 i2 →
    s.disk b = true → ⟨i0, req⟩ ∈ s.queued
  nodup : (s.queued.map Entry.req).Nodup
  usedId : s.usedId = BitVec.ofNat 16 s.completed.length
  usedIdx : s.usedIdx = BitVec.ofNat 16 (s.cleared.length % NUM)
  order : s.completed = s.cleared.map Prod.fst ++ s.unhandled.map Entry.req
  same : ∀ x ∈ s.cleared, x.1 = x.2
  once : ∀ r, (s.cleared.map Prod.snd).count r =
    if r < s.requests ∧ r ∉ s.queued.map Entry.req then 1 else 0
  body : s.intr = .body → s.unhandled ≠ []
  numbers : ∀ p q r b c write write' i0 i1 i2 j0 j1 j2, s.call p = .inflight r b write i0 i1 i2 →
    s.call q = .inflight r c write' j0 j1 j2 → p = q

theorem inv_init (blockno : κ → Nat) : Inv (init blockno : State ι κ) := by
  have hun : (init blockno : State ι κ).unhandled = [] := queue_self
  have hq : (init blockno : State ι κ).queued = [] := by
    unfold State.queued
    rw [hun, show (init blockno : State ι κ).unfetched = [] from queue_self]
    rfl
  refine ⟨?_, ?_, ?_, ?_, ?_, ?_, ?_, rfl, rfl, by rw [hun]; rfl, ?_, ?_, ?_, ?_⟩
  · intro p req b write i0 i1 i2 h
    cases h
  · intro p b h
    cases h
  · intro p q _ i hi
    cases hi
  · intro i _ h
    cases h
  · intro e he
    rw [hq] at he
    cases he
  · intro p req b write i0 i1 i2 h
    cases h
  · rw [hq]
    exact nodup_nil
  · intro x hx
    cases hx
  · intro r
    rfl
  · intro h
    cases h
  · intro p q r b c write write' i0 i1 i2 j0 j1 j2 h
    cases h

section Bounds

variable (h : Inv s)

include h

/-- Eight descriptors are not enough for three requests. -/
theorem Inv.two_inflight {p q u : ι} (hpq : p ≠ q) (hpu : p ≠ u) (hqu : q ≠ u)
    (hp : (s.call p).chain ≠ []) (hq : (s.call q).chain ≠ []) (hu : (s.call u).chain ≠ []) :
    False := by
  have hchain : ∀ x, (s.call x).chain ≠ [] →
      (s.call x).chain.length = 3 ∧ (s.call x).chain.Nodup ∧ ∀ i ∈ (s.call x).chain, i < NUM := by
    intro x hx
    cases hc : s.call x with
    | idle =>
      rw [hc] at hx
      exact absurd rfl hx
    | waiting b write =>
      rw [hc] at hx
      exact absurd rfl hx
    | inflight req b write i0 i1 i2 =>
      have hreq := h.request x _ _ _ _ _ _ hc
      exact ⟨rfl, hreq.nodup, fun i hi => (hreq.used i hi).1⟩
  obtain ⟨hp3, hpn, hplt⟩ := hchain p hp
  obtain ⟨hq3, hqn, hqlt⟩ := hchain q hq
  obtain ⟨hu3, hun, hult⟩ := hchain u hu
  have hnodup : ((s.call p).chain ++ (s.call q).chain ++ (s.call u).chain).Nodup := by
    rw [nodup_append, nodup_append]
    refine ⟨⟨hpn, hqn, fun a ha b hb hab => h.apart p q hpq a ha (hab ▸ hb)⟩, hun,
      fun a ha b hb hab => ?_⟩
    subst hab
    rcases mem_append.mp ha with ha | ha
    · exact h.apart p u hpu a ha hb
    · exact h.apart q u hqu a ha hb
  have hsub : (s.call p).chain ++ (s.call q).chain ++ (s.call u).chain ⊆ List.range NUM := by
    intro i hi
    rw [mem_range]
    rcases mem_append.mp hi with hi | hi
    · rcases mem_append.mp hi with hi | hi
      · exact hplt i hi
      · exact hqlt i hi
    · exact hult i hi
  have hle := (hnodup.subperm hsub).length_le
  rw [length_append, length_append, hp3, hq3, hu3, length_range] at hle
  unfold NUM at hle
  omega

/-- At most two requests are not done. -/
theorem Inv.queued_le_two : s.queued.length ≤ 2 := by
  by_contra hlong
  have h0 : 0 < s.queued.length := by omega
  have h1 : 1 < s.queued.length := by omega
  have h2 : 2 < s.queued.length := by omega
  have hne : ∀ i j (hi : i < s.queued.length) (hj : j < s.queued.length), i ≠ j →
      s.queued[i].req ≠ s.queued[j].req := by
    intro i j hi hj hij heq
    have hnd := h.nodup
    rw [nodup_iff_injective_get] at hnd
    have hinj := @hnd ⟨i, by simpa using hi⟩ ⟨j, by simpa using hj⟩ (by simpa using heq)
    exact hij (Fin.mk.inj hinj)
  obtain ⟨p, b, w, i1, i2, hp, -⟩ := h.owner _ (getElem_mem h0)
  obtain ⟨q, b', w', i1', i2', hq, -⟩ := h.owner _ (getElem_mem h1)
  obtain ⟨u, b'', w'', i1'', i2'', hu, -⟩ := h.owner _ (getElem_mem h2)
  -- a process has one request
  have hapart : ∀ {x y : ι} {r r' : Nat} {c c' : κ} {v v' : Bool} {j0 j1 j2 j0' j1' j2' : Nat},
      s.call x = .inflight r c v j0 j1 j2 → s.call y = .inflight r' c' v' j0' j1' j2' →
      r ≠ r' → x ≠ y := by
    intro x y r r' c c' v v' j0 j1 j2 j0' j1' j2' hx hy hr hxy
    subst hxy
    rw [hx] at hy
    cases hy
    exact hr rfl
  refine h.two_inflight (hapart hp hq (hne 0 1 h0 h1 (by decide)))
    (hapart hp hu (hne 0 2 h0 h2 (by decide))) (hapart hq hu (hne 1 2 h1 h2 (by decide))) ?_ ?_ ?_
  · rw [hp]
    exact cons_ne_nil _ _
  · rw [hq]
    exact cons_ne_nil _ _
  · rw [hu]
    exact cons_ne_nil _ _

theorem Inv.completed_length : s.completed.length = s.cleared.length + s.unhandled.length := by
  rw [h.order, length_append, length_map, length_map]

theorem Inv.unhandled_le_two : s.unhandled.length ≤ 2 := by
  have hle := h.queued_le_two
  unfold State.queued at hle
  rw [length_append] at hle
  omega

theorem Inv.unfetched_le_two : s.unfetched.length ≤ 2 := by
  have hle := h.queued_le_two
  unfold State.queued at hle
  rw [length_append, length_append] at hle
  omega

/-- The comparison modulo `NUM` tells whether a completion is left. -/
theorem Inv.test_iff : s.usedIdx.toNat % NUM ≠ s.usedId.toNat % NUM ↔ s.unhandled ≠ [] := by
  have hlen := h.completed_length
  have hle := h.unhandled_le_two
  have hid : s.usedId.toNat % NUM = s.completed.length % NUM := by
    rw [h.usedId, BitVec.toNat_ofNat]
    unfold NUM
    omega
  have hidx : s.usedIdx.toNat % NUM = s.cleared.length % NUM := by
    rw [h.usedIdx, BitVec.toNat_ofNat]
    unfold NUM
    omega
  rw [hid, hidx, hlen, ← length_pos_iff_ne_nil]
  unfold NUM
  omega

end Bounds

end SummerOsk.Virtio
