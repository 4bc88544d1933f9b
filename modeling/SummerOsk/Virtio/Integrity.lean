import SummerOsk.Virtio.Requests

/-!
# Every step of the driver and of the device

Each action keeps the invariant, and none of them panics in `free_desc`.
-/

namespace SummerOsk.Virtio

open Lib Function List State

variable {ι κ : Type} {s t : State ι κ} {p q : ι} {b c : κ} {write : Bool}
  {req i₀ i₁ i₂ n j i : Nat} {a : Action ι κ} {blockno : κ → Nat} {as : List (Action ι κ)}

/-! ## Steps that move an entry -/

theorem Request.transport (h : Request s p req b write i₀ i₁ i₂)
    (hfree : ∀ i ∈ [i₀, i₁, i₂], t.free i = s.free i)
    (hdesc : ∀ i ∈ [i₀, i₁, i₂], t.desc i = s.desc i) (hbuf0 : t.buf0 p = s.buf0 p)
    (hblockno : t.blockno = s.blockno) (hinfo : (t.info i₀).b = (s.info i₀).b)
    (hrequest : t.request b = s.request b) (hnumber : s.requests ≤ t.requests) :
    Request t p req b write i₀ i₁ i₂ where
  used i hi := ⟨(h.used i hi).1, (hfree i hi).trans (h.used i hi).2⟩
  nodup := h.nodup
  desc₀ := (hdesc i₀ (by simp)).trans h.desc₀
  desc₁ := (hdesc i₁ (by simp)).trans h.desc₁
  desc₂ := (hdesc i₂ (by simp)).trans h.desc₂
  header := by rw [hbuf0, hblockno, h.header]
  info := hinfo.trans h.info
  request := hrequest.trans h.request
  number := Nat.lt_of_lt_of_le h.number hnumber

/-- The parts of the state that only the driver's own code changes. -/
structure Kept (s t : State ι κ) : Prop where
  call : t.call = s.call
  free : t.free = s.free
  desc : t.desc = s.desc
  buf0 : t.buf0 = s.buf0
  blockno : t.blockno = s.blockno
  info : ∀ i, (t.info i).b = (s.info i).b
  disk : t.disk = s.disk
  holder : t.holder = s.holder
  requests : t.requests = s.requests
  request : t.request = s.request
  cleared : t.cleared = s.cleared
  usedIdx : t.usedIdx = s.usedIdx

/-- The entries move between the rings and the device. -/
theorem Inv.moved (h : Inv s) (hk : Kept s t) (hperm : t.queued.Perm s.queued)
    (husedId : t.usedId = BitVec.ofNat 16 t.completed.length)
    (horder : t.completed = t.cleared.map Prod.fst ++ t.unhandled.map Entry.req)
    (hbody : t.intr = .body → t.unhandled ≠ []) : Inv t := by
  have hreqs := hperm.map Entry.req
  refine ⟨fun p req b write i₀ i₁ i₂ hc => ?_, ?_, ?_, ?_, fun e he => ?_,
    fun p req b write i₀ i₁ i₂ hc hdisk => ?_, hreqs.nodup_iff.mpr h.nodup, husedId, ?_, horder, ?_,
    fun r => ?_, hbody, by rw [hk.call]; exact h.numbers⟩
  · rw [hk.call] at hc
    exact (h.request p req b write i₀ i₁ i₂ hc).transport (fun i _ => by rw [hk.free])
      (fun i _ => by rw [hk.desc]) (by rw [hk.buf0]) hk.blockno (hk.info i₀) (by rw [hk.request])
      (by rw [hk.requests])
  · rw [hk.call, hk.holder]
    exact h.holder
  · rw [hk.call]
    exact h.apart
  · rw [hk.free, hk.call]
    exact h.taken
  · rw [hk.call, hk.disk]
    exact h.owner e (hperm.mem_iff.mp he)
  · rw [hk.call] at hc
    rw [hk.disk] at hdisk
    exact hperm.mem_iff.mpr (h.busy p req b write i₀ i₁ i₂ hc hdisk)
  · rw [hk.usedIdx, hk.cleared]
    exact h.usedIdx
  · rw [hk.cleared]
    exact h.same
  · rw [hk.cleared, hk.requests, h.once r]
    simp only [hreqs.mem_iff]

/-- `virtio_disk_intr` goes on. -/
theorem Inv.setIntr (h : Inv s) (x : Intr) (hx : x = .body → s.unhandled ≠ []) :
    Inv { s with intr := x } :=
  h.moved ⟨rfl, rfl, rfl, rfl, rfl, fun _ => rfl, rfl, rfl, rfl, rfl, rfl, rfl⟩ (List.Perm.refl _)
    h.usedId h.order hx

theorem NUM_dvd : NUM ∣ 2 ^ 16 := by decide

/-- The device takes a chain. -/
theorem Inv.fetch (h : Inv s) (hne : s.fetched ≠ s.availIdx) : Inv (fetch s) := by
  have hpop : s.unfetched = s.avail (s.fetched.toNat % NUM) :: (Virtio.fetch s).unfetched :=
    queue_pop hne
  refine h.moved ⟨rfl, rfl, rfl, rfl, rfl, fun _ => rfl, rfl, rfl, rfl, rfl, rfl, rfl⟩ ?_
    h.usedId h.order h.body
  show ((Virtio.fetch s).unfetched ++ (s.pending ++ [s.avail (s.fetched.toNat % NUM)]) ++
    s.unhandled).Perm (s.unfetched ++ s.pending ++ s.unhandled)
  rw [hpop, ← append_assoc]
  exact (perm_append_singleton _ _).append_right _

/-- The device changes the status of an entry of `disk.info`, and the used ring. -/
theorem complete_eq (e : Entry) (status : UInt8) (s : State ι κ) :
    ∃ info, complete e status s = { s with
        info := info
        pending := s.pending.erase e
        elems := update s.elems (s.usedId.toNat % NUM) e
        usedId := s.usedId + 1
        completed := s.completed ++ [e.req] } ∧
      ∀ i, (info i).b = (s.info i).b := by
  unfold complete writeStatus
  split
  · refine ⟨_, rfl, fun j => ?_⟩
    rename_i i _
    dsimp only
    rcases eq_or_ne j i with rfl | hj
    · rw [update_self]
    · rw [update_of_ne hj]
  · exact ⟨s.info, rfl, fun _ => rfl⟩

/-- The device completes a chain. -/
theorem Inv.complete {e : Entry} {status : UInt8} (h : Inv s) (he : e ∈ s.pending) :
    Inv (complete e status s) := by
  obtain ⟨info, heq, hb⟩ := complete_eq e status s
  have hlen : (s.usedId - BitVec.ofNat 16 s.cleared.length).toNat ≤ 2 := by
    have hle := h.unhandled_le_two
    unfold State.unhandled at hle
    rwa [length_queue] at hle
  have hpush : queue NUM (update s.elems (s.usedId.toNat % NUM) e)
      (BitVec.ofNat 16 s.cleared.length) (s.usedId + 1) = s.unhandled ++ [e] := by
    refine queue_push NUM_dvd (by decide) ?_ e
    unfold NUM
    omega
  rw [heq]
  refine h.moved ⟨rfl, rfl, rfl, rfl, rfl, hb, rfl, rfl, rfl, rfl, rfl, rfl⟩ ?_ ?_ ?_ ?_
  · show (s.unfetched ++ s.pending.erase e ++ queue NUM
      (update s.elems (s.usedId.toNat % NUM) e) (BitVec.ofNat 16 s.cleared.length)
      (s.usedId + 1)).Perm (s.unfetched ++ s.pending ++ s.unhandled)
    rw [hpush, append_assoc, append_assoc]
    refine List.Perm.append_left _ ?_
    -- `e` goes from the device to the end of the used ring
    refine (List.Perm.append_left _ (perm_append_singleton e s.unhandled)).trans ?_
    refine perm_middle.trans ?_
    exact (perm_cons_erase he).symm.append_right _
  · show s.usedId + 1 = BitVec.ofNat 16 (s.completed ++ [e.req]).length
    rw [h.usedId, length_append, length_singleton, BitVec.ofNat_add]
    rfl
  · show s.completed ++ [e.req] = s.cleared.map Prod.fst ++ List.map Entry.req (queue NUM _ _ _)
    rw [hpush, map_append, ← append_assoc, ← h.order]
    rfl
  · intro _
    show queue NUM _ _ _ ≠ []
    rw [hpush]
    exact append_ne_nil_of_right_ne_nil _ (cons_ne_nil _ _)

/-! ## The handling of a completion -/

section Calls

variable (h : Inv s)

include h

/-- Two calls have different buffers. -/
theorem Inv.buf_ne (hp : (s.call p).buf = some b) (hq : (s.call q).buf = some c) (hne : p ≠ q) :
    b ≠ c := by
  intro hbc
  have hb := h.holder p b hp
  have hc := h.holder q c hq
  rw [hbc, hc, Option.some.injEq] at hb
  exact hne hb.symm

/-- A completion is at `used_idx`. -/
theorem Inv.unhandled_pop (hne : s.unhandled ≠ []) :
    s.unhandled = s.elems s.usedIdx.toNat ::
      queue NUM s.elems (BitVec.ofNat 16 (s.cleared.length + 1)) s.usedId := by
  have hcounters : BitVec.ofNat 16 s.cleared.length ≠ s.usedId := by
    intro heq
    apply hne
    unfold State.unhandled
    rw [heq, queue_self]
  have hcell : (BitVec.ofNat 16 s.cleared.length).toNat % NUM = s.usedIdx.toNat := by
    rw [h.usedIdx, BitVec.toNat_ofNat, BitVec.toNat_ofNat]
    unfold NUM
    omega
  have hpop : s.unhandled = s.elems ((BitVec.ofNat 16 s.cleared.length).toNat % NUM) ::
      queue NUM s.elems (BitVec.ofNat 16 s.cleared.length + 1) s.usedId := queue_pop hcounters
  rw [hcell] at hpop
  rw [hpop, BitVec.ofNat_add]
  rfl

/-- The entry at `used_idx` is that of a request in flight. -/
theorem Inv.handled (hne : s.unhandled ≠ []) :
    ∃ p b write i₁ i₂, s.call p = .inflight (s.elems s.usedIdx.toNat).req b write
        (s.elems s.usedIdx.toNat).head i₁ i₂ ∧ s.disk b = true ∧
      (s.info (s.elems s.usedIdx.toNat).head).b = some b ∧
      s.request b = (s.elems s.usedIdx.toNat).req := by
  have hin : s.elems s.usedIdx.toNat ∈ s.queued := by
    refine mem_append_right _ ?_
    rw [h.unhandled_pop hne]
    exact mem_cons_self
  obtain ⟨p, b, write, i₁, i₂, hcall, hdisk⟩ := h.owner _ hin
  have hreq := h.request p _ b write _ i₁ i₂ hcall
  exact ⟨p, b, write, i₁, i₂, hcall, hdisk, hreq.info, hreq.request⟩

/-- `virtio_disk_intr` marks the buffer of the request that was completed. -/
theorem Inv.handle [DecidableEq κ] (hbody : s.intr = .body) (hrun : handle s = .ok t) : Inv t := by
  have hne := h.body hbody
  have hpop := h.unhandled_pop hne
  obtain ⟨p, b, write, i₁, i₂, hcall, hdisk, hinfo, hrequest⟩ := h.handled hne
  unfold Virtio.handle at hrun
  dsimp only at hrun
  rw [hinfo] at hrun
  generalize s.elems s.usedIdx.toNat = e at *
  split_ifs at hrun
  have ht := (Except.ok.inj hrun).symm
  set rest := queue NUM s.elems (BitVec.ofNat 16 (s.cleared.length + 1)) s.usedId
  have hcleared : t.cleared = s.cleared ++ [(e.req, s.request b)] := by rw [ht]
  have hdisk' : t.disk = update s.disk b false := by rw [ht]
  have hunhandled : t.unhandled = rest := by
    rw [ht]
    show queue NUM s.elems (BitVec.ofNat 16 (s.cleared ++ [_]).length) s.usedId = rest
    rw [length_append, length_singleton]
  have hqueued : t.queued = s.unfetched ++ s.pending ++ rest := by
    rw [queued, hunhandled, ht]
    rfl
  have hold : s.queued.Perm (e :: t.queued) := by
    rw [hqueued, queued, hpop]
    exact perm_middle
  have hreqs := hold.map Entry.req
  have hnodup := hreqs.nodup_iff.mp h.nodup
  rw [map_cons, nodup_cons] at hnodup
  have hcalls : t.call = s.call := by rw [ht]
  have hnumber := (h.request p _ b write _ i₁ i₂ hcall).number
  refine ⟨fun q r c w j0 j1 j2 hc => ?_, ht ▸ h.holder, hcalls ▸ h.apart, ht ▸ h.taken,
    fun e' he' => ?_, fun q r c w j0 j1 j2 hc hbusy => ?_, hnodup.2, ht ▸ h.usedId, ?_, ?_,
    fun x hx => ?_, fun r => ?_, fun hx => ?_, hcalls ▸ h.numbers⟩
  · rw [hcalls] at hc
    rw [ht]
    exact (h.request q r c w j0 j1 j2 hc).transport (fun _ _ => rfl) (fun _ _ => rfl) rfl rfl rfl
      rfl le_rfl
  · obtain ⟨q, c, w, j1, j2, hc, hbusy⟩ :=
      h.owner e' (hold.mem_iff.mpr (mem_cons_of_mem _ he'))
    rw [hcalls, hdisk']
    refine ⟨q, c, w, j1, j2, hc, ?_⟩
    -- the request of `e` is another one
    have hpq : p ≠ q := by
      rintro rfl
      rw [hcall] at hc
      injection hc with hr
      exact hnodup.1 (hr ▸ mem_map_of_mem he')
    have hbc : b ≠ c := h.buf_ne (by rw [hcall]; rfl) (by rw [hc]; rfl) hpq
    rw [update_of_ne hbc.symm, hbusy]
  · rw [hcalls] at hc
    rw [hdisk'] at hbusy
    have hbc : c ≠ b := by
      rintro rfl
      rw [update_self] at hbusy
      cases hbusy
    rw [update_of_ne hbc] at hbusy
    have hin := hold.mem_iff.mp (h.busy q r c w j0 j1 j2 hc hbusy)
    rcases mem_cons.mp hin with heq | hin
    · -- the two chains would begin at the same descriptor
      have hpq : p ≠ q := by
        rintro rfl
        rw [hcall] at hc
        cases hc
        exact hbc rfl
      refine absurd ?_ (h.apart p q hpq e.head (by rw [hcall]; exact mem_cons_self))
      rw [hc, ← heq]
      exact mem_cons_self
    · exact hin
  · rw [hcleared, ht, length_append, length_singleton]
    show BitVec.ofNat 16 ((s.usedIdx.toNat + 1) % NUM) = _
    rw [h.usedIdx, BitVec.toNat_ofNat]
    congr 1
    unfold NUM
    omega
  · rw [hcleared, hunhandled, ht]
    show s.completed = _
    rw [h.order, hpop, map_append, append_assoc]
    rfl
  · rw [hcleared] at hx
    rcases mem_append.mp hx with hx | hx
    · exact h.same x hx
    · rw [mem_singleton.mp hx]
      exact hrequest.symm
  · have honce := h.once r
    have hsame : t.requests = s.requests := by rw [ht]
    rw [hcleared, hsame, map_append, count_append, map_singleton, count_singleton, hrequest]
    rcases eq_or_ne r e.req with rfl | hr
    · have hzero : (s.cleared.map Prod.snd).count e.req = 0 := by
        rw [honce, if_neg fun hx => hx.2 (hreqs.mem_iff.mpr mem_cons_self)]
      rw [hzero, beq_self_eq_true, if_pos rfl, if_pos ⟨hnumber, hnodup.1⟩]
    · have hmem : r ∈ s.queued.map Entry.req ↔ r ∈ t.queued.map Entry.req := by
        rw [hreqs.mem_iff, map_cons, mem_cons]
        exact or_iff_right hr
      have hbeq : (e.req == r) = false := by simpa using Ne.symm hr
      rw [honce, hbeq]
      simp only [hmem]
      simp
  · rw [ht] at hx
    cases hx

end Calls

/-! ## `virtio_disk_rw` -/

/-- The caller takes the sleep lock of the buffer. -/
theorem Inv.hold [DecidableEq κ] (h : Inv s) (hb : s.holder b = none) :
    Inv { s with holder := update s.holder b (some p) } := by
  refine ⟨fun q r c w j0 j1 j2 hc => ?_, fun q c hc => ?_, h.apart, h.taken, h.owner, h.busy,
    h.nodup, h.usedId, h.usedIdx, h.order, h.same, h.once, h.body, h.numbers⟩
  · exact (h.request q r c w j0 j1 j2 hc).transport (fun _ _ => rfl) (fun _ _ => rfl) rfl rfl rfl
      rfl le_rfl
  · have hq := h.holder q c hc
    have hne : c ≠ b := by
      rintro rfl
      rw [hb] at hq
      cases hq
    show update s.holder b (some p) c = some q
    rw [update_of_ne hne, hq]

/-- A process with a descriptor is not one without a chain. -/
theorem ne_of_chain (hchain : (s.call p).chain = []) (hq : i ∈ (s.call q).chain) : q ≠ p := by
  rintro rfl
  rw [hchain] at hq
  cases hq

theorem mem_chain {r : Nat} {w : Bool} {j0 j1 j2 : Nat} (hc : s.call q = .inflight r c w j0 j1 j2) :
    j0 ∈ (s.call q).chain := by
  rw [hc]
  exact mem_cons_self

/-- The descriptors of a new request. -/
theorem descOf_cases (p : ι) (b : κ) (write : Bool) (hnodup : [i₀, i₁, i₂].Nodup)
    (desc : Nat → Desc ι κ) :
    descOf p b write i₀ i₁ i₂ desc i₀ = ⟨.header p, 16, VRING_DESC_F_NEXT, i₁⟩ ∧
      descOf p b write i₀ i₁ i₂ desc i₁ =
        ⟨.data b, BSIZE, (if write then 0 else VRING_DESC_F_WRITE) ||| VRING_DESC_F_NEXT, i₂⟩ ∧
      descOf p b write i₀ i₁ i₂ desc i₂ = ⟨.status i₀, 1, VRING_DESC_F_WRITE, 0⟩ ∧
      ∀ i, i ∉ [i₀, i₁, i₂] → descOf p b write i₀ i₁ i₂ desc i = desc i := by
  simp only [nodup_cons, mem_cons, not_mem_nil, or_false, not_or,
    nodup_nil, and_true, not_false_eq_true] at hnodup
  obtain ⟨⟨h01, h02⟩, h12⟩ := hnodup
  unfold descOf
  refine ⟨?_, ?_, update_self _ _ _, fun i hi => ?_⟩
  · rw [update_of_ne h02, update_of_ne h01, update_self]
  · rw [update_of_ne h12, update_self]
  · simp only [mem_cons, not_mem_nil, or_false, not_or] at hi
    rw [update_of_ne hi.2.2, update_of_ne hi.2.1, update_of_ne hi.1]

/-- The descriptors of a request are in use. -/
theorem Inv.used (h : Inv s) (hi : i ∈ (s.call q).chain) : s.free i = false := by
  cases hc : s.call q with
  | idle | waiting c w =>
    rw [hc] at hi
    cases hi
  | inflight r c w j0 j1 j2 =>
    rw [hc] at hi
    exact ((h.request q r c w j0 j1 j2 hc).used i hi).2

section Rw

variable [DecidableEq ι] {x : Call κ} {desc : Nat → Desc ι κ}

/-- Process `p` has no request in flight any more, and the descriptors of the
others stay. -/
theorem Inv.leave (h : Inv s) (hx : x.chain = []) {free : Nat → Bool} {info : Nat → Info κ}
    {holder : κ → Option ι}
    (hdone : ∀ r b w i₀ i₁ i₂, s.call p = .inflight r b w i₀ i₁ i₂ → s.disk b = false)
    (hkeep : ∀ q, q ≠ p → ∀ i ∈ (s.call q).chain,
      free i = s.free i ∧ desc i = s.desc i ∧ (info i).b = (s.info i).b)
    (htaken : ∀ i, free i = false → s.free i = false ∧ i ∉ (s.call p).chain)
    (hholder : ∀ q c, (update s.call p x q).buf = some c → holder c = some q) :
    Inv { s with
      free := free, desc := desc, info := info, holder := holder
      call := update s.call p x } := by
  have hself : (update s.call p x p).chain = [] := by rw [update_self, hx]
  have hother : ∀ {q i}, i ∈ (update s.call p x q).chain →
      q ≠ p ∧ update s.call p x q = s.call q := by
    intro q i hi
    have hq : q ≠ p := by
      rintro rfl
      rw [hself] at hi
      cases hi
    exact ⟨hq, update_of_ne hq _ _⟩
  -- the calls in flight are those from before
  have hcall : ∀ {q r c w j0 j1 j2}, update s.call p x q = .inflight r c w j0 j1 j2 →
      q ≠ p ∧ s.call q = .inflight r c w j0 j1 j2 := by
    intro q r c w j0 j1 j2 hc
    obtain ⟨hq, heq⟩ := hother (i := j0) (by rw [hc]; exact mem_cons_self)
    exact ⟨hq, heq.symm.trans hc⟩
  refine ⟨fun q r c w j0 j1 j2 hc => ?_, hholder, fun q u hqu i hi hi' => ?_,
    fun i hi hfree => ?_, fun e he => ?_,
    fun q r c w j0 j1 j2 hc => h.busy q r c w j0 j1 j2 (hcall hc).2, h.nodup, h.usedId, h.usedIdx,
    h.order, h.same, h.once, h.body, fun q u r c c' w w' j0 j1 j2 k0 k1 k2 hq hu =>
      h.numbers q u r c c' w w' j0 j1 j2 k0 k1 k2 (hcall hq).2 (hcall hu).2⟩
  · obtain ⟨hq, hc⟩ := hcall hc
    have hstay : ∀ i ∈ [j0, j1, j2], _ := fun i hi => hkeep q hq i (by rw [hc]; exact hi)
    exact (h.request q r c w j0 j1 j2 hc).transport (fun i hi => (hstay i hi).1)
      (fun i hi => (hstay i hi).2.1) rfl rfl (hstay j0 (by simp)).2.2 rfl le_rfl
  · exact h.apart q u hqu i ((hother hi).2 ▸ hi) ((hother hi').2 ▸ hi')
  · obtain ⟨hused, hout⟩ := htaken i hfree
    obtain ⟨q, hq⟩ := h.taken i hi hused
    have hqp : q ≠ p := by
      rintro rfl
      exact hout hq
    refine ⟨q, ?_⟩
    show i ∈ (update s.call p x q).chain
    rwa [update_of_ne hqp]
  · obtain ⟨q, c, w, j1, j2, hc, hdisk⟩ := h.owner e he
    have hqp : q ≠ p := by
      rintro rfl
      rw [hdone _ _ _ _ _ _ hc] at hdisk
      cases hdisk
    exact ⟨q, c, w, j1, j2, (update_of_ne hqp _ _).trans hc, hdisk⟩

variable (h : Inv s) (hchain : (s.call p).chain = []) (hb : s.holder b = some p)

include h hchain hb

omit hchain in
/-- The buffer of a process that has started a call. -/
theorem Inv.holder_update (hx : x.buf = some b) (q : ι) (c : κ)
    (hc : (update s.call p x q).buf = some c) : s.holder c = some q := by
  by_cases hq : q = p
  · rw [hq, update_self, hx] at hc
    rw [hq, ← Option.some.inj hc]
    exact hb
  · rw [update_of_ne hq] at hc
    exact h.holder q c hc

/-- No descriptors are left, and the process sleeps. -/
theorem Inv.wait (hdesc : ∀ i, s.free i = false → desc i = s.desc i) :
    Inv { s with desc := desc, call := update s.call p (.waiting b write) } := by
  refine h.leave rfl (fun r c w i₀ i₁ i₂ hc => ?_) (fun q _ i hi => ⟨rfl, hdesc i (h.used hi), rfl⟩)
    (fun i hi => ⟨hi, by simp [hchain]⟩) (h.holder_update hb rfl)
  rw [hc] at hchain
  cases hchain

/-- The process submits a request. -/
theorem Inv.submit [DecidableEq κ] (hfree : ∀ i ∈ [i₀, i₁, i₂], i < NUM ∧ s.free i = true)
    (hnodup : [i₀, i₁, i₂].Nodup)
    (ht : t = submit p b write i₀ i₁ i₂ (s.taken [i₀, i₁, i₂])) : Inv t := by
  have hcalls : t.call = update s.call p (.inflight s.requests b write i₀ i₁ i₂) :=
    ht ▸ rfl
  have hself : t.call p = .inflight s.requests b write i₀ i₁ i₂ := by
    rw [hcalls, update_self]
  have hother : ∀ q, q ≠ p → t.call q = s.call q := fun q hq => by
    rw [hcalls, update_of_ne hq]
  have hfree' : t.free = fun i => if i ∈ [i₀, i₁, i₂] then false else s.free i := ht ▸ rfl
  have hdesc' : t.desc = descOf p b write i₀ i₁ i₂ s.desc := ht ▸ rfl
  have hdisk' : t.disk = update s.disk b true := ht ▸ rfl
  have hrequests : t.requests = s.requests + 1 := ht ▸ rfl
  have hunhandled : t.unhandled = s.unhandled := ht ▸ rfl
  have hpush : t.unfetched = s.unfetched ++ [⟨i₀, s.requests⟩] := by
    rw [ht]
    refine queue_push NUM_dvd (by decide) ?_ _
    have hle := h.unfetched_le_two
    unfold unfetched at hle
    rw [length_queue] at hle
    show (s.availIdx - s.fetched).toNat < NUM
    unfold NUM
    omega
  have hperm : t.queued.Perm (⟨i₀, s.requests⟩ :: s.queued) := by
    have hpending : t.pending = s.pending := ht ▸ rfl
    rw [queued, hpush, hunhandled, hpending, append_assoc, append_assoc, queued, append_assoc]
    exact perm_middle
  have hreqs := hperm.map Entry.req
  obtain ⟨hd0, hd1, hd2, hkeep⟩ := descOf_cases p b write hnodup s.desc
  -- the descriptors of other requests are not free
  have hout : ∀ {q}, ∀ i ∈ (s.call q).chain, i ∉ [i₀, i₁, i₂] := by
    intro q i hi hin
    have hused := h.used hi
    rw [(hfree i hin).2] at hused
    cases hused
  have hbuf : ∀ {q c}, q ≠ p → (s.call q).buf = some c → c ≠ b := by
    intro q c hq hc hcb
    have hown := h.holder q c hc
    rw [hcb, hb, Option.some.injEq] at hown
    exact hq hown.symm
  have hchain' : (t.call p).chain = [i₀, i₁, i₂] := by
    rw [hself]
    rfl
  refine ⟨fun q r c w j0 j1 j2 hc => ?_, ?_, fun q u hqu i hi hi' => ?_,
    fun i hi hused => ?_, fun e he => ?_, fun q r c w j0 j1 j2 hc hdisk => ?_, ?_, ht ▸ h.usedId,
    ht ▸ h.usedIdx, ?_, ht ▸ h.same, fun r => ?_, ?_,
    fun q u r c c' w w' j0 j1 j2 k0 k1 k2 hq hu => ?_⟩
  · rcases eq_or_ne q p with rfl | hq
    · rw [hself] at hc
      cases hc
      refine ⟨fun i hi => ⟨(hfree i hi).1, by rw [hfree']; exact if_pos hi⟩, hnodup,
        ?_, ?_, ?_, ?_, ?_, ?_, ?_⟩
      · rw [hdesc', hd0]
      · rw [hdesc', hd1]
      · rw [hdesc', hd2]
      · rw [ht]
        exact update_self _ _ _
      · rw [ht]
        show (update s.info i₀ ⟨some b, 0⟩ i₀).b = some b
        rw [update_self]
      · rw [ht]
        exact update_self _ _ _
      · rw [hrequests]
        exact Nat.lt_succ_self _
    · rw [hother q hq] at hc
      have hnew : ∀ i ∈ [j0, j1, j2], i ∉ [i₀, i₁, i₂] := fun i hi =>
        hout i (by rw [hc]; exact hi)
      refine (h.request q r c w j0 j1 j2 hc).transport (fun i hi => ?_) (fun i hi => ?_)
        ?_ (ht ▸ rfl) ?_ ?_ ?_
      · rw [hfree']
        exact if_neg (hnew i hi)
      · rw [hdesc']
        exact hkeep i (hnew i hi)
      · rw [ht]
        exact update_of_ne hq _ _
      · have hne : j0 ≠ i₀ := fun heq =>
          hnew j0 mem_cons_self (by rw [heq]; exact mem_cons_self)
        rw [ht]
        show (update s.info i₀ ⟨some b, 0⟩ j0).b = (s.info j0).b
        rw [update_of_ne hne]
      · rw [ht]
        exact update_of_ne (hbuf hq (by rw [hc]; rfl)) _ _
      · rw [hrequests]
        exact Nat.le_succ _
  · rw [hcalls, ht]
    exact h.holder_update hb rfl
  · rcases eq_or_ne q p with rfl | hq
    · rw [hother u (Ne.symm hqu)] at hi'
      rw [hchain'] at hi
      exact hout i hi' hi
    · rw [hother q hq] at hi
      rcases eq_or_ne u p with rfl | hu
      · rw [hchain'] at hi'
        exact hout i hi hi'
      · rw [hother u hu] at hi'
        exact h.apart q u hqu i hi hi'
  · by_cases hin : i ∈ [i₀, i₁, i₂]
    · exact ⟨p, by rw [hchain']; exact hin⟩
    · simp only [hfree', if_neg hin] at hused
      obtain ⟨q, hq⟩ := h.taken i hi hused
      exact ⟨q, by rw [hother q (ne_of_chain hchain hq)]; exact hq⟩
  · rcases mem_cons.mp (hperm.mem_iff.mp he) with rfl | he
    · exact ⟨p, b, write, i₁, i₂, hself, by rw [hdisk']; exact update_self _ _ _⟩
    · obtain ⟨q, c, w, j1, j2, hc, hdisk⟩ := h.owner e he
      have hq := ne_of_chain hchain (mem_chain hc)
      refine ⟨q, c, w, j1, j2, (hother q hq).trans hc, ?_⟩
      rw [hdisk', update_of_ne (hbuf hq (by rw [hc]; rfl)), hdisk]
  · rw [hperm.mem_iff]
    rcases eq_or_ne q p with rfl | hq
    · rw [hself] at hc
      cases hc
      exact mem_cons_self
    · rw [hother q hq] at hc
      rw [hdisk', update_of_ne (hbuf hq (by rw [hc]; rfl))] at hdisk
      exact mem_cons_of_mem _ (h.busy q r c w j0 j1 j2 hc hdisk)
  · rw [hreqs.nodup_iff, map_cons, nodup_cons]
    refine ⟨fun hin => ?_, h.nodup⟩
    obtain ⟨e, he, heq⟩ := mem_map.mp hin
    obtain ⟨q, c, w, j1, j2, hc, -⟩ := h.owner e he
    have hlt := (h.request q _ c w _ j1 j2 hc).number
    rw [show e.req = s.requests from heq] at hlt
    exact lt_irrefl _ hlt
  · rw [hunhandled, ht]
    exact h.order
  · rw [hrequests, show t.cleared = s.cleared by rw [ht]; rfl, h.once r]
    simp only [hreqs.mem_iff, map_cons, mem_cons, not_or]
    by_cases hr : r = s.requests
    · rw [if_neg (by omega), if_neg (by omega)]
    · congr 1
      simp only [hr, not_false_eq_true, true_and, eq_iff_iff]
      exact and_congr_left fun _ => by omega
  · rw [hunhandled, ht]
    exact h.body
  · -- the number of the new request is larger than those before
    by_cases hqp : q = p
    · by_cases hup : u = p
      · rw [hqp, hup]
      · rw [hqp, hself] at hq
        rw [hother u hup] at hu
        have hlt := (h.request u r c' w' k0 k1 k2 hu).number
        cases hq
        exact absurd hlt (lt_irrefl _)
    · rw [hother q hqp] at hq
      by_cases hup : u = p
      · rw [hup, hself] at hu
        have hlt := (h.request q r c w j0 j1 j2 hq).number
        cases hu
        exact absurd hlt (lt_irrefl _)
      · rw [hother u hup] at hu
        exact h.numbers q u r c c' w w' j0 j1 j2 k0 k1 k2 hq hu

/-- The first loop of `virtio_disk_rw` does not panic. -/
theorem Inv.rw [DecidableEq κ] : ∃ t, virtioDiskRw p b write s = .ok t ∧ Inv t := by
  unfold virtioDiskRw
  rcases alloc3Desc_cases s with ⟨i₀, i₁, i₂, hok, hfree, hnodup⟩ | ⟨desc, hok, hkeep⟩
  · rw [hok]
    exact ⟨_, rfl, h.submit hchain hb hfree hnodup rfl⟩
  · rw [hok]
    exact ⟨_, rfl, h.wait hchain hb hkeep⟩

end Rw

/-! ## The end of a request -/

theorem freeChain_step (hi : i < NUM) (hfree : s.free i = false) :
    freeChain (n + 1) i s =
      if (s.desc i).flags &&& VRING_DESC_F_NEXT ≠ 0 then
        freeChain n (s.desc i).next (s.freeing i)
      else .ok (s.freeing i) := by
  have hdesc : (s.freeing i).desc i = { s.desc i with addr := .null } := update_self _ _ _
  show (do
    let s ← freeDesc i s
    if (s.desc i).flags &&& VRING_DESC_F_NEXT ≠ 0 then freeChain n (s.desc i).next s
    else return s) = _
  rw [freeDesc_ok hi hfree]
  show (if ((s.freeing i).desc i).flags &&& VRING_DESC_F_NEXT ≠ 0 then
    freeChain n ((s.freeing i).desc i).next (s.freeing i) else .ok (s.freeing i)) = _
  rw [hdesc]

theorem State.freeing_free (h : j ≠ i) : (s.freeing i).free j = s.free j :=
  update_of_ne h _ _

theorem State.freeing_desc (h : j ≠ i) : (s.freeing i).desc j = s.desc j :=
  update_of_ne h _ _

/-- `free_chain` frees the three descriptors of a request. -/
theorem freeChain_three (hused : ∀ i ∈ [i₀, i₁, i₂], i < NUM ∧ s.free i = false)
    (hnodup : [i₀, i₁, i₂].Nodup) (hdesc0 : s.desc i₀ = ⟨.header p, 16, VRING_DESC_F_NEXT, i₁⟩)
    (hdesc1 : s.desc i₁ =
      ⟨.data b, BSIZE, (if write then 0 else VRING_DESC_F_WRITE) ||| VRING_DESC_F_NEXT, i₂⟩)
    (hdesc2 : s.desc i₂ = ⟨.status i₀, 1, VRING_DESC_F_WRITE, 0⟩) :
    freeChain (n + 3) i₀ s = .ok (((s.freeing i₀).freeing i₁).freeing i₂) := by
  simp only [nodup_cons, mem_cons, not_mem_nil, or_false, not_or,
    nodup_nil, and_true, not_false_eq_true] at hnodup
  obtain ⟨⟨h01, h02⟩, h12⟩ := hnodup
  obtain ⟨hlt0, hfree0⟩ := hused i₀ (by simp)
  obtain ⟨hlt1, hfree1⟩ := hused i₁ (by simp)
  obtain ⟨hlt2, hfree2⟩ := hused i₂ (by simp)
  have hflags : ((if write then 0 else VRING_DESC_F_WRITE) ||| VRING_DESC_F_NEXT) &&&
      VRING_DESC_F_NEXT ≠ 0 := by
    cases write <;> decide
  rw [freeChain_step hlt0 hfree0, hdesc0,
    if_pos (show VRING_DESC_F_NEXT &&& VRING_DESC_F_NEXT ≠ 0 by decide)]
  rw [freeChain_step hlt1 (by rw [freeing_free (Ne.symm h01), hfree1]),
    freeing_desc (Ne.symm h01), hdesc1, if_pos hflags]
  rw [freeChain_step hlt2 (by
      rw [freeing_free (Ne.symm h12), freeing_free (Ne.symm h02), hfree2]),
    freeing_desc (Ne.symm h12), freeing_desc (Ne.symm h02), hdesc2,
    if_neg (show ¬ VRING_DESC_F_WRITE &&& VRING_DESC_F_NEXT ≠ 0 by decide)]

/-- The descriptors that are free after the end of a request. -/
theorem freeing_three (i : Nat) : (((s.freeing i₀).freeing i₁).freeing i₂).free i =
    if i ∈ [i₀, i₁, i₂] then true else s.free i := by
  show update (update (update s.free i₀ true) i₁ true) i₂ true i = _
  rcases eq_or_ne i i₂ with rfl | h2
  · rw [update_self, if_pos (by simp)]
  rw [update_of_ne h2]
  rcases eq_or_ne i i₁ with rfl | h1
  · rw [update_self, if_pos (by simp)]
  rw [update_of_ne h1]
  rcases eq_or_ne i i₀ with rfl | h0
  · rw [update_self, if_pos (by simp)]
  rw [update_of_ne h0, if_neg (by simp [h0, h1, h2])]

theorem freeing_three_desc (hi : i ∉ [i₀, i₁, i₂]) :
    (((s.freeing i₀).freeing i₁).freeing i₂).desc i = s.desc i := by
  simp only [mem_cons, not_mem_nil, or_false, not_or] at hi
  rw [freeing_desc hi.2.2, freeing_desc hi.2.1, freeing_desc hi.1]

variable [DecidableEq ι] [DecidableEq κ]

/-- The state after the end of a request. -/
def State.finished (s : State ι κ) (p : ι) (b : κ) (i₀ i₁ i₂ : Nat) : State ι κ :=
  { (({ s with info := update s.info i₀ { s.info i₀ with b := none } } :
        State ι κ).freeing i₀).freeing i₁ |>.freeing i₂ with
    call := update s.call p .idle
    holder := update s.holder b none }

/-- The end of `virtio_disk_rw` does not panic. -/
theorem Request.finish (h : Request s p req b write i₀ i₁ i₂) :
    finish p b i₀ s = .ok (s.finished p b i₀ i₁ i₂) := by
  let s' : State ι κ := { s with info := update s.info i₀ { s.info i₀ with b := none } }
  have hchain : freeChain (NUM + 1) i₀ s' = .ok (((s'.freeing i₀).freeing i₁).freeing i₂) :=
    freeChain_three h.used h.nodup h.desc₀ h.desc₁ h.desc₂
  unfold Virtio.finish
  rw [hchain]
  rfl

/-- The descriptors go back, and the process leaves with the buffer. -/
theorem Inv.finish (h : Inv s) (hc : s.call p = .inflight req b write i₀ i₁ i₂)
    (hdone : s.disk b = false) : Inv (s.finished p b i₀ i₁ i₂) := by
  have hchain : (s.call p).chain = [i₀, i₁, i₂] := by
    rw [hc]
    rfl
  -- the descriptors of other requests are apart
  have hout : ∀ q, q ≠ p → ∀ i ∈ (s.call q).chain, i ∉ [i₀, i₁, i₂] := fun q hq i hi => by
    rw [← hchain]
    exact h.apart q p hq i hi
  refine h.leave (x := .idle) rfl (fun r c w j0 j1 j2 hc' => ?_) (fun q hq i hi => ⟨?_, ?_, ?_⟩)
    (fun i hi => ?_) fun q c hq => ?_
  · rw [hc] at hc'
    cases hc'
    exact hdone
  · rw [freeing_three, if_neg (hout q hq i hi)]
  · exact freeing_three_desc (hout q hq i hi)
  · have hne : i ≠ i₀ := by
      rintro rfl
      exact hout q hq i hi mem_cons_self
    show (update s.info i₀ _ i).b = (s.info i).b
    rw [update_of_ne hne]
  · rw [freeing_three] at hi
    split_ifs at hi with hin
    exact ⟨hi, hchain ▸ hin⟩
  · have hne : q ≠ p := by
      rintro rfl
      rw [update_self] at hq
      cases hq
    rw [update_of_ne hne] at hq
    rw [update_of_ne (h.buf_ne hq (by rw [hc]; rfl) hne)]
    exact h.holder q c hq

/-! ## Runs -/

/-- What an action can do: it keeps the invariant, or the device has reported an
error. -/
theorem Inv.exec {r : Except String (State ι κ)} (h : Inv s) (hexec : exec s a = some r) :
    (∃ t, r = .ok t ∧ Inv t) ∨ r = .error "virtio_disk_intr status" := by
  cases a with
  | rw p b write =>
    simp only [Virtio.exec] at hexec
    split_ifs at hexec with hguard
    obtain ⟨hidle, -, hb⟩ := hguard
    cases hexec
    exact .inl ((h.hold (p := p) hb).rw (by rw [hidle]; rfl) (update_self _ _ _))
  | retry p =>
    simp only [Virtio.exec] at hexec
    cases hc : s.call p with
    | idle =>
      rw [hc] at hexec
      cases hexec
    | waiting b write =>
      rw [hc] at hexec
      split_ifs at hexec
      cases hexec
      exact .inl (h.rw (by rw [hc]; rfl) (h.holder p b (by rw [hc]; rfl)))
    | inflight req b write i₀ i₁ i₂ =>
      rw [hc] at hexec
      cases hexec
  | finish p =>
    simp only [Virtio.exec] at hexec
    cases hc : s.call p with
    | idle | waiting b write =>
      rw [hc] at hexec
      cases hexec
    | inflight req b write i₀ i₁ i₂ =>
      rw [hc] at hexec
      dsimp only at hexec
      split_ifs at hexec with hguard
      cases hexec
      exact .inl ⟨_, (h.request p req b write i₀ i₁ i₂ hc).finish, h.finish hc hguard.2⟩
  | intr =>
    simp only [Virtio.exec] at hexec
    split_ifs at hexec
    cases hexec
    exact .inl ⟨_, rfl, h.setIntr .test fun hx => by cases hx⟩
  | test =>
    simp only [Virtio.exec] at hexec
    split_ifs at hexec
    · cases hexec
      exact .inl ⟨_, rfl, h.setIntr _ fun _ => h.test_iff.mp ‹_›⟩
    · cases hexec
      exact .inl ⟨_, rfl, h.setIntr _ fun hx => by cases hx⟩
  | handle =>
    simp only [Virtio.exec] at hexec
    split_ifs at hexec with hbody
    cases hexec
    obtain ⟨p, b, write, i₁, i₂, -, -, hinfo, -⟩ := h.handled (h.body hbody)
    cases hrun : Virtio.handle s with
    | ok t => exact .inl ⟨t, rfl, h.handle hbody hrun⟩
    | error e =>
      unfold Virtio.handle at hrun
      dsimp only at hrun
      rw [hinfo] at hrun
      split_ifs at hrun
      · cases hrun
        exact .inr rfl
  | fetch =>
    simp only [Virtio.exec] at hexec
    split_ifs at hexec with hne
    cases hexec
    exact .inl ⟨_, rfl, h.fetch hne⟩
  | complete e status =>
    simp only [Virtio.exec] at hexec
    split_ifs at hexec with he
    cases hexec
    exact .inl ⟨_, rfl, h.complete he⟩

theorem Inv.step (h : Inv s) (hstep : system.step s a = some t) : Inv t := by
  obtain ⟨r, hexec, hr⟩ := Option.bind_eq_some_iff.mp hstep
  rcases h.exec hexec with ⟨u, rfl, hu⟩ | rfl
  · cases hr
    exact hu
  · cases hr

theorem inv_of_run (hrun : system.run (init blockno) as = some s) : Inv s :=
  system.run_invariant (fun _ _ _ h hstep => h.step hstep) (inv_init blockno) hrun

/-- What holds of the requests in a state. -/
structure Integrity (s : State ι κ) : Prop where
  /-- No descriptor is in two chains in flight, or twice in one. -/
  apart : ∀ p q, p ≠ q → ∀ i ∈ (s.call p).chain, i ∉ (s.call q).chain
  nodup : ∀ p, (s.call p).chain.Nodup
  /-- An `alloc3_desc` that fails leaves the free descriptors as they are. -/
  alloc : ∀ t, alloc3Desc s = .ok (t, none) → t.free = s.free
  /-- The end of a request frees its three descriptors, which were in use. -/
  frees : ∀ p t, system.step s (.finish p) = some t → (s.call p).chain.length = 3 ∧
    (∀ i ∈ (s.call p).chain, s.free i = false) ∧
    ∀ i, t.free i = true ↔ s.free i = true ∨ i ∈ (s.call p).chain
  /-- At most two completions are not handled. -/
  unhandled : s.completed.length ≤ s.cleared.length + 2
  /-- The test of `virtio_disk_intr` finds them. -/
  test : s.usedIdx.toNat % NUM ≠ s.usedId.toNat % NUM ↔ s.cleared.length < s.completed.length
  /-- A completion clears `disk` in the buffer of its own request. -/
  own : ∀ x ∈ s.cleared, x.1 = x.2
  /-- It does so once: `disk` is set until then, and the request ends after it. -/
  inflight : ∀ p r b write i₀ i₁ i₂, s.call p = .inflight r b write i₀ i₁ i₂ →
    (s.cleared.map Prod.snd).count r = if s.disk b then 0 else 1
  ended : ∀ r < s.requests, (∀ p b write i₀ i₁ i₂, s.call p ≠ .inflight r b write i₀ i₁ i₂) →
    (s.cleared.map Prod.snd).count r = 1
  /-- No action panics in `free_desc`. -/
  panics : ∀ a msg, exec s a = some (.error msg) → msg = "virtio_disk_intr status"

/-- The requests of the driver stay intact in every run. -/
theorem virtio_requests_intact (hrun : system.run (init blockno) as = some s) : Integrity s := by
  have h := inv_of_run hrun
  have hlen := h.completed_length
  have hle := h.unhandled_le_two
  refine ⟨h.apart, fun p => ?_, fun t ht => ?_, fun p t ht => ?_, by omega, ?_, h.same,
    fun p r b write i₀ i₁ i₂ hc => ?_, fun r hr hnone => ?_, fun a msg hexec => ?_⟩
  · cases hc : s.call p with
    | idle | waiting b write => exact nodup_nil
    | inflight r b write i₀ i₁ i₂ => exact (h.request p r b write i₀ i₁ i₂ hc).nodup
  · rcases alloc3Desc_cases s with ⟨i₀, i₁, i₂, hok, -⟩ | ⟨desc, hok, -⟩
    · rw [hok] at ht
      injection ht with ht
      injection ht with _ ht
      cases ht
    · rw [hok] at ht
      injection ht with ht
      injection ht with ht
      rw [← ht]
  · obtain ⟨r, hexec, hr⟩ := Option.bind_eq_some_iff.mp ht
    simp only [exec] at hexec
    cases hc : s.call p with
    | idle | waiting b write =>
      rw [hc] at hexec
      cases hexec
    | inflight req b write i₀ i₁ i₂ =>
      have hreq := h.request p req b write i₀ i₁ i₂ hc
      rw [hc] at hexec
      dsimp only at hexec
      split_ifs at hexec
      rw [hreq.finish] at hexec
      cases hexec
      cases hr
      refine ⟨rfl, fun i hi => (hreq.used i hi).2, fun i => ?_⟩
      rw [show (s.finished p b i₀ i₁ i₂).free i = _ from freeing_three i]
      show _ ↔ s.free i = true ∨ i ∈ [i₀, i₁, i₂]
      by_cases hin : i ∈ [i₀, i₁, i₂]
      · rw [if_pos hin]
        exact iff_of_true rfl (.inr hin)
      · rw [if_neg hin]
        exact (or_iff_left hin).symm
  · rw [h.test_iff, ← length_pos_iff_ne_nil]
    omega
  · have hnumber := (h.request p r b write i₀ i₁ i₂ hc).number
    rw [h.once r]
    cases hdisk : s.disk b with
    | true =>
      have hin := h.busy p r b write i₀ i₁ i₂ hc hdisk
      rw [if_neg fun hx => hx.2 (mem_map.mpr ⟨_, hin, rfl⟩)]
      rfl
    | false =>
      have hnot : r ∉ s.queued.map Entry.req := by
        intro hin
        obtain ⟨e, he, rfl⟩ := mem_map.mp hin
        obtain ⟨q, c, w, j₁, j₂, hq, hbusy⟩ := h.owner e he
        obtain rfl := h.numbers p q _ _ _ _ _ _ _ _ _ _ _ hc hq
        rw [hc] at hq
        injection hq with _ hbc
        rw [hbc, hbusy] at hdisk
        cases hdisk
      rw [if_pos ⟨hnumber, hnot⟩]
      rfl
  · have hnot : r ∉ s.queued.map Entry.req := by
      intro hin
      obtain ⟨e, he, rfl⟩ := mem_map.mp hin
      obtain ⟨q, c, w, j₁, j₂, hq, -⟩ := h.owner e he
      exact hnone q c w _ j₁ j₂ hq
    rw [h.once r, if_pos ⟨hr, hnot⟩]
  · rcases h.exec hexec with ⟨t, ht, -⟩ | hr
    · cases ht
    · cases hr
      rfl

/-- Three processes and three buffers: the third request has to wait, and the
second one is completed first. -/
def threeRequests : List (Action Nat Nat) :=
  [.rw 0 0 true, .rw 1 1 false, .rw 2 2 true, .fetch, .fetch, .complete ⟨3, 1⟩ 0, .intr, .test,
    .complete ⟨0, 0⟩ 0, .handle, .test, .handle, .test, .finish 1, .retry 2, .finish 0]

theorem threeRequests_intact : ∃ s, system.run (init id) threeRequests = some s ∧ Integrity s := by
  have hsome : (system.run (init id) threeRequests).isSome = true := by decide +kernel
  obtain ⟨s, hs⟩ := Option.isSome_iff_exists.mp hsome
  exact ⟨s, hs, virtio_requests_intact hs⟩

end SummerOsk.Virtio
