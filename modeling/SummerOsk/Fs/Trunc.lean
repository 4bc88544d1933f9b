import SummerOsk.Fs.Contents

/-!
# `itrunc`

`itrunc` frees the blocks of an inode one by one and forgets them slot by slot,
but the entries of the indirect block are freed while the indirect block still
holds them.  The first loop keeps the whole invariant for the dinode with size
0.  In the second loop, ownership is stated for the places without the entries
that were freed, `dropEntries`.
-/

namespace SummerOsk.Fs

open Lib Log Function

variable {s t u : FsState} {A A' : Nat → Dinode} {h a : Nat → Nat} {i inum b b' n j : Nat}
  {p : Place} {d : Dinode} {C C' : Nat → Block} {R : Place → Option Nat}

/-! ## The state after `bfree` -/

theorem give_cache_of_le (hg : Geometry s.sb) (hb : b < s.sb.size) (hm : s.sb.nmeta ≤ b') :
    (s.give b).cache b' = s.cache b' := by
  have := hg.bblock_lt hb
  have hne : b' ≠ s.sb.bblock b := by omega
  simp only [FsState.give, update_of_ne hne]

theorem usedBit_give (b b' : Nat) :
    usedBit s.sb (s.give b).cache b' = (!decide (b' = b) && usedBit s.sb s.cache b') := by
  simp only [FsState.give]
  rw [usedBit_clearBit]

theorem dinodeAt_give (hg : Geometry s.sb) (b : Nat) (hi : inum < s.sb.ninodes) :
    dinodeAt s.sb (s.give b).cache inum = dinodeAt s.sb s.cache inum := by
  simp only [FsState.give]
  rw [dinodeAt_update_of_ne _ (hg.iblock_ne_bblock hi b)]

theorem give_torn (hne : (s.give b).cache b' ≠ (s.give b).disk b') : s.cache b' ≠ s.disk b' := by
  by_cases hbit : b' = s.sb.bblock b
  · subst hbit
    simp [FsState.give] at hne
  · simpa only [FsState.give, update_of_ne hbit] using hne

/-! ## The direct slots -/

/-- The dinode with size 0 and the slots `a`. -/
def Dinode.truncated (d : Dinode) (a : Nat → Nat) : Dinode := { d with size := 0, addrs := a }

/-- The state within `itrunc` of entry `i`, with the slots `a` left. -/
structure Truncating (i : Nat) (A : Nat → Dinode) (s : FsState) (a : Nat → Nat)
    (u : FsState) : Prop where
  good : Good True s.sb (update A (s.icache i).inum
    ((A (s.icache i).inum).truncated a)) u.cache u.disk
  sb : u.sb = s.sb
  icache : u.icache = update s.icache i { s.icache i with addrs := a }
  dinodes : ∀ inum < s.sb.ninodes, dinodeAt s.sb u.cache inum = dinodeAt s.sb s.cache inum

/-- Within `itrunc` the size does not matter any more. -/
theorem Inv.truncating (hI : Inv True A none h s) (hi : 0 < h i)
    (hv : (s.icache i).valid) : Truncating i A s (s.icache i).addrs s := by
  have hok := hI.good.ok _ (hI.cached.inum i hi)
  have haddrs := hI.addrs_eq hi hv
  refine ⟨?_, rfl, by simp, fun _ _ => rfl⟩
  refine hI.good.set_inode haddrs ?_ ?_ ?_ ?_ fun _ ht => .inl ht
  · rw [Dinode.truncated, haddrs]
    exact hok.withSize (Nat.zero_le _)
  · exact fun _ ht => absurd ht (hI.type_ne hi hv)
  · exact fun _ bn hbn => absurd hbn (Nat.not_lt_zero _)
  · exact fun _ _ _ off _ _ hs _ => absurd hs (Nat.not_lt_zero _)

/-- The references after a slot was cleared. -/
theorem refOf_clear_of_ne (hj : j < NDIRECT) (hp : p ≠ .direct inum j)
    (hC : ∀ ib, refOf n (update A inum (d.truncated a)) C (.indirect p.inum) = some ib →
      C' ib = C ib) :
    refOf n (update A inum (d.truncated (update a j 0))) C' p =
      refOf n (update A inum (d.truncated a)) C p := by
  refine refOf_congr ?_ hC
  by_cases hi : p.inum = inum
  · have hslot : p.slot ≠ j := by
      intro hs
      cases p with
      | direct inum' k =>
        simp only [Place.inum, Place.slot] at hi hs
        exact hp (by rw [hi, hs])
      | indirect inum' =>
        simp only [Place.slot] at hs
        omega
      | entry inum' k =>
        simp only [Place.slot] at hs
        omega
    simp only [hi, update_self, Dinode.truncated, update_of_ne hslot]
  · rw [update_of_ne hi, update_of_ne hi]

theorem truncated_fields (A : Nat → Dinode) (inum : Nat) (d : Dinode) (a a' : Nat → Nat)
    (inum' : Nat) :
    (update A inum (d.truncated a') inum').type =
        (update A inum (d.truncated a) inum').type ∧
      (update A inum (d.truncated a') inum').size =
        (update A inum (d.truncated a) inum').size := by
  by_cases he : inum' = inum
  · rw [he, update_self, update_self]
    exact ⟨rfl, rfl⟩
  · rw [update_of_ne he, update_of_ne he]
    exact ⟨rfl, rfl⟩

theorem truncated_ok (hj : j ≤ NDIRECT)
    (hok : ∀ inum' < n, (update A inum (d.truncated a) inum').Ok) :
    ∀ inum' < n, (update A inum (d.truncated (update a j 0)) inum').Ok := by
  intro inum' hlt
  have h' := hok inum' hlt
  by_cases he : inum' = inum
  · rw [he, update_self] at h' ⊢
    exact h'.setAddr hj (by omega)
  · rwa [update_of_ne he] at h' ⊢

theorem truncated_of_free (htype : d.type ≠ 0) (a' : Nat → Nat) {inum' : Nat}
    (ht : (update A inum (d.truncated a) inum').type = 0) :
    update A inum (d.truncated a') inum' =
      update A inum (d.truncated a) inum' := by
  have he : inum' ≠ inum := by
    rintro rfl
    rw [update_self] at ht
    exact htype ht
  rw [update_of_ne he, update_of_ne he]

/-- A slot that was in use is freed and cleared. -/
theorem Truncating.clear (hT : Truncating i A s a u) (hj : j < NDIRECT)
    (hinum : (s.icache i).inum < s.sb.ninodes) (htype : (A (s.icache i).inum).type ≠ 0)
    (haj : a j ≠ 0) :
    usedBit u.sb u.cache (a j) = true ∧
      Truncating i A s (update a j 0)
        { u.give (a j) with
          icache := update u.icache i { u.icache i with addrs := update a j 0 } } := by
  have hg := hT.good
  have hp : refOf s.sb.ninodes (update A (s.icache i).inum
      ((A (s.icache i).inum).truncated a)) u.cache (.direct (s.icache i).inum j) =
      some (a j) := by
    rw [refOf, if_pos ⟨hinum, hj⟩, update_self, ptr_eq_some]
    exact ⟨rfl, haj⟩
  have hsize := hg.owned.lt_size hp
  have hused := hg.owned.used_of_ref hp
  refine ⟨by rw [hT.sb]; exact hused, ?_, hT.sb, ?_, ?_⟩
  · rw [← hT.sb] at hg hsize hp hinum ⊢
    have hC : ∀ b', u.sb.nmeta ≤ b' → (u.give (a j)).cache b' = u.cache b' := fun b' hb' =>
      give_cache_of_le hg.geom hsize hb'
    refine hg.release hp ?_ (fun q hq => ?_) (fun b' _ => usedBit_give (a j) b') ?_ ?_ ?_ ?_ hC
      fun b' => give_torn
    · rw [refOf, if_pos ⟨hinum, hj⟩, update_self]
      simp [Dinode.truncated]
    · exact refOf_clear_of_ne hj hq fun ib hib => hC ib (hg.owned.nmeta_le hib)
    · exact truncated_fields A _ _ _ _
    · simp [Place.inum, Dinode.truncated]
    · exact truncated_ok hj.le hg.ok
    · exact fun inum' _ ht => truncated_of_free htype _ ht
  · simp [hT.icache]
  · intro inum' hlt
    rw [← hT.dinodes inum' hlt, ← hT.sb]
    rw [← hT.sb] at hlt hg
    exact dinodeAt_give hg.geom _ hlt

theorem truncDirect_spec (hT : Truncating i A s a u) (hinum : (s.icache i).inum < s.sb.ninodes)
    (htype : (A (s.icache i).inum).type ≠ 0) (hjn : j + n ≤ NDIRECT) :
    wp (truncDirect i j n) u
      (fun _ t => Truncating i A s (fun k => if j ≤ k ∧ k < j + n then 0 else a k) t)
      Allowed := by
  induction n generalizing j a u with
  | zero =>
    have ha : (fun k => if j ≤ k ∧ k < j + 0 then 0 else a k) = a := by
      funext k
      rw [if_neg (by omega)]
    rw [ha]
    exact hT
  | succ n ih =>
    have haddrs : (u.icache i).addrs = a := by rw [hT.icache, update_self]
    simp only [truncDirect, wp_bind, wp_getInode, haddrs]
    have hrest : (fun k => if j ≤ k ∧ k < j + (n + 1) then 0 else a k) =
        fun k => if j + 1 ≤ k ∧ k < j + 1 + n then 0 else update a j 0 k := by
      funext k
      rcases eq_or_ne k j with rfl | hk
      · rw [if_pos (by omega), if_neg (by omega), update_self]
      · rw [update_of_ne hk]
        exact if_congr (by omega) rfl rfl
    rw [hrest]
    refine wp_ite (fun haj => ?_) fun haj => ?_
    · obtain ⟨hused, hT'⟩ := hT.clear (by omega) hinum htype haj
      refine wp_seq (bfree_spec hused) ?_
      rintro - _ rfl
      simp only [wp_bind, wp_modifyInode]
      refine ih ?_ (by omega)
      have hic : (u.give (a j)).icache = u.icache := rfl
      rw [hic, haddrs]
      exact hT'
    · have ha : update a j 0 = a := by
        rw [update_eq_self_iff]
        omega
      rw [ha]
      exact ih hT (by omega)

/-! ## The indirect block -/

/-- The references without the first `j` entries of the indirect block of inode
`inum`. -/
def dropEntries (R : Place → Option Nat) (inum j : Nat) : Place → Option Nat
  | .entry inum' k => if inum' = inum ∧ k < j then none else R (.entry inum' k)
  | p => R p

section

variable (R)

@[simp] theorem dropEntries_zero (inum : Nat) (p : Place) : dropEntries R inum 0 p = R p := by
  cases p with
  | direct inum' k => rfl
  | indirect inum' => rfl
  | entry inum' k => simp [dropEntries]

theorem dropEntries_succ_self (inum j : Nat) :
    dropEntries R inum (j + 1) (.entry inum j) = none := by
  simp [dropEntries]

theorem dropEntries_self (inum j : Nat) :
    dropEntries R inum j (.entry inum j) = R (.entry inum j) := by
  simp [dropEntries]

theorem dropEntries_succ_of_ne (inum j : Nat) (hp : p ≠ .entry inum j) :
    dropEntries R inum (j + 1) p = dropEntries R inum j p := by
  cases p with
  | direct inum' k => rfl
  | indirect inum' => rfl
  | entry inum' k =>
    refine if_congr ⟨fun hk => ⟨hk.1, ?_⟩, fun hk => ⟨hk.1, by omega⟩⟩ rfl rfl
    have hne : k ≠ j := fun he => hp (by rw [hk.1, he])
    omega

end

/-- The blocks of the references `R` are owned, and from `s` on only bits of
the bitmap were cleared. -/
structure Freeing (R : Place → Option Nat) (s u : FsState) : Prop where
  owned : Allocated (· < s.sb.size) (· < s.sb.nmeta) (fun b => usedBit s.sb u.cache b = true) R
  sb : u.sb = s.sb
  icache : u.icache = s.icache
  cache : ∀ b, s.sb.nmeta ≤ b → u.cache b = s.cache b
  torn : ∀ b, u.cache b ≠ u.disk b → s.cache b ≠ s.disk b
  dinodes : ∀ inum < s.sb.ninodes, dinodeAt s.sb u.cache inum = dinodeAt s.sb s.cache inum

/-- A block is freed. -/
theorem Freeing.give {R' : Place → Option Nat} (hF : Freeing R s u) (hg : Geometry s.sb)
    (hp : R p = some b) (hempty : R' p = none) (hrest : ∀ q, q ≠ p → R' q = R q) :
    usedBit u.sb u.cache b = true ∧ Freeing R' s (u.give b) := by
  have hsb := hF.sb
  have hsize : b < u.sb.size := hsb ▸ (hF.owned.range p b hp).1
  refine ⟨hsb ▸ hF.owned.used_of_ref hp, ?_, hsb, hF.icache, fun b' hb' => ?_,
    fun b' hne => hF.torn b' (give_torn hne), fun inum hlt => ?_⟩
  · refine hF.owned.free hp (fun b' _ => ?_) hempty hrest
    rw [← hsb, usedBit_give]
    simp
  · rw [← hF.cache b' hb']
    exact give_cache_of_le (hsb ▸ hg) hsize (hsb ▸ hb')
  · rw [← hF.dinodes inum hlt, ← hsb]
    exact dinodeAt_give (hsb ▸ hg) b (hsb ▸ hlt)

theorem truncIndirect_spec {y : Block} (hF : Freeing (dropEntries R inum j) s u)
    (hg : Geometry s.sb) (hR : ∀ k, k < j + n → R (.entry inum k) = ptr (getLE y (4 * k) 4)) :
    wp (truncIndirect y j n) u
      (fun _ t => Freeing (dropEntries R inum (j + n)) s t) Allowed := by
  induction n generalizing j u with
  | zero => exact hF
  | succ n ih =>
    have hj := hR j (by omega)
    rw [show j + (n + 1) = j + 1 + n by omega] at hR ⊢
    refine wp_ite (fun hne => ?_) fun hzero => ?_
    · obtain ⟨hused, hF'⟩ := hF.give hg (p := .entry inum j)
        (by rw [dropEntries_self, hj, ptr_of_ne hne]) (dropEntries_succ_self R inum j)
        fun q hq => dropEntries_succ_of_ne R inum j hq
      refine wp_seq (bfree_spec hused) ?_
      rintro - _ rfl
      exact ih hF' hR
    · refine ih ?_ hR
      have hsame : ∀ p, dropEntries R inum (j + 1) p = dropEntries R inum j p := by
        intro p
        by_cases hp : p = .entry inum j
        · rw [hp, dropEntries_succ_self, dropEntries_self, hj]
          have : getLE y (4 * j) 4 = 0 := by omega
          rw [this, ptr_zero]
        · exact dropEntries_succ_of_ne R inum j hp
      rwa [funext hsame]

/-- The references of an inode whose indirect pointer was cleared, and of the
other inodes. -/
theorem refOf_clear_indirect (hp : p ≠ .indirect inum) :
    refOf n (update A inum (d.truncated (update a NDIRECT 0))) C p =
      dropEntries (refOf n (update A inum (d.truncated a)) C) inum NINDIRECT p := by
  cases p with
  | direct inum' k =>
    rcases eq_or_ne inum' inum with rfl | hi
    · simp only [dropEntries, refOf, update_self, Dinode.truncated]
      refine ite_congr rfl (fun hk => ?_) fun _ => rfl
      rw [update_of_ne hk.2.ne]
    · simp only [dropEntries, refOf, update_of_ne hi]
  | indirect inum' =>
    have hi : inum' ≠ inum := fun he => hp (by rw [he])
    simp only [dropEntries, refOf, update_of_ne hi]
  | entry inum' k =>
    rcases eq_or_ne inum' inum with rfl | hi
    · simp only [dropEntries, refOf, update_self, Dinode.truncated, ptr_zero,
        Option.bind_none, ite_self, true_and]
      split_ifs with hk hk'
      · rfl
      · exact absurd hk'.2 hk
      · rfl
    · simp only [dropEntries, refOf, update_of_ne hi, hi, false_and, if_false]

/-- The indirect pointer is cleared, after the blocks of the entries and the
indirect block itself were freed. -/
theorem Good.clear_indirect {sb : Superblock} {D D' : Nat → Block}
    (hgood : Good True sb (update A inum (d.truncated a)) C D) (htype : d.type ≠ 0)
    (howned : Allocated (· < sb.size) (· < sb.nmeta) (fun b => usedBit sb C' b = true)
      (refOf sb.ninodes
        (update A inum (d.truncated (update a NDIRECT 0))) C)) (hempty : refOf sb.ninodes
      (update A inum (d.truncated (update a NDIRECT 0))) C (.indirect inum) = none)
    (hC : ∀ b, sb.nmeta ≤ b → C' b = C b) (hCD : ∀ b, C' b ≠ D' b → C b ≠ D b) :
    Good True sb (update A inum (d.truncated (update a NDIRECT 0))) C' D' := by
  have href : ∀ p, refOf sb.ninodes
      (update A inum (d.truncated (update a NDIRECT 0))) C' p =
      refOf sb.ninodes
        (update A inum (d.truncated (update a NDIRECT 0))) C p := fun p =>
    refOf_congr rfl fun ib hib => hC ib (Nat.le_of_not_lt (howned.range _ ib hib).2)
  have hsize : (update A inum (d.truncated a) inum).size = 0 := by
    rw [update_self]
    rfl
  refine ⟨hgood.toBody.shrink (fun _ _ => hgood.owned.nmeta_le) (fun p => ?_)
    (truncated_fields A _ _ _ _) (truncated_ok le_rfl hgood.ok)
    (fun inum' _ ht => truncated_of_free htype _ ht) hC hCD,
    howned.congr (fun _ _ => Iff.rfl) href⟩
  rw [href]
  by_cases hp : p = .indirect inum
  · subst hp
    exact .inr ⟨hempty, hsize⟩
  · rw [refOf_clear_indirect hp]
    cases p with
    | direct inum' k => exact .inl rfl
    | indirect inum' => exact .inl rfl
    | entry inum' k =>
      simp only [dropEntries]
      split_ifs with hk
      · exact .inr ⟨rfl, by rw [Place.inum, hk.1, hsize]⟩
      · exact .inl rfl

/-- The indirect block is freed after its entries. -/
theorem Truncating.clear_indirect {v : FsState} (hT : Truncating i A s a u)
    (hF : Freeing (dropEntries (refOf s.sb.ninodes (update A (s.icache i).inum
      ((A (s.icache i).inum).truncated a)) u.cache) (s.icache i).inum NINDIRECT) u v)
    (hinum : (s.icache i).inum < s.sb.ninodes) (htype : (A (s.icache i).inum).type ≠ 0)
    (ha : a NDIRECT ≠ 0) :
    usedBit v.sb v.cache (a NDIRECT) = true ∧
      Truncating i A s (update a NDIRECT 0)
        { v.give (a NDIRECT) with
          icache := update v.icache i
            { v.icache i with addrs := update a NDIRECT 0 } } := by
  have hind : refOf s.sb.ninodes (update A (s.icache i).inum
      ((A (s.icache i).inum).truncated a)) u.cache (.indirect (s.icache i).inum) =
      some (a NDIRECT) := by
    rw [refOf, if_pos hinum, update_self, ptr_eq_some]
    exact ⟨rfl, ha⟩
  have hempty : refOf s.sb.ninodes (update A (s.icache i).inum
      ((A (s.icache i).inum).truncated (update a NDIRECT 0))) u.cache
      (.indirect (s.icache i).inum) = none := by
    rw [refOf, if_pos hinum, update_self]
    simp [Dinode.truncated]
  have hgeom : Geometry u.sb := hT.sb ▸ hT.good.geom
  obtain ⟨hused, hF'⟩ := hF.give hgeom (p := .indirect (s.icache i).inum) hind hempty
    fun q hq => refOf_clear_indirect hq
  have howned := hF'.owned
  have hcache := hF'.cache
  have hdin := hF'.dinodes
  rw [hT.sb] at howned hcache hdin
  refine ⟨hused, hT.good.clear_indirect htype howned hempty hcache hF'.torn,
    hF'.sb.trans hT.sb, ?_, fun inum' hlt => ?_⟩
  · rw [hF.icache, hT.icache]
    simp
  · exact (hdin inum' hlt).trans (hT.dinodes inum' hlt)

/-- `itrunc` frees all the blocks of the inode. -/
theorem itrunc_spec (hI : Inv True A none h s) (hi : 0 < h i) (hv : (s.icache i).valid) :
    wp (itrunc i) s
      (fun _ t => ∃ A', Inv True A' none h t ∧ t.sb = s.sb ∧
        t.icache = update s.icache i
          { s.icache i with addrs := fun _ => 0, size := 0 }) Allowed := by
  have hinum := hI.cached.inum i hi
  have htype := hI.type_ne hi hv
  have hzero : ∀ k, NDIRECT < k → (s.icache i).addrs k = 0 := by
    intro k hk
    rw [hI.addrs_eq hi hv]
    exact (hI.good.ok _ hinum).addrs_zero k hk
  -- what is left once the slots are all clear
  have hlast : ∀ u, Truncating i A s (fun _ => 0) u →
      wp (do
          modifyInode i fun ip => { ip with size := 0 }
          iupdate i) u
        (fun _ t => ∃ A', Inv True A' none h t ∧ t.sb = s.sb ∧
          t.icache = update s.icache i
            { s.icache i with addrs := fun _ => 0, size := 0 }) Allowed := by
    intro u hT
    have hI' : Inv True (update A (s.icache i).inum
        ((A (s.icache i).inum).truncated fun _ => 0)) (some i) h
        { s with
          cache := u.cache, disk := u.disk
          icache := update s.icache i
            { s.icache i with addrs := fun _ => 0, size := 0 } } := by
      refine hI.out.set_entry hi rfl rfl (fun _ => ?_) (fun _ => hI.cached.live i hi hv) hT.good
        hT.dinodes
      rw [← hI.data_eq hi hv]
      rfl
    have hstate : { u with icache := update u.icache i { u.icache i with size := 0 } } =
        { s with
          cache := u.cache, disk := u.disk
          icache := update s.icache i
            { s.icache i with addrs := fun _ => 0, size := 0 } } := by
      rw [hT.icache, ← hT.sb]
      simp
    simp only [wp_bind, wp_modifyInode]
    refine wp_mono (iupdate_spec (hstate ▸ hI') hi ?_) ?_
    · simpa [hT.icache] using hv
    · rintro - t ⟨hI'', hsb, hic, -⟩
      exact ⟨_, hI'', hsb.trans hT.sb, by simp [hic, hT.icache]⟩
  refine wp_seq (truncDirect_spec (hI.truncating hi hv) hinum htype (j := 0) (n := NDIRECT)
    (by omega)) ?_
  rintro - u hT
  generalize ha : (fun k => if 0 ≤ k ∧ k < 0 + NDIRECT then 0 else (s.icache i).addrs k) = a at hT
  have ha0 : ∀ k, k ≠ NDIRECT → a k = 0 := by
    intro k hk
    rw [← ha]
    by_cases hlt : k < NDIRECT
    · exact if_pos (by omega)
    · exact (if_neg (by omega)).trans (hzero k (by omega))
  have haddrs : (u.icache i).addrs = a := by rw [hT.icache, update_self]
  simp only [wp_bind, wp_getInode, haddrs]
  refine wp_ite (fun hind => ?_) fun hind => ?_
  · simp only [wp_bind, wp_bread]
    have hentries : ∀ k < 0 + NINDIRECT, refOf s.sb.ninodes (update A (s.icache i).inum
        ((A (s.icache i).inum).truncated a)) u.cache (.entry (s.icache i).inum k) =
        ptr (getLE (u.cache (a NDIRECT)) (4 * k) 4) := by
      intro k hk
      refine refOf_entry ?_ (by omega)
      rw [refOf, if_pos hinum, update_self, ptr_eq_some]
      exact ⟨rfl, hind⟩
    have hF : Freeing (dropEntries (refOf s.sb.ninodes (update A (s.icache i).inum
        ((A (s.icache i).inum).truncated a)) u.cache) (s.icache i).inum 0) u u := by
      refine ⟨?_, rfl, rfl, fun _ _ => rfl, fun _ hne => hne, fun _ _ => rfl⟩
      rw [hT.sb]
      exact hT.good.owned.congr (fun _ _ => Iff.rfl) fun p => dropEntries_zero _ _ p
    refine wp_mono (truncIndirect_spec hF (hT.sb ▸ hT.good.geom) hentries) ?_
    rintro - v hF'
    obtain ⟨hused, hT'⟩ := hT.clear_indirect hF' hinum htype hind
    refine wp_mono (bfree_spec hused) ?_
    rintro - _ rfl
    have hclear : update a NDIRECT 0 = fun _ => 0 := by
      funext k
      by_cases hk : k = NDIRECT
      · rw [hk, update_self]
      · rw [update_of_ne hk, ha0 k hk]
    have hic : ((v.give (a NDIRECT)).icache i).addrs = a := by
      rw [← haddrs, ← hF'.icache]
      rfl
    rw [hclear] at hT'
    rw [wp_modifyInode, hic, hclear]
    exact hlast _ hT'
  · have hclear : a = fun _ => 0 := by
      funext k
      by_cases hk : k = NDIRECT
      · rw [hk]
        omega
      · exact ha0 k hk
    rw [hclear] at hT
    exact hlast u hT

end SummerOsk.Fs
