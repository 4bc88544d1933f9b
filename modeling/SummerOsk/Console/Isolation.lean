import SummerOsk.Console.Line

/-!
# The consoles are isolated from each other

`sees j` is what a step has to do with console `j`: the characters that arrive
while `j` is active, the switches, and the calls on `j`.  `Alike j` relates two
states that `j` cannot tell apart.  A step that `j` does not see keeps it on
either side, and two steps that `j` sees alike keep it together, so two runs
with the same steps for `j` end alike.

`Justified` lists where a character on the UART should come from.  A byte of a
write is sent after the test of `consa`, and a switch in between sends it to
another console; `Unhurried` excludes that.
-/

namespace SummerOsk.Console

open Lib Function List State Option

variable {ι : Type} [DecidableEq ι] {s t s' t' : State ι} {a a' : Act ι} {j : Nat} {p : ι}
  {x : Option Call} {killed : Bool}

/-! ## The active console -/

/-- `consa` points to the active console. -/
structure Pointed (s : State ι) : Prop where
  nonneg : 0 ≤ s.active
  lt : s.active < NDEV
  consa : (s.consa : Int) = s.active

omit [DecidableEq ι] in
theorem Pointed.switch (h : Pointed s) : Pointed s.moveVconsole := by
  obtain ⟨hnonneg, hlt, hconsa⟩ := h
  unfold moveVconsole
  split_ifs
  · refine ⟨?_, ?_, ?_⟩ <;> dsimp only <;> omega
  · exact ⟨hnonneg, hlt, hconsa⟩

/-! ## What a call does -/

/-- What a stretch of a call does to its console, and to the call. -/
def Call.effect (p : ι) (killed : Bool) (consa : Nat) (call : Call) (cons : Input) :
    Input × Option Call × List (Return ι) :=
  match call with
  | .read vc dst target n got =>
    let (cons, bs, m, r) := cons.readLoop killed dst target n
    let call := Call.read vc dst target m (got ++ bs)
    match r with
    | none => (cons, some call, [])
    | some v => (cons, none, [⟨p, call, v⟩])
  | .write vc src n i =>
    match (if n ≤ i then none else src i) with
    | none => (cons, none, [⟨p, .write vc src n i, n⟩])
    | some c =>
      (cons, some (if vc = consa then .send vc src n i c else .write vc src n (i + 1)), [])
  | .send vc src n i _ => (cons, some (.write vc src n (i + 1)), [])

omit [DecidableEq ι] in
/-- A call stays on its console. -/
theorem Call.vc_effect (p : ι) (killed : Bool) (consa : Nat) (call : Call) (cons : Input) :
    (∀ call', (call.effect p killed consa cons).2.1 = some call' → call'.vc = call.vc) ∧
      ∀ r ∈ (call.effect p killed consa cons).2.2, r.call.vc = call.vc := by
  cases call with
  | read vc dst target n got =>
    rw [Call.effect]
    generalize cons.readLoop killed dst target n = x
    obtain ⟨cons, bs, m, r⟩ := x
    cases r <;> simp [Call.vc]
  | write vc src n i =>
    rw [Call.effect]
    cases (if n ≤ i then none else src i) <;> simp [Call.vc]
    split_ifs <;> rfl
  | send vc src n i c => simp [Call.effect, Call.vc]

/-- A stretch of a call reads and writes its own console only. -/
structure Acts (s : State ι) (p : ι) (killed : Bool) (call : Call) (t : State ι) : Prop where
  vcons : t.vcons = update s.vcons call.vc (call.effect p killed s.consa (s.vcons call.vc)).1
  calls : t.call = update s.call p (call.effect p killed s.consa (s.vcons call.vc)).2.1
  returned : t.returned = s.returned ++ (call.effect p killed s.consa (s.vcons call.vc)).2.2
  active : t.active = s.active
  consa : t.consa = s.consa

theorem exec_acts (p : ι) (killed : Bool) (call : Call) :
    Acts s p killed call (s.exec p killed call) := by
  cases call with
  | read vc dst target n got =>
    rw [State.exec]
    obtain ⟨⟨cons, bs, m, r⟩, hx⟩ : ∃ x, (s.vcons vc).readLoop killed dst target n = x :=
      ⟨_, rfl⟩
    rw [hx]
    cases r with
    | none => refine ⟨?_, ?_, ?_, rfl, rfl⟩ <;> simp [Call.vc, Call.effect, hx]
    | some v => refine ⟨?_, ?_, ?_, rfl, rfl⟩ <;> simp [Call.vc, Call.effect, hx]
  | write vc src n i =>
    rw [State.exec]
    by_cases hend : n ≤ i
    · rw [if_pos hend]
      refine ⟨?_, ?_, ?_, rfl, rfl⟩ <;> simp [Call.vc, Call.effect, hend]
    · rw [if_neg hend]
      cases hsrc : src i with
      | none => refine ⟨?_, ?_, ?_, rfl, rfl⟩ <;> simp [Call.vc, Call.effect, hsrc]
      | some c => refine ⟨?_, ?_, ?_, rfl, rfl⟩ <;> simp [Call.vc, Call.effect, hsrc, hend]
  | send vc src n i c =>
    rw [State.exec]
    refine ⟨?_, ?_, ?_, rfl, rfl⟩ <;> simp [Call.vc, Call.effect]

theorem Pointed.step (h : Pointed s) (hstep : (consoles ι).step s a = some t) : Pointed t := by
  change s.step a = some t at hstep
  cases a with
  | switch =>
    obtain ⟨-, hstep⟩ := ite_none_right_eq_some.mp hstep
    cases hstep
    exact h.switch
  | intr c | cread p vc dst n | cwrite p vc src n =>
    simp only [step] at hstep
    split_ifs at hstep
    cases hstep
    exact ⟨h.nonneg, h.lt, h.consa⟩
  | run p killed =>
    obtain ⟨call, -, rfl⟩ := map_eq_some_iff.mp hstep
    have hacts := exec_acts (s := s) p killed call
    exact ⟨hacts.active ▸ h.nonneg, hacts.active ▸ h.lt,
      by rw [hacts.active, hacts.consa]; exact h.consa⟩

/-! ## Two runs -/

/-- The step concerns console `j`. -/
def concerns (j : Nat) (s : State ι) (a : Act ι) (t : State ι) : Bool :=
  match a with
  | .intr _ => s.consa = j
  | .switch => t.active ≠ s.active
  | .cread _ vc _ _ | .cwrite _ vc _ _ => vc = j
  | .run p _ => (s.call p).map Call.vc = some j

/-- The part of a step that concerns console `j`, with the console that is active
after it. -/
def sees (j : Nat) (s : State ι) (a : Act ι) (t : State ι) : Option (Act ι × Int) :=
  if concerns j s a t then some (a, t.active) else none

/-- The calls in progress on console `j`. -/
def State.callsOn (s : State ι) (j : Nat) (p : ι) : Option Call :=
  (s.call p).filter fun call => call.vc = j

/-- The calls on console `j` that have returned, with their results. -/
def State.returnsOn (s : State ι) (j : Nat) : List (Return ι) :=
  s.returned.filter fun r => r.call.vc = j

/-- Two states that console `j` cannot tell apart. -/
structure Alike (j : Nat) (s s' : State ι) : Prop where
  vcons : s.vcons j = s'.vcons j
  active : s.active = s'.active
  calls : s.callsOn j = s'.callsOn j
  returns : s.returnsOn j = s'.returnsOn j

omit [DecidableEq ι] in
theorem Alike.symm (h : Alike j s s') : Alike j s' s :=
  ⟨h.vcons.symm, h.active.symm, h.calls.symm, h.returns.symm⟩

omit [DecidableEq ι] in
theorem Alike.trans (h : Alike j s s') (h' : Alike j s' t) : Alike j s t :=
  ⟨h.vcons.trans h'.vcons, h.active.trans h'.active, h.calls.trans h'.calls,
    h.returns.trans h'.returns⟩

/-- The calls on `j` after the call of `p` has changed. -/
theorem callsOn_update (hcall : t.call = update s.call p x) :
    t.callsOn j = update (s.callsOn j) p (x.filter fun call => call.vc = j) := by
  funext q
  rw [callsOn, hcall]
  rcases eq_or_ne q p with rfl | hq
  · rw [update_self, update_self]
  · rw [update_of_ne hq, update_of_ne hq]
    rfl

/-- A step of a call on another console. -/
theorem alike_of_acts {call : Call} (hacts : Acts s p killed call t) (hcall : s.call p = some call)
    (hvc : call.vc ≠ j) : Alike j s t := by
  obtain ⟨hnext, hrets⟩ := Call.vc_effect p killed s.consa call (s.vcons call.vc)
  refine ⟨?_, hacts.active.symm, ?_, ?_⟩
  · rw [hacts.vcons, update_of_ne hvc.symm]
  · have hnone : (Call.effect p killed s.consa call (s.vcons call.vc)).2.1.filter
        (fun call => decide (call.vc = j)) = none := by
      refine filter_eq_none_iff.mpr fun call' hcall' => ?_
      rw [hnext call' hcall']
      simpa using hvc
    rw [callsOn_update hacts.calls, hnone, eq_comm, update_eq_self_iff]
    simp [callsOn, hcall, Option.filter, hvc]
  · have hnil : (Call.effect p killed s.consa call (s.vcons call.vc)).2.2.filter
        (fun r => decide (r.call.vc = j)) = [] := by
      refine filter_eq_nil_iff.mpr fun r hr => ?_
      rw [hrets r hr]
      simpa using hvc
    rw [returnsOn, returnsOn, hacts.returned, filter_append, hnil, append_nil]

/-- Steps of the same call on `j`. -/
theorem Alike.acts {call : Call} (h : Alike j s s') (hconsa : s.consa = s'.consa)
    (hacts : Acts s p killed call t) (hacts' : Acts s' p killed call t') (hvc : call.vc = j) :
    Alike j t t' := by
  subst hvc
  have hcons := h.vcons
  refine ⟨?_, ?_, ?_, ?_⟩
  · rw [hacts.vcons, hacts'.vcons, update_self, update_self, hcons, hconsa]
  · rw [hacts.active, hacts'.active, h.active]
  · rw [callsOn_update hacts.calls, callsOn_update hacts'.calls, h.calls, hcons, hconsa]
  · have hrets := h.returns
    unfold returnsOn at hrets ⊢
    rw [hacts.returned, hacts'.returned, filter_append, filter_append, hrets, hcons, hconsa]

/-- A call begins. -/
theorem step_call {call : Call} (hfree : s.call p = none)
    (ht : t = { s with call := update s.call p (some call) }) :
    t.callsOn j = update (s.callsOn j) p ((some call).filter fun x => x.vc = j) ∧
      (call.vc ≠ j → Alike j s t) := by
  subst ht
  have hcalls := callsOn_update (j := j) (s := s) (p := p) (x := some call)
    (t := { s with call := update s.call p (some call) }) rfl
  refine ⟨hcalls, fun hvc => ⟨rfl, rfl, ?_, rfl⟩⟩
  rw [hcalls, eq_comm, update_eq_self_iff]
  simp [callsOn, hfree, Option.filter, hvc]

omit [DecidableEq ι] in
theorem moveVconsole_on : s.moveVconsole.callsOn j = s.callsOn j ∧
    s.moveVconsole.returnsOn j = s.returnsOn j := by
  unfold callsOn returnsOn
  simp

theorem alike_of_unseen (hstep : (consoles ι).step s a = some t)
    (hsees : sees j s a t = none) : Alike j s t := by
  have hnot : concerns j s a t = false := by simpa [sees] using hsees
  change s.step a = some t at hstep
  cases a with
  | intr c =>
    obtain ⟨-, hstep⟩ := ite_none_right_eq_some.mp hstep
    cases hstep
    exact ⟨(update_of_ne (Ne.symm (of_decide_eq_false hnot)) _ _).symm, rfl, rfl, rfl⟩
  | switch =>
    obtain ⟨-, hstep⟩ := ite_none_right_eq_some.mp hstep
    cases hstep
    have hactive : s.moveVconsole.active = s.active := not_not.mp (of_decide_eq_false hnot)
    exact ⟨by simp, hactive.symm, moveVconsole_on.1.symm, moveVconsole_on.2.symm⟩
  | cread p vc dst n | cwrite p vc src n =>
    obtain ⟨hfree, hstep⟩ := ite_none_right_eq_some.mp hstep
    exact (step_call hfree.2 (Option.some.inj hstep).symm).2 (of_decide_eq_false hnot)
  | run p killed =>
    obtain ⟨call, hcall, rfl⟩ := map_eq_some_iff.mp hstep
    refine alike_of_acts (exec_acts p killed call) hcall fun heq => of_decide_eq_false hnot ?_
    rw [hcall, map_some, heq]

/-- A call that begins in two states that are alike. -/
theorem Alike.call {call : Call} (h : Alike j s s') (hfree : s.call p = none)
    (hfree' : s'.call p = none) :
    Alike j { s with call := update s.call p (some call) }
      { s' with call := update s'.call p (some call) } := by
  refine ⟨h.vcons, h.active, ?_, h.returns⟩
  rw [(step_call hfree rfl).1, (step_call hfree' rfl).1, h.calls]

theorem Alike.step {x : Act ι × Int} (h : Alike j s s') (hP : Pointed s) (hP' : Pointed s')
    (hstep : (consoles ι).step s a = some t) (hstep' : (consoles ι).step s' a' = some t')
    (hsees : sees j s a t = some x) (hsees' : sees j s' a' t' = some x) : Alike j t t' := by
  obtain ⟨hc, hx⟩ := ite_none_right_eq_some.mp hsees
  obtain ⟨hc', hx'⟩ := ite_none_right_eq_some.mp hsees'
  obtain ⟨rfl, hactive⟩ := Prod.mk.inj (Option.some.inj (hx.trans hx'.symm))
  change s.step a = some t at hstep
  change s'.step a = some t' at hstep'
  cases a with
  | intr c =>
    obtain ⟨-, hstep⟩ := ite_none_right_eq_some.mp hstep
    obtain ⟨-, hstep'⟩ := ite_none_right_eq_some.mp hstep'
    cases hstep
    cases hstep'
    have hj : s.consa = j := of_decide_eq_true hc
    have hj' : s'.consa = j := of_decide_eq_true hc'
    refine ⟨?_, h.active, h.calls, h.returns⟩
    change update s.vcons s.consa _ j = update s'.vcons s'.consa _ j
    rw [hj, hj', update_self, update_self, h.vcons]
  | switch =>
    obtain ⟨-, hstep⟩ := ite_none_right_eq_some.mp hstep
    obtain ⟨-, hstep'⟩ := ite_none_right_eq_some.mp hstep'
    cases hstep
    cases hstep'
    refine ⟨by simpa using h.vcons, hactive, ?_, ?_⟩
    · rw [moveVconsole_on.1, moveVconsole_on.1, h.calls]
    · rw [moveVconsole_on.2, moveVconsole_on.2, h.returns]
  | cread p vc dst n | cwrite p vc src n =>
    obtain ⟨hfree, hstep⟩ := ite_none_right_eq_some.mp hstep
    obtain ⟨hfree', hstep'⟩ := ite_none_right_eq_some.mp hstep'
    cases hstep
    cases hstep'
    exact h.call hfree.2 hfree'.2
  | run p killed =>
    obtain ⟨call, hcall, rfl⟩ := map_eq_some_iff.mp hstep
    obtain ⟨call', hcall', rfl⟩ := map_eq_some_iff.mp hstep'
    simp only [concerns, hcall, hcall', map_some, Option.some.injEq, decide_eq_true_eq] at hc hc'
    have hsame := congrFun h.calls p
    simp only [callsOn, hcall, hcall', Option.filter, hc, hc', decide_true, if_true,
      Option.some.injEq] at hsame
    subst hsame
    have hconsa : s.consa = s'.consa := by
      have h1 := hP.consa
      have h2 := hP'.consa
      have h3 := h.active
      omega
    exact h.acts hconsa (exec_acts p killed call) (exec_acts p killed call) hc

/-! ## The UART -/

/-- Where the output of a step comes from. -/
inductive Justified (s : State ι) (a : Act ι) (t : State ι) : List Out → Prop
  /-- Nothing is sent. -/
  | nothing : Justified s a t []
  /-- The message of a switch or the list of processes. -/
  | message {o : Out} (h : (∃ n, o = .activeNow n) ∨ o = .processes) : Justified s a t [o]
  /-- The echo of a character that is stored in the active console. -/
  | echo {c x : UInt8} (ha : a = .intr c) (hx : x = if c = carriageReturn then newline else c)
      (ht : t.vcons s.active.toNat = (s.vcons s.active.toNat).store x) : Justified s a t [.char x]
  /-- The erasure of `m` characters of the line in the active console. -/
  | erase {c : UInt8} {m : Nat} (ha : a = .intr c)
      (hm : m ≤ ((s.vcons s.active.toNat).e - (s.vcons s.active.toNat).w).toNat)
      (ht : t.vcons s.active.toNat = { s.vcons s.active.toNat with
        e := (s.vcons s.active.toNat).e - BitVec.ofNat 32 m }) :
      Justified s a t (List.replicate m backspace).flatten
  /-- A byte written to the active console. -/
  | written {p : ι} {killed : Bool} {src : Nat → Option UInt8} {n : Int} {i : Nat} {x : UInt8}
      (ha : a = .run p killed) (hcall : s.call p = some (.send s.active.toNat src n i x))
      (hx : src i = some x) (hi : i < n) : Justified s a t [.char x]

/-- No switch to another console comes between the test of a write and its
`consputc`. -/
def Unhurried (s : State ι) (a : Act ι) : Prop :=
  a = .switch → s.moveVconsole.consa ≠ s.consa →
    ∀ p vc src n i c, s.call p ≠ some (.send vc src n i c)

/-- A byte that is about to be sent is one of a write to the active console. -/
def Sending (s : State ι) : Prop :=
  ∀ p vc src n i c, s.call p = some (.send vc src n i c) →
    vc = s.consa ∧ src i = some c ∧ i < n

theorem Sending.setCall (h : Sending s) (hcall : t.call = update s.call p x)
    (hconsa : t.consa = s.consa) (hx : ∀ vc src n i c, x = some (.send vc src n i c) →
      vc = s.consa ∧ src i = some c ∧ i < n) : Sending t := by
  unfold Sending
  rw [hcall, hconsa]
  exact (forall_update_iff s.call fun _ y => ∀ vc src n i c, y = some (.send vc src n i c) →
    vc = s.consa ∧ src i = some c ∧ i < n).mpr ⟨hx, fun q _ => h q⟩

theorem Sending.exec (h : Sending s) (killed : Bool) (call : Call) :
    Sending (s.exec p killed call) := by
  have hacts := exec_acts (s := s) p killed call
  refine h.setCall hacts.calls hacts.consa fun vc' src' n' i' c' hx => ?_
  cases call with
  | read vc dst target n got =>
    rw [Call.effect] at hx
    generalize (s.vcons (Call.read vc dst target n got).vc).readLoop killed dst target n = y at hx
    obtain ⟨cons, bs, m, r⟩ := y
    cases r <;> simp at hx
  | write vc src n i =>
    rw [Call.effect] at hx
    by_cases hend : n ≤ i
    · simp [hend] at hx
    cases hsrc : src i with
    | none => simp [hsrc] at hx
    | some c =>
      simp only [if_neg hend, hsrc, Option.some.injEq] at hx
      split_ifs at hx with hvc
      cases hx
      exact ⟨hvc, hsrc, by omega⟩
  | send vc src n i c => cases hx

theorem Sending.step (h : Sending s) (hG : Unhurried s a) (hstep : (consoles ι).step s a = some t) :
    Sending t := by
  change s.step a = some t at hstep
  cases a with
  | intr c =>
    obtain ⟨-, hstep⟩ := ite_none_right_eq_some.mp hstep
    cases hstep
    exact h
  | switch =>
    obtain ⟨-, hstep⟩ := ite_none_right_eq_some.mp hstep
    cases hstep
    intro p vc src n i c hcall
    rw [moveVconsole_call] at hcall
    by_cases hsame : s.moveVconsole.consa = s.consa
    · rw [hsame]
      exact h p vc src n i c hcall
    · exact absurd hcall (hG rfl hsame p vc src n i c)
  | cread p vc dst n | cwrite p vc src n =>
    obtain ⟨-, hstep⟩ := ite_none_right_eq_some.mp hstep
    cases hstep
    exact h.setCall rfl rfl (by simp)
  | run p killed =>
    obtain ⟨call, -, rfl⟩ := map_eq_some_iff.mp hstep
    exact h.exec killed call

theorem killLine_eq (k : Nat) (cons : Input) :
    (Input.killLine k cons).2 ≤ k ∧ (Input.killLine k cons).1 =
      { cons with e := cons.e - BitVec.ofNat 32 (Input.killLine k cons).2 } := by
  induction k generalizing cons with
  | zero => exact ⟨Nat.le_refl 0, by simp [Input.killLine]⟩
  | succ k ih =>
    rw [Input.killLine]
    split_ifs
    · obtain ⟨hle, heq⟩ := ih { cons with e := cons.e - 1 }
      refine ⟨Nat.succ_le_succ hle, ?_⟩
      have hsub : ∀ m, cons.e - 1 - BitVec.ofNat 32 m = cons.e - BitVec.ofNat 32 (m + 1) := by
        intro m
        bv_omega
      rw [heq, hsub]
    · exact ⟨Nat.zero_le _, by simp⟩

omit [DecidableEq ι] in
theorem justified_intr (hP : Pointed s) (c : UInt8) :
    Justified s (.intr c) (s.consoleintr c) ((s.vcons s.consa).type c).2 := by
  have hconsa : s.active.toNat = s.consa := by
    have := hP.consa
    omega
  have hvcons : (s.consoleintr c).vcons s.active.toNat = ((s.vcons s.active.toNat).type c).1 := by
    rw [hconsa]
    exact update_self _ _ _
  rw [← hconsa]
  rw [Input.type] at hvcons ⊢
  by_cases hPr : c = C 'P'
  · rw [if_pos hPr]
    exact .message (.inr rfl)
  rw [if_neg hPr] at hvcons ⊢
  by_cases hU : c = C 'U'
  · rw [if_pos hU] at hvcons ⊢
    obtain ⟨hle, heq⟩ := killLine_eq
      ((s.vcons s.active.toNat).e - (s.vcons s.active.toNat).w).toNat (s.vcons s.active.toNat)
    exact .erase rfl hle (hvcons.trans heq)
  rw [if_neg hU] at hvcons ⊢
  by_cases hH : c = C 'H' ∨ c = DEL
  · split_ifs at hvcons ⊢ with hline
    · have hone : 1 ≤ ((s.vcons s.active.toNat).e - (s.vcons s.active.toNat).w).toNat :=
        Nat.one_le_iff_ne_zero.mpr fun h0 => hline (toNat_sub_eq_zero.mp h0).symm
      exact .erase (m := 1) rfl hone hvcons
    · exact .nothing
  rw [if_neg hH] at hvcons ⊢
  by_cases hmove : c = C 'N' ∨ c = C 'B'
  · rw [if_pos hmove]
    exact .nothing
  rw [if_neg hmove] at hvcons ⊢
  by_cases hstore : c ≠ 0 ∧
      ((s.vcons s.active.toNat).e - (s.vcons s.active.toNat).r).toNat < INPUT_BUF
  · rw [if_pos hstore] at hvcons ⊢
    exact .echo rfl rfl hvcons
  · rw [if_neg hstore]
    exact .nothing

/-- Every output of a step has its reason. -/
theorem justified_of_step (hP : Pointed s) (hS : Sending s)
    (hstep : (consoles ι).step s a = some t) :
    ∃ out, t.uart = s.uart ++ out ∧ Justified s a t out := by
  have hsame : t.uart = s.uart → ∃ out, t.uart = s.uart ++ out ∧ Justified s a t out :=
    fun h => ⟨[], by rw [h, append_nil], .nothing⟩
  change s.step a = some t at hstep
  cases a with
  | intr c =>
    obtain ⟨-, hstep⟩ := ite_none_right_eq_some.mp hstep
    cases hstep
    exact ⟨_, rfl, justified_intr hP c⟩
  | switch =>
    obtain ⟨-, hstep⟩ := ite_none_right_eq_some.mp hstep
    cases hstep
    rw [moveVconsole] at hsame ⊢
    split_ifs at hsame ⊢
    · exact ⟨_, rfl, .message (.inl ⟨_, rfl⟩)⟩
    · exact hsame rfl
  | cread p vc dst n | cwrite p vc src n =>
    obtain ⟨-, hstep⟩ := ite_none_right_eq_some.mp hstep
    cases hstep
    exact hsame rfl
  | run p killed =>
    obtain ⟨call, hcall, rfl⟩ := map_eq_some_iff.mp hstep
    cases call with
    | read vc dst target n got =>
      refine hsame ?_
      rw [State.exec]
      generalize Input.readLoop killed dst target n (s.vcons vc) = x
      obtain ⟨cons, bs, m, r⟩ := x
      cases r <;> rfl
    | write vc src n i =>
      refine hsame ?_
      rw [State.exec]
      by_cases hend : n ≤ i
      · rw [if_pos hend]
      · rw [if_neg hend]
        cases src i <;> rfl
    | send vc src n i c =>
      obtain ⟨hvc, hsrc, hi⟩ := hS p vc src n i c hcall
      have hactive : vc = s.active.toNat := by
        have := hP.consa
        omega
      exact ⟨[.char c], rfl, .written rfl (hactive ▸ hcall) hsrc hi⟩

/-- In every run the active console is one of the ten and `consa` points to it, a
character changes the active console only, and two runs in which console `j` sees
the same end in the same state of `j` with the same results.  If no switch comes
between the test of a write and its `consputc`, every output has its reason. -/
theorem console_isolation {s₀ : State ι} {as : List (Act ι)} (hinit : s₀.Init)
    (hrun : (consoles ι).run s₀ as = some s) :
    (0 ≤ s.active ∧ s.active ≤ 9 ∧ (s.consa : Int) = s.active) ∧
    (∀ c t, (consoles ι).step s (.intr c) = some t →
      ∀ vc : Nat, (vc : Int) ≠ s.active → t.vcons vc = s.vcons vc) ∧
    (∀ t, (consoles ι).step s .switch = some t → t.vcons = s.vcons) ∧
    (∀ j bs t, (consoles ι).run s₀ bs = some t →
      (consoles ι).trace (sees j) s₀ as = (consoles ι).trace (sees j) s₀ bs →
      s.vcons j = t.vcons j ∧ s.callsOn j = t.callsOn j ∧ s.returnsOn j = t.returnsOn j) ∧
    ((consoles ι).Meets Unhurried s₀ as → ∀ a t, (consoles ι).step s a = some t →
      ∃ out, t.uart = s.uart ++ out ∧ Justified s a t out) := by
  have hP₀ : Pointed s₀ := by
    refine ⟨by rw [hinit.active], by rw [hinit.active]; decide, ?_⟩
    rw [hinit.active, hinit.consa]
    rfl
  have hP : Pointed s := (consoles ι).run_invariant (fun _ _ _ hu hstep => hu.step hstep) hP₀ hrun
  refine ⟨⟨hP.nonneg, Int.le_of_lt_add_one hP.lt, hP.consa⟩, fun c t hstep vc hvc => ?_,
    fun t hstep => ?_, fun j bs t hrun' htrace => ?_, fun hmeets a t hstep => ?_⟩
  · obtain ⟨-, hstep⟩ := ite_none_right_eq_some.mp hstep
    cases hstep
    have hne : vc ≠ s.consa := by
      rintro rfl
      exact hvc hP.consa
    exact update_of_ne hne _ _
  · obtain ⟨-, hstep⟩ := ite_none_right_eq_some.mp hstep
    cases hstep
    exact s.moveVconsole_vcons
  · have hunwind := (consoles ι).trace_unwind (sees j)
      (R := fun u v => Pointed u ∧ Pointed v ∧ Alike j u v)
      (fun u a u' v hR hstep hsees => ⟨hR.1.step hstep, hR.2.1,
        (alike_of_unseen hstep hsees).symm.trans hR.2.2⟩)
      (fun u v a v' hR hstep hsees => ⟨hR.1, hR.2.1.step hstep,
        hR.2.2.trans (alike_of_unseen hstep hsees)⟩)
      (fun u a u' v b v' x hR hstep hstep' hsees hsees' => ⟨hR.1.step hstep, hR.2.1.step hstep',
        hR.2.2.step hR.1 hR.2.1 hstep hstep' hsees hsees'⟩)
      ⟨hP₀, hP₀, ⟨rfl, rfl, rfl, rfl⟩⟩ hrun hrun' htrace
    exact ⟨hunwind.2.2.vcons, hunwind.2.2.calls, hunwind.2.2.returns⟩
  · have hS : Sending s := (consoles ι).run_invariant_of_meets
      (fun _ _ _ hu hG hstep => hu.step hG hstep)
      (fun p vc src n i c hcall => by simp [hinit.call p] at hcall) hmeets hrun
    exact justified_of_step hP hS hstep

/-- A character is typed on console 0 and one on console 1, and a byte is written
to console 1. -/
def typeOnBoth : List (Act Unit) :=
  [.intr 97, .intr (C 'N'), .switch, .intr 98, .cwrite () 1 (fun _ => some 99) 1, .run () false]

/-- Console 0 does not see what is typed on console 1, and the byte that is
written to console 1 has its reason. -/
theorem isolated_of_typeOnBoth : ∃ s t u, (consoles Unit).run idle typeOnBoth = some s ∧
    (consoles Unit).run idle [.intr 97, .intr (C 'N'), .switch] = some t ∧
    (s.vcons 1).e = 1 ∧ (t.vcons 1).e = 0 ∧ s.vcons 0 = t.vcons 0 ∧
    (consoles Unit).step s (.run () false) = some u ∧ u.uart = s.uart ++ [.char 99] ∧
    Justified s (.run () false) u [.char 99] := by
  obtain ⟨s, u, hs, he, hu, huart⟩ : ∃ s u, (consoles Unit).run idle typeOnBoth = some s ∧
      (s.vcons 1).e = 1 ∧ (consoles Unit).step s (.run () false) = some u ∧
      u.uart = s.uart ++ [.char 99] := ⟨_, _, rfl, rfl, rfl, rfl⟩
  obtain ⟨t, ht, he'⟩ : ∃ t, (consoles Unit).run idle [.intr 97, .intr (C 'N'), .switch] = some t ∧
      (t.vcons 1).e = 0 := ⟨_, rfl, rfl⟩
  have hmeets : (consoles Unit).Meets Unhurried idle typeOnBoth := by
    simp [Machine.Meets, typeOnBoth, Unhurried, consoles, step, consoleintr, idle]
  obtain ⟨-, -, -, htwo, hout⟩ := console_isolation idle_init hs
  obtain ⟨out, hsent, hjust⟩ := hout hmeets _ u hu
  rw [huart, append_cancel_left_eq] at hsent
  subst hsent
  exact ⟨s, t, u, hs, ht, he, he', (htwo 0 _ t ht rfl).1, hu, huart, hjust⟩

/-- Control-N is typed on console 0, a byte is written to console 0 and tested, and
then the handler goes on. -/
def switchInWrite : List (Act Unit) :=
  [.intr (C 'N'), .cwrite () 0 (fun _ => some 97) 1, .run () false, .switch]

/-- The byte of console 0 is sent while console 1 is active. -/
theorem byte_of_inactive_console : idle.Init ∧ ∃ s t,
    (consoles Unit).run idle switchInWrite = some s ∧ s.active = 1 ∧
    (consoles Unit).step s (.run () false) = some t ∧
    ¬ ∃ out, t.uart = s.uart ++ out ∧ Justified s (.run () false) t out := by
  obtain ⟨s, t, hs, hactive, ht, huart, hsend⟩ : ∃ s t,
      (consoles Unit).run idle switchInWrite = some s ∧ s.active = 1 ∧
      (consoles Unit).step s (.run () false) = some t ∧ t.uart = s.uart ++ [.char 97] ∧
      s.call () = some (.send 0 (fun _ => some 97) 1 0 97) :=
    ⟨_, _, rfl, rfl, rfl, rfl, rfl⟩
  refine ⟨idle_init, s, t, hs, hactive, ht, ?_⟩
  rintro ⟨out, hout, hjust⟩
  rw [huart, append_cancel_left_eq] at hout
  cases hjust with
  | nothing => cases hout
  | message h =>
    cases hout
    simp at h
  | echo ha | erase ha => cases ha
  | written ha hcall =>
    cases ha
    rw [hsend, hactive] at hcall
    cases hcall

end SummerOsk.Console
