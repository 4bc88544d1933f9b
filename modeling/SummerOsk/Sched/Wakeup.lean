import SummerOsk.Sched.Wait

/-!
# No wakeup is lost

`wakeup` visits the slots one after the other, and a process that goes to sleep
has released the lock of its condition before its slot is SLEEPING.  `Wakeups`
orders the two by the clock: a call of `wakeup` that began after the release
has the slot of the sleeper still in front of it, or has woken it.  In the
window between the release and the switch the sleeper holds the lock of its
slot, so that a visit cannot miss it.
-/

namespace SummerOsk.Sched

open Lib List PState

variable {π κ : Type} {s t : PState π κ} {a : Act π κ} {c : κ} {p q : π} {ch : Chan π}
  {k : List (Frame π)} {f : Frame π} {lk : Nat}

/-! ## Channels -/

/-- A process at this frame has not cleared its channel yet. -/
def Frame.dozes : Frame π → Bool
  | .slept _ | .waitSlept => true
  | _ => false

/-- At this frame the channel of the process may be set. -/
def Frame.lingers : Frame π → Bool
  | .slept _ | .waitSlept | .switched _ => true
  | _ => false

/-- Who has a channel. -/
structure Chans (s : PState π κ) : Prop where
  unused : ∀ p, (s.proc p).state = .unused → (s.proc p).chan = .zero
  awake : ∀ c p, (s.cpu c).proc = some p → (s.cpu c).code = (s.cpu c).scheduler ∨
    (∃ f k, (s.cpu c).code = f :: k ∧ f.dozes = true) ∨ (s.proc p).chan = .zero
  stored : ∀ p f k, (s.proc p).state ≠ .running → (s.proc p).context = f :: k →
    f.dozes = false → (s.proc p).chan = .zero
  waits : ∀ p k, (s.proc p).state = .sleeping → (s.proc p).context = .waitSlept :: k →
    (s.proc p).chan = .proc p

theorem lingers_of_dozes (h : f.dozes) : f.lingers = true := by
  cases f <;> first | rfl | cases h

/-- A process that is not at the end of `sleep` has no channel. -/
theorem Chans.zero (h : Chans s) (hT : Threads s) (hp : (s.cpu c).proc = some p)
    (hhead : ∀ f k, (s.cpu c).code = f :: k → f.lingers = false) : (s.proc p).chan = .zero := by
  rcases h.awake c p hp with heq | ⟨f, k, hcode, hf⟩ | hzero
  · obtain ⟨k, hk, -⟩ := hT.saved c p hp
    cases hhead _ k (heq.trans hk)
  · cases (lingers_of_dozes hf).symm.trans (hhead f k hcode)
  · exact hzero

theorem not_lingers_of_quiet (h : f.quiet) : f.lingers = false := by
  cases f <;> first | rfl | cases h

theorem Chans.zero_of_quiet (h : Chans s) (hT : Threads s) (hp : (s.cpu c).proc = some p)
    (hquiet : Quiet (s.cpu c).code) : (s.proc p).chan = .zero :=
  h.zero hT hp fun f k hcode =>
    not_lingers_of_quiet (hquiet f (by rw [hcode]; exact mem_cons_self))

theorem PState.Init.chans (h : s.Init) : Chans s where
  unused p _ := (h.slot p).2.2.1
  awake c p hp := by
    rw [(h.idle c).1] at hp
    cases hp
  stored p _ _ _ _ _ := (h.slot p).2.2.1
  waits p k hp := by rcases (h.slot p).1 with hst | hst <;> simp [hst] at hp

/-! ## The code of the CPU that takes the step -/

theorem Inv.quiet_cons (h : Inv True s) (hcode : (s.cpu c).code = f :: k)
    (hf : f.quiet) : Quiet (s.cpu c).code := by
  rw [hcode]
  intro g hg
  rcases mem_cons.mp hg with rfl | hg
  · exact hf
  · exact (h.code c f k hcode).2 g hg

theorem Spin.quiet {x : Option κ} (hinv : Inv True s)
    (h : Spin s c a lk x k) : Quiet (s.cpu c).code := by
  cases h with
  | acquire hcode hf | release hcode hf => exact hinv.quiet_cons hcode (quiet_of_busy hf)
  | relock hcode => exact hinv.quiet_cons hcode rfl

variable [DecidableEq π] [DecidableEq κ] {o : Outcome} {x : Proc π κ} {n : Int}
  {as : List (Act π κ)}

omit [DecidableEq π] in
theorem Goto.quiet (hinv : Inv True s) (h : Goto s c a k) : Quiet (s.cpu c).code := by
  have hnil : (s.cpu c).code = [] → Quiet (s.cpu c).code := by
    intro hcode
    simp [Quiet, hcode]
  cases h with
  | rescan hcode => exact hinv.quiet_cons hcode rfl
  | @loopEnd o f k hcode hf =>
    exact hinv.quiet_cons hcode (by cases f <;> first | rfl | cases hf)
  | fork hcode | wait hcode | kill hcode | suspend hcode | other hcode => exact hnil hcode
  | exit hcode => exact hnil hcode
  | ret hcode hf => exact hinv.quiet_cons hcode (quiet_of_busy hf)
  | sleep hcode => exact hinv.quiet_cons hcode rfl
  | interrupt hoff => exact hinv.quiet_of_noff hoff

omit [DecidableEq κ] in
theorem Visit.quiet (hinv : Inv True s) (h : Visit s c q o x k n) : Quiet (s.cpu c).code := by
  cases h with
  | pass hcode hf =>
    refine hinv.quiet_cons hcode ?_
    rcases hf with ⟨_, rfl, -⟩ | ⟨_, _, rfl, -⟩ | ⟨_, _, rfl, -⟩ | ⟨_, rfl, -⟩ | ⟨_, rfl, -⟩ <;>
      rfl
  | wakeup hcode | kill hcode | suspend hcode | fork hcode | exitWake hcode =>
    exact hinv.quiet_cons hcode rfl

/-! ## The channels after a step -/

omit [DecidableEq π] in
/-- The channel of a slot stays, or is cleared, or the process of the CPU goes
to sleep. -/
theorem SlotMove.chan (h : SlotMove s a t p) : (t.proc p).chan = (s.proc p).chan ∨
    (t.proc p).chan = .zero ∨ (s.cpu a.cpu).proc = some p ∧ (t.proc p).state = .sleeping := by
  cases h with
  | still h | wake h | suspend h | pick h => exact .inl h.chan
  | fork _ _ hchan => exact .inl hchan
  | free _ hchan | slept _ _ _ _ _ hchan => exact .inr (.inl hchan)
  | yield _ _ ht | exit _ _ ht | stamp _ _ ht =>
    left
    rw [ht]
  | sleep hp _ ht | waitSleep hp _ ht => exact .inr (.inr ⟨hp, by rw [ht]⟩)

/-- At a frame that waits for nothing but its own step, the CPU stays there, or
leaves its process, or the process clears its channel. -/
theorem doze_of_move (hinv : Inv True s) (hm : Move s a t) (hcode : (s.cpu a.cpu).code = f :: k)
    (hp : (s.cpu a.cpu).proc = some p) (hf : f.lingers) :
    t.cpu a.cpu = s.cpu a.cpu ∨ (t.cpu a.cpu).proc = none ∨ (t.proc p).chan = .zero := by
  have hother : ∀ {P : Prop} {g : Frame π} {k' : List (Frame π)},
      (s.cpu a.cpu).code = g :: k' → g.lingers = false → P := by
    intro P g k' hcode' hg
    cases hcode.symm.trans hcode'
    cases hf.symm.trans hg
  have hquiet : ∀ {P : Prop}, Quiet (s.cpu a.cpu).code → P := fun hq =>
    hother hcode (not_lingers_of_quiet (hq f (by rw [hcode]; exact mem_cons_self)))
  cases hm with
  | panic | stay => exact .inl rfl
  | goto hgoto => exact hquiet (hgoto.cpu ▸ hgoto.quiet hinv)
  | spin d hspin => exact hquiet (hspin.cpu ▸ hspin.quiet hinv)
  | wakeup hcode' hf' => exact hquiet (hinv.quiet_cons hcode' (quiet_of_busy hf'))
  | visit hlock hvisit => exact hquiet (hvisit.quiet hinv)
  | yield hoff => exact hquiet (hinv.quiet_of_noff hoff)
  | switched => exact .inr (.inl (by simp [Act.cpu]))
  | slept hcode' hp' | waitSlept hcode' hp' =>
    cases hp.symm.trans hp'
    exact .inr (.inr (by simp))
  | resume hcode' hf' =>
    rcases hf' with rfl | rfl <;> exact hother hcode' rfl
  | pick hcode' | sleepLock hcode' | sleepRelease hcode' | sleepSched hcode'
  | exitLockParent hcode' | exitLockSelf hcode' | reparentSkip hcode' | reparentTest hcode'
  | reparent hcode' | exit hcode' | waitLock hcode' | waitSkip hcode' | waitTest hcode'
  | waitPass hcode' | waitReap hcode' | waitNone hcode' | waitSleep hcode' =>
    exact hother hcode' rfl

/-- A step brings the process of its CPU, or takes it away, or leaves it. -/
theorem proc_of_move (hm : Move s a t) (hp : (t.cpu a.cpu).proc = some p) :
    (s.cpu a.cpu).proc = some p ∨ (t.cpu a.cpu).code = (s.proc p).context ∧
      (s.proc p).state = .runnable ∧ (t.proc p).chan = (s.proc p).chan := by
  cases hm with
  | panic | stay => exact .inl hp
  | goto hgoto =>
    rw [hgoto.cpu, setCode_cpu_self] at hp
    rw [hgoto.cpu]
    exact .inl hp
  | spin d hspin =>
    rw [hspin.cpu] at hp ⊢
    simp only [setSpin, setCpu_cpu, if_true] at hp
    exact .inl hp
  | pick hcode hlock hstate =>
    simp only [Act.cpu, setCpu_cpu, if_true] at hp ⊢
    cases hp
    exact .inr ⟨rfl, hstate, by simp⟩
  | switched => simp [Act.cpu] at hp
  | sleepRelease =>
    simp only [Act.cpu, setSpin, setCpu_cpu, if_true] at hp
    exact .inl hp
  | wakeup | visit | resume | yield | sleepLock | sleepSched | slept | exitLockParent
  | exitLockSelf | reparentSkip | reparentTest | reparent | exit | waitLock | waitSkip | waitTest
  | waitPass | waitReap | waitNone | waitSleep | waitSlept =>
    simp only [Act.cpu, setCode, setCpu_cpu, if_true] at hp
    exact .inl hp

theorem Chans.move (h : Chans s) (hT : Threads s) (hinv : Inv True s) (hplain : a.plain)
    (hm : Move s a t) : Chans t := by
  have hslot := slotMove_of_move hT.safe hm
  have ho := others_of_move hinv (fun _ => hT.safe) hm
  have hT' := hT.move hinv hplain hm
  refine ⟨fun p hunused => ?_, fun c p hp => ?_, fun p f k hstate hctx hf => ?_,
    fun p k hsleep hctx => ?_⟩
  · cases hslot p with
    | still hs hst => exact hs.chan.trans (h.unused p (hst ▸ hunused))
    | wake _ _ ht | suspend _ ht | pick _ ht | fork _ ht =>
      rw [ht] at hunused
      cases hunused
    | free _ hchan | slept _ _ _ _ _ hchan => exact hchan
    | stamp _ _ ht =>
      rw [ht] at hunused ⊢
      exact h.unused p hunused
    | yield _ _ ht | exit _ _ ht | sleep _ _ ht | waitSleep _ _ ht =>
      rw [ht] at hunused
      cases hunused
  · rcases (hslot p).chan with hsame | hzero | ⟨hp', hsleep⟩
    · rcases eq_or_ne c a.cpu with rfl | hc
      · rcases proc_of_move hm hp with hp' | ⟨hcode, hstate, -⟩
        · rcases h.awake a.cpu p hp' with heq | ⟨f, k, hcode, hf⟩ | hzero
          · obtain ⟨k, hk, -⟩ := hT.saved a.cpu p hp'
            rcases doze_of_move hinv hm (heq.trans hk) hp' rfl with hcpu | hnone | hz
            · rw [hcpu]
              exact .inl heq
            · rw [hp] at hnone
              cases hnone
            · exact .inr (.inr hz)
          · rcases doze_of_move hinv hm hcode hp' (lingers_of_dozes hf) with hcpu | hnone | hz
            · rw [hcpu]
              exact .inr (.inl ⟨f, k, hcode, hf⟩)
            · rw [hp] at hnone
              cases hnone
            · exact .inr (.inr hz)
          · exact .inr (.inr (hsame.trans hzero))
        · obtain ⟨f, k, hctx, -⟩ := hinv.context p
          right
          by_cases hf : f.dozes = true
          · exact .inl ⟨f, k, hcode.trans hctx, hf⟩
          · exact .inr (hsame.trans (h.stored p f k (by simp [hstate]) hctx (by simpa using hf)))
      · rw [ho.cpu c hc] at hp ⊢
        rw [hsame]
        exact h.awake c p hp
    · exact .inr (.inr hzero)
    · rcases eq_or_ne c a.cpu with rfl | hc
      · refine .inl ((hT'.thread a.cpu p hp).resolve_right fun hrun => ?_)
        rw [hsleep] at hrun
        cases hrun.1
      · rw [ho.cpu c hc] at hp
        exact absurd (hinv.one trivial c a.cpu p hp hp') hc
  · have hold : (t.proc p).context = (s.proc p).context → (t.proc p).chan = (s.proc p).chan →
        (s.proc p).state ≠ .running → (t.proc p).chan = .zero := by
      intro hctx' hchan hs
      exact hchan.trans (h.stored p f k hs (hctx' ▸ hctx) hf)
    cases hslot p with
    | still hs hst => exact hold hs.context hs.chan (hst ▸ hstate)
    | wake hs hsleep =>
      refine hold hs.context hs.chan ?_
      rcases hsleep with hsleep | hsleep <;> simp [hsleep]
    | suspend hs _ hrun => exact hold hs.context hs.chan hrun
    | pick _ ht => exact absurd ht hstate
    | fork hunused _ hchan => exact hchan.trans (h.unused p hunused)
    | free _ hchan | slept _ _ _ _ _ hchan => exact hchan
    | stamp _ _ ht =>
      rw [ht] at hstate
      exact hold (by rw [ht]) (by rw [ht]) hstate
    | yield hp hoff ht =>
      rw [ht]
      exact h.zero_of_quiet hT hp (hinv.quiet_of_noff hoff)
    | exit hp hcode ht =>
      rw [ht]
      refine h.zero hT hp fun g k' hcode' => ?_
      cases hcode.symm.trans hcode'
      rfl
    | sleep _ _ ht | waitSleep _ _ ht =>
      rw [ht] at hctx
      cases hctx
      cases hf
  · rcases (hslot p).asleep hT hsleep with ⟨hs, hst⟩ | ⟨_, _, _, -, -, ht⟩ | ⟨_, _, -, -, ht, -⟩
    · exact hs.chan.trans (h.waits p k hst (hs.context ▸ hctx))
    · rw [ht] at hctx
      cases hctx
    · rw [ht]

/-! ## The calls of `wakeup` -/

/-- The frame is in the machine: on the stack of a CPU or of its scheduler, or
in the context of a slot. -/
def Occurs (s : PState π κ) (f : Frame π) : Prop :=
  (∃ c, f ∈ (s.cpu c).code ∨ f ∈ (s.cpu c).scheduler) ∨ ∃ p, f ∈ (s.proc p).context

/-- Process `p` sleeps on `ch`, or is past the release of the lock on its way
there. -/
def Dozing (s : PState π κ) (p : π) (ch : Chan π) : Prop :=
  ((s.proc p).state = .sleeping ∧ (s.proc p).chan = ch) ∨
  ∃ c lk k, (s.cpu c).proc = some p ∧ (s.cpu c).code = .sleepSched ch lk :: k

/-- A call of `wakeup` has the processes that released their lock before it
began still in front of it, as far as they sleep on its channel. -/
structure Wakeups (s : PState π κ) : Prop where
  past : ∀ p ch, Dozing s p ch → (s.proc p).slept < s.clock
  began : ∀ ch qs n, Occurs s (.wakeup ch qs n) → n < s.clock
  front : ∀ p ch qs n, Occurs s (.wakeup ch qs n) → Dozing s p ch → (s.proc p).slept < n → p ∈ qs

/-- What a step can add to the frames: a frame of another kind, a call of
`wakeup` that begins, or one that has visited a slot. -/
def Advances (s t : PState π κ) (f : Frame π) : Prop :=
  ∀ ch qs n, f = .wakeup ch qs n →
    n = s.clock ∧ qs = s.table ∧ t.clock = s.clock + 1 ∨
    ∃ q, Occurs s (.wakeup ch (q :: qs) n) ∧ (t.proc q).lock = none ∧
      ¬((t.proc q).state = .sleeping ∧ (t.proc q).chan = ch)

/-- The frame of a call of `wakeup`. -/
def Frame.wakes : Frame π → Bool
  | .wakeup _ _ _ => true
  | _ => false

def Known (s t : PState π κ) (k : List (Frame π)) : Prop :=
  ∀ f ∈ k, Occurs s f ∨ Advances s t f

section Known

omit [DecidableEq π] [DecidableEq κ]

theorem known_code (c : κ) : Known s t (s.cpu c).code :=
  fun _ hf => .inl (.inl ⟨c, .inl hf⟩)

theorem known_scheduler (c : κ) : Known s t (s.cpu c).scheduler :=
  fun _ hf => .inl (.inl ⟨c, .inr hf⟩)

theorem known_context (p : π) : Known s t (s.proc p).context :=
  fun _ hf => .inl (.inr ⟨p, hf⟩)

theorem known_tail (hcode : (s.cpu c).code = f :: k) : Known s t k :=
  fun _ hg => known_code c _ (by rw [hcode]; exact mem_cons_of_mem _ hg)

theorem Known.cons (hk : Known s t k) (hf : f.wakes = false) : Known s t (f :: k) := by
  intro g hg
  rcases mem_cons.mp hg with rfl | hg
  · right
    rintro ch qs n rfl
    cases hf
  · exact hk g hg

theorem known_nil : Known s t [] := fun _ hf => by cases hf

end Known

omit [DecidableEq π] in
/-- A step leaves no new call of `wakeup` in a context. -/
theorem SlotMove.known (h : SlotMove s a t p) : Known s t (t.proc p).context := by
  have hforkret : Known s t [.forkret] := known_nil.cons rfl
  cases h with
  | still h | wake h | suspend h | pick h =>
    rw [h.context]
    exact known_context p
  | fork _ _ _ hctx =>
    rw [hctx]
    exact hforkret
  | free _ _ hctx =>
    rcases hctx with hctx | hctx
    · rw [hctx]
      exact known_context p
    · rw [hctx]
      exact hforkret
  | slept _ _ _ _ hctx =>
    rw [hctx]
    exact known_context p
  | yield _ _ ht =>
    rw [ht]
    exact (known_code a.cpu).cons rfl
  | exit _ hcode ht | sleep _ hcode ht | waitSleep _ hcode ht =>
    rw [ht]
    exact (known_tail hcode).cons rfl
  | stamp _ _ ht =>
    rw [ht]
    exact known_context p

omit [DecidableEq π] in
theorem known_of_goto (h : Goto s c a k) : Known s t k := by
  cases h with
  | rescan hcode => exact (known_tail hcode).cons rfl
  | loopEnd hcode | ret hcode => exact known_tail hcode
  | fork | wait | kill | suspend | other => exact known_nil.cons rfl
  | exit =>
    exact (known_nil.cons rfl).cons rfl
  | sleep hcode =>
    exact ((known_tail hcode).cons rfl).cons rfl
  | interrupt => exact (known_code c).cons rfl

omit [DecidableEq κ] in
theorem known_of_visit (h : Visit s c q o x k n) (hlock : (s.proc q).lock = none)
    (ht : t.proc q = x) : Known s t k := by
  cases h with
  | pass hcode hf =>
    refine (known_tail hcode).cons ?_
    rcases hf with ⟨_, -, rfl⟩ | ⟨_, _, -, rfl⟩ | ⟨_, _, -, rfl⟩ | ⟨_, -, rfl⟩ | ⟨_, -, -, rfl⟩ <;>
      rfl
  | wakeup hcode =>
    intro f hf
    rcases mem_cons.mp hf with rfl | hf
    · right
      intro ch' qs' n' heq
      cases heq
      refine .inr ⟨q, .inl ⟨c, .inl (by rw [hcode]; exact mem_cons_self)⟩, ?_, ?_⟩
      · rw [ht]
        exact hlock
      · rw [ht]
        rintro ⟨hstate, hchan⟩
        split_ifs at hstate with hs
        exact hs ⟨hstate, hchan⟩
    · exact known_tail hcode f hf
  | kill hcode | fork hcode => exact known_tail hcode
  | suspend hcode =>
    exact ((known_tail hcode).cons rfl).cons rfl
  | exitWake hcode => exact (known_tail hcode).cons rfl

omit [DecidableEq π] [DecidableEq κ] in
theorem known_recode {d : Nat} (hcpu : t.cpu c = { s.cpu c with code := k, depth := d })
    (hk : Known s t k) : Known s t (t.cpu c).code ∧ Known s t (t.cpu c).scheduler := by
  rw [hcpu]
  exact ⟨hk, known_scheduler c⟩

theorem known_of_move (hm : Move s a t) :
    Known s t (t.cpu a.cpu).code ∧ Known s t (t.cpu a.cpu).scheduler := by
  cases hm with
  | panic | stay => exact ⟨known_code _, known_scheduler _⟩
  | goto hgoto =>
    rw [hgoto.cpu]
    exact known_recode (setCode_cpu_self _) (known_of_goto hgoto)
  | @spin a c lk x k d hspin =>
    rw [hspin.cpu]
    refine known_recode (k := k) (d := d) (by simp [setSpin]) ?_
    cases hspin with
    | acquire hcode | release hcode =>
      rw [← hcode]
      exact known_code c
    | relock hcode => exact known_tail hcode
  | @wakeup c ch f k hcode hf =>
    refine known_recode (setCode_cpu_self _) fun g hg => ?_
    rcases mem_cons.mp hg with rfl | hg
    · right
      intro ch' qs n heq
      cases heq
      exact .inl ⟨rfl, rfl, rfl⟩
    · rw [← hcode] at hg
      exact known_code c g hg
  | visit hlock hvisit =>
    exact known_recode (setCode_cpu_self _) (known_of_visit hvisit hlock (by simp))
  | pick hcode =>
    simp only [Act.cpu, setCpu_cpu, if_true]
    exact ⟨known_context _, ((known_tail hcode).cons rfl).cons rfl⟩
  | switched hcode =>
    simp only [Act.cpu, setCpu_cpu, if_true]
    exact ⟨known_tail hcode, known_scheduler _⟩
  | @sleepRelease c o p ch lk k hcode hp hheld d =>
    exact known_recode (k := .sleepSched ch lk :: k) (d := d) (by simp [Act.cpu, setSpin])
      ((known_tail hcode).cons rfl)
  | resume hcode | waitReap hcode | waitNone hcode =>
    exact known_recode (setCode_cpu_self _) (known_tail hcode)
  | yield | sleepSched | exit | waitSleep =>
    exact known_recode (setCode_cpu_self _) (known_scheduler _)
  | sleepLock hcode | slept hcode | exitLockParent hcode | exitLockSelf hcode
  | reparentSkip hcode | reparentTest hcode | reparent hcode | waitLock hcode | waitSkip hcode
  | waitTest hcode | waitPass hcode | waitSlept hcode =>
    exact known_recode (setCode_cpu_self _) ((known_tail hcode).cons rfl)

/-- The calls of `wakeup` after a step. -/
theorem occurs_of_move (hsafe : Safe s a) (hinv : Inv True s) (hm : Move s a t)
    (h : Occurs t f) : Occurs s f ∨ Advances s t f := by
  obtain ⟨hcode, hsched⟩ := known_of_move hm
  rcases h with ⟨c, hf⟩ | ⟨p, hf⟩
  · rcases eq_or_ne c a.cpu with rfl | hc
    · rcases hf with hf | hf
      · exact hcode f hf
      · exact hsched f hf
    · rw [(others_of_move hinv (fun _ => hsafe) hm).cpu c hc] at hf
      exact .inl (.inl ⟨c, hf⟩)
  · exact (slotMove_of_move hsafe hm p).known f hf

/-! ## The processes that sleep -/

/-- A process in the window after the release was there before the step, or has
just released the lock. -/
theorem sleepSched_of_move (hT : Threads s) (hinv : Inv True s) (hm : Move s a t)
    (hp : (t.cpu a.cpu).proc = some p) (hcode : (t.cpu a.cpu).code = .sleepSched ch lk :: k) :
    t.cpu = s.cpu ∧ t.proc = s.proc ∨
      (t.proc p).slept = s.clock ∧ t.clock = s.clock + 1 := by
  have hquiet : ∀ {P : Prop} {k : List (Frame π)}, (t.cpu a.cpu).code = k → Quiet k → P := by
    intro P k' hk' hq
    rw [hcode] at hk'
    cases hq _ (hk' ▸ mem_cons_self)
  have hleave : ∀ {P : Prop} {p : π}, (s.cpu a.cpu).proc = some p →
      (t.cpu a.cpu).code = (s.cpu a.cpu).scheduler → P := by
    intro P p hp' heq
    obtain ⟨k', hk', -⟩ := hT.saved a.cpu p hp'
    rw [hcode, hk'] at heq
    cases heq
  cases hm with
  | panic | stay => exact .inl ⟨rfl, rfl⟩
  | goto hgoto =>
    exact hquiet (by rw [hgoto.cpu, setCode_code]) (hinv.quiet_goto hgoto)
  | spin d hspin => exact hquiet (by simp [hspin.cpu, setSpin]) (hinv.quiet_spin hspin)
  | visit hlock hvisit => exact hquiet (setCode_code _) (hinv.quiet_visit hvisit)
  | @pick c o q qs k' hcode' =>
    simp only [Act.cpu, setCpu_cpu, if_true] at hcode
    obtain ⟨f, k'', hctx, hf, -⟩ := hinv.context q
    cases hctx.symm.trans hcode
    cases hf
  | switched => simp [Act.cpu] at hp
  | resume hcode' | waitReap hcode' | waitNone hcode' =>
    exact hquiet (setCode_code _) (hinv.code _ _ _ hcode').2
  | sleepRelease hcode' hp' =>
    simp only [Act.cpu, setSpin, setCpu_cpu, if_true] at hp
    cases hp'.symm.trans hp
    exact .inr ⟨by simp [setSpin], rfl⟩
  | yield hoff hp' | sleepSched hcode' hp' | exit hcode' hp' | waitSleep hcode' hp' =>
    exact hleave hp' (setCode_code _)
  | wakeup | sleepLock | slept | exitLockParent | exitLockSelf | reparentSkip | reparentTest
  | reparent | waitLock | waitSkip | waitTest | waitPass | waitSlept =>
    cases (setCode_code _).symm.trans hcode

/-- A process that sleeps after a step slept before it, or has a new stamp. -/
theorem dozing_of_move (hT : Threads s) (hinv : Inv True s) (hm : Move s a t) (h : Dozing t p ch) :
    Dozing s p ch ∧ (t.proc p).slept = (s.proc p).slept ∨
      (t.proc p).slept = s.clock ∧ t.clock = s.clock + 1 := by
  rcases h with ⟨hsleep, hchan⟩ | ⟨c, lk, k, hp, hcode⟩
  · rcases (slotMove_of_move hT.safe hm p).asleep hT hsleep with ⟨hs, hst⟩ |
      ⟨ch', lk, k, hp, hcode, ht⟩ | ⟨hk, k, -, -, ht, hclock⟩
    · exact .inl ⟨.inl ⟨hst, hs.chan ▸ hchan⟩, hs.slept⟩
    · rw [ht] at hchan ⊢
      cases hchan
      exact .inl ⟨.inr ⟨a.cpu, lk, k, hp, hcode⟩, rfl⟩
    · exact .inr ⟨by rw [ht], hclock⟩
  · rcases eq_or_ne c a.cpu with rfl | hc
    · rcases sleepSched_of_move hT hinv hm hp hcode with ⟨hcpu, hproc⟩ | hstamp
      · rw [hcpu] at hp hcode
        exact .inl ⟨.inr ⟨a.cpu, lk, k, hp, hcode⟩, by rw [hproc]⟩
      · exact .inr hstamp
    · have ho := others_of_move hinv (fun _ => hT.safe) hm
      rw [ho.cpu c hc] at hp hcode
      obtain ⟨p', hp', hlock, -⟩ := (hinv.code c _ k hcode).1
      cases hp.symm.trans hp'
      exact .inl ⟨.inr ⟨c, lk, k, hp, hcode⟩, by rw [ho.locked hc hlock]⟩

theorem clock_of_move (hm : Move s a t) : s.clock ≤ t.clock := by
  cases hm with
  | wakeup | sleepRelease | waitSleep => exact Nat.le_succ _
  | panic | stay | goto | spin | visit | pick | switched | resume | yield | sleepLock
  | sleepSched | slept | exitLockParent | exitLockSelf | reparentSkip | reparentTest | reparent
  | exit | waitLock | waitSkip | waitTest | waitPass | waitReap | waitNone | waitSlept =>
    exact Nat.le_refl _

theorem Wakeups.move (h : Wakeups s) (hT : Threads s) (hinv : Inv True s) (hm : Move s a t) :
    Wakeups t := by
  have hinv' := hinv.move (fun _ => hT.safe) hm
  have hclock := clock_of_move hm
  refine ⟨fun p ch hdoze => ?_, fun ch qs n hocc => ?_, fun p ch qs n hocc hdoze hlt => ?_⟩
  · rcases dozing_of_move hT hinv hm hdoze with ⟨hdoze', hslept⟩ | ⟨hslept, hnext⟩
    · rw [hslept]
      exact Nat.lt_of_lt_of_le (h.past p ch hdoze') hclock
    · omega
  · rcases occurs_of_move hT.safe hinv hm hocc with hold | hadv
    · exact Nat.lt_of_lt_of_le (h.began ch qs n hold) hclock
    · rcases hadv ch qs n rfl with ⟨rfl, -, hnext⟩ | ⟨q, hold, -⟩
      · omega
      · exact Nat.lt_of_lt_of_le (h.began ch _ n hold) hclock
  · -- a call that had begun before the step
    have hold : ∀ qs', Occurs s (.wakeup ch qs' n) → p ∈ qs' := by
      intro qs' hocc'
      rcases dozing_of_move hT hinv hm hdoze with ⟨hdoze', hslept⟩ | ⟨hstamp, -⟩
      · exact h.front p ch qs' n hocc' hdoze' (hslept ▸ hlt)
      · have := h.began ch qs' n hocc'
        omega
    rcases occurs_of_move hT.safe hinv hm hocc with hocc' | hadv
    · exact hold qs hocc'
    · rcases hadv ch qs n rfl with ⟨-, rfl, -⟩ | ⟨q, hocc', hlock, hawake⟩
      · exact hinv.table_all p
      · rcases mem_cons.mp (hold _ hocc') with rfl | hmem
        · rcases hdoze with hsleep | ⟨c, lk, k, hp, hcode⟩
          · exact absurd hsleep hawake
          · -- in the window the process holds the lock of its slot
            obtain ⟨p', hp', hheld, -⟩ := (hinv'.code c _ k hcode).1
            cases hp.symm.trans hp'
            rw [hlock] at hheld
            cases hheld
        · exact hmem

omit [DecidableEq π] [DecidableEq κ] in
theorem PState.Init.wakeups (h : s.Init) : Wakeups s := by
  have hnone : ∀ ch qs n, ¬Occurs s (.wakeup ch qs n) := by
    rintro ch qs n (⟨c, hf⟩ | ⟨p, hf⟩)
    · rw [(h.idle c).2.1, (h.idle c).2.2] at hf
      simp at hf
    · rcases (h.slot p).2.2.2 with hctx | hctx <;> simp [hctx] at hf
  refine ⟨fun p ch hdoze => ?_, fun ch qs n hocc => absurd hocc (hnone ch qs n),
    fun p ch qs n hocc => absurd hocc (hnone ch qs n)⟩
  rcases hdoze with ⟨hsleep, -⟩ | ⟨c, lk, k, hp, -⟩
  · rcases (h.slot p).1 with hst | hst <;> simp [hst] at hsleep
  · rw [(h.idle c).1] at hp
    cases hp

/-! ## Whole runs -/

/-- The invariants of the runs without `ksuspend`. -/
structure Sane (s : PState π κ) : Prop where
  inv : Inv True s
  threads : Threads s
  chans : Chans s
  wakeups : Wakeups s

theorem Sane.step (h : Sane s) (hplain : a.plain)
    (hstep : (processes π κ).step s a = some t) : Sane t := by
  have hm := (move_of_step hstep).2
  exact ⟨h.inv.move (fun _ => h.threads.safe) hm, h.threads.move h.inv hplain hm,
    h.chans.move h.threads h.inv hplain hm, h.wakeups.move h.threads h.inv hm⟩

theorem Sane.run (h : Sane s) (hplain : ∀ a ∈ as, a.plain = true)
    (hrun : (processes π κ).run s as = some t) : Sane t :=
  (processes π κ).run_invariant_of_forall (fun _ _ _ hu ha hstep => hu.step ha hstep) h hplain hrun

omit [DecidableEq π] [DecidableEq κ] in
theorem PState.Init.sane (h : s.Init) : Sane s :=
  ⟨h.inv, h.threads, h.chans, h.wakeups⟩

/-- After state `s` some thread calls `wakeup(ch)`, and this call, the one with
this time, has visited all slots in state `t`. -/
def Wakes (s : PState π κ) (ch : Chan π) (t : PState π κ) : Prop :=
  ∃ bs u c v ds c' k, (∀ b ∈ bs, b.plain = true) ∧ (processes π κ).run s bs = some u ∧
    (processes π κ).step u (.wakeup c ch) = some v ∧ (∀ d ∈ ds, d.plain = true) ∧
    (processes π κ).run v ds = some t ∧ (t.cpu c').code = .wakeup ch [] u.clock :: k

/-- The sleep of `p` that began at time `n` is on channel `ch`. -/
theorem channel_of_run {n : Nat} (hs : Sane s) (hn : n < s.clock)
    (hch : (s.proc p).slept = n → ∀ ch', Dozing s p ch' → ch' = ch)
    (hplain : ∀ a ∈ as, a.plain = true) (hrun : (processes π κ).run s as = some t) :
    n < t.clock ∧ ((t.proc p).slept = n → ∀ ch', Dozing t p ch' → ch' = ch) := by
  refine ((processes π κ).run_invariant_of_forall (G := fun a => a.plain = true)
    (I := fun u => Sane u ∧ n < u.clock ∧
      ((u.proc p).slept = n → ∀ ch', Dozing u p ch' → ch' = ch))
    (fun u a v hu ha hstep => ⟨hu.1.step ha hstep, ?_⟩) ⟨hs, hn, hch⟩ hplain hrun).2
  obtain ⟨hsane, hlt, hsame⟩ := hu
  have hm := (move_of_step hstep).2
  refine ⟨Nat.lt_of_lt_of_le hlt (clock_of_move hm), fun hslept ch' hdoze => ?_⟩
  rcases dozing_of_move hsane.threads hsane.inv hm hdoze with ⟨hdoze', heq⟩ | ⟨heq, -⟩
  · exact hsame (heq ▸ hslept) ch' hdoze'
  · omega

theorem not_asleep_of_wakes (hs : Sane s) (hp : (s.cpu c).proc = some p)
    (hcode : (s.cpu c).code = .sleepSched ch lk :: k) (hwakes : Wakes s ch t) :
    ¬((t.proc p).state = .sleeping ∧ (t.proc p).slept = (s.proc p).slept) := by
  rintro ⟨hsleep, hslept⟩
  obtain ⟨bs, u, c1, v, ds, c2, k', hbs, hu, hv, hds, ht, hend⟩ := hwakes
  have hrunning : (s.proc p).state = .running := by
    obtain ⟨p', hp', hrun, -⟩ := hs.threads.running hcode rfl
    cases hp.symm.trans hp'
    exact hrun
  have hch : (s.proc p).slept = (s.proc p).slept → ∀ ch', Dozing s p ch' → ch' = ch := by
    rintro - ch' (⟨hsl, -⟩ | ⟨c', lk', k', hp', hcode'⟩)
    · rw [hrunning] at hsl
      cases hsl
    · cases hs.inv.one trivial c c' p hp hp'
      cases hcode.symm.trans hcode'
      rfl
  have hpast := hs.wakeups.past p ch (.inr ⟨c, lk, k, hp, hcode⟩)
  have hsu : Sane u := hs.run hbs hu
  have hsv : Sane v := hsu.step rfl hv
  have hst : Sane t := hsv.run hds ht
  obtain ⟨hu', hchu⟩ := channel_of_run hs hpast hch hbs hu
  have hall : (processes π κ).run u (.wakeup c1 ch :: ds) = some t := by
    rw [Machine.run_cons, hv]
    exact ht
  obtain ⟨-, hcht⟩ := channel_of_run hsu hu' hchu
    (fun d hd => (mem_cons.mp hd).elim (fun h => by rw [h]; rfl) (hds d)) hall
  have hchan : (t.proc p).chan = ch := hcht hslept _ (.inl ⟨hsleep, rfl⟩)
  have hmem := hst.wakeups.front p ch [] u.clock
    (.inl ⟨c2, .inl (by rw [hend]; exact mem_cons_self)⟩) (.inl ⟨hsleep, hchan⟩)
    (by omega)
  cases hmem

/-- The two calls of `wakeup1` in `exit`. -/
def Frame.wakes1 (s : PState π κ) (p : π) : Frame π → Prop
  | .exitWake _ => p = s.initproc
  | .reparent _ op [] => p = op
  | _ => False

theorem woken1_of_exec (hf : f.wakes1 s p)
    (h : s.exec c o k f = .ok t) : (t.proc p).state = s.woken1 p := by
  cases f with
  | exitWake status =>
    cases hf
    obtain ⟨-, h⟩ := acquire_bind h
    obtain ⟨w, hw, h⟩ := bind_eq_ok.mp h
    obtain ⟨-, h⟩ := release_bind h
    cases h
    rw [wakeup1_eq_ok hw]
    simp [setState, woken1]
  | reparent status op qs =>
    cases qs with
    | nil =>
      cases hf
      obtain ⟨r, hr, h⟩ := myproc_bind h
      obtain ⟨w, hw, h⟩ := bind_eq_ok.mp h
      obtain ⟨-, h⟩ := release_bind h
      obtain ⟨hlock, rfl⟩ := sched_eq_ok h
      have hne : p ≠ r := by
        rintro rfl
        simp at hlock
      rw [wakeup1_eq_ok hw]
      simp [setState, hne]
    | cons q qs => cases hf
  | busy | handler | scheduler | switched | yielded | forkret | sleepLock | sleepRelease
  | sleepSched | slept | relock | exited | zeroed | wakeup | kill | suspend | fork | exitParent
  | exitLockParent | exitLockSelf | reparentChild | waitLock | waitScan | waitChild | waitSlept =>
    cases hf

/-- What `sleep`, `wakeup` and `wakeup1` promise in a state that a run
reaches. -/
structure NoLostWakeup (s : PState π κ) : Prop where
  /-- A process that has released `lk` in `sleep(ch, lk)` does not sleep on when
  a call of `wakeup(ch)` that began after the release is complete. -/
  wakeup : ∀ c p ch lk k t, (s.cpu c).proc = some p →
    (s.cpu c).code = .sleepSched ch lk :: k → Wakes s ch t →
    ¬((t.proc p).state = .sleeping ∧ (t.proc p).slept = (s.proc p).slept)
  /-- Nor does a process in `wait` after a `wakeup1` for it. -/
  wakeup1 : ∀ c o f k p t, (s.cpu c).code = f :: k → f.wakes1 s p →
    (processes π κ).step s (.step c o) = some t → t.panicked = none → ¬SleepsInWait t p
  /-- `sleep` returns with the lock and without a channel. -/
  returns : ∀ c o lk k p t, (s.cpu c).code = .relock lk :: k → (s.cpu c).proc = some p →
    (processes π κ).step s (.step c o) = some t → t.panicked = none →
    t.spin lk = some c ∧ (t.proc p).chan = .zero
  /-- So does the `sleep` of `wait` with `lk = &p->lock`. -/
  waitReturns : ∀ c o k p t, (s.cpu c).code = .waitSlept :: k → (s.cpu c).proc = some p →
    (processes π κ).step s (.step c o) = some t → t.panicked = none →
    (t.proc p).lock = some c ∧ (t.proc p).chan = .zero

/-- A step that does not panic runs the innermost frame. -/
theorem exec_of_step (hcode : (s.cpu c).code = f :: k)
    (hstep : (processes π κ).step s (.step c o) = some t) (hok : t.panicked = none) :
    s.exec c o k f = .ok t := by
  rcases act_of_step hstep with hact | ⟨e, rfl⟩
  · simpa only [act, hcode] using hact
  · cases hok

theorem Sane.noLostWakeup (h : Sane s) : NoLostWakeup s where
  wakeup c p ch lk k t hp hcode hwakes := not_asleep_of_wakes h hp hcode hwakes
  wakeup1 c o f k p t hcode hf hstep hok := by
    rintro ⟨hsleep, k', hctx⟩
    have hwoken := woken1_of_exec hf (exec_of_step hcode hstep hok)
    rw [hsleep] at hwoken
    have hm := (move_of_step hstep).2
    -- it slept on its own address before the step, so `wakeup1` has woken it
    rcases (slotMove_of_move h.threads.safe hm p).asleep h.threads hsleep with ⟨hs, hst⟩ |
      ⟨_, _, _, -, hcode', -⟩ | ⟨_, _, -, hcode', -⟩
    · have hchan := h.chans.waits p k' hst (hs.context ▸ hctx)
      rw [woken1, if_pos ⟨hchan, hst⟩] at hwoken
      cases hwoken
    · cases hcode.symm.trans hcode'
      cases hf
    · cases hcode.symm.trans hcode'
      cases hf
  returns c o lk k p t hcode hp hstep hok := by
    obtain ⟨u, hu, heq⟩ := bind_eq_ok.mp (exec_of_step hcode hstep hok)
    cases heq
    have hzero : (s.proc p).chan = .zero := by
      refine h.chans.zero h.threads hp fun f k' hcode' => ?_
      cases hcode.symm.trans hcode'
      rfl
    obtain ⟨-, rfl⟩ := acquireSpin_eq_ok hu
    exact ⟨by simp [setSpin, setCode, setCpu], hzero⟩
  waitReturns c o k p t hcode hp hstep hok := by
    obtain ⟨p', hp', heq⟩ := myproc_bind (exec_of_step hcode hstep hok)
    cases hp.symm.trans hp'
    cases heq
    simp [(Owns.of_proc (h.inv.code c _ k hcode).1 hp).1]

/-- In every run without `ksuspend` no wakeup is lost. -/
theorem no_lost_wakeup {s₀ : PState π κ} (hinit : s₀.Init) (hplain : ∀ a ∈ as, a.plain = true)
    (hrun : (processes π κ).run s₀ as = some s) : NoLostWakeup s :=
  (hinit.sane.run hplain hrun).noLostWakeup

/-- The first process takes lock 7 and releases it in `sleep`. -/
def releaseInSleep : List (Act (Fin NPROC) (Fin NCPU)) :=
  [.step cpu0 .ok, .step cpu0 .ok, .step cpu0 .ok, .call cpu0 .other, .acquire cpu0 7,
    .sleep cpu0 (.addr 5) 7, .step cpu0 .ok, .step cpu0 .ok]

/-- The handler of an interrupt on CPU 1 takes lock 7 before the first process
has switched away. -/
def handlerLocks : List (Act (Fin NPROC) (Fin NCPU)) := [.interrupt cpu1, .acquire cpu1 7]

/-- The first process switches away, and the handler visits all slots. -/
def handlerWakes : List (Act (Fin NPROC) (Fin NCPU)) :=
  [.step cpu0 .ok, .step cpu0 .ok] ++ List.replicate NPROC (.step cpu1 .ok)

/-- CPU 1 is at the end of the first call of `wakeup`. -/
def wakeupDone (s : PState (Fin NPROC) (Fin NCPU)) : Bool :=
  match (s.cpu cpu1).code with
  | .wakeup ch [] n :: _ => ch = .addr 5 ∧ n = 1
  | _ => false

/-- The wakeup of the handler reaches the first process. -/
theorem woken_in_window : ∃ s t,
    (processes (Fin NPROC) (Fin NCPU)).run booted releaseInSleep = some s ∧
    Wakes s (.addr 5) t ∧
    ¬((t.proc booted.initproc).state = .sleeping ∧
      (t.proc booted.initproc).slept = (s.proc booted.initproc).slept) := by
  obtain ⟨s, k, u, hs, hproc, hcode, hu, hclock⟩ : ∃ s k u,
      (processes (Fin NPROC) (Fin NCPU)).run booted releaseInSleep = some s ∧
      (s.cpu cpu0).proc = some booted.initproc ∧
      (s.cpu cpu0).code = .sleepSched (.addr 5) 7 :: k ∧
      (processes (Fin NPROC) (Fin NCPU)).run s handlerLocks = some u ∧ u.clock = 1 :=
    ⟨_, _, _, rfl, rfl, rfl, rfl, rfl⟩
  have hend : ((processes (Fin NPROC) (Fin NCPU)).run booted
      (releaseInSleep ++ (handlerLocks ++ .wakeup cpu1 (.addr 5) :: handlerWakes))).map
      wakeupDone = some true := by decide +kernel
  rw [Machine.run_append, hs, Option.bind_some, Machine.run_append, hu, Option.bind_some] at hend
  obtain ⟨t, hrest, hend⟩ := Option.map_eq_some_iff.mp hend
  obtain ⟨v, hv, ht⟩ := Machine.run_cons_eq_some _ hrest
  have hwakes : Wakes s (.addr 5) t := by
    unfold wakeupDone at hend
    split at hend
    · rename_i ch n k hcode
      obtain ⟨rfl, rfl⟩ := of_decide_eq_true hend
      exact ⟨handlerLocks, u, cpu1, v, handlerWakes, cpu1, k, by decide, hu, hv, by decide +kernel,
        ht, hclock ▸ hcode⟩
    · cases hend
  exact ⟨s, t, hs, hwakes,
    (no_lost_wakeup booted_init (by decide) hs).wakeup cpu0 _ _ 7 k t hproc hcode hwakes⟩

end SummerOsk.Sched
