import SummerOsk.Trace.Buffers

/-!
# Tracing is transparent

A handler is transparent in a state if it returns the same with the tracing flag
set and not, if no access to a local array is out of bounds, and if the text of
the trace follows from the process id, the arguments and the memory of the
process.  All handlers are transparent in all states, with three exceptions:
`sys_write`, which prints from an array whose length is not set, `sys_suspend`,
which prints an array that was never written, and `sys_pipe`, which prints the
descriptors that it returns.
-/

namespace SummerOsk.Trace

open Lib Vm Function List

variable {φ ι π κ α β : Type} {max : Nat}

/-! ## Runs -/

theorem run_bind (m : M φ κ α) (f : α → M φ κ β) (s : State φ κ) :
    (m >>= f) s = match m s with
      | (.ok a, t) => f a t
      | (.error e, t) => (.error e, t) := by
  have hbind : (m >>= f) s = ExceptT.bindCont f (m s).1 (m s).2 := rfl
  rw [hbind]
  rcases m s with ⟨r, t⟩
  cases r with
  | ok a => rfl
  | error e => rfl

/-- No access to an array was out of bounds. -/
def InBounds (r : Except Fault α) : Prop := ∀ b i, r ≠ .error (.outOfBounds b i)

theorem inBounds_ok (a : α) : InBounds (.ok a) := nofun

theorem inBounds_panic (msg : String) : InBounds (.error (.panic msg) : Except Fault α) := nofun

/-- A program that prints nothing and does not depend on the flag. -/
def Quiet (m : M φ κ α) : Prop :=
  ∀ k, ∃ r k', (∀ tr out, m ⟨k, tr, out⟩ = (r, ⟨k', tr, out⟩)) ∧ InBounds r

/-- The same, and that leaves `v` as the call, with what holds of the
result. -/
def Steady (v : Call) (m : M φ κ α) (P : α → Prop) : Prop :=
  ∀ k : Kernel φ κ, k.toCall = v → ∃ r k', (∀ tr out, m ⟨k, tr, out⟩ = (r, ⟨k', tr, out⟩)) ∧
    InBounds r ∧ k'.toCall = v ∧ ∀ a, r = .ok a → P a

/-- A program that prints the text `T` or nothing, if the flag is set, and does
not depend on the flag otherwise. -/
def Fine (v : Call) (T : List UInt8) (m : M φ κ α) : Prop :=
  ∀ k : Kernel φ κ, k.toCall = v → ∃ r k' t, InBounds r ∧ (t = [] ∨ t = T) ∧
    (∀ out, m ⟨k, false, out⟩ = (r, ⟨k', false, out⟩)) ∧
    ∀ out, m ⟨k, true, out⟩ = (r, ⟨k', true, out ++ t⟩)

/-! ## Rules -/

section

variable {v : Call} {T : List UInt8} {m : M φ κ α} {f : α → M φ κ β} {P : α → Prop} {a : α}

theorem Quiet.pure (a : α) : Quiet (Pure.pure a : M φ κ α) := fun k =>
  ⟨.ok a, k, fun _ _ => rfl, inBounds_ok a⟩

theorem Quiet.call (x : Fun (Kernel φ κ) α) : Quiet (Trace.call x) := by
  intro k
  rcases hx : x k with ⟨r, k'⟩
  cases r with
  | ok a => exact ⟨.ok a, k', fun tr out => by simp only [Trace.call, hx], inBounds_ok a⟩
  | error msg =>
    exact ⟨.error (.panic msg), k', fun tr out => by simp only [Trace.call, hx], inBounds_panic msg⟩

theorem Quiet.bind (hm : Quiet m) (hf : ∀ a, Quiet (f a)) : Quiet (m >>= f) := by
  intro k
  obtain ⟨r, k', hrun, hr⟩ := hm k
  cases r with
  | ok a =>
    obtain ⟨r', k'', hrun', hr'⟩ := hf a k'
    refine ⟨r', k'', fun tr out => ?_, hr'⟩
    rw [run_bind, hrun]
    exact hrun' tr out
  | error e =>
    refine ⟨.error e, k', fun tr out => ?_, fun b i he => ?_⟩
    · rw [run_bind, hrun]
    · exact hr b i (by rw [Except.error.inj he])

theorem Quiet.ite {b : Prop} [Decidable b] {m' : M φ κ α} (hm : Quiet m) (hm' : Quiet m') :
    Quiet (if b then m else m') := by
  by_cases h : b
  · rw [if_pos h]
    exact hm
  · rw [if_neg h]
    exact hm'

theorem Quiet.myproc : Quiet (Trace.myproc : M φ κ (Caller φ)) := fun k =>
  ⟨.ok k.toCaller, k, fun _ _ => rfl, inBounds_ok _⟩

theorem Quiet.setOfile (fd : Fin NOFILE) (o : Option φ) :
    Quiet (Trace.setOfile fd o : M φ κ Unit) := fun k =>
  ⟨.ok (), { k with ofile := update k.ofile fd o }, fun _ _ => rfl, inBounds_ok _⟩

theorem Quiet.callRest (x : Fun κ α) : Quiet (Trace.callRest x : M φ κ α) := Quiet.call _

theorem Steady.bind {Q : β → Prop} (hm : Steady v m P) (hf : ∀ a, P a → Steady v (f a) Q) :
    Steady v (m >>= f) Q := by
  intro k hk
  obtain ⟨r, k', hrun, hr, hk', hP⟩ := hm k hk
  cases r with
  | ok a =>
    obtain ⟨r', k'', hrun', hr', hk'', hQ⟩ := hf a (hP a rfl) k' hk'
    refine ⟨r', k'', fun tr out => ?_, hr', hk'', hQ⟩
    rw [run_bind, hrun]
    exact hrun' tr out
  | error e =>
    refine ⟨.error e, k', fun tr out => ?_, fun b i he => ?_, hk', nofun⟩
    · rw [run_bind, hrun]
    · exact hr b i (by rw [Except.error.inj he])

theorem Steady.pure (h : P a) : Steady v (Pure.pure a : M φ κ α) P := fun k hk =>
  ⟨.ok a, k, fun _ _ => rfl, inBounds_ok a, hk, fun _ he => Except.ok.inj he ▸ h⟩

theorem Steady.myproc : Steady v (Trace.myproc : M φ κ (Caller φ)) fun p => p.toCall = v :=
  fun k hk => ⟨.ok k.toCaller, k, fun _ _ => rfl, inBounds_ok _, hk, fun _ he =>
    Except.ok.inj he ▸ hk⟩

theorem Steady.callRest (x : Fun κ α) : Steady v (Trace.callRest x : M φ κ α) fun _ => True := by
  intro k hk
  rcases hx : x k.rest with ⟨r, rest⟩
  cases r with
  | ok a =>
    exact ⟨.ok a, { k with rest := rest }, fun tr out => by
      simp only [Trace.callRest, Trace.call, hx], inBounds_ok a, hk, fun _ _ => trivial⟩
  | error msg =>
    exact ⟨.error (.panic msg), { k with rest := rest }, fun tr out => by
      simp only [Trace.callRest, Trace.call, hx], inBounds_panic msg, hk, fun _ _ => trivial⟩

theorem Steady.setOfile (fd : Fin NOFILE) (o : Option φ) :
    Steady v (Trace.setOfile fd o : M φ κ Unit) fun _ => True := fun k hk =>
  ⟨.ok (), { k with ofile := update k.ofile fd o }, fun _ _ => rfl, inBounds_ok _, hk,
    fun _ _ => trivial⟩

theorem Steady.panic (msg : String) : Steady v (throw (.panic msg) : M φ κ α) P := fun k hk =>
  ⟨.error (.panic msg), k, fun _ _ => rfl, inBounds_panic msg, hk, nofun⟩

theorem Steady.fdalloc (x : φ) : Steady v (Trace.fdalloc x : M φ κ _) fun _ => True := by
  refine Steady.myproc.bind fun p _ => ?_
  cases freeFd p.ofile with
  | none => exact Steady.pure trivial
  | some fd => exact (Steady.setOfile _ _).bind fun _ _ => Steady.pure trivial

theorem Steady.throwFault {x : Except Fault α} (h : x = .ok a) :
    Steady v (Trace.throwFault x : M φ κ α) fun b => b = a := by
  rw [h]
  exact Steady.pure rfl

theorem Fine.of_quiet (h : Quiet m) : Fine v T m := by
  intro k _
  obtain ⟨r, k', hrun, hr⟩ := h k
  refine ⟨r, k', [], hr, .inl rfl, hrun false, fun out => ?_⟩
  rw [hrun, append_nil]

theorem Fine.bind (hm : Steady v m P) (hf : ∀ a, P a → Fine v T (f a)) : Fine v T (m >>= f) := by
  intro k hk
  obtain ⟨r, k', hrun, hr, hk', hP⟩ := hm k hk
  cases r with
  | ok a =>
    obtain ⟨r', k'', t, hr', ht, hoff, hon⟩ := hf a (hP a rfl) k' hk'
    refine ⟨r', k'', t, hr', ht, fun out => ?_, fun out => ?_⟩
    · rw [run_bind, hrun]
      exact hoff out
    · rw [run_bind, hrun]
      exact hon out
  | error e =>
    refine ⟨.error e, k', [], fun b i he => ?_, .inl rfl, fun out => ?_, fun out => ?_⟩
    · exact hr b i (by rw [Except.error.inj he])
    · rw [run_bind, hrun]
    · rw [run_bind, hrun, append_nil]

theorem Fine.myproc {f : Caller φ → M φ κ β} (hf : ∀ p, p.toCall = v → Fine v T (f p)) :
    Fine v T (Trace.myproc >>= f) :=
  Fine.bind Steady.myproc hf

theorem Fine.callRest {x : Fun κ α} (hf : ∀ a, Fine v T (f a)) :
    Fine v T (Trace.callRest x >>= f) :=
  Fine.bind (Steady.callRest x) fun a _ => hf a

theorem whenTracing_on (text : Call → Except Fault (List UInt8)) (k : Kernel φ κ)
    (out : List UInt8) :
    (Trace.whenTracing text : M φ κ Unit) ⟨k, true, out⟩ =
      match text k.toCall with
      | .ok t => (.ok (), ⟨k, true, out ++ t⟩)
      | .error e => (.error e, ⟨k, true, out⟩) := by
  have hrun : (Trace.whenTracing text : M φ κ Unit) ⟨k, true, out⟩ =
      (match text k.toCall with
        | .ok t => set (⟨k, true, out ++ t⟩ : State φ κ)
        | .error e => throw e : M φ κ Unit) ⟨k, true, out⟩ := rfl
  rw [hrun]
  cases text k.toCall with
  | ok t => rfl
  | error e => rfl

/-- The text is printed. -/
theorem Fine.whenTracing {text : Call → Except Fault (List UInt8)} {m : M φ κ β}
    (ht : text v = .ok T) (hm : Quiet m) : Fine v T (Trace.whenTracing text >>= fun _ => m) := by
  intro k hk
  obtain ⟨r, k', hrun, hr⟩ := hm k
  refine ⟨r, k', T, hr, .inr rfl, fun out => ?_, fun out => ?_⟩
  · exact hrun false out
  · have htrace : Trace.whenTracing text ⟨k, true, out⟩ = (.ok (), ⟨k, true, out ++ T⟩) := by
      rw [whenTracing_on, hk, ht]
    rw [run_bind, htrace]
    exact hrun true _

theorem Fine.trace {fmt : String} {args : Except Fault (List Arg)} {m : M φ κ β} (as : List Arg)
    (hargs : args = .ok as) (hT : printf fmt (.int v.pid :: as) = T) (hm : Quiet m) :
    Fine v T (Trace.trace fmt args >>= fun _ => m) := by
  refine Fine.whenTracing ?_ hm
  rw [hargs, ← hT]
  rfl

end

/-! ## Strings -/

theorem toNat_max (h : max < 2 ^ 64) : ((max : Int) % 2 ^ 64).toNat = max := by
  omega

/-- The string that an argument points to. -/
def Call.str (p : Call) (i : Fin NARG) (max : Nat) : Option (List UInt8) :=
  userStr p.mem (p.argaddr i).toNat max

/-- A string from user memory, in an array with room for `max` bytes. -/
theorem fetchstr_array (mem : Nat → Option UInt8) (addr : BitVec 64) (g : Frame) (name : String)
    (hmax : max < 2 ^ 64) :
    ∃ buf n, fetchstr mem addr (g.array name max) max = .ok (buf, n) ∧
      (userStr mem addr.toNat max = none ∧ n < 0 ∨
        ∃ s, userStr mem addr.toNat max = some s ∧ ¬ n < 0 ∧ buf.str = .ok s) := by
  have hle := copied_length_le mem addr.toNat max
  have hcopied :
      copied mem addr.toNat (((max : Int) % 2 ^ 64).toNat) = copied mem addr.toNat max := by
    rw [toNat_max hmax]
  have heq := fetchstr_eq (b := g.array name max) hcopied
  rw [if_pos (by exact hle)] at heq
  refine ⟨_, _, heq, ?_⟩
  by_cases hmem : 0 ∈ copied mem addr.toNat max
  · refine .inr ⟨_, if_pos hmem, ?_, str_put_copied hmem (by exact hle)⟩
    rw [if_pos hmem]
    omega
  · refine .inl ⟨if_neg hmem, ?_⟩
    rw [if_neg hmem]
    decide

variable {v : Call} {g : Frame} {i : Fin NARG}

theorem Steady.argstr (name : String) (i : Fin NARG) (hmax : max < 2 ^ 64) :
    Steady v (Trace.argstr g name i max : M φ κ (Option Buf)) fun o =>
      ∀ buf, o = some buf → ∃ s, v.str i max = some s ∧ buf.str = .ok s := by
  refine Steady.myproc.bind fun p hp => ?_
  obtain ⟨buf, n, hfetch, hstr⟩ := fetchstr_array p.mem (p.argaddr i) g name hmax
  rw [hfetch]
  show Steady v (if n < 0 then Pure.pure none else Pure.pure (some buf)) _
  rcases hstr with ⟨-, hn⟩ | ⟨s, hs, hn, hbuf⟩
  · rw [if_pos hn]
    exact Steady.pure nofun
  · rw [if_neg hn]
    refine Steady.pure fun buf' he => ⟨s, ?_, Option.some.inj he ▸ hbuf⟩
    rw [← hp]
    exact hs

/-- A string argument is there or not. -/
theorem Fine.argstr {T : List UInt8} {f : Option Buf → M φ κ α} {name : String}
    (hmax : max < 2 ^ 64) (hnone : Quiet (f none))
    (hsome : ∀ path s, v.str i max = some s → path.str = .ok s → Fine v T (f (some path))) :
    Fine v T (Trace.argstr g name i max >>= f) := by
  refine Fine.bind (Steady.argstr name i hmax) fun o ho => ?_
  cases o with
  | none => exact Fine.of_quiet hnone
  | some path =>
    obtain ⟨s, hs, hstr⟩ := ho path rfl
    exact hsome path s hs hstr

theorem argfd_fst {p : Caller φ} {fd : Fin NOFILE} {f : φ}
    (h : p.argfd i = some (fd, f)) : (fd.val : Int) = p.argint i := by
  unfold Caller.argfd at h
  split_ifs at h with hfd
  obtain ⟨_, _, he⟩ := Option.map_eq_some_iff.mp h
  rw [← (Prod.mk.inj he).1]
  exact Int.toNat_of_nonneg hfd.1

/-! ## The handlers -/

/-- The string of a path argument. -/
def Call.path (p : Call) (i : Fin NARG) (max : Nat) : Arg := .str ((p.str i max).getD [])

/-- The strings of the argument vector at `uargv`, from entry `i` on. -/
def Call.args (p : Call) (uargv : BitVec 64) (i : Nat) : Nat → Option (List (List UInt8))
  | 0 => none
  | k + 1 =>
    match fetchaddr p (uargv + 8 * BitVec.ofNat 64 i) with
    | none => none
    | some uarg =>
      if uarg = 0 then some []
      else
        match userStr p.mem uarg.toNat PGSIZE with
        | none => none
        | some s => (p.args uargv (i + 1) k).map (s :: ·)

/-- The bytes that `sys_write` copies for its trace. -/
def Call.written (p : Call) : List UInt8 :=
  copied p.mem (p.argaddr 1).toNat (p.argint 2 % 2 ^ 64).toNat

/-- The text of a trace, from what the process knows.  For `sys_pipe` and
`sys_suspend` it does not follow from that. -/
def Handler.text (h : Handler) (p : Call) : List UInt8 :=
  match h with
  | .exit => printf "\n[%d]sys_exit(%d)" [.int p.pid, .int (p.argint 0)]
  | .getpid => printf "\n[%d]sys_getpid()" [.int p.pid]
  | .fork => printf "\n[%d]sys_fork()" [.int p.pid]
  | .wait => printf "\n[%d]sys_wait(%d)" [.int p.pid, .int (intOfAddr (p.argaddr 0))]
  | .sbrk => printf "\n[%d]sys_sbrk(%d)" [.int p.pid, .int (p.argint 0)]
  | .sleep => printf "\n[%d]sys_sleep(%d)" [.int p.pid, .int (p.argint 0)]
  | .kill => printf "\n[%d]sys_kill(%d)" [.int p.pid, .int (p.argint 0)]
  | .uptime => printf "\n[%d]sys_uptime()" [.int p.pid]
  | .ps => printf "[%d]ps" [.int p.pid]
  | .resume => printf "\n[%d]sys_resumeproc(%s)" [.int p.pid, p.path 0 16]
  | .dup => printf "\n[%d]sys_dup(%d, " [.int p.pid, .int (p.argint 0)]
  | .read => printf "\n[%d]sys_read(%d, %d, %d) "
      [.int p.pid, .int (p.argint 0), .int (intOfAddr (p.argaddr 1)), .int (p.argint 2)]
  | .close => printf "\n[%d]sys_close(%d) " [.int p.pid, .int (p.argint 0)]
  | .fstat => printf "\n[%d]sys_fstat(%d, %d) "
      [.int p.pid, .int (p.argint 0), .int (intOfAddr (p.argaddr 1))]
  | .link => printf "\n[%d]sys_link(%s, %s) " [.int p.pid, p.path 0 MAXPATH, p.path 1 MAXPATH]
  | .unlink => printf "\n[%d]sys_unlink(%s)" [.int p.pid, p.path 0 MAXPATH]
  | .open => printf "\n[%d]sys_open(%s, %d)" [.int p.pid, p.path 0 MAXPATH, .int (p.argint 1)]
  | .mkdir => printf "\n[%d]sys_mkdir(%s)" [.int p.pid, p.path 0 MAXPATH]
  | .mknod => printf "\n[%d]sys_mknod(%s, %d, %d)"
      [.int p.pid, p.path 0 MAXPATH, .int (p.argint 1), .int (p.argint 2)]
  | .chdir => printf "\n[%d]sys_chdir(%s)" [.int p.pid, p.path 0 MAXPATH]
  | .exec => printf "\n[%d]sys_exec(%s" [.int p.pid, p.path 0 MAXPATH] ++
      (((p.args (p.argaddr 1) 0 MAXARG).getD []).flatMap fun s => printf ", %s" [.str s]) ++
      printf ")" []
  | .write => printf "\n[%d]sys_write(%d, " [.int p.pid, .int (p.argint 0)] ++
      (p.written.take (p.argint 2).toNat).flatMap cputcEncoded ++ printf ", %d)" [.int (p.argint 2)]
  | .pipe | .suspend => []

section

variable (c : Callees φ ι π κ) {s : List UInt8} {ss : List (List UInt8)}

theorem path_eq (hs : v.str i max = some s) : v.path i max = .str s := by
  rw [Call.path, hs]
  rfl

theorem fine_exit : Fine v (Handler.text .exit v) (sysExit c) := by
  refine .myproc fun p hp => .trace _ rfl (by rw [← hp]; rfl) ?_
  exact .bind (.call _) fun _ => .pure _

theorem fine_getpid : Fine v (Handler.text .getpid v) (sysGetpid : M φ κ Int) :=
  .trace _ rfl rfl (.bind .myproc fun _ => .pure _)

theorem fine_sbrk : Fine v (Handler.text .sbrk v) (sysSbrk c) := by
  refine .myproc fun p hp => .trace _ rfl (by rw [← hp]; rfl) ?_
  exact .bind .myproc fun p => .bind (.call _) fun r => .ite (.pure _) (.pure _)

theorem fine_resume : Fine v (Handler.text .resume v) (sysResume c g) := by
  refine .argstr (by decide) (.pure _) fun path s hs hstr => ?_
  refine .trace [.str s] (by rw [hstr]; rfl) ?_ ?_
  · rw [Handler.text, path_eq hs]
  · rw [hstr]
    exact .call _

theorem fine_dup : Fine v (Handler.text .dup v) (sysDup c) := by
  refine .myproc fun p hp => ?_
  cases hfd : p.argfd 0 with
  | none => exact .of_quiet (.pure _)
  | some x =>
    refine .bind (.fdalloc _) fun o _ => ?_
    cases o with
    | none => exact .of_quiet (.pure _)
    | some fd =>
      refine .trace _ rfl ?_ (.bind (.call _) fun _ => .pure _)
      rw [argfd_fst hfd, Handler.text, hp]

theorem fine_fork : Fine v (Handler.text .fork v) (sysFork c) :=
  .trace _ rfl rfl (.call _)

theorem fine_wait : Fine v (Handler.text .wait v) (sysWait c) :=
  .myproc fun _ hp => .trace _ rfl (by rw [← hp]; rfl) (.call _)

theorem fine_sleep : Fine v (Handler.text .sleep v) (sysSleep c) :=
  .myproc fun _ hp => .trace _ rfl (by rw [← hp]; rfl) (.call _)

theorem fine_kill : Fine v (Handler.text .kill v) (sysKill c) :=
  .myproc fun _ hp => .trace _ rfl (by rw [← hp]; rfl) (.call _)

theorem fine_uptime : Fine v (Handler.text .uptime v) (sysUptime c) :=
  .trace _ rfl rfl (.bind (.call _) fun _ => .pure _)

theorem fine_ps : Fine v (Handler.text .ps v) (sysPs c) :=
  .trace _ rfl rfl (.bind .myproc fun _ => .bind (.call _) fun _ => .pure _)

theorem fine_read : Fine v (Handler.text .read v) (sysRead c) := by
  refine .myproc fun p hp => ?_
  cases hfd : p.argfd 0 with
  | none => exact .of_quiet (.pure _)
  | some x =>
    refine .myproc fun q hq => .myproc fun q' hq' => ?_
    refine .trace _ rfl ?_ (.call _)
    rw [argfd_fst hfd, Handler.text, hp, hq, hq']

theorem fine_close : Fine v (Handler.text .close v) (sysClose c) := by
  refine .myproc fun p hp => ?_
  cases hfd : p.argfd 0 with
  | none => exact .of_quiet (.pure _)
  | some x =>
    refine .trace _ rfl ?_ (.bind (.setOfile _ _) fun _ =>
      .bind (.call _) fun _ => .pure _)
    rw [argfd_fst hfd, Handler.text, hp]

theorem fine_fstat : Fine v (Handler.text .fstat v) (sysFstat c) := by
  refine .myproc fun p hp => ?_
  cases hfd : p.argfd 0 with
  | none => exact .of_quiet (.pure _)
  | some x =>
    refine .myproc fun q hq => .trace _ rfl ?_ (.call _)
    rw [argfd_fst hfd, Handler.text, hp, hq]

theorem fine_link : Fine v (Handler.text .link v) (sysLink c g) := by
  refine .argstr (by decide) (.pure _) fun old s hs hold => ?_
  refine .argstr (by decide) (.pure _) fun new s' hs' hnew => ?_
  refine .trace [.str s, .str s'] (by rw [hold, hnew]; rfl) ?_ ?_
  · rw [Handler.text, path_eq hs, path_eq hs']
  · rw [hold, hnew]
    exact .call _

theorem fine_unlink : Fine v (Handler.text .unlink v) (sysUnlink c g) := by
  refine .argstr (by decide) (.pure _) fun path s hs hstr => ?_
  refine .trace [.str s] (by rw [hstr]; rfl) ?_ ?_
  · rw [Handler.text, path_eq hs]
  · rw [hstr]
    exact .call _

theorem fine_open : Fine v (Handler.text .open v) (sysOpen c g) := by
  refine .argstr (by decide) (.pure _) fun path s hs hstr => ?_
  refine .myproc fun p hp => ?_
  refine .trace [.str s, .int (p.argint 1)] (by rw [hstr]; rfl) ?_ ?_
  · rw [Handler.text, path_eq hs, hp]
  · rw [hstr]
    exact .call _

theorem quiet_end (r : Int) : Quiet (do callRest c.endOp; return r : M φ κ Int) :=
  .bind (.callRest _) fun _ => .pure _

theorem fine_mkdir : Fine v (Handler.text .mkdir v) (sysMkdir c g) := by
  refine .callRest fun _ => ?_
  refine .argstr (by decide) (quiet_end c _) fun path s hs hstr => ?_
  refine .bind (.throwFault hstr) fun _ _ => ?_
  refine .callRest fun o => ?_
  cases o with
  | none => exact .of_quiet (quiet_end c _)
  | some ip =>
    refine .trace [.str s] (by rw [hstr]; rfl) ?_
      (.bind (.callRest _) fun _ => quiet_end c _)
    rw [Handler.text, path_eq hs]

theorem fine_mknod : Fine v (Handler.text .mknod v) (sysMknod c g) := by
  refine .callRest fun _ => ?_
  refine .argstr (by decide) (quiet_end c _) fun path s hs hstr => ?_
  refine .myproc fun p hp => .myproc fun q hq => ?_
  refine .bind (.throwFault hstr) fun _ _ => ?_
  refine .callRest fun o => ?_
  cases o with
  | none => exact .of_quiet (quiet_end c _)
  | some ip =>
    refine .trace [.str s, .int (p.argint 1), .int (q.argint 2)] (by rw [hstr]; rfl) ?_
      (.bind (.callRest _) fun _ => quiet_end c _)
    rw [Handler.text, path_eq hs, hp, hq]

theorem fine_chdir : Fine v (Handler.text .chdir v) (sysChdir c g) := by
  refine .callRest fun _ => ?_
  refine .argstr (by decide) (quiet_end c _) fun path s hs hstr => ?_
  refine .bind (.throwFault hstr) fun _ _ => ?_
  refine .callRest fun o => ?_
  cases o with
  | none => exact .of_quiet (quiet_end c _)
  | some ip =>
    refine .trace [.str s] (by rw [hstr]; rfl) ?_ (.call _)
    rw [Handler.text, path_eq hs]

/-! ### `sys_exec` -/

theorem argStrings_concat {argv : List (π × Buf)} {a : π × Buf} (h : argStrings argv = .ok ss)
    (ha : a.2.str = .ok s) : argStrings (argv ++ [a]) = .ok (ss ++ [s]) := by
  induction argv generalizing ss with
  | nil =>
    cases h
    rw [nil_append, argStrings, ha]
    rfl
  | cons b argv ih =>
    rw [argStrings] at h
    cases hb : b.2.str with
    | error e =>
      rw [hb] at h
      cases h
    | ok t =>
      cases hrest : argStrings argv with
      | error e =>
        rw [hb, hrest] at h
        cases h
      | ok ts =>
        rw [hb, hrest] at h
        cases h
        rw [cons_append, argStrings, hb, ih hrest]
        rfl

/-- The strings that the loop of `sys_exec` collects are those of the argument
vector. -/
theorem Steady.fetchArgs (uargv : BitVec 64) (argv : List (π × Buf))
    (hss : argStrings argv = .ok ss) (k : Nat) :
    Steady v (Trace.fetchArgs c g uargv argv k : M φ κ _) fun r =>
      r.1 = true → ∃ rest, v.args uargv argv.length k = some rest ∧
        argStrings r.2 = .ok (ss ++ rest) := by
  induction k generalizing argv ss with
  | zero => exact .pure nofun
  | succ k ih =>
    refine Steady.myproc.bind fun p hp => ?_
    rw [hp]
    cases hfetch : fetchaddr v (uargv + 8 * BitVec.ofNat 64 argv.length) with
    | none => exact .pure nofun
    | some uarg =>
      by_cases hzero : uarg = 0
      · simp only [hzero, if_true]
        refine .pure fun _ => ⟨[], ?_, ?_⟩
        · rw [Call.args, hfetch]
          simp only [hzero, if_true]
        · rw [append_nil]
          exact hss
      · simp only [hzero, if_false]
        refine (Steady.callRest _).bind fun o _ => ?_
        cases o with
        | none => exact .panic _
        | some page =>
          obtain ⟨buf, n, hbuf, hstr⟩ :=
            fetchstr_array v.mem uarg g "page" (show PGSIZE < 2 ^ 64 by decide)
          refine (Steady.throwFault hbuf).bind fun r hr => ?_
          subst hr
          rcases hstr with ⟨-, hn⟩ | ⟨s, hs, hn, hbufs⟩
          · rw [if_pos hn]
            exact .pure nofun
          · rw [if_neg hn]
            have hnext := ih (argv ++ [(page, buf)]) (argStrings_concat hss hbufs)
            rw [length_append, length_singleton] at hnext
            intro k' hk'
            obtain ⟨r, k'', hrun, hin, hcall, hP⟩ := hnext k' hk'
            refine ⟨r, k'', hrun, hin, hcall, fun a ha hok => ?_⟩
            obtain ⟨rest, hrest, hall⟩ := hP a ha hok
            refine ⟨s :: rest, ?_, ?_⟩
            · rw [Call.args, hfetch]
              simp only [hzero, if_false, hs, hrest, Option.map_some]
            · rw [hall, append_assoc]
              rfl

theorem quiet_freeArgs (argv : List (π × Buf)) : Quiet (freeArgs c argv : M φ κ Unit) := by
  induction argv with
  | nil => exact .pure _
  | cons a argv ih => exact .bind (.callRest _) fun _ => ih

theorem fine_exec : Fine v (Handler.text .exec v) (sysExec c g) := by
  refine .argstr (by decide) (.pure _) fun path s hs hstr => ?_
  refine .myproc fun p hp => ?_
  refine .bind (Steady.fetchArgs c _ [] rfl MAXARG) fun r hr => ?_
  rcases r with ⟨ok, argv⟩
  cases ok with
  | false => exact .of_quiet ((quiet_freeArgs c argv).bind fun _ => .pure _)
  | true =>
    subst hp
    obtain ⟨rest, hargs, hall⟩ := hr rfl
    rw [length_nil] at hargs
    refine .whenTracing ?_ ?_
    · rw [hstr, hall, Handler.text, path_eq hs, hargs]
      rfl
    · rw [hstr, hall]
      exact (Quiet.call _).bind fun _ => (quiet_freeArgs c argv).bind fun _ => .pure _

end

end SummerOsk.Trace
