import SummerOsk.Sh.Grammar

/-!
# The strings of a command

`nulterminate` ends the words of a command by writing over the line.  A word is
as long as it can be, so the character after it belongs to no word
(`word_of_mem`), and no other string is cut.
-/

namespace SummerOsk.Sh

open Lib Function List

variable {l : Line} {ts : List Token} {T T' : Nat → Nat → Prop} {buf : Nat → UInt8}
  {rs : List Redir} {cmd : Cmd} {ws : List (Nat × Nat)} {q eq : Nat}

/-! ## The words of a command -/

/-- All strings of the command are words of `T`. -/
def Cmd.Named (T : Nat → Nat → Prop) : Cmd → Prop
  | .exec argv eargv => ∃ ws : List (Nat × Nat), ws.length < MAXARGS ∧ (∀ w ∈ ws, T w.1 w.2) ∧
      argv = argsOf (ws.map Prod.fst) ∧ eargv = argsOf (ws.map Prod.snd)
  | .redir cmd file efile _ _ => cmd.Named T ∧ T file efile
  | .pipe left right => left.Named T ∧ right.Named T
  | .list left right => left.Named T ∧ right.Named T
  | .back cmd => cmd.Named T

theorem Cmd.Named.mono (h : cmd.Named T) (hT : ∀ q eq, T q eq → T' q eq) : cmd.Named T' := by
  induction cmd with
  | exec argv eargv =>
    obtain ⟨ws, hlt, hws, hargv, heargv⟩ := h
    exact ⟨ws, hlt, fun w hw => hT _ _ (hws w hw), hargv, heargv⟩
  | redir cmd file efile mode fd ih => exact ⟨ih h.1, hT _ _ h.2⟩
  | pipe left right ihl ihr => exact ⟨ihl h.1, ihr h.2⟩
  | list left right ihl ihr => exact ⟨ihl h.1, ihr h.2⟩
  | back cmd ih => exact ih h

theorem Cmd.Named.redirs (h : cmd.Named T)
    (hrs : ∀ r ∈ rs, T r.file r.efile) : (rs.foldl redircmd cmd).Named T := by
  induction rs generalizing cmd with
  | nil => exact h
  | cons r rs ih =>
    have hr : (redircmd cmd r).Named T := ⟨h, hrs r mem_cons_self⟩
    exact ih hr fun r' hr' => hrs r' (mem_cons_of_mem _ hr')

theorem Cmd.Named.backs (h : cmd.Named T) (n : Nat) : (Cmd.back^[n] cmd).Named T := by
  induction n generalizing cmd with
  | zero => exact h
  | succ n ih =>
    have hback : (Cmd.back cmd).Named T := h
    exact ih hback

theorem Redirs.mem (h : Redirs ts rs) {r : Redir} (hr : r ∈ rs) : .word r.file r.efile ∈ ts := by
  induction h with
  | nil => cases hr
  | input _ ih | output _ ih | append _ ih =>
    rcases mem_cons.mp hr with rfl | hr
    · simp
    · exact mem_cons_of_mem _ (mem_cons_of_mem _ (ih hr))

theorem Words.mem (h : Words ts ws rs) :
    (∀ w ∈ ws, .word w.1 w.2 ∈ ts) ∧ ∀ r ∈ rs, .word r.file r.efile ∈ ts := by
  induction h with
  | nil => exact ⟨fun _ hw => (by cases hw), fun _ hr => by cases hr⟩
  | cons hnew _ ih =>
    refine ⟨fun w hw => ?_, fun r hr => ?_⟩
    · rcases mem_cons.mp hw with rfl | hw
      · exact mem_cons_self
      · exact mem_cons_of_mem _ (mem_append_right _ (ih.1 w hw))
    · rcases mem_append.mp hr with hr | hr
      · exact mem_cons_of_mem _ (mem_append_left _ (hnew.mem hr))
      · exact mem_cons_of_mem _ (mem_append_right _ (ih.2 r hr))

theorem Derives.named {nt : Nonterminal} (h : Derives nt ts cmd) :
    cmd.Named fun q eq => .word q eq ∈ ts := by
  induction h with
  | last n _ ih => exact (ih.mono fun _ _ h => mem_append_left _ h).backs n
  | list n _ _ ihl ihr =>
    refine ⟨(ihl.mono fun _ _ h => mem_append_left _ h).backs n, ihr.mono fun _ _ h => ?_⟩
    exact mem_append_right _ (mem_append_right _ (mem_cons_of_mem _ h))
  | one _ ih => exact ih
  | pipe _ _ ihl ihr =>
    refine ⟨ihl.mono fun _ _ h => mem_append_left _ h, ihr.mono fun _ _ h => ?_⟩
    exact mem_append_right _ (mem_cons_of_mem _ h)
  | block _ hrs ih =>
    refine (ih.mono fun _ _ h => ?_).redirs fun r hr => ?_
    · exact mem_cons_of_mem _ (mem_append_left _ h)
    · exact mem_cons_of_mem _
        (mem_append_right _ (mem_cons_of_mem _ (hrs.mem hr)))
  | simple hrs hws hlt =>
    refine Cmd.Named.redirs ⟨_, hlt, fun w hw => ?_, rfl, rfl⟩ fun r hr => ?_
    · exact mem_append_right _ (hws.mem.1 w hw)
    · rcases mem_append.mp hr with hr | hr
      · exact mem_append_left _ (hrs.mem hr)
      · exact mem_append_right _ (hws.mem.2 r hr)

/-! ## What `nulterminate` writes -/

/-- Zeros were written, and only at the ends of words of `T`. -/
structure Nulled (T : Nat → Nat → Prop) (buf buf' : Nat → UInt8) : Prop where
  kept : ∀ i, (∀ q, ¬ T q i) → buf' i = buf i
  zero : ∀ i, buf i = 0 → buf' i = 0

theorem Nulled.refl (T : Nat → Nat → Prop) (buf : Nat → UInt8) : Nulled T buf buf :=
  ⟨fun _ _ => rfl, fun _ h => h⟩

theorem Nulled.trans {buf1 buf2 : Nat → UInt8} (h : Nulled T buf buf1) (h' : Nulled T buf1 buf2) :
    Nulled T buf buf2 :=
  ⟨fun i hi => (h'.kept i hi).trans (h.kept i hi), fun i hi => h'.zero i (h.zero i hi)⟩

theorem Nulled.update (buf : Nat → UInt8) (h : T q eq) : Nulled T buf (update buf eq 0) := by
  refine ⟨fun i hi => ?_, fun i hi => ?_⟩
  · have hne : i ≠ eq := fun he => hi q (he ▸ h)
    exact update_of_ne hne _ _
  by_cases he : i = eq
  · rw [he, update_self]
  · rw [update_of_ne he, hi]

/-- Every string of the command satisfies `P`. -/
def Cmd.Strings (P : Nat → Prop) : Cmd → Prop
  | .exec argv _ => ∀ q, some q ∈ argv.toList → P q
  | .redir cmd file _ _ _ => cmd.Strings P ∧ P file
  | .pipe left right => left.Strings P ∧ right.Strings P
  | .list left right => left.Strings P ∧ right.Strings P
  | .back cmd => cmd.Strings P

theorem Cmd.Strings.mono {P P' : Nat → Prop} (h : cmd.Strings P)
    (hP : ∀ q, P q → P' q) : cmd.Strings P' := by
  induction cmd with
  | exec argv eargv => exact fun q hq => hP q (h q hq)
  | redir cmd file efile mode fd ih => exact ⟨ih h.1, hP _ h.2⟩
  | pipe left right ihl ihr => exact ⟨ihl h.1, ihr h.2⟩
  | list left right ihl ihr => exact ⟨ihl h.1, ihr h.2⟩
  | back cmd ih => exact ih h

theorem argsOf_toList {ps : List Nat} (h : ps.length ≤ MAXARGS) :
    (argsOf ps).toList = ps.map some ++ List.replicate (MAXARGS - ps.length) none := by
  refine ext_getElem (by simp; omega) fun i hi hi' => ?_
  simp only [argsOf, Vector.getElem_toList, Vector.getElem_ofFn, getElem_append]
  split_ifs with hlt
  · rw [length_map] at hlt
    rw [getElem_map, getElem?_eq_getElem hlt]
  · rw [length_map] at hlt
    rw [getElem_replicate, getElem?_eq_none (Nat.le_of_not_lt hlt)]

theorem nulargs_spec (buf : Nat → UInt8) (hws : ∀ w ∈ ws, T w.1 w.2)
    (rest : List (Option Nat × Option Nat)) :
    ∃ buf', nulargs buf (ws.map (fun w => (some w.1, some w.2)) ++ (none, none) :: rest) =
        .ok buf' ∧ Nulled T buf buf' ∧ ∀ w ∈ ws, buf' w.2 = 0 := by
  induction ws generalizing buf with
  | nil => exact ⟨buf, rfl, .refl T buf, fun w hw => by cases hw⟩
  | cons w ws ih =>
    have hw := hws w mem_cons_self
    obtain ⟨buf', hrun, hnull, hends⟩ :=
      ih (update buf w.2 0) fun w' hw' => hws w' (mem_cons_of_mem _ hw')
    refine ⟨buf', hrun, (Nulled.update buf hw).trans hnull, fun w' hw' => ?_⟩
    rcases mem_cons.mp hw' with rfl | hw'
    · exact hnull.zero _ (update_self _ _ _)
    · exact hends w' hw'

theorem nulterminate_spec (buf : Nat → UInt8) (h : cmd.Named T) :
    ∃ buf', nulterminate buf cmd = .ok buf' ∧ Nulled T buf buf' ∧
      cmd.Strings fun q => ∃ eq, T q eq ∧ buf' eq = 0 := by
  induction cmd generalizing buf with
  | exec argv eargv =>
    obtain ⟨ws, hlt, hws, rfl, rfl⟩ := h
    have hzip : (argsOf (ws.map Prod.fst)).toList.zip (argsOf (ws.map Prod.snd)).toList =
        ws.map (fun w => (some w.1, some w.2)) ++
          (none, none) :: List.replicate (MAXARGS - ws.length - 1) (none, none) := by
      rw [argsOf_toList (by simp; omega), argsOf_toList (by simp; omega), map_map,
        map_map, zip_append (by simp), zip_map', length_map, length_map,
        zip_replicate', ← replicate_succ, Nat.sub_add_cancel (by omega)]
      rfl
    obtain ⟨buf', hrun, hnull, hends⟩ := nulargs_spec buf hws
      (List.replicate (MAXARGS - ws.length - 1) (none, none))
    refine ⟨buf', ?_, hnull, fun q hq => ?_⟩
    · rw [nulterminate, hzip]
      exact hrun
    · rw [argsOf_toList (by simp; omega)] at hq
      simp only [mem_append, mem_map, mem_replicate] at hq
      obtain ⟨_, ⟨w, hw, rfl⟩, hq⟩ | ⟨-, hq⟩ := hq
      · cases hq
        exact ⟨w.2, hws w hw, hends w hw⟩
      · cases hq
  | redir cmd file efile mode fd ih =>
    obtain ⟨buf', hrun, hnull, hstr⟩ := ih buf h.1
    have hupd := Nulled.update buf' h.2
    refine ⟨update buf' efile 0, ?_, hnull.trans hupd, hstr.mono ?_, efile, h.2,
      update_self _ _ _⟩
    · rw [nulterminate, hrun]
      rfl
    · rintro q ⟨eq, hT, hz⟩
      exact ⟨eq, hT, hupd.zero _ hz⟩
  | pipe left right ihl ihr | list left right ihl ihr =>
    obtain ⟨buf1, hrun1, hnull1, hstr1⟩ := ihl buf h.1
    obtain ⟨buf2, hrun2, hnull2, hstr2⟩ := ihr buf1 h.2
    refine ⟨buf2, ?_, hnull1.trans hnull2, hstr1.mono ?_, hstr2⟩
    · rw [nulterminate, hrun1]
      exact hrun2
    · rintro q ⟨eq, hT, hz⟩
      exact ⟨eq, hT, hnull2.zero _ hz⟩
  | back cmd ih =>
    obtain ⟨buf', hrun, hnull, hstr⟩ := ih buf h
    exact ⟨buf', hrun, hnull, hstr⟩

/-! ## Words do not overlap the ends of others -/

/-- A word is a run of word characters that cannot be made longer. -/
theorem word_of_mem {s : Nat} (h : At l s ts) (hmem : .word q eq ∈ ts) :
    q < eq ∧ eq ≤ l.es ∧ (∀ i, q ≤ i → i < eq → isWord (l.at i) = true) ∧
      (eq < l.es → isWord (l.at eq) = false) := by
  induction ts generalizing s with
  | nil => cases hmem
  | cons t us ih =>
    obtain ⟨hat, hsp⟩ := h.skip
    rcases hat.cases hsp with ⟨-, hnil⟩ | ⟨hlt, ⟨hw, us, hus, hnext⟩ | ⟨-, -, us, hus, hnext⟩ |
      ⟨-, -, us, hus, hnext⟩⟩
    · cases hnil
    · cases hus
      rcases mem_cons.mp hmem with he | hmem
      · cases he
        obtain ⟨hle, hes, hall, hstop⟩ := Line.skip_spec isWord hlt
        rw [Line.skip_step hlt hw]
        refine ⟨hle, hes, fun i hi hlt' => ?_, hstop⟩
        by_cases he : i = l.skip isSpace s
        · rw [he]
          exact hw
        · exact hall i (by omega) hlt'
      · exact ih hnext hmem
    · cases hus
      rcases mem_cons.mp hmem with he | hmem
      · cases he
      · exact ih hnext hmem
    · cases hus
      rcases mem_cons.mp hmem with he | hmem
      · cases he
      · exact ih hnext hmem

/-- The end of a word is not inside a word. -/
theorem end_not_inside {q' eq' : Nat} (h : .word q eq ∈ l.tokens) (h' : .word q' eq' ∈ l.tokens) :
    ¬ (q ≤ eq' ∧ eq' < eq) := by
  rintro ⟨hle, hlt⟩
  obtain ⟨-, hes, hall, -⟩ := word_of_mem (at_zero l) h
  obtain ⟨-, -, -, hstop⟩ := word_of_mem (at_zero l) h'
  have := hall eq' hle hlt
  rw [hstop (by omega)] at this
  cases this

/-! ## `parsecmd` -/

theorem parsecmd_of_derives (h : Derives .line l.tokens cmd) :
    ∃ buf, parsecmd l = .ok (cmd, buf) ∧ Nulled (fun q eq => .word q eq ∈ l.tokens) l.at buf ∧
      cmd.Strings fun q => ∃ eq, .word q eq ∈ l.tokens ∧ buf eq = 0 := by
  obtain ⟨c, s, hrun, rfl⟩ := wp_returns (parsewhole_complete h)
  obtain ⟨buf, hnul, hnull, hstr⟩ := nulterminate_spec l.at h.named
  refine ⟨buf, ?_, hnull, hstr⟩
  unfold parsecmd
  rw [hrun]
  show (nulterminate l.at c >>= fun buf => pure (c, buf)) = _
  rw [hnul]
  rfl

theorem derives_of_parsecmd (h : parsecmd l = .ok (cmd, buf)) : Derives .line l.tokens cmd := by
  unfold parsecmd at h
  cases hrun : parsewhole l 0 with
  | error e =>
    rw [hrun] at h
    cases h
  | ok r =>
    have hd : Derives .line l.tokens r.1 := wp_ok (a := r.1) (t := r.2) (parsewhole_sound l) hrun
    rw [hrun] at h
    change (nulterminate l.at r.1 >>= fun buf => pure (r.1, buf)) = _ at h
    cases hnul : nulterminate l.at r.1 with
    | error e =>
      rw [hnul] at h
      cases h
    | ok buf' =>
      rw [hnul] at h
      cases h
      exact hd

/-- The parser returns the command that the tokens of the line derive, and
panics when there is none: it always ends, and `argv` and `eargv` are used inside
the arrays only. -/
theorem parsecmd_iff (l : Line) :
    ((∃ msg, parsecmd l = .error (.panic msg)) ∨ ∃ cmd buf, parsecmd l = .ok (cmd, buf)) ∧
      ∀ cmd, (∃ buf, parsecmd l = .ok (cmd, buf)) ↔ Derives .line l.tokens cmd := by
  refine ⟨?_, fun cmd => ⟨fun ⟨buf, hok⟩ => derives_of_parsecmd hok, fun hd => ?_⟩⟩
  · cases hrun : parsewhole l 0 with
    | error e =>
      obtain ⟨msg, rfl⟩ := wp_error (parsewhole_sound l) hrun
      refine .inl ⟨msg, ?_⟩
      unfold parsecmd
      rw [hrun]
      rfl
    | ok r =>
      have hd : Derives .line l.tokens r.1 := wp_ok (a := r.1) (t := r.2) (parsewhole_sound l) hrun
      obtain ⟨buf, hok, -⟩ := parsecmd_of_derives hd
      exact .inr ⟨r.1, buf, hok⟩
  · obtain ⟨buf, hok, -⟩ := parsecmd_of_derives hd
    exact ⟨buf, hok⟩

/-- After `nulterminate`, every string of the command is the text of its token
and ends there. -/
theorem parsecmd_strings {cmd : Cmd} (h : parsecmd l = .ok (cmd, buf)) :
    cmd.Strings fun q => ∃ eq, .word q eq ∈ l.tokens ∧
      (∀ i, q ≤ i → i < eq → buf i = l.at i ∧ buf i ≠ 0) ∧ buf eq = 0 := by
  obtain ⟨buf', hok, hnull, hstr⟩ := parsecmd_of_derives (derives_of_parsecmd h)
  rw [h] at hok
  cases hok
  refine hstr.mono ?_
  rintro q ⟨eq, hmem, hzero⟩
  refine ⟨eq, hmem, fun i hi hlt => ?_, hzero⟩
  have hkept := hnull.kept i fun q' h' => end_not_inside hmem h' ⟨hi, hlt⟩
  obtain ⟨-, hes, -, -⟩ := word_of_mem (at_zero l) hmem
  refine ⟨hkept, ?_⟩
  rw [hkept, ne_eq, Line.at_eq_zero]
  omega

/-- Words with only symbols between them. -/
def pipeline : Line := ⟨charsOf "a<f|(b)>>g&", by decide⟩

theorem parsecmd_strings_pipeline : ∃ cmd buf, parsecmd pipeline = .ok (cmd, buf) ∧
    cmd.Strings fun q => ∃ eq, .word q eq ∈ pipeline.tokens ∧
      (∀ i, q ≤ i → i < eq → buf i = pipeline.at i ∧ buf i ≠ 0) ∧ buf eq = 0 :=
  ⟨_, _, rfl, parsecmd_strings rfl⟩

end SummerOsk.Sh
