import SummerOsk.Sh.Tokens
import Mathlib.Logic.Function.Iterate

/-!
# The grammar of the shell

`Derives` is the grammar, with the command that a derivation denotes.  The
functions of the parser are sound and complete for it: what they return is
derived from the tokens that they took (`parse_sound`, by induction on the
depth), and they return what is derived from the tokens before one that can
follow (`parse_complete`, by induction on the derivation).
-/

namespace SummerOsk.Sh

open Lib List

/-! ## The grammar -/

def bar : Token := .sym '|'.toUInt8
def amp : Token := .sym '&'.toUInt8
def semi : Token := .sym ';'.toUInt8
def lparen : Token := .sym '('.toUInt8
def rparen : Token := .sym ')'.toUInt8

/-- `redir*`, where `redir` is one of `<`, `>` and `>>` before a word. -/
inductive Redirs : List Token → List Redir → Prop
  | nil : Redirs [] []
  | input {q eq ts rs} : Redirs ts rs →
      Redirs (.sym '<'.toUInt8 :: .word q eq :: ts) (⟨q, eq, O_RDONLY, 0⟩ :: rs)
  | output {q eq ts rs} : Redirs ts rs →
      Redirs (.sym '>'.toUInt8 :: .word q eq :: ts) (⟨q, eq, O_WRONLY ||| O_CREATE, 1⟩ :: rs)
  | append {q eq ts rs} : Redirs ts rs →
      Redirs (.append :: .word q eq :: ts) (⟨q, eq, O_WRONLY ||| O_CREATE, 1⟩ :: rs)

/-- `(word redir*)*` -/
inductive Words : List Token → List (Nat × Nat) → List Redir → Prop
  | nil : Words [] [] []
  | cons {q eq us rs ts ws rs'} : Redirs us rs → Words ts ws rs' →
      Words (.word q eq :: (us ++ ts)) ((q, eq) :: ws) (rs ++ rs')

/-- An array of `struct execcmd` that holds these pointers. -/
def argsOf (ps : List Nat) : Args := Vector.ofFn fun i => ps[i.val]?

/-- The command with these words. -/
def execOf (ws : List (Nat × Nat)) : Cmd :=
  .exec (argsOf (ws.map Prod.fst)) (argsOf (ws.map Prod.snd))

inductive Nonterminal where
  | line
  | pipe
  | exec

/-- The tokens derive from the nonterminal, and the derivation denotes the
command.  Of the redirections of a command, the last is the outermost. -/
inductive Derives : Nonterminal → List Token → Cmd → Prop
  | last {ts cmd} (n : Nat) : Derives .pipe ts cmd →
      Derives .line (ts ++ List.replicate n amp) (Cmd.back^[n] cmd)
  | list {ts us left right} (n : Nat) : Derives .pipe ts left → Derives .line us right →
      Derives .line (ts ++ (List.replicate n amp ++ semi :: us)) (.list (Cmd.back^[n] left) right)
  | one {ts cmd} : Derives .exec ts cmd → Derives .pipe ts cmd
  | pipe {ts us left right} : Derives .exec ts left → Derives .pipe us right →
      Derives .pipe (ts ++ bar :: us) (.pipe left right)
  | block {ts us cmd rs} : Derives .line ts cmd → Redirs us rs →
      Derives .exec (lparen :: (ts ++ rparen :: us)) (rs.foldl redircmd cmd)
  | simple {us rs ts ws rs'} : Redirs us rs → Words ts ws rs' → ws.length < MAXARGS →
      Derives .exec (us ++ ts) ((rs ++ rs').foldl redircmd (execOf ws))

/-! ## The next token -/

variable {l : Line} {s k i : Nat} {t : Token} {ts us pre : List Token} {α : Type} {E : Exit → Prop}
  {Q : α → Nat → Prop} {nt : Nonterminal} {set set' : List UInt8} {cmd : Cmd} {c : UInt8}
  {ps : List Nat}

/-- The parser gave up with a message. -/
def Quits (e : Exit) : Prop := ∃ msg, e = .panic msg

section

variable {f : Bool → ShM α} (hset : set.all symbols.contains)
include hset

theorem wp_peek_yes (h : At l s (t :: us)) (hin : t.isIn set)
    (hf : ∀ s', At l s' (t :: us) → wp (f true) s' Q E) : wp (peek l set >>= f) s Q E := by
  refine wp_seq (peek_spec hset h) ?_
  rintro r s' ⟨hat, rfl⟩
  rw [head?_cons, Option.any_some, hin]
  exact hf s' hat

theorem wp_peek_no (h : At l s ts) (hno : ts.head?.any (Token.isIn set) = false)
    (hf : ∀ s', At l s' ts → wp (f false) s' Q E) : wp (peek l set >>= f) s Q E := by
  refine wp_seq (peek_spec hset h) ?_
  rintro r s' ⟨hat, rfl⟩
  rw [hno]
  exact hf s' hat

theorem wp_peek (h : At l s ts)
    (hyes : ∀ t us s', ts = t :: us → t.isIn set = true → At l s' (t :: us) → wp (f true) s' Q E)
    (hno : ∀ s', At l s' ts → wp (f false) s' Q E) : wp (peek l set >>= f) s Q E := by
  cases ts with
  | nil => exact wp_peek_no hset h rfl hno
  | cons t us =>
    cases hin : t.isIn set with
    | true => exact wp_peek_yes hset h hin fun s' => hyes t us s' rfl hin
    | false => exact wp_peek_no hset h hin hno

end

theorem wp_gettoken {f : UInt8 × Nat × Nat → ShM α} (h : At l s (t :: ts))
    (hf : ∀ q eq s', (∀ q' eq', t = .word q' eq' → q = q' ∧ eq = eq') → At l s' ts →
      wp (f (t.code, q, eq)) s' Q E) : wp (gettoken l >>= f) s Q E := by
  refine wp_seq (gettoken_cons h) ?_
  rintro ⟨_, q, eq⟩ s' ⟨rfl, hword, hat⟩
  refine hf q eq s' (fun q' eq' ht => ?_) hat
  have := hword q' eq' ht
  injection this with hq he
  exact ⟨hq, he⟩

theorem At.symbol (h : At l s (.sym c :: ts)) : symbols.contains c = true := by
  obtain ⟨hat, hsp⟩ := h.skip
  rcases hat.cases hsp with ⟨-, hnil⟩ | ⟨-, ⟨-, us, hus, -⟩ | ⟨-, -, us, hus, -⟩ |
    ⟨hc, -, us, hus, -⟩⟩
  · cases hnil
  · cases hus
  · cases hus
  · cases hus
    exact hc

/-- Words are told from the symbols by what `gettoken` returns. -/
theorem At.code_eq (h : At l s (t :: ts)) :
    t.code ≠ 0 ∧ (t.code = 'a'.toUInt8 → ∃ q eq, t = .word q eq) := by
  cases t with
  | sym c =>
    have hc := h.symbol
    refine ⟨fun h0 => ?_, fun ha => ?_⟩
    · rw [show c = 0 from h0] at hc
      exact absurd hc (by decide)
    · rw [show c = 'a'.toUInt8 from ha] at hc
      exact absurd hc (by decide)
  | append => exact ⟨by decide, fun ha => absurd ha (by decide)⟩
  | word q eq =>
    refine ⟨?_, fun _ => ⟨q, eq, rfl⟩⟩
    show 'a'.toUInt8 ≠ 0
    decide

theorem eq_sym_of_isIn (hc : c ≠ '>'.toUInt8) (h : t.isIn [c]) : t = .sym c := by
  cases t with
  | sym d =>
    have hd : d = c := by simpa [Token.isIn] using h
    rw [hd]
  | append =>
    have : '>'.toUInt8 = c := by simpa [Token.isIn] using h
    exact absurd this.symm hc
  | word q eq => cases h

/-! ## What the parser returns is derived -/

theorem Redirs.cons {rs : List Redir} {q eq : Nat} (hin : t.isIn (charsOf "<>") = true)
    (h : Redirs ts rs) : Redirs (t :: .word q eq :: ts) (redirection t.code q eq ++ rs) := by
  cases t with
  | sym c =>
    have hc : c = '<'.toUInt8 ∨ c = '>'.toUInt8 := by
      simpa [Token.isIn, charsOf] using hin
    rcases hc with rfl | rfl
    · exact h.input
    · exact h.output
  | append => exact h.append
  | word _ _ => cases hin

theorem parseredirs_sound {rs : List Redir} (h : At l s ts) (hk : ts.length < k) :
    wp (parseredirs l rs k) s
      (fun rs' s' => ∃ pre us new, ts = pre ++ us ∧ At l s' us ∧ Redirs pre new ∧ rs' = rs ++ new)
      Quits := by
  induction k generalizing s ts rs with
  | zero => omega
  | succ k ih =>
    refine wp_peek (by decide) h (fun t us s' hts hin hat => ?_) fun s' hat => ?_
    · subst hts
      refine wp_gettoken hat fun _ _ s1 _ hat1 => ?_
      cases us with
      | nil =>
        refine wp_seq (gettoken_nil hat1) ?_
        rintro ⟨_, q, eq⟩ s2 ⟨rfl, -⟩
        exact ⟨_, rfl⟩
      | cons t' us =>
        refine wp_gettoken hat1 fun q eq s2 hword hat2 => ?_
        refine wp_ite (fun _ => ⟨_, rfl⟩) fun hcode => ?_
        obtain ⟨q', eq', rfl⟩ := hat1.code_eq.2 (not_not.mp hcode)
        obtain ⟨rfl, rfl⟩ := hword _ _ rfl
        simp only [length_cons] at hk
        refine wp_mono (ih hat2 (by omega)) ?_
        rintro rs' s3 ⟨pre, us', new, rfl, hat3, hpre, rfl⟩
        exact ⟨_, us', _, rfl, hat3, hpre.cons hin, append_assoc _ _ _⟩
    · exact ⟨[], ts, [], rfl, hat, .nil, (append_nil rs).symm⟩

/-! The arrays hold the words so far. -/

theorem argsOf_nil : argsOf [] = Vector.replicate MAXARGS none := by
  ext i hi
  simp [argsOf]

theorem store_some (hi : ps.length = i) (hlt : i < MAXARGS) (p : Nat) :
    store (argsOf ps) i (some p) = pure (argsOf (ps ++ [p])) := by
  rw [store, dif_pos hlt]
  refine congrArg pure (Vector.ext fun j hj => ?_)
  simp only [argsOf, Vector.getElem_set, Vector.getElem_ofFn]
  subst hi
  split_ifs with he
  · rw [← he, getElem?_concat_length]
  · rcases Nat.lt_or_ge j ps.length with hjlt | hge
    · rw [getElem?_append_left hjlt]
    · rw [getElem?_eq_none hge, getElem?_eq_none (by simp; omega)]

theorem store_none (hi : ps.length = i) (hlt : i < MAXARGS) :
    store (argsOf ps) i none = pure (argsOf ps) := by
  rw [store, dif_pos hlt]
  refine congrArg pure (Vector.ext fun j hj => ?_)
  simp only [argsOf, Vector.getElem_set, Vector.getElem_ofFn]
  subst hi
  split_ifs with he
  · rw [← he, getElem?_eq_none le_rfl]
  · rfl

theorem endexec_eq {ws : List (Nat × Nat)} {rs : List Redir} (hws : ws.length < MAXARGS) :
    endexec (argsOf (ws.map Prod.fst)) (argsOf (ws.map Prod.snd)) ws.length rs =
      pure (rs.foldl redircmd (execOf ws)) := by
  rw [endexec, store_none (by simp) hws, pure_bind, store_none (by simp) hws, pure_bind]
  rfl

/-- After the words `ws` and the redirections `rs`, the loop of `parseexec` took
more of both and returned `cmd`. -/
def ArgsParsed (l : Line) (ts : List Token) (ws : List (Nat × Nat)) (rs : List Redir) (cmd : Cmd)
    (s' : Nat) : Prop :=
  ∃ pre us ws' rs', ts = pre ++ us ∧ At l s' us ∧ Words pre ws' rs' ∧
    (ws ++ ws').length < MAXARGS ∧ cmd = (rs ++ rs').foldl redircmd (execOf (ws ++ ws'))

theorem parseargs_sound (ws : List (Nat × Nat)) (rs : List Redir) (h : At l s ts)
    (hk : ts.length < k) (hws : ws.length < MAXARGS) :
    wp (parseargs l (argsOf (ws.map Prod.fst)) (argsOf (ws.map Prod.snd)) ws.length rs k) s
      (ArgsParsed l ts ws rs) Quits := by
  induction k generalizing s ts ws rs with
  | zero => omega
  | succ k ih =>
    have hend : ∀ s', At l s' ts →
        wp (endexec (argsOf (ws.map Prod.fst)) (argsOf (ws.map Prod.snd)) ws.length rs) s'
          (ArgsParsed l ts ws rs) Quits := by
      intro s' hat
      rw [endexec_eq hws]
      refine ⟨[], ts, [], [], rfl, hat, .nil, ?_, ?_⟩
      · rwa [append_nil]
      · rw [append_nil, append_nil]
    refine wp_peek (by decide) h (fun t us s' hts _ hat => ?_) fun s' hat => ?_
    · subst hts
      exact hend s' hat
    · cases ts with
      | nil =>
        refine wp_seq (gettoken_nil hat) ?_
        rintro ⟨_, q, eq⟩ s1 ⟨rfl, hat1⟩
        exact hend s1 hat1
      | cons t us =>
        refine wp_gettoken hat fun q eq s1 hword hat1 => ?_
        dsimp only
        rw [if_neg hat.code_eq.1]
        refine wp_ite (fun _ => ⟨_, rfl⟩) fun hcode => ?_
        obtain ⟨q', eq', rfl⟩ := hat.code_eq.2 (not_not.mp hcode)
        obtain ⟨rfl, rfl⟩ := hword _ _ rfl
        rw [store_some (by simp) hws, pure_bind, store_some (by simp) hws, pure_bind]
        refine wp_ite (fun _ => ⟨_, rfl⟩) fun hmany => ?_
        rw [length_cons] at hk
        refine wp_seq (parseredirs_sound hat1 (by omega)) ?_
        rintro _ s2 ⟨pre, us1, new, rfl, hat2, hpre, rfl⟩
        rw [length_append] at hk
        have hlen : (ws ++ [(q, eq)]).length = ws.length + 1 := by simp
        have hstep := ih (ws ++ [(q, eq)]) (rs ++ new) hat2 (by omega) (by omega)
        rw [map_append, map_append, hlen] at hstep
        refine wp_mono hstep ?_
        rintro cmd s3 ⟨pre', us2, ws', rs', rfl, hat3, hpre', hlt, rfl⟩
        refine ⟨.word q eq :: (pre ++ pre'), us2, (q, eq) :: ws', new ++ rs', ?_, hat3,
          .cons hpre hpre', ?_, ?_⟩
        · simp
        · simpa using hlt
        · simp

theorem parseback_sound (h : At l s ts) (hk : ts.length < k) :
    wp (parseback l cmd k) s
      (fun c s' => ∃ n us, ts = List.replicate n amp ++ us ∧ At l s' us ∧ c = Cmd.back^[n] cmd)
      Quits := by
  induction k generalizing s ts cmd with
  | zero => omega
  | succ k ih =>
    refine wp_peek (by decide) h (fun t us s' hts hin hat => ?_) fun s' hat => ?_
    · obtain rfl : t = amp := eq_sym_of_isIn (by decide) hin
      subst hts
      refine wp_gettoken hat fun _ _ s1 _ hat1 => ?_
      rw [length_cons] at hk
      refine wp_mono (ih hat1 (by omega)) ?_
      rintro c s2 ⟨n, us', rfl, hat2, rfl⟩
      exact ⟨n + 1, us', rfl, hat2, rfl⟩
    · exact ⟨0, ts, rfl, hat, rfl⟩

/-- `m` parses the nonterminal, given the depth that `ts.length` tokens need. -/
def Sound (l : Line) (nt : Nonterminal) (need k : Nat) (m : ShM Cmd) : Prop :=
  ∀ s ts, At l s ts → 4 * ts.length + need ≤ k →
    wp m s (fun cmd s' => ∃ pre us, ts = pre ++ us ∧ At l s' us ∧ Derives nt pre cmd) Quits

theorem parseline_sound (hpipe : Sound l .pipe 3 k (parsepipe l k))
    (hline : Sound l .line 4 k (parseline l k)) :
    Sound l .line 4 (k + 1) (parseline l (k + 1)) := by
  intro s ts h hk
  refine wp_seq (hpipe s ts h (by omega)) ?_
  rintro left s1 ⟨pre, us, rfl, hat1, hleft⟩
  rw [length_append] at hk
  refine wp_seq (parseback_sound hat1 (by omega)) ?_
  rintro _ s2 ⟨n, vs, rfl, hat2, rfl⟩
  rw [length_append] at hk
  refine wp_peek (by decide) hat2 (fun t ws s3 hvs hin hat3 => ?_) fun s3 hat3 => ?_
  · obtain rfl : t = semi := eq_sym_of_isIn (by decide) hin
    subst hvs
    refine wp_gettoken hat3 fun _ _ s4 _ hat4 => ?_
    rw [length_cons] at hk
    refine wp_seq (hline s4 ws hat4 (by omega)) ?_
    rintro right s5 ⟨pre', xs, rfl, hat5, hright⟩
    refine ⟨_, xs, ?_, hat5, .list n hleft hright⟩
    simp
  · refine ⟨_, vs, ?_, hat3, .last n hleft⟩
    simp

theorem parsepipe_sound (hexec : Sound l .exec 2 k (parseexec l k))
    (hpipe : Sound l .pipe 3 k (parsepipe l k)) :
    Sound l .pipe 3 (k + 1) (parsepipe l (k + 1)) := by
  intro s ts h hk
  refine wp_seq (hexec s ts h (by omega)) ?_
  rintro left s1 ⟨pre, us, rfl, hat1, hleft⟩
  rw [length_append] at hk
  refine wp_peek (by decide) hat1 (fun t vs s2 hus hin hat2 => ?_) fun s2 hat2 => ?_
  · obtain rfl : t = bar := eq_sym_of_isIn (by decide) hin
    subst hus
    refine wp_gettoken hat2 fun _ _ s3 _ hat3 => ?_
    rw [length_cons] at hk
    refine wp_seq (hpipe s3 vs hat3 (by omega)) ?_
    rintro right s4 ⟨pre', ws, rfl, hat4, hright⟩
    refine ⟨_, ws, ?_, hat4, .pipe hleft hright⟩
    simp
  · exact ⟨pre, us, rfl, hat2, .one hleft⟩

theorem parseblock_sound (hline : Sound l .line 4 k (parseline l k)) :
    Sound l .exec 1 (k + 1) (parseblock l (k + 1)) := by
  intro s ts h hk
  refine wp_peek (by decide) h (fun t us s1 hts hin hat1 => ?_) fun _ _ => ⟨_, rfl⟩
  obtain rfl : t = lparen := eq_sym_of_isIn (by decide) hin
  subst hts
  rw [length_cons] at hk
  refine wp_gettoken hat1 fun _ _ s2 _ hat2 => ?_
  refine wp_seq (hline s2 us hat2 (by omega)) ?_
  rintro cmd s3 ⟨pre, vs, rfl, hat3, hcmd⟩
  rw [length_append] at hk
  refine wp_peek (by decide) hat3 (fun t ws s4 hvs hin hat4 => ?_) fun _ _ => ⟨_, rfl⟩
  obtain rfl : t = rparen := eq_sym_of_isIn (by decide) hin
  subst hvs
  rw [length_cons] at hk
  refine wp_gettoken hat4 fun _ _ s5 _ hat5 => ?_
  refine wp_seq (parseredirs_sound hat5 (by omega)) ?_
  rintro _ s6 ⟨pre', xs, new, rfl, hat6, hnew, rfl⟩
  refine ⟨_, xs, ?_, hat6, .block hcmd hnew⟩
  simp

theorem parseexec_sound (hblock : Sound l .exec 1 k (parseblock l k)) :
    Sound l .exec 2 (k + 1) (parseexec l (k + 1)) := by
  intro s ts h hk
  refine wp_peek (by decide) h (fun t us s1 hts _ hat1 => ?_) fun s1 hat1 => ?_
  · rw [← hts] at hat1
    exact hblock s1 ts hat1 (by omega)
  · refine wp_seq (parseredirs_sound hat1 (by omega)) ?_
    rintro rs s2 ⟨pre, us, new, rfl, hat2, hnew, hrs⟩
    rw [length_append] at hk
    rw [← argsOf_nil, hrs, nil_append]
    refine wp_mono (parseargs_sound [] new hat2 (by omega) (by decide)) ?_
    rintro cmd s3 ⟨pre', vs, ws, rs, rfl, hat3, hws, hlt, rfl⟩
    refine ⟨_, vs, ?_, hat3, .simple hnew hws hlt⟩
    simp

theorem parse_sound (l : Line) (k : Nat) :
    Sound l .line 4 k (parseline l k) ∧ Sound l .pipe 3 k (parsepipe l k) ∧
      Sound l .exec 2 k (parseexec l k) ∧ Sound l .exec 1 k (parseblock l k) := by
  induction k with
  | zero => refine ⟨?_, ?_, ?_, ?_⟩ <;> exact fun s ts _ hk => absurd hk (by omega)
  | succ k ih =>
    obtain ⟨hline, hpipe, hexec, hblock⟩ := ih
    exact ⟨parseline_sound hpipe hline, parsepipe_sound hexec hpipe, parseexec_sound hblock,
      parseblock_sound hline⟩

/-! ## What is derived is returned -/

theorem isIn_mono (hsub : set.all set'.contains) (h : t.isIn set) : t.isIn set' = true := by
  cases t with
  | sym c => exact all_eq_true.1 hsub c (contains_iff_mem.mp h)
  | append => exact all_eq_true.1 hsub _ (contains_iff_mem.mp h)
  | word q eq => cases h

theorem isIn_disjoint (hdis : set.any set'.contains = false) (h : t.isIn set) :
    t.isIn set' = false := by
  cases t with
  | sym c => exact eq_false_of_ne_true (any_eq_false.1 hdis c (contains_iff_mem.mp h))
  | append => exact eq_false_of_ne_true (any_eq_false.1 hdis _ (contains_iff_mem.mp h))
  | word q eq => rfl

/-- The symbols that can come after a nonterminal. -/
def Nonterminal.follow : Nonterminal → List UInt8
  | .line => charsOf ")"
  | .pipe => charsOf ")&;"
  | .exec => charsOf "|)&;"

/-- The tokens can come after the nonterminal. -/
def Follows (nt : Nonterminal) (ts : List Token) : Prop :=
  ∀ t us, ts = t :: us → t.isIn nt.follow = true

theorem Follows.not_isIn (h : Follows nt ts) (hdis : nt.follow.any set.contains = false) :
    ts.head?.any (Token.isIn set) = false := by
  cases ts with
  | nil => rfl
  | cons t us => exact isIn_disjoint hdis (h t us rfl)

theorem Follows.mono {nt' : Nonterminal} (h : Follows nt ts)
    (hsub : nt.follow.all nt'.follow.contains) : Follows nt' ts :=
  fun t us hts => isIn_mono hsub (h t us hts)

theorem follows_cons (h : t.isIn nt.follow) : Follows nt (t :: ts) := by
  intro t' us hts
  cases hts
  exact h

theorem Follows.replicate (h : Follows nt ts) (n : Nat)
    (hamp : amp.isIn nt.follow) : Follows nt (List.replicate n amp ++ ts) := by
  cases n with
  | zero => exact h
  | succ n => exact follows_cons hamp

theorem parseredirs_complete {rs new : List Redir} (hnew : Redirs pre new)
    (hus : us.head?.any (Token.isIn (charsOf "<>")) = false) (h : At l s (pre ++ us))
    (hk : (pre ++ us).length < k) :
    wp (parseredirs l rs k) s (fun rs' s' => rs' = rs ++ new ∧ At l s' us) fun _ => False := by
  -- one redirection, whichever of the three
  have hstep : ∀ {t : Token} {q eq : Nat} {ts : List Token} {rs new : List Redir} {s k : Nat},
      t.isIn (charsOf "<>") = true → At l s (t :: .word q eq :: (ts ++ us)) →
      (t :: .word q eq :: (ts ++ us)).length < k →
      (∀ {s' k'}, At l s' (ts ++ us) → (ts ++ us).length < k' →
        wp (parseredirs l (rs ++ redirection t.code q eq) k') s'
          (fun rs' s' => rs' = rs ++ redirection t.code q eq ++ new ∧ At l s' us) fun _ => False) →
      wp (parseredirs l rs k) s
        (fun rs' s' => rs' = rs ++ (redirection t.code q eq ++ new) ∧ At l s' us)
        fun _ => False := by
    intro t q eq ts rs new s k hin h hk hrest
    obtain ⟨k, rfl⟩ := Nat.exists_eq_add_one_of_ne_zero (Nat.ne_zero_of_lt hk)
    simp only [length_cons] at hk
    refine wp_peek_yes (by decide) h hin fun s1 hat1 => ?_
    refine wp_gettoken hat1 fun _ _ s2 _ hat2 => ?_
    refine wp_gettoken hat2 fun q' eq' s3 hword hat3 => ?_
    obtain ⟨rfl, rfl⟩ := hword _ _ rfl
    rw [← append_assoc]
    exact hrest hat3 (by omega)
  induction hnew generalizing s k rs with
  | nil =>
    cases k with
    | zero => omega
    | succ k =>
      refine wp_peek_no (by decide) h hus fun s' hat => ?_
      exact ⟨(append_nil rs).symm, hat⟩
  | input hnew ih => exact hstep (by decide) h hk ih
  | output hnew ih => exact hstep (by decide) h hk ih
  | append hnew ih => exact hstep (by decide) h hk ih

/-- A list of words, and what can come after a command, does not begin with a
redirection or a parenthesis. -/
theorem Words.head {ws : List (Nat × Nat)} {rs : List Redir} (hw : Words pre ws rs)
    (hus : Follows .exec us) (hdis : Nonterminal.exec.follow.any set.contains = false) :
    (pre ++ us).head?.any (Token.isIn set) = false := by
  cases hw with
  | nil => exact hus.not_isIn hdis
  | cons _ _ => rfl

theorem parseargs_complete (ws : List (Nat × Nat)) {ws' : List (Nat × Nat)} {rs rs' : List Redir}
    (hw : Words pre ws' rs') (hus : Follows .exec us) (h : At l s (pre ++ us))
    (hk : (pre ++ us).length < k) (hlt : (ws ++ ws').length < MAXARGS) :
    wp (parseargs l (argsOf (ws.map Prod.fst)) (argsOf (ws.map Prod.snd)) ws.length rs k) s
      (fun cmd s' => cmd = (rs ++ rs').foldl redircmd (execOf (ws ++ ws')) ∧ At l s' us)
      fun _ => False := by
  induction hw generalizing s k ws rs with
  | nil =>
    cases k with
    | zero => omega
    | succ k =>
      rw [append_nil] at hlt
      have hend : ∀ s', At l s' us →
          wp (endexec (argsOf (ws.map Prod.fst)) (argsOf (ws.map Prod.snd)) ws.length rs) s'
            (fun cmd s' => cmd = (rs ++ []).foldl redircmd (execOf (ws ++ [])) ∧ At l s' us)
            fun _ => False := by
        intro s' hat
        rw [endexec_eq hlt, append_nil, append_nil]
        exact ⟨rfl, hat⟩
      cases us with
      | nil =>
        refine wp_peek_no (by decide) h rfl fun s1 hat1 => ?_
        refine wp_seq (gettoken_nil hat1) ?_
        rintro ⟨_, q, eq⟩ s2 ⟨rfl, hat2⟩
        exact hend s2 hat2
      | cons t us =>
        exact wp_peek_yes (by decide) h (hus t us rfl) fun s1 hat1 => hend s1 hat1
  | @cons q eq vs new ts ws' rs' hnew hw ih =>
    cases k with
    | zero => omega
    | succ k =>
      rw [cons_append, append_assoc] at h hk
      rw [length_cons] at hk
      rw [length_append, length_cons] at hlt
      refine wp_peek_no (by decide) h rfl fun s1 hat1 => ?_
      refine wp_gettoken hat1 fun q' eq' s2 hword hat2 => ?_
      obtain ⟨rfl, rfl⟩ := hword _ _ rfl
      have hws : ws.length < MAXARGS := by omega
      have hcode : ¬ (Token.word q' eq').code ≠ 'a'.toUInt8 := not_not.mpr rfl
      dsimp only
      rw [if_neg hat1.code_eq.1, if_neg hcode, store_some (by simp) hws, pure_bind,
        store_some (by simp) hws, pure_bind, if_neg (by omega), wp_bind]
      refine wp_mono (parseredirs_complete hnew (hw.head hus (by decide)) hat2 (by omega)) ?_
      rintro _ s3 ⟨rfl, hat3⟩
      have hlen : (ws ++ [(q', eq')]).length = ws.length + 1 := by simp
      rw [length_append] at hk
      have hstep := @ih s3 k (ws ++ [(q', eq')]) (rs ++ new) hat3 (by omega) (by simp; omega)
      rw [map_append, map_append, hlen] at hstep
      refine wp_mono hstep ?_
      rintro cmd s4 ⟨rfl, hat4⟩
      refine ⟨?_, hat4⟩
      simp

theorem parseback_complete (n : Nat) (hus : us.head?.any (Token.isIn (charsOf "&")) = false)
    (h : At l s (List.replicate n amp ++ us)) (hk : (List.replicate n amp ++ us).length < k) :
    wp (parseback l cmd k) s (fun c s' => c = Cmd.back^[n] cmd ∧ At l s' us) fun _ => False := by
  induction n generalizing s k cmd with
  | zero =>
    cases k with
    | zero => omega
    | succ k =>
      exact wp_peek_no (by decide) h hus fun s' hat => ⟨rfl, hat⟩
  | succ n ih =>
    cases k with
    | zero => omega
    | succ k =>
      rw [replicate_succ, cons_append] at h hk
      rw [length_cons] at hk
      refine wp_peek_yes (by decide) h (by decide) fun s1 hat1 => ?_
      exact wp_gettoken hat1 fun _ _ s2 _ hat2 => ih hat2 (by omega)

/-- The function for a nonterminal. -/
def Nonterminal.parse (l : Line) (k : Nat) : Nonterminal → ShM Cmd
  | .line => parseline l k
  | .pipe => parsepipe l k
  | .exec => parseexec l k

/-- The depth that it needs without tokens. -/
def Nonterminal.need : Nonterminal → Nat
  | .line => 4
  | .pipe => 3
  | .exec => 2

/-- The function for `nt` returns `cmd` for the tokens `ts`, whatever comes after
them. -/
def Returns (l : Line) (nt : Nonterminal) (ts : List Token) (cmd : Cmd) : Prop :=
  ∀ k s us, Follows nt us → At l s (ts ++ us) → 4 * (ts ++ us).length + nt.need ≤ k + 1 →
    wp (nt.parse l (k + 1)) s (fun c s' => c = cmd ∧ At l s' us) fun _ => False

section

variable {left right : Cmd} {rs rs' : List Redir} {ws : List (Nat × Nat)}

/-- The depth that a call has left for the functions that it calls. -/
theorem Returns.call (h : Returns l nt ts cmd) (hus : Follows nt us) (hat : At l s (ts ++ us))
    (hk : 4 * (ts ++ us).length + nt.need ≤ k) :
    wp (nt.parse l k) s (fun c s' => c = cmd ∧ At l s' us) fun _ => False := by
  cases k with
  | zero => cases nt <;> simp only [Nonterminal.need] at hk <;> omega
  | succ k => exact h k s us hus hat hk

theorem Returns.last (hcmd : Returns l .pipe ts cmd) (n : Nat) :
    Returns l .line (ts ++ List.replicate n amp) (Cmd.back^[n] cmd) := by
  intro k s us hus h hk
  change 4 * _ + 4 ≤ k + 1 at hk
  rw [append_assoc] at h hk
  show wp (parseline l (k + 1)) s _ _
  refine wp_seq (hcmd.call ((hus.mono (by decide)).replicate n (by decide)) h
    (show 4 * _ + 3 ≤ k by omega)) ?_
  rintro _ s1 ⟨rfl, hat1⟩
  rw [length_append] at hk
  refine wp_seq (parseback_complete n (hus.not_isIn (by decide)) hat1 (by omega)) ?_
  rintro _ s2 ⟨rfl, hat2⟩
  exact wp_peek_no (by decide) hat2 (hus.not_isIn (by decide)) fun s3 hat3 => ⟨rfl, hat3⟩

theorem Returns.list (hleft : Returns l .pipe ts left) (hright : Returns l .line us right)
    (n : Nat) : Returns l .line (ts ++ (List.replicate n amp ++ semi :: us))
      (.list (Cmd.back^[n] left) right) := by
  intro k s vs hvs h hk
  change 4 * _ + 4 ≤ k + 1 at hk
  rw [append_assoc, append_assoc, cons_append] at h hk
  have hsemi : Follows .pipe (List.replicate n amp ++ semi :: (us ++ vs)) :=
    (follows_cons (by decide)).replicate n (by decide)
  show wp (parseline l (k + 1)) s _ _
  refine wp_seq (hleft.call hsemi h (show 4 * _ + 3 ≤ k by omega)) ?_
  rintro _ s1 ⟨rfl, hat1⟩
  rw [length_append] at hk
  refine wp_seq (parseback_complete n rfl hat1 (by omega)) ?_
  rintro _ s2 ⟨rfl, hat2⟩
  refine wp_peek_yes (by decide) hat2 (by decide) fun s3 hat3 => ?_
  refine wp_gettoken hat3 fun _ _ s4 _ hat4 => ?_
  rw [length_append, length_cons] at hk
  refine wp_seq (hright.call hvs hat4 (show 4 * _ + 4 ≤ k by omega)) ?_
  rintro _ s5 ⟨rfl, hat5⟩
  exact ⟨rfl, hat5⟩

theorem Returns.one (hcmd : Returns l .exec ts cmd) : Returns l .pipe ts cmd := by
  intro k s us hus h hk
  change 4 * _ + 3 ≤ k + 1 at hk
  show wp (parsepipe l (k + 1)) s _ _
  refine wp_seq (hcmd.call (hus.mono (by decide)) h (show 4 * _ + 2 ≤ k by omega)) ?_
  rintro _ s1 ⟨rfl, hat1⟩
  exact wp_peek_no (by decide) hat1 (hus.not_isIn (by decide)) fun s2 hat2 => ⟨rfl, hat2⟩

theorem Returns.pipe (hleft : Returns l .exec ts left) (hright : Returns l .pipe us right) :
    Returns l .pipe (ts ++ bar :: us) (.pipe left right) := by
  intro k s vs hvs h hk
  change 4 * _ + 3 ≤ k + 1 at hk
  rw [append_assoc, cons_append] at h hk
  show wp (parsepipe l (k + 1)) s _ _
  refine wp_seq (hleft.call (follows_cons (by decide)) h (show 4 * _ + 2 ≤ k by omega)) ?_
  rintro _ s1 ⟨rfl, hat1⟩
  refine wp_peek_yes (by decide) hat1 (by decide) fun s2 hat2 => ?_
  refine wp_gettoken hat2 fun _ _ s3 _ hat3 => ?_
  rw [length_append, length_cons] at hk
  refine wp_seq (hright.call hvs hat3 (show 4 * _ + 3 ≤ k by omega)) ?_
  rintro _ s4 ⟨rfl, hat4⟩
  exact ⟨rfl, hat4⟩

theorem Returns.block (hcmd : Returns l .line ts cmd) (hrs : Redirs us rs) :
    Returns l .exec (lparen :: (ts ++ rparen :: us)) (rs.foldl redircmd cmd) := by
  intro k s vs hvs h hk
  change 4 * _ + 2 ≤ k + 1 at hk
  rw [cons_append, append_assoc, cons_append] at h hk
  rw [length_cons] at hk
  show wp (parseexec l (k + 1)) s _ _
  refine wp_peek_yes (by decide) h (by decide) fun s1 hat1 => ?_
  cases k with
  | zero => omega
  | succ k =>
    refine wp_peek_yes (by decide) hat1 (by decide) fun s2 hat2 => ?_
    refine wp_gettoken hat2 fun _ _ s3 _ hat3 => ?_
    refine wp_seq (hcmd.call (follows_cons (by decide)) hat3 (show 4 * _ + 4 ≤ k by omega)) ?_
    rintro _ s4 ⟨rfl, hat4⟩
    refine wp_peek_yes (by decide) hat4 (by decide) fun s5 hat5 => ?_
    refine wp_gettoken hat5 fun _ _ s6 _ hat6 => ?_
    rw [length_append, length_cons] at hk
    refine wp_seq (parseredirs_complete hrs (hvs.not_isIn (by decide)) hat6 (by omega)) ?_
    rintro _ s7 ⟨rfl, hat7⟩
    exact ⟨rfl, hat7⟩

theorem Returns.simple (hrs : Redirs us rs) (hws : Words ts ws rs') (hlt : ws.length < MAXARGS) :
    Returns l .exec (us ++ ts) ((rs ++ rs').foldl redircmd (execOf ws)) := by
  intro k s vs hvs h hk
  change 4 * _ + 2 ≤ k + 1 at hk
  rw [append_assoc] at h hk
  have hparen : (us ++ (ts ++ vs)).head?.any (Token.isIn (charsOf "(")) = false := by
    cases hrs with
    | nil => exact hws.head hvs (by decide)
    | input _ => rfl
    | output _ => rfl
    | append _ => rfl
  show wp (parseexec l (k + 1)) s _ _
  refine wp_peek_no (by decide) h hparen fun s1 hat1 => ?_
  refine wp_seq (parseredirs_complete hrs (hws.head hvs (by decide)) hat1 (by omega)) ?_
  rintro _ s2 ⟨rfl, hat2⟩
  rw [length_append] at hk
  exact parseargs_complete [] hws hvs hat2 (by omega) hlt

end

theorem parse_complete (h : Derives nt ts cmd) : Returns l nt ts cmd := by
  induction h with
  | last n _ ih => exact ih.last n
  | list n _ _ ihl ihr => exact ihl.list ihr n
  | one _ ih => exact ih.one
  | pipe _ _ ihl ihr => exact ihl.pipe ihr
  | block _ hrs ih => exact ih.block hrs
  | simple hrs hws hlt => exact .simple hrs hws hlt

/-! ## `parsecmd` -/

theorem tokens_length (o : Nat) (cs : List UInt8) : (tokens o cs).length ≤ cs.length := by
  induction o, cs using tokens.induct with
  | case1 o => simp [tokens]
  | case2 o c cs hsp ih =>
    rw [tokens, if_pos hsp, length_cons]
    omega
  | case3 o c cs hsp hw ih =>
    rw [tokens, if_neg hsp, if_pos hw, length_cons, length_cons]
    rw [length_drop] at ih
    omega
  | case4 o c cs hsp hw hgt ih =>
    rw [tokens, if_neg hsp, if_neg hw, if_pos hgt, length_cons, length_cons]
    rw [length_drop] at ih
    omega
  | case5 o c cs hsp hw hgt ih =>
    rw [tokens, if_neg hsp, if_neg hw, if_neg hgt, length_cons, length_cons]
    omega

/-- The rest of the line is empty when no token is left. -/
theorem peek_end (h : At l s ts) : wp (peek l []) s (fun _ s' => s' = l.es ↔ ts = []) E := by
  obtain ⟨hat, hsp⟩ := h.skip
  show l.skip isSpace s = l.es ↔ ts = []
  rcases hat.cases hsp with ⟨hs, hts⟩ | ⟨hlt, hcases⟩
  · exact ⟨fun _ => hts, fun _ => hs⟩
  · refine ⟨fun hs => absurd hs (Nat.ne_of_lt hlt), fun hts => ?_⟩
    subst hts
    rcases hcases with ⟨-, us, hus, -⟩ | ⟨-, -, us, hus, -⟩ | ⟨-, -, us, hus, -⟩
    · cases hus
    · cases hus
    · cases hus

theorem parsewhole_sound (l : Line) :
    wp (parsewhole l) 0 (fun cmd _ => Derives .line l.tokens cmd) Quits := by
  have hfuel : 4 * l.tokens.length + 4 ≤ 4 * l.es + 4 := by
    have : l.tokens.length ≤ l.es := tokens_length 0 l.bytes
    omega
  refine wp_seq ((parse_sound l _).1 0 l.tokens (at_zero l) hfuel) ?_
  rintro cmd s1 ⟨pre, us, hts, hat, hcmd⟩
  refine wp_seq (peek_end hat) fun _ s2 hend => ?_
  refine wp_ite (fun _ => ⟨_, rfl⟩) fun hs => ?_
  rw [hend.mp (not_not.mp hs), append_nil] at hts
  rw [hts]
  exact hcmd

theorem parsewhole_complete (h : Derives .line l.tokens cmd) :
    wp (parsewhole l) 0 (fun c _ => c = cmd) fun _ => False := by
  have hfuel : 4 * (l.tokens ++ []).length + 4 ≤ 4 * l.es + 4 := by
    have : l.tokens.length ≤ l.es := tokens_length 0 l.bytes
    rw [append_nil]
    omega
  have hat : At l 0 (l.tokens ++ []) := by
    rw [append_nil]
    exact at_zero l
  refine wp_seq ((parse_complete h).call (fun t us hus => by cases hus) hat hfuel) ?_
  rintro _ s1 ⟨rfl, hat1⟩
  refine wp_seq (peek_end hat1) fun _ s2 hend => ?_
  rw [wp_bind, wp_get, if_neg (not_not.mpr (hend.mpr rfl))]
  rfl

end SummerOsk.Sh
