import SummerOsk.Sh.Defs
import Mathlib.Data.List.GetD
import Mathlib.Order.Nat
import Mathlib.Tactic.Common

/-!
# The tokens of a line

`tokens` splits a line into symbols and words, and a word is as long as it can
be.  The parser works on positions; `At l s ts` says that `ts` are the tokens
that are left at position `s`.  `peek` and `gettoken` are described by it, so
that the proofs about the parser see tokens only.
-/

namespace SummerOsk.Sh

open Lib List

/-- A symbol, the symbol `>>`, or the word between two offsets. -/
inductive Token where
  | sym (c : UInt8)
  | append
  | word (q eq : Nat)
  deriving DecidableEq, Repr

/-- The tokens of the characters from offset `o` on. -/
def tokens (o : Nat) : List UInt8 → List Token
  | [] => []
  | c :: cs =>
    if isSpace c then tokens (o + 1) cs
    else if isWord c then
      .word o (o + 1 + (cs.takeWhile isWord).length) ::
        tokens (o + 1 + (cs.takeWhile isWord).length) (cs.drop (cs.takeWhile isWord).length)
    else if c = '>'.toUInt8 ∧ cs.head? = some '>'.toUInt8 then .append :: tokens (o + 2) (cs.drop 1)
    else .sym c :: tokens (o + 1) cs
termination_by cs => cs.length
decreasing_by all_goals simp; try omega

def Line.tokens (l : Line) : List Token := Sh.tokens 0 l.bytes

/-- What `gettoken` returns for a token. -/
def Token.code : Token → UInt8
  | .sym c => c
  | .append => '+'.toUInt8
  | .word _ _ => 'a'.toUInt8

/-- The token is one of the symbols `set`. -/
def Token.isIn (set : List UInt8) : Token → Bool
  | .sym c => set.contains c
  | .append => set.contains '>'.toUInt8
  | .word _ _ => false

variable {l : Line} {s o : Nat} {ts : List Token} {p : UInt8 → Bool}

/-! ## Characters -/

theorem Line.drop_eq (h : s < l.es) : l.bytes.drop s = l.at s :: l.bytes.drop (s + 1) := by
  rw [Line.at, getD_eq_getElem _ _ h]
  exact drop_eq_getElem_cons h

theorem Line.drop_of_le (h : l.es ≤ s) : l.bytes.drop s = [] := drop_eq_nil_of_le h

theorem Line.at_eq_zero : l.at s = 0 ↔ l.es ≤ s := by
  constructor
  · intro h
    by_contra hlt
    have hlt : s < l.bytes.length := Nat.lt_of_not_le hlt
    rw [Line.at, getD_eq_getElem _ _ hlt] at h
    exact l.nonzero (h ▸ getElem_mem hlt)
  · intro h
    rw [Line.at, getD_eq_default _ _ h]

theorem Line.skip_step (h : s < l.es) (hp : p (l.at s)) : l.skip p s = l.skip p (s + 1) := by
  rw [Line.skip, Line.skip, Line.drop_eq h, takeWhile_cons_of_pos hp, length_cons]
  omega

theorem Line.skip_stop (h : s < l.es → p (l.at s) = false) : l.skip p s = s := by
  rw [Line.skip]
  by_cases hlt : s < l.es
  · rw [Line.drop_eq hlt, takeWhile_cons_of_neg (by rw [h hlt]; decide)]
    rfl
  · rw [Line.drop_of_le (Nat.le_of_not_lt hlt)]
    rfl

/-- The loop goes up to the end or to a character that fails the test. -/
theorem Line.skip_spec (p : UInt8 → Bool) (h : s ≤ l.es) :
    s ≤ l.skip p s ∧ l.skip p s ≤ l.es ∧ (∀ i, s ≤ i → i < l.skip p s → p (l.at i) = true) ∧
      (l.skip p s < l.es → p (l.at (l.skip p s)) = false) := by
  induction hn : l.es - s generalizing s with
  | zero =>
    rw [Line.skip_stop fun hlt => absurd hlt (by omega)]
    exact ⟨le_rfl, h, fun i _ _ => by omega, fun hlt => absurd hlt (by omega)⟩
  | succ n ih =>
    by_cases hp : p (l.at s) = true
    · obtain ⟨hle, hes, hall, hstop⟩ := ih (s := s + 1) (by omega) (by omega)
      rw [Line.skip_step (by omega) hp]
      refine ⟨by omega, hes, fun i hi hlt => ?_, hstop⟩
      by_cases he : i = s
      · rw [he]
        exact hp
      · exact hall i (by omega) hlt
    · have hp : p (l.at s) = false := by simpa using hp
      rw [Line.skip_stop fun _ => hp]
      exact ⟨le_rfl, h, fun i _ _ => by omega, fun _ => hp⟩

/-! ## Tokens by position -/

/-- The tokens from position `s` on. -/
def Line.tokensFrom (l : Line) (s : Nat) : List Token := Sh.tokens s (l.bytes.drop s)

theorem Line.tokensFrom_of_le (h : l.es ≤ s) : l.tokensFrom s = [] := by
  rw [Line.tokensFrom, Line.drop_of_le h, Sh.tokens]

theorem Line.tokensFrom_skip (h : s ≤ l.es) : l.tokensFrom (l.skip isSpace s) = l.tokensFrom s := by
  induction hn : l.es - s generalizing s with
  | zero => rw [Line.skip_stop fun hlt => absurd hlt (by omega)]
  | succ n ih =>
    by_cases hp : isSpace (l.at s) = true
    · rw [Line.skip_step (by omega) hp, ih (by omega) (by omega), Line.tokensFrom,
        Line.tokensFrom, Line.drop_eq (s := s) (by omega)]
      conv_rhs => rw [Sh.tokens, if_pos hp]
    · rw [Line.skip_stop fun _ => by simpa using hp]

section

variable (h : s < l.es) (hsp : isSpace (l.at s) = false)
include h hsp

theorem Line.tokensFrom_word (hw : isWord (l.at s)) :
    l.tokensFrom s = .word s (l.skip isWord s) :: l.tokensFrom (l.skip isWord s) := by
  have hskip : s + 1 + ((l.bytes.drop (s + 1)).takeWhile isWord).length = l.skip isWord s := by
    rw [Line.skip_step h hw, Line.skip]
  rw [Line.tokensFrom, Line.drop_eq h, Sh.tokens, if_neg (by rw [hsp]; decide), if_pos hw, hskip,
    drop_drop, hskip, Line.tokensFrom]

theorem Line.tokensFrom_sym (hw : isWord (l.at s) = false) :
    l.tokensFrom s =
      if l.at s = '>'.toUInt8 ∧ l.at (s + 1) = '>'.toUInt8 then .append :: l.tokensFrom (s + 2)
      else .sym (l.at s) :: l.tokensFrom (s + 1) := by
  have hnext : (l.bytes.drop (s + 1)).head? = some '>'.toUInt8 ↔ l.at (s + 1) = '>'.toUInt8 := by
    by_cases hlt : s + 1 < l.es
    · rw [Line.drop_eq hlt, head?_cons, Option.some_inj]
    · rw [Line.drop_of_le (Nat.le_of_not_lt hlt), Line.at_eq_zero.mpr (Nat.le_of_not_lt hlt)]
      exact ⟨fun hc => (by cases hc), fun hc => absurd hc (by decide)⟩
  rw [Line.tokensFrom, Line.drop_eq h, Sh.tokens, if_neg (by rw [hsp]; decide),
    if_neg (by rw [hw]; decide), drop_drop]
  simp only [hnext]
  rfl

end

/-! ## `peek` and `gettoken` -/

/-- `ts` are the tokens that are left at position `s`. -/
def At (l : Line) (s : Nat) (ts : List Token) : Prop := s ≤ l.es ∧ l.tokensFrom s = ts

theorem at_zero (l : Line) : At l 0 l.tokens := ⟨Nat.zero_le _, rfl⟩

/-- After whitespace, the next character decides. -/
theorem At.skip (h : At l s ts) : At l (l.skip isSpace s) ts ∧
    (l.skip isSpace s < l.es → isSpace (l.at (l.skip isSpace s)) = false) := by
  obtain ⟨-, hes, -, hstop⟩ := Line.skip_spec isSpace h.1
  exact ⟨⟨hes, (Line.tokensFrom_skip h.1).trans h.2⟩, hstop⟩

theorem isWord_of_not_symbol {c : UInt8} (hsp : isSpace c = false) :
    isWord c = !symbols.contains c := by
  unfold isWord isSpace at *
  rw [hsp]
  rfl

/-- The first token, when there is no whitespace before it. -/
theorem At.cases (h : At l s ts) (hsp : s < l.es → isSpace (l.at s) = false) :
    (s = l.es ∧ ts = []) ∨ s < l.es ∧ ((isWord (l.at s) = true ∧
        ∃ us, ts = .word s (l.skip isWord s) :: us ∧ At l (l.skip isWord s) us) ∨
      (l.at s = '>'.toUInt8 ∧ l.at (s + 1) = '>'.toUInt8 ∧
        ∃ us, ts = .append :: us ∧ At l (s + 2) us) ∨
      (symbols.contains (l.at s) = true ∧ ¬ (l.at s = '>'.toUInt8 ∧ l.at (s + 1) = '>'.toUInt8) ∧
        ∃ us, ts = .sym (l.at s) :: us ∧ At l (s + 1) us)) := by
  obtain ⟨hle, rfl⟩ := h
  rcases Nat.lt_or_ge s l.es with hlt | hge
  · refine .inr ⟨hlt, ?_⟩
    have hsp := hsp hlt
    cases hw : isWord (l.at s) with
    | true =>
      rw [Line.tokensFrom_word hlt hsp hw]
      exact .inl ⟨rfl, _, rfl, (Line.skip_spec isWord hle).2.1, rfl⟩
    | false =>
      rw [Line.tokensFrom_sym hlt hsp hw]
      by_cases hgt : l.at s = '>'.toUInt8 ∧ l.at (s + 1) = '>'.toUInt8
      · have hnext : s + 1 < l.es := by
          by_contra hge
          rw [Line.at_eq_zero.mpr (Nat.le_of_not_lt hge)] at hgt
          exact absurd hgt.2 (by decide)
        rw [if_pos hgt]
        exact .inr (.inl ⟨hgt.1, hgt.2, _, rfl, hnext, rfl⟩)
      · rw [if_neg hgt]
        refine .inr (.inr ⟨?_, hgt, _, rfl, hlt, rfl⟩)
        rw [isWord_of_not_symbol hsp] at hw
        simpa using hw
  · exact .inl ⟨by omega, Line.tokensFrom_of_le hge⟩

variable {E : Exit → Prop}

theorem peek_spec {set : List UInt8} (hset : set.all symbols.contains) (h : At l s ts) :
    wp (peek l set) s (fun r s' => At l s' ts ∧ r = ts.head?.any (Token.isIn set)) E := by
  obtain ⟨hat, hsp⟩ := h.skip
  rw [peek, wp_bind, wp_get]
  generalize l.skip isSpace s = s at hat hsp
  refine ⟨hat, ?_⟩
  rcases hat.cases hsp with ⟨hs, rfl⟩ | ⟨hlt, hcases⟩
  · rw [Line.at_eq_zero.mpr hs.ge]
    rfl
  · have hne : (l.at s != 0) = true := by
      rw [bne_iff_ne, ne_eq, Line.at_eq_zero]
      omega
    rw [hne, Bool.true_and]
    rcases hcases with ⟨hw, us, rfl, -⟩ | ⟨hgt, -, us, rfl, -⟩ | ⟨-, -, us, rfl, -⟩
    · show set.contains (l.at s) = false
      rw [isWord_of_not_symbol (hsp hlt)] at hw
      by_contra hin
      rw [all_eq_true.1 hset _ (contains_iff_mem.mp (by simpa using hin))] at hw
      cases hw
    · rw [hgt]
      rfl
    · rfl

theorem gettoken_nil (h : At l s []) : wp (gettoken l) s (fun r s' => r.1 = 0 ∧ At l s' []) E := by
  obtain ⟨hat, hsp⟩ := h.skip
  rw [gettoken, wp_bind, wp_get]
  dsimp only
  rcases hat.cases hsp with ⟨hs, -⟩ | ⟨-, ⟨-, us, hus, -⟩ | ⟨-, -, us, hus, -⟩ | ⟨-, -, us, hus, -⟩⟩
  · rw [Line.at_eq_zero.mpr hs.ge, if_pos rfl, wp_bind, wp_set, wp_pure]
    exact ⟨rfl, hat.skip.1⟩
  · cases hus
  · cases hus
  · cases hus

theorem gettoken_cons {t : Token} (h : At l s (t :: ts)) :
    wp (gettoken l) s (fun r s' => r.1 = t.code ∧ (∀ q eq, t = .word q eq → r.2 = (q, eq)) ∧
      At l s' ts) E := by
  obtain ⟨hat, hsp⟩ := h.skip
  rw [gettoken, wp_bind, wp_get]
  dsimp only
  generalize l.skip isSpace s = s at hat hsp
  rcases hat.cases hsp with ⟨-, hnil⟩ | ⟨hlt, hcases⟩
  · cases hnil
  have hne : l.at s ≠ 0 := by
    rw [ne_eq, Line.at_eq_zero]
    omega
  rw [if_neg hne]
  rcases hcases with ⟨hw, us, hus, hnext⟩ | ⟨hgt, hgt', us, hus, hnext⟩ |
    ⟨hsym, hgt, us, hus, hnext⟩
  · cases hus
    rw [isWord_of_not_symbol (hsp hlt)] at hw
    have hnot : symbols.contains (l.at s) = false := by simpa using hw
    have hgt : l.at s ≠ '>'.toUInt8 := by
      intro he
      rw [he] at hnot
      exact absurd hnot (by decide)
    rw [if_neg hgt, if_neg (by rw [hnot]; decide), wp_bind, wp_set, wp_pure]
    refine ⟨rfl, fun q eq he => ?_, hnext.skip.1⟩
    cases he
    rfl
  · cases hus
    rw [if_pos hgt, if_pos hgt', wp_bind, wp_set, wp_pure]
    exact ⟨rfl, fun q eq he => (by cases he), hnext.skip.1⟩
  · cases hus
    by_cases hc : l.at s = '>'.toUInt8
    · rw [if_pos hc, if_neg fun he => hgt ⟨hc, he⟩, wp_bind, wp_set, wp_pure]
      exact ⟨rfl, fun q eq he => (by cases he), hnext.skip.1⟩
    · rw [if_neg hc, if_pos hsym, wp_bind, wp_set, wp_pure]
      exact ⟨rfl, fun q eq he => (by cases he), hnext.skip.1⟩

end SummerOsk.Sh
