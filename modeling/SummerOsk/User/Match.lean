import Mathlib.Computability.Language

/-!
# The matcher of grep

`match`, `matchhere` and `matchstar` of `user/grep.c`.  A string is the list of
its characters before the NUL.

`parse` reads a pattern as a list of items, and `lang` is the language that they
denote.  `match` finds a substring of the text in this language.
-/

namespace SummerOsk.Grep

open List

variable {c : UInt8} {re re' text : List UInt8}

abbrev caret : UInt8 := 94
abbrev dollar : UInt8 := 36
abbrev star : UInt8 := 42
abbrev dot : UInt8 := 46

mutual

/-- Search for `re` at the beginning of `text`. -/
def matchhere (re text : List UInt8) : Bool :=
  match re with
  | [] => true
  | c :: re =>
    if re.head? = some star then matchstar c re.tail text
    else if c = dollar ∧ re = [] then text = []
    else
      match text with
      | [] => false
      | t :: text => (c = dot || c = t) && matchhere re text
termination_by (re.length, text.length, 0)
decreasing_by
  all_goals simp_wf
  all_goals omega

/-- Search for `c*re` at the beginning of `text`. -/
def matchstar (c : UInt8) (re text : List UInt8) : Bool :=
  matchhere re text ||
    match text with
    | [] => false
    | t :: text => (t = c || c = dot) && matchstar c re text
termination_by (re.length, text.length, 1)

end

theorem matchhere_cons (c : UInt8) (re text : List UInt8) : matchhere (c :: re) text =
    if re.head? = some star then matchstar c re.tail text
    else if c = dollar ∧ re = [] then decide (text = [])
    else
      match text with
      | [] => false
      | t :: text => (decide (c = dot) || decide (c = t)) && matchhere re text := by
  rw [matchhere.eq_def]

/-- The loop of `match`. -/
def search (re : List UInt8) : List UInt8 → Bool
  | [] => matchhere re []
  | t :: text => matchhere re (t :: text) || search re text

/-- `match`. -/
def reMatch (re text : List UInt8) : Bool :=
  if re.head? = some caret then matchhere re.tail text else search re text

/-! ## The language of a pattern -/

inductive Item where
  | one (c : UInt8)
  | many (c : UInt8)
  deriving DecidableEq, Repr

/-- The items of a pattern, and whether it ends with `$`. -/
def parse : List UInt8 → List Item × Bool
  | [] => ([], false)
  | [c] => if c = dollar then ([], true) else ([.one c], false)
  | c :: d :: re =>
    if d = star then (.many c :: (parse re).1, (parse re).2)
    else (.one c :: (parse (d :: re)).1, (parse (d :: re)).2)

/-- The strings of one character that `c` stands for. -/
def chars (c : UInt8) : Language UInt8 := {w | ∃ x, w = [x] ∧ (c = dot ∨ c = x)}

/-- The language that a list of items denotes. -/
def lang : List Item → Language UInt8
  | [] => 1
  | .one c :: is => chars c * lang is
  | .many c :: is => KStar.kstar (chars c) * lang is

/-- The pattern, without a leading `^`. -/
def unanchored (re : List UInt8) : List UInt8 := if re.head? = some caret then re.tail else re

/-- A substring of the text is in the language of the pattern: a prefix if the
pattern begins with `^`, a suffix if it ends with `$`. -/
def Finds (re text : List UInt8) : Prop :=
  ∃ pre sub post, text = pre ++ sub ++ post ∧ sub ∈ lang (parse (unanchored re)).1 ∧
    (re.head? = some caret → pre = []) ∧ ((unanchored re).getLast? = some dollar → post = [])

theorem parse_snd (re : List UInt8) : (parse re).2 = true ↔ re.getLast? = some dollar := by
  induction re using parse.induct with
  | case1 => simp [parse]
  | case2 => simp [parse]
  | case3 c h => simp [parse, h]
  | case4 c re ih =>
    rw [parse, if_pos rfl, ih]
    cases re with
    | nil => exact iff_of_false nofun (show some star ≠ some dollar by decide)
    | cons d re => rw [getLast?_cons_cons, getLast?_cons_cons]
  | case5 c d re hd ih => rw [parse, if_neg hd, ih, getLast?_cons_cons]

/-- The text begins with a string of the items, and with `$` that is all. -/
def Begins (re text : List UInt8) : Prop :=
  ∃ sub post, text = sub ++ post ∧ sub ∈ lang (parse re).1 ∧ ((parse re).2 = true → post = [])

theorem mem_kstar_chars {w : List UInt8} :
    w ∈ KStar.kstar (chars c) ↔ ∀ x ∈ w, c = dot ∨ c = x := by
  constructor
  · rintro ⟨l, rfl, hl⟩ x hx
    obtain ⟨y, hy, hxy⟩ := mem_flatten.mp hx
    obtain ⟨z, rfl, hz⟩ := hl y hy
    rwa [mem_singleton.mp hxy]
  · intro h
    refine ⟨w.map ([·]), (flatMap_singleton' w).symm, fun y hy => ?_⟩
    obtain ⟨x, hx, rfl⟩ := mem_map.mp hy
    exact ⟨x, rfl, h x hx⟩

/-- One character and then the rest. -/
theorem begins_one (hparse : parse re = (.one c :: (parse re').1, (parse re').2)) :
    Begins re text ↔ ∃ t rest, text = t :: rest ∧ (c = dot ∨ c = t) ∧ Begins re' rest := by
  unfold Begins
  rw [hparse]
  constructor
  · rintro ⟨_, post, rfl, ⟨_, ⟨t, rfl, ht⟩, sub, hsub, rfl⟩, hend⟩
    exact ⟨t, sub ++ post, rfl, ht, sub, post, rfl, hsub, hend⟩
  · rintro ⟨t, _, rfl, ht, sub, post, rfl, hsub, hend⟩
    exact ⟨t :: sub, post, rfl, ⟨[t], ⟨t, rfl, ht⟩, sub, hsub, rfl⟩, hend⟩

/-- Some characters and then the rest. -/
theorem begins_many (hparse : parse re = (.many c :: (parse re').1, (parse re').2)) :
    Begins re text ↔ ∃ w rest, text = w ++ rest ∧ (∀ x ∈ w, c = dot ∨ c = x) ∧
      Begins re' rest := by
  unfold Begins
  rw [hparse]
  constructor
  · rintro ⟨_, post, rfl, ⟨w, hw, sub, hsub, rfl⟩, hend⟩
    exact ⟨w, sub ++ post, append_assoc .., mem_kstar_chars.mp hw, sub, post, rfl, hsub, hend⟩
  · rintro ⟨w, _, rfl, hw, sub, post, rfl, hsub, hend⟩
    exact ⟨w ++ sub, post, (append_assoc ..).symm, ⟨w, mem_kstar_chars.mpr hw, sub, hsub, rfl⟩,
      hend⟩

/-- `matchstar` tries every number of repetitions. -/
theorem matchstar_iff (ih : ∀ text, matchhere re text = true ↔ Begins re text) :
    matchstar c re text = true ↔
      ∃ w rest, text = w ++ rest ∧ (∀ x ∈ w, c = dot ∨ c = x) ∧ Begins re rest := by
  induction text with
  | nil =>
    rw [matchstar, Bool.or_false, ih]
    constructor
    · exact fun h => ⟨[], [], rfl, nofun, h⟩
    · rintro ⟨w, rest, hnil, -, h⟩
      rwa [(append_eq_nil_iff.mp hnil.symm).2] at h
  | cons t text iht =>
    rw [matchstar, Bool.or_eq_true, ih, Bool.and_eq_true, iht, Bool.or_eq_true, decide_eq_true_iff,
      decide_eq_true_iff]
    constructor
    · rintro (h | ⟨ht, w, rest, rfl, hw, h⟩)
      · exact ⟨[], t :: text, rfl, nofun, h⟩
      · exact ⟨t :: w, rest, rfl, forall_mem_cons.mpr ⟨ht.symm.imp_right Eq.symm, hw⟩, h⟩
    · rintro ⟨w, rest, htext, hw, h⟩
      cases w with
      | nil =>
        obtain rfl : t :: text = rest := htext
        exact .inl h
      | cons x w =>
        obtain ⟨rfl, rfl⟩ := List.cons.inj htext
        have hx := hw t mem_cons_self
        exact .inr ⟨(hx.imp_right Eq.symm).symm, w, rest, rfl,
          fun y hy => hw y (mem_cons_of_mem t hy), h⟩

/-- A character that is not starred, and not the last `$`. -/
theorem matchhere_one (hstar : re.head? ≠ some star) (hend : ¬ (c = dollar ∧ re = []))
    (hparse : parse (c :: re) = (.one c :: (parse re).1, (parse re).2))
    (ih : ∀ text, matchhere re text = true ↔ Begins re text) :
    matchhere (c :: re) text = true ↔ Begins (c :: re) text := by
  rw [matchhere_cons, if_neg hstar, if_neg hend, begins_one hparse]
  cases text with
  | nil => exact iff_of_false nofun fun ⟨_, _, h, _⟩ => by cases h
  | cons t text =>
    rw [Bool.and_eq_true, Bool.or_eq_true, decide_eq_true_iff, decide_eq_true_iff, ih]
    constructor
    · rintro ⟨ht, h⟩
      exact ⟨t, text, rfl, ht, h⟩
    · rintro ⟨_, _, heq, ht, h⟩
      cases heq
      exact ⟨ht, h⟩

theorem matchhere_iff (re text : List UInt8) : matchhere re text = true ↔ Begins re text := by
  induction re using parse.induct generalizing text with
  | case1 =>
    rw [matchhere.eq_def]
    exact iff_of_true rfl ⟨[], text, rfl, rfl, nofun⟩
  | case2 =>
    rw [matchhere_cons, if_neg nofun, if_pos ⟨rfl, rfl⟩, decide_eq_true_iff]
    constructor
    · rintro rfl
      exact ⟨[], [], rfl, rfl, fun _ => rfl⟩
    · rintro ⟨sub, post, rfl, hsub, hend⟩
      obtain rfl : sub = [] := hsub
      exact hend rfl
  | case3 c hc =>
    refine matchhere_one nofun (fun h => hc h.1) ?_ fun text => ?_
    · simp only [parse, if_neg hc]
    · rw [matchhere.eq_def]
      exact iff_of_true rfl ⟨[], text, rfl, rfl, nofun⟩
  | case4 c re ih =>
    have hparse : parse (c :: star :: re) = (.many c :: (parse re).1, (parse re).2) := by
      rw [parse, if_pos rfl]
    rw [matchhere_cons, head?_cons, if_pos rfl, tail_cons, matchstar_iff ih, begins_many hparse]
  | case5 c d re hd ih =>
    refine matchhere_one (fun h => hd (Option.some.inj h)) (fun h => nomatch h.2) ?_ ih
    rw [parse, if_neg hd]

/-- The loop of `match` tries every suffix. -/
theorem search_iff (re text : List UInt8) :
    search re text = true ↔ ∃ pre rest, text = pre ++ rest ∧ Begins re rest := by
  induction text with
  | nil =>
    rw [search, matchhere_iff]
    constructor
    · exact fun h => ⟨[], [], rfl, h⟩
    · rintro ⟨pre, rest, hnil, h⟩
      rwa [(append_eq_nil_iff.mp hnil.symm).2] at h
  | cons t text ih =>
    rw [search, Bool.or_eq_true, matchhere_iff, ih]
    constructor
    · rintro (h | ⟨pre, rest, rfl, h⟩)
      · exact ⟨[], t :: text, rfl, h⟩
      · exact ⟨t :: pre, rest, rfl, h⟩
    · rintro ⟨pre, rest, htext, h⟩
      cases pre with
      | nil =>
        obtain rfl : t :: text = rest := htext
        exact .inl h
      | cons x pre =>
        obtain ⟨rfl, rfl⟩ := List.cons.inj htext
        exact .inr ⟨pre, rest, rfl, h⟩

/-- `match` finds a substring in the language of the pattern if there is one. -/
theorem reMatch_iff (re text : List UInt8) : reMatch re text = true ↔ Finds re text := by
  unfold reMatch Finds unanchored
  split_ifs with h
  · rw [matchhere_iff, Begins]
    simp only [h, parse_snd, forall_const]
    constructor
    · rintro ⟨sub, post, rfl, hsub, hend⟩
      exact ⟨[], sub, post, rfl, hsub, rfl, hend⟩
    · rintro ⟨_, sub, post, rfl, hsub, rfl, hend⟩
      exact ⟨sub, post, rfl, hsub, hend⟩
  · rw [search_iff]
    simp only [h, false_imp_iff, true_and, Begins, parse_snd]
    constructor
    · rintro ⟨pre, _, rfl, sub, post, rfl, hsub, hend⟩
      exact ⟨pre, sub, post, (append_assoc ..).symm, hsub, hend⟩
    · rintro ⟨pre, sub, post, rfl, hsub, hend⟩
      exact ⟨pre, sub ++ post, append_assoc .., sub, post, rfl, hsub, hend⟩

end SummerOsk.Grep
