import SummerOsk.Console.Defs

/-!
# The line discipline

`Editor` is the line editor that a console is meant to be: a line that is being
typed, and the stream of the lines that are complete, from which reads take
bytes.  `reference` has one editor for each console and the same calls as the
machine of the consoles.

`Shows` relates the circular buffer and the three indices of a console to an
editor.  `Input.type` and `Input.readLoop` keep it, and give the same results as
the editor does, so every run of the consoles is a run of `reference` with the
same results (`Sim`).
-/

namespace SummerOsk.Console

open Lib Function List Option

/-! ## The reference editor -/

structure Editor where
  /-- All that was committed so far. -/
  stream : List UInt8
  /-- How much of it reads have taken. -/
  taken : Nat
  /-- The line that is being typed. -/
  line : List UInt8

namespace Editor

def unread (ed : Editor) : List UInt8 := ed.stream.drop ed.taken

/-- The line is complete. -/
def commit (ed : Editor) : Editor := { ed with stream := ed.stream ++ ed.line, line := [] }

/-- A character is added to the line. -/
def store (ed : Editor) (c : UInt8) : Editor :=
  let ed := { ed with line := ed.line ++ [c] }
  if c = newline ∨ c = C 'D' ∨ ed.unread.length + ed.line.length = INPUT_BUF then ed.commit
  else ed

/-- A character is typed. -/
def type (ed : Editor) (c : UInt8) : Editor :=
  if c = C 'P' ∨ c = C 'N' ∨ c = C 'B' ∨ c = 0 then ed
  else if c = C 'U' then { ed with line := [] }
  else if c = C 'H' ∨ c = DEL then { ed with line := ed.line.dropLast }
  else if ed.unread.length + ed.line.length < INPUT_BUF then
    ed.store (if c = carriageReturn then newline else c)
  else ed

/-- A read with `n` of `target` bytes to go takes what is there, up to the end
of a line or to an end of file.  It takes the end of file itself only when it
has nothing else. -/
def read (killed : Bool) (target : Nat) : Nat → Editor → Editor × List UInt8 × Nat × Option Int
  | 0, ed => (ed, [], 0, some target)
  | n + 1, ed =>
    match ed.unread with
    | [] => (ed, [], n + 1, if killed then some (-1) else none)
    | c :: _ =>
      let next := { ed with taken := ed.taken + 1 }
      if c = C 'D' then
        (if n + 1 < target then ed else next, [], n + 1, some (target - (n + 1) : Nat))
      else if c = newline then (next, [c], n, some (target - n : Nat))
      else
        let (ed, bs, m, v) := read killed target n next
        (ed, c :: bs, m, v)

/-- What a read takes from an editor: the bytes, how many are still to go, and
the result. -/
structure Takes (target n : Nat) (ed ed' : Editor) (bs : List UInt8) (m : Nat)
    (v : Option Int) : Prop where
  stream : ed'.stream = ed.stream
  taken : ed.taken ≤ ed.stream.length → ed'.taken ≤ ed.stream.length
  count : bs.length + m = n
  /-- The bytes are the next ones of the stream, without the ends of file. -/
  bytes : (ed.stream.take ed'.taken).filter (· ≠ C 'D') =
    (ed.stream.take ed.taken).filter (· ≠ C 'D') ++ bs
  /-- An end of file is taken by a read that returns 0. -/
  eof : (ed.stream.take ed'.taken).count (C 'D') =
    (ed.stream.take ed.taken).count (C 'D') + if v = some 0 ∧ 0 < target then 1 else 0
  /-- A line break ends the read. -/
  line : newline ∉ bs.dropLast
  sleep : v = none → newline ∉ bs
  result : v = none ∨ v = some (-1) ∨ v = some ((target - m : Nat) : Int)
  /-- A read that has not all its bytes ends with a line break, or it takes an
  end of file, or it stands before one. -/
  stop : v = some ((target - m : Nat) : Int) → m = 0 ∨ bs.getLast? = some newline ∨
    (m = target ∧ ed.unread.head? = some (C 'D') ∧ ed'.taken = ed.taken + 1) ∨
    (m < target ∧ ed'.unread.head? = some (C 'D'))

variable {ed ed' : Editor} {target n m : Nat} {c : UInt8} {rest bs : List UInt8} {v : Option Int}

theorem take_next (h : ed.unread = c :: rest) :
    ed.stream.take (ed.taken + 1) = ed.stream.take ed.taken ++ [c] ∧
      ed.taken + 1 ≤ ed.stream.length := by
  have hget : ed.stream[ed.taken]? = some c := by
    rw [← head?_drop]
    change ed.unread.head? = some c
    rw [h, head?_cons]
  refine ⟨?_, ?_⟩
  · rw [take_add_one, hget]
    rfl
  · exact (List.getElem?_eq_some_iff.mp hget).1

/-- A read that ends where it stands. -/
theorem Takes.stay (hv : v ≠ some 0 ∨ target = 0)
    (hres : v = none ∨ v = some (-1) ∨ v = some ((target - n : Nat) : Int))
    (hstop : v = some ((target - n : Nat) : Int) → n = 0 ∨
      n < target ∧ ed.unread.head? = some (C 'D')) : Takes target n ed ed [] n v where
  stream := rfl
  taken h := h
  count := Nat.zero_add n
  bytes := (append_nil _).symm
  eof := by
    rw [if_neg]
    · rfl
    · rintro ⟨h, hpos⟩
      rcases hv with hv | hv
      · exact hv h
      · omega
  line := by simp
  sleep _ := by simp
  result := hres
  stop h := (hstop h).imp_right fun hD => .inr (.inr hD)

/-- A read that has nothing takes the end of file. -/
theorem Takes.eof_next (hunread : ed.unread = C 'D' :: rest) (hn : 0 < target) :
    Takes target target ed { ed with taken := ed.taken + 1 } [] target (some 0) where
  stream := rfl
  taken _ := (take_next hunread).2
  count := Nat.zero_add target
  bytes := by
    rw [(take_next hunread).1]
    simp
  eof := by
    rw [(take_next hunread).1, if_pos ⟨rfl, hn⟩]
    simp
  line := by simp
  sleep h := by cases h
  result := .inr (.inr (by simp))
  stop _ := .inr (.inr (.inl ⟨rfl, by rw [hunread]; rfl, rfl⟩))

theorem bytes_next (hunread : ed.unread = c :: rest) (hD : c ≠ C 'D') :
    (ed.stream.take (ed.taken + 1)).filter (· ≠ C 'D') =
      (ed.stream.take ed.taken).filter (· ≠ C 'D') ++ [c] ∧
    (ed.stream.take (ed.taken + 1)).count (C 'D') =
      (ed.stream.take ed.taken).count (C 'D') := by
  rw [(take_next hunread).1]
  refine ⟨?_, ?_⟩
  · simp [hD]
  · rw [count_append, count_singleton, if_neg (by simpa using hD), Nat.add_zero]

/-- A read takes a line break and ends. -/
theorem Takes.line_next (hunread : ed.unread = newline :: rest) (hn : n < target) :
    Takes target (n + 1) ed { ed with taken := ed.taken + 1 } [newline] n
      (some ((target - n : Nat) : Int)) where
  stream := rfl
  taken _ := (take_next hunread).2
  count := Nat.add_comm 1 n
  bytes := (bytes_next hunread (by decide)).1
  eof := by
    rw [if_neg]
    · exact (bytes_next hunread (by decide)).2
    · rintro ⟨h, -⟩
      have hzero := Option.some.inj h
      omega
  line := by simp
  sleep h := by cases h
  result := .inr (.inr rfl)
  stop _ := .inr (.inl rfl)

/-- A read takes another byte and goes on. -/
theorem Takes.cons (hunread : ed.unread = c :: rest) (hD : c ≠ C 'D') (hnl : c ≠ newline)
    (hn : n < target) (h : Takes target n { ed with taken := ed.taken + 1 } ed' bs m v) :
    Takes target (n + 1) ed ed' (c :: bs) m v := by
  obtain ⟨hbytes, hcount⟩ := bytes_next hunread hD
  have hm := h.count
  refine ⟨h.stream, fun _ => h.taken (take_next hunread).2, ?_, ?_, ?_, ?_, fun hv => ?_, h.result,
    fun hv => ?_⟩
  · rw [length_cons]
    omega
  · rw [append_cons, ← hbytes]
    exact h.bytes
  · rw [← hcount]
    exact h.eof
  · cases bs with
    | nil => simp
    | cons b bs =>
      exact not_mem_cons_of_ne_of_not_mem hnl.symm h.line
  · exact not_mem_cons_of_ne_of_not_mem hnl.symm (h.sleep hv)
  · rcases h.stop hv with h0 | hlast | ⟨htarget, -⟩ | hD'
    · exact .inl h0
    · refine .inr (.inl ?_)
      rw [getLast?_cons, hlast]
      rfl
    · omega
    · exact .inr (.inr (.inr hD'))

theorem read_takes (killed : Bool) (n : Nat) (ed : Editor) (hn : n ≤ target) :
    Takes target n ed (read killed target n ed).1 (read killed target n ed).2.1
      (read killed target n ed).2.2.1 (read killed target n ed).2.2.2 := by
  induction n generalizing ed with
  | zero =>
    refine .stay ?_ (.inr (.inr rfl)) fun _ => .inl rfl
    change some (target : Int) ≠ some 0 ∨ target = 0
    by_cases h0 : target = 0
    · exact .inr h0
    · left
      simpa using h0
  | succ n ih =>
    rw [read]
    cases hunread : ed.unread with
    | nil =>
      cases killed
      · exact .stay (.inl (by simp)) (.inl rfl) fun h => by cases h
      · exact .stay (.inl (by simp)) (.inr (.inl rfl)) fun h => by cases h
    | cons c rest =>
      dsimp only
      by_cases hD : c = C 'D'
      · subst hD
        rw [if_pos rfl]
        split_ifs with hlt
        · refine .stay (.inl ?_) (.inr (.inr rfl)) fun _ => .inr ⟨hlt, ?_⟩
          · simp only [ne_eq, Option.some.injEq]
            omega
          · rw [hunread]
            rfl
        · obtain rfl : target = n + 1 := by omega
          rw [Nat.sub_self]
          exact .eof_next hunread (by omega)
      rw [if_neg hD]
      rcases eq_or_ne c newline with rfl | hnl
      · exact .line_next hunread (by omega)
      · rw [if_neg hnl]
        exact .cons hunread hD hnl (by omega) (ih _ (by omega))

end Editor

/-- The reference: an editor for each console, and the calls in progress. -/
structure Desk (ι : Type) where
  ed : Nat → Editor
  active : Nat
  /-- Where the last character moves, if it has not done so. -/
  moving : Int
  call : ι → Option Call
  delivered : Nat → List UInt8
  returned : List (Return ι)

namespace Desk

variable {ι : Type} [DecidableEq ι]

/-- The console that is active after a move. -/
def moved (active : Nat) (move : Int) : Nat :=
  if 0 ≤ active + move ∧ active + move < NDEV then (active + move).toNat else active

/-- Process `p` goes on with its call. -/
def exec (d : Desk ι) (p : ι) (killed : Bool) : Call → Desk ι
  | .read vc dst target n got =>
    let (ed, bs, m, r) := (d.ed vc).read killed target n
    let d := { d with
      ed := update d.ed vc ed
      delivered := update d.delivered vc (d.delivered vc ++ bs) }
    let call := Call.read vc dst target m (got ++ bs)
    match r with
    | none => { d with call := update d.call p (some call) }
    | some v => { d with
        call := update d.call p none
        returned := d.returned ++ [⟨p, call, v⟩] }
  | .write vc src n i =>
    match (if n ≤ i then none else src i) with
    | none => { d with
        call := update d.call p none
        returned := d.returned ++ [⟨p, .write vc src n i, n⟩] }
    | some c => { d with
        call := update d.call p (some
          (if vc = d.active then .send vc src n i c else .write vc src n (i + 1))) }
  | .send vc src n i _ => { d with call := update d.call p (some (.write vc src n (i + 1))) }

def step (d : Desk ι) : Act ι → Option (Desk ι)
  | .intr c =>
    if d.moving = 0 then some { d with
      ed := update d.ed d.active ((d.ed d.active).type c)
      moving := State.move c }
    else none
  | .switch =>
    if d.moving ≠ 0 then some { d with active := moved d.active d.moving, moving := 0 } else none
  | .cread p vc dst n =>
    if vc < NDEV ∧ d.call p = none then
      some { d with call := update d.call p (some (.read vc dst n.toNat n.toNat [])) }
    else none
  | .cwrite p vc src n =>
    if vc < NDEV ∧ d.call p = none then
      some { d with call := update d.call p (some (.write vc src n 0)) }
    else none
  | .run p killed => (d.call p).map (d.exec p killed)

omit [DecidableEq ι] in
/-- Nothing was typed. -/
def empty : Desk ι where
  ed _ := ⟨[], 0, []⟩
  active := 0
  moving := 0
  call _ := none
  delivered _ := []
  returned := []

end Desk

/-- The reference editors as a machine. -/
def reference (ι : Type) [DecidableEq ι] : Machine (Desk ι) (Act ι) := ⟨Desk.step⟩

/-! ## A console shows an editor -/

/-- The buffer of the console holds the unread bytes of the editor, up to `w`,
and its line, up to `e`. -/
structure Holds (cons : Input) (ed : Editor) : Prop where
  queue : queue INPUT_BUF cons.buf cons.r cons.e = ed.unread ++ ed.line
  committed : (cons.w - cons.r).toNat = ed.unread.length
  bound : ed.unread.length + ed.line.length ≤ INPUT_BUF
  taken : ed.taken ≤ ed.stream.length

/-- And a line that is complete, or that fills the buffer, has been
committed. -/
structure Shows (cons : Input) (ed : Editor) : Prop extends Holds cons ed where
  full : ed.unread.length + ed.line.length = INPUT_BUF → ed.line = []
  incomplete : newline ∉ ed.line

variable {cons : Input} {ed : Editor} {dst : Nat → Bool} {target : Nat}

namespace Holds

section

variable (h : Holds cons ed)

include h

theorem length : (cons.e - cons.r).toNat = ed.unread.length + ed.line.length := by
  have hlen : (Lib.queue INPUT_BUF cons.buf cons.r cons.e).length = (cons.e - cons.r).toNat :=
    length_queue
  rw [← hlen, h.queue, length_append]

theorem line_eq_nil : cons.e = cons.w ↔ ed.line = [] := by
  have hlen := h.length
  have hcom := h.committed
  constructor
  · intro heq
    rw [heq, hcom] at hlen
    exact length_eq_zero_iff.mp (by omega)
  · intro hnil
    rw [hnil, length_nil, Nat.add_zero, ← hcom] at hlen
    have hsub : cons.e - cons.r = cons.w - cons.r := BitVec.eq_of_toNat_eq hlen
    rw [← BitVec.sub_add_cancel cons.e cons.r, hsub, BitVec.sub_add_cancel]

theorem unread_eq_nil : cons.r = cons.w ↔ ed.unread = [] := by
  rw [← toNat_sub_eq_zero, h.committed, length_eq_zero_iff]

theorem full_iff : cons.e = cons.r + BitVec.ofNat 32 INPUT_BUF ↔
    ed.unread.length + ed.line.length = INPUT_BUF := by
  rw [← h.length]
  constructor
  · intro heq
    rw [heq, BitVec.add_comm, BitVec.add_sub_cancel]
    rfl
  · intro hlen
    rw [← hlen, counter_add_sub]

theorem commit : Shows { cons with w := cons.e } ed.commit := by
  have hunread : ed.commit.unread = ed.unread ++ ed.line := by
    rw [Editor.unread, Editor.commit, drop_append_of_le_length h.taken, Editor.unread]
  have hbound := h.bound
  refine ⟨⟨?_, ?_, ?_, ?_⟩, fun _ => rfl, by simp [Editor.commit]⟩
  · rw [hunread]
    simpa [Editor.commit] using h.queue
  · rw [hunread, length_append]
    exact h.length
  · rw [hunread]
    simpa [Editor.commit] using hbound
  · rw [Editor.commit, length_append]
    exact Nat.le_add_right_of_le h.taken

/-- A character is added behind the line. -/
theorem push (hroom : ed.unread.length + ed.line.length < INPUT_BUF) (c : UInt8) : Holds
      { cons with
        buf := update cons.buf (cons.e.toNat % INPUT_BUF) c
        e := cons.e + 1 }
      { ed with line := ed.line ++ [c] } := by
  have hlt : (cons.e - cons.r).toNat < INPUT_BUF := h.length ▸ hroom
  refine ⟨?_, h.committed, ?_, h.taken⟩
  · rw [queue_push (by decide) (by decide) hlt c, h.queue, append_assoc]
    rfl
  · change ed.unread.length + (ed.line ++ [c]).length ≤ INPUT_BUF
    rw [length_append, length_singleton]
    exact hroom

end

end Holds

namespace Shows

section

variable (h : Shows cons ed)

include h

/-- The last character of the line is erased. -/
theorem erase (hline : ed.line ≠ []) :
    Shows { cons with e := cons.e - 1 } { ed with line := ed.line.dropLast } ∧
      cons.buf ((cons.e - 1).toNat % INPUT_BUF) = ed.line.getLast hline := by
  have hre : cons.r ≠ cons.e := by
    intro heq
    have hlen := h.length
    rw [heq, BitVec.sub_self] at hlen
    have := length_pos_iff.mpr hline
    simp at hlen
    omega
  have hq : Lib.queue INPUT_BUF cons.buf cons.r (cons.e - 1) ++
      [cons.buf ((cons.e - 1).toNat % INPUT_BUF)] =
      (ed.unread ++ ed.line.dropLast) ++ [ed.line.getLast hline] := by
    rw [← queue_unpush hre, h.queue, append_assoc, dropLast_concat_getLast]
  obtain ⟨hqueue, hlast⟩ := append_inj' hq rfl
  have hdrop : ed.line.dropLast.length < ed.line.length := by
    have := length_pos_iff.mpr hline
    rw [length_dropLast]
    omega
  have hbound := h.bound
  refine ⟨⟨⟨hqueue, h.committed, ?_, h.taken⟩, fun hfull => ?_, fun hmem => ?_⟩,
    singleton_inj.mp hlast⟩
  · change ed.unread.length + ed.line.dropLast.length ≤ INPUT_BUF
    omega
  · change ed.unread.length + ed.line.dropLast.length = INPUT_BUF at hfull
    omega
  · exact h.incomplete (dropLast_subset _ hmem)

/-- Control-U erases the whole line. -/
theorem killLine {k : Nat} (hk : ed.line.length = k) :
    Shows (Input.killLine k cons).1 { ed with line := [] } := by
  induction k generalizing cons ed with
  | zero =>
    have hnil := length_eq_zero_iff.mp hk
    rw [← hnil]
    exact h
  | succ k ih =>
    have hline : ed.line ≠ [] := by
      intro hnil
      rw [hnil] at hk
      cases hk
    obtain ⟨herase, hlast⟩ := h.erase hline
    have hne : cons.buf ((cons.e - 1).toNat % INPUT_BUF) ≠ newline := by
      rw [hlast]
      intro heq
      exact h.incomplete (heq ▸ getLast_mem hline)
    rw [Input.killLine, if_pos ⟨fun heq => hline (h.line_eq_nil.mp heq), hne⟩]
    have hlen : ed.line.dropLast.length = k := by
      rw [length_dropLast, hk]
      rfl
    have hrest := ih herase hlen
    exact hrest

theorem store (hroom : ed.unread.length + ed.line.length < INPUT_BUF) (c : UInt8) :
    Shows (cons.store c) (ed.store c) := by
  have hpush := h.push hroom c
  rw [Input.store, Editor.store]
  simp only [hpush.full_iff]
  split_ifs with hend
  · exact hpush.commit
  · push Not at hend
    refine ⟨hpush, fun hfull => absurd hfull hend.2.2, fun hmem => ?_⟩
    rcases mem_append.mp hmem with hmem | hmem
    · exact h.incomplete hmem
    · exact hend.1 (mem_singleton.mp hmem).symm

theorem length_line : (cons.e - cons.w).toNat = ed.line.length := by
  have hbound := h.bound
  have hlt : ed.line.length < 2 ^ 32 := by
    unfold INPUT_BUF at hbound
    omega
  have he := counter_add_sub cons.r cons.e
  have hw := counter_add_sub cons.r cons.w
  rw [h.length] at he
  rw [h.committed] at hw
  rw [← he, ← hw, BitVec.ofNat_add, ← BitVec.add_assoc, BitVec.add_comm (_ + _),
    BitVec.add_sub_cancel, BitVec.toNat_ofNat, Nat.mod_eq_of_lt hlt]

/-- A character does to the console what it does to the editor. -/
theorem type (c : UInt8) : Shows (cons.type c).1 (ed.type c) := by
  rw [Input.type, Editor.type]
  by_cases hP : c = C 'P'
  · rw [if_pos hP, if_pos (.inl hP)]
    exact h
  rw [if_neg hP]
  by_cases hU : c = C 'U'
  · rw [if_pos hU, if_neg (by rw [hU]; decide), if_pos hU]
    exact h.killLine h.length_line.symm
  rw [if_neg hU]
  by_cases hH : c = C 'H' ∨ c = DEL
  · have hnot : ¬(c = C 'P' ∨ c = C 'N' ∨ c = C 'B' ∨ c = 0) := by
      rcases hH with rfl | rfl <;> decide
    split_ifs with hline
    · exact (h.erase fun hnil => hline (h.line_eq_nil.mpr hnil)).1
    · have hnil : ed.line = [] := h.line_eq_nil.mp (not_not.mp hline)
      rw [hnil, dropLast_nil, ← hnil]
      exact h
  rw [if_neg hH]
  by_cases hN : c = C 'N' ∨ c = C 'B'
  · rw [if_pos hN, if_pos (hN.elim (fun hN => .inr (.inl hN)) fun hB =>
      .inr (.inr (.inl hB)))]
    exact h
  rw [if_neg hN]
  by_cases h0 : c = 0
  · rw [if_neg fun hstore => hstore.1 h0, if_pos (.inr (.inr (.inr h0)))]
    exact h
  have hnot : ¬(c = C 'P' ∨ c = C 'N' ∨ c = C 'B' ∨ c = 0) := by
    rintro (hc | hc | hc | hc)
    · exact hP hc
    · exact hN (.inl hc)
    · exact hN (.inr hc)
    · exact h0 hc
  rw [if_neg hnot, if_neg hU, if_neg hH, h.length]
  by_cases hroom : ed.unread.length + ed.line.length < INPUT_BUF
  · rw [if_pos ⟨h0, hroom⟩, if_pos hroom]
    exact h.store hroom _
  · rw [if_neg fun hstore => hroom hstore.2, if_neg hroom]
    exact h

end

/-- The next byte is taken. -/
theorem take {c : UInt8} {rest : List UInt8} (h : Shows cons ed) (hunread : ed.unread = c :: rest) :
    cons.r ≠ cons.w ∧ cons.buf (cons.r.toNat % INPUT_BUF) = c ∧
      Shows { cons with r := cons.r + 1 } { ed with taken := ed.taken + 1 } := by
  have hrw : cons.r ≠ cons.w := by
    rw [Ne, h.unread_eq_nil, hunread]
    exact cons_ne_nil _ _
  have hre : cons.r ≠ cons.e := by
    intro heq
    have hlen := h.length
    rw [heq, BitVec.sub_self, hunread, length_cons] at hlen
    simp at hlen
    omega
  have hq := h.queue
  rw [queue_pop hre, hunread, cons_append] at hq
  obtain ⟨hc, hq⟩ := List.cons.inj hq
  have hrest : Editor.unread { ed with taken := ed.taken + 1 } = rest := by
    rw [Editor.unread] at hunread ⊢
    rw [← drop_drop, hunread]
    rfl
  have hlen : ed.unread.length = rest.length + 1 := by rw [hunread, length_cons]
  have hbound := h.bound
  refine ⟨hrw, hc, ⟨?_, ?_, ?_, ?_⟩, ?_, h.incomplete⟩
  · rw [hrest]
    exact hq
  · rw [hrest]
    change (cons.w - (cons.r + 1)).toNat = rest.length
    rw [toNat_sub_succ hrw, h.committed, hlen]
    rfl
  · rw [hrest]
    change rest.length + ed.line.length ≤ INPUT_BUF
    omega
  · change ed.taken + 1 ≤ ed.stream.length
    rw [Editor.unread, length_drop] at hlen
    omega
  · rw [hrest]
    intro hfull
    change rest.length + ed.line.length = INPUT_BUF at hfull
    omega

/-- A read takes from the console what it takes from the editor. -/
theorem read (h : Shows cons ed) (killed : Bool) (n : Nat) (hn : n ≤ target)
    (hdst : ∀ i < target, dst i = true) :
    (Input.readLoop killed dst target n cons).2 = (Editor.read killed target n ed).2 ∧
      Shows (Input.readLoop killed dst target n cons).1 (Editor.read killed target n ed).1 := by
  induction n generalizing cons ed with
  | zero => exact ⟨rfl, h⟩
  | succ n ih =>
    rw [Input.readLoop, Editor.read]
    cases hunread : ed.unread with
    | nil =>
      rw [if_pos (h.unread_eq_nil.mpr hunread)]
      cases killed <;> exact ⟨rfl, h⟩
    | cons c rest =>
      obtain ⟨hrw, hc, hnext⟩ := h.take hunread
      rw [if_neg hrw]
      simp only [hc, hdst _ (show target - (n + 1) < target by omega), Bool.true_eq_false, if_false]
      by_cases hD : c = C 'D'
      · rw [if_pos hD, if_pos hD]
        refine ⟨rfl, ?_⟩
        split_ifs
        · rw [BitVec.add_sub_cancel]
          exact h
        · exact hnext
      rw [if_neg hD, if_neg hD]
      by_cases hnl : c = newline
      · rw [if_pos hnl, if_pos hnl]
        exact ⟨rfl, hnext⟩
      rw [if_neg hnl, if_neg hnl]
      obtain ⟨heq, hshows⟩ := ih hnext (by omega)
      exact ⟨congrArg (fun x => (c :: x.1, x.2.1, x.2.2)) heq, hshows⟩

end Shows

/-! ## The consoles and the reference -/

/-- The buffer of a call is mapped. -/
def Act.Mapped {ι : Type} : Act ι → Prop
  | .cread _ _ dst n => ∀ i < n.toNat, dst i = true
  | .cwrite _ _ src n => ∀ i < n.toNat, (src i).isSome
  | .intr _ | .switch | .run _ _ => True

section Runs

variable {ι : Type} [DecidableEq ι] {s t : State ι} {d d' : Desk ι} {a : Act ι} {p : ι}
  {x : Option Call} {got : List UInt8} {killed : Bool} {vc i n : Nat} {src : Nat → Option UInt8}
  {as : List (Act ι)}

/-- A property of the reads in progress, when the call of one process changes. -/
theorem reads_update {P : Nat → (Nat → Bool) → Nat → Nat → List UInt8 → Prop}
    {call : ι → Option Call}
    (h : ∀ q vc dst target n got, call q = some (.read vc dst target n got) →
      P vc dst target n got)
    (hx : ∀ vc dst target n got, x = some (.read vc dst target n got) → P vc dst target n got) :
    ∀ q vc dst target n got, update call p x q = some (.read vc dst target n got) →
      P vc dst target n got :=
  (forall_update_iff call fun _ y => ∀ vc dst target n got,
    y = some (.read vc dst target n got) → P vc dst target n got).mpr ⟨hx, fun q _ => h q⟩

structure Sim (s : State ι) (d : Desk ι) : Prop where
  shows : ∀ vc, Shows (s.vcons vc) (d.ed vc)
  active : s.active = d.active
  consa : s.consa = d.active
  active_lt : d.active < NDEV
  moving : d.moving = s.moving
  call : d.call = s.call
  delivered : d.delivered = s.delivered
  returned : d.returned = s.returned
  mapped : ∀ p vc dst target n got, s.call p = some (.read vc dst target n got) →
    n ≤ target ∧ ∀ i < target, dst i = true

omit [DecidableEq ι] in
theorem shows_update (h : ∀ vc, Shows (s.vcons vc) (d.ed vc)) (hshows : Shows cons ed)
    (vc' : Nat) : Shows (update s.vcons vc cons vc') (update d.ed vc ed vc') := by
  rcases eq_or_ne vc' vc with rfl | hvc
  · rwa [update_self, update_self]
  · rw [update_of_ne hvc, update_of_ne hvc]
    exact h vc'

theorem Sim.intr (h : Sim s d) (c : UInt8) (hfree : s.moving = 0) :
    ∃ d', d.step (.intr c) = some d' ∧ Sim (s.consoleintr c) d' := by
  refine ⟨_, if_pos (h.moving.trans hfree), fun vc => ?_, h.active, h.consa, h.active_lt, rfl,
    h.call, h.delivered, h.returned, h.mapped⟩
  change Shows (update s.vcons s.consa _ vc) _
  rw [h.consa]
  exact shows_update h.shows ((h.shows d.active).type c) vc

theorem Sim.switch (h : Sim s d) (hmoving : s.moving ≠ 0) :
    ∃ d', d.step .switch = some d' ∧ Sim s.moveVconsole d' := by
  have hactive := h.active
  have hconsa := h.consa
  have hlt := h.active_lt
  refine ⟨_, if_pos (by rwa [h.moving]), ⟨?_, ?_, ?_, ?_, ?_, ?_, ?_, ?_, ?_⟩⟩
  · simpa using h.shows
  · rw [State.moveVconsole, Desk.moved, h.moving]
    split_ifs <;> dsimp only <;> omega
  · rw [State.moveVconsole, Desk.moved, h.moving]
    split_ifs <;> dsimp only <;> omega
  · dsimp only [Desk.moved]
    split_ifs <;> omega
  · simp
  · simpa using h.call
  · simpa using h.delivered
  · simpa using h.returned
  · simpa using h.mapped

/-- A process goes on with a read. -/
theorem Sim.read (h : Sim s d) (hcall : s.call p = some (.read vc dst target n got)) :
    Sim (s.exec p killed (.read vc dst target n got))
      (d.exec p killed (.read vc dst target n got)) := by
  obtain ⟨hn, hdst⟩ := h.mapped p vc dst target n got hcall
  obtain ⟨heq, hshows⟩ := (h.shows vc).read killed n hn hdst
  have htakes := Editor.read_takes killed n (d.ed vc) hn
  rw [State.exec, Desk.exec]
  generalize Input.readLoop killed dst target n (s.vcons vc) = x at heq hshows ⊢
  generalize Editor.read killed target n (d.ed vc) = y at heq hshows htakes ⊢
  obtain ⟨cons, rest⟩ := x
  obtain ⟨ed, bs, m, r⟩ := y
  obtain rfl : rest = (bs, m, r) := heq
  have hm : m ≤ n := by
    have hcount : bs.length + m = n := htakes.count
    omega
  cases r with
  | none =>
    refine ⟨shows_update h.shows hshows, h.active, h.consa, h.active_lt, h.moving, by rw [h.call],
      by rw [h.delivered], h.returned, reads_update h.mapped fun _ _ _ _ _ hq => ?_⟩
    cases hq
    exact ⟨hm.trans hn, hdst⟩
  | some v =>
    exact ⟨shows_update h.shows hshows, h.active, h.consa, h.active_lt, h.moving, by rw [h.call],
      by rw [h.delivered], by rw [h.returned], reads_update h.mapped (by simp)⟩

/-- A call that is not a read, or that has just begun. -/
theorem Sim.setCall (h : Sim s d)
    (hx : ∀ vc dst target n got, x = some (.read vc dst target n got) →
      n ≤ target ∧ ∀ i < target, dst i = true) (rs : List (Return ι)) (u : List Out) :
    Sim { s with uart := u, call := update s.call p x, returned := s.returned ++ rs }
      { d with call := update d.call p x, returned := d.returned ++ rs } :=
  ⟨h.shows, h.active, h.consa, h.active_lt, h.moving, by rw [h.call], h.delivered,
    by rw [h.returned], reads_update h.mapped hx⟩

theorem Sim.write {n : Int} (h : Sim s d) : Sim (s.exec p killed (.write vc src n i))
    (d.exec p killed (.write vc src n i)) := by
  rw [State.exec, Desk.exec]
  by_cases hend : n ≤ i
  · rw [if_pos hend, if_pos hend]
    exact h.setCall (x := none) (by simp) _ s.uart
  · rw [if_neg hend, if_neg hend]
    cases hsrc : src i with
    | none => exact h.setCall (x := none) (by simp) _ s.uart
    | some c =>
      have hset := h.setCall (p := p)
        (x := some (if vc = s.consa then .send vc src n i c else .write vc src n (i + 1)))
        (by split_ifs <;> simp) [] s.uart
      simpa [h.consa] using hset

theorem Sim.step (h : Sim s d) (hmapped : a.Mapped) (hstep : (consoles ι).step s a = some t) :
    ∃ d', (reference ι).step d a = some d' ∧ Sim t d' := by
  change s.step a = some t at hstep
  cases a with
  | intr c =>
    obtain ⟨hfree, hstep⟩ := ite_none_right_eq_some.mp hstep
    cases hstep
    exact h.intr c hfree
  | switch =>
    obtain ⟨hmoving, hstep⟩ := ite_none_right_eq_some.mp hstep
    cases hstep
    exact h.switch hmoving
  | cread p vc dst n =>
    simp only [State.step] at hstep
    split_ifs at hstep with hfree
    cases hstep
    refine ⟨_, if_pos (h.call ▸ hfree), ?_⟩
    have hset := h.setCall (p := p) (x := some (.read vc dst n.toNat n.toNat []))
      (fun _ _ _ _ _ hx => by cases hx; exact ⟨Nat.le_refl _, hmapped⟩) [] s.uart
    simpa using hset
  | cwrite p vc src n =>
    simp only [State.step] at hstep
    split_ifs at hstep with hfree
    cases hstep
    refine ⟨_, if_pos (h.call ▸ hfree), ?_⟩
    have hset := h.setCall (p := p) (x := some (.write vc src n 0))
      nofun [] s.uart
    simpa using hset
  | run p killed =>
    obtain ⟨call, hcall, rfl⟩ := map_eq_some_iff.mp hstep
    refine ⟨d.exec p killed call, ?_, ?_⟩
    · change (d.call p).map (d.exec p killed) = _
      rw [h.call, hcall]
      rfl
    · cases call with
      | read vc dst target n got => exact h.read hcall
      | write vc src n i => exact h.write
      | send vc src n i c =>
        have hset := h.setCall (p := p) (x := some (.write vc src n (i + 1))) (by simp) []
          (s.uart ++ [.char c])
        simpa [State.exec, Desk.exec] using hset

omit [DecidableEq ι] in
theorem State.Init.sim (h : s.Init) : Sim s Desk.empty := by
  refine ⟨fun vc => ?_, h.active, h.consa, show 0 < NDEV by decide, h.moving.symm, ?_, ?_,
    h.returned.symm, ?_⟩
  · obtain ⟨hr, hw, he⟩ := h.empty vc
    refine ⟨⟨?_, ?_, Nat.zero_le _, Nat.le_refl 0⟩, fun _ => rfl, by simp [Desk.empty]⟩
    · rw [hr, he, queue_self]
      rfl
    · rw [hr, hw]
      rfl
  · funext p
    exact (h.call p).symm
  · funext vc
    exact (h.delivered vc).symm
  · intro p vc dst target n got hcall
    rw [h.call p] at hcall
    cases hcall

/-- Every run of the consoles is a run of the reference. -/
theorem sim_of_run {s0 : State ι} (hinit : s0.Init) (hmapped : ∀ a ∈ as, a.Mapped)
    (hrun : (consoles ι).run s0 as = some s) :
    ∃ d, (reference ι).run Desk.empty as = some d ∧ Sim s d := by
  refine (consoles ι).run_history (P := fun as s => (∀ a ∈ as, a.Mapped) →
    ∃ d, (reference ι).run Desk.empty as = some d ∧ Sim s d)
    (fun _ => ⟨_, rfl, hinit.sim⟩) (fun as t a u _ hP hstep hmap => ?_) hrun hmapped
  obtain ⟨d, hd, hsim⟩ := hP fun b hb => hmap b (mem_append_left _ hb)
  obtain ⟨d', hd', hsim'⟩ := hsim.step
    (hmap a (mem_append_right _ (mem_singleton_self a))) hstep
  refine ⟨d', ?_, hsim'⟩
  rw [Machine.run_append, hd, bind_some, Machine.run_cons, hd']
  rfl

/-! ## What the reference delivers -/

/-- A read of some bytes of console `vc` that returned 0. -/
def Return.isEof (vc : Nat) (r : Return ι) : Bool :=
  match r.call with
  | .read vc' _ target _ _ => vc' = vc ∧ 0 < target ∧ r.value = 0
  | .write _ _ _ _ | .send _ _ _ _ _ => false

/-- A read returns the number of the bytes that it has, or -1, and has nothing
behind a line break.  A write returns its length. -/
def Return.Ends (r : Return ι) : Prop :=
  match r.call with
  | .read _ _ target n got => got.length + n = target ∧ newline ∉ got.dropLast ∧
      (r.value = got.length ∨ r.value = -1)
  | .write _ _ n _ | .send _ _ n _ _ => r.value = n

structure Served (d : Desk ι) : Prop where
  taken : ∀ vc, (d.ed vc).taken ≤ (d.ed vc).stream.length
  /-- Reads have delivered the stream up to where it is taken, without the ends
  of file. -/
  delivered : ∀ vc, d.delivered vc =
    ((d.ed vc).stream.take (d.ed vc).taken).filter (· ≠ C 'D')
  /-- Each end of file has made one read return 0. -/
  eof : ∀ vc, d.returned.countP (Return.isEof vc) =
    ((d.ed vc).stream.take (d.ed vc).taken).count (C 'D')
  returned : ∀ r ∈ d.returned, r.Ends
  calls : ∀ p vc dst target n got, d.call p = some (.read vc dst target n got) →
    got.length + n = target ∧ newline ∉ got

/-- What is typed goes behind what is taken. -/
theorem Editor.type_stream (ed : Editor) (c : UInt8) :
    (ed.type c).taken = ed.taken ∧ ed.stream <+: (ed.type c).stream := by
  unfold Editor.type Editor.store Editor.commit
  dsimp only
  split_ifs <;> simp

theorem Editor.take_type (h : ed.taken ≤ ed.stream.length) (c : UInt8) :
    (ed.type c).stream.take (ed.type c).taken = ed.stream.take ed.taken := by
  obtain ⟨htaken, l, hl⟩ := ed.type_stream c
  rw [htaken, ← hl, take_append_of_le_length h]

omit [DecidableEq ι] in
theorem Served.intr (h : Served d) (c : UInt8) : Served { d with
    ed := update d.ed d.active ((d.ed d.active).type c)
    moving := State.move c } := by
  have hed : ∀ vc, (update d.ed d.active ((d.ed d.active).type c) vc).stream.take
        (update d.ed d.active ((d.ed d.active).type c) vc).taken =
      (d.ed vc).stream.take (d.ed vc).taken ∧
      (update d.ed d.active ((d.ed d.active).type c) vc).taken ≤
        (update d.ed d.active ((d.ed d.active).type c) vc).stream.length := by
    intro vc
    rcases eq_or_ne vc d.active with rfl | hvc
    · rw [update_self]
      obtain ⟨htaken, hprefix⟩ := (d.ed d.active).type_stream c
      exact ⟨Editor.take_type (h.taken _) c, htaken ▸ (h.taken _).trans hprefix.length_le⟩
    · rw [update_of_ne hvc]
      exact ⟨rfl, h.taken vc⟩
  refine ⟨fun vc => (hed vc).2, fun vc => ?_, fun vc => ?_, h.returned, h.calls⟩
  · rw [(hed vc).1]
    exact h.delivered vc
  · rw [(hed vc).1]
    exact h.eof vc

theorem Served.read (h : Served d) (hcall : d.call p = some (.read vc dst target n got)) :
    Served (d.exec p killed (.read vc dst target n got)) := by
  obtain ⟨hgot, hline⟩ := h.calls p vc dst target n got hcall
  have htakes := Editor.read_takes killed n (d.ed vc) (show n ≤ target by omega)
  rw [Desk.exec]
  generalize Editor.read killed target n (d.ed vc) = y at htakes ⊢
  obtain ⟨ed, bs, m, r⟩ := y
  have hstream : ed.stream = (d.ed vc).stream := htakes.stream
  have hm : (got ++ bs).length + m = target := by
    have hcount : bs.length + m = n := htakes.count
    rw [length_append]
    omega
  have htaken : ∀ vc', (update d.ed vc ed vc').taken ≤ (update d.ed vc ed vc').stream.length :=
    (forall_update_iff d.ed fun _ ed => ed.taken ≤ ed.stream.length).mpr
      ⟨hstream ▸ htakes.taken (h.taken vc), fun vc' _ => h.taken vc'⟩
  have hdelivered : ∀ vc', update d.delivered vc (d.delivered vc ++ bs) vc' =
      ((update d.ed vc ed vc').stream.take
        (update d.ed vc ed vc').taken).filter (· ≠ C 'D') := by
    intro vc'
    rcases eq_or_ne vc' vc with rfl | hvc
    · rw [update_self, update_self, hstream, htakes.bytes, h.delivered]
    · rw [update_of_ne hvc, update_of_ne hvc]
      exact h.delivered vc'
  cases r with
  | none =>
    refine ⟨htaken, hdelivered, fun vc' => ?_, h.returned,
      reads_update h.calls fun _ _ _ _ _ hq => ?_⟩
    · rcases eq_or_ne vc' vc with rfl | hvc
      · have heof := htakes.eof
        simp only [update_self, hstream, heof]
        exact h.eof vc'
      · simp only [update_of_ne hvc]
        exact h.eof vc'
    · cases hq
      refine ⟨hm, fun hmem => ?_⟩
      rcases mem_append.mp hmem with hmem | hmem
      · exact hline hmem
      · exact htakes.sleep rfl hmem
  | some v =>
    refine ⟨htaken, hdelivered, fun vc' => ?_, fun r hr => ?_, reads_update h.calls nofun⟩
    · rw [countP_append, h.eof vc', countP_singleton]
      rcases eq_or_ne vc' vc with rfl | hvc
      · have heof := htakes.eof
        simp [update_self, hstream, heof, Return.isEof, and_comm]
      · simp [update_of_ne hvc, Return.isEof, Ne.symm hvc]
    · rcases mem_append.mp hr with hr | hr
      · exact h.returned r hr
      · cases mem_singleton.mp hr
        refine ⟨hm, ?_, ?_⟩
        · intro hmem
          cases bs with
          | nil =>
            rw [append_nil] at hmem
            exact hline (dropLast_subset _ hmem)
          | cons b bs =>
            rw [dropLast_append_of_ne_nil (cons_ne_nil _ _)] at hmem
            rcases mem_append.mp hmem with hmem | hmem
            · exact hline hmem
            · exact htakes.line hmem
        · rcases htakes.result with hv | hv | hv
          · cases hv
          · exact .inr (Option.some.inj hv)
          · have hval : v = ((target - m : Nat) : Int) := Option.some.inj hv
            left
            change v = ((got ++ bs).length : Int)
            omega

/-- A read begins, or a write goes on. -/
theorem Served.setCall (h : Served d)
    (hx : ∀ vc dst target n got, x = some (.read vc dst target n got) →
      got.length + n = target ∧ newline ∉ got) : Served { d with call := update d.call p x } :=
  ⟨h.taken, h.delivered, h.eof, h.returned, reads_update h.calls hx⟩

theorem Served.write {n : Int} (h : Served d) : Served (d.exec p killed (.write vc src n i)) := by
  rw [Desk.exec]
  cases (if n ≤ i then none else src i) with
  | none =>
    refine ⟨h.taken, h.delivered, fun vc' => ?_, fun r hr => ?_, reads_update h.calls nofun⟩
    · simp [countP_append, h.eof vc', Return.isEof]
    · rcases mem_append.mp hr with hr | hr
      · exact h.returned r hr
      · cases mem_singleton.mp hr
        rfl
  | some c => exact h.setCall (by split_ifs <;> simp)

theorem Served.step (h : Served d) (hstep : (reference ι).step d a = some d') : Served d' := by
  change d.step a = some d' at hstep
  cases a with
  | intr c =>
    obtain ⟨-, hstep⟩ := ite_none_right_eq_some.mp hstep
    cases hstep
    exact h.intr c
  | switch =>
    obtain ⟨-, hstep⟩ := ite_none_right_eq_some.mp hstep
    cases hstep
    exact ⟨h.taken, h.delivered, h.eof, h.returned, h.calls⟩
  | cread p vc dst n =>
    simp only [Desk.step] at hstep
    split_ifs at hstep
    cases hstep
    exact h.setCall fun _ _ _ _ _ hx => by cases hx; exact ⟨Nat.zero_add _, by simp⟩
  | cwrite p vc src n =>
    simp only [Desk.step] at hstep
    split_ifs at hstep
    cases hstep
    exact h.setCall nofun
  | run p killed =>
    obtain ⟨call, hcall, rfl⟩ := map_eq_some_iff.mp hstep
    cases call with
    | read vc dst target n got => exact h.read hcall
    | write vc src n i => exact h.write
    | send vc src n i c => exact h.setCall nofun

omit [DecidableEq ι] in
theorem served_empty : Served (Desk.empty : Desk ι) :=
  ⟨fun _ => Nat.le_refl 0, fun _ => rfl, fun _ => rfl, (fun _ hr => by cases hr),
    (fun _ _ _ _ _ _ hcall => by cases hcall)⟩

/-- Where a read of console `vc` that returns with `n` bytes to go has stopped:
it has all its bytes, or a line break, or it has taken an end of file, or it
stands before one. -/
def Stops (d d' : Desk ι) (vc n : Nat) (got : List UInt8) : Prop :=
  n = 0 ∨ got.getLast? = some newline ∨
  (got = [] ∧ (d.ed vc).unread.head? = some (C 'D') ∧ (d'.ed vc).taken = (d.ed vc).taken + 1) ∨
  (got ≠ [] ∧ (d'.ed vc).unread.head? = some (C 'D'))

theorem Served.stops {v : Int} (h : Served d)
    (hstep : (reference ι).step d (.run p killed) = some d')
    (hret : d'.returned = d.returned ++ [⟨p, .read vc dst target n got, v⟩]) (hv : v ≠ -1) :
    Stops d d' vc n got := by
  obtain ⟨call, hcall, rfl⟩ := map_eq_some_iff.mp hstep
  cases call with
  | send vc' src n' i c => simp [Desk.exec] at hret
  | write vc' src n' i =>
    rw [Desk.exec] at hret
    cases hsrc : (if n' ≤ i then none else src i) <;> simp [hsrc] at hret
  | read vc' dst' target' n' got' =>
    obtain ⟨hgot, -⟩ := h.calls p _ _ _ _ _ hcall
    have htakes := Editor.read_takes killed n' (d.ed vc') (show n' ≤ target' by omega)
    rw [Desk.exec] at hret ⊢
    generalize Editor.read killed target' n' (d.ed vc') = y at htakes hret ⊢
    obtain ⟨ed, bs, m, r⟩ := y
    cases r with
    | none => simp at hret
    | some w =>
      simp only [append_cancel_left_eq, List.cons.injEq, Return.mk.injEq, Call.read.injEq,
        true_and, and_true] at hret
      obtain ⟨⟨rfl, rfl, rfl, rfl, rfl⟩, rfl⟩ := hret
      have hcount : bs.length + m = n' := htakes.count
      have hres : some w = some ((target' - m : Nat) : Int) := by
        rcases htakes.result with hw | hw | hw
        · cases hw
        · exact absurd (Option.some.inj hw) hv
        · exact hw
      rw [Stops]
      simp only [update_self]
      rcases htakes.stop hres with h0 | hlast | ⟨hall, hD, htaken⟩ | ⟨hlt, hD⟩
      · exact .inl h0
      · refine .inr (.inl ?_)
        rw [getLast?_append, hlast]
        rfl
      · refine .inr (.inr (.inl ⟨?_, hD, htaken⟩))
        have hall' : m = target' := hall
        have hlen : (got' ++ bs).length = 0 := by
          rw [length_append]
          omega
        exact length_eq_zero_iff.mp hlen
      · refine .inr (.inr (.inr ⟨fun hnil => ?_, hD⟩))
        have hlt' : m < target' := hlt
        have hlen : (got' ++ bs).length = 0 := by rw [hnil, length_nil]
        rw [length_append] at hlen
        omega

/-- The indices of a console, and that a full buffer is committed. -/
structure Indices (cons : Input) : Prop where
  w_le_e : (cons.w - cons.r).toNat ≤ (cons.e - cons.r).toNat
  e_le : (cons.e - cons.r).toNat ≤ INPUT_BUF
  full : cons.e = cons.r + BitVec.ofNat 32 INPUT_BUF → cons.w = cons.e

theorem Shows.indices (h : Shows cons ed) : Indices cons where
  w_le_e := by
    rw [h.committed, h.length]
    exact Nat.le_add_right _ _
  e_le := by
    rw [h.length]
    exact h.bound
  full hfull := (h.line_eq_nil.mpr (h.full (h.full_iff.mp hfull))).symm

/-- Every run of the consoles with mapped buffers is a run of the reference
editors with the same calls, results and delivered bytes.  The reference
delivers its stream without the ends of file, each of which makes one read
return 0, and reads stop at line breaks and ends of file. -/
theorem line_discipline {s₀ : State ι} (hinit : s₀.Init) (hmapped : ∀ a ∈ as, a.Mapped)
    (hrun : (consoles ι).run s₀ as = some s) :
    (∃ d, (reference ι).run Desk.empty as = some d ∧ d.call = s.call ∧
      d.delivered = s.delivered ∧ d.returned = s.returned ∧ Served d ∧
      ∀ p killed vc dst target n got v d', (reference ι).step d (.run p killed) = some d' →
        d'.returned = d.returned ++ [⟨p, .read vc dst target n got, v⟩] → v ≠ -1 →
        Stops d d' vc n got) ∧
    ∀ vc, Indices (s.vcons vc) := by
  obtain ⟨d, hd, hsim⟩ := sim_of_run hinit hmapped hrun
  have hserved : Served d := (reference ι).run_invariant
    (fun _ _ _ hu hstep => hu.step hstep) served_empty hd
  refine ⟨⟨d, hd, hsim.call, hsim.delivered, hsim.returned, hserved, ?_⟩,
    fun vc => (hsim.shows vc).indices⟩
  intro p killed vc dst target n got v d' hstep hret hv
  exact hserved.stops hstep hret hv

end Runs

/-- The state after `consoleinit`, with one process. -/
def idle : State Unit where
  vcons _ := ⟨fun _ => 0, 0, 0, 0⟩
  active := 0
  consa := 0
  moving := 0
  uart := []
  call _ := none
  delivered _ := []
  returned := []

theorem idle_init : idle.Init :=
  ⟨fun _ => ⟨rfl, rfl, rfl⟩, rfl, rfl, rfl, fun _ => rfl, fun _ => rfl, rfl⟩

/-- A line with a mistake is typed, and read with two calls. -/
def typeAndRead : List (Act Unit) :=
  [.intr 97, .intr 120, .intr (C 'H'), .intr 98, .cread () 0 (fun _ => true) 2, .run () false,
    .intr carriageReturn, .run () false, .cread () 0 (fun _ => true) 5, .run () false]

/-- The two reads deliver the line that the reference has. -/
theorem line_of_typeAndRead : ∃ s d, (consoles Unit).run idle typeAndRead = some s ∧
    (reference Unit).run Desk.empty typeAndRead = some d ∧
    s.delivered 0 = [97, 98, newline] ∧ d.delivered = s.delivered := by
  have hsome : ((consoles Unit).run idle typeAndRead).isSome = true := by decide +kernel
  obtain ⟨s, hs⟩ := isSome_iff_exists.mp hsome
  have hread : ((consoles Unit).run idle typeAndRead).map (fun s => s.delivered 0) =
      some [97, 98, newline] := by decide +kernel
  have hmapped : ∀ a ∈ typeAndRead, a.Mapped := by simp [typeAndRead, Act.Mapped]
  rw [hs] at hread
  obtain ⟨⟨d, hd, -, hdel, -⟩, -⟩ := line_discipline idle_init hmapped hs
  exact ⟨s, d, hs, hd, Option.some.inj hread, hdel⟩

end SummerOsk.Console
