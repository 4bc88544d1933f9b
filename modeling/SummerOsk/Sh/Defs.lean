import SummerOsk.Lib.Wp
import Mathlib.Logic.Function.Basic

/-!
# The parser of the shell

`user/sh.c` from `gettoken` to `nulterminate`.  A line is its bytes before the
NUL.  Pointers into it are offsets from its start, and `*ps` is the state of the
parser.  The functions that call each other take a bound on the depth of the
calls, as do the loops; a call that reaches the bound is `stuck`, and a use of
`argv` or `eargv` outside the arrays is a `fault`.

`malloc` is taken to succeed.  What `parsecmd` prints about leftovers before it
panics is left out.
-/

namespace SummerOsk.Sh

open Lib Function

/-! ## Lines and commands -/

def MAXARGS : Nat := 10

def O_RDONLY : Nat := 0x000
def O_WRONLY : Nat := 0x001
def O_CREATE : Nat := 0x200

def charsOf (t : String) : List UInt8 := t.toList.map Char.toUInt8

def whitespace : List UInt8 := charsOf " \t\r\n\x0b"
def symbols : List UInt8 := charsOf "<|>&;()"

/-- A NUL-terminated line. -/
structure Line where
  bytes : List UInt8
  nonzero : 0 ∉ bytes

/-- The end of the line, where the NUL is. -/
def Line.es (l : Line) : Nat := l.bytes.length

/-- The character at an offset. -/
def Line.at (l : Line) (s : Nat) : UInt8 := l.bytes.getD s 0

/-- The arrays `argv` and `eargv` of a `struct execcmd`. -/
abbrev Args : Type := Vector (Option Nat) MAXARGS

/-- `struct cmd`, by its type. -/
inductive Cmd where
  | exec (argv eargv : Args)
  | redir (cmd : Cmd) (file efile mode fd : Nat)
  | pipe (left right : Cmd)
  | list (left right : Cmd)
  | back (cmd : Cmd)
  deriving DecidableEq, Repr

/-- The fields of a redirection besides the command. -/
structure Redir where
  file : Nat
  efile : Nat
  mode : Nat
  fd : Nat
  deriving DecidableEq, Repr

/-- `redircmd`. -/
def redircmd (cmd : Cmd) (r : Redir) : Cmd := .redir cmd r.file r.efile r.mode r.fd

/-- Why the parser does not return. -/
inductive Exit where
  | panic (msg : String)
  | fault
  | stuck
  deriving DecidableEq, Repr

abbrev ShM (α : Type) : Type := Prog Exit Nat α

def panic {α : Type} (msg : String) : ShM α := throw (.panic msg)

/-! ## Tokens -/

/-- `while(s < es && p(*s)) s++;` -/
def Line.skip (l : Line) (p : UInt8 → Bool) (s : Nat) : Nat :=
  s + ((l.bytes.drop s).takeWhile p).length

def isSpace (c : UInt8) : Bool := whitespace.contains c

/-- Neither whitespace nor a symbol. -/
def isWord (c : UInt8) : Bool := !whitespace.contains c && !symbols.contains c

variable (l : Line)

/-- `gettoken`, with `*q` and `*eq`. -/
def gettoken : ShM (UInt8 × Nat × Nat) := do
  let q := l.skip isSpace (← get)
  let c := l.at q
  let (ret, eq) :=
    if c = 0 then (c, q)
    else if c = '>'.toUInt8 then
      if l.at (q + 1) = '>'.toUInt8 then ('+'.toUInt8, q + 2) else (c, q + 1)
    -- the other cases of the switch are the other symbols
    else if symbols.contains c then (c, q + 1)
    else ('a'.toUInt8, l.skip isWord q)
  set (l.skip isSpace eq)
  return (ret, q, eq)

/-- `peek`. -/
def peek (toks : List UInt8) : ShM Bool := do
  let s := l.skip isSpace (← get)
  set s
  return l.at s != 0 && toks.contains (l.at s)

/-! ## Commands -/

/-- The redirection that `parseredirs` adds for the token `tok`. -/
def redirection (tok : UInt8) (q eq : Nat) : List Redir :=
  if tok = '<'.toUInt8 then [⟨q, eq, O_RDONLY, 0⟩]
  else if tok = '>'.toUInt8 then [⟨q, eq, O_WRONLY ||| O_CREATE, 1⟩]
  else if tok = '+'.toUInt8 then [⟨q, eq, O_WRONLY ||| O_CREATE, 1⟩]
  else []

/-- `parseredirs`.  The command is given by the redirections around it, of which
the last is the outermost, since `parseexec` fills the command in place
afterwards. -/
def parseredirs (rs : List Redir) : Nat → ShM (List Redir)
  | 0 => throw .stuck
  | k + 1 => do
    if ← peek l (charsOf "<>") then
      let (tok, _) ← gettoken l
      let (word, q, eq) ← gettoken l
      if word ≠ 'a'.toUInt8 then panic "missing file for redirection"
      else parseredirs (rs ++ redirection tok q eq) k
    else return rs

/-- `a[i] = v;` -/
def store (a : Args) (i : Nat) (v : Option Nat) : ShM Args :=
  if h : i < MAXARGS then return a.set i v h else throw .fault

/-- The end of `parseexec`. -/
def endexec (argv eargv : Args) (argc : Nat) (rs : List Redir) : ShM Cmd := do
  let argv ← store argv argc none
  let eargv ← store eargv argc none
  return rs.foldl redircmd (.exec argv eargv)

/-- The loop of `parseexec`. -/
def parseargs (argv eargv : Args) (argc : Nat) (rs : List Redir) : Nat → ShM Cmd
  | 0 => throw .stuck
  | k + 1 => do
    if ← peek l (charsOf "|)&;") then endexec argv eargv argc rs
    else
      let (tok, q, eq) ← gettoken l
      if tok = 0 then endexec argv eargv argc rs
      else if tok ≠ 'a'.toUInt8 then panic "syntax"
      else
        let argv ← store argv argc (some q)
        let eargv ← store eargv argc (some eq)
        if argc + 1 ≥ MAXARGS then panic "too many args"
        else
          let rs ← parseredirs l rs k
          parseargs argv eargv (argc + 1) rs k

/-- The loop of `parseline`. -/
def parseback (cmd : Cmd) : Nat → ShM Cmd
  | 0 => throw .stuck
  | k + 1 => do
    if ← peek l (charsOf "&") then
      let _ ← gettoken l
      parseback (.back cmd) k
    else return cmd

mutual

/-- `parseline`. -/
def parseline : Nat → ShM Cmd
  | 0 => throw .stuck
  | k + 1 => do
    let cmd ← parsepipe k
    let cmd ← parseback l cmd k
    if ← peek l (charsOf ";") then
      let _ ← gettoken l
      let right ← parseline k
      return .list cmd right
    else return cmd

/-- `parsepipe`. -/
def parsepipe : Nat → ShM Cmd
  | 0 => throw .stuck
  | k + 1 => do
    let cmd ← parseexec k
    if ← peek l (charsOf "|") then
      let _ ← gettoken l
      let right ← parsepipe k
      return .pipe cmd right
    else return cmd

/-- `parseblock`. -/
def parseblock : Nat → ShM Cmd
  | 0 => throw .stuck
  | k + 1 => do
    if ← peek l (charsOf "(") then
      let _ ← gettoken l
      let cmd ← parseline k
      if ← peek l (charsOf ")") then
        let _ ← gettoken l
        let rs ← parseredirs l [] k
        return rs.foldl redircmd cmd
      else panic "syntax - missing )"
    else panic "parseblock"

/-- `parseexec`. -/
def parseexec : Nat → ShM Cmd
  | 0 => throw .stuck
  | k + 1 => do
    if ← peek l (charsOf "(") then parseblock k
    else
      let rs ← parseredirs l [] k
      parseargs l (Vector.replicate MAXARGS none) (Vector.replicate MAXARGS none) 0 rs k

end

/-! ## Termination of the strings -/

/-- The loop of `nulterminate` over the arrays of a `struct execcmd`. -/
def nulargs (buf : Nat → UInt8) : List (Option Nat × Option Nat) → Except Exit (Nat → UInt8)
  | [] => throw .fault
  | (none, _) :: _ => pure buf
  | (some _, none) :: _ => throw .fault
  | (some _, some e) :: rest => nulargs (update buf e 0) rest

/-- `nulterminate`. -/
def nulterminate (buf : Nat → UInt8) : Cmd → Except Exit (Nat → UInt8)
  | .exec argv eargv => nulargs buf (argv.toList.zip eargv.toList)
  | .redir cmd _ efile _ _ => do return update (← nulterminate buf cmd) efile 0
  | .pipe left right => do nulterminate (← nulterminate buf left) right
  | .list left right => do nulterminate (← nulterminate buf left) right
  | .back cmd => nulterminate buf cmd

/-- `parsecmd` up to `nulterminate`. -/
def parsewhole : ShM Cmd := do
  let cmd ← parseline l (4 * l.es + 4)
  let _ ← peek l []
  if (← get) ≠ l.es then panic "syntax" else return cmd

/-- `parsecmd`, with the contents of the line afterwards. -/
def parsecmd : Except Exit (Cmd × (Nat → UInt8)) := do
  let (cmd, _) ← parsewhole l 0
  let buf ← nulterminate l.at cmd
  return (cmd, buf)

end SummerOsk.Sh
