import Mathlib.Logic.Function.Basic

/-! The parser of the shell, `user/sh.c`. A command line is a list of bytes without a 0; the
cursor is an index, and the byte at the end of the list reads as 0. Memory for the commands can
always be allocated. -/
namespace Xv6.Shell
open Function

/-- Why the parser stops. The last two are not panics of the shell: a byte behind the end has
been read, or the steps given were not enough. -/
inductive Panic where
  | leftovers      -- "syntax", after "leftovers: %s\n"
  | notWord        -- "syntax"
  | missingFile    -- "missing file for redirection"
  | parseblock     -- "parseblock"
  | missingParen   -- "syntax - missing )"
  | tooManyArgs    -- "too many args"
  | wild
  | fuel
deriving DecidableEq, Repr

inductive Cmd (ω : Type) where
  | exec (argv : List ω)
  | redir (cmd : Cmd ω) (file : ω) (mode fd : Nat)
  | pipe (left right : Cmd ω)
  | list (left right : Cmd ω)
  | back (cmd : Cmd ω)
deriving DecidableEq, Repr

abbrev Span : Type := Nat × Nat

def maxargs : Nat := 10

def oRdonly : Nat := 0
def oWronly : Nat := 0x001
def oCreate : Nat := 0x200
def oTrunc : Nat := 0x400

/-- `whitespace` -/
def isSpace (c : UInt8) : Bool := [32, 9, 13, 10, 11].contains c

/-- `symbols` -/
def isSymbol (c : UInt8) : Bool := [60, 124, 62, 38, 59, 40, 41].contains c

def isWord (c : UInt8) : Bool := !isSpace c && !isSymbol c

/-- `*s` -/
def char (s : List UInt8) (i : Nat) : Except Panic UInt8 :=
  if i ≤ s.length then .ok (s.getD i 0) else .error .wild

/-- The loop `while(s < es && p(*s)) s++`. -/
def skip (p : UInt8 → Bool) (s : List UInt8) (i : Nat) : Nat := i+((s.drop i).takeWhile p).length

def scan (s : List UInt8) (q : Nat) : Except Panic (UInt8 × Nat) := do
  let c ← char s q
  if c=0 then .ok (0, q)
  else if [124, 40, 41, 59, 38, 60].contains c then .ok (c, q+1)
  else if c=62 then do
    let d ← char s (q+1)
    if d=62 then .ok (43, q+2) else .ok (62, q+1)
  else .ok (97, skip isWord s q)

def gettoken (s : List UInt8) (ps : Nat) : Except Panic (UInt8 × Span × Nat) := do
  let q := skip isSpace s ps
  let (ret, eq) ← scan s q
  .ok (ret, (q, eq), skip isSpace s eq)

def peek (s : List UInt8) (ps : Nat) (toks : List UInt8) : Except Panic (Bool × Nat) := do
  let i := skip isSpace s ps
  let c ← char s i
  .ok (c != 0 && toks.contains c, i)

def parseredirs (s : List UInt8) : Cmd Span → Nat → Nat → Except Panic (Cmd Span × Nat)
  | _, _, 0 => .error .fuel
  | cmd, ps, k+1 => do
    let (more, ps) ← peek s ps [60, 62]
    if more then do
      let (tok, _, ps) ← gettoken s ps
      let (word, w, ps) ← gettoken s ps
      if word≠97 then .error .missingFile
      else if tok=60 then parseredirs s (.redir cmd w oRdonly 0) ps k
      else if tok=62 then parseredirs s (.redir cmd w (oWronly ||| oCreate ||| oTrunc) 1) ps k
      else if tok=43 then parseredirs s (.redir cmd w (oWronly ||| oCreate) 1) ps k
      else parseredirs s cmd ps k
    else .ok (cmd, ps)

/-- One more argument for the `execcmd` under the redirections. -/
def Cmd.addArg {ω : Type} (w : ω) : Cmd ω → Cmd ω
  | .exec argv => .exec (argv++[w])
  | .redir cmd file mode fd => .redir (cmd.addArg w) file mode fd
  | .pipe left right => .pipe left right
  | .list left right => .list left right
  | .back cmd => .back cmd

def parseargs (s : List UInt8) : Cmd Span → Nat → Nat → Nat → Except Panic (Cmd Span × Nat)
  | _, _, _, 0 => .error .fuel
  | ret, argc, ps, k+1 => do
    let (stop, ps) ← peek s ps [124, 41, 38, 59]
    if stop then .ok (ret, ps)
    else do
      let (tok, w, ps) ← gettoken s ps
      if tok=0 then .ok (ret, ps)
      else if tok≠97 then .error .notWord
      else if argc+1 ≥ maxargs then .error .tooManyArgs
      else do
        let (ret, ps) ← parseredirs s (ret.addArg w) ps (s.length+1)
        parseargs s ret (argc+1) ps k

def parsebacks (s : List UInt8) : Cmd Span → Nat → Nat → Except Panic (Cmd Span × Nat)
  | _, _, 0 => .error .fuel
  | cmd, ps, k+1 => do
    let (more, ps) ← peek s ps [38]
    if more then do
      let (_, _, ps) ← gettoken s ps
      parsebacks s (.back cmd) ps k
    else .ok (cmd, ps)

mutual

def parseline (s : List UInt8) : Nat → Nat → Except Panic (Cmd Span × Nat)
  | 0, _ => .error .fuel
  | n+1, ps => do
    let (cmd, ps) ← parsepipe s n ps
    let (cmd, ps) ← parsebacks s cmd ps (s.length+1)
    let (more, ps) ← peek s ps [59]
    if more then do
      let (_, _, ps) ← gettoken s ps
      let (right, ps) ← parseline s n ps
      .ok (.list cmd right, ps)
    else .ok (cmd, ps)

def parsepipe (s : List UInt8) : Nat → Nat → Except Panic (Cmd Span × Nat)
  | 0, _ => .error .fuel
  | n+1, ps => do
    let (cmd, ps) ← parseexec s n ps
    let (more, ps) ← peek s ps [124]
    if more then do
      let (_, _, ps) ← gettoken s ps
      let (right, ps) ← parsepipe s n ps
      .ok (.pipe cmd right, ps)
    else .ok (cmd, ps)

def parseexec (s : List UInt8) : Nat → Nat → Except Panic (Cmd Span × Nat)
  | 0, _ => .error .fuel
  | n+1, ps => do
    let (block, ps) ← peek s ps [40]
    if block then parseblock s n ps
    else do
      let (ret, ps) ← parseredirs s (.exec []) ps (s.length+1)
      parseargs s ret 0 ps (s.length+1)

def parseblock (s : List UInt8) : Nat → Nat → Except Panic (Cmd Span × Nat)
  | 0, _ => .error .fuel
  | n+1, ps => do
    let (opened, ps) ← peek s ps [40]
    if !opened then .error .parseblock
    else do
      let (_, _, ps) ← gettoken s ps
      let (cmd, ps) ← parseline s n ps
      let (closed, ps) ← peek s ps [41]
      if !closed then .error .missingParen
      else do
        let (_, _, ps) ← gettoken s ps
        parseredirs s cmd ps (s.length+1)

end

/-- Memory with a 0 behind each word. -/
def nulterminate : Cmd Span → (Nat → UInt8) → Nat → UInt8
  | .exec argv, mem => argv.foldl (fun mem w => update mem w.2 0) mem
  | .redir cmd file _ _, mem => update (nulterminate cmd mem) file.2 0
  | .pipe left right, mem => nulterminate right (nulterminate left mem)
  | .list left right, mem => nulterminate right (nulterminate left mem)
  | .back cmd, mem => nulterminate cmd mem

/-- The command, and the memory of the command line. -/
def parsecmd (s : List UInt8) : Except Panic (Cmd Span × (Nat → UInt8)) := do
  let (cmd, ps) ← parseline s (4*s.length+4) 0
  let (_, ps) ← peek s ps []
  if ps≠s.length then .error .leftovers
  else .ok (cmd, nulterminate cmd fun i => s.getD i 0)

end Xv6.Shell
