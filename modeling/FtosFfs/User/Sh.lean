import FtosFfs.Lib.Exec

/-! The parser of the shell, `user/sh/main.c`.  A pointer into the line is its offset, the commands
hold offsets, and the memory of `malloc1` is taken to be enough. -/

namespace FtosFfs.User.Sh

open Lib

/-- `" \t\r\n\v"`. -/
def whitespace : List UInt8 := [32, 9, 13, 10, 11]

/-- `"<|>&;()"`. -/
def symbols : List UInt8 := [60, 124, 62, 38, 59, 40, 41]

def less : UInt8 := 60
def bar : UInt8 := 124
def greater : UInt8 := 62
def ampersand : UInt8 := 38
def semicolon : UInt8 := 59
def leftParen : UInt8 := 40
def rightParen : UInt8 := 41

/-- `'+'`, the token `>>`. -/
def plus : UInt8 := 43

/-- `'a'`, a word. -/
def letterA : UInt8 := 97

/-- `MAXARGS`. -/
def maxArgs : Nat := 10

/-- The modes with which the shell opens files. -/
inductive Mode
  /-- `O_RDONLY`. -/
  | rdonly
  /-- `O_WRONLY | O_CREAT`. -/
  | wronlyCreat
  deriving DecidableEq

/-- The commands; a string is given by the offsets of its start and its end. -/
inductive Cmd
  | exec (argv : List (Nat × Nat))
  | redir (cmd : Cmd) (file efile : Nat) (mode : Mode) (fd : Nat)
  | pipe (left right : Cmd)
  | list (left right : Cmd)
  | back (cmd : Cmd)
  deriving DecidableEq

/-- Why the parser does not return: `PANIC`, or more rounds and calls than it is given. -/
inductive Stop
  | panic
  | endless
  deriving DecidableEq

/-- The routines of the parser, which share the cursor `*ps`. -/
abbrev Parser : Type → Type := Exec Stop Nat

abbrev require (c : Prop) [Decidable c] : Parser Unit := Exec.require .panic c

section

variable (line : List UInt8)

/-- `*s`, with the NUL at the end of the line. -/
def charAt (s : Nat) : UInt8 := line.getD s 0

/-- `while (s < es && p(*s)) s++`. -/
def skip (p : UInt8 → Bool) (s : Nat) : Nat := s + ((line.drop s).takeWhile p).length

def isWhite (c : UInt8) : Bool := whitespace.contains c

/-- The characters of words. -/
def isWord (c : UInt8) : Bool := !whitespace.contains c && !symbols.contains c

/-- The token at `s`, which is no whitespace, and its end. -/
def tokenAt (s : Nat) : UInt8 × Nat :=
  let c := charAt line s
  if c = 0 then (0, s)
  else if c = bar ∨ c = leftParen ∨ c = rightParen ∨ c = semicolon ∨ c = ampersand ∨ c = less then
    (c, s + 1)
  else if c = greater then
    if charAt line (s + 1) = greater then (plus, s + 2) else (greater, s + 1)
  else (letterA, skip line isWord s)

/-- `gettoken`: the token and the offsets `*q` and `*eq`. -/
def gettoken : Parser (UInt8 × Nat × Nat) := do
  let s := skip line isWhite (← get)
  let (ret, e) := tokenAt line s
  set (skip line isWhite e)
  pure (ret, s, e)

def peek (toks : List UInt8) : Parser Bool := do
  let s := skip line isWhite (← get)
  set s
  pure (charAt line s ≠ 0 ∧ charAt line s ∈ toks)

/-- The arguments of `redircmd` after the command. -/
structure Redir where
  file : Nat
  efile : Nat
  mode : Mode
  fd : Nat
  deriving DecidableEq

/-- The redirection of token `tok`. -/
def redirOf (tok : UInt8) (q eq : Nat) : Redir :=
  if tok = less then ⟨q, eq, .rdonly, 0⟩ else ⟨q, eq, .wronlyCreat, 1⟩

/-- A command with redirections, the last one outermost. -/
def redircmds (cmd : Cmd) (rs : List Redir) : Cmd :=
  rs.foldl (fun cmd r => .redir cmd r.file r.efile r.mode r.fd) cmd

/-- The redirections that `parseredirs` puts around its command. -/
def parseredirs : Nat → Parser (List Redir)
  | 0 => throw .endless
  | n + 1 => do
    if ← peek line [less, greater] then
      let (tok, _, _) ← gettoken line
      let (word, q, eq) ← gettoken line
      require (word = letterA)
      let rs ← parseredirs n
      pure (redirOf tok q eq :: rs)
    else pure []

/-- The loop of `parseexec` with `argc` arguments so far: the arguments, which go to the `execcmd`
under the redirections, and the redirections between them. -/
def parseargs : Nat → Nat → Parser (List (Nat × Nat) × List Redir)
  | 0, _ => throw .endless
  | n + 1, argc => do
    if ← peek line [bar, rightParen, ampersand, semicolon] then pure ([], [])
    else
      let (tok, q, eq) ← gettoken line
      if tok = 0 then pure ([], [])
      else
        require (tok = letterA)
        require (¬argc + 1 ≥ maxArgs)
        let rs ← parseredirs line n
        let (args, rs') ← parseargs n (argc + 1)
        pure ((q, eq) :: args, rs ++ rs')

/-- The loop of `parseline` over `&`. -/
def parseback : Nat → Cmd → Parser Cmd
  | 0, _ => throw .endless
  | n + 1, cmd => do
    if ← peek line [ampersand] then
      let _ ← gettoken line
      parseback n (.back cmd)
    else pure cmd

mutual

def parseline : Nat → Parser Cmd
  | 0 => throw .endless
  | n + 1 => do
    let cmd ← parsepipe n
    let cmd ← parseback line n cmd
    if ← peek line [semicolon] then
      let _ ← gettoken line
      let right ← parseline n
      pure (.list cmd right)
    else pure cmd

def parsepipe : Nat → Parser Cmd
  | 0 => throw .endless
  | n + 1 => do
    let cmd ← parseexec n
    if ← peek line [bar] then
      let _ ← gettoken line
      let right ← parsepipe n
      pure (.pipe cmd right)
    else pure cmd

def parseexec : Nat → Parser Cmd
  | 0 => throw .endless
  | n + 1 => do
    if ← peek line [leftParen] then parseblock n
    else
      let rs ← parseredirs line n
      let (args, rs') ← parseargs line n 0
      pure (redircmds (.exec args) (rs ++ rs'))

def parseblock : Nat → Parser Cmd
  | 0 => throw .endless
  | n + 1 => do
    let opens ← peek line [leftParen]
    require (opens = true)
    let _ ← gettoken line
    let cmd ← parseline n
    let closes ← peek line [rightParen]
    require (closes = true)
    let _ ← gettoken line
    let rs ← parseredirs line n
    pure (redircmds cmd rs)

end

end

/-- `nulterminate`: the buffer after the stores of NUL at the ends of the strings. -/
def nulterminate : Cmd → List UInt8 → List UInt8
  | .exec argv, buf => argv.foldl (fun buf arg => buf.set arg.2 0) buf
  | .redir cmd _ efile _ _, buf => (nulterminate cmd buf).set efile 0
  | .pipe left right, buf => nulterminate right (nulterminate left buf)
  | .list left right, buf => nulterminate right (nulterminate left buf)
  | .back cmd, buf => nulterminate cmd buf

/-- `parsecmd` of the string `line`, given `fuel` rounds and calls: the command, and the buffer that
its offsets point into. -/
def parsecmd (fuel : Nat) (line : List UInt8) : Except Stop (Cmd × List UInt8) := do
  let (cmd, s) ← parseline line fuel 0
  if skip line isWhite s ≠ line.length then .error .panic
  else .ok (cmd, nulterminate cmd (line ++ [0]))

/-- The string at offset `q` of a buffer. -/
def cstring (buf : List UInt8) (q : Nat) : List UInt8 := (buf.drop q).takeWhile (· ≠ 0)

end FtosFfs.User.Sh
