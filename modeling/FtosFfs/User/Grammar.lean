import FtosFfs.User.Sh

/-! The grammar of the shell's command lines: the tokens of a line, derivations, and the trees that
belong to them. -/

namespace FtosFfs.User.Sh

/-- The tokens: a symbol, `>>`, and a word. -/
inductive Token
  | sym (c : UInt8)
  | append
  | word (w : List UInt8)
  deriving DecidableEq

/-- The tokens of a text, with words as long as possible and whitespace between tokens left out. -/
def tokens : List UInt8 → List Token
  | [] => []
  | c :: cs =>
    if isWhite c then tokens cs
    else if c = greater then
      if cs.head? = some greater then .append :: tokens cs.tail else .sym greater :: tokens cs
    else if symbols.contains c then .sym c :: tokens cs
    else .word (c :: cs.takeWhile isWord) :: tokens (cs.dropWhile isWord)
termination_by text => text.length
decreasing_by
  all_goals simp only [List.length_cons, List.length_tail]
  · omega
  · omega
  · omega
  · omega
  · exact Nat.lt_succ_of_le (List.dropWhile_sublist _).length_le

/-- The trees of command lines, with strings. -/
inductive Tree
  | exec (args : List (List UInt8))
  | redir (cmd : Tree) (file : List UInt8) (mode : Mode) (fd : Nat)
  | pipe (left right : Tree)
  | list (left right : Tree)
  | back (cmd : Tree)
  deriving DecidableEq

/-- The redirections of the grammar, with the words that name their files. -/
inductive RedirTo
  | input (file : List UInt8)
  | output (file : List UInt8)
  | append (file : List UInt8)
  deriving DecidableEq

namespace RedirTo

/-- `redir ::= ('<' | '>' | '>>') word`. -/
def tokens : RedirTo → List Token
  | input file => [.sym less, .word file]
  | output file => [.sym greater, .word file]
  | append file => [.append, .word file]

def apply (cmd : Tree) : RedirTo → Tree
  | input file => .redir cmd file .rdonly 0
  | output file => .redir cmd file .wronlyCreat 1
  | append file => .redir cmd file .wronlyCreat 1

end RedirTo

/-- A command with redirections, the last one outermost. -/
def Tree.redirs (cmd : Tree) (rs : List RedirTo) : Tree := rs.foldl RedirTo.apply cmd

/-- A command sent to the background `n` times. -/
def Tree.backs (cmd : Tree) : Nat → Tree
  | 0 => cmd
  | n + 1 => .back (cmd.backs n)

mutual

/-- `line ::= pipe '&'* (';' line)?`. -/
inductive Line : List Token → Tree → Prop
  | last {ts : List Token} {t : Tree} (n : Nat) : Pipe ts t →
      Line (ts ++ List.replicate n (.sym ampersand)) (t.backs n)
  | seq {ts us : List Token} {t u : Tree} (n : Nat) : Pipe ts t → Line us u →
      Line (ts ++ (List.replicate n (.sym ampersand) ++ .sym semicolon :: us)) (.list (t.backs n) u)

/-- `pipe ::= exec ('|' pipe)?`. -/
inductive Pipe : List Token → Tree → Prop
  | last {ts : List Token} {t : Tree} : Simple ts t → Pipe ts t
  | pipe {ts us : List Token} {t u : Tree} : Simple ts t → Pipe us u →
      Pipe (ts ++ .sym bar :: us) (.pipe t u)

/-- `exec ::= '(' line ')' redir* | redir* (word redir*)*`, with fewer than `MAXARGS` words. -/
inductive Simple : List Token → Tree → Prop
  | block {ts : List Token} {t : Tree} (rs : List RedirTo) : Line ts t →
      Simple (.sym leftParen :: (ts ++ .sym rightParen :: rs.flatMap RedirTo.tokens)) (t.redirs rs)
  | exec (rs : List RedirTo) (args : List (List UInt8 × List RedirTo)) : args.length < maxArgs →
      Simple (rs.flatMap RedirTo.tokens ++
          args.flatMap fun arg => .word arg.1 :: arg.2.flatMap RedirTo.tokens)
        ((Tree.exec (args.map Prod.fst)).redirs (rs ++ args.flatMap Prod.snd))

end

/-- The tree of a command, with the strings that its offsets point to in a buffer. -/
def Cmd.read (buf : List UInt8) : Cmd → Tree
  | .exec argv => .exec (argv.map fun arg => cstring buf arg.1)
  | .redir cmd file _ mode fd => .redir (cmd.read buf) (cstring buf file) mode fd
  | .pipe left right => .pipe (left.read buf) (right.read buf)
  | .list left right => .list (left.read buf) (right.read buf)
  | .back cmd => .back (cmd.read buf)

end FtosFfs.User.Sh
