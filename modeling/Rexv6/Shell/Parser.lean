import Mathlib.Logic.Function.Basic

/-!
Contract: the command parser of `bin/sh/sh.c`.

Owns: `gettoken`, `peek`, the parse functions and `nulterminate`. A pointer into the line
is what is left of the line behind it, so the pointer `es` is the empty list and a
pointer's place in the buffer is its distance from `es`. The mutually recursive functions
and their loops take fuel; `Stop.runsOn` is a run that has used it up.

Does not own: `runcmd`, and the memory that `malloc` hands out for the nodes.
-/

namespace Rexv6.Shell

/-- A pointer into the line that is being parsed. -/
abbrev Pointer := List Char

def nul : Char := Char.ofNat 0

def whitespace : List Char := [' ', '\t', '\r', '\n', Char.ofNat 11]

def symbols : List Char := ['<', '|', '>', '&', ';', '(', ')']

/-- The character a pointer points at; the terminating zero is at `es`. -/
def deref (s : Pointer) : Char := s.headD nul

/-- A character that the last loop of `gettoken` keeps in a word. -/
def wordChar (c : Char) : Bool := !whitespace.contains c && !symbols.contains c

/-- The loop over white space. -/
def skip (s : Pointer) : Pointer := s.dropWhile whitespace.contains

/-- What `gettoken` returns, stores in `*q` and `*eq`, and leaves in `*ps`. -/
structure Fetched where
  ret : Char
  q : Pointer
  eq : Pointer
  rest : Pointer

structure Span where
  start : Pointer
  stop : Pointer

def Fetched.span (fetched : Fetched) : Span := ⟨fetched.q, fetched.eq⟩

/-- The `switch` of `gettoken`: the returned code and the end of the token. -/
def scan : Pointer → Char × Pointer
  | [] => (nul, [])
  | '>' :: '>' :: s => ('+', s)
  | c :: s =>
    if symbols.contains c then (c, s) else ('a', (c :: s).dropWhile wordChar)

def gettoken (s : Pointer) : Fetched :=
  let start := skip s
  let scanned := scan start
  { ret := scanned.1, q := start, eq := scanned.2, rest := skip scanned.2 }

/-- The result of `peek`, and the pointer it leaves in `*ps`. -/
def peek (s : Pointer) (toks : List Char) : Bool × Pointer :=
  let start := skip s
  (decide (deref start ≠ nul) && toks.contains (deref start), start)

def oRdonly : Nat := 0

/-- `O_WRONLY|O_CREATE`. -/
def oWronlyCreate : Nat := 0x201

def maxArgs : Nat := 10

/-- The nodes of a parsed command, over what its strings are given by. -/
inductive Cmd (α : Type) where
  | exec (argv : List α)
  | redir (cmd : Cmd α) (file : α) (mode fd : Nat)
  | pipe (left right : Cmd α)
  | list (left right : Cmd α)
  | back (cmd : Cmd α)
deriving DecidableEq, Repr

namespace Cmd

variable {α β : Type}

def map (f : α → β) : Cmd α → Cmd β
  | exec argv => exec (argv.map f)
  | redir cmd file mode fd => redir (cmd.map f) (f file) mode fd
  | pipe left right => pipe (left.map f) (right.map f)
  | list left right => list (left.map f) (right.map f)
  | back cmd => back (cmd.map f)

def strings : Cmd α → List α
  | exec argv => argv
  | redir cmd file _ _ => cmd.strings ++ [file]
  | pipe left right => left.strings ++ right.strings
  | list left right => left.strings ++ right.strings
  | back cmd => cmd.strings

/-- The next slot of `argv` and `eargv`, in the `EXEC` node that the redirections parsed so
far have been wrapped around. -/
def addArg (argument : α) : Cmd α → Cmd α
  | exec argv => exec (argv ++ [argument])
  | redir cmd file mode fd => redir (cmd.addArg argument) file mode fd
  | cmd => cmd

end Cmd

/-- How a parse ends without a tree: `panic`, with all it prints, or no end at all. -/
inductive Stop where
  | panics (printed : List String)
  | runsOn
deriving DecidableEq, Repr

/-- A node for the redirection whose operator has the code `tok`. -/
def redircmd (cmd : Cmd Span) (file : Span) (tok : Char) : Cmd Span :=
  if tok = '<' then .redir cmd file oRdonly 0
  else if tok = '>' then .redir cmd file oWronlyCreate 1
  else if tok = '+' then .redir cmd file oWronlyCreate 1
  else cmd

def parseredirs : Nat → Cmd Span → Pointer → Except Stop (Cmd Span × Pointer)
  | 0, _, _ => .error .runsOn
  | fuel + 1, cmd, s =>
    let peeked := peek s ['<', '>']
    if peeked.1 then
      let operator := gettoken peeked.2
      let file := gettoken operator.rest
      if file.ret ≠ 'a' then .error (.panics ["missing file for redirection"])
      else parseredirs fuel (redircmd cmd file.span operator.ret) file.rest
    else .ok (cmd, peeked.2)

/-- The loop of `parseexec`, with `argc`. -/
def parseargs : Nat → Nat → Cmd Span → Pointer → Except Stop (Cmd Span × Pointer)
  | 0, _, _, _ => .error .runsOn
  | fuel + 1, argc, ret, s =>
    let peeked := peek s ['|', ')', '&', ';']
    if peeked.1 then .ok (ret, peeked.2)
    else
      let token := gettoken peeked.2
      if token.ret = nul then .ok (ret, token.rest)
      else if token.ret ≠ 'a' then .error (.panics ["syntax"])
      else if maxArgs ≤ argc + 1 then .error (.panics ["too many args"])
      else do
        let (ret, s) ← parseredirs (token.rest.length + 1)
          (ret.addArg token.span) token.rest
        parseargs fuel (argc + 1) ret s

/-- The loop of `parseline` over the `&`s. -/
def parsebacks : Nat → Cmd Span → Pointer → Except Stop (Cmd Span × Pointer)
  | 0, _, _ => .error .runsOn
  | fuel + 1, cmd, s =>
    let peeked := peek s ['&']
    if peeked.1 then parsebacks fuel (.back cmd) (gettoken peeked.2).rest
    else .ok (cmd, peeked.2)

mutual

def parseline : Nat → Pointer → Except Stop (Cmd Span × Pointer)
  | 0, _ => .error .runsOn
  | fuel + 1, s => do
    let (cmd, s) ← parsepipe fuel s
    let (cmd, s) ← parsebacks (s.length + 1) cmd s
    let peeked := peek s [';']
    if peeked.1 then
      let (right, s) ← parseline fuel (gettoken peeked.2).rest
      return (.list cmd right, s)
    else return (cmd, peeked.2)

def parsepipe : Nat → Pointer → Except Stop (Cmd Span × Pointer)
  | 0, _ => .error .runsOn
  | fuel + 1, s => do
    let (cmd, s) ← parseexec fuel s
    let peeked := peek s ['|']
    if peeked.1 then
      let (right, s) ← parsepipe fuel (gettoken peeked.2).rest
      return (.pipe cmd right, s)
    else return (cmd, peeked.2)

def parseexec : Nat → Pointer → Except Stop (Cmd Span × Pointer)
  | 0, _ => .error .runsOn
  | fuel + 1, s =>
    let peeked := peek s ['(']
    if peeked.1 then parseblock fuel peeked.2
    else do
      let (ret, s) ← parseredirs (peeked.2.length + 1) (.exec []) peeked.2
      parseargs (s.length + 1) 0 ret s

def parseblock : Nat → Pointer → Except Stop (Cmd Span × Pointer)
  | 0, _ => .error .runsOn
  | fuel + 1, s =>
    let peeked := peek s ['(']
    if peeked.1 then do
      let (cmd, s) ← parseline fuel (gettoken peeked.2).rest
      let closing := peek s [')']
      if closing.1 then
        let s := (gettoken closing.2).rest
        parseredirs (s.length + 1) cmd s
      else .error (.panics ["syntax - missing )"])
    else .error (.panics ["parseblock"])

end

/-- The buffer with the line, by the distance from `es`. -/
abbrev Buffer := Nat → Char

/-- The buffer that `parsecmd` is called with. -/
def Buffer.ofLine (line : Pointer) : Buffer := fun distance =>
  deref (line.drop (line.length - distance))

/-- `*eq = 0`. -/
def Buffer.cut (buffer : Buffer) (span : Span) : Buffer :=
  Function.update buffer span.stop.length nul

/-- What the C string at a distance from `es` reads as. -/
def Buffer.cstr (buffer : Buffer) : Nat → List Char
  | 0 => []
  | distance + 1 =>
    if buffer (distance + 1) = nul then []
    else buffer (distance + 1) :: cstr buffer distance

def nulterminate : Cmd Span → Buffer → Buffer
  | .exec argv, buffer => argv.foldl Buffer.cut buffer
  | .redir cmd file _ _, buffer => (nulterminate cmd buffer).cut file
  | .pipe left right, buffer => nulterminate right (nulterminate left buffer)
  | .list left right, buffer => nulterminate right (nulterminate left buffer)
  | .back cmd, buffer => nulterminate cmd buffer

/-- The characters up to the terminating zero, as many as `strlen` counts. -/
def cut (line : List Char) : Pointer := line.takeWhile (· ≠ nul)

/-- The fuel that is enough for a line: four calls for each of its characters. -/
def enough (s : Pointer) : Nat := 4 * s.length + 4

/-- `parsecmd`: the tree of pointers and the buffer that holds its strings. -/
def parsecmd (line : List Char) : Except Stop (Cmd Span × Buffer) := do
  let s := cut line
  let (cmd, rest) ← parseline (enough s) s
  let rest := (peek rest []).2
  if rest ≠ [] then .error (.panics ["leftovers: " ++ String.ofList rest, "syntax"])
  else return (cmd, nulterminate cmd (Buffer.ofLine s))

/-- The tree that the caller of `parsecmd` sees: each pointer read as a C string. -/
def parsed (line : List Char) : Except Stop (Cmd (List Char)) := do
  let (cmd, buffer) ← parsecmd line
  return cmd.map fun span => buffer.cstr span.start.length

end Rexv6.Shell
