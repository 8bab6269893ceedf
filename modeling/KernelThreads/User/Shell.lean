import KernelThreads.Lib.Program
import Mathlib.Data.BitVec

namespace KernelThreads.Shell

open Lib

/-! The parser of `sh.c`.  A pointer into the line is an offset; the parsing functions
share the cursor `*ps`, which is their state. -/

abbrev Byte := BitVec 8

abbrev MAXARGS : Nat := 10

structure CString where
  bytes : List Byte
  nonzero : ∀ b ∈ bytes, b ≠ 0

def whitespace : List Byte := [32, 9, 13, 10, 11]

def symbols : List Byte := [60, 124, 62, 38, 59, 40, 41]

def isSpace (c : Byte) : Bool := c ∈ whitespace

def inWord (c : Byte) : Bool := c ∉ whitespace ∧ c ∉ symbols

namespace CString

variable (s : CString)

def length : Nat := s.bytes.length

/-- The character at an offset; at the end there is a NUL. -/
def char (i : Nat) : Byte := s.bytes.getD i 0

def skip (test : Byte → Bool) (i : Nat) : Nat :=
  i + ((s.bytes.drop i).takeWhile test).length

end CString

/-- What `gettoken` returns; `append` is `>>`. -/
inductive Tok where
  | eof | bar | lparen | rparen | semi | amp | lt | gt | append | word
  deriving DecidableEq, Repr

/-- The pointers `q` and `eq` to the start and the end of a word. -/
structure Arg where
  q : Nat
  eq : Nat
  deriving DecidableEq, Repr

structure Token where
  tok : Tok
  arg : Arg
  deriving DecidableEq, Repr

/-- The panics of the parser, and two ways to fail without one. -/
inductive ShellStop where
  | syntaxError | missingFile | parseblock | missingParen | tooManyArgs | leftovers
  | outOfBounds | outOfFuel
  deriving DecidableEq, Repr

abbrev Parser := Program ShellStop Nat

structure Redir where
  file : Arg
  mode : Nat
  fd : Nat
  deriving DecidableEq, Repr

abbrev Argv := Fin MAXARGS → Option Arg

inductive Cmd where
  | exec (argv : Argv)
  | redir (cmd : Cmd) (redir : Redir)
  | pipe (left right : Cmd)
  | list (left right : Cmd)
  | back (cmd : Cmd)
  deriving DecidableEq

section Parse

variable (s : CString)

/-- The `switch` of `gettoken`, at the first character of a token. -/
def scan (q : Nat) : Tok × Nat :=
  let c := s.char q
  if c = 0 then (.eof, q)
  else if c = 124 then (.bar, q + 1)
  else if c = 40 then (.lparen, q + 1)
  else if c = 41 then (.rparen, q + 1)
  else if c = 59 then (.semi, q + 1)
  else if c = 38 then (.amp, q + 1)
  else if c = 60 then (.lt, q + 1)
  else if c = 62 then if s.char (q + 1) = 62 then (.append, q + 2) else (.gt, q + 1)
  else (.word, s.skip inWord q)

def nextToken (i : Nat) : Token × Nat :=
  let q := s.skip isSpace i
  let (tok, eq) := scan s q
  (⟨tok, q, eq⟩, s.skip isSpace eq)

def gettoken : Parser Token := do
  let (token, i) := nextToken s (← get)
  set i
  return token

def peek (toks : List Byte) : Parser Bool := do
  let i := s.skip isSpace (← get)
  set i
  return s.char i ≠ 0 ∧ s.char i ∈ toks

def O_RDONLY : Nat := 0
def O_WRONLY : Nat := 1
def O_CREATE : Nat := 0x200

/-- The `switch` of `parseredirs`.  Redirections are kept in the order in which they
are wrapped around the command. -/
def addRedir (redirs : List Redir) (tok : Tok) (file : Arg) : List Redir :=
  match tok with
  | .lt => redirs ++ [⟨file, O_RDONLY, 0⟩]
  | .gt => redirs ++ [⟨file, O_WRONLY ||| O_CREATE, 1⟩]
  | .append => redirs ++ [⟨file, O_WRONLY ||| O_CREATE, 1⟩]
  | _ => redirs

def wrap (cmd : Cmd) (redirs : List Redir) : Cmd := redirs.foldl .redir cmd

def parseredirs : Nat → List Redir → Parser (List Redir)
  | 0, _ => throw .outOfFuel
  | turns + 1, redirs => do
      if ← peek s [60, 62] then
        let token ← gettoken s
        let file ← gettoken s
        if file.tok = .word then
          parseredirs turns (addRedir redirs token.tok file.arg)
        else throw .missingFile
      else return redirs

def setArg (argv : Argv) (argc : Nat) (arg : Option Arg) : Parser Argv :=
  if h : argc < MAXARGS then return Function.update argv ⟨argc, h⟩ arg
  else throw .outOfBounds

/-- The loop of `parseexec`.  The command is filled in while redirections are already
wrapped around it. -/
def parseargs : Nat → Argv → Nat → List Redir → Parser Cmd
  | 0, _, _, _ => throw .outOfFuel
  | turns + 1, argv, argc, redirs => do
      if ← peek s [124, 41, 38, 59] then
        return wrap (.exec (← setArg argv argc none)) redirs
      else
        let token ← gettoken s
        if token.tok = .eof then
          return wrap (.exec (← setArg argv argc none)) redirs
        else if token.tok = .word then
          let argv ← setArg argv argc (some token.arg)
          if MAXARGS ≤ argc + 1 then throw .tooManyArgs
          else
            let redirs ← parseredirs s (s.length + 1) redirs
            parseargs turns argv (argc + 1) redirs
        else throw .syntaxError

def parsebacks : Nat → Cmd → Parser Cmd
  | 0, _ => throw .outOfFuel
  | turns + 1, cmd => do
      if ← peek s [38] then
        let _ ← gettoken s
        parsebacks turns (.back cmd)
      else return cmd

mutual

def parseline : Nat → Parser Cmd
  | 0 => throw .outOfFuel
  | fuel + 1 => do
      let cmd ← parsepipe fuel
      let cmd ← parsebacks s (s.length + 1) cmd
      if ← peek s [59] then
        let _ ← gettoken s
        return .list cmd (← parseline fuel)
      else return cmd

def parsepipe : Nat → Parser Cmd
  | 0 => throw .outOfFuel
  | fuel + 1 => do
      let cmd ← parseexec fuel
      if ← peek s [124] then
        let _ ← gettoken s
        return .pipe cmd (← parsepipe fuel)
      else return cmd

def parseexec : Nat → Parser Cmd
  | 0 => throw .outOfFuel
  | fuel + 1 => do
      if ← peek s [40] then parseblock fuel
      else
        let redirs ← parseredirs s (s.length + 1) []
        parseargs s (s.length + 1) (fun _ => none) 0 redirs

def parseblock : Nat → Parser Cmd
  | 0 => throw .outOfFuel
  | fuel + 1 => do
      if ← peek s [40] then
        let _ ← gettoken s
        let cmd ← parseline fuel
        if ← peek s [41] then
          let _ ← gettoken s
          return wrap cmd (← parseredirs s (s.length + 1) [])
        else throw .missingParen
      else throw .parseblock

end

/-- The loop of `nulterminate` over `argv`, up to its null pointer. -/
def endArgs : List (Option Arg) → List Byte → List Byte
  | some arg :: rest, line => endArgs rest (line.set arg.eq 0)
  | _, line => line

def nulterminate : Cmd → List Byte → List Byte
  | .exec argv, line => endArgs ((List.finRange MAXARGS).map argv) line
  | .redir cmd redir, line => (nulterminate cmd line).set redir.file.eq 0
  | .pipe left right, line => nulterminate right (nulterminate left line)
  | .list left right, line => nulterminate right (nulterminate left line)
  | .back cmd, line => nulterminate cmd line

/-- `parsecmd`: the command, and the line that its pointers point into. -/
def parsecmd : Except ShellStop (Cmd × List Byte) := do
  let (cmd, i) ← parseline s (4 * s.length + 4) 0
  let (_, i) ← peek s [] i
  if i = s.length then
    return (cmd, nulterminate cmd (s.bytes ++ [0]))
  else throw .leftovers

end Parse

end KernelThreads.Shell
