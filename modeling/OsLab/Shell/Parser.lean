import OsLab.Lib.Act
import OsLab.Shell.Command

/-!
# The parser of the shell

`parsecmd` of `user/sh.c` with everything below it.  A `char *` into the input is the rest of the
input from there on, so that `s < es` says that the rest is not empty and `*s` is its head.
Allocation of the nodes always succeeds.
-/

namespace OsLab.Shell

open Act

/-- A pointer into the input: what is left of it from there on. -/
abbrev Ptr := List Char

/-- The beginning and the end of a token: `q` and `eq`. -/
structure Span where
  q : Ptr
  eq : Ptr
deriving DecidableEq, Repr

/-- How parsing may stop: by `panic`, or for want of fuel of the model. -/
inductive Stop where
  | panic (message : String)
  | fuel
deriving DecidableEq, Repr

/-- Code that advances `*ps`. -/
abbrev Parse := Act Ptr Stop

def whitespace : List Char := [' ', '\t', '\r', '\n', '\x0b']

def symbols : List Char := ['<', '|', '>', '&', ';', '(', ')']

/-- A character of a word. -/
def ordinary (c : Char) : Bool := c ∉ whitespace && c ∉ symbols

/-- `while (s < es && strchr(whitespace, *s)) s++;` -/
def skip (s : Ptr) : Ptr := s.dropWhile (· ∈ whitespace)

/-- The `switch` of `gettoken`: the kind of the token at `s` and its end. -/
def scan : Ptr → Char × Ptr
  | [] => ('\x00', [])
  | c :: s =>
    if c ∈ ['|', '(', ')', ';', '&', '<'] then (c, s)
    else if c = '>' then if s.head? = some '>' then ('+', s.tail) else ('>', s)
    else ('a', (c :: s).dropWhile ordinary)

def gettoken : Parse (Char × Span) := do
  let q := skip (← get)
  let (ret, eq) := scan q
  set (skip eq)
  return (ret, ⟨q, eq⟩)

def peek (toks : List Char) : Parse Bool := do
  modify skip
  match ← get with
  | [] => return false
  | c :: _ => return c ∈ toks

def maxargs : Nat := 10

def oRdonly : Nat := 0x000

def oWronly : Nat := 0x001

def oCreate : Nat := 0x200

def oTrunc : Nat := 0x400

/-- Store an argument in the `execcmd` that the redirections around it have been put. -/
def Cmd.addArg {S : Type} (arg : S) : Cmd S → Cmd S
  | .exec argv => .exec (argv ++ [arg])
  | .redir cmd file mode fd => .redir (cmd.addArg arg) file mode fd
  | cmd => cmd

def parseredirs : Nat → Cmd Span → Parse (Cmd Span)
  | 0, _ => throw .fuel
  | fuel + 1, cmd => do
    if ← peek ['<', '>'] then
      let (tok, _) ← gettoken
      let (kind, file) ← gettoken
      if kind ≠ 'a' then throw (.panic "missing file for redirection")
      else
        match tok with
        | '<' => parseredirs fuel (.redir cmd file oRdonly 0)
        | '>' => parseredirs fuel (.redir cmd file (oWronly ||| oCreate ||| oTrunc) 1)
        | '+' => parseredirs fuel (.redir cmd file (oWronly ||| oCreate) 1)
        | _ => parseredirs fuel cmd
    else return cmd

/-- The loop of `parseexec`. -/
def parseargs : Nat → Nat → Cmd Span → Parse (Cmd Span)
  | 0, _, _ => throw .fuel
  | fuel + 1, argc, ret => do
    if ← peek ['|', ')', '&', ';'] then return ret
    else
      let (tok, arg) ← gettoken
      if tok = '\x00' then return ret
      else if tok ≠ 'a' then throw (.panic "syntax")
      else if maxargs ≤ argc + 1 then throw (.panic "too many args")
      else
        let ret ← parseredirs fuel (ret.addArg arg)
        parseargs fuel (argc + 1) ret

/-- The first loop of `parseline`. -/
def parsebacks : Nat → Cmd Span → Parse (Cmd Span)
  | 0, _ => throw .fuel
  | fuel + 1, cmd => do
    if ← peek ['&'] then
      let _ ← gettoken
      parsebacks fuel (.back cmd)
    else return cmd

mutual

def parseline : Nat → Parse (Cmd Span)
  | 0 => throw .fuel
  | fuel + 1 => do
    let cmd ← parsepipe fuel
    let cmd ← parsebacks fuel cmd
    if ← peek [';'] then
      let _ ← gettoken
      let rest ← parseline fuel
      return .list cmd rest
    else return cmd

def parsepipe : Nat → Parse (Cmd Span)
  | 0 => throw .fuel
  | fuel + 1 => do
    let cmd ← parseexec fuel
    if ← peek ['|'] then
      let _ ← gettoken
      let right ← parsepipe fuel
      return .pipe cmd right
    else return cmd

def parseexec : Nat → Parse (Cmd Span)
  | 0 => throw .fuel
  | fuel + 1 => do
    if ← peek ['('] then parseblock fuel
    else
      let ret ← parseredirs fuel (.exec [])
      parseargs fuel 0 ret

def parseblock : Nat → Parse (Cmd Span)
  | 0 => throw .fuel
  | fuel + 1 => do
    if ← peek ['('] then
      let _ ← gettoken
      let cmd ← parseline fuel
      if ← peek [')'] then
        let _ ← gettoken
        parseredirs fuel cmd
      else throw (.panic "syntax - missing )")
    else throw (.panic "parseblock")

end

/-- The memory of the input with its terminator. -/
abbrev Buffer := List Char

/-- The index of what a pointer points to. -/
def Ptr.index (buf : Buffer) (p : Ptr) : Nat := buf.length - 1 - p.length

/-- `*p = 0`. -/
def Buffer.terminate (buf : Buffer) (p : Ptr) : Buffer := buf.set (Ptr.index buf p) '\x00'

/-- The string at `p`. -/
def Buffer.string (buf : Buffer) (p : Ptr) : List Char :=
  (buf.drop (Ptr.index buf p)).takeWhile (· ≠ '\x00')

def nulterminate (buf : Buffer) : Cmd Span → Buffer
  | .exec argv => argv.foldl (fun buf arg => buf.terminate arg.eq) buf
  | .redir cmd file _ _ => (nulterminate buf cmd).terminate file.eq
  | .pipe left right | .list left right => nulterminate (nulterminate buf left) right
  | .back cmd => nulterminate buf cmd

/-- `parsecmd` without `nulterminate`: the tree of the whole input. -/
def parseAll (fuel : Nat) : Parse (Cmd Span) := do
  let cmd ← parseline fuel
  let _ ← peek []
  if (← get) = [] then return cmd
  else throw (.panic "syntax")

/-- `parsecmd`: the tree, and the memory of the input behind it. -/
def parsecmd (input : Ptr) : Except Stop (Cmd Span × Buffer) := do
  let (cmd, _) ← (parseAll (4 * input.length + 4)).run input
  return (cmd, nulterminate (input ++ ['\x00']) cmd)

end OsLab.Shell
