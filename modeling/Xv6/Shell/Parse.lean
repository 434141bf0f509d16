/-
  THE SHELL'S PARSER (`user/sh.c`): `gettoken`, `peek` and the five parsing functions.

  The text is memory: a string is a pair of positions, the place of its first character and the place
  after its last, and `nulterminate` writes a NUL there when the whole line has been parsed.  `es` is the
  end of the text.  `panic` ends the process.

  `parseblock` calls `parseline` and so is mutually recursive with it; here the functions below
  `parseline` take it as an argument `line`, and `parseline` hands itself down.  Loops and recursion are
  bounded by FUEL, of which there is always enough.  `malloc` does not fail.
-/
import Xv6.Lib.Bytes
import Xv6.Lib.Scan
import Xv6.Params

namespace Xv6.Sh

open Scan

def MAXARGS : Nat := 10

/-! ## Commands -/

/-- `struct cmd`, with the strings of `argv` and `file` in `α`. -/
inductive Cmd (α : Type)
  | exec (argv : List α)
  | redir (cmd : Cmd α) (file : α) (mode fd : Nat)
  | pipe (left right : Cmd α)
  | list (left right : Cmd α)
  | back (cmd : Cmd α)
deriving DecidableEq, Repr

/-- A string before it is terminated: `q` and `eq`. -/
abbrev Span := Nat × Nat

/-- `cmd->argv[argc] = q; cmd->eargv[argc] = eq`, where `ret` has come to stand for `cmd` under some
    redirections. -/
def Cmd.push {α : Type} (a : α) : Cmd α → Cmd α
  | exec argv => exec (argv ++ [a])
  | redir cmd file mode fd => redir (cmd.push a) file mode fd
  | c => c

/-- Why the parser ended without a command. -/
inductive Stop
  | panic (msg : String)
  | fuel
deriving DecidableEq, Repr

/-! ## Tokens -/

/-- `" \t\r\n\v"`. -/
def whitespace : List UInt8 := [32, 9, 13, 10, 11]

/-- `"<|>&;()"`. -/
def symbols : List UInt8 := [60, 124, 62, 38, 59, 40, 41]

def isSpace (c : UInt8) : Bool := whitespace.contains c

/-- A character of a word. -/
def isWord (c : UInt8) : Bool := !whitespace.contains c && !symbols.contains c

section Parser

variable (m : Bytes) (es : Nat)

/-- The `switch` of `gettoken`: the token at `s`, and where it ends.  The code of a word is `a` (97),
    that of `>>` is `+` (43). -/
def tokenAt (s : Nat) : UInt8 × Nat :=
  if m s = 0 then (0, s)
  else if m s = 62 then if m (s + 1) = 62 then (43, s + 2) else (62, s + 1)
  else if symbols.contains (m s) then (m s, s + 1)
  else (97, scan m isWord es s)

/-- The token, its span, and the new `*ps`. -/
def gettoken (s : Nat) : UInt8 × Span × Nat :=
  let q := scan m isSpace es s
  let t := tokenAt m es q
  (t.1, (q, t.2), scan m isSpace es t.2)

/-- Whether the next character is one of `toks`, and the new `*ps`. -/
def peek (s : Nat) (toks : List UInt8) : Bool × Nat :=
  let s := scan m isSpace es s
  (m s != 0 && toks.contains (m s), s)

/-! ## The parsing functions -/

/-- `redircmd` for the token `tok`. -/
def redircmd (cmd : Cmd Span) (file : Span) (tok : UInt8) : Cmd Span :=
  if tok = 60 then .redir cmd file O_RDONLY 0
  else if tok = 62 then .redir cmd file (O_WRONLY ||| O_CREATE ||| O_TRUNC) 1
  else if tok = 43 then .redir cmd file (O_WRONLY ||| O_CREATE) 1
  else cmd

/-- The loop of `parseredirs`. -/
def redirLoop : Nat → Cmd Span → Nat → Except Stop (Cmd Span × Nat)
  | 0, _, _ => .error .fuel
  | n + 1, cmd, s =>
    let p := peek m es s [60, 62]
    if p.1 then
      let tok := gettoken m es p.2
      let file := gettoken m es tok.2.2
      if file.1 ≠ 97 then .error (.panic "missing file for redirection")
      else redirLoop n (redircmd cmd file.2.1 tok.1) file.2.2
    else .ok (cmd, p.2)

def parseredirs (cmd : Cmd Span) (s : Nat) : Except Stop (Cmd Span × Nat) :=
  redirLoop m es (es + 1) cmd s

/-- The loop of `parseexec`. -/
def argLoop : Nat → Nat → Cmd Span → Nat → Except Stop (Cmd Span × Nat)
  | 0, _, _, _ => .error .fuel
  | n + 1, argc, ret, s =>
    let p := peek m es s [124, 41, 38, 59]
    if p.1 then .ok (ret, p.2)
    else
      let tok := gettoken m es p.2
      if tok.1 = 0 then .ok (ret, tok.2.2)
      else if tok.1 ≠ 97 then .error (.panic "syntax")
      else if MAXARGS ≤ argc + 1 then .error (.panic "too many args")
      else do
        let r ← parseredirs m es (ret.push tok.2.1) tok.2.2
        argLoop n (argc + 1) r.1 r.2

variable (line : Nat → Except Stop (Cmd Span × Nat))

def parseblock (s : Nat) : Except Stop (Cmd Span × Nat) :=
  let p := peek m es s [40]
  if !p.1 then .error (.panic "parseblock")
  else do
    let r ← line (gettoken m es p.2).2.2
    let p := peek m es r.2 [41]
    if !p.1 then .error (.panic "syntax - missing )")
    else parseredirs m es r.1 (gettoken m es p.2).2.2

def parseexec (s : Nat) : Except Stop (Cmd Span × Nat) :=
  let p := peek m es s [40]
  if p.1 then parseblock m es line p.2
  else do
    let r ← parseredirs m es (.exec []) p.2
    argLoop m es (es + 1) 0 r.1 r.2

def parsepipe : Nat → Nat → Except Stop (Cmd Span × Nat)
  | 0, _ => .error .fuel
  | n + 1, s => do
    let l ← parseexec m es line s
    let p := peek m es l.2 [124]
    if p.1 then do
      let r ← parsepipe n (gettoken m es p.2).2.2
      pure (.pipe l.1 r.1, r.2)
    else pure (l.1, p.2)

/-- The `&`s of `parseline`. -/
def backLoop : Nat → Cmd Span → Nat → Except Stop (Cmd Span × Nat)
  | 0, _, _ => .error .fuel
  | n + 1, cmd, s =>
    let p := peek m es s [38]
    if p.1 then backLoop n (.back cmd) (gettoken m es p.2).2.2
    else .ok (cmd, p.2)

def parseline : Nat → Nat → Except Stop (Cmd Span × Nat)
  | 0, _ => .error .fuel
  | n + 1, s => do
    let c ← parsepipe m es (parseline n) (es + 1) s
    let c ← backLoop m es (es + 1) c.1 c.2
    let p := peek m es c.2 [59]
    if p.1 then do
      let r ← parseline n (gettoken m es p.2).2.2
      pure (.list c.1 r.1, r.2)
    else pure (c.1, p.2)

end Parser

/-- NUL-terminate all the counted strings. -/
def nulterminate : Cmd Span → Bytes → Bytes
  | .exec argv, m => argv.foldl (fun m a => Function.update m a.2 0) m
  | .redir cmd file _ _, m => Function.update (nulterminate cmd m) file.2 0
  | .pipe left right, m => nulterminate right (nulterminate left m)
  | .list left right, m => nulterminate right (nulterminate left m)
  | .back cmd, m => nulterminate cmd m

def strlen (text : List UInt8) : Nat := (text.takeWhile (· ≠ 0)).length

/-- `parsecmd`: the command, and the memory in which its strings are terminated. -/
def parsecmd (text : List UInt8) : Except Stop (Cmd Span × Bytes) := do
  let m := Bytes.ofList text
  let es := strlen text
  let c ← parseline m es (es + 1) 0
  if (peek m es c.2 []).2 ≠ es then .error (.panic "syntax")
  else pure (c.1, nulterminate c.1 m)

end Xv6.Sh
