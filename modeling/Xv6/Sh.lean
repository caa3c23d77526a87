import Xv6.Lib.Post

/-!
`sh.c`: the parser of the shell. The line is a list of characters before a NUL; pointers into it are positions, an
access behind the NUL is an error, and so is an access behind the end of `argv`.
-/
namespace Xv6.Sh
open Xv6.Lib

/-- Why the parser does not return. -/
inductive Stop where
  | panic (why : String)
  /-- An access outside the line or `argv`. -/
  | outside
  /-- More calls are needed. -/
  | fuel
deriving DecidableEq

/-- A part of the parser, which moves the pointer `*ps`. -/
abbrev Parser (α : Type) := StateT Nat (Except Stop) α

/-- `" \t\r\n\v"` -/
def whitespace : List UInt8 := [32,9,13,10,11]

/-- `"<|>&;()"` -/
def symbols : List UInt8 := [60,124,62,38,59,40,41]

def MAXARGS : Nat := 10

def O_RDONLY : Nat := 0
def O_WRONLY : Nat := 1
def O_CREATE : Nat := 0x200

/-- The commands; `α` is what stands for a word, for the parser the pointers `q` and `eq`. -/
inductive Cmd (α : Type) where
  | exec (argv : List α)
  | redir (cmd : Cmd α) (file : α) (mode fd : Nat)
  | pipe (left right : Cmd α)
  | list (left right : Cmd α)
  | back (cmd : Cmd α)
deriving DecidableEq

/-- The pointers to the first character of a word and behind its last one. -/
abbrev Span := Nat × Nat

variable (line : List UInt8)

/-- `*s` -/
def charAt (s : Nat) : Except Stop UInt8 :=
  if s < line.length then .ok (line.getD s 0) else if s = line.length then .ok 0 else .error .outside

/-- `while(s < es && test(*s)) s++`, with `es - s` characters to go -/
def skip_from (test : UInt8 → Bool) : Nat → Nat → Except Stop Nat
  | 0,s => .ok s
  | n + 1,s => do
    let c ← charAt line s
    if test c then skip_from test n (s + 1) else return s

def skip (test : UInt8 → Bool) (s : Nat) : Except Stop Nat := skip_from line test (line.length - s) s

def white (c : UInt8) : Bool := whitespace.contains c

def plain (c : UInt8) : Bool := !whitespace.contains c && !symbols.contains c

/-- The end of the token that begins at `s` with the character `c`, and its kind: 0 at the end of the line, `+` for `>>`,
    `a` for a word, otherwise the character. -/
def gettoken_from (s : Nat) (c : UInt8) : Except Stop (UInt8 × Nat) :=
  if c = 0 then .ok (0,s)
  else if c = 124 ∨ c = 40 ∨ c = 41 ∨ c = 59 ∨ c = 38 ∨ c = 60 then .ok (c,s + 1)
  else if c = 62 then do
    let d ← charAt line (s + 1)
    if d = 62 then return (43,s + 2) else return (c,s + 1)
  else do
    let s ← skip line plain s
    return (97,s)

/-- The kind of the next token, and the word that it is. -/
def gettoken : Parser (UInt8 × Span) := fun s => do
  let q ← skip line white s
  let c ← charAt line q
  let (ret,eq) ← gettoken_from line q c
  let s ← skip line white eq
  return ((ret,q,eq),s)

def peek (toks : List UInt8) : Parser Bool := fun s => do
  let s ← skip line white s
  let c ← charAt line s
  return (c ≠ 0 && toks.contains c,s)

/-- The `switch` of `parseredirs`. -/
def redircmd (tok : UInt8) (cmd : Cmd Span) (file : Span) : Cmd Span :=
  if tok = 60 then .redir cmd file O_RDONLY 0
  else if tok = 62 then .redir cmd file (O_WRONLY ||| O_CREATE) 1
  else if tok = 43 then .redir cmd file (O_WRONLY ||| O_CREATE) 1
  else cmd

def parseredirs : Nat → Cmd Span → Parser (Cmd Span)
  | 0,_ => throw .fuel
  | n + 1,cmd => do
    if ← peek line [60,62] then
      let tok ← gettoken line
      let word ← gettoken line
      if word.1 ≠ 97 then throw (.panic "missing file for redirection")
      else parseredirs n (redircmd tok.1 cmd word.2)
    else return cmd

/-- `cmd->argv[argc] = q; cmd->eargv[argc] = eq` for the `EXEC` node in the redirections that are around it already -/
def Cmd.setArg {α : Type} (w : α) : Cmd α → Cmd α
  | .exec argv => .exec (argv ++ [w])
  | .redir cmd file mode fd => .redir (cmd.setArg w) file mode fd
  | cmd => cmd

/-- An access to `argv[argc]` and `eargv[argc]`. -/
def argIndex (argc : Nat) : Parser Unit := if argc < MAXARGS then return () else throw .outside

/-- The loop of `parseexec`. -/
def parseexec_from : Nat → Nat → Cmd Span → Parser (Cmd Span)
  | 0,_,_ => throw .fuel
  | n + 1,argc,ret => do
    if ← peek line [124,41,38,59] then
      argIndex argc
      return ret
    else
      let tok ← gettoken line
      if tok.1 = 0 then
        argIndex argc
        return ret
      else if tok.1 ≠ 97 then throw (.panic "syntax")
      else
        argIndex argc
        if argc + 1 ≥ MAXARGS then throw (.panic "too many args")
        else
          let ret ← parseredirs line n (ret.setArg tok.2)
          parseexec_from n (argc + 1) ret

/-- The loop of `parseline`. -/
def parseline_from : Nat → Cmd Span → Parser (Cmd Span)
  | 0,_ => throw .fuel
  | n + 1,cmd => do
    if ← peek line [38] then
      let _ ← gettoken line
      parseline_from n (.back cmd)
    else return cmd

mutual
def parseline : Nat → Parser (Cmd Span)
  | 0 => throw .fuel
  | n + 1 => do
    let cmd ← parsepipe n
    let cmd ← parseline_from line n cmd
    if ← peek line [59] then
      let _ ← gettoken line
      let right ← parseline n
      return .list cmd right
    else return cmd

def parsepipe : Nat → Parser (Cmd Span)
  | 0 => throw .fuel
  | n + 1 => do
    let cmd ← parseexec n
    if ← peek line [124] then
      let _ ← gettoken line
      let right ← parsepipe n
      return .pipe cmd right
    else return cmd

def parseexec : Nat → Parser (Cmd Span)
  | 0 => throw .fuel
  | n + 1 => do
    if ← peek line [40] then parseblock n
    else
      let ret ← parseredirs line n (.exec [])
      parseexec_from line n 0 ret

def parseblock : Nat → Parser (Cmd Span)
  | 0 => throw .fuel
  | n + 1 => do
    if ← peek line [40] then
      let _ ← gettoken line
      let cmd ← parseline n
      if ← peek line [41] then
        let _ ← gettoken line
        parseredirs line n cmd
      else throw (.panic "syntax - missing )")
    else throw (.panic "parseblock")
end

/-- `*p = 0` -/
def clear (buf : List UInt8) (p : Nat) : Except Stop (List UInt8) := if p < buf.length then .ok (buf.set p 0) else .error .outside

/-- NUL-terminate all the counted strings. -/
def nulterminate : Cmd Span → List UInt8 → Except Stop (List UInt8)
  | .exec argv,buf => argv.foldlM (fun buf arg => clear buf arg.2) buf
  | .redir cmd file _ _,buf => do
    let buf ← nulterminate cmd buf
    clear buf file.2
  | .pipe left right,buf => do
    let buf ← nulterminate left buf
    nulterminate right buf
  | .list left right,buf => do
    let buf ← nulterminate left buf
    nulterminate right buf
  | .back cmd,buf => nulterminate cmd buf

/-- The command of a line, and what is then in the buffer. -/
def parsecmd (n : Nat) : Except Stop (Cmd Span × List UInt8) := do
  let (cmd,s) ← parseline line n 0
  let (_,s) ← peek line [] s
  if s ≠ line.length then .error (.panic "syntax")
  else
    let buf ← nulterminate cmd (line ++ [0])
    return (cmd,buf)

end Xv6.Sh
