import Xv6Fairness.ShellTokens

/-!
# The parser of the shell

The functions of `sh.c` that build the tree of a command line, and `nulterminate`, which cuts the
line into the strings of the tree. A string in the tree is a pair of pointers into the line. A bound
on the depth of the calls makes the functions total; it is never reached.
-/

namespace Xv6Fairness

namespace Shell

open ByteStrings

def MAXARGS : ℕ := 10

def O_RDONLY : ℕ := 0x000

def O_WRONLY : ℕ := 0x001

def O_CREATE : ℕ := 0x200

/-- The pointers `q` and `eq` of a string. -/
abbrev Span := ℕ × ℕ

inductive Cmd
  | exec (argv : List Span)
  | redir (cmd : Cmd) (file : Span) (mode fd : ℕ)
  | pipe (left right : Cmd)
  | list (left right : Cmd)
  | back (cmd : Cmd)
  deriving DecidableEq

inductive Failure
  | panic (msg : String)
  | depth
  deriving DecidableEq

/-- Stores a word into the `execcmd` below the redirections. -/
def Cmd.addArg (arg : Span) : Cmd → Cmd
  | .exec argv => .exec (argv ++ [arg])
  | .redir cmd file mode fd => .redir (cmd.addArg arg) file mode fd
  | c => c

/-- The `switch` of `parseredirs`. -/
def redirect (cmd : Cmd) (tok : UInt8) (file : Span) : Cmd :=
  if tok ∈ ascii ['<'] then .redir cmd file O_RDONLY 0
  else if tok = gt then .redir cmd file (O_WRONLY ||| O_CREATE) 1
  else if tok = appendRet then .redir cmd file (O_WRONLY ||| O_CREATE) 1
  else cmd

section Code

variable (s : Bytes)

def parseredirs : ℕ → Cmd → ℕ → Except Failure (Cmd × ℕ)
  | 0, _, _ => .error .depth
  | n + 1, cmd, i =>
    let (more, i) := peek s i (ascii ['<', '>'])
    if more then
      let tok := gettoken s i
      let file := gettoken s tok.next
      if file.ret ≠ wordRet then .error (.panic "missing file for redirection")
      else parseredirs n (redirect cmd tok.ret (file.q, file.eq)) file.next
    else .ok (cmd, i)

/-- The loop of `parseexec`. -/
def parseargs : ℕ → Cmd → ℕ → ℕ → Except Failure (Cmd × ℕ)
  | 0, _, _, _ => .error .depth
  | n + 1, ret, argc, i =>
    let (stop, i) := peek s i (ascii ['|', ')', '&', ';'])
    if stop then .ok (ret, i)
    else
      let tok := gettoken s i
      if tok.ret = 0 then .ok (ret, tok.next)
      else if tok.ret ≠ wordRet then .error (.panic "syntax")
      else if argc + 1 ≥ MAXARGS then .error (.panic "too many args")
      else do
        let (ret, i) ← parseredirs s n (ret.addArg (tok.q, tok.eq)) tok.next
        parseargs n ret (argc + 1) i

/-- The loop of `parseline`. -/
def parsebacks : ℕ → Cmd → ℕ → Except Failure (Cmd × ℕ)
  | 0, _, _ => .error .depth
  | n + 1, cmd, i =>
    let (back, i) := peek s i (ascii ['&'])
    if back then parsebacks n (.back cmd) (gettoken s i).next else .ok (cmd, i)

mutual

def parseline : ℕ → ℕ → Except Failure (Cmd × ℕ)
  | 0, _ => .error .depth
  | n + 1, i => do
    let (cmd, i) ← parsepipe n i
    let (cmd, i) ← parsebacks s n cmd i
    let (more, i) := peek s i (ascii [';'])
    if more then
      let (rest, i) ← parseline n (gettoken s i).next
      return (.list cmd rest, i)
    else return (cmd, i)

def parsepipe : ℕ → ℕ → Except Failure (Cmd × ℕ)
  | 0, _ => .error .depth
  | n + 1, i => do
    let (cmd, i) ← parseexec n i
    let (more, i) := peek s i (ascii ['|'])
    if more then
      let (rest, i) ← parsepipe n (gettoken s i).next
      return (.pipe cmd rest, i)
    else return (cmd, i)

def parseblock : ℕ → ℕ → Except Failure (Cmd × ℕ)
  | 0, _ => .error .depth
  | n + 1, i => do
    let (opens, i) := peek s i (ascii ['('])
    if !opens then .error (.panic "parseblock")
    else
      let (cmd, i) ← parseline n (gettoken s i).next
      let (closes, i) := peek s i (ascii [')'])
      if !closes then .error (.panic "syntax - missing )")
      else parseredirs s n cmd (gettoken s i).next

def parseexec : ℕ → ℕ → Except Failure (Cmd × ℕ)
  | 0, _ => .error .depth
  | n + 1, i => do
    let (opens, i) := peek s i (ascii ['('])
    if opens then parseblock n i
    else
      let (ret, i) ← parseredirs s n (.exec []) i
      parseargs s n ret 0 i

end

end Code

/-- Stores a NUL behind every string of the tree. -/
def nulterminate : Cmd → Bytes → Bytes
  | .exec argv, m => argv.foldl (fun m arg => m.set arg.2 0) m
  | .redir cmd file _ _, m => (nulterminate cmd m).set file.2 0
  | .pipe left right, m => nulterminate right (nulterminate left m)
  | .list left right, m => nulterminate right (nulterminate left m)
  | .back cmd, m => nulterminate cmd m

/-- The tree for a line, and the memory from the beginning of the line on. -/
def parsecmd (s : Bytes) : Except Failure (Cmd × Bytes) := do
  let (cmd, i) ← parseline s (4 * s.length + 4) 0
  let (_, i) := peek s i []
  if i ≠ s.length then .error (.panic "syntax")
  else return (cmd, nulterminate cmd (s ++ [0]))

end Shell

end Xv6Fairness
