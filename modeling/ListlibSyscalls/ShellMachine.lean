import ListlibSyscalls.UserStrings
import ListlibSyscalls.StepRuns

/-!
# The command parser of the shell

`sh.c` parses a NUL terminated line in place. The pointers `*ps` and `es` are the
rest of the string between them, `es` being the NUL at its end, where `*s` reads
0. A token is given by its text and by what is left of the string from its first
character, which fixes the addresses `q` and `eq`. `parseline` calls itself
through `parsepipe`, `parseexec` and `parseblock`, which here get it as an
argument, and loops get the length of the rest as fuel. The `execcmd` under
construction is filled through its address, also when redirections have been
put around it: `addArg`.
-/

set_option autoImplicit false

namespace ListlibSyscalls.ShellMachine
open StepRuns UserStrings

def ch (c : Char) : Byte := BitVec.ofNat 8 c.toNat

def whitespace : List Byte := [ch ' ',ch '\t',ch '\r',ch '\n',0x0b]

def symbols : List Byte := [ch '<',ch '|',ch '>',ch '&',ch ';',ch '(',ch ')']

abbrev MAXARGS : ℕ := 10

/-- A token: the bytes from its start to the end of the string, and its text. -/
structure Token where
  left : ℕ
  text : List Byte
  deriving DecidableEq

inductive Redir where
  | input
  | output
  | append
  deriving DecidableEq

/-- O_RDONLY, O_WRONLY, O_CREATE and O_TRUNC are 0x000, 0x001, 0x200 and 0x400. -/
def Redir.mode : Redir → ℕ
  | .input => 0x000
  | .output => 0x601
  | .append => 0x201

def Redir.fd : Redir → ℕ
  | .input => 0
  | .output => 1
  | .append => 1

inductive Cmd (τ : Type) where
  | exec (argv : List τ)
  | redir (cmd : Cmd τ) (k : Redir) (file : τ)
  | pipe (left right : Cmd τ)
  | list (left right : Cmd τ)
  | back (cmd : Cmd τ)
  deriving DecidableEq

inductive Panic where
  | leftovers (s : List Byte)
  | missingFile
  | parseblock
  | missingParen
  | syntactic
  | tooManyArgs
  deriving DecidableEq

def Panic.text : Panic → String
  | .leftovers _ => "syntax"
  | .missingFile => "missing file for redirection"
  | .parseblock => "parseblock"
  | .missingParen => "syntax - missing )"
  | .syntactic => "syntax"
  | .tooManyArgs => "too many args"

inductive Stop where
  | panics (p : Panic)
  | outOfFuel
  deriving DecidableEq

def isSpace (c : Byte) : Bool := whitespace.contains c

def isWord (c : Byte) : Bool := !whitespace.contains c && !symbols.contains c

def skip (r : List Byte) : List Byte := r.dropWhile isSpace

/-- The code of the token, the token, and what follows it and its white space. -/
def gettoken (r : List Byte) : Byte × Token × List Byte :=
  match skip r with
  | [] => (nul,⟨0,[]⟩,[])
  | c::t =>
    if c = ch '|' ∨ c = ch '(' ∨ c = ch ')' ∨ c = ch ';' ∨ c = ch '&' ∨ c = ch '<' then
      (c,⟨t.length+1,[c]⟩,skip t)
    else if c = ch '>' then
      if t.head? = some (ch '>') then (ch '+',⟨t.length+1,[c,ch '>']⟩,skip t.tail)
      else (c,⟨t.length+1,[c]⟩,skip t)
    else (ch 'a',⟨t.length+1,(c::t).takeWhile isWord⟩,skip ((c::t).dropWhile isWord))

def peek (r toks : List Byte) : Bool :=
  match skip r with
  | [] => false
  | c::_ => toks.contains c

def redirOf (tok : Byte) : Redir :=
  if tok = ch '<' then .input else if tok = ch '>' then .output else .append

def parseredirs : ℕ → Cmd Token → List Byte → Except Stop (Cmd Token × List Byte)
  | 0, _, _ => .error .outOfFuel
  | k+1, cmd, r =>
    if peek r [ch '<',ch '>'] then
      let (tok,_,r) := gettoken r
      let (code,file,r) := gettoken r
      if code ≠ ch 'a' then .error (.panics .missingFile)
      else parseredirs k (.redir cmd (redirOf tok) file) r
    else .ok (cmd,skip r)

/-- `cmd->argv[argc] = q; cmd->eargv[argc] = eq` for the `execcmd` inside. -/
def Cmd.addArg (t : Token) : Cmd Token → Cmd Token
  | .exec argv => .exec (argv++[t])
  | .redir cmd k file => .redir (cmd.addArg t) k file
  | cmd => cmd

/-- The loop of `parseexec`. -/
def parseargs : ℕ → ℕ → Cmd Token → List Byte → Except Stop (Cmd Token × List Byte)
  | 0, _, _, _ => .error .outOfFuel
  | k+1, argc, ret, r =>
    if peek r [ch '|',ch ')',ch '&',ch ';'] then .ok (ret,skip r)
    else
      let (tok,arg,r) := gettoken r
      if tok = nul then .ok (ret,r)
      else if tok ≠ ch 'a' then .error (.panics .syntactic)
      else if MAXARGS ≤ argc+1 then .error (.panics .tooManyArgs)
      else do
        let (ret,r) ← parseredirs (r.length+1) (ret.addArg arg) r
        parseargs k (argc+1) ret r

section Line

variable (line : List Byte → Except Stop (Cmd Token × List Byte))

def parseblock (r : List Byte) : Except Stop (Cmd Token × List Byte) :=
  if peek r [ch '('] then do
    let (_,_,r) := gettoken r
    let (cmd,r) ← line r
    if peek r [ch ')'] then
      let (_,_,r) := gettoken r
      parseredirs (r.length+1) cmd r
    else .error (.panics .missingParen)
  else .error (.panics .parseblock)

def parseexec (r : List Byte) : Except Stop (Cmd Token × List Byte) :=
  if peek r [ch '('] then parseblock line r
  else do
    let (ret,r) ← parseredirs (r.length+1) (.exec []) r
    parseargs (r.length+1) 0 ret r

def parsepipe : ℕ → List Byte → Except Stop (Cmd Token × List Byte)
  | 0, _ => .error .outOfFuel
  | k+1, r => do
    let (cmd,r) ← parseexec line r
    if peek r [ch '|'] then
      let (_,_,r) := gettoken r
      let (right,r) ← parsepipe k r
      .ok (.pipe cmd right,r)
    else .ok (cmd,skip r)

/-- The loop of `parseline`. -/
def parsebacks : ℕ → Cmd Token → List Byte → Except Stop (Cmd Token × List Byte)
  | 0, _, _ => .error .outOfFuel
  | k+1, cmd, r =>
    if peek r [ch '&'] then
      let (_,_,r) := gettoken r
      parsebacks k (.back cmd) r
    else .ok (cmd,skip r)

/-- The body of `parseline`, with the function its inner calls reach. -/
def parselineWith (r : List Byte) : Except Stop (Cmd Token × List Byte) := do
  let (cmd,r) ← parsepipe line (r.length+1) r
  let (cmd,r) ← parsebacks (r.length+1) cmd r
  if peek r [ch ';'] then
    let (_,_,r) := gettoken r
    let (right,r) ← line r
    .ok (.list cmd right,r)
  else .ok (cmd,skip r)

end Line

def parseline : ℕ → List Byte → Except Stop (Cmd Token × List Byte)
  | 0, _ => .error .outOfFuel
  | k+1, r => parselineWith (parseline k) r

/-- `parsecmd` up to `nulterminate`, on the characters in front of the NUL. -/
def parsetext (s : List Byte) : Except Stop (Cmd Token) := do
  let (cmd,r) ← parseline (s.length+1) s
  let r := skip r
  if r ≠ [] then .error (.panics (.leftovers r)) else .ok cmd

/-- The index of `eq` in a string of the given length. -/
def Token.stop (len : ℕ) (t : Token) : ℕ := len-t.left+t.text.length

/-- `nulterminate`: a NUL after every token, in the buffer of a string of the
given length. -/
def nulterminate (len : ℕ) : Cmd Token → List Byte → List Byte
  | .exec argv, m => argv.foldl (fun m t => m.set (t.stop len) nul) m
  | .redir cmd _ file, m => (nulterminate len cmd m).set (file.stop len) nul
  | .pipe left right, m => nulterminate len right (nulterminate len left m)
  | .list left right, m => nulterminate len right (nulterminate len left m)
  | .back cmd, m => nulterminate len cmd m

def parsecmd (m : List Byte) : Except Stop (Cmd Token × List Byte) := do
  let cmd ← parsetext (text m)
  .ok (cmd,nulterminate (text m).length cmd m)

end ListlibSyscalls.ShellMachine
