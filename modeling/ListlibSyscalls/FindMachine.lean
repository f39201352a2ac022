import Mathlib.Logic.Function.Basic
import ListlibSyscalls.UserStrings
import ListlibSyscalls.DescriptorTable

/-!
# The find program over an arbitrary file system

`find` is followed with its path buffer byte by byte. The file system answers
each `open` by the number of opens so far and the path, and is otherwise
unknown: an answer is either a refusal or a file with the result of `fstat`,
which may fail too, and the dirents that whole reads deliver until a read
comes short. The descriptor table is the kernel's: an open takes the lowest
free descriptor and fails without one. The depth and the logs of reads and
calls are bookkeeping that nothing reads. The recursion is bounded by fuel;
that every call takes its frame, with the path buffer, from the one page of
user stack is left aside.
-/

set_option autoImplicit false

namespace ListlibSyscalls.FindMachine
open UserStrings DescriptorTable

abbrev DIRSIZ : ℕ := 14

abbrev bufSize : ℕ := 512

/-- An entry of a directory; the name need not end in a NUL. -/
structure Dirent where
  inum : BitVec 16
  name : List Byte
  size : name.length = DIRSIZ
  deriving DecidableEq

inductive Kind where
  | dir
  | file
  | device
  deriving DecidableEq

structure File where
  kind : Option Kind
  dirents : List Dirent
  deriving DecidableEq

/-- The kernel as the program meets it, and what the stack holds where the
buffer of a call comes to lie. -/
structure Env where
  nofile : ℕ
  openPath : ℕ → List Byte → Option File
  stack : ℕ → List Byte
  stack_size : ∀ k, (stack k).length = bufSize

inductive Line where
  | found (path : List Byte)
  | cannotOpen (path : List Byte)
  | cannotStat (path : List Byte)
  deriving DecidableEq

structure State where
  opens : ℕ
  ofile : ℕ → Option File
  out : List Line
  depth : ℕ
  reads : List (ℕ × (ℕ → Option File))
  calls : List (List Byte × List Byte)

namespace State

def print (s : State) (line : Line) : State := { s with out := s.out++[line] }

def close (s : State) (fd : ℕ) : State := { s with ofile := Function.update s.ofile fd none }

def logRead (s : State) : State := { s with reads := s.reads++[(s.depth,s.ofile)] }

def logCall (s : State) (path buf : List Byte) : State :=
  { s with calls := s.calls++[(text path,text buf)] }

def enter (s : State) : State := { s with depth := s.depth+1 }

def leave (s : State) : State := { s with depth := s.depth-1 }

end State

def openFile (env : Env) (s : State) (path : List Byte) : State × Option (ℕ × File) :=
  match env.openPath s.opens (text path), fdalloc env.nofile s.ofile with
  | some f, some fd =>
    ({ s with opens := s.opens+1, ofile := Function.update s.ofile fd (some f) },some (fd,f))
  | _, _ => ({ s with opens := s.opens+1 },none)

def puts (path : List Byte) : Except Fault (List Byte) :=
  if nul ∈ path then .ok (text path) else .error .overrun

def isDots (de : Dirent) : Except Fault Bool := do
  let z ← strcmp de.name [dot,nul]
  if z = 0 then .ok true
  else do
    let z ← strcmp de.name [dot,dot,nul]
    .ok (decide (z = 0))

def buildPath (buf path : List Byte) (de : Dirent) : Except Fault (List Byte) := do
  let buf ← strcpy buf path
  let p ← strlen buf
  let buf ← store buf p slash
  let buf ← memmove buf (p+1) de.name DIRSIZ
  store buf (p+1+DIRSIZ) nul

def scan (call : List Byte → State → Except Fault State) (path : List Byte) :
    List Dirent → List Byte → State → Except Fault State
  | [], _, s => .ok s.logRead
  | de::des, buf, s =>
    if de.inum = 0 then scan call path des buf s.logRead
    else do
      let dots ← isDots de
      if dots then scan call path des buf s.logRead
      else do
        let n ← strlen path
        if n+1+DIRSIZ+1 > bufSize then scan call path des buf s.logRead
        else do
          let buf ← buildPath buf path de
          let s ← call buf (s.logRead.logCall path buf)
          scan call path des buf s

/-- The part behind the last slash among the first `i` characters. -/
def fileName (path : List Byte) : ℕ → List Byte
  | 0 => path
  | i+1 => if path[i]? = some slash then path.drop (i+1) else fileName path i

def find (env : Env) (target : List Byte) : ℕ → List Byte → State → Except Fault State
  | 0, _, _ => .error .outOfFuel
  | fuel+1, path, s =>
    match openFile env s path with
    | (s,none) => do
      let p ← puts path
      .ok (s.print (.cannotOpen p))
    | (s,some (fd,f)) =>
      match f.kind with
      | none => do
        let p ← puts path
        .ok ((s.print (.cannotStat p)).close fd)
      | some .file => do
        let n ← strlen path
        let z ← strcmp (fileName path n) target
        if z = 0 then do
          let p ← puts path
          .ok ((s.print (.found p)).close fd)
        else .ok (s.close fd)
      | some .dir => do
        let s ← scan (find env target fuel) path f.dirents (env.stack s.opens) s.enter
        .ok (s.leave.close fd)
      | some .device => .ok (s.close fd)

end ListlibSyscalls.FindMachine
