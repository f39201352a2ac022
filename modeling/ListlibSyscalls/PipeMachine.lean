import ListlibSyscalls.RingBuffer
import ListlibSyscalls.StepRuns

/-!
# A pipe between one writing and one reading process

`pipewrite` and `piperead` of `pipe.c` are followed byte by byte. Each runs
under the lock of the pipe from its start, or from the return of a sleep, to
its return or its next sleep; such a section is one turn, and turns of the two
processes alternate in any order. A sleeping process goes on only after a
wakeup of its channel or a kill. The user memory behind `copyin` and
`copyout` is given with the call: an address may fail. The logs of returned
calls are bookkeeping that nothing reads. As in `primes.c` every call transfers
one int; an end is closed for good when no call on it is under way.
-/

set_option autoImplicit false

namespace ListlibSyscalls.PipeMachine
open StepRuns RingBuffer

abbrev Byte := BitVec 8

def bytes (x : BitVec 32) : List Byte :=
  [x.extractLsb' 0 8,x.extractLsb' 8 8,x.extractLsb' 16 8,x.extractLsb' 24 8]

def ofBytes : List Byte → BitVec 32
  | [b0,b1,b2,b3] => b3++b2++b1++b0
  | _ => 0

abbrev PIPESIZE : ℕ := 512

instance : NeZero PIPESIZE := ⟨by decide⟩

structure Pipe extends Ring 32 PIPESIZE Byte where
  readopen : Bool
  writeopen : Bool

def Pipe.setRing (pi : Pipe) (r : Ring 32 PIPESIZE Byte) : Pipe := ⟨r,pi.readopen,pi.writeopen⟩

@[simp] theorem setRing_toRing (pi : Pipe) (r : Ring 32 PIPESIZE Byte) :
    (pi.setRing r).toRing = r := rfl

@[simp] theorem setRing_readopen (pi : Pipe) (r : Ring 32 PIPESIZE Byte) :
    (pi.setRing r).readopen = pi.readopen := rfl

@[simp] theorem setRing_writeopen (pi : Pipe) (r : Ring 32 PIPESIZE Byte) :
    (pi.setRing r).writeopen = pi.writeopen := rfl

@[simp] theorem setRing_setRing (pi : Pipe) (r r' : Ring 32 PIPESIZE Byte) :
    (pi.setRing r).setRing r' = pi.setRing r' := rfl

def pipealloc (page : Fin PIPESIZE → Byte) : Pipe := ⟨⟨page,0,0⟩,true,true⟩

/-- How a section of `pipewrite` ends: with a return value, and with or without
the final wakeup of readers, or asleep with `i` bytes written. -/
inductive WriteEnd where
  | returned (r : ℤ) (wakes : Bool)
  | asleep (i : ℕ)
  deriving DecidableEq

/-- The loop of `pipewrite` with `k` bytes to go after `i`. -/
def writeLoop (killed : Bool) (src : ℕ → Option Byte) : ℕ → ℕ → Pipe → Pipe × WriteEnd
  | 0, i, pi => (pi,.returned i true)
  | k+1, i, pi =>
    if pi.readopen = false ∨ killed then (pi,.returned (-1) false)
    else if pi.nwrite = pi.nread+PIPESIZE then (pi,.asleep i)
    else match src i with
      | none => (pi,.returned i true)
      | some ch => writeLoop killed src k (i+1) (pi.setRing (pi.push ch))

/-- The copying loop of `piperead`: the number of bytes it counts and those it
has copied out. A byte that cannot be copied out is gone. -/
def readLoop (dst : ℕ → Bool) : ℕ → ℕ → List Byte → Pipe → Pipe × ℕ × List Byte
  | 0, i, got, pi => (pi,i,got)
  | k+1, i, got, pi =>
    if pi.nread = pi.nwrite then (pi,i,got)
    else if dst i then readLoop dst k (i+1) (got++[pi.front]) (pi.setRing pi.pop)
    else (pi.setRing pi.pop,i,got)

inductive ReadEnd where
  | returned (r : ℤ) (got : List Byte) (wakes : Bool)
  | asleep
  deriving DecidableEq

def pipereadSection (killed : Bool) (dst : ℕ → Bool) (n : ℕ) (pi : Pipe) : Pipe × ReadEnd :=
  if pi.nread = pi.nwrite ∧ pi.writeopen then
    if killed then (pi,.returned (-1) [] false) else (pi,.asleep)
  else
    let (pi,i,got) := readLoop dst n 0 [] pi
    (pi,.returned i got true)

inductive Party where
  | writer
  | reader
  deriving DecidableEq

inductive Writing where
  | idle
  | inside (x : BitVec 32) (copyin : ℕ → Bool) (i : ℕ) (asleep : Bool)

inductive Reading where
  | idle
  | inside (copyout : ℕ → Bool) (asleep : Bool)

structure State where
  pipe : Pipe
  writer : Writing
  reader : Reading
  writerKilled : Bool
  readerKilled : Bool
  writes : List (BitVec 32 × ℤ)
  reads : List (ℤ × List Byte)

def start (page : Fin PIPESIZE → Byte) : State :=
  ⟨pipealloc page,.idle,.idle,false,false,[],[]⟩

inductive Turn where
  | write (x : BitVec 32) (copyin : ℕ → Bool)
  | resumeWrite
  | read (copyout : ℕ → Bool)
  | resumeRead
  | closeWrite
  | closeRead
  | kill (p : Party)

inductive Refused where
  | notEnabled
  deriving DecidableEq

/-- `wakeup(&pi->nwrite)`. -/
def Writing.wake : Writing → Writing
  | .idle => .idle
  | .inside x copyin i _ => .inside x copyin i false

/-- `wakeup(&pi->nread)`. -/
def Reading.wake : Reading → Reading
  | .idle => .idle
  | .inside copyout _ => .inside copyout false

namespace State

def pipewrite (s : State) (x : BitVec 32) (copyin : ℕ → Bool) (i : ℕ) : State :=
  let src j := if copyin j then (bytes x)[j]? else none
  match writeLoop s.writerKilled src (4-i) i s.pipe with
  | (pi,.returned r wakes) => { s with
      pipe := pi
      writer := .idle
      reader := if wakes then s.reader.wake else s.reader
      writes := s.writes++[(x,r)] }
  | (pi,.asleep i) => { s with
      pipe := pi
      writer := .inside x copyin i true
      reader := s.reader.wake }

def piperead (s : State) (copyout : ℕ → Bool) : State :=
  match pipereadSection s.readerKilled copyout 4 s.pipe with
  | (pi,.returned r got wakes) => { s with
      pipe := pi
      reader := .idle
      writer := if wakes then s.writer.wake else s.writer
      reads := s.reads++[(r,got)] }
  | (pi,.asleep) => { s with
      pipe := pi
      reader := .inside copyout true }

def pipeclose (s : State) : Party → State
  | .writer => { s with
      pipe := { s.pipe with writeopen := false }
      reader := s.reader.wake }
  | .reader => { s with
      pipe := { s.pipe with readopen := false }
      writer := s.writer.wake }

def kkill (s : State) : Party → State
  | .writer => { s with writerKilled := true, writer := s.writer.wake }
  | .reader => { s with readerKilled := true, reader := s.reader.wake }

end State

def step (s : State) : Turn → Except Refused State
  | .write x copyin =>
    match s.writer, s.pipe.writeopen with
    | .idle, true => .ok (s.pipewrite x copyin 0)
    | _, _ => .error .notEnabled
  | .resumeWrite =>
    match s.writer with
    | .inside x copyin i false => .ok (s.pipewrite x copyin i)
    | _ => .error .notEnabled
  | .read copyout =>
    match s.reader, s.pipe.readopen with
    | .idle, true => .ok (s.piperead copyout)
    | _, _ => .error .notEnabled
  | .resumeRead =>
    match s.reader with
    | .inside copyout false => .ok (s.piperead copyout)
    | _ => .error .notEnabled
  | .closeWrite =>
    match s.writer, s.pipe.writeopen with
    | .idle, true => .ok (s.pipeclose .writer)
    | _, _ => .error .notEnabled
  | .closeRead =>
    match s.reader, s.pipe.readopen with
    | .idle, true => .ok (s.pipeclose .reader)
    | _, _ => .error .notEnabled
  | .kill p => .ok (s.kkill p)

/-- User memory is mapped, and nobody is killed while the read end is open. -/
def Offered (s : State) : Turn → Prop
  | .write _ copyin => ∀ i < 4, copyin i = true
  | .read copyout => ∀ i < 4, copyout i = true
  | .kill _ => s.pipe.readopen = false
  | _ => True

instance (s : State) (t : Turn) : Decidable (Offered s t) :=
  match t with
  | .write _ _ => inferInstanceAs (Decidable (∀ i < 4, _))
  | .read _ => inferInstanceAs (Decidable (∀ i < 4, _))
  | .kill _ => inferInstanceAs (Decidable (_ = _))
  | .resumeWrite => inferInstanceAs (Decidable True)
  | .resumeRead => inferInstanceAs (Decidable True)
  | .closeWrite => inferInstanceAs (Decidable True)
  | .closeRead => inferInstanceAs (Decidable True)

/-- The ints of the writes that returned 4. -/
def intsWritten (s : State) : List (BitVec 32) :=
  (s.writes.filter fun e => e.2 = 4).map fun e => e.1

/-- The ints that the reads which returned 4 left in memory. -/
def intsRead (s : State) : List (BitVec 32) :=
  (s.reads.filter fun e => e.1 = 4).map fun e => ofBytes e.2

end ListlibSyscalls.PipeMachine
