import Mathlib.Logic.Function.Basic
import ListlibSyscalls.FilterSieve
import ListlibSyscalls.StepRuns
import ListlibSyscalls.DescriptorTable

/-!
# The prime sieve as a system of processes

`main` and `sieve` of `primes.c` are followed from system call to system call.
A process is a program point with the values of `read_fd`, `prime` and `p`,
its descriptor table, and its place in the process tree. A turn lets one
process make its next call, and the order of turns is arbitrary. A pipe holds
ints in order; that the bytes of `pipe.c` do so too is shown in `SievePipes`.
A pipe end is open while some descriptor table holds it, which is
what the reference counts of `file.c` count. The bound of the for loop in
`main` is a parameter, as are the capacity of a pipe and NOFILE. Ints are
natural numbers, since the bound is one that the loop counter can pass.
-/

set_option autoImplicit false

namespace ListlibSyscalls.SieveMachine
open FilterSieve StepRuns DescriptorTable

/-- With the bound INT_MAX the loop of `main` would overflow its counter. -/
structure Config where
  bound : ℕ
  bound_lt : bound < 2^31-1
  capacity : ℕ
  nofile : ℕ

/-- PIPESIZE / sizeof(int) and NOFILE of the kernel. -/
def xv6 (bound : ℕ) (h : bound < 2^31-1) : Config := ⟨bound,h,512/4,NOFILE⟩

theorem three_lt : 3 < 2^31-1 := by decide

inductive File where
  | console
  | readEnd (pi : ℕ)
  | writeEnd (pi : ℕ)
  deriving DecidableEq

inductive Body where
  | main
  | sieve
  deriving DecidableEq

inductive Life where
  | running
  | zombie
  | unused
  deriving DecidableEq

/-- The next call of a process. `main` and `sieve` share the calls around the
fork; `feed` is the for loop of `main`, the reads and `writeNum` are the
filter of `sieve`, and `print` has the characters still to be written. -/
inductive Pc where
  | pipe
  | fork
  | childClose
  | close0
  | feed (i : ℕ)
  | readFirst
  | closeEmpty
  | print (rest : List Char)
  | readNum
  | writeNum (num : ℕ)
  | closeRead
  | close1
  | wait
  | exit
  deriving DecidableEq

structure Proc where
  body : Body
  pc : Pc
  life : Life
  parent : Option ℕ
  ofile : ℕ → Option File
  readFd : ℕ
  prime : ℕ
  p0 : ℕ
  p1 : ℕ

/-- Processes and pipes are numbered in the order of their creation. -/
structure State where
  proc : ℕ → Proc
  nproc : ℕ
  queue : ℕ → List ℕ
  npipe : ℕ
  out : List Char

/-- Why a turn is not taken: the call sleeps, or `pipe` has failed and the
program goes on with an uninitialised `p`, which its source does not determine. -/
inductive Stuck where
  | blocked
  | indeterminate
  deriving DecidableEq

namespace State

def setProc (s : State) (k : ℕ) (P : Proc) : State :=
  { s with proc := Function.update s.proc k P }

def setQueue (s : State) (pi : ℕ) (q : List ℕ) : State :=
  { s with queue := Function.update s.queue pi q }

def Holds (c : Config) (s : State) (k : ℕ) (f : File) : Prop :=
  ∃ fd < c.nofile, (s.proc k).ofile fd = some f

instance (c : Config) (s : State) (k : ℕ) (f : File) : Decidable (Holds c s k f) :=
  inferInstanceAs (Decidable (∃ fd < c.nofile, _))

/-- `readopen` or `writeopen` of a pipe. -/
def Open (c : Config) (s : State) (f : File) : Prop := ∃ k < s.nproc, s.Holds c k f

instance (c : Config) (s : State) (f : File) : Decidable (s.Open c f) :=
  inferInstanceAs (Decidable (∃ k < s.nproc, _))

def Running (s : State) (k : ℕ) : Prop := k < s.nproc ∧ (s.proc k).life = .running

instance (s : State) (k : ℕ) : Decidable (s.Running k) :=
  inferInstanceAs (Decidable (_ ∧ _))

end State

def pipeFds (c : Config) (ofile : ℕ → Option File) (pi : ℕ) : Option (ℕ × ℕ) := do
  let fd0 ← fdalloc c.nofile ofile
  let fd1 ← fdalloc c.nofile (Function.update ofile fd0 (some (.readEnd pi)))
  some (fd0,fd1)

/-- `piperead` of one int: `none` stands for a result that is not positive. -/
def piperead (c : Config) (s : State) : Option File → Except Stuck (State × Option ℕ)
  | some (.readEnd pi) =>
    match s.queue pi with
    | x::q => .ok (s.setQueue pi q,some x)
    | [] => if s.Open c (.writeEnd pi) then .error .blocked else .ok (s,none)
  | _ => .ok (s,none)

/-- `pipewrite` of one int. The program ignores its result. -/
def pipewrite (c : Config) (s : State) (x : ℕ) : Option File → Except Stuck State
  | some (.writeEnd pi) =>
    if ¬ s.Open c (.readEnd pi) then .ok s
    else if (s.queue pi).length = c.capacity then .error .blocked
    else .ok (s.setQueue pi (s.queue pi ++ [x]))
  | _ => .ok s

/-- The characters that `printf("prime %d\n", prime)` writes one by one. -/
def line (p : ℕ) : List Char := "prime ".toList ++ Nat.toDigits 10 p ++ ['\n']

def printing : List Char → Pc
  | [] => .pipe
  | c::cs => .print (c::cs)

def putc (s : State) (P : Proc) (ch : Char) : State :=
  if P.ofile 1 = some .console then { s with out := s.out ++ [ch] } else s

/-- Freeing the zombie that `kwait` has found. -/
def freeproc (s : State) (j : ℕ) : State :=
  s.setProc j { s.proc j with life := .unused, parent := none }

def IsChild (s : State) (k j : ℕ) : Prop := (s.proc j).parent = some k

instance (s : State) (k j : ℕ) : Decidable (IsChild s k j) :=
  inferInstanceAs (Decidable (_ = _))

def kwait (s : State) (k : ℕ) : Except Stuck State :=
  match (List.range s.nproc).find? fun j => IsChild s k j ∧ (s.proc j).life = .zombie with
  | some j => .ok (freeproc s j)
  | none => if (∃ j < s.nproc, IsChild s k j) then .error .blocked else .ok s

/-- Closing every descriptor and leaving the children to init. -/
def kexit (s : State) (k : ℕ) : State :=
  let s := { s with
    proc := fun j => if IsChild s k j then { s.proc j with parent := none } else s.proc j }
  s.setProc k { s.proc k with life := .zombie, ofile := fun _ => none }

def close (P : Proc) (fd : ℕ) : ℕ → Option File := Function.update P.ofile fd none

def goto (s : State) (k : ℕ) (pc : Pc) : State := s.setProc k { s.proc k with pc := pc }

def runProc (c : Config) (s : State) (k : ℕ) : Except Stuck State :=
  let P := s.proc k
  match P.pc with
  | .pipe =>
    match pipeFds c P.ofile s.npipe with
    | some (fd0,fd1) => .ok { s with
        proc := Function.update s.proc k { P with
          pc := .fork
          p0 := fd0
          p1 := fd1
          ofile := Function.update (Function.update P.ofile fd0 (some (.readEnd s.npipe))) fd1
            (some (.writeEnd s.npipe)) }
        queue := Function.update s.queue s.npipe []
        npipe := s.npipe+1 }
    | none => .error .indeterminate
  | .fork => .ok { s with
      proc := Function.update (Function.update s.proc k { P with pc := .close0 }) s.nproc
        { P with pc := .childClose, parent := some k }
      nproc := s.nproc+1 }
  | .childClose => .ok (s.setProc k { P with
      ofile := close P P.p1
      body := .sieve
      readFd := P.p0
      pc := .readFirst })
  | .close0 => .ok (s.setProc k { P with
      ofile := close P P.p0
      pc := match P.body with
        | .main => .feed 2
        | .sieve => .readNum })
  | .feed i =>
    if i ≤ c.bound then do
      let s ← pipewrite c s i (P.ofile P.p1)
      .ok (goto s k (.feed (i+1)))
    else .ok (s.setProc k { P with ofile := close P P.p1, pc := .wait })
  | .readFirst => do
    let (s,r) ← piperead c s (P.ofile P.readFd)
    match r with
    | some x => .ok (s.setProc k { P with prime := x, pc := printing (line x) })
    | none => .ok (goto s k .closeEmpty)
  | .closeEmpty => .ok (s.setProc k { P with ofile := close P P.readFd, pc := .exit })
  | .print [] => .ok (goto s k .pipe)
  | .print (ch::rest) => .ok (goto (putc s P ch) k (printing rest))
  | .readNum => do
    let (s,r) ← piperead c s (P.ofile P.readFd)
    match r with
    | some x => .ok (goto s k (if x % P.prime ≠ 0 then .writeNum x else .readNum))
    | none => .ok (goto s k .closeRead)
  | .writeNum x => do
    let s ← pipewrite c s x (P.ofile P.p1)
    .ok (goto s k .readNum)
  | .closeRead => .ok (s.setProc k { P with ofile := close P P.readFd, pc := .close1 })
  | .close1 => .ok (s.setProc k { P with ofile := close P P.p1, pc := .wait })
  | .wait => do
    let s ← kwait s k
    .ok (goto s k .exit)
  | .exit => .ok (kexit s k)

inductive Turn where
  | run (k : ℕ)
  | forkFails (k : ℕ)

def step (c : Config) (s : State) : Turn → Except Stuck State
  | .run k => if s.Running k then runProc c s k else .error .blocked
  | .forkFails k => if s.Running k ∧ (s.proc k).pc = .fork then .ok (goto s k .close0)
      else .error .blocked

def start : State where
  proc _ := ⟨.main,.pipe,.running,none,fun fd => if fd < 3 then some .console else none,0,0,0,0⟩
  nproc := 1
  queue _ := []
  npipe := 0
  out := []

abbrev Turns (c : Config) : State → Turn → State → Prop := Accepts (step c)

abbrev Reached (c : Config) (s : State) : Prop := Reach (Turns c) (fun _ _ => True) start s

/-- The turns in which `fork` does not fail. A failing `pipe` ends a run. -/
def Forks : Turn → Prop
  | .run _ => True
  | .forkFails _ => False

instance (t : Turn) : Decidable (Forks t) :=
  match t with
  | .run _ => inferInstanceAs (Decidable True)
  | .forkFails _ => inferInstanceAs (Decidable False)

abbrev CleanlyReached (c : Config) (s : State) : Prop :=
  Reach (Turns c) (fun _ t => Forks t) start s

def Exited (s : State) (k : ℕ) : Prop := (s.proc k).life ≠ .running

instance (s : State) (k : ℕ) : Decidable (Exited s k) := inferInstanceAs (Decidable (_ ≠ _))

end ListlibSyscalls.SieveMachine
