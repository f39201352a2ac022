import Mathlib.Data.Int.Notation
import ListlibSyscalls.ProcTable

/-!
# The system call dispatcher

`syscall()` of `syscall.c` over many processes. A call of it is followed in
sections: the entry, which looks the number up, then any number of sections of
the handler, the last of which hands back a value that `syscall` stores and
reports. Between two sections of one process the others take any turns they
can. The handlers other than `sys_trace`, the user programs and what interrupts
do are parameters: they see and change the state of the kernel without the
trace masks and the console, and a handler that never returns has no last
section. Of `kfork` the copy of the mask and the start of the child outside
the dispatcher are kept, and the rest is a parameter too.
-/

set_option autoImplicit false

namespace ListlibSyscalls.SyscallDispatch
open ProcTable

inductive Sys where
  | fork
  | exit
  | wait
  | pipe
  | read
  | kill
  | exec
  | fstat
  | chdir
  | dup
  | getpid
  | sbrk
  | pause
  | uptime
  | open
  | write
  | mknod
  | unlink
  | link
  | mkdir
  | close
  | trace
  deriving DecidableEq

/-- The handlers by number; no call has the number 0. -/
def syscalls : List (Option Sys) :=
  [none,some .fork,some .exit,some .wait,some .pipe,some .read,some .kill,some .exec,
    some .fstat,some .chdir,some .dup,some .getpid,some .sbrk,some .pause,some .uptime,
    some .open,some .write,some .mknod,some .unlink,some .link,some .mkdir,some .close,
    some .trace]

def syscallNames : List (Option String) :=
  [none,some "fork",some "exit",some "wait",some "pipe",some "read",some "kill",some "exec",
    some "fstat",some "chdir",some "dup",some "getpid",some "sbrk",some "pause",some "uptime",
    some "open",some "write",some "mknod",some "unlink",some "link",some "mkdir",some "close",
    some "trace"]

structure Task where
  a0 : BitVec 64
  a7 : BitVec 64
  pid : BitVec 32
  name : String

/-- The kernel's state without the trace masks and the console. -/
structure Rest (σ : Type*) where
  task : ℕ → Task
  other : σ

inductive Source where
  | trace (i : ℕ)
  | unknown (i : ℕ)
  | other
  deriving DecidableEq

/-- A line on the console with the statement that printed it. -/
structure Line where
  source : Source
  text : String
  deriving DecidableEq

/-- What a section of a handler does: the state and the console output after
it, the value it returns if it is the last, and the entry of the child if it
is the section of `kfork` that copies the mask. -/
structure Outcome (σ : Type*) where
  rest : Rest σ
  output : List String
  ret : Option (BitVec 64)
  child : Option ℕ

/-- The parameters. `ω` is what a section depends on beside the state. -/
structure Kernel (σ ω : Type*) where
  handler : Sys → ℕ → ω → Rest σ → Outcome σ
  user : ℕ → ω → Rest σ → Rest σ
  interrupt : ω → Rest σ → Rest σ × List String

/-- `inside` has the value that a7 had when the process entered `syscall`, and
none for a process that is not in it. -/
structure Machine (σ : Type*) where
  rest : Rest σ
  mask : ℕ → BitVec 64
  inside : ℕ → Option (BitVec 64)
  console : List Line

variable {σ ω : Type*}

/-- `int num = p->trapframe->a7`. -/
def numOf (a7 : BitVec 64) : ℤ := (a7.setWidth 32).toInt

/-- `num > 0 && num < NELEM(syscalls) && syscalls[num]`. -/
def handlerOf (num : ℤ) : Option Sys :=
  if 0 < num ∧ num < syscalls.length then syscalls[num.toNat]?.join else none

/-- `num < NELEM(syscall_names) && syscall_names[num]`, for positive numbers. -/
def nameOf (num : ℤ) : Option String :=
  if num < syscallNames.length then syscallNames[num.toNat]?.join else none

def setA0 (r : Rest σ) (i : ℕ) (v : BitVec 64) : Rest σ :=
  { r with task := Function.update r.task i { r.task i with a0 := v } }

def print (m : Machine σ) (source : Source) (texts : List String) : Machine σ :=
  { m with console := m.console ++ texts.map fun text => ⟨source,text⟩ }

def traceText (pid : BitVec 32) (name : String) (ret : BitVec 64) : String :=
  toString pid.toInt ++ ": syscall " ++ name ++ " -> " ++ toString (ret.setWidth 32).toInt ++ "\n"

def unknownText (pid : BitVec 32) (name : String) (num : ℤ) : String :=
  toString pid.toInt ++ " " ++ name ++ ": unknown sys call " ++ toString num ++ "\n"

/-- The test of the trace mask: `1 << num` is an int, and is converted. -/
def tested (mask : BitVec 64) (num : ℤ) : Bool :=
  mask &&& ofInt (1#32 <<< num.toNat) ≠ 0

/-- Up to the call of the handler, or the whole call when there is none. -/
def enter (m : Machine σ) (i : ℕ) : Machine σ :=
  let p := m.rest.task i
  match handlerOf (numOf p.a7) with
  | some _ => { m with inside := Function.update m.inside i (some p.a7) }
  | none =>
    print { m with rest := setA0 m.rest i (-1) } (.unknown i)
      [unknownText p.pid p.name (numOf p.a7)]

def sysTrace (m : Machine σ) (i : ℕ) : Machine σ × Option (BitVec 64) :=
  ({ m with mask := Function.update m.mask i (ofInt (argint (m.rest.task i).a0)) },some 0)

/-- `np->trace_mask = p->trace_mask` of `kfork`. The child's kernel thread
starts at forkret, outside of `syscall`. -/
def kforkMask (m : Machine σ) (i np : ℕ) : Machine σ :=
  { m with
    mask := Function.update m.mask np (m.mask i)
    inside := Function.update m.inside np none }

def callHandler (K : Kernel σ ω) (m : Machine σ) (i : ℕ) (w : ω) (sys : Sys) :
    Machine σ × Option (BitVec 64) :=
  if sys = .trace then sysTrace m i
  else
    let o := K.handler sys i w m.rest
    let m := print { m with rest := o.rest } .other o.output
    match sys,o.child with
    | .fork,some np => (kforkMask m i np,o.ret)
    | _,_ => (m,o.ret)

def finish (m : Machine σ) (i : ℕ) (num : ℤ) (ret : BitVec 64) : Machine σ :=
  let m :=
    { m with
      rest := setA0 m.rest i ret
      inside := Function.update m.inside i none }
  if tested (m.mask i) num then
    match nameOf num with
    | some name => print m (.trace i) [traceText (m.rest.task i).pid name ret]
    | none => print m (.trace i) [traceText (m.rest.task i).pid (toString num) ret]
  else m

inductive Turn (ω : Type*) where
  | user (i : ℕ) (w : ω)
  | enter (i : ℕ)
  | handle (i : ℕ) (w : ω)
  | interrupt (w : ω)

/-- A turn is refused to a process that is not where the turn starts. `hold` is
done to the state at the end of every section of a handler. -/
def stepWith (hold : Machine σ → Machine σ) (K : Kernel σ ω) (m : Machine σ) :
    Turn ω → Except Unit (Machine σ)
  | .user i w =>
    match m.inside i with
    | none => .ok { m with rest := K.user i w m.rest }
    | some _ => .error ()
  | .enter i =>
    match m.inside i with
    | none => .ok (enter m i)
    | some _ => .error ()
  | .handle i w =>
    match m.inside i with
    | none => .error ()
    | some a7 =>
      match handlerOf (numOf a7) with
      | none => .error ()
      | some sys =>
        match callHandler K m i w sys with
        | (m,some ret) => .ok (finish (hold m) i (numOf a7) ret)
        | (m,none) => .ok (hold m)
  | .interrupt w =>
    let o := K.interrupt w m.rest
    .ok (print { m with rest := o.1 } .other o.2)

def step (K : Kernel σ ω) : Machine σ → Turn ω → Except Unit (Machine σ) := stepWith id K

def clearMasks (m : Machine σ) : Machine σ := { m with mask := fun _ => 0 }

/-- The same dispatcher with all masks held at zero: what `sys_trace` and
`kfork` store is gone before `syscall` looks at it. -/
def unmaskedStep (K : Kernel σ ω) : Machine σ → Turn ω → Except Unit (Machine σ) :=
  stepWith clearMasks K

def started (r : Rest σ) (mask : ℕ → BitVec 64) : Machine σ := ⟨r,mask,fun _ => none,[]⟩

end ListlibSyscalls.SyscallDispatch
