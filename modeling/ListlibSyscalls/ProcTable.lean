import Mathlib.Logic.Function.Basic
import ListlibSyscalls.StepRuns

/-!
# The process table of the kernel

The table of `proc.c` with the functions that allocate, fork, free and switch
its entries, and the calls of `sysproc.c` that write to an entry. An event is
one section of kernel code that runs under the locks it takes, by any process
on any core, and the order of events is arbitrary. `kfork` is four such
sections, so its caller remembers how far it is; the other calls that write
the table are one section each, and what they do between sections (sleeping,
being preempted, waiting for a lock) is an event of its own. Page tables, open
files and the current directory are not kept: whether memory is left for them
is part of the event. NPROC is the parameter `n`.
-/

set_option autoImplicit false

namespace ListlibSyscalls.ProcTable

inductive Procstate where
  | unused
  | used
  | sleeping
  | runnable
  | running
  | zombie
  deriving DecidableEq

/-- A sleep channel: the address of a table entry, or any other address. -/
inductive Chan where
  | proc (i : ℕ)
  | other (address : ℕ)
  deriving DecidableEq

/-- How far the kernel thread of a process is in `kfork`: it holds the lock of
the new entry while it copies, then links it to its parent, then starts it. -/
inductive Kfork where
  | idle
  | copying (np : ℕ)
  | linking (np : ℕ)
  | starting (np : ℕ)
  deriving DecidableEq

structure Proc where
  state : Procstate
  chan : Option Chan
  killed : Bool
  xstate : BitVec 32
  pid : BitVec 32
  parent : Option ℕ
  sz : BitVec 64
  name : String
  traceMask : BitVec 64
  kfork : Kfork
  deriving DecidableEq

structure Table where
  proc : ℕ → Proc
  nextpid : BitVec 32

def Table.set (t : Table) (i : ℕ) (p : Proc) : Table :=
  { t with proc := Function.update t.proc i p }

@[simp] theorem set_same (t : Table) (i : ℕ) (p : Proc) : (t.set i p).proc i = p := by
  simp [Table.set]

theorem set_other (t : Table) (i k : ℕ) (p : Proc) (h : k ≠ i) :
    (t.set i p).proc k = t.proc k := by
  simp [Table.set,h]

theorem set_proc (t : Table) (i k : ℕ) (p : Proc) :
    (t.set i p).proc k = if k = i then p else t.proc k := by
  simp [Table.set,Function.update_apply]

/-- `(int)` of a register, as `argint` stores it. -/
def argint (a : BitVec 64) : BitVec 32 := a.setWidth 32

/-- An int assigned to a `uint64`. -/
def ofInt (v : BitVec 32) : BitVec 64 := v.signExtend 64

/-- Every field that `freeproc` resets; the trace mask is not one of them. -/
def freeproc (p : Proc) : Proc :=
  { p with
    sz := 0
    pid := 0
    parent := none
    name := ""
    chan := none
    killed := false
    xstate := 0
    state := .unused }

def scan (n : ℕ) (t : Table) (test : Proc → Bool) : Option ℕ :=
  (List.range n).find? fun i => test (t.proc i)

/-- The new entry, or none with the table as it is left. `memory` says whether
the trapframe page and the page table could both be allocated: either failure
frees the entry again, after its pid has been drawn. -/
def allocproc (n : ℕ) (t : Table) (memory : Bool) : Table × Option ℕ :=
  match scan n t fun p => p.state = .unused with
  | none => (t,none)
  | some np =>
    let p := { t.proc np with pid := t.nextpid, state := .used }
    let t := { t with nextpid := t.nextpid + 1 }
    if memory then
      -- The cleared context: the entry gets a kernel thread that starts at forkret.
      (t.set np { p with kfork := .idle },some np)
    else
      (t.set np (freeproc p),none)

def zeroed : Table where
  proc _ := ⟨.unused,none,false,0,0,none,0,"",0,.idle⟩
  nextpid := 1

def initproc : ℕ := 0

def userinit (n : ℕ) (t : Table) : Option Table :=
  match allocproc n t true with
  | (t,some p) => some (t.set p { t.proc p with state := .runnable })
  | (_,none) => none

def kforkAlloc (n : ℕ) (t : Table) (i : ℕ) (memory : Bool) : Table :=
  match allocproc n t memory with
  | (t,none) => t
  | (t,some np) => t.set i { t.proc i with kfork := .copying np }

/-- Second section of `kfork`, up to the release of the new entry's lock.
`memory` is the verdict of `uvmcopy`. -/
def kforkCopy (t : Table) (i np : ℕ) (memory : Bool) : Table :=
  if memory then
    let p := t.proc i
    let t := t.set np
      { t.proc np with
        sz := p.sz
        name := p.name
        traceMask := p.traceMask }
    t.set i { t.proc i with kfork := .linking np }
  else
    let t := t.set np (freeproc (t.proc np))
    t.set i { t.proc i with kfork := .idle }

def kforkLink (t : Table) (i np : ℕ) : Table :=
  let t := t.set np { t.proc np with parent := some i }
  t.set i { t.proc i with kfork := .starting np }

/-- Last section of `kfork`; its value is the pid drawn for the child. -/
def kforkStart (t : Table) (i np : ℕ) : Table × BitVec 32 :=
  let pid := (t.proc np).pid
  let t := t.set np { t.proc np with state := .runnable }
  (t.set i { t.proc i with kfork := .idle },pid)

/-- `me` is `myproc()`, null on a core that runs no process. -/
def wakeup (n : ℕ) (t : Table) (me : Option ℕ) (chan : Option Chan) : Table :=
  { t with
    proc := fun k =>
      let p := t.proc k
      if k < n ∧ some k ≠ me ∧ p.state = .sleeping ∧ p.chan = chan then
        { p with state := .runnable }
      else p }

def reparent (n : ℕ) (t : Table) (i : ℕ) : Table :=
  (List.range n).foldl (fun t k =>
    if (t.proc k).parent = some i then
      wakeup n (t.set k { t.proc k with parent := some initproc }) (some i)
        (some (.proc initproc))
    else t) t

/-- `kexit` from where it takes `wait_lock`. -/
def kexit (n : ℕ) (t : Table) (i : ℕ) (status : BitVec 32) : Table :=
  let t := reparent n t i
  let t := wakeup n t (some i) ((t.proc i).parent.map .proc)
  t.set i { t.proc i with xstate := status, state := .zombie }

/-- One round of the loop of `kwait`: the value to return, or none when the
caller goes to sleep on its own entry. `copied` is false when an address was
given and `copyout` to it failed. -/
def kwait (n : ℕ) (t : Table) (i : ℕ) (copied : Bool) : Table × Option (BitVec 32) :=
  match scan n t fun p => p.parent = some i ∧ p.state = .zombie with
  | some pp =>
    if copied then (t.set pp (freeproc (t.proc pp)),some (t.proc pp).pid)
    else (t,some (-1))
  | none =>
    if (scan n t fun p => p.parent = some i).isNone ∨ (t.proc i).killed then (t,some (-1))
    else (t.set i { t.proc i with chan := some (.proc i), state := .sleeping },none)

def kkill (n : ℕ) (t : Table) (pid : BitVec 32) : Table × BitVec 32 :=
  match scan n t fun p => p.pid = pid with
  | some k =>
    let p := t.proc k
    (t.set k
      { p with
        killed := true
        state := if p.state = .sleeping then .runnable else p.state },0)
  | none => (t,-1)

def setkilled (t : Table) (i : ℕ) : Table :=
  t.set i { t.proc i with killed := true }

def growproc (p : Proc) (n : BitVec 32) (memory : Bool) : Option Proc :=
  let newsz := p.sz + ofInt n
  if 0 < n.toInt then
    if newsz < p.sz then some p
    else if memory then some { p with sz := newsz } else none
  else if n.toInt < 0 then
    some { p with sz := if p.sz ≤ newsz then p.sz else newsz }
  else some p

def sysSbrk (t : Table) (i : ℕ) (n : BitVec 32) (eager memory : Bool) : Table × BitVec 64 :=
  let p := t.proc i
  if eager ∨ n.toInt < 0 then
    match growproc p n memory with
    | some q => (t.set i q,p.sz)
    | none => (t,-1)
  else if p.sz + ofInt n < p.sz then (t,-1)
  else (t.set i { p with sz := p.sz + ofInt n },p.sz)

/-- The commit point of `kexec`: the name and size of the loaded image, or
none when the call fails before it. -/
def kexec (t : Table) (i : ℕ) (image : Option (String × BitVec 64)) : Table :=
  match image with
  | some (name,sz) => t.set i { t.proc i with name := name, sz := sz }
  | none => t

def sysTrace (t : Table) (i : ℕ) (a0 : BitVec 64) : Table × BitVec 64 :=
  (t.set i { t.proc i with traceMask := ofInt (argint a0) },0)

def yield (t : Table) (i : ℕ) : Table :=
  t.set i { t.proc i with state := .runnable }

def sleep (t : Table) (i : ℕ) (chan : Chan) : Table :=
  t.set i { t.proc i with chan := some chan, state := .sleeping }

/-- The scheduler picks the entry; the process resumes with its lock held and,
in `sleep`, clears its channel. -/
def schedule (t : Table) (i : ℕ) : Table :=
  t.set i { t.proc i with state := .running, chan := none }

inductive Event where
  | fork (i : ℕ) (memory : Bool)
  | copy (i : ℕ) (memory : Bool)
  | link (i : ℕ)
  | start (i : ℕ)
  | exit (i : ℕ) (status : BitVec 32)
  | wait (i : ℕ) (copied : Bool)
  | exec (i : ℕ) (image : Option (String × BitVec 64))
  | trace (i : ℕ) (a0 : BitVec 64)
  | sbrk (i : ℕ) (n : BitVec 32) (eager memory : Bool)
  | kill (i : ℕ) (pid : BitVec 32)
  | fault (i : ℕ)
  | other (i : ℕ)
  | sleep (i : ℕ) (chan : Chan)
  | wakeup (me : Option ℕ) (chan : Chan)
  | yield (i : ℕ)
  | schedule (i : ℕ)
  deriving DecidableEq

def Table.Calls (t : Table) (i : ℕ) : Prop :=
  (t.proc i).state = .running ∧ (t.proc i).kfork = .idle

instance (t : Table) (i : ℕ) : Decidable (t.Calls i) :=
  inferInstanceAs (Decidable (_ ∧ _))

def call (t : Table) (i : ℕ) (r : Table) : Except Unit Table :=
  if t.Calls i then .ok r else .error ()

def step (n : ℕ) (t : Table) : Event → Except Unit Table
  | .fork i memory => call t i (kforkAlloc n t i memory)
  | .copy i memory =>
    match (t.proc i).state,(t.proc i).kfork with
    | .running,.copying np => .ok (kforkCopy t i np memory)
    | _,_ => .error ()
  | .link i =>
    match (t.proc i).state,(t.proc i).kfork with
    | .running,.linking np => .ok (kforkLink t i np)
    | _,_ => .error ()
  | .start i =>
    match (t.proc i).state,(t.proc i).kfork with
    | .running,.starting np => .ok (kforkStart t i np).1
    | _,_ => .error ()
  | .exit i status => if i = initproc then .error () else call t i (kexit n t i status)
  | .wait i copied => call t i (kwait n t i copied).1
  | .exec i image => call t i (kexec t i image)
  | .trace i a0 => call t i (sysTrace t i a0).1
  | .sbrk i m eager memory => call t i (sysSbrk t i m eager memory).1
  | .kill i pid => call t i (kkill n t pid).1
  | .fault i => call t i (setkilled t i)
  | .other i => call t i t
  | .sleep i chan => call t i (sleep t i chan)
  | .wakeup me chan => .ok (wakeup n t me (some chan))
  | .yield i =>
    match (t.proc i).state,(t.proc i).kfork with
    | .running,.copying _ => .error ()
    | .running,_ => .ok (yield t i)
    | _,_ => .error ()
  | .schedule i => if (t.proc i).state = .runnable then .ok (schedule t i) else .error ()

def boot : Table where
  proc k := if k = initproc then ⟨.runnable,none,false,0,1,none,0,"",0,.idle⟩ else zeroed.proc k
  nextpid := 2

theorem userinit_zeroed (n : ℕ) : userinit (n + 1) zeroed = some boot := by
  have hs : scan (n + 1) zeroed (fun p => p.state = .unused) = some initproc := by
    rw [scan,List.range_succ_eq_map,List.find?_cons]
    rfl
  simp only [userinit,allocproc,hs,if_true,Table.set,boot]
  congr 2
  funext k
  by_cases hk : k = initproc
  · subst hk
    simp [zeroed]
  · simp [hk]

end ListlibSyscalls.ProcTable
