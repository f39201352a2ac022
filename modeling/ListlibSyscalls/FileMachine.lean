import ListlibSyscalls.StepRuns
import ListlibSyscalls.DescriptorTable
import Mathlib.Logic.Function.Basic
import Mathlib.Data.List.FinRange

/-!
# The file table and the descriptors

`file.c` with the parts of `sysfile.c`, `pipe.c` and `proc.c` that hand references
around: `sys_dup`, `sys_close`, `sys_pipe`, the end of `sys_open`, the loops over
`ofile` in `kfork` and `kexit`. A step goes from one point where other processes may
come in to the next. These are the sections under `ftable.lock` and under the lock
of a pipe; what a process does to its own descriptors in between belongs to one of
them. `fileclose` frees the last reference first and closes the pipe, or puts the
inode, later, from its copy `ff`.

`iref` counts the references to inodes that files keep. The one of `namei` that an
`open` without success gives back is not counted. The arguments of a step say what
`kalloc` and `copyout` answered.
-/

set_option autoImplicit false

namespace ListlibSyscalls.FileMachine
open StepRuns
open DescriptorTable (NOFILE)

abbrev NFILE : ℕ := 100

abbrev FileId := Fin NFILE
abbrev Fd := Fin NOFILE

/-- What a file is open on: the end of a pipe, or an inode, be it FD_INODE or
FD_DEVICE. -/
inductive Obj where
  | pipe (pi : ℕ) (writable : Bool)
  | inode (ip : ℕ)
  deriving DecidableEq

/-- A `struct file`; no object is FD_NONE. -/
structure File where
  ref : ℕ
  obj : Option Obj
  deriving DecidableEq

structure Pipe where
  readopen : Bool
  writeopen : Bool
  deriving DecidableEq

/-- Where a process has arrived: in user code; in `sys_dup` before `filedup`; with
files to `fileclose` before it returns; in `pipealloc` before the second
`filealloc`; in the loops of `kfork` and of `kexit`. The object is that of the copy
`ff`, still to be closed. -/
inductive Point (π : Type) where
  | user
  | duping (f : FileId)
  | closing (fs : List FileId) (ff : Option Obj)
  | second (rf : FileId)
  | forking (np : π) (i : ℕ)
  | exiting (fd : ℕ) (ff : Option Obj)
  deriving DecidableEq

inductive Life (π : Type) where
  | unused
  | embryo (parent : π)
  | alive
  deriving DecidableEq

structure Proc (π : Type) where
  life : Life π
  ofile : Fd → Option FileId
  point : Point π

structure State (π : Type) where
  file : FileId → File
  pipe : ℕ → Option Pipe
  iref : ℕ → ℕ
  proc : π → Proc π

/-- `fault` is an access to a pipe that has been freed. -/
inductive Refused where
  | panics (text : String)
  | fault
  | nothing
  deriving DecidableEq

inductive Label (π : Type) where
  | sysDup (p : π) (fd : Fd)
  | sysClose (p : π) (fd : Fd)
  | sysOpen (p : π) (ip : ℕ)
  | sysPipe (p : π)
  | kfork (p np : π)
  | kexit (p : π)
  | goOn (p : π) (kalloc : Option ℕ) (copyout : Bool)

section Machine

variable {π : Type}

def fdalloc (ofile : Fd → Option FileId) : Option Fd :=
  (List.finRange NOFILE).find? fun fd => (ofile fd).isNone

def filealloc (s : State π) : Option FileId :=
  (List.finRange NFILE).find? fun f => decide ((s.file f).ref = 0)

def State.setFile (s : State π) (f : FileId) (x : File) : State π :=
  { s with file := Function.update s.file f x }

variable [DecidableEq π]

def State.setProc (s : State π) (p : π) (P : Proc π) : State π :=
  { s with proc := Function.update s.proc p P }

def State.goto (s : State π) (p : π) (pt : Point π) : State π :=
  s.setProc p { s.proc p with point := pt }

def filedup (s : State π) (f : FileId) : Except Refused (State π) :=
  if (s.file f).ref < 1 then .error (.panics "filedup")
  else .ok (s.setFile f { s.file f with ref := (s.file f).ref+1 })

/-- The section of `fileclose` under `ftable.lock`, with the object of `ff`. -/
def fileclose (s : State π) (f : FileId) : Except Refused (State π × Option Obj) :=
  if (s.file f).ref < 1 then .error (.panics "fileclose")
  else if 0 < (s.file f).ref-1 then
    .ok (s.setFile f { s.file f with ref := (s.file f).ref-1 },none)
  else .ok (s.setFile f ⟨0,none⟩,(s.file f).obj)

def pipeclose (s : State π) (pi : ℕ) (writable : Bool) : Except Refused (State π) :=
  match s.pipe pi with
  | none => .error .fault
  | some e =>
    let e : Pipe := if writable then { e with writeopen := false } else { e with readopen := false }
    let left := if e.readopen = false ∧ e.writeopen = false then none else some e
    .ok { s with pipe := Function.update s.pipe pi left }

def finish (s : State π) : Obj → Except Refused (State π)
  | .pipe pi writable => pipeclose s pi writable
  | .inode ip => .ok { s with iref := Function.update s.iref ip (s.iref ip-1) }

/-- `pipealloc` from the second `filealloc` on, and the rest of `sys_pipe`. -/
def pipeRest (s : State π) (p : π) (rf : FileId) (kalloc : Option ℕ) (copyout : Bool) : State π :=
  match filealloc s with
  | none => s.goto p (.closing [rf] none)
  | some wf =>
    match kalloc with
    | none => (s.setFile wf ⟨1,none⟩).goto p (.closing [rf,wf] none)
    | some pi =>
      let s := (s.setFile rf { s.file rf with obj := some (.pipe pi false) }).setFile wf
        ⟨1,some (.pipe pi true)⟩
      let s := { s with pipe := Function.update s.pipe pi (some ⟨true,true⟩) }
      let P := s.proc p
      match fdalloc P.ofile with
      | none => s.goto p (.closing [rf,wf] none)
      | some fd0 =>
        match fdalloc (Function.update P.ofile fd0 (some rf)) with
        | none => s.goto p (.closing [rf,wf] none)
        | some fd1 =>
          if copyout then
            s.setProc p ⟨P.life,Function.update (Function.update P.ofile fd0 (some rf)) fd1
              (some wf),.user⟩
          else s.goto p (.closing [rf,wf] none)

def goOn (s : State π) (p : π) (kalloc : Option ℕ) (copyout : Bool) : Except Refused (State π) :=
  match (s.proc p).point with
  | .user => .error .nothing
  | .duping f => do
    let s ← filedup s f
    .ok (s.goto p .user)
  | .closing fs (some o) => do
    let s ← finish s o
    .ok (s.goto p (.closing fs none))
  | .closing [] none => .ok (s.goto p .user)
  | .closing (f::fs) none => do
    let (s,ff) ← fileclose s f
    .ok (s.goto p (.closing fs ff))
  | .second rf => .ok (pipeRest s p rf kalloc copyout)
  | .forking np i =>
    if hi : i < NOFILE then
      match (s.proc p).ofile ⟨i,hi⟩ with
      | none => .ok (s.goto p (.forking np (i+1)))
      | some f => do
        let s ← filedup s f
        let child := s.proc np
        let s := s.setProc np { child with ofile := Function.update child.ofile ⟨i,hi⟩ (some f) }
        .ok (s.goto p (.forking np (i+1)))
    else .ok ((s.setProc np { s.proc np with life := .alive }).goto p .user)
  | .exiting fd (some o) => do
    let s ← finish s o
    .ok (s.goto p (.exiting fd none))
  | .exiting fd none =>
    if hi : fd < NOFILE then
      match (s.proc p).ofile ⟨fd,hi⟩ with
      | none => .ok (s.goto p (.exiting (fd+1) none))
      | some f => do
        let (s,ff) ← fileclose s f
        let P := s.proc p
        .ok (s.setProc p ⟨P.life,Function.update P.ofile ⟨fd,hi⟩ none,.exiting (fd+1) ff⟩)
    else .ok (s.setProc p { s.proc p with life := .unused,point := .user })

def Calling (s : State π) (p : π) : Prop := (s.proc p).life = .alive ∧ (s.proc p).point = .user

instance (s : State π) (p : π) : Decidable (Calling s p) := inferInstanceAs (Decidable (_ ∧ _))

/-- A call that returns -1 at once leaves everything as it is. -/
def step (s : State π) : Label π → Except Refused (State π)
  | .sysDup p fd =>
    if Calling s p then
      match (s.proc p).ofile fd, fdalloc (s.proc p).ofile with
      | some f, some fd' =>
        .ok (s.setProc p ⟨.alive,Function.update (s.proc p).ofile fd' (some f),.duping f⟩)
      | _, _ => .ok s
    else .error .nothing
  | .sysClose p fd =>
    if Calling s p then
      match (s.proc p).ofile fd with
      | some f =>
        .ok (s.setProc p ⟨.alive,Function.update (s.proc p).ofile fd none,.closing [f] none⟩)
      | none => .ok s
    else .error .nothing
  | .sysOpen p ip =>
    if Calling s p then
      match filealloc s with
      | none => .ok s
      | some f =>
        match fdalloc (s.proc p).ofile with
        | none => .ok ((s.setFile f ⟨1,none⟩).goto p (.closing [f] none))
        | some fd =>
          .ok ({ s.setFile f ⟨1,some (.inode ip)⟩ with
              iref := Function.update s.iref ip (s.iref ip+1) }.setProc p
            ⟨.alive,Function.update (s.proc p).ofile fd (some f),.user⟩)
    else .error .nothing
  | .sysPipe p =>
    if Calling s p then
      match filealloc s with
      | none => .ok s
      | some rf => .ok ((s.setFile rf ⟨1,none⟩).goto p (.second rf))
    else .error .nothing
  | .kfork p np =>
    if Calling s p ∧ (s.proc np).life = .unused then
      .ok ((s.setProc np { s.proc np with life := .embryo p }).goto p (.forking np 0))
    else .error .nothing
  | .kexit p =>
    if Calling s p then .ok (s.goto p (.exiting 0 none)) else .error .nothing
  | .goOn p kalloc copyout => goOn s p kalloc copyout

/-- `kalloc` returns a page that nobody uses. -/
def Offered (s : State π) : Label π → Prop
  | .goOn _ (some pi) _ => s.pipe pi = none
  | _ => True

instance (s : State π) : (l : Label π) → Decidable (Offered s l)
  | .goOn _ (some pi) _ => inferInstanceAs (Decidable (s.pipe pi = none))
  | .goOn _ none _ | .sysDup .. | .sysClose .. | .sysOpen .. | .sysPipe _ | .kfork .. | .kexit _ =>
    .isTrue trivial

abbrev Steps : State π → Label π → State π → Prop := Accepts step

def boot (init : π) : State π where
  file := fun _ => ⟨0,none⟩
  pipe := fun _ => none
  iref := fun _ => 0
  proc := fun p => ⟨if p = init then .alive else .unused,fun _ => none,.user⟩

abbrev Reached (init : π) (s : State π) : Prop := Reach Steps Offered (boot init) s

end Machine

end ListlibSyscalls.FileMachine
