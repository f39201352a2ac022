import ListlibSyscalls.StepRuns
import ListlibSyscalls.CrashRecovery
import Mathlib.Data.Finset.Card

/-!
# The logging layer of the file system

`log.c` over a disk and a cache of its blocks. A block is an array of words;
read as a `logheader`, word 0 is `n` and the following words are `block[]`. A
disk write is atomic for one block, so every disk write of `commit` and of
`recover_from_log` is a step of its own, and a crash may come between any two
steps: it keeps the disk and nothing else.

The cache returns for a block what was last put there, and reads the disk for a
block it does not have. A block nobody refers to may be recycled at any moment;
the references that outlive a call are those of `bpin`, which `pins` counts.
The number of buffers is left aside: `bread` gets one as long as fewer than NBUF
blocks are referred to, which `Spare` says of the pinned ones, and panics in
`bget` otherwise.
A process that modifies a block holds its buffer from `bread` to `brelse`, and
its operation is outstanding all that time, so this is one step here. `calls`
are the operations under way, each with the blocks it has logged, and nothing in
`log.c` reads them. `start` is the first block of the log, from the superblock.
-/

set_option autoImplicit false

namespace ListlibSyscalls.LogMachine
open StepRuns

abbrev NPROC : ℕ := 64
abbrev MAXOPBLOCKS : ℕ := 10
abbrev LOGBLOCKS : ℕ := MAXOPBLOCKS*3
abbrev NBUF : ℕ := MAXOPBLOCKS*3

abbrev Data := ℕ → ℕ

structure Logheader where
  n : ℕ
  block : ℕ → ℕ

def Logheader.ofData (d : Data) : Logheader := ⟨d 0,fun i => d (i+1)⟩

/-- `n` and the first `n` entries written over the words of a block. -/
def Logheader.store (lh : Logheader) (d : Data) : Data
  | 0 => lh.n
  | i+1 => if i < lh.n then lh.block i else d (i+1)

/-- `n` and the first `n` entries of a block copied into the header in memory. -/
def Logheader.load (lh : Logheader) (d : Data) : Logheader :=
  ⟨d 0,fun i => if i < d 0 then d (i+1) else lh.block i⟩

/-- Where the process in `commit`, or in `recover_from_log`, has arrived. -/
inductive Point where
  | idle
  | commit
  | writeLog (tail : ℕ)
  | writeHead
  | install (recovering : Bool) (tail : ℕ)
  | erase (recovering : Bool)
  | finish
  | readHead
  deriving DecidableEq

structure State where
  disk : ℕ → Data
  cache : ℕ → Option Data
  pins : ℕ → ℕ
  lh : Logheader
  outstanding : ℕ
  committing : Bool
  point : Point
  calls : Fin NPROC → Option (Finset ℕ)

inductive Panic where
  | logCommitting
  | tooBigATransaction
  | outsideOfTrans
  deriving DecidableEq

def Panic.text : Panic → String
  | .logCommitting => "log.committing"
  | .tooBigATransaction => "too big a transaction"
  | .outsideOfTrans => "log_write outside of trans"

/-- Why a step is not taken: the process sleeps on `&log`, the kernel panics,
the file system is not initialized yet, or there is nothing to do. -/
inductive Refused where
  | sleeps
  | panics (p : Panic)
  | booting
  | nothing
  deriving DecidableEq

def State.view (s : State) (b : ℕ) : Data := (s.cache b).getD (s.disk b)

def bread (s : State) (b : ℕ) : State :=
  { s with cache := Function.update s.cache b (some (s.view b)) }

def setData (s : State) (b : ℕ) (d : Data) : State :=
  { s with cache := Function.update s.cache b (some d) }

def bwrite (s : State) (b : ℕ) (d : Data) : State :=
  { s with disk := Function.update s.disk b d,cache := Function.update s.cache b (some d) }

def bpin (s : State) (b : ℕ) : State := { s with pins := Function.update s.pins b (s.pins b+1) }

def bunpin (s : State) (b : ℕ) : State := { s with pins := Function.update s.pins b (s.pins b-1) }

/-- The search of `log_write` for the block, with `k` entries to go from `i`. -/
def slotFrom (lh : Logheader) (b : ℕ) : ℕ → ℕ → ℕ
  | 0, i => i
  | k+1, i => if lh.block i = b then i else slotFrom lh b k (i+1)

def logWrite (s : State) (b : ℕ) : Except Refused State :=
  if LOGBLOCKS ≤ s.lh.n then .error (.panics .tooBigATransaction)
  else if s.outstanding < 1 then .error (.panics .outsideOfTrans)
  else
    let i := slotFrom s.lh b s.lh.n 0
    let block := Function.update s.lh.block i b
    if i = s.lh.n then .ok { bpin s b with lh := ⟨s.lh.n+1,block⟩ }
    else .ok { s with lh := ⟨s.lh.n,block⟩ }

/-- `fsinit` has not returned, so that no process is in the file system. -/
def Point.recovering : Point → Bool
  | .readHead => true
  | .install r _ => r
  | .erase r => r
  | _ => false

def beginOp (s : State) : Except Refused State :=
  if s.committing then .error .sleeps
  else if LOGBLOCKS < s.lh.n+(s.outstanding+1)*MAXOPBLOCKS then .error .sleeps
  else .ok { s with outstanding := s.outstanding+1 }

def endOp (s : State) : Except Refused State :=
  let outstanding := s.outstanding-1
  if s.committing then .error (.panics .logCommitting)
  else if outstanding = 0 then
    .ok { s with outstanding := outstanding,committing := true,point := .commit }
  else .ok { s with outstanding := outstanding }

def writeLog (start : ℕ) (s : State) (tail : ℕ) : State :=
  let s := bread s (start+tail+1)
  let s := bread s (s.lh.block tail)
  bwrite s (start+tail+1) (s.view (s.lh.block tail))

def writeHead (start : ℕ) (s : State) : State :=
  let s := bread s start
  bwrite s start (s.lh.store (s.view start))

def readHead (start : ℕ) (s : State) : State :=
  let s := bread s start
  { s with lh := s.lh.load (s.view start) }

def installTrans (start : ℕ) (recovering : Bool) (s : State) (tail : ℕ) : State :=
  let s := bread s (start+tail+1)
  let s := bread s (s.lh.block tail)
  let s := bwrite s (s.lh.block tail) (s.view (start+tail+1))
  if recovering then s else bunpin s (s.lh.block tail)

def State.goto (s : State) (pt : Point) : State := { s with point := pt }

/-- The next action of `commit`, of the rest of `end_op`, or of
`recover_from_log`. -/
def advance (start : ℕ) (s : State) : Except Refused State :=
  match s.point with
  | .idle => .error .nothing
  | .commit => .ok (s.goto (if 0 < s.lh.n then .writeLog 0 else .finish))
  | .writeLog tail =>
    if tail < s.lh.n then .ok ((writeLog start s tail).goto (.writeLog (tail+1)))
    else .ok (s.goto .writeHead)
  | .writeHead => .ok ((writeHead start s).goto (.install false 0))
  | .install r tail =>
    if tail < s.lh.n then .ok ((installTrans start r s tail).goto (.install r (tail+1)))
    else .ok (s.goto (.erase r))
  | .erase r =>
    .ok ((writeHead start { s with lh := ⟨0,s.lh.block⟩ }).goto (if r then .idle else .finish))
  | .finish => .ok { s with committing := false,point := .idle }
  | .readHead => .ok ((readHead start s).goto (.install true 0))

def boot (disk : ℕ → Data) : State :=
  ⟨disk,fun _ => none,fun _ => 0,⟨0,fun _ => 0⟩,0,false,.readHead,fun _ => none⟩

inductive Label where
  | beginOp (p : Fin NPROC)
  | logWrite (p : Fin NPROC) (b : ℕ) (f : Data → Data)
  | endOp (p : Fin NPROC)
  | advance
  | fetch (b : ℕ)
  | recycle (b : ℕ)
  | crash

def step (start : ℕ) (s : State) : Label → Except Refused State
  | .beginOp p =>
    if s.point.recovering then .error .booting
    else do
      let s ← beginOp s
      .ok { s with calls := Function.update s.calls p (some ∅) }
  | .logWrite p b f => do
    let s := bread s b
    let s ← logWrite (setData s b (f (s.view b))) b
    .ok { s with calls := Function.update s.calls p ((s.calls p).map (insert b)) }
  | .endOp p => do
    let s ← endOp s
    .ok { s with calls := Function.update s.calls p none }
  | .advance => advance start s
  | .fetch b => .ok (bread s b)
  | .recycle b =>
    if s.pins b = 0 then .ok { s with cache := Function.update s.cache b none }
    else .error .nothing
  | .crash => .ok (boot s.disk)

/-- A buffer is left that no pinned block needs. -/
def Spare (s : State) : Prop := ∀ bs : Finset ℕ, (∀ b ∈ bs, 0 < s.pins b) → bs.card < NBUF

def Home (start b : ℕ) : Prop := b < start ∨ start+LOGBLOCKS < b

instance (start b : ℕ) : Decidable (Home start b) := inferInstanceAs (Decidable (_ ∨ _))

/-- What the callers of `log.c` keep to: a process has one operation at a time,
logs blocks of its own operation outside the log only, and at most MAXOPBLOCKS
different ones. -/
def Offered (start : ℕ) (s : State) : Label → Prop
  | .beginOp p => s.calls p = none
  | .logWrite p b _ => ∃ bs, s.calls p = some bs ∧ (insert b bs).card ≤ MAXOPBLOCKS ∧ Home start b
  | .endOp p => (s.calls p).isSome
  | _ => True

instance (start : ℕ) (s : State) : (l : Label) → Decidable (Offered start s l)
  | .beginOp p => inferInstanceAs (Decidable (s.calls p = none))
  | .logWrite p b _ =>
    match h : s.calls p with
    | none => isFalse fun ⟨bs,hbs,_⟩ => by rw [h] at hbs; cases hbs
    | some bs => decidable_of_iff ((insert b bs).card ≤ MAXOPBLOCKS ∧ Home start b)
        ⟨fun hb => ⟨bs,h,hb⟩,fun ⟨cs,hcs,hb⟩ => by rw [h] at hcs; cases hcs; exact hb⟩
  | .endOp p => inferInstanceAs (Decidable ((s.calls p).isSome = true))
  | .advance => isTrue trivial
  | .fetch _ => isTrue trivial
  | .recycle _ => isTrue trivial
  | .crash => isTrue trivial

/-- A header that `log.c` may have left on a disk. -/
structure Sound (start : ℕ) (lh : Logheader) : Prop where
  bound : lh.n ≤ LOGBLOCKS
  home : ∀ i < lh.n, Home start (lh.block i)
  distinct : ∀ i < lh.n, ∀ j < lh.n, lh.block i = lh.block j → i = j

abbrev Steps (start : ℕ) : State → Label → State → Prop := Accepts (step start)

abbrev Reached (start : ℕ) (disk : ℕ → Data) (s : State) : Prop :=
  Reach (Steps start) (Offered start) (boot disk) s

end ListlibSyscalls.LogMachine
