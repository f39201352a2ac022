import ListlibSyscalls.LinkedRing
import ListlibSyscalls.StepRuns

/-!
# The buffer cache

`bio.c`: `NBUF` buffers in a ring of links through `bcache.head`, which is the
position `NBUF`. A use of a block goes from `bread` to `brelse` and is one holder
of a reference; the parts of these functions between two points where another
process may come in are steps. The sections under `bcache.lock` are one step
each, as are `acquiresleep`, the read of an invalid buffer and `releasesleep`.
A holder of the buffer changes its data, writes it, pins and unpins it.

`virtio_disk_rw` takes the block number only. `pins` counts the calls of `bpin`
that have not been undone, and a use remembers the block it asked for; the code
reads neither.
-/

set_option autoImplicit false

namespace ListlibSyscalls.BufMachine
open StepRuns LinkedRing

abbrev MAXOPBLOCKS : ℕ := 10
abbrev NBUF : ℕ := MAXOPBLOCKS*3
abbrev head : ℕ := NBUF

abbrev ROOTDEV : ℕ := 1

structure Key where
  dev : ℕ
  blockno : ℕ
  deriving DecidableEq

/-- A `struct buf` without its links; `lock` has the use that holds it. -/
structure Buf (ι δ : Type) where
  valid : Bool
  key : Key
  lock : Option ι
  refcnt : ℕ
  data : δ

/-- Where a use has arrived: nowhere yet, in `acquiresleep`, before the check of
`valid`, with `bread` returned, or in `brelse` after `releasesleep`. -/
inductive Use where
  | idle
  | waiting (b : ℕ) (k : Key)
  | locked (b : ℕ) (k : Key)
  | holding (b : ℕ) (k : Key)
  | leaving (b : ℕ) (k : Key)
  deriving DecidableEq

structure State (ι δ : Type) where
  buf : ℕ → Buf ι δ
  next : ℕ → ℕ
  prev : ℕ → ℕ
  disk : ℕ → δ
  use : ι → Use
  pins : ℕ → ℕ

inductive Panic where
  | noBuffers
  | bwrite
  | brelse
  deriving DecidableEq

def Panic.text : Panic → String
  | .noBuffers => "bget: no buffers"
  | .bwrite => "bwrite"
  | .brelse => "brelse"

inductive Refused where
  | sleeps
  | panics (p : Panic)
  | diverges
  | nothing
  deriving DecidableEq

inductive Label (ι δ : Type) where
  | bget (i : ι) (k : Key)
  | acquire (i : ι)
  | fill (i : ι)
  | store (i : ι) (k : Key) (d : δ)
  | bwrite (i : ι)
  | bpin (i : ι)
  | bunpin (i : ι)
  | release (i : ι)
  | unref (i : ι)

section Machine

variable {ι δ : Type} [DecidableEq ι]

def State.setBuf (s : State ι δ) (b : ℕ) (x : Buf ι δ) : State ι δ :=
  { s with buf := Function.update s.buf b x }

def State.setUse (s : State ι δ) (i : ι) (u : Use) : State ι δ :=
  { s with use := Function.update s.use i u }

/-- The section of `bget` under `bcache.lock`. -/
def bget (s : State ι δ) (i : ι) (k : Key) : Except Refused (State ι δ) :=
  match seek s.next head (fun b => decide ((s.buf b).key = k)) (NBUF+1) (s.next head) with
  | none => .error .diverges
  | some (some b) =>
    .ok ((s.setBuf b { s.buf b with refcnt := (s.buf b).refcnt+1 }).setUse i (.waiting b k))
  | some none =>
    match seek s.prev head (fun b => decide ((s.buf b).refcnt = 0)) (NBUF+1) (s.prev head) with
    | none => .error .diverges
    | some (some b) =>
      .ok ((s.setBuf b { s.buf b with key := k,valid := false,refcnt := 1 }).setUse i
        (.waiting b k))
    | some none => .error (.panics .noBuffers)

def linkFront (s : State ι δ) (b : ℕ) : State ι δ :=
  { s with next := Function.update (Function.update s.next b (s.next head)) head b,
           prev := Function.update (Function.update s.prev b head) (s.next head) b }

def moveFront (s : State ι δ) (b : ℕ) : State ι δ :=
  linkFront { s with next := Function.update s.next (s.prev b) (s.next b),
                     prev := Function.update s.prev (s.next b) (s.prev b) } b

/-- The section of `brelse` under `bcache.lock`. -/
def unref (s : State ι δ) (b : ℕ) : State ι δ :=
  let s := s.setBuf b { s.buf b with refcnt := (s.buf b).refcnt-1 }
  if (s.buf b).refcnt = 0 then moveFront s b else s

def step (s : State ι δ) : Label ι δ → Except Refused (State ι δ)
  | .bget i k =>
    match s.use i with
    | .idle => bget s i k
    | _ => .error .nothing
  | .acquire i =>
    match s.use i with
    | .waiting b k =>
      if (s.buf b).lock.isSome then .error .sleeps
      else .ok ((s.setBuf b { s.buf b with lock := some i }).setUse i (.locked b k))
    | _ => .error .nothing
  | .fill i =>
    match s.use i with
    | .locked b k =>
      .ok ((if (s.buf b).valid then s
        else s.setBuf b { s.buf b with data := s.disk (s.buf b).key.blockno,valid := true }).setUse i
          (.holding b k))
    | _ => .error .nothing
  | .store i k d =>
    match s.use i with
    | .holding b k' => if k' = k then .ok (s.setBuf b { s.buf b with data := d }) else .error .nothing
    | _ => .error .nothing
  | .bwrite i =>
    match s.use i with
    | .holding b _ =>
      if (s.buf b).lock = some i then
        .ok { s with disk := Function.update s.disk (s.buf b).key.blockno (s.buf b).data }
      else .error (.panics .bwrite)
    | _ => .error .nothing
  | .bpin i =>
    match s.use i with
    | .holding b _ =>
      .ok { s.setBuf b { s.buf b with refcnt := (s.buf b).refcnt+1 } with
        pins := Function.update s.pins b (s.pins b+1) }
    | _ => .error .nothing
  | .bunpin i =>
    match s.use i with
    | .holding b _ =>
      .ok { s.setBuf b { s.buf b with refcnt := (s.buf b).refcnt-1 } with
        pins := Function.update s.pins b (s.pins b-1) }
    | _ => .error .nothing
  | .release i =>
    match s.use i with
    | .holding b k =>
      if (s.buf b).lock = some i then
        .ok ((s.setBuf b { s.buf b with lock := none }).setUse i (.leaving b k))
      else .error (.panics .brelse)
    | _ => .error .nothing
  | .unref i =>
    match s.use i with
    | .leaving b _ => .ok ((unref s b).setUse i .idle)
    | _ => .error .nothing

def linkAll (s : State ι δ) : ℕ → State ι δ
  | 0 => s
  | n+1 => linkFront (linkAll s n) n

def binit (zero : δ) (disk : ℕ → δ) : State ι δ :=
  linkAll ⟨fun _ => ⟨false,⟨0,0⟩,none,0,zero⟩,fun _ => head,fun _ => head,disk,fun _ => .idle,
    fun _ => 0⟩ NBUF

def held : Use → Option ℕ
  | .holding b _ => some b
  | _ => none

def Paired (s : State ι δ) : Label ι δ → Prop
  | .bunpin i => ∀ b ∈ held (s.use i), 0 < s.pins b
  | _ => True

/-- How the file system uses the cache: blocks of the root device only, and a
changed buffer is written or pinned before it is released. -/
def Careful (s : State ι δ) : Label ι δ → Prop
  | .bget _ k => k.dev = ROOTDEV
  | .bunpin i => ∀ b ∈ held (s.use i), 0 < s.pins b
  | .release i => ∀ b ∈ held (s.use i),
      0 < s.pins b ∨ (s.buf b).data = s.disk (s.buf b).key.blockno
  | _ => True

instance (s : State ι δ) : (l : Label ι δ) → Decidable (Paired s l)
  | .bunpin i => inferInstanceAs (Decidable (∀ b ∈ held (s.use i), 0 < s.pins b))
  | .bget _ _ => isTrue trivial
  | .acquire _ => isTrue trivial
  | .fill _ => isTrue trivial
  | .store _ _ _ => isTrue trivial
  | .bwrite _ => isTrue trivial
  | .bpin _ => isTrue trivial
  | .release _ => isTrue trivial
  | .unref _ => isTrue trivial

instance [DecidableEq δ] (s : State ι δ) : (l : Label ι δ) → Decidable (Careful s l)
  | .bget _ k => inferInstanceAs (Decidable (k.dev = ROOTDEV))
  | .bunpin i => inferInstanceAs (Decidable (∀ b ∈ held (s.use i), 0 < s.pins b))
  | .release i => inferInstanceAs (Decidable (∀ b ∈ held (s.use i),
      0 < s.pins b ∨ (s.buf b).data = s.disk (s.buf b).key.blockno))
  | .acquire _ => isTrue trivial
  | .fill _ => isTrue trivial
  | .store _ _ _ => isTrue trivial
  | .bwrite _ => isTrue trivial
  | .bpin _ => isTrue trivial
  | .unref _ => isTrue trivial

abbrev Steps : State ι δ → Label ι δ → State ι δ → Prop := Accepts step

abbrev Reached (zero : δ) (disk : ℕ → δ) (s : State ι δ) : Prop :=
  Reach Steps Paired (binit zero disk) s

end Machine

end ListlibSyscalls.BufMachine
