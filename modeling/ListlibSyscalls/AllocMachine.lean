import ListlibSyscalls.StepRuns
import ListlibSyscalls.GappedBlocks
import Mathlib.Logic.Function.Basic

/-!
# The memory allocator of user programs

`umalloc.c` over a memory of headers. Addresses count units of one header, 16
bytes, and `mem` is what each unit holds when it is read as a header. `base` is
the address of the static header of that name; the memory that `sbrk` returns
lies above it. Loops get as much fuel as there are addresses below the break.

A call of `malloc` is given with the reply of the `sbrk` that it may make: the
unit at which the new memory starts, or none for SBRK_ERROR. The argument of
`sbrk` is an int, and requests are kept to those for which it does not overflow;
sizes, in units, then stay far below the range of uint. The program owns the
payload of the blocks it got and may store anything there. The list of blocks
that are handed out is bookkeeping that the allocator does not read.
-/

set_option autoImplicit false

namespace ListlibSyscalls.AllocMachine
open StepRuns GappedBlocks

/-- sizeof(Header). -/
abbrev headerBytes : ℕ := 16

def intMax : ℕ := 2147483647

structure Header where
  ptr : ℕ
  size : ℕ
  deriving DecidableEq

structure Heap where
  mem : ℕ → Header
  freep : Option ℕ

/-- The search of `free` for the block before `bp`. -/
def seek (mem : ℕ → Header) (bp : ℕ) : ℕ → ℕ → Option ℕ
  | 0, _ => none
  | k+1, p =>
    let q := (mem p).ptr
    if p < bp ∧ bp < q then some p
    else if q ≤ p ∧ (p < bp ∨ bp < q) then some p
    else seek mem bp k q

def joinAbove (mem : ℕ → Header) (bp p : ℕ) : ℕ → Header :=
  let next := (mem p).ptr
  if bp+(mem bp).size = next then
    Function.update mem bp ⟨(mem next).ptr,(mem bp).size+(mem next).size⟩
  else Function.update mem bp ⟨next,(mem bp).size⟩

def joinBelow (mem : ℕ → Header) (bp p : ℕ) : ℕ → Header :=
  if p+(mem p).size = bp then
    Function.update mem p ⟨(mem bp).ptr,(mem p).size+(mem bp).size⟩
  else Function.update mem p ⟨bp,(mem p).size⟩

def free (fuel : ℕ) (h : Heap) (ap : ℕ) : Option Heap :=
  let bp := ap-1
  match h.freep with
  | none => none
  | some f =>
    match seek h.mem bp fuel f with
    | none => none
    | some p => some ⟨joinBelow (joinAbove h.mem bp p) bp p,some p⟩

def coreUnits (nunits : ℕ) : ℕ := if nunits < 4096 then 4096 else nunits

def nunits (nbytes : ℕ) : ℕ := (nbytes+headerBytes-1)/headerBytes+1

inductive Scan where
  | found (prevp : ℕ)
  | exhausted
  | lost

/-- The loop of `malloc` from one `prevp` to a block that is large enough, or
round to `freep`. -/
def scan (mem : ℕ → Header) (n freep : ℕ) : ℕ → ℕ → Scan
  | 0, _ => .lost
  | k+1, prevp =>
    let p := (mem prevp).ptr
    if n ≤ (mem p).size then .found prevp
    else if p = freep then .exhausted
    else scan mem n freep k p

/-- A block that is large enough is unlinked, or its tail end is cut off. The
address of the header that is handed out. -/
def take (mem : ℕ → Header) (n prevp : ℕ) : Heap × ℕ :=
  let p := (mem prevp).ptr
  if (mem p).size = n then
    (⟨Function.update mem prevp ⟨(mem p).ptr,(mem prevp).size⟩,some prevp⟩,p)
  else
    let mem := Function.update mem p ⟨(mem p).ptr,(mem p).size-n⟩
    let p := p+(mem p).size
    (⟨Function.update mem p ⟨(mem p).ptr,n⟩,some prevp⟩,p)

structure Grant where
  addr : ℕ
  size : ℕ
  nbytes : ℕ
  deriving DecidableEq

def Grant.block (g : Grant) : Block := (g.addr,g.size)

structure State where
  heap : Heap
  brk : ℕ
  obtained : ℕ
  live : List Grant

/-- A loop does not end, a null pointer is followed, or `malloc` calls
`morecore` a second time. -/
inductive Stuck where
  | hangs
  | again
  deriving DecidableEq

inductive Reply where
  | null
  | address (ap : ℕ)
  deriving DecidableEq

def initialized (base : ℕ) (h : Heap) : Heap :=
  match h.freep with
  | none => ⟨Function.update h.mem base ⟨base,0⟩,some base⟩
  | some _ => h

def grant (s : State) (nbytes : ℕ) (r : Heap × ℕ) : State × Reply :=
  ({ s with heap := r.1,live := ⟨r.2,nunits nbytes,nbytes⟩::s.live },.address (r.2+1))

/-- `malloc`, with the reply of the `sbrk` it may call. -/
def malloc (base : ℕ) (s : State) (nbytes : ℕ) (reply : Option ℕ) : Except Stuck (State × Reply) :=
  let n := nunits nbytes
  let h := initialized base s.heap
  match h.freep with
  | none => .error .hangs
  | some f =>
    match scan h.mem n f (s.brk+1) f with
    | .lost => .error .hangs
    | .found prevp => .ok (grant s nbytes (take h.mem n prevp))
    | .exhausted =>
      match reply with
      | none => .ok ({ s with heap := h },.null)
      | some a =>
        let nu := coreUnits n
        let s := { s with brk := a+nu,obtained := s.obtained+nu }
        let mem := Function.update h.mem a ⟨(h.mem a).ptr,nu⟩
        match free (s.brk+1) ⟨mem,h.freep⟩ (a+1) with
        | none => .error .hangs
        | some h =>
          match h.freep with
          | none => .error .hangs
          | some f =>
            match scan h.mem n f (s.brk+1) f with
            | .lost => .error .hangs
            | .exhausted => .error .again
            | .found prevp => .ok (grant s nbytes (take h.mem n prevp))

inductive Label where
  | malloc (nbytes : ℕ) (reply : Option ℕ)
  | free (ap : ℕ)
  | store (u : ℕ) (h : Header)

def step (base : ℕ) (s : State) : Label → Except Stuck State
  | .malloc nbytes reply => (malloc base s nbytes reply).map Prod.fst
  | .free ap =>
    match free (s.brk+1) s.heap ap with
    | none => .error .hangs
    | some h => .ok { s with heap := h,live := s.live.filter fun g => g.addr+1 ≠ ap }
  | .store u h => .ok { s with heap := ⟨Function.update s.heap.mem u h,s.heap.freep⟩ }

/-- What the program and the kernel keep to: `sbrk` returns memory at or above
the break for a request that fits an int, only blocks that were handed out are
freed, and only their payload is written. -/
def Offered (s : State) : Label → Prop
  | .malloc nbytes reply => coreUnits (nunits nbytes)*headerBytes ≤ intMax ∧ ∀ a ∈ reply, s.brk ≤ a
  | .free ap => ∃ g ∈ s.live, g.addr+1 = ap
  | .store u _ => ∃ g ∈ s.live, g.addr < u ∧ u < g.addr+g.size

instance (s : State) : (l : Label) → Decidable (Offered s l)
  | .malloc nbytes none => inferInstanceAs
      (Decidable (coreUnits (nunits nbytes)*headerBytes ≤ intMax ∧ ∀ a ∈ none, s.brk ≤ a))
  | .malloc nbytes (some a) => inferInstanceAs
      (Decidable (coreUnits (nunits nbytes)*headerBytes ≤ intMax ∧ ∀ a' ∈ some a, s.brk ≤ a'))
  | .free ap => inferInstanceAs (Decidable (∃ g ∈ s.live, g.addr+1 = ap))
  | .store u _ => inferInstanceAs (Decidable (∃ g ∈ s.live, g.addr < u ∧ u < g.addr+g.size))

def start (mem : ℕ → Header) (brk : ℕ) : State := ⟨⟨mem,none⟩,brk,0,[]⟩

abbrev Steps (base : ℕ) : State → Label → State → Prop := Accepts (step base)

abbrev Reached (base : ℕ) (mem : ℕ → Header) (brk : ℕ) (s : State) : Prop :=
  Reach (Steps base) Offered (start mem brk) s

end ListlibSyscalls.AllocMachine
