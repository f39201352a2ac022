import ListlibSyscalls.FindMachine

/-!
# Path names

`skipelem`, `dirlookup` and `namex` of `fs.c`. A path is a NUL terminated string and
`name` a buffer of DIRSIZ bytes that keeps the bytes behind a shorter name. Other
processes run while a path is followed, so what an inode is, once it is locked, and the
references of the others depend on how many elements have been followed.

The inodes of the one device are named by their numbers. `refs` are the references that
this process holds, one entry for each; with those of the others they say which inodes
are in the table of NINODE. `held` is the inode that the process has locked. A process
locks and unlocks inodes that it refers to itself, which is more than the checks of the
reference count ask for. The layers below, which a last `iput` may use to free an inode,
are left aside.
-/

set_option autoImplicit false

namespace ListlibSyscalls.PathLookup
open UserStrings FindMachine

abbrev NINODE : ℕ := 50

/-- `deadlock` is a lock taken by a process that holds one. -/
inductive Stop where
  | fault (f : Fault)
  | panics (text : String)
  | deadlock
  deriving DecidableEq

def checked {α : Type} : Except Fault α → Except Stop α
  | .ok a => .ok a
  | .error f => .error (.fault f)

section Elements

end Elements

section Directories

def strncmp : ℕ → List Byte → List Byte → Except Fault ℤ
  | 0, _, _ => .ok 0
  | n+1, c::p, d::q =>
    if c ≠ nul ∧ c = d then strncmp n p q else .ok ((c.toNat:ℤ)-d.toNat)
  | _+1, _, _ => .error .overrun

def namecmp (s t : List Byte) : Except Fault ℤ := strncmp DIRSIZ s t

/-- An inode as `ilock` leaves it, and whether it has been read before. An entry is
none where `readi` does not get all of it. -/
structure Inode where
  valid : Bool
  type : ℕ
  entries : List (Option Dirent)

def scan (name : List Byte) : List (Option Dirent) → Except Stop (Option (BitVec 16))
  | [] => .ok none
  | none::_ => .error (.panics "dirlookup read")
  | some de::ds =>
    if de.inum = 0 then scan name ds
    else do
      if (← checked (namecmp name de.name)) = 0 then .ok (some de.inum) else scan name ds

/-- The first entry that cannot be read, or is in use and has the name. -/
def entry (name : List Byte) (ds : List (Option Dirent)) : Option (Option Dirent) :=
  ds.find? fun x => x.all fun de => decide (de.inum ≠ 0) && decide (text de.name = name)

end Directories

section Walk

/-- What other processes do meanwhile: what an inode is when it is locked, and the
references of the others when one is got, after a number of elements. -/
structure World where
  inode : ℕ → BitVec 16 → Inode
  others : ℕ → List (BitVec 16)

structure State where
  refs : List (BitVec 16)
  held : Option (BitVec 16)

def Room (refs others : List (BitVec 16)) (i : BitVec 16) : Prop :=
  i ∈ refs++others ∨ (refs++others).dedup.length < NINODE

instance (refs others : List (BitVec 16)) (i : BitVec 16) : Decidable (Room refs others i) :=
  inferInstanceAs (Decidable (_ ∨ _))

variable {w : World} {refs : List (BitVec 16)} {ip : BitVec 16}

end Walk

end ListlibSyscalls.PathLookup
