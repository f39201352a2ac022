import ListlibSyscalls.PoolMachine
import ListlibSyscalls.StepRuns

/-!
# Histories of library calls

A caller holds the list pointers that `ListCreate` has returned and passes
items that are not NULL. A history carries the pools together with what the
caller can know from the replies: the lists created so far, the number of
insertions that returned zero, and for every node the list that owns it. A
node belongs to the list whose insertion allocated it, and `ListConcat` hands
the nodes of its second list to the first.
-/

set_option autoImplicit false

namespace ListlibSyscalls.PoolHistory
open PoolMachine StepRuns

variable {α : Type}

inductive Adder where
  | add
  | insert
  | append
  | prepend
  deriving DecidableEq

inductive Mover where
  | first
  | last
  | next
  | prev
  deriving DecidableEq

inductive Call (α : Type) where
  | create
  | adder (a : Adder) (l : ℤ) (x : α)
  | mover (m : Mover) (l : ℤ)
  | curr (l : ℤ)
  | count (l : ℤ)
  | concat (l1 l2 : ℤ)

inductive Reply (α : Type) where
  | list (p : Option ℤ)
  | code (r : ℤ)
  | item (x : Option α)
  | count (n : ℤ)
  | void

def runAdder (cap : Capacity) : Adder → Pool α → Option ℤ → Option α →
    Except Fault (Pool α × ℤ)
  | .add => listAdd cap
  | .insert => listInsert cap
  | .append => listAppend cap
  | .prepend => listPrepend cap

def runMover (cap : Capacity) : Mover → Pool α → Option ℤ →
    Except Fault (Pool α × Option α)
  | .first => listFirst cap
  | .last => listLast cap
  | .next => listNext cap
  | .prev => listPrev cap

def exec (cap : Capacity) (s : Pool α) : Call α → Except Fault (Pool α × Reply α)
  | .create => do
    let (s,p) ← listCreate cap s
    .ok (s,.list p)
  | .adder a l x => do
    let (s,r) ← runAdder cap a s (some l) (some x)
    .ok (s,.code r)
  | .mover m l => do
    let (s,x) ← runMover cap m s (some l)
    .ok (s,.item x)
  | .curr l => do
    let x ← listCurr cap s (some l)
    .ok (s,.item x)
  | .count l => .ok (s,.count (listCount s (some l)))
  | .concat l1 l2 => do
    let s ← listConcat cap s (some l1) (some l2)
    .ok (s,.void)

structure History (α : Type) where
  pool : Pool α
  created : List ℤ
  inserted : ℕ
  owner : ℤ → Option ℤ

namespace History

def start : History α where
  pool := zeroed
  created := []
  inserted := 0
  owner _ := none

/-- The caller's books after a reply. Nodes that `nodeAllocator` returned
during an insertion are the ones its log has gained. -/
def record (h : History α) (c : Call α) (s : Pool α) (r : Reply α) : History α where
  pool := s
  created := match r with
    | .list (some l) => h.created ++ [l]
    | _ => h.created
  inserted := match r with
    | .code 0 => h.inserted+1
    | _ => h.inserted
  owner := match c with
    | .adder _ l _ => fun i =>
      if i ∈ s.returned.drop h.pool.returned.length then some l else h.owner i
    | .concat l1 l2 => fun i => if h.owner i = some l2 then some l1 else h.owner i
    | _ => h.owner

def step (cap : Capacity) (h : History α) (c : Call α) : Except Fault (History α) := do
  let (s,r) ← exec cap h.pool c
  .ok (h.record c s r)

end History

abbrev Steps (cap : Capacity) : History α → Call α → History α → Prop :=
  Accepts (History.step cap)

/-- The list arguments of a call have been returned by `ListCreate`. -/
def OnCreated (h : History α) : Call α → Prop
  | .create => True
  | .adder _ l _ => l ∈ h.created
  | .mover _ l => l ∈ h.created
  | .curr l => l ∈ h.created
  | .count l => l ∈ h.created
  | .concat l1 l2 => l1 ∈ h.created ∧ l2 ∈ h.created

instance (h : History α) (c : Call α) : Decidable (OnCreated h c) :=
  match c with
  | .create => inferInstanceAs (Decidable True)
  | .adder _ l _ => inferInstanceAs (Decidable (l ∈ h.created))
  | .mover _ l => inferInstanceAs (Decidable (l ∈ h.created))
  | .curr l => inferInstanceAs (Decidable (l ∈ h.created))
  | .count l => inferInstanceAs (Decidable (l ∈ h.created))
  | .concat l1 l2 => inferInstanceAs (Decidable (l1 ∈ h.created ∧ l2 ∈ h.created))

def Apart : Call α → Prop
  | .concat l1 l2 => l1 ≠ l2
  | _ => True

instance (c : Call α) : Decidable (Apart c) :=
  match c with
  | .concat l1 l2 => inferInstanceAs (Decidable (l1 ≠ l2))
  | .create => inferInstanceAs (Decidable True)
  | .adder _ _ _ => inferInstanceAs (Decidable True)
  | .mover _ _ => inferInstanceAs (Decidable True)
  | .curr _ => inferInstanceAs (Decidable True)
  | .count _ => inferInstanceAs (Decidable True)

def Proper (h : History α) (c : Call α) : Prop := OnCreated h c ∧ Apart c

instance (h : History α) (c : Call α) : Decidable (Proper h c) :=
  inferInstanceAs (Decidable (_ ∧ _))

abbrev Reached (cap : Capacity) (h : History α) : Prop :=
  Reach (Steps cap) OnCreated History.start h

abbrev ProperlyReached (cap : Capacity) (h : History α) : Prop :=
  Reach (Steps cap) Proper History.start h

theorem ProperlyReached.reached {cap : Capacity} {h : History α}
    (hr : ProperlyReached cap h) : Reached cap h :=
  hr.mono (fun _ _ hp => hp.1)

end ListlibSyscalls.PoolHistory
