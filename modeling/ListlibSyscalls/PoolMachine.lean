import Mathlib.Logic.Function.Basic
import Mathlib.Tactic

/-!
# The list library over its two static pools

Nodes and lists live in two arrays and refer to each other by index, with -1
as the only non-index. Every read and write of an array element checks its
bounds and stops with a fault outside them, so a call that returns has touched
array elements only. Pointers to lists are indices into the list pool and NULL
is `none`. Items are never inspected. The log of indices handed out by
`nodeAllocator` is bookkeeping: no function reads it. Progress messages are
left out, but the element a message reads is read.
-/

set_option autoImplicit false

namespace ListlibSyscalls.PoolMachine

structure Capacity where
  maxNodes : ℕ
  maxLists : ℕ
  nodes_pos : 0 < maxNodes
  lists_pos : 0 < maxLists

/-- The sizes defined in `list.h`. -/
def shipped : Capacity := ⟨10,2,by decide,by decide⟩

@[ext, grind ext] structure Node (α : Type) where
  item : Option α
  next : ℤ
  prev : ℤ
  link : ℤ
  deriving DecidableEq

structure LIST where
  head : ℤ
  tail : ℤ
  curr : ℤ
  count : ℤ
  before : ℤ
  after : ℤ
  link : ℤ
  deriving DecidableEq

@[ext] structure Pool (α : Type) where
  nodes : ℤ → Node α
  lists : ℤ → LIST
  freeNodeHead : ℤ
  freeListHead : ℤ
  initialized : ℤ
  returned : List ℤ

inductive Fault where
  | node (i : ℤ)
  | list (i : ℤ)
  deriving DecidableEq

variable {α : Type}

/-- The static storage before any call: zeroed arrays and `mytestlist.c`'s
initial values of the three scalars. -/
def zeroed : Pool α where
  nodes _ := ⟨none,0,0,0⟩
  lists _ := ⟨0,0,0,0,0,0,0⟩
  freeNodeHead := 0
  freeListHead := 0
  initialized := 0
  returned := []

def NodeIndex (cap : Capacity) (i : ℤ) : Prop := 0 ≤ i ∧ i < cap.maxNodes

instance (cap : Capacity) (i : ℤ) : Decidable (NodeIndex cap i) :=
  inferInstanceAs (Decidable (_ ∧ _))

def ListIndex (cap : Capacity) (i : ℤ) : Prop := 0 ≤ i ∧ i < cap.maxLists

instance (cap : Capacity) (i : ℤ) : Decidable (ListIndex cap i) :=
  inferInstanceAs (Decidable (_ ∧ _))

namespace Pool

def node (cap : Capacity) (s : Pool α) (i : ℤ) : Except Fault (Node α) :=
  if NodeIndex cap i then .ok (s.nodes i) else .error (.node i)

def store (s : Pool α) (i : ℤ) (f : Node α → Node α) : Pool α :=
  { s with nodes := Function.update s.nodes i (f (s.nodes i)) }

def setNode (cap : Capacity) (s : Pool α) (i : ℤ) (f : Node α → Node α) :
    Except Fault (Pool α) :=
  if NodeIndex cap i then .ok (s.store i f) else .error (.node i)

def list (cap : Capacity) (s : Pool α) (i : ℤ) : Except Fault LIST :=
  if ListIndex cap i then .ok (s.lists i) else .error (.list i)

def setList (s : Pool α) (l : ℤ) (f : LIST → LIST) : Pool α :=
  { s with lists := Function.update s.lists l (f (s.lists l)) }

end Pool

def nodeAllocator (cap : Capacity) (s : Pool α) : Except Fault (Pool α × ℤ) :=
  if s.freeNodeHead = -1 then .ok (s,-1)
  else do
    let i := s.freeNodeHead
    let n ← s.node cap i
    let s := { s with freeNodeHead := n.link }
    let s ← s.setNode cap i fun n => { n with link := -1 }
    let s ← s.setNode cap i fun n => { n with next := -1 }
    let s ← s.setNode cap i fun n => { n with prev := -1 }
    .ok ({ s with returned := s.returned ++ [i] },i)

/-- Add to the end of the chain. On an empty list the code falls through its
first branch into the general one. -/
def listAppend (cap : Capacity) (s : Pool α) (list : Option ℤ) (item : Option α) :
    Except Fault (Pool α × ℤ) :=
  match list, item with
  | some l, some x => do
    let (s,newNodeIdx) ← nodeAllocator cap s
    if newNodeIdx = -1 then .ok (s,-1)
    else do
      let s ← s.setNode cap newNodeIdx fun n => { n with item := some x }
      let s := s.setList l fun L => if L.count = 0 then { L with
          head := newNodeIdx, tail := newNodeIdx, curr := newNodeIdx, before := 0, after := 0 }
        else L
      let s ← s.setNode cap newNodeIdx fun n => { n with prev := (s.lists l).curr }
      let s ← s.setNode cap (s.lists l).tail fun n => { n with next := newNodeIdx }
      let s := s.setList l fun L =>
        { L with tail := newNodeIdx, count := L.count+1, curr := newNodeIdx, before := 0, after := 0 }
      let _ ← s.node cap (s.lists l).curr
      .ok (s,0)
  | _, _ => .ok (s,-1)

/-- Add to the front of the chain. The flags are written on an empty list only. -/
def listPrepend (cap : Capacity) (s : Pool α) (list : Option ℤ) (item : Option α) :
    Except Fault (Pool α × ℤ) :=
  match list, item with
  | some l, some x => do
    let (s,newNodeIdx) ← nodeAllocator cap s
    if newNodeIdx = -1 then .ok (s,-1)
    else do
      let s ← s.setNode cap newNodeIdx fun n => { n with item := some x }
      let s := s.setList l fun L => if L.count = 0 then { L with
          head := newNodeIdx, tail := newNodeIdx, curr := newNodeIdx, before := 0, after := 0 }
        else L
      let s ← s.setNode cap newNodeIdx fun n => { n with item := some x }
      let s ← s.setNode cap newNodeIdx fun n => { n with next := (s.lists l).head }
      let s ← s.setNode cap newNodeIdx fun n => { n with prev := -1 }
      let s ← s.setNode cap (s.lists l).head fun n => { n with prev := newNodeIdx }
      let s := s.setList l fun L =>
        { L with head := newNodeIdx, curr := newNodeIdx, count := L.count+1 }
      let _ ← s.node cap (s.lists l).curr
      .ok (s,0)
  | _, _ => .ok (s,-1)

def listInsert (cap : Capacity) (s : Pool α) (list : Option ℤ) (item : Option α) :
    Except Fault (Pool α × ℤ) :=
  match list, item with
  | some l, some x =>
    if (s.lists l).count = 0 then listAppend cap s list item
    else if (s.lists l).before = 1 then listPrepend cap s list item
    else if (s.lists l).after = 1 then listAppend cap s list item
    else do
      let (s,newNodeIdx) ← nodeAllocator cap s
      if newNodeIdx = -1 then .ok (s,-1)
      else do
        let s ← s.setNode cap newNodeIdx fun n => { n with item := some x }
        let s ← s.setNode cap newNodeIdx fun n => { n with next := (s.lists l).curr }
        let c ← s.node cap (s.lists l).curr
        let s ← s.setNode cap newNodeIdx fun n => { n with prev := c.prev }
        let c ← s.node cap (s.lists l).curr
        let s ← if c.prev ≠ -1 then s.setNode cap c.prev fun n => { n with next := newNodeIdx }
          else .ok s
        let s ← s.setNode cap (s.lists l).curr fun n => { n with prev := newNodeIdx }
        let s := s.setList l fun L => if L.head = L.curr then { L with head := newNodeIdx } else L
        let s := s.setList l fun L => { L with curr := newNodeIdx, count := L.count+1 }
        let _ ← s.node cap (s.lists l).curr
        .ok (s,0)
  | _, _ => .ok (s,-1)

/-- Insert after the current node. Neither the cursor nor the tail is moved. -/
def listAdd (cap : Capacity) (s : Pool α) (list : Option ℤ) (item : Option α) :
    Except Fault (Pool α × ℤ) :=
  match list, item with
  | some l, some x =>
    if (s.lists l).count = 0 ∨ (s.lists l).after = 1 ∨ (s.lists l).curr = -1 then
      listAppend cap s list item
    else if (s.lists l).before = 1 then listPrepend cap s list item
    else do
      let (s,newNodeIdx) ← nodeAllocator cap s
      if newNodeIdx = -1 then .ok (s,-1)
      else do
        let s ← s.setNode cap newNodeIdx fun n => { n with prev := (s.lists l).curr }
        let s ← s.setNode cap newNodeIdx fun n => { n with item := some x }
        let c ← s.node cap (s.lists l).curr
        let s ← s.setNode cap newNodeIdx fun n => { n with next := c.next }
        let c ← s.node cap (s.lists l).curr
        let s ← if c.next ≠ -1 then s.setNode cap c.next fun n => { n with prev := newNodeIdx }
          else .ok s
        let s ← s.setNode cap (s.lists l).curr fun n => { n with next := newNodeIdx }
        .ok (s.setList l fun L => { L with count := L.count+1 },0)
  | _, _ => .ok (s,-1)

def listCount (s : Pool α) (list : Option ℤ) : ℤ :=
  match list with
  | some l => (s.lists l).count
  | none => -1

def listFirst (cap : Capacity) (s : Pool α) (list : Option ℤ) :
    Except Fault (Pool α × Option α) :=
  match list with
  | some l =>
    if (s.lists l).count = 0 then .ok (s,none)
    else do
      let s := s.setList l fun L => { L with curr := L.head, before := 0, after := 0 }
      let n ← s.node cap (s.lists l).curr
      .ok (s,n.item)
  | none => .ok (s,none)

/-- Only one of the two flags is cleared here. -/
def listLast (cap : Capacity) (s : Pool α) (list : Option ℤ) :
    Except Fault (Pool α × Option α) :=
  match list with
  | some l =>
    if (s.lists l).count = 0 then .ok (s,none)
    else do
      let s := s.setList l fun L => { L with curr := L.tail, before := 0 }
      let n ← s.node cap (s.lists l).curr
      .ok (s,n.item)
  | none => .ok (s,none)

def listNext (cap : Capacity) (s : Pool α) (list : Option ℤ) :
    Except Fault (Pool α × Option α) :=
  match list with
  | some l =>
    if (s.lists l).after = 1 then .ok (s,none)
    else do
      let c ← s.node cap (s.lists l).curr
      let s := s.setList l fun L => { L with curr := c.next }
      if (s.lists l).curr = -1 then
        .ok (s.setList l fun L => { L with after := 1, before := 0 },none)
      else do
        let n ← s.node cap (s.lists l).curr
        .ok (s,n.item)
  | none => .ok (s,none)

def listPrev (cap : Capacity) (s : Pool α) (list : Option ℤ) :
    Except Fault (Pool α × Option α) :=
  match list with
  | some l =>
    if (s.lists l).before = 1 then .ok (s,none)
    else do
      let c ← s.node cap (s.lists l).curr
      let s := s.setList l fun L => { L with curr := c.prev }
      if (s.lists l).curr = -1 then
        .ok (s.setList l fun L => { L with before := 1, after := 0 },none)
      else do
        let n ← s.node cap (s.lists l).curr
        .ok (s,n.item)
  | none => .ok (s,none)

def listCurr (cap : Capacity) (s : Pool α) (list : Option ℤ) : Except Fault (Option α) :=
  match list with
  | some l =>
    if (s.lists l).curr ≠ -1 then do
      let n ← s.node cap (s.lists l).curr
      .ok n.item
    else .ok none
  | none => .ok none

/-- The first loop of the one-time initialization, over the indices below `k`. -/
def initNodes (cap : Capacity) : ℕ → Pool α → Except Fault (Pool α)
  | 0, s => .ok s
  | k+1, s => do
    let s ← initNodes cap k s
    s.setNode cap k fun _ => ⟨none,-1,-1,k+1⟩

def initLists : ℕ → Pool α → Pool α
  | 0, s => s
  | k+1, s => (initLists k s).setList k fun _ => ⟨-1,-1,-1,0,1,0,k+1⟩

def initPools (cap : Capacity) (s : Pool α) : Except Fault (Pool α) := do
  let s ← initNodes cap cap.maxNodes s
  let s ← s.setNode cap (cap.maxNodes-1) fun n => { n with link := -1 }
  let s := initLists cap.maxLists s
  let s := s.setList (cap.maxLists-1) fun L => { L with link := -1 }
  .ok { s with initialized := 1 }

def listCreate (cap : Capacity) (s : Pool α) : Except Fault (Pool α × Option ℤ) := do
  let s ← if s.initialized = 0 then initPools cap s else .ok s
  let freeListIdx := s.freeListHead
  if freeListIdx = -1 then .ok (s,none)
  else do
    let L ← s.list cap freeListIdx
    let s := { s with freeListHead := L.link }
    .ok (s.setList freeListIdx fun L => { L with link := -1 },some freeListIdx)

def listConcat (cap : Capacity) (s : Pool α) (list1 list2 : Option ℤ) :
    Except Fault (Pool α) :=
  match list1, list2 with
  | some l1, some l2 =>
    if (s.lists l2).count = 0 then .ok s
    else do
      let s ← s.setNode cap (s.lists l1).tail fun n => { n with next := (s.lists l2).head }
      let s ← s.setNode cap (s.lists l2).head fun n => { n with prev := (s.lists l1).tail }
      let s := s.setList l1 fun L => { L with tail := (s.lists l2).tail }
      let s := s.setList l1 fun L => { L with count := L.count+(s.lists l2).count }
      .ok (s.setList l2 fun L =>
        { L with head := -1, tail := -1, curr := -1, count := 0, before := 1, after := 0 })
  | _, _ => .ok s

end ListlibSyscalls.PoolMachine
