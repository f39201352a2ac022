import ListlibSyscalls.PoolHistory

/-!
# What each call does to the pools

The four insertion functions choose between four splices, and each splice is
one assignment to the new node, at most one forward and one backward link,
and the list record. The theorems below equate the source's sequences of
checked reads and writes with these closed forms whenever the indices they
touch are array indices. Nothing later unfolds the functions again.
-/

set_option autoImplicit false

namespace ListlibSyscalls.PoolSplice
open StepRuns PoolMachine PoolHistory

variable {α : Type}

theorem node_ok {cap : Capacity} {i : ℤ} (s : Pool α) (h : NodeIndex cap i) :
    s.node cap i = .ok (s.nodes i) := if_pos h

theorem setNode_ok {cap : Capacity} {i : ℤ} (s : Pool α) (f : Node α → Node α)
    (h : NodeIndex cap i) : s.setNode cap i f = .ok (s.store i f) := if_pos h

@[simp] theorem store_nodes (s : Pool α) (i : ℤ) (f : Node α → Node α) :
    (s.store i f).nodes = Function.update s.nodes i (f (s.nodes i)) := rfl

@[simp] theorem store_lists (s : Pool α) (i : ℤ) (f : Node α → Node α) :
    (s.store i f).lists = s.lists := rfl

@[simp] theorem setList_nodes (s : Pool α) (l : ℤ) (f : LIST → LIST) :
    (s.setList l f).nodes = s.nodes := rfl

@[simp] theorem setList_lists (s : Pool α) (l : ℤ) (f : LIST → LIST) :
    (s.setList l f).lists = Function.update s.lists l (f (s.lists l)) := rfl

theorem not_index_sentinel (cap : Capacity) : ¬ NodeIndex cap (-1) := by
  simp [NodeIndex]

theorem index_ne_sentinel {cap : Capacity} {i : ℤ} (h : NodeIndex cap i) : i ≠ -1 := by
  have := h.1
  omega

def allocated (s : Pool α) : Pool α where
  nodes := Function.update s.nodes s.freeNodeHead
    ⟨(s.nodes s.freeNodeHead).item,-1,-1,-1⟩
  lists := s.lists
  freeNodeHead := (s.nodes s.freeNodeHead).link
  freeListHead := s.freeListHead
  initialized := s.initialized
  returned := s.returned ++ [s.freeNodeHead]

theorem nodeAllocator_full (cap : Capacity) (s : Pool α) (h : s.freeNodeHead = -1) :
    nodeAllocator cap s = .ok (s,-1) := if_pos h

theorem nodeAllocator_ok (cap : Capacity) (s : Pool α) (h : NodeIndex cap s.freeNodeHead) :
    nodeAllocator cap s = .ok (allocated s,s.freeNodeHead) := by
  simp [nodeAllocator,index_ne_sentinel h,node_ok _ h,setNode_ok _ _ h,Pool.store,allocated]

inductive Splice where
  | atEnd
  | atFront
  | beforeCurr
  | afterCurr
  deriving DecidableEq

def splice : Adder → LIST → Splice
  | .append, _ => .atEnd
  | .prepend, _ => .atFront
  | .insert, L =>
    if L.count = 0 then .atEnd
    else if L.before = 1 then .atFront
    else if L.after = 1 then .atEnd
    else .beforeCurr
  | .add, L =>
    if L.count = 0 ∨ L.after = 1 ∨ L.curr = -1 then .atEnd
    else if L.before = 1 then .atFront
    else .afterCurr

/-- The node that afterwards links forward to the new one, or -1. -/
def predecessor (sp : Splice) (L : LIST) (c : Node α) : ℤ :=
  match sp with
  | .atEnd => if L.count = 0 then -1 else L.tail
  | .atFront => -1
  | .beforeCurr => c.prev
  | .afterCurr => L.curr

/-- The node that afterwards links back to the new one, or -1. -/
def successor (sp : Splice) (L : LIST) (c : Node α) : ℤ :=
  match sp with
  | .atEnd => -1
  | .atFront => if L.count = 0 then -1 else L.head
  | .beforeCurr => L.curr
  | .afterCurr => c.next

/-- The new node's own links. In an empty list both point at itself, and at
the end the backward link is taken from the cursor and not from the tail. -/
def newNode (sp : Splice) (L : LIST) (c : Node α) (n : ℤ) (x : α) : Node α :=
  match sp with
  | .atEnd => if L.count = 0 then ⟨some x,n,n,-1⟩ else ⟨some x,-1,L.curr,-1⟩
  | .atFront => if L.count = 0 then ⟨some x,n,n,-1⟩ else ⟨some x,L.head,-1,-1⟩
  | .beforeCurr => ⟨some x,L.curr,c.prev,-1⟩
  | .afterCurr => ⟨some x,c.next,L.curr,-1⟩

def splicedList (sp : Splice) (L : LIST) (n : ℤ) : LIST :=
  match sp with
  | .atEnd => ⟨if L.count = 0 then n else L.head,n,n,L.count+1,0,0,L.link⟩
  | .atFront => ⟨n,if L.count = 0 then n else L.tail,n,L.count+1,
      if L.count = 0 then 0 else L.before,if L.count = 0 then 0 else L.after,L.link⟩
  | .beforeCurr => ⟨if L.head = L.curr then n else L.head,L.tail,n,L.count+1,
      L.before,L.after,L.link⟩
  | .afterCurr => { L with count := L.count+1 }

def splicedNodes (sp : Splice) (L : LIST) (nodes : ℤ → Node α) (n : ℤ) (x : α) : ℤ → Node α :=
  fun i => if i = n then newNode sp L (nodes L.curr) n x
    else if i = -1 then nodes i
    else { nodes i with
      next := if i = predecessor sp L (nodes L.curr) then n else (nodes i).next
      prev := if i = successor sp L (nodes L.curr) then n else (nodes i).prev }

def spliced (sp : Splice) (s : Pool α) (l : ℤ) (x : α) : Pool α where
  nodes := splicedNodes sp (s.lists l) s.nodes s.freeNodeHead x
  lists := Function.update s.lists l (splicedList sp (s.lists l) s.freeNodeHead)
  freeNodeHead := (s.nodes s.freeNodeHead).link
  freeListHead := s.freeListHead
  initialized := s.initialized
  returned := s.returned ++ [s.freeNodeHead]

def Old (cap : Capacity) (s : Pool α) (i : ℤ) : Prop := NodeIndex cap i ∧ i ≠ s.freeNodeHead

def Ready (cap : Capacity) (s : Pool α) (l : ℤ) : Splice → Prop
  | .atEnd => (s.lists l).count ≠ 0 → Old cap s (s.lists l).tail
  | .atFront => (s.lists l).count ≠ 0 → Old cap s (s.lists l).head
  | .beforeCurr => Old cap s (s.lists l).curr ∧
      ((s.nodes (s.lists l).curr).prev ≠ -1 → Old cap s (s.nodes (s.lists l).curr).prev)
  | .afterCurr => Old cap s (s.lists l).curr ∧
      ((s.nodes (s.lists l).curr).next ≠ -1 → Old cap s (s.nodes (s.lists l).curr).next)

theorem splicedNodes_new (sp : Splice) (L : LIST) (nodes : ℤ → Node α) (n : ℤ) (x : α) :
    splicedNodes sp L nodes n x n = newNode sp L (nodes L.curr) n x := if_pos rfl

theorem splicedNodes_frame (sp : Splice) (L : LIST) (nodes : ℤ → Node α) (n : ℤ) (x : α) (i : ℤ)
    (hn : i ≠ n) (hp : i ≠ predecessor sp L (nodes L.curr))
    (hs : i ≠ successor sp L (nodes L.curr)) : splicedNodes sp L nodes n x i = nodes i := by
  simp [splicedNodes,hn,hp,hs]

theorem splicedNodes_old (sp : Splice) (L : LIST) (nodes : ℤ → Node α) (n : ℤ) (x : α) (i : ℤ)
    (hn : i ≠ n) (hi : i ≠ -1) : splicedNodes sp L nodes n x i =
      ⟨(nodes i).item,if i = predecessor sp L (nodes L.curr) then n else (nodes i).next,
        if i = successor sp L (nodes L.curr) then n else (nodes i).prev,(nodes i).link⟩ := by
  simp [splicedNodes,hn,hi]

theorem listAppend_ok (cap : Capacity) (s : Pool α) (l : ℤ) (x : α)
    (hn : NodeIndex cap s.freeNodeHead) (hr : Ready cap s l .atEnd) :
    listAppend cap s (some l) (some x) = .ok (spliced .atEnd s l x,0) := by
  have hne := index_ne_sentinel hn
  by_cases hc : (s.lists l).count = 0
  · simp [listAppend,nodeAllocator_ok cap s hn,hne,hc,allocated,setNode_ok _ _ hn,node_ok _ hn,
      spliced,splicedList,Pool.store,Pool.setList]
    funext i
    grind [splicedNodes,newNode,predecessor,successor,Function.update_apply]
  · obtain ⟨ht,htn⟩ := hr hc
    have htz := index_ne_sentinel ht
    simp [listAppend,nodeAllocator_ok cap s hn,hne,hc,allocated,setNode_ok _ _ hn,node_ok _ hn,
      setNode_ok _ _ ht,spliced,splicedList,Pool.store,Pool.setList,htn]
    funext i
    grind [splicedNodes,newNode,predecessor,successor,Function.update_apply]

theorem listPrepend_ok (cap : Capacity) (s : Pool α) (l : ℤ) (x : α)
    (hn : NodeIndex cap s.freeNodeHead) (hr : Ready cap s l .atFront) :
    listPrepend cap s (some l) (some x) = .ok (spliced .atFront s l x,0) := by
  have hne := index_ne_sentinel hn
  by_cases hc : (s.lists l).count = 0
  · simp [listPrepend,nodeAllocator_ok cap s hn,hne,hc,allocated,setNode_ok _ _ hn,node_ok _ hn,
      spliced,splicedList,Pool.store,Pool.setList]
    funext i
    grind [splicedNodes,newNode,predecessor,successor,Function.update_apply]
  · obtain ⟨ht,htn⟩ := hr hc
    have htz := index_ne_sentinel ht
    simp [listPrepend,nodeAllocator_ok cap s hn,hne,hc,allocated,setNode_ok _ _ hn,node_ok _ hn,
      setNode_ok _ _ ht,spliced,splicedList,Pool.store,Pool.setList,htn]
    funext i
    grind [splicedNodes,newNode,predecessor,successor,Function.update_apply]

theorem listInsert_ok (cap : Capacity) (s : Pool α) (l : ℤ) (x : α)
    (hn : NodeIndex cap s.freeNodeHead) (hr : Ready cap s l .beforeCurr)
    (hs : splice .insert (s.lists l) = .beforeCurr) :
    listInsert cap s (some l) (some x) = .ok (spliced .beforeCurr s l x,0) := by
  have hne := index_ne_sentinel hn
  obtain ⟨⟨hc,hcn⟩,hp⟩ := hr
  have hcz := index_ne_sentinel hc
  have h0 : (s.lists l).count ≠ 0 := by intro h; simp [splice,h] at hs
  have h1 : (s.lists l).before ≠ 1 := by intro h; simp [splice,h0,h] at hs
  have h2 : (s.lists l).after ≠ 1 := by intro h; simp [splice,h0,h1,h] at hs
  by_cases hpz : (s.nodes (s.lists l).curr).prev = -1
  · simp [listInsert,h0,h1,h2,nodeAllocator_ok cap s hn,hne,allocated,setNode_ok _ _ hn,
      node_ok _ hn,setNode_ok _ _ hc,node_ok _ hc,spliced,splicedList,Pool.store,Pool.setList,hcn,hpz]
    constructor
    · funext i
      grind [splicedNodes,newNode,predecessor,successor,Function.update_apply]
    · split <;> rfl
  · obtain ⟨hp,hpn⟩ := hp hpz
    simp [listInsert,h0,h1,h2,nodeAllocator_ok cap s hn,hne,allocated,setNode_ok _ _ hn,
      node_ok _ hn,setNode_ok _ _ hc,node_ok _ hc,setNode_ok _ _ hp,spliced,splicedList,
      Pool.store,Pool.setList,hcn,hpz]
    constructor
    · funext i
      grind [splicedNodes,newNode,predecessor,successor,Function.update_apply]
    · split <;> rfl

theorem listAdd_ok (cap : Capacity) (s : Pool α) (l : ℤ) (x : α)
    (hn : NodeIndex cap s.freeNodeHead) (hr : Ready cap s l .afterCurr)
    (hs : splice .add (s.lists l) = .afterCurr) :
    listAdd cap s (some l) (some x) = .ok (spliced .afterCurr s l x,0) := by
  have hne := index_ne_sentinel hn
  obtain ⟨⟨hc,hcn⟩,hp⟩ := hr
  have hcz := index_ne_sentinel hc
  have h0 : ¬ ((s.lists l).count = 0 ∨ (s.lists l).after = 1 ∨ (s.lists l).curr = -1) := by
    intro h
    simp [splice,h] at hs
  have h1 : (s.lists l).before ≠ 1 := by intro h; simp [splice,h0,h] at hs
  by_cases hpz : (s.nodes (s.lists l).curr).next = -1
  · simp [listAdd,h0,h1,nodeAllocator_ok cap s hn,hne,allocated,setNode_ok _ _ hn,
      setNode_ok _ _ hc,node_ok _ hc,spliced,splicedList,Pool.store,Pool.setList,hcn,hpz]
    funext i
    grind [splicedNodes,newNode,predecessor,successor,Function.update_apply]
  · obtain ⟨hp,hpn⟩ := hp hpz
    simp [listAdd,h0,h1,nodeAllocator_ok cap s hn,hne,allocated,setNode_ok _ _ hn,
      setNode_ok _ _ hc,node_ok _ hc,setNode_ok _ _ hp,spliced,splicedList,
      Pool.store,Pool.setList,hcn,hpz]
    funext i
    grind [splicedNodes,newNode,predecessor,successor,Function.update_apply]

/-- Every insertion function is the splice it selects, on the indices it needs. -/
theorem runAdder_ok (cap : Capacity) (a : Adder) (s : Pool α) (l : ℤ) (x : α)
    (hn : NodeIndex cap s.freeNodeHead) (hr : Ready cap s l (splice a (s.lists l))) :
    runAdder cap a s (some l) (some x) = .ok (spliced (splice a (s.lists l)) s l x,0) := by
  cases a with
  | append => exact listAppend_ok cap s l x hn hr
  | prepend => exact listPrepend_ok cap s l x hn hr
  | insert =>
    by_cases h0 : (s.lists l).count = 0
    · simp only [splice,if_pos h0] at hr ⊢
      simpa [runAdder,listInsert,h0] using listAppend_ok cap s l x hn hr
    by_cases h1 : (s.lists l).before = 1
    · simp only [splice,if_neg h0,if_pos h1] at hr ⊢
      simpa [runAdder,listInsert,h0,h1] using listPrepend_ok cap s l x hn hr
    by_cases h2 : (s.lists l).after = 1
    · simp only [splice,if_neg h0,if_neg h1,if_pos h2] at hr ⊢
      simpa [runAdder,listInsert,h0,h1,h2] using listAppend_ok cap s l x hn hr
    · have hs : splice .insert (s.lists l) = .beforeCurr := by simp [splice,h0,h1,h2]
      rw [hs] at hr ⊢
      exact listInsert_ok cap s l x hn hr hs
  | add =>
    by_cases h0 : (s.lists l).count = 0 ∨ (s.lists l).after = 1 ∨ (s.lists l).curr = -1
    · simp only [splice,if_pos h0] at hr ⊢
      simpa [runAdder,listAdd,h0] using listAppend_ok cap s l x hn hr
    by_cases h1 : (s.lists l).before = 1
    · simp only [splice,if_neg h0,if_pos h1] at hr ⊢
      simpa [runAdder,listAdd,h0,h1] using listPrepend_ok cap s l x hn hr
    · have hs : splice .add (s.lists l) = .afterCurr := by simp [splice,h0,h1]
      rw [hs] at hr ⊢
      exact listAdd_ok cap s l x hn hr hs

theorem runAdder_full (cap : Capacity) (a : Adder) (s : Pool α) (l : ℤ) (x : α)
    (hf : s.freeNodeHead = -1) : runAdder cap a s (some l) (some x) = .ok (s,-1) := by
  cases a <;> simp only [runAdder,listAdd,listInsert,listAppend,listPrepend,
    nodeAllocator_full cap s hf,ok_bind,if_true,ite_self]

end ListlibSyscalls.PoolSplice
