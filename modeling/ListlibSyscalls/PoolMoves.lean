import ListlibSyscalls.PoolSplice

/-!
# Cursor moves, concatenation and creation in closed form

A cursor move rewrites one list record and no node. Concatenation rewrites
two links and two list records. The first creation lays out both free chains;
every creation afterwards only unlinks the first free list.
-/

set_option autoImplicit false

namespace ListlibSyscalls.PoolMoves
open StepRuns PoolMachine PoolHistory PoolSplice

variable {α : Type}

def movedList (m : Mover) (L : LIST) (c : Node α) : LIST :=
  match m with
  | .first => if L.count = 0 then L else { L with curr := L.head, before := 0, after := 0 }
  | .last => if L.count = 0 then L else { L with curr := L.tail, before := 0 }
  | .next => if L.after = 1 then L
      else if c.next = -1 then { L with curr := -1, after := 1, before := 0 }
      else { L with curr := c.next }
  | .prev => if L.before = 1 then L
      else if c.prev = -1 then { L with curr := -1, before := 1, after := 0 }
      else { L with curr := c.prev }

theorem movedList_ends (m : Mover) (L : LIST) (c : Node α) : (movedList m L c).head = L.head ∧
    (movedList m L c).tail = L.tail ∧ (movedList m L c).count = L.count := by
  cases m <;> simp only [movedList] <;> split_ifs <;> exact ⟨rfl,rfl,rfl⟩

def moved (m : Mover) (s : Pool α) (l : ℤ) : Pool α :=
  s.setList l fun L => movedList m L (s.nodes L.curr)

def movedItem (m : Mover) (s : Pool α) (l : ℤ) : Option α :=
  match m with
  | .first => if (s.lists l).count = 0 then none else (s.nodes (s.lists l).head).item
  | .last => if (s.lists l).count = 0 then none else (s.nodes (s.lists l).tail).item
  | .next => if (s.lists l).after = 1 ∨ (s.nodes (s.lists l).curr).next = -1 then none
      else (s.nodes (s.nodes (s.lists l).curr).next).item
  | .prev => if (s.lists l).before = 1 ∨ (s.nodes (s.lists l).curr).prev = -1 then none
      else (s.nodes (s.nodes (s.lists l).curr).prev).item

def Movable (cap : Capacity) (s : Pool α) (l : ℤ) : Mover → Prop
  | .first => (s.lists l).count ≠ 0 → NodeIndex cap (s.lists l).head
  | .last => (s.lists l).count ≠ 0 → NodeIndex cap (s.lists l).tail
  | .next => (s.lists l).after ≠ 1 → NodeIndex cap (s.lists l).curr ∧
      ((s.nodes (s.lists l).curr).next ≠ -1 → NodeIndex cap (s.nodes (s.lists l).curr).next)
  | .prev => (s.lists l).before ≠ 1 → NodeIndex cap (s.lists l).curr ∧
      ((s.nodes (s.lists l).curr).prev ≠ -1 → NodeIndex cap (s.nodes (s.lists l).curr).prev)

theorem runMover_ok (cap : Capacity) (m : Mover) (s : Pool α) (l : ℤ)
    (hm : Movable cap s l m) :
    runMover cap m s (some l) = .ok (moved m s l,movedItem m s l) := by
  cases m with
  | first =>
    by_cases hc : (s.lists l).count = 0
    · simp [runMover,listFirst,hc,moved,movedList,movedItem,Pool.setList]
    · simp [runMover,listFirst,hc,moved,movedList,movedItem,Pool.setList,node_ok _ (hm hc)]
  | last =>
    by_cases hc : (s.lists l).count = 0
    · simp [runMover,listLast,hc,moved,movedList,movedItem,Pool.setList]
    · simp [runMover,listLast,hc,moved,movedList,movedItem,Pool.setList,node_ok _ (hm hc)]
  | next =>
    by_cases ha : (s.lists l).after = 1
    · simp [runMover,listNext,ha,moved,movedList,movedItem,Pool.setList]
    · obtain ⟨hc,hn⟩ := hm ha
      by_cases hz : (s.nodes (s.lists l).curr).next = -1
      · simp [runMover,listNext,ha,hz,moved,movedList,movedItem,Pool.setList,node_ok _ hc]
      · simp [runMover,listNext,ha,hz,moved,movedList,movedItem,Pool.setList,node_ok _ hc,
          node_ok _ (hn hz)]
  | prev =>
    by_cases ha : (s.lists l).before = 1
    · simp [runMover,listPrev,ha,moved,movedList,movedItem,Pool.setList]
    · obtain ⟨hc,hn⟩ := hm ha
      by_cases hz : (s.nodes (s.lists l).curr).prev = -1
      · simp [runMover,listPrev,ha,hz,moved,movedList,movedItem,Pool.setList,node_ok _ hc]
      · simp [runMover,listPrev,ha,hz,moved,movedList,movedItem,Pool.setList,node_ok _ hc,
          node_ok _ (hn hz)]

theorem runMover_fault (cap : Capacity) (m : Mover) (s : Pool α) (l : ℤ)
    (hm : (m = .next ∧ (s.lists l).after ≠ 1) ∨ (m = .prev ∧ (s.lists l).before ≠ 1))
    (hc : (s.lists l).curr = -1) : runMover cap m s (some l) = .error (.node (-1)) := by
  rcases hm with ⟨rfl,ha⟩ | ⟨rfl,ha⟩
  · simp [runMover,listNext,ha,hc,Pool.node,not_index_sentinel]
  · simp [runMover,listPrev,ha,hc,Pool.node,not_index_sentinel]

theorem listCurr_ok (cap : Capacity) (s : Pool α) (l : ℤ)
    (hc : (s.lists l).curr ≠ -1 → NodeIndex cap (s.lists l).curr) :
    listCurr cap s (some l) =
      .ok (if (s.lists l).curr = -1 then none else (s.nodes (s.lists l).curr).item) := by
  by_cases h : (s.lists l).curr = -1
  · simp [listCurr,h]
  · simp [listCurr,h,node_ok _ (hc h)]

def emptied (L : LIST) : LIST := ⟨-1,-1,-1,0,1,0,L.link⟩

def joined (s : Pool α) (l1 l2 : ℤ) : Pool α where
  nodes i := { s.nodes i with
    next := if i = (s.lists l1).tail then (s.lists l2).head else (s.nodes i).next
    prev := if i = (s.lists l2).head then (s.lists l1).tail else (s.nodes i).prev }
  lists := Function.update (Function.update s.lists l1
      { s.lists l1 with tail := (s.lists l2).tail,
                        count := (s.lists l1).count+(s.lists l2).count })
    l2 (emptied (s.lists l2))
  freeNodeHead := s.freeNodeHead
  freeListHead := s.freeListHead
  initialized := s.initialized
  returned := s.returned

theorem listConcat_empty (cap : Capacity) (s : Pool α) (l1 l2 : ℤ)
    (h : (s.lists l2).count = 0) : listConcat cap s (some l1) (some l2) = .ok s := if_pos h

theorem listConcat_ok (cap : Capacity) (s : Pool α) (l1 l2 : ℤ)
    (hc : (s.lists l2).count ≠ 0) (ht : NodeIndex cap (s.lists l1).tail)
    (hh : NodeIndex cap (s.lists l2).head) :
    listConcat cap s (some l1) (some l2) = .ok (joined s l1 l2) := by
  have hn : Function.update (Function.update s.nodes (s.lists l1).tail
        { s.nodes (s.lists l1).tail with next := (s.lists l2).head })
      (s.lists l2).head
      { Function.update s.nodes (s.lists l1).tail
          { s.nodes (s.lists l1).tail with next := (s.lists l2).head } (s.lists l2).head with
        prev := (s.lists l1).tail } = (joined s l1 l2).nodes := by
    funext i
    grind [joined,Function.update_apply]
  by_cases hl : l1 = l2
  · subst hl
    simp only [listConcat,if_neg hc,setNode_ok _ _ ht,setNode_ok _ _ hh,ok_bind,store_lists]
    simp [Pool.store,Pool.setList,joined,emptied,hn]
  · simp only [listConcat,if_neg hc,setNode_ok _ _ ht,setNode_ok _ _ hh,ok_bind,store_lists]
    simp [Pool.store,Pool.setList,joined,emptied,Ne.symm hl,hn]

theorem listConcat_fault (cap : Capacity) (s : Pool α) (l1 l2 : ℤ)
    (hc : (s.lists l2).count ≠ 0) (ht : (s.lists l1).tail = -1) :
    listConcat cap s (some l1) (some l2) = .error (.node (-1)) := by
  simp [listConcat,hc,ht,Pool.setNode,not_index_sentinel]

/-- The link an initialization loop leaves in element `i` of an array of size `n`. -/
def chained (n : ℕ) (i : ℤ) : ℤ := if i = n-1 then -1 else i+1

def laidOut (cap : Capacity) (s : Pool α) : Pool α where
  nodes i := if NodeIndex cap i then ⟨none,-1,-1,chained cap.maxNodes i⟩ else s.nodes i
  lists i := if ListIndex cap i then ⟨-1,-1,-1,0,1,0,chained cap.maxLists i⟩ else s.lists i
  freeNodeHead := s.freeNodeHead
  freeListHead := s.freeListHead
  initialized := 1
  returned := s.returned

theorem initNodes_ok (cap : Capacity) (s : Pool α) (k : ℕ) (hk : k ≤ cap.maxNodes) :
    initNodes cap k s = .ok { s with
      nodes := fun i => if 0 ≤ i ∧ i < k then ⟨none,-1,-1,i+1⟩ else s.nodes i } := by
  induction k with
  | zero =>
    have h (i : ℤ) : ¬ (0 ≤ i ∧ i < ((0:ℕ):ℤ)) := by omega
    simp only [initNodes,if_neg (h _)]
  | succ k ih =>
    have hi : NodeIndex cap (k:ℤ) := ⟨by omega,by omega⟩
    rw [initNodes,ih (by omega),ok_bind,setNode_ok _ _ hi]
    congr 1
    simp only [Pool.store,Pool.mk.injEq,and_true]
    funext i
    by_cases h : i = k
    · simp [h]
    · have hiff : (0 ≤ i ∧ i < ((k+1:ℕ):ℤ)) ↔ (0 ≤ i ∧ i < (k:ℤ)) := by omega
      simp only [Function.update_of_ne h,hiff]

theorem initLists_eq (s : Pool α) (k : ℕ) :
    initLists k s = { s with
      lists := fun i => if 0 ≤ i ∧ i < k then ⟨-1,-1,-1,0,1,0,i+1⟩ else s.lists i } := by
  induction k with
  | zero =>
    have h (i : ℤ) : ¬ (0 ≤ i ∧ i < ((0:ℕ):ℤ)) := by omega
    simp only [initLists,if_neg (h _)]
  | succ k ih =>
    rw [initLists,ih]
    simp only [Pool.setList,Pool.mk.injEq,and_true,true_and]
    funext i
    by_cases h : i = k
    · simp [h]
    · have hiff : (0 ≤ i ∧ i < ((k+1:ℕ):ℤ)) ↔ (0 ≤ i ∧ i < (k:ℤ)) := by omega
      simp only [Function.update_of_ne h,hiff]

theorem initPools_ok (cap : Capacity) (s : Pool α) : initPools cap s = .ok (laidOut cap s) := by
  have hp := cap.nodes_pos
  have hl := cap.lists_pos
  have hi : NodeIndex cap ((cap.maxNodes:ℤ)-1) := ⟨by omega,by omega⟩
  rw [initPools,initNodes_ok cap s _ (le_refl _),ok_bind,setNode_ok _ _ hi,ok_bind,initLists_eq]
  simp only [Pool.store,Pool.setList,laidOut,Except.ok.injEq,Pool.mk.injEq,and_true]
  constructor
  · funext i
    by_cases h : i = cap.maxNodes-1
    · subst h
      have hr : 1 ≤ cap.maxNodes := hp
      simp [chained,NodeIndex,hr]
    · simp [chained,NodeIndex,h]
  · funext i
    by_cases h : i = cap.maxLists-1
    · subst h
      have hr : 1 ≤ cap.maxLists := hl
      simp [chained,ListIndex,hr]
    · simp [chained,ListIndex,h]

/-- The pools a creation starts from: laid out by the first one. -/
def prepared (cap : Capacity) (s : Pool α) : Pool α :=
  if s.initialized = 0 then laidOut cap s else s

def opened (s : Pool α) : Pool α :=
  { s with
    freeListHead := (s.lists s.freeListHead).link
    lists := Function.update s.lists s.freeListHead { s.lists s.freeListHead with link := -1 } }

theorem listCreate_full (cap : Capacity) (s : Pool α) (h : (prepared cap s).freeListHead = -1) :
    listCreate cap s = .ok (prepared cap s,none) := by
  by_cases h0 : s.initialized = 0
  · simp only [prepared,if_pos h0] at h ⊢
    simp only [listCreate,if_pos h0,initPools_ok,ok_bind,if_pos h]
  · simp only [prepared,if_neg h0] at h ⊢
    simp only [listCreate,if_neg h0,ok_bind,if_pos h]

theorem listCreate_ok (cap : Capacity) (s : Pool α)
    (h : ListIndex cap (prepared cap s).freeListHead) :
    listCreate cap s =
      .ok (opened (prepared cap s),some (prepared cap s).freeListHead) := by
  have hz : (prepared cap s).freeListHead ≠ -1 := by have := h.1; omega
  by_cases h0 : s.initialized = 0
  · simp only [prepared,if_pos h0] at h hz ⊢
    simp only [listCreate,if_pos h0,initPools_ok,ok_bind,if_neg hz,Pool.list,if_pos h,
      Pool.setList,opened]
  · simp only [prepared,if_neg h0] at h hz ⊢
    simp only [listCreate,if_neg h0,ok_bind,if_neg hz,Pool.list,if_pos h,Pool.setList,opened]

end ListlibSyscalls.PoolMoves
