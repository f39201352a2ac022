import ListlibSyscalls.PoolInsertions

/-!
# Walking through a list

`ListNext` and `ListPrev` are one move in two directions: follow a link, and
park the cursor at -1 with a flag when the link runs out. From either end the
moves return every item once and then NULL for good. Turning round undoes a
move between two nodes only: a parked cursor has no link to follow back, and
the move off it reads in front of the array.
-/

set_option autoImplicit false

namespace ListlibSyscalls.PoolTraversal
open StepRuns LinkedChain PoolMachine PoolHistory PoolSplice PoolMoves PoolShape PoolContents
open PoolInsertions

variable {α : Type}

inductive Way where
  | forward
  | backward
  deriving DecidableEq

namespace Way

def back : Way → Way
  | .forward => .backward
  | .backward => .forward

def mover : Way → Mover
  | .forward => .next
  | .backward => .prev

def link : Way → Node α → ℤ
  | .forward => Node.next
  | .backward => Node.prev

def flag : Way → LIST → ℤ
  | .forward => LIST.after
  | .backward => LIST.before

def origin : Way → LIST → ℤ
  | .forward => LIST.head
  | .backward => LIST.tail

def restart : Way → Mover
  | .forward => .first
  | .backward => .last

/-- The record of a list whose cursor has run off in this direction. -/
def parked : Way → LIST → LIST
  | .forward, L => { L with curr := -1, after := 1, before := 0 }
  | .backward, L => { L with curr := -1, before := 1, after := 0 }

end Way

section Moves

variable {cap : Capacity} {s : Pool α} {l : ℤ} (w : Way)

theorem move_flagged (hf : w.flag (s.lists l) = 1) :
    runMover cap w.mover s (some l) = .ok (s,none) := by
  cases w with
  | forward => exact if_pos hf
  | backward => exact if_pos hf

theorem move_on (hf : w.flag (s.lists l) ≠ 1) (hc : NodeIndex cap (s.lists l).curr)
    (hn : NodeIndex cap (w.link (s.nodes (s.lists l).curr))) :
    runMover cap w.mover s (some l) =
      .ok (s.setList l fun L => { L with curr := w.link (s.nodes (s.lists l).curr) },
        (s.nodes (w.link (s.nodes (s.lists l).curr))).item) := by
  have hz := index_ne_sentinel hn
  cases w with
  | forward =>
    rw [Way.mover,runMover_ok cap .next s l (fun _ => ⟨hc,fun _ => hn⟩)]
    simp only [Way.flag,Way.link] at hf hz
    simp [moved,movedList,movedItem,hf,hz,Pool.setList,Way.link]
  | backward =>
    rw [Way.mover,runMover_ok cap .prev s l (fun _ => ⟨hc,fun _ => hn⟩)]
    simp only [Way.flag,Way.link] at hf hz
    simp [moved,movedList,movedItem,hf,hz,Pool.setList,Way.link]

theorem move_off (hf : w.flag (s.lists l) ≠ 1) (hc : NodeIndex cap (s.lists l).curr)
    (hn : w.link (s.nodes (s.lists l).curr) = -1) :
    runMover cap w.mover s (some l) = .ok (s.setList l w.parked,none) := by
  cases w with
  | forward =>
    rw [Way.mover,runMover_ok cap .next s l (fun _ => ⟨hc,fun hne => absurd hn hne⟩)]
    simp only [Way.flag,Way.link] at hf hn
    simp [moved,movedList,movedItem,hf,hn,Pool.setList,Way.parked]
  | backward =>
    rw [Way.mover,runMover_ok cap .prev s l (fun _ => ⟨hc,fun hne => absurd hn hne⟩)]
    simp only [Way.flag,Way.link] at hf hn
    simp [moved,movedList,movedItem,hf,hn,Pool.setList,Way.parked]

theorem move_fault (hf : w.flag (s.lists l) ≠ 1) (hc : (s.lists l).curr = -1) :
    runMover cap w.mover s (some l) = .error (.node (-1)) := by
  cases w with
  | forward => exact runMover_fault cap .next s l (Or.inl ⟨rfl,hf⟩) hc
  | backward => exact runMover_fault cap .prev s l (Or.inr ⟨rfl,hf⟩) hc

theorem parked_cursorOnly : CursorOnly l s (s.setList l w.parked) := by
  cases w with
  | forward => exact ⟨-1,0,1,rfl⟩
  | backward => exact ⟨-1,1,0,rfl⟩

theorem setCurr_cursorOnly (c : ℤ) :
    CursorOnly l s (s.setList l fun L => { L with curr := c }) := by
  refine ⟨c,(s.lists l).before,(s.lists l).after,?_⟩
  simp [Pool.setList]

end Moves

def calls (cap : Capacity) (m : Mover) (l : ℤ) : ℕ → Pool α →
    Except Fault (Pool α × List (Option α))
  | 0, s => .ok (s,[])
  | k+1, s => do
    let (s,x) ← runMover cap m s (some l)
    let (s,xs) ← calls cap m l k s
    .ok (s,x::xs)

/-- A call that moves to one end, followed by calls that move on from it. -/
def sweep (cap : Capacity) (w : Way) (l : ℤ) (k : ℕ) (s : Pool α) :
    Except Fault (Pool α × List (Option α)) := do
  let (s,x) ← runMover cap w.restart s (some l)
  let (s,xs) ← calls cap w.mover l k s
  .ok (s,x::xs)

theorem calls_flagged (cap : Capacity) (w : Way) (s : Pool α) (l : ℤ)
    (hf : w.flag (s.lists l) = 1) (k : ℕ) :
    calls cap w.mover l k s = .ok (s,List.replicate k none) := by
  induction k with
  | zero => rfl
  | succ k ih =>
    rw [calls,move_flagged w hf]
    simp only [ok_bind,ih,List.replicate_succ]

def RunOff (w : Way) (L : LIST) : Prop := L.curr = -1 ∧ w.flag L = 1

theorem parked_runOff (w : Way) (L : LIST) : RunOff w (w.parked L) := by
  cases w with
  | forward => exact ⟨rfl,rfl⟩
  | backward => exact ⟨rfl,rfl⟩

theorem setCurr_flag (w : Way) (L : LIST) (c : ℤ) : w.flag { L with curr := c } = w.flag L := by
  cases w with
  | forward => rfl
  | backward => rfl

/-- From a node with the nodes `is` ahead of it, the calls return the items of
`is` in order and then NULL. -/
theorem calls_walk (cap : Capacity) (w : Way) (l c : ℤ) (is : List ℤ) (s : Pool α)
    (hf : w.flag (s.lists l) ≠ 1) (hi : ∀ i ∈ c::is, NodeIndex cap i)
    (hw : Walk (fun i => w.link (s.nodes i)) (-1) (s.lists l).curr (c::is) (-1)) (k : ℕ) :
    ∃ s', calls cap w.mover l k s = .ok (s',(is.map fun i => (s.nodes i).item).take k++
        List.replicate (k-is.length) none) ∧
      CursorOnly l s s' ∧ (is.length < k → RunOff w (s'.lists l)) := by
  induction is generalizing s c k with
  | nil =>
    obtain ⟨rfl,_,hend⟩ := hw
    cases k with
    | zero => exact ⟨s,rfl,CursorOnly.refl l s,by simp⟩
    | succ k =>
      have hoff : RunOff w ((s.setList l w.parked).lists l) := by
        simpa using parked_runOff w (s.lists l)
      refine ⟨s.setList l w.parked,?_,parked_cursorOnly w,fun _ => hoff⟩
      rw [calls,move_off w hf (hi _ (by simp)) hend]
      simp only [ok_bind,calls_flagged cap w _ l hoff.2 k]
      simp [List.replicate_succ]
  | cons j js ih =>
    obtain ⟨rfl,_,hw⟩ := hw
    have hj : w.link (s.nodes (s.lists l).curr) = j := hw.1
    cases k with
    | zero => exact ⟨s,by simp [calls],CursorOnly.refl l s,by simp⟩
    | succ k =>
      have hnext : NodeIndex cap (w.link (s.nodes (s.lists l).curr)) := by
        rw [hj]
        exact hi j (by simp)
      let s₁ := s.setList l fun L => { L with curr := w.link (s.nodes (s.lists l).curr) }
      have hcurr : (s₁.lists l).curr = w.link (s.nodes (s.lists l).curr) := by simp [s₁]
      have hflag : w.flag (s₁.lists l) ≠ 1 := by
        simpa [s₁,setCurr_flag] using hf
      obtain ⟨s',hcalls,honly,hoff⟩ := ih j s₁ hflag (fun i hm => hi i (by simp [hm]))
        (by rw [hcurr]; exact hw) k
      refine ⟨s',?_,(setCurr_cursorOnly _).trans honly,fun hk => hoff (by simpa using hk)⟩
      rw [calls,move_on w hf (hi _ (by simp)) hnext]
      simp only [ok_bind,s₁] at hcalls ⊢
      rw [hcalls]
      simp [hj]

def Way.along {β : Type} : Way → List β → List β
  | .forward, xs => xs
  | .backward, xs => xs.reverse

theorem walk_along {cap : Capacity} {s : Pool α} {l : ℤ} (hw : WellFormed cap s l) (w : Way) :
    Walk (fun i => w.link (s.nodes i)) (-1) (w.origin (s.lists l)) (w.along (nodesOf s l)) (-1) := by
  cases w with
  | forward => exact hw.chain.forward
  | backward => exact hw.chain.reverse.forward

theorem along_map {β γ : Type} (w : Way) (f : β → γ) (xs : List β) :
    w.along (xs.map f) = (w.along xs).map f := by
  cases w with
  | forward => rfl
  | backward => exact (List.map_reverse ..).symm

theorem along_mem {β : Type} (w : Way) (xs : List β) (x : β) : x ∈ w.along xs ↔ x ∈ xs := by
  cases w with
  | forward => rfl
  | backward => exact List.mem_reverse

theorem along_length {β : Type} (w : Way) (xs : List β) : (w.along xs).length = xs.length := by
  cases w with
  | forward => rfl
  | backward => exact List.length_reverse

theorem restart_ok {cap : Capacity} {s : Pool α} {l : ℤ} (w : Way)
    (h0 : (s.lists l).count ≠ 0) (hi : NodeIndex cap (w.origin (s.lists l))) :
    ∃ s', runMover cap w.restart s (some l) =
        .ok (s',(s.nodes (w.origin (s.lists l))).item) ∧
      CursorOnly l s s' ∧ (s'.lists l).curr = w.origin (s.lists l) ∧ w.flag (s'.lists l) = 0 := by
  cases w with
  | forward =>
    refine ⟨moved .first s l,?_,moved_cursorOnly .first s l,?_,?_⟩
    · rw [Way.restart,runMover_ok cap .first s l (fun _ => hi)]
      simp [movedItem,h0,Way.origin]
    · simp [moved,movedList,h0,Way.origin]
    · simp [moved,movedList,h0,Way.flag]
  | backward =>
    refine ⟨moved .last s l,?_,moved_cursorOnly .last s l,?_,?_⟩
    · rw [Way.restart,runMover_ok cap .last s l (fun _ => hi)]
      simp [movedItem,h0,Way.origin]
    · simp [moved,movedList,h0,Way.origin]
    · simp [moved,movedList,h0,Way.flag]

theorem sweep_walk {cap : Capacity} {s : Pool α} {l : ℤ} (w : Way) {is : List ℤ}
    (h0 : (s.lists l).count ≠ 0) (hne : is ≠ []) (hi : ∀ i ∈ is, NodeIndex cap i)
    (hw : Walk (fun i => w.link (s.nodes i)) (-1) (w.origin (s.lists l)) is (-1)) (k : ℕ) :
    ∃ s', sweep cap w l k s = .ok (s',(is.map fun i => (s.nodes i).item).take (k+1)++
        List.replicate (k+1-is.length) none) ∧
      CursorOnly l s s' ∧ (is.length ≤ k → RunOff w (s'.lists l)) := by
  cases is with
  | nil => exact absurd rfl hne
  | cons c is =>
    have ho : w.origin (s.lists l) = c := hw.1
    obtain ⟨s₁,hr,honly,hcurr,hflag⟩ := restart_ok w h0 (ho ▸ hi c (by simp))
    have hw₁ : Walk (fun i => w.link (s₁.nodes i)) (-1) (s₁.lists l).curr (c::is) (-1) := by
      rw [hcurr,honly.nodes]
      exact hw
    obtain ⟨s',hcalls,honly',hoff⟩ := calls_walk cap w l c is s₁ (by omega) hi hw₁ k
    refine ⟨s',?_,honly.trans honly',fun hk => hoff (by simpa using hk)⟩
    rw [sweep,hr]
    simp only [ok_bind,hcalls,honly.nodes]
    rw [ho,List.length_cons,Nat.add_sub_add_right]
    simp

theorem sweep_returns {cap : Capacity} {s : Pool α} {l : ℤ} (hw : WellFormed cap s l)
    (h0 : (s.lists l).count ≠ 0) (w : Way) (k : ℕ) :
    ∃ s', sweep cap w l k s = .ok (s',(w.along (items s l)).take (k+1)++
        List.replicate (k+1-(items s l).length) none) ∧
      CursorOnly l s s' ∧ ((items s l).length ≤ k → RunOff w (s'.lists l)) := by
  have hne : w.along (nodesOf s l) ≠ [] := by
    intro he
    have hlen := along_length w (nodesOf s l)
    rw [he] at hlen
    exact hw.nodes_ne_nil h0 (List.length_eq_zero_iff.mp hlen.symm)
  have hidx : ∀ i ∈ w.along (nodesOf s l), NodeIndex cap i := by
    intro i hi
    exact hw.indices i ((along_mem w _ i).mp hi)
  have hcount : (items s l).length = (w.along (nodesOf s l)).length := by
    rw [items,List.length_map,along_length]
  rw [hcount,items,along_map]
  exact sweep_walk w h0 hne hidx (walk_along hw w) k

/-- From either end and any leftover cursor, the calls return every item once
in order, then NULL without end, and nothing but the cursor changes. -/
theorem traversal_from_either_end {cap : Capacity} {s : Pool α} {l : ℤ}
    (hw : WellFormed cap s l) (h0 : (s.lists l).count ≠ 0) (k : ℕ) :
    (∃ s', sweep cap .forward l k s = .ok (s',(items s l).take (k+1)++
        List.replicate (k+1-(items s l).length) none) ∧ CursorOnly l s s' ∧
      ((items s l).length ≤ k → (s'.lists l).curr = -1 ∧ (s'.lists l).after = 1)) ∧
    ∃ s', sweep cap .backward l k s = .ok (s',(items s l).reverse.take (k+1)++
        List.replicate (k+1-(items s l).length) none) ∧ CursorOnly l s s' ∧
      ((items s l).length ≤ k → (s'.lists l).curr = -1 ∧ (s'.lists l).before = 1) :=
  ⟨sweep_returns hw h0 .forward k,sweep_returns hw h0 .backward k⟩

theorem traversal_from_either_end_parked :
    AfterLast ((after [.mover .last 0,.mover .next 0]).lists 0) ∧
    ∃ s', sweep shipped .backward 0 4 (after [.mover .last 0,.mover .next 0]) =
      .ok (s',[some 20,some 10,some 30,none,none]) := by
  refine ⟨by decide,?_⟩
  have hw : WellFormed shipped (after [.mover .last 0,.mover .next 0]) 0 := by decide
  obtain ⟨-,s',hs,-⟩ := traversal_from_either_end hw (by decide) 4
  exact ⟨s',hs⟩

/-- The `n+2` cursor positions of a list of `n` items. -/
def Positioned (s : Pool α) (l : ℤ) : Prop :=
  BeforeFirst (s.lists l) ∨ AfterLast (s.lists l) ∨ ∃ i, CursorAt s l i

/-- A move in one direction and one back leave the cursor where it was. -/
def Undoes (cap : Capacity) (w : Way) (s : Pool α) (l : ℤ) : Prop :=
  ∃ s₁ x₁ s₂ x₂, runMover cap w.mover s (some l) = .ok (s₁,x₁) ∧
    runMover cap w.back.mover s₁ (some l) = .ok (s₂,x₂) ∧
    (s₂.lists l).curr = (s.lists l).curr ∧ (s₂.lists l).before = (s.lists l).before ∧
    (s₂.lists l).after = (s.lists l).after

section Undo

variable {cap : Capacity} {s : Pool α} {l : ℤ}

theorem neighbour_along (hw : WellFormed cap s l) (w : Way) {c : ℤ} (hc : c ∈ nodesOf s l) :
    (w.link (s.nodes c) = -1 ↔ c = w.back.origin (s.lists l)) ∧
    (w.link (s.nodes c) ≠ -1 → w.link (s.nodes c) ∈ nodesOf s l ∧
      w.back.link (s.nodes (w.link (s.nodes c))) = c) := by
  cases w with
  | forward => exact hw.chain.neighbour hc
  | backward =>
    have h := hw.chain.reverse.neighbour (List.mem_reverse.mpr hc)
    simpa [Way.link,Way.back,Way.origin] using h

theorem undoes_inside (hw : WellFormed cap s l) (w : Way) {i : ℕ} (hc : CursorAt s l i)
    (hne : (s.lists l).curr ≠ w.back.origin (s.lists l)) : Undoes cap w s l := by
  have hi := hw.indices _ hc.mem
  obtain ⟨hend,hon⟩ := neighbour_along hw w hc.mem
  obtain ⟨hm,hback⟩ := hon (fun he => hne (hend.mp he))
  have hflag (v : Way) : v.flag (s.lists l) ≠ 1 := by
    cases v with
    | forward => simp [Way.flag,hc.not_after]
    | backward => simp [Way.flag,hc.not_before]
  have hfirst := move_on w (hflag w) hi (hw.indices _ hm)
  let s₁ := s.setList l fun L => { L with curr := w.link (s.nodes (s.lists l).curr) }
  have hcurr : (s₁.lists l).curr = w.link (s.nodes (s.lists l).curr) := by simp [s₁]
  have hlink : w.back.link (s₁.nodes (s₁.lists l).curr) = (s.lists l).curr := by
    rw [hcurr]
    exact hback
  have hflag₁ : w.back.flag (s₁.lists l) ≠ 1 := by
    simpa [s₁,setCurr_flag] using hflag w.back
  have hi₁ : NodeIndex cap (s₁.lists l).curr := by
    rw [hcurr]
    exact hw.indices _ hm
  have hsecond := move_on w.back hflag₁ hi₁ (by rw [hlink]; exact hi)
  refine ⟨_,_,_,_,hfirst,hsecond,?_,?_,?_⟩
  · rw [hlink]
    simp
  · simp [s₁]
  · simp [s₁]

theorem not_undoes_parked (w : Way) (hr : RunOff w (s.lists l))
    (hb : w.back.flag (s.lists l) ≠ 1) : ¬ Undoes cap w s l := by
  rintro ⟨s₁,x₁,s₂,x₂,h₁,h₂,-⟩
  rw [move_flagged w hr.2] at h₁
  cases h₁
  rw [move_fault w.back hb hr.1] at h₂
  cases h₂

theorem not_undoes_fault (w : Way) (hc : (s.lists l).curr = -1)
    (hf : w.flag (s.lists l) ≠ 1) : ¬ Undoes cap w s l := by
  rintro ⟨s₁,x₁,s₂,x₂,h₁,-⟩
  rw [move_fault w hf hc] at h₁
  cases h₁

/-- The move off the list parks the cursor, and the move back reads at -1. -/
theorem not_undoes_end (hw : WellFormed cap s l) (w : Way) {i : ℕ} (hc : CursorAt s l i)
    (he : (s.lists l).curr = w.back.origin (s.lists l)) : ¬ Undoes cap w s l := by
  rintro ⟨s₁,x₁,s₂,x₂,h₁,h₂,-⟩
  have hlink := (neighbour_along hw w hc.mem).1.mpr he
  have hflag : w.flag (s.lists l) ≠ 1 := by
    cases w with
    | forward => simp [Way.flag,hc.not_after]
    | backward => simp [Way.flag,hc.not_before]
  rw [move_off w hflag (hw.indices _ hc.mem) hlink] at h₁
  cases h₁
  have hcurr : ((s.setList l w.parked).lists l).curr = -1 := by
    cases w <;> simp [Way.parked]
  have hback : w.back.flag ((s.setList l w.parked).lists l) ≠ 1 := by
    cases w <;> simp [Way.parked,Way.back,Way.flag]
  rw [move_fault w.back hback hcurr] at h₂
  cases h₂

theorem not_undoes_off (w : Way) (h : BeforeFirst (s.lists l) ∨ AfterLast (s.lists l)) :
    ¬ Undoes cap w s l := by
  rcases h with ⟨hc,hb,ha⟩ | ⟨hc,hb,ha⟩
  · cases w with
    | forward => exact not_undoes_fault .forward hc (by simp [Way.flag,ha])
    | backward => exact not_undoes_parked .backward ⟨hc,hb⟩ (by simp [Way.back,Way.flag,ha])
  · cases w with
    | forward => exact not_undoes_parked .forward ⟨hc,ha⟩ (by simp [Way.back,Way.flag,hb])
    | backward => exact not_undoes_fault .backward hc (by simp [Way.flag,hb])

/-- At each position, a move is undone exactly when it leads to a node from a node. -/
theorem undoes_iff (hw : WellFormed cap s l) (hp : Positioned s l) (w : Way) :
    Undoes cap w s l ↔ (s.lists l).curr ≠ -1 ∧ (s.lists l).curr ≠ w.back.origin (s.lists l) := by
  rcases hp with hb | ha | ⟨i,hc⟩
  · exact iff_of_false (not_undoes_off w (Or.inl hb)) (fun h => h.1 hb.1)
  · exact iff_of_false (not_undoes_off w (Or.inr ha)) (fun h => h.1 ha.1)
  · have hz := index_ne_sentinel (hw.indices _ hc.mem)
    constructor
    · exact fun h => ⟨hz,fun he => not_undoes_end hw w hc he h⟩
    · exact fun h => undoes_inside hw w hc h.2

end Undo

/-- What is asked of the two moves at a cursor position: each undoes the other
unless the cursor is already off that end, and a parked cursor steps back onto
the item at its end. -/
def MovesInvert (cap : Capacity) (s : Pool α) (l : ℤ) : Prop :=
  (¬ AfterLast (s.lists l) → Undoes cap .forward s l) ∧
  (¬ BeforeFirst (s.lists l) → Undoes cap .backward s l) ∧
  (AfterLast (s.lists l) → ∃ s', listPrev cap s (some l) = .ok (s',(items s l).getLast?.join)) ∧
  (BeforeFirst (s.lists l) → ∃ s', listNext cap s (some l) = .ok (s',(items s l).head?.join))

/-- The moves invert each other exactly on the nodes that have a neighbour on
both sides; `ListNext` is undone on every node but the last, `ListPrev` on
every node but the first, and neither off the list. -/
theorem moves_invert_iff {cap : Capacity} {s : Pool α} {l : ℤ} (hw : WellFormed cap s l)
    (hp : Positioned s l) :
    (MovesInvert cap s l ↔ (s.lists l).curr ≠ -1 ∧ (s.lists l).curr ≠ (s.lists l).head ∧
      (s.lists l).curr ≠ (s.lists l).tail) ∧
    (Undoes cap .forward s l ↔ (s.lists l).curr ≠ -1 ∧ (s.lists l).curr ≠ (s.lists l).tail) ∧
    (Undoes cap .backward s l ↔ (s.lists l).curr ≠ -1 ∧ (s.lists l).curr ≠ (s.lists l).head) := by
  have hf := undoes_iff hw hp .forward
  have hb := undoes_iff hw hp .backward
  refine ⟨?_,hf,hb⟩
  constructor
  · rintro ⟨h₁,h₂,-⟩
    by_cases ha : AfterLast (s.lists l)
    · have hne : ¬ BeforeFirst (s.lists l) := fun h => absurd (h.2.1.symm.trans ha.2.1) (by decide)
      exact absurd ha.1 (hb.mp (h₂ hne)).1
    · have hl := hf.mp (h₁ ha)
      have hne : ¬ BeforeFirst (s.lists l) := fun h => hl.1 h.1
      exact ⟨hl.1,(hb.mp (h₂ hne)).2,hl.2⟩
  · rintro ⟨hz,hh,ht⟩
    exact ⟨fun _ => hf.mpr ⟨hz,ht⟩,fun _ => hb.mpr ⟨hz,hh⟩,fun h => absurd h.1 hz,
      fun h => absurd h.1 hz⟩

theorem moves_invert_middle : CursorAt (after [.mover .next 0]) 0 1 ∧
    MovesInvert shipped (after [.mover .next 0]) 0 := by
  have hc : CursorAt (after [.mover .next 0]) 0 1 := by decide
  exact ⟨hc,(moves_invert_iff (by decide) (Or.inr (Or.inr ⟨1,hc⟩))).1.mpr (by decide)⟩

/-- Behind the last item `ListPrev` reads in front of the array instead of
returning the last item. -/
theorem no_way_back : WellFormed shipped (after [.mover .last 0,.mover .next 0]) 0 ∧
    AfterLast ((after [.mover .last 0,.mover .next 0]).lists 0) ∧
    listPrev shipped (after [.mover .last 0,.mover .next 0]) (some 0) = .error (.node (-1)) ∧
    ¬ MovesInvert shipped (after [.mover .last 0,.mover .next 0]) 0 := by
  have ha : AfterLast ((after [.mover .last 0,.mover .next 0]).lists 0) := by decide
  have hp : runMover shipped .prev (after [.mover .last 0,.mover .next 0]) (some 0) =
      .error (.node (-1)) := move_fault .backward (by decide) ha.1
  refine ⟨by decide,ha,hp,?_⟩
  rintro ⟨-,-,h,-⟩
  obtain ⟨s',hs⟩ := h ha
  exact absurd (hp.symm.trans hs) (by simp)

end ListlibSyscalls.PoolTraversal
