import ListlibSyscalls.PoolContents

/-!
# Where the four insertion functions put an item

`ListInsert` and `ListPrepend` splice correctly into every list that is not
empty. `ListAppend` links the new node back to the cursor, so it does only
when the cursor is on the last node. `ListAdd` leaves the tail alone, so it
does only when the cursor is not on the last node. With the cursor off the
list `ListAdd` tests for the missing cursor before it tests for the front, and
takes the end in both cases.
-/

set_option autoImplicit false

namespace ListlibSyscalls.PoolInsertions
open StepRuns LinkedChain PoolMachine PoolHistory PoolSplice PoolMoves PoolOwnership PoolShape
open PoolContents

variable {α : Type} {cap : Capacity} {s : Pool α} {l : ℤ}

/-- `ListAppend` puts `x` behind all items, in both directions of reading, and
the cursor on it. -/
def Appends (cap : Capacity) (s : Pool α) (l : ℤ) (x : α) : Prop :=
  ∃ s', listAppend cap s (some l) (some x) = .ok (s',0) ∧ WellFormed cap s' l ∧
    items s' l = items s l++[some x] ∧ itemsBack s' l = (items s l++[some x]).reverse ∧
    (s'.lists l).count = (s.lists l).count+1 ∧ (s'.lists l).curr = s.freeNodeHead ∧
    (s'.lists l).before = 0 ∧ (s'.lists l).after = 0

theorem listAppend_spliced (hw : WellFormed cap s l) (h0 : (s.lists l).count ≠ 0)
    (hf : Spare cap s l) (x : α) :
    listAppend cap s (some l) (some x) = .ok (spliced .atEnd s l x,0) :=
  hw.adder_ok h0 hf .append x (by simp [splice])

theorem not_wellFormed_spliced (hw : WellFormed cap s l) (h0 : (s.lists l).count ≠ 0)
    (hf : Spare cap s l) (sp : Splice) (x : α) (hs : ¬ Spliceable sp (s.lists l)) :
    ¬ WellFormed cap (spliced sp s l x) l := by
  intro hw'
  have hb := spliced_broken sp x hw.chain hw.counted (index_ne_sentinel hf.1) hf.2
    (fun hz => absurd hz h0) hs
  apply hb
  have hi : Intact (spliced sp s l x).nodes ((spliced sp s l x).lists l) :=
    ⟨_,hw'.chain,hw'.counted⟩
  simpa [spliced] using hi

theorem appends_of_at_tail (hw : WellFormed cap s l) (h0 : (s.lists l).count ≠ 0)
    (hf : Spare cap s l) (x : α) (hc : (s.lists l).curr = (s.lists l).tail) :
    Appends cap s l x := by
  have hs : Spliceable .atEnd (s.lists l) := ⟨h0,fun _ => hc,by simp⟩
  have hw' := (hw.spliced hf .atEnd x (by simp) hs).1
  have hi := hw.appended_items h0 hf x
  refine ⟨_,listAppend_spliced hw h0 hf x,hw',hi,?_,?_,?_,?_⟩
  · rw [hw'.itemsBack_eq,hi]
  · simp [spliced,splicedList]
  · simp [spliced,splicedList]
  · simp [spliced,splicedList]

theorem at_tail_of_appends (hw : WellFormed cap s l) (h0 : (s.lists l).count ≠ 0)
    (hf : Spare cap s l) {x : α} (h : Appends cap s l x) :
    (s.lists l).curr = (s.lists l).tail := by
  obtain ⟨s',he,hw',-⟩ := h
  rw [listAppend_spliced hw h0 hf x] at he
  by_contra hc
  have hs : ¬ Spliceable .atEnd (s.lists l) := fun hs => hc (hs.2.1 rfl)
  apply not_wellFormed_spliced hw h0 hf .atEnd x hs
  cases he
  exact hw'

/-- `ListAppend` extends a list as it should exactly when the cursor is on its
last node. -/
theorem append_extends_iff (hw : WellFormed cap s l) (h0 : (s.lists l).count ≠ 0)
    (hf : Spare cap s l) (x : α) :
    Appends cap s l x ↔ (s.lists l).curr = (s.lists l).tail :=
  ⟨at_tail_of_appends hw h0 hf,appends_of_at_tail hw h0 hf x⟩

/-- The pools after further calls on the list 30, 10, 20 whose cursor is on
its first node. -/
def after (calls : List (Call ℕ)) : Pool ℕ :=
  (lastState (History.step shipped) repaired calls).pool

theorem append_extends_at_last : items (after [.mover .last 0]) 0 = [some 30,some 10,some 20] ∧
    Appends shipped (after [.mover .last 0]) 0 40 := by
  have hw : WellFormed shipped (after [.mover .last 0]) 0 := by decide +kernel
  have h0 : ((after [.mover .last 0]).lists 0).count ≠ 0 := by decide +kernel
  have hf : Spare shipped (after [.mover .last 0]) 0 := by decide +kernel
  refine ⟨by decide +kernel,(append_extends_iff hw h0 hf 40).mpr ?_⟩
  decide +kernel

/-- With the cursor on the first node the new node links back to it, and
reading backwards skips the two nodes between. -/
theorem append_skips_back : WellFormed shipped (after []) 0 ∧
    ((after []).lists 0).count ≠ 0 ∧ Spare shipped (after []) 0 ∧
    ((after []).lists 0).curr ∈ nodesOf (after []) 0 ∧ ¬ Appends shipped (after []) 0 40 ∧
    (listAppend shipped (after []) (some 0) (some 40)).toOption.map
      (fun r => (items r.1 0,(itemsBack r.1 0).take 2)) =
      some ([some 30,some 10,some 20,some 40],[some 40,some 30]) := by
  have hw : WellFormed shipped (after []) 0 := by decide +kernel
  have h0 : ((after []).lists 0).count ≠ 0 := by decide +kernel
  have hf : Spare shipped (after []) 0 := by decide +kernel
  have hc : ((after []).lists 0).curr ≠ ((after []).lists 0).tail := by decide +kernel
  refine ⟨hw,h0,hf,by decide +kernel,?_,by decide +kernel⟩
  exact fun h => hc (at_tail_of_appends hw h0 hf h)

/-- Both calls that use the tail keep every item of the list in front. -/
def KeepsItems (cap : Capacity) (s : Pool α) (l : ℤ) : Prop :=
  (∀ y, Supplied cap s l → ∃ s' r, listAppend cap s (some l) (some y) = .ok (s',r) ∧
    items s l <+: items s' l) ∧
  ∀ l2, l2 ≠ l → WellFormed cap s l2 → List.Disjoint (nodesOf s l) (nodesOf s l2) →
    ∃ s', listConcat cap s (some l) (some l2) = .ok s' ∧ items s l <+: items s' l

/-- `ListAdd` puts `x` behind the item at position `i`, for good. -/
def AddsBehind (cap : Capacity) (s : Pool α) (l : ℤ) (i : ℕ) (x : α) : Prop :=
  ∃ s', listAdd cap s (some l) (some x) = .ok (s',0) ∧ WellFormed cap s' l ∧
    items s' l = (items s l).insertIdx (i+1) (some x) ∧
    (s'.lists l).count = (s.lists l).count+1 ∧ KeepsItems cap s' l

structure CursorAt (s : Pool α) (l : ℤ) (i : ℕ) : Prop where
  at_node : (nodesOf s l)[i]? = some (s.lists l).curr
  not_before : (s.lists l).before = 0
  not_after : (s.lists l).after = 0

instance (s : Pool α) (l : ℤ) (i : ℕ) : Decidable (CursorAt s l i) :=
  decidable_of_iff ((nodesOf s l)[i]? = some (s.lists l).curr ∧ (s.lists l).before = 0 ∧
      (s.lists l).after = 0)
    ⟨fun ⟨h1,h2,h3⟩ => ⟨h1,h2,h3⟩,fun ⟨h1,h2,h3⟩ => ⟨h1,h2,h3⟩⟩

namespace CursorAt

variable {i : ℕ}

theorem mem (h : CursorAt s l i) : (s.lists l).curr ∈ nodesOf s l :=
  List.mem_of_getElem? h.at_node

theorem idxOf (h : CursorAt s l i) (hw : WellFormed cap s l) :
    (nodesOf s l).idxOf (s.lists l).curr = i := by
  obtain ⟨hi,he⟩ := List.getElem?_eq_some_iff.mp h.at_node
  rw [← he]
  exact hw.chain.distinct.idxOf_getElem i hi

theorem count_ne_zero (h : CursorAt s l i) (hw : WellFormed cap s l) :
    (s.lists l).count ≠ 0 := by
  have hc := hw.counted
  have hp := List.length_pos_of_mem h.mem
  omega

end CursorAt

theorem keepsItems (hw : WellFormed cap s l) (h0 : (s.lists l).count ≠ 0) :
    KeepsItems cap s l := by
  constructor
  · intro y hf
    rcases hf with hf | hf
    · exact ⟨s,-1,runAdder_full cap .append s l y hf,List.prefix_refl _⟩
    · refine ⟨_,0,listAppend_spliced hw h0 hf y,?_⟩
      rw [hw.appended_items h0 hf y]
      exact List.prefix_append _ _
  · intro l2 hne hw2 hd
    by_cases h02 : (s.lists l2).count = 0
    · exact ⟨s,listConcat_empty cap s l l2 h02,List.prefix_refl _⟩
    · refine ⟨_,listConcat_ok cap s l l2 h02 (hw.tail_index h0)
        (hw2.indices _ (hw2.head_mem h02)),?_⟩
      rw [hw.joined_items hw2 (Ne.symm hne) h0 h02 hd]
      exact List.prefix_append _ _

theorem listAdd_spliced {i : ℕ} (hw : WellFormed cap s l) (hf : Spare cap s l)
    (hc : CursorAt s l i) (x : α) :
    listAdd cap s (some l) (some x) = .ok (spliced .afterCurr s l x,0) := by
  have h0 := hc.count_ne_zero hw
  have hz := index_ne_sentinel (hw.indices _ hc.mem)
  have hs : splice .add (s.lists l) = .afterCurr := by
    simp [splice,h0,hz,hc.not_before,hc.not_after]
  rw [← hs]
  exact hw.adder_ok h0 hf .add x (fun _ => hc.mem)

theorem addsBehind_of_not_tail {i : ℕ} (hw : WellFormed cap s l) (hf : Spare cap s l)
    (hc : CursorAt s l i) (x : α) (ht : (s.lists l).curr ≠ (s.lists l).tail) :
    AddsBehind cap s l i x := by
  have h0 := hc.count_ne_zero hw
  have hs : Spliceable .afterCurr (s.lists l) := ⟨h0,by simp,fun _ => ht⟩
  obtain ⟨hw',hi⟩ := hw.spliced hf .afterCurr x (fun _ => hc.mem) hs
  have hcount : ((spliced .afterCurr s l x).lists l).count = (s.lists l).count+1 := by
    simp [spliced,splicedList]
  refine ⟨_,listAdd_spliced hw hf hc x,hw',?_,hcount,?_⟩
  · rw [hi,place,hc.idxOf hw]
  · apply keepsItems hw'
    have hn := hw.counted
    omega

theorem not_tail_of_addsBehind {i : ℕ} (hw : WellFormed cap s l) (hf : Spare cap s l)
    (hc : CursorAt s l i) {x : α} (h : AddsBehind cap s l i x) :
    (s.lists l).curr ≠ (s.lists l).tail := by
  obtain ⟨s',he,hw',-⟩ := h
  rw [listAdd_spliced hw hf hc x] at he
  intro ht
  have hs : ¬ Spliceable .afterCurr (s.lists l) := fun hs => hs.2.2 rfl ht
  apply not_wellFormed_spliced hw (hc.count_ne_zero hw) hf .afterCurr x hs
  cases he
  exact hw'

/-- `ListAdd` with the cursor on a node adds behind it as it should exactly
when that node is not the last one. -/
theorem add_behind_iff {i : ℕ} (hw : WellFormed cap s l) (hf : Spare cap s l)
    (hc : CursorAt s l i) (x : α) :
    AddsBehind cap s l i x ↔ (s.lists l).curr ≠ (s.lists l).tail :=
  ⟨not_tail_of_addsBehind hw hf hc,addsBehind_of_not_tail hw hf hc x⟩

theorem add_behind_first : items (after []) 0 = [some 30,some 10,some 20] ∧
    AddsBehind shipped (after []) 0 0 40 := by
  have hw : WellFormed shipped (after []) 0 := by decide +kernel
  have hf : Spare shipped (after []) 0 := by decide +kernel
  have hc : CursorAt (after []) 0 0 := by decide +kernel
  refine ⟨by decide +kernel,(add_behind_iff hw hf hc 40).mpr ?_⟩
  decide +kernel

/-- Behind the last node the tail stays where it was, and the next append
overwrites the only link to the added node. -/
theorem add_behind_last_lost : WellFormed shipped (after [.mover .last 0]) 0 ∧
    Spare shipped (after [.mover .last 0]) 0 ∧ CursorAt (after [.mover .last 0]) 0 2 ∧
    ¬ AddsBehind shipped (after [.mover .last 0]) 0 2 40 ∧
    (items (after [.mover .last 0,.adder .add 0 40]) 0 =
      [some 30,some 10,some 20,some 40]) ∧
    (items (after [.mover .last 0,.adder .add 0 40,.adder .append 0 50]) 0).take 4 =
      [some 30,some 10,some 20,some 50] := by
  have hw : WellFormed shipped (after [.mover .last 0]) 0 := by decide +kernel
  have hf : Spare shipped (after [.mover .last 0]) 0 := by decide +kernel
  have hc : CursorAt (after [.mover .last 0]) 0 2 := by decide +kernel
  refine ⟨hw,hf,hc,?_,by decide +kernel,by decide +kernel⟩
  intro h
  apply not_tail_of_addsBehind hw hf hc h
  decide +kernel

/-- The call put `x` at position `i` in both directions of reading and moved
the cursor to it, with the flags as they were. -/
def Inserts (cap : Capacity) (s : Pool α) (l : ℤ) (i : ℕ) (x : α)
    (result : Except Fault (Pool α × ℤ)) : Prop :=
  ∃ s', result = .ok (s',0) ∧ WellFormed cap s' l ∧
    items s' l = (items s l).take i++[some x]++(items s l).drop i ∧
    itemsBack s' l = (items s' l).reverse ∧ (s'.lists l).tail = (s.lists l).tail ∧
    (s'.lists l).count = (s.lists l).count+1 ∧ (s'.lists l).curr = s.freeNodeHead ∧
    (s'.lists l).before = (s.lists l).before ∧ (s'.lists l).after = (s.lists l).after

theorem insertIdx_eq_take_drop {β : Type} (xs : List β) (i : ℕ) (hi : i ≤ xs.length) (b : β) :
    xs.insertIdx i b = xs.take i++[b]++xs.drop i := by
  have h := insertIdx_middle (xs.take i) (xs.drop i) b
  rw [List.take_append_drop,List.length_take_of_le hi] at h
  simpa using h

theorem inserts_spliced {i : ℕ} {x : α} (hw : WellFormed cap s l) (h0 : (s.lists l).count ≠ 0)
    (hf : Spare cap s l) (sp : Splice) (hsp : sp = .beforeCurr ∨ sp = .atFront)
    (hin : sp = .beforeCurr ∨ sp = .afterCurr → (s.lists l).curr ∈ nodesOf s l)
    (hp : place sp (s.lists l) (nodesOf s l) = i) :
    Inserts cap s l i x (.ok (spliced sp s l x,0)) := by
  have hs : Spliceable sp (s.lists l) := by
    rcases hsp with rfl | rfl
    · exact ⟨h0,by simp,by simp⟩
    · exact ⟨h0,by simp,by simp⟩
  obtain ⟨hw',hi⟩ := hw.spliced hf sp x hin hs
  have hle : i ≤ (items s l).length := by
    rw [items,List.length_map,← hp]
    exact place_le sp hin
  refine ⟨_,rfl,hw',?_,hw'.itemsBack_eq,?_⟩
  · rw [hi,hp,insertIdx_eq_take_drop _ _ hle]
  · rcases hsp with rfl | rfl
    · simp [spliced,splicedList]
    · simp [spliced,splicedList,h0]

theorem listPrepend_spliced (hw : WellFormed cap s l) (h0 : (s.lists l).count ≠ 0)
    (hf : Spare cap s l) (x : α) :
    listPrepend cap s (some l) (some x) = .ok (spliced .atFront s l x,0) :=
  hw.adder_ok h0 hf .prepend x (by simp [splice])

theorem listInsert_spliced {i : ℕ} (hw : WellFormed cap s l) (hf : Spare cap s l)
    (hc : CursorAt s l i) (x : α) :
    listInsert cap s (some l) (some x) = .ok (spliced .beforeCurr s l x,0) := by
  have h0 := hc.count_ne_zero hw
  have hs : splice .insert (s.lists l) = .beforeCurr := by
    simp [splice,h0,hc.not_before,hc.not_after]
  rw [← hs]
  exact hw.adder_ok h0 hf .insert x (fun _ => hc.mem)

/-- On the first node the two splices write the same links and the same record. -/
theorem spliced_front {i : ℕ} (hw : WellFormed cap s l) (hc : CursorAt s l i)
    (hh : (s.lists l).curr = (s.lists l).head) (x : α) :
    spliced .beforeCurr s l x = spliced .atFront s l x := by
  have h0 := hc.count_ne_zero hw
  obtain ⟨as,bs,_,hp,_,_,ha,_⟩ := chain_split hw.chain hc.mem
  have hprev : (s.nodes (s.lists l).curr).prev = -1 := by
    rw [hp,ha.mpr hh.symm]
    rfl
  have hpred : predecessor .beforeCurr (s.lists l) (s.nodes (s.lists l).curr) =
      predecessor .atFront (s.lists l) (s.nodes (s.lists l).curr) := hprev
  have hsucc : successor .beforeCurr (s.lists l) (s.nodes (s.lists l).curr) =
      successor .atFront (s.lists l) (s.nodes (s.lists l).curr) := by
    simp [successor,h0,hh]
  have hnew : newNode .beforeCurr (s.lists l) (s.nodes (s.lists l).curr) s.freeNodeHead x =
      newNode .atFront (s.lists l) (s.nodes (s.lists l).curr) s.freeNodeHead x := by
    simp only [newNode,if_neg h0,hprev]
    rw [hh]
  have hlist : splicedList .beforeCurr (s.lists l) s.freeNodeHead =
      splicedList .atFront (s.lists l) s.freeNodeHead := by
    simp [splicedList,h0,hh]
  simp only [spliced,hlist,Pool.mk.injEq,and_true]
  funext i
  simp only [splicedNodes,hpred,hsucc,hnew]

theorem listFirst_cursorAt (hw : WellFormed cap s l) (h0 : (s.lists l).count ≠ 0) :
    listFirst cap s (some l) = .ok (moved .first s l,movedItem .first s l) ∧
    CursorAt (moved .first s l) l 0 ∧
    ((moved .first s l).lists l).curr = ((moved .first s l).lists l).head := by
  have hh := hw.head_mem h0
  have hr := runMover_ok cap .first s l (fun _ => hw.indices _ hh)
  have hmoved : (moved .first s l).lists l =
      { s.lists l with curr := (s.lists l).head, before := 0, after := 0 } := by
    simp [moved,movedList,h0]
  refine ⟨hr,⟨?_,by simp [hmoved],by simp [hmoved]⟩,by simp [hmoved]⟩
  rw [(moved_cursorOnly .first s l).nodesOf,hmoved]
  have he := walk_enters hw.chain.forward
  cases hn : nodesOf s l with
  | nil => exact absurd hn (hw.nodes_ne_nil h0)
  | cons i is =>
    rw [hn] at he
    simp [he]

/-- `ListInsert` with the cursor on a node and `ListPrepend` with any cursor put
the item where they should, and on the first node they are the same. -/
theorem insert_and_prepend_splice (hw : WellFormed cap s l) (h0 : (s.lists l).count ≠ 0)
    (hf : Spare cap s l) (x : α) :
    (∀ i, CursorAt s l i → Inserts cap s l i x (listInsert cap s (some l) (some x))) ∧
    Inserts cap s l 0 x (listPrepend cap s (some l) (some x)) ∧
    ∃ s₁ y s₂, listFirst cap s (some l) = .ok (s₁,y) ∧
      listInsert cap s₁ (some l) (some x) = .ok (s₂,0) ∧
      listPrepend cap s₁ (some l) (some x) = .ok (s₂,0) := by
  refine ⟨?_,?_,?_⟩
  · intro i hc
    rw [listInsert_spliced hw hf hc x]
    exact inserts_spliced hw h0 hf .beforeCurr (Or.inl rfl) (fun _ => hc.mem) (hc.idxOf hw)
  · rw [listPrepend_spliced hw h0 hf x]
    exact inserts_spliced hw h0 hf .atFront (Or.inr rfl) (by simp) rfl
  · obtain ⟨hr,hc,hh⟩ := listFirst_cursorAt hw h0
    have hm := moved_cursorOnly .first s l
    have hw₁ := hm.wellFormed hw
    have hf₁ : Spare cap (moved .first s l) l := by
      refine ⟨hf.1,?_⟩
      rw [hm.nodesOf]
      exact hf.2
    refine ⟨_,_,spliced .atFront (moved .first s l) l x,hr,?_,?_⟩
    · rw [listInsert_spliced hw₁ hf₁ hc x,spliced_front hw₁ hc hh x]
    · exact listPrepend_spliced hw₁ (hc.count_ne_zero hw₁) hf₁ x

theorem insert_and_prepend_splice_middle :
    items (after [.mover .next 0]) 0 = [some 30,some 10,some 20] ∧
    Inserts shipped (after [.mover .next 0]) 0 1 40
      (listInsert shipped (after [.mover .next 0]) (some 0) (some 40)) := by
  have hw : WellFormed shipped (after [.mover .next 0]) 0 := by decide +kernel
  have h0 : ((after [.mover .next 0]).lists 0).count ≠ 0 := by decide +kernel
  have hf : Spare shipped (after [.mover .next 0]) 0 := by decide +kernel
  have hc : CursorAt (after [.mover .next 0]) 0 1 := by decide +kernel
  exact ⟨by decide +kernel,(insert_and_prepend_splice hw h0 hf 40).1 1 hc⟩

def BeforeFirst (L : LIST) : Prop := L.curr = -1 ∧ L.before = 1 ∧ L.after = 0

instance (L : LIST) : Decidable (BeforeFirst L) := inferInstanceAs (Decidable (_ ∧ _))

def AfterLast (L : LIST) : Prop := L.curr = -1 ∧ L.before = 0 ∧ L.after = 1

instance (L : LIST) : Decidable (AfterLast L) := inferInstanceAs (Decidable (_ ∧ _))

/-- `ListPrev` from the first node leaves the cursor before it, and `ListNext`
from the last node leaves it behind. -/
theorem walked_off {i : ℕ} (hw : WellFormed cap s l) (hc : CursorAt s l i) :
    ((s.lists l).curr = (s.lists l).head → ∃ s', listPrev cap s (some l) = .ok (s',none) ∧
      CursorOnly l s s' ∧ BeforeFirst (s'.lists l)) ∧
    ((s.lists l).curr = (s.lists l).tail → ∃ s', listNext cap s (some l) = .ok (s',none) ∧
      CursorOnly l s s' ∧ AfterLast (s'.lists l)) := by
  have hi := hw.indices _ hc.mem
  have hb := hc.not_before
  have ha := hc.not_after
  obtain ⟨as,bs,_,hp,hn,_,hfirst,hlast⟩ := chain_split hw.chain hc.mem
  constructor
  · intro hh
    rw [hfirst.mpr hh.symm] at hp
    have hm : Movable cap s l .prev := fun _ => ⟨hi,fun hne => absurd hp hne⟩
    have hr := runMover_ok cap .prev s l hm
    rw [show movedItem .prev s l = none by simp [movedItem,hp,final]] at hr
    exact ⟨_,hr,moved_cursorOnly .prev s l,by simp [BeforeFirst,moved,movedList,hb,hp,final]⟩
  · intro hh
    rw [hlast.mpr hh] at hn
    have hm : Movable cap s l .next := fun _ => ⟨hi,fun hne => absurd hn hne⟩
    have hr := runMover_ok cap .next s l hm
    rw [show movedItem .next s l = none by simp [movedItem,hn]] at hr
    exact ⟨_,hr,moved_cursorOnly .next s l,by simp [AfterLast,moved,movedList,ha,hn]⟩

/-- Off the list, both insertions at the cursor do what the call for that end
does, value and state. -/
def AgreesOffList (cap : Capacity) (s : Pool α) (l : ℤ) (x : α) : Prop :=
  (BeforeFirst (s.lists l) →
    listAdd cap s (some l) (some x) = listPrepend cap s (some l) (some x) ∧
    listInsert cap s (some l) (some x) = listPrepend cap s (some l) (some x)) ∧
  (AfterLast (s.lists l) →
    listAdd cap s (some l) (some x) = listAppend cap s (some l) (some x) ∧
    listInsert cap s (some l) (some x) = listAppend cap s (some l) (some x))

theorem listAdd_off (h : (s.lists l).curr = -1) (x : α) :
    listAdd cap s (some l) (some x) = listAppend cap s (some l) (some x) := by
  simp [listAdd,h]

theorem add_ne_prepend (hw : WellFormed cap s l) (h0 : (s.lists l).count ≠ 0)
    (hf : Spare cap s l) (hc : (s.lists l).curr = -1) (x : α) :
    listAdd cap s (some l) (some x) ≠ listPrepend cap s (some l) (some x) := by
  rw [listAdd_off hc,listAppend_spliced hw h0 hf x,listPrepend_spliced hw h0 hf x]
  intro he
  have hs : spliced .atEnd s l x = spliced .atFront s l x :=
    congrArg Prod.fst (Except.ok.inj he)
  have hh : (s.lists l).head = s.freeNodeHead := by
    have hl := congrArg (fun p => (p.lists l).head) hs
    simpa [spliced,splicedList,h0] using hl
  exact hf.2 (hh ▸ hw.head_mem h0)

theorem agrees_after_last (hn : (s.lists l).count ≠ 0) (h : AfterLast (s.lists l)) (x : α) :
    AgreesOffList cap s l x := by
  obtain ⟨hc,hb,ha⟩ := h
  constructor
  · intro h'
    exact absurd (h'.2.1.symm.trans hb) (by decide)
  · intro _
    exact ⟨listAdd_off hc x,by simp [listInsert,hn,hb,ha]⟩

theorem agrees_when_full (hf : s.freeNodeHead = -1) (x : α) : AgreesOffList cap s l x := by
  have hfull (a : Adder) := runAdder_full cap a s l x hf
  exact ⟨fun _ => ⟨(hfull .add).trans (hfull .prepend).symm,
      (hfull .insert).trans (hfull .prepend).symm⟩,
    fun _ => ⟨(hfull .add).trans (hfull .append).symm,
      (hfull .insert).trans (hfull .append).symm⟩⟩

/-- With the cursor off the list the insertions agree with prepend and append
exactly when the cursor is after the last item or no node is left. -/
theorem off_list_insertions_agree_iff (hw : WellFormed cap s l) (h0 : (s.lists l).count ≠ 0)
    (hf : Supplied cap s l) (hoff : BeforeFirst (s.lists l) ∨ AfterLast (s.lists l)) (x : α) :
    AgreesOffList cap s l x ↔ AfterLast (s.lists l) ∨ s.freeNodeHead = -1 := by
  constructor
  · intro h
    rcases hoff with hb | ha
    · rcases hf with hf | hf
      · exact Or.inr hf
      · exact absurd (h.1 hb).1 (add_ne_prepend hw h0 hf hb.1 x)
    · exact Or.inl ha
  · intro h
    rcases h with ha | hf
    · exact agrees_after_last h0 ha x
    · exact agrees_when_full hf x

theorem off_list_insertions_agree_after_last :
    AfterLast ((after [.mover .last 0,.mover .next 0]).lists 0) ∧
    AgreesOffList shipped (after [.mover .last 0,.mover .next 0]) 0 40 := by
  have ha : AfterLast ((after [.mover .last 0,.mover .next 0]).lists 0) := by decide +kernel
  refine ⟨ha,(off_list_insertions_agree_iff ?_ ?_ ?_ (Or.inr ha) 40).mpr (Or.inl ha)⟩
  · decide +kernel
  · decide +kernel
  · decide +kernel

theorem add_before_first_appends :
    WellFormed shipped (after [.mover .prev 0]) 0 ∧
    ((after [.mover .prev 0]).lists 0).count ≠ 0 ∧
    BeforeFirst ((after [.mover .prev 0]).lists 0) ∧
    ¬ AgreesOffList shipped (after [.mover .prev 0]) 0 40 ∧
    items (after [.mover .prev 0,.adder .add 0 40]) 0 =
      [some 30,some 10,some 20,some 40] ∧
    items (after [.mover .prev 0,.adder .prepend 0 40]) 0 =
      [some 40,some 30,some 10,some 20] := by
  have hw : WellFormed shipped (after [.mover .prev 0]) 0 := by decide +kernel
  have h0 : ((after [.mover .prev 0]).lists 0).count ≠ 0 := by decide +kernel
  have hf : Spare shipped (after [.mover .prev 0]) 0 := by decide +kernel
  have hb : BeforeFirst ((after [.mover .prev 0]).lists 0) := by decide +kernel
  refine ⟨hw,h0,hb,?_,by decide +kernel,by decide +kernel⟩
  intro h
  exact add_ne_prepend hw h0 hf hb.1 40 (h.1 hb).1

end ListlibSyscalls.PoolInsertions
