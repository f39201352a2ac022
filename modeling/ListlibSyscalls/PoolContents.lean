import Mathlib.Data.List.InsertIdx
import ListlibSyscalls.PoolShape

/-!
# The contents of a list in an arbitrary pool state

Reading a list from its head along `next` for as many nodes as it counts gives
its nodes and its items; reading from its tail along `prev` gives the items the
other way round. A list is well formed when these readings follow one doubly
linked chain of array elements. Nothing here asks how the pool state came
about: the first free node only has to lie outside the list.
-/

set_option autoImplicit false

namespace ListlibSyscalls.PoolContents
open LinkedChain PoolMachine PoolHistory PoolSplice PoolMoves PoolOwnership PoolShape

variable {α : Type}

def nodesOf (s : Pool α) (l : ℤ) : List ℤ :=
  visited (fun i => (s.nodes i).next) (s.lists l).head (s.lists l).count.toNat

def items (s : Pool α) (l : ℤ) : List (Option α) :=
  (nodesOf s l).map fun i => (s.nodes i).item

def itemsBack (s : Pool α) (l : ℤ) : List (Option α) :=
  (visited (fun i => (s.nodes i).prev) (s.lists l).tail (s.lists l).count.toNat).map
    fun i => (s.nodes i).item

structure WellFormed (cap : Capacity) (s : Pool α) (l : ℤ) : Prop where
  chain : Chain s.nodes (s.lists l) (nodesOf s l)
  counted : ((nodesOf s l).length:ℤ) = (s.lists l).count
  indices : ∀ i ∈ nodesOf s l, NodeIndex cap i

instance (cap : Capacity) (s : Pool α) (l : ℤ) : Decidable (WellFormed cap s l) :=
  decidable_of_iff (Chain s.nodes (s.lists l) (nodesOf s l) ∧
      ((nodesOf s l).length:ℤ) = (s.lists l).count ∧ ∀ i ∈ nodesOf s l, NodeIndex cap i)
    ⟨fun ⟨h1,h2,h3⟩ => ⟨h1,h2,h3⟩,fun ⟨h1,h2,h3⟩ => ⟨h1,h2,h3⟩⟩

def Spare (cap : Capacity) (s : Pool α) (l : ℤ) : Prop :=
  NodeIndex cap s.freeNodeHead ∧ s.freeNodeHead ∉ nodesOf s l

instance (cap : Capacity) (s : Pool α) (l : ℤ) : Decidable (Spare cap s l) :=
  inferInstanceAs (Decidable (_ ∧ _))

/-- Either no node is free or the first free one is not a node of the list. -/
def Supplied (cap : Capacity) (s : Pool α) (l : ℤ) : Prop :=
  s.freeNodeHead = -1 ∨ Spare cap s l

instance (cap : Capacity) (s : Pool α) (l : ℤ) : Decidable (Supplied cap s l) :=
  inferInstanceAs (Decidable (_ ∨ _))

variable {cap : Capacity} {s : Pool α} {l : ℤ} {xs : List ℤ}

theorem nodesOf_eq (hw : Walk (fun i => (s.nodes i).next) (-1) (s.lists l).head xs (-1))
    (hc : (xs.length:ℤ) = (s.lists l).count) : nodesOf s l = xs := by
  rw [walk_visited hw,nodesOf,← hc,Int.toNat_natCast]

theorem wellFormed_of_chain (hd : Chain s.nodes (s.lists l) xs)
    (hc : (xs.length:ℤ) = (s.lists l).count) (hi : ∀ i ∈ xs, NodeIndex cap i) :
    WellFormed cap s l := by
  have he := nodesOf_eq hd.forward hc
  exact ⟨he ▸ hd,he ▸ hc,he ▸ hi⟩

theorem spliced_item_new (sp : Splice) (x : α) :
    ((PoolSplice.spliced sp s l x).nodes s.freeNodeHead).item = some x := by
  simp only [PoolSplice.spliced,splicedNodes_new]
  cases sp <;> simp only [newNode] <;> split_ifs <;> rfl

theorem items_spliced_old (sp : Splice) {x : α} (hw : WellFormed cap s l) (hf : Spare cap s l) :
    (nodesOf s l).map (fun i => ((PoolSplice.spliced sp s l x).nodes i).item) = items s l := by
  apply List.map_congr_left
  intro i hi
  have hn : i ≠ s.freeNodeHead := fun e => hf.2 (e ▸ hi)
  have hz := walk_ne_sentinel hw.chain.forward i hi
  simp only [PoolSplice.spliced,splicedNodes_old _ _ _ _ _ _ hn hz]

namespace WellFormed

theorem nodes_ne_nil (hw : WellFormed cap s l) (h0 : (s.lists l).count ≠ 0) : nodesOf s l ≠ [] :=
  chain_ne_nil hw.counted h0

theorem itemsBack_eq (hw : WellFormed cap s l) : itemsBack s l = (items s l).reverse := by
  have hv := walk_visited hw.chain.reverse.forward
  have hc := hw.counted
  have hn : (s.lists l).count.toNat = (nodesOf s l).reverse.length := by
    rw [List.length_reverse]
    omega
  rw [itemsBack,hn,← hv,List.map_reverse,items]

theorem tail_index (hw : WellFormed cap s l) (h0 : (s.lists l).count ≠ 0) :
    NodeIndex cap (s.lists l).tail :=
  hw.indices _ (chain_tail_mem hw.chain (hw.nodes_ne_nil h0))

theorem head_mem (hw : WellFormed cap s l) (h0 : (s.lists l).count ≠ 0) :
    (s.lists l).head ∈ nodesOf s l := by
  have hx := hw.nodes_ne_nil h0
  have hh := walk_enters hw.chain.forward
  cases hn : nodesOf s l with
  | nil => exact absurd hn hx
  | cons i is =>
    rw [hn] at hh
    rw [hh]
    simp

theorem ready (hw : WellFormed cap s l) (h0 : (s.lists l).count ≠ 0) (hf : Spare cap s l)
    (sp : Splice) (hin : sp = .beforeCurr ∨ sp = .afterCurr → (s.lists l).curr ∈ nodesOf s l) :
    Ready cap s l sp := by
  have hold {i : ℤ} (hi : i ∈ nodesOf s l) : Old cap s i :=
    ⟨hw.indices i hi,fun e => hf.2 (e ▸ hi)⟩
  cases sp with
  | atEnd => exact fun _ => hold (chain_tail_mem hw.chain (hw.nodes_ne_nil h0))
  | atFront => exact fun _ => hold (hw.head_mem h0)
  | beforeCurr =>
    obtain ⟨as,bs,hx,hp,_⟩ := chain_split hw.chain (hin (Or.inl rfl))
    refine ⟨hold (hin (Or.inl rfl)),?_⟩
    intro hne
    rw [hp] at hne ⊢
    have ha : as ≠ [] := fun e => hne (by rw [e]; rfl)
    apply hold
    rw [hx]
    exact List.mem_append_left _ (final_mem (-1) ha)
  | afterCurr =>
    obtain ⟨as,bs,hx,_,hn,_⟩ := chain_split hw.chain (hin (Or.inr rfl))
    refine ⟨hold (hin (Or.inr rfl)),?_⟩
    intro hne
    rw [hn] at hne ⊢
    apply hold
    cases bs with
    | nil => exact absurd rfl hne
    | cons b bs => simp [hx]

theorem adder_ok (hw : WellFormed cap s l) (h0 : (s.lists l).count ≠ 0) (hf : Spare cap s l)
    (a : Adder) (x : α) (hin : splice a (s.lists l) = .beforeCurr ∨
      splice a (s.lists l) = .afterCurr → (s.lists l).curr ∈ nodesOf s l) :
    runAdder cap a s (some l) (some x) = .ok (spliced (splice a (s.lists l)) s l x,0) :=
  runAdder_ok cap a s l x hf.1 (hw.ready h0 hf _ hin)

theorem spliced (hw : WellFormed cap s l) (hf : Spare cap s l) (sp : Splice) (x : α)
    (hin : sp = .beforeCurr ∨ sp = .afterCurr → (s.lists l).curr ∈ nodesOf s l)
    (hs : Spliceable sp (s.lists l)) :
    WellFormed cap (PoolSplice.spliced sp s l x) l ∧
    items (PoolSplice.spliced sp s l x) l =
      (items s l).insertIdx (place sp (s.lists l) (nodesOf s l)) (some x) := by
  have hz := index_ne_sentinel hf.1
  have hd := spliced_chain sp x hw.chain (hw.nodes_ne_nil hs.1) hz hf.2 hin hs
  have hlist : (PoolSplice.spliced sp s l x).lists l =
      splicedList sp (s.lists l) s.freeNodeHead := by
    simp [PoolSplice.spliced]
  rw [← hlist] at hd
  have hc : (((nodesOf s l).insertIdx (place sp (s.lists l) (nodesOf s l))
      s.freeNodeHead).length:ℤ) = ((PoolSplice.spliced sp s l x).lists l).count := by
    rw [List.length_insertIdx_of_le_length (place_le sp hin),hlist,splicedList_count,← hw.counted]
    push_cast
    rfl
  have hi : ∀ i ∈ (nodesOf s l).insertIdx (place sp (s.lists l) (nodesOf s l)) s.freeNodeHead,
      NodeIndex cap i := by
    intro i hi
    rcases List.eq_or_mem_of_mem_insertIdx hi with rfl | hi
    · exact hf.1
    · exact hw.indices i hi
  refine ⟨wellFormed_of_chain hd hc hi,?_⟩
  rw [items,nodesOf_eq hd.forward hc,List.map_insertIdx,items_spliced_old sp hw hf,
    spliced_item_new]

/-- A node added at the end is read last, wherever the cursor was. -/
theorem appended_items (hw : WellFormed cap s l) (h0 : (s.lists l).count ≠ 0)
    (hf : Spare cap s l) (x : α) :
    items (PoolSplice.spliced .atEnd s l x) l = items s l++[some x] := by
  have hz := index_ne_sentinel hf.1
  have hwalk := appended_walk x hw.chain (hw.nodes_ne_nil h0) h0 hz hf.2
  have hlist : (PoolSplice.spliced .atEnd s l x).lists l =
      splicedList .atEnd (s.lists l) s.freeNodeHead := by
    simp [PoolSplice.spliced]
  have he : nodesOf (PoolSplice.spliced .atEnd s l x) l = nodesOf s l++[s.freeNodeHead] := by
    apply nodesOf_eq
    · rw [hlist]
      simpa [splicedList,h0,PoolSplice.spliced] using hwalk
    · rw [hlist,splicedList_count,← hw.counted]
      simp
  rw [items,he,List.map_append,items_spliced_old .atEnd hw hf]
  simp [spliced_item_new]

theorem joined_items {l2 : ℤ} (hw : WellFormed cap s l) (hw2 : WellFormed cap s l2)
    (hne : l ≠ l2) (h0 : (s.lists l).count ≠ 0) (h02 : (s.lists l2).count ≠ 0)
    (hd : List.Disjoint (nodesOf s l) (nodesOf s l2)) :
    items (joined s l l2) l = items s l++items s l2 := by
  have hc := joined_chain hne hw.chain hw2.chain (hw.nodes_ne_nil h0) (hw2.nodes_ne_nil h02)
    (fun i hi => hd hi)
  have he : nodesOf (joined s l l2) l = nodesOf s l++nodesOf s l2 := by
    apply nodesOf_eq hc.forward
    simp [joined,hne,hw.counted,hw2.counted]
  rw [items,he,List.map_append]
  rfl

end WellFormed

def CursorOnly (l : ℤ) (s s' : Pool α) : Prop :=
  ∃ c b a, s' = s.setList l fun L => { L with curr := c, before := b, after := a }

section CursorOnly

variable {s' s'' : Pool α}

theorem CursorOnly.refl (l : ℤ) (s : Pool α) : CursorOnly l s s := by
  refine ⟨(s.lists l).curr,(s.lists l).before,(s.lists l).after,?_⟩
  simp [Pool.setList]

theorem CursorOnly.trans (h : CursorOnly l s s') (h' : CursorOnly l s' s'') :
    CursorOnly l s s'' := by
  obtain ⟨c,b,a,rfl⟩ := h
  obtain ⟨c',b',a',rfl⟩ := h'
  refine ⟨c',b',a',?_⟩
  simp [Pool.setList]

theorem CursorOnly.nodes (h : CursorOnly l s s') : s'.nodes = s.nodes := by
  obtain ⟨c,b,a,rfl⟩ := h
  rfl

theorem CursorOnly.nodesOf (h : CursorOnly l s s') : nodesOf s' l = nodesOf s l := by
  obtain ⟨c,b,a,rfl⟩ := h
  simp [PoolContents.nodesOf]

theorem CursorOnly.wellFormed (h : CursorOnly l s s') (hw : WellFormed cap s l) :
    WellFormed cap s' l := by
  have hx := h.nodesOf
  obtain ⟨c,b,a,rfl⟩ := h
  constructor
  · rw [hx]
    simpa [Chain] using hw.chain
  · rw [hx]
    simpa using hw.counted
  · rw [hx]
    exact hw.indices

theorem moved_cursorOnly (m : Mover) (s : Pool α) (l : ℤ) : CursorOnly l s (moved m s l) := by
  refine ⟨((moved m s l).lists l).curr,((moved m s l).lists l).before,
    ((moved m s l).lists l).after,?_⟩
  simp only [moved,Pool.setList,Function.update_self]
  congr 2
  cases m <;> simp only [movedList] <;> split_ifs <;> rfl

end CursorOnly

end ListlibSyscalls.PoolContents
