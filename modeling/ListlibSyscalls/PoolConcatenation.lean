import ListlibSyscalls.PoolInsertions

/-!
# What ListConcat does to two lists

In any pool state `ListConcat` on two well-formed lists either leaves its
second list empty and appended to the first, or it does not, and which of the
two is read off the counts. The created lists of a reached history share no
node, and an empty one is as `ListCreate` has made it, so for them the counts
alone decide.
-/

set_option autoImplicit false

namespace ListlibSyscalls.PoolConcatenation
open StepRuns LinkedChain PoolMachine PoolHistory PoolSplice PoolMoves PoolInvariant PoolReached
open PoolOwnership PoolShape PoolContents PoolInsertions

variable {α : Type}

/-- The second list was read behind the first, and is now as a new list is. -/
structure Appended (cap : Capacity) (s s' : Pool α) (l1 l2 : ℤ) : Prop where
  wellFormed : WellFormed cap s' l1
  items : items s' l1 = items s l1++items s l2
  itemsBack : itemsBack s' l1 = (PoolContents.items s l1++PoolContents.items s l2).reverse
  count : (s'.lists l1).count = (PoolContents.items s l1).length+(PoolContents.items s l2).length
  emptied : s'.lists l2 = emptied (s.lists l2)
  outside : ∀ i, i ∉ nodesOf s l1 → i ∉ nodesOf s l2 → s'.nodes i = s.nodes i
  freeNodes : s'.freeNodeHead = s.freeNodeHead ∧ ∀ i, (s'.nodes i).link = (s.nodes i).link
  freeLists : s'.freeListHead = s.freeListHead ∧ ∀ l, (s'.lists l).link = (s.lists l).link
  others : ∀ l, l ≠ l1 → l ≠ l2 → s'.lists l = s.lists l

def Concatenates (cap : Capacity) (s : Pool α) (l1 l2 : ℤ) : Prop :=
  ∃ s', listConcat cap s (some l1) (some l2) = .ok s' ∧ Appended cap s s' l1 l2

section OnePool

variable {cap : Capacity} {s : Pool α} {l l1 l2 : ℤ}

theorem items_length (hw : WellFormed cap s l) : ((items s l).length:ℤ) = (s.lists l).count := by
  rw [items,List.length_map,hw.counted]

theorem items_empty (h0 : (s.lists l).count = 0) : items s l = [] := by
  simp [items,nodesOf,h0,visited]

theorem tail_empty (hw : WellFormed cap s l) (h0 : (s.lists l).count = 0) :
    (s.lists l).tail = -1 := by
  have hn : nodesOf s l = [] := by simp [nodesOf,h0,visited]
  have he := hw.chain.ends
  rw [hn] at he
  exact he.symm

/-- Two chains that meet run on together to one tail. -/
theorem tails_of_shared (hw1 : WellFormed cap s l1) (hw2 : WellFormed cap s l2) {i : ℤ}
    (h1 : i ∈ nodesOf s l1) (h2 : i ∈ nodesOf s l2) : (s.lists l1).tail = (s.lists l2).tail := by
  obtain ⟨as,bs,hx⟩ := List.append_of_mem h1
  obtain ⟨cs,ds,hy⟩ := List.append_of_mem h2
  have hf1 := hw1.chain.forward
  have hf2 := hw2.chain.forward
  rw [hx,walk_append] at hf1
  rw [hy,walk_append] at hf2
  obtain ⟨a,_,ha⟩ := hf1
  obtain ⟨b,_,hb⟩ := hf2
  have hia : a = i := ha.1
  have hib : b = i := hb.1
  rw [hia] at ha
  rw [hib] at hb
  have hsame : i::bs = i::ds := walk_unique ha hb
  calc (s.lists l1).tail = final (-1) (nodesOf s l1) := hw1.chain.ends.symm
    _ = final (-1) (nodesOf s l2) := by
      rw [hx,hy,final_append,final_append,hsame]
      rfl
    _ = (s.lists l2).tail := hw2.chain.ends

theorem appended_nothing (hw1 : WellFormed cap s l1) (h2 : (s.lists l2).count = 0)
    (he : s.lists l2 = emptied (s.lists l2)) : Appended cap s s l1 l2 := by
  have hnil := items_empty h2
  constructor
  · exact hw1
  · rw [hnil,List.append_nil]
  · rw [hnil,List.append_nil]
    exact hw1.itemsBack_eq
  · rw [hnil,List.length_nil,← items_length hw1]
    simp
  · exact he
  · exact fun _ _ _ => rfl
  · exact ⟨rfl,fun _ => rfl⟩
  · exact ⟨rfl,fun _ => rfl⟩
  · exact fun _ _ _ => rfl

theorem appended_joined (hne : l1 ≠ l2) (hw1 : WellFormed cap s l1) (hw2 : WellFormed cap s l2)
    (h1 : (s.lists l1).count ≠ 0) (h2 : (s.lists l2).count ≠ 0)
    (hd : List.Disjoint (nodesOf s l1) (nodesOf s l2)) : Appended cap s (joined s l1 l2) l1 l2 := by
  have hc := joined_chain hne hw1.chain hw2.chain (hw1.nodes_ne_nil h1) (hw2.nodes_ne_nil h2)
    (fun i hi => hd hi)
  have hcount : ((joined s l1 l2).lists l1).count = (s.lists l1).count+(s.lists l2).count := by
    simp [joined,hne]
  have hlen : ((nodesOf s l1++nodesOf s l2).length:ℤ) = ((joined s l1 l2).lists l1).count := by
    rw [hcount,← hw1.counted,← hw2.counted]
    simp
  have hw : WellFormed cap (joined s l1 l2) l1 := by
    apply wellFormed_of_chain hc hlen
    intro i hi
    rcases List.mem_append.mp hi with hi | hi
    · exact hw1.indices i hi
    · exact hw2.indices i hi
  have hitems := hw1.joined_items hw2 hne h1 h2 hd
  constructor
  · exact hw
  · exact hitems
  · rw [hw.itemsBack_eq,hitems]
  · rw [hcount,items_length hw1,items_length hw2]
  · simp [joined]
  · intro i hi1 hi2
    have ht : i ≠ (s.lists l1).tail := fun e => hi1 (e ▸ chain_tail_mem hw1.chain (hw1.nodes_ne_nil h1))
    have hh : i ≠ (s.lists l2).head := fun e => hi2 (e ▸ hw2.head_mem h2)
    simp [joined,ht,hh]
  · exact ⟨rfl,fun _ => rfl⟩
  · refine ⟨rfl,fun k => ?_⟩
    by_cases hk2 : k = l2
    · simp [joined,hk2,PoolMoves.emptied]
    · by_cases hk1 : k = l1
      · simp [joined,hk1,hne]
      · simp [joined,hk1,hk2]
  · intro k hk1 hk2
    simp [joined,hk1,hk2]

/-- A list is not appended to one it shares a node with: the new chain would
have no end. -/
theorem disjoint_of_appended (hne : l1 ≠ l2) (hw1 : WellFormed cap s l1)
    (hw2 : WellFormed cap s l2) (h2 : (s.lists l2).count ≠ 0)
    (ha : Appended cap s (joined s l1 l2) l1 l2) :
    List.Disjoint (nodesOf s l1) (nodesOf s l2) := by
  intro i hi1 hi2
  have htail := tails_of_shared hw1 hw2 hi1 hi2
  have hl : ((joined s l1 l2).lists l1).tail = (s.lists l2).tail := by simp [joined,hne]
  have hcount : ((joined s l1 l2).lists l1).count ≠ 0 := by
    have hz := ha.count
    rw [items_length hw1,items_length hw2] at hz
    have hp1 := hw1.counted
    have hp2 := hw2.counted
    omega
  have hend := walk_final ha.wellFormed.chain.forward (ha.wellFormed.nodes_ne_nil hcount)
  rw [ha.wellFormed.chain.ends,hl,← htail] at hend
  have hlink : ((joined s l1 l2).nodes (s.lists l1).tail).next = (s.lists l2).head := if_pos rfl
  rw [hlink] at hend
  exact index_ne_sentinel (hw2.indices _ (hw2.head_mem h2)) hend

theorem concatenates_iff (hne : l1 ≠ l2) (hw1 : WellFormed cap s l1) (hw2 : WellFormed cap s l2) :
    Concatenates cap s l1 l2 ↔
      ((s.lists l2).count = 0 ∧ s.lists l2 = emptied (s.lists l2)) ∨
      ((s.lists l2).count ≠ 0 ∧ (s.lists l1).count ≠ 0 ∧
        List.Disjoint (nodesOf s l1) (nodesOf s l2)) := by
  constructor
  · rintro ⟨s',hs,ha⟩
    by_cases h2 : (s.lists l2).count = 0
    · rw [listConcat_empty cap s l1 l2 h2] at hs
      cases hs
      exact Or.inl ⟨h2,ha.emptied⟩
    · by_cases h1 : (s.lists l1).count = 0
      · rw [listConcat_fault cap s l1 l2 h2 (tail_empty hw1 h1)] at hs
        cases hs
      · rw [listConcat_ok cap s l1 l2 h2 (hw1.tail_index h1)
          (hw2.indices _ (hw2.head_mem h2))] at hs
        cases hs
        exact Or.inr ⟨h2,h1,disjoint_of_appended hne hw1 hw2 h2 ha⟩
  · rintro (⟨h2,he⟩ | ⟨h2,h1,hd⟩)
    · exact ⟨s,listConcat_empty cap s l1 l2 h2,appended_nothing hw1 h2 he⟩
    · exact ⟨_,listConcat_ok cap s l1 l2 h2 (hw1.tail_index h1)
        (hw2.indices _ (hw2.head_mem h2)),appended_joined hne hw1 hw2 h1 h2 hd⟩

end OnePool

def Rested (cap : Capacity) (h : History α) : Prop :=
  ∀ l, ListIndex cap l → (h.pool.lists l).count = 0 → h.pool.lists l = emptied (h.pool.lists l)

theorem movedList_emptied (m : Mover) (L : LIST) (c : Node α) (h0 : L.count = 0)
    (he : L = emptied L) (hm : m = .next → L.curr ≠ -1) : movedList m L c = L := by
  have hb : L.before = 1 := by rw [he]; rfl
  have hc : L.curr = -1 := by rw [he]; rfl
  cases m with
  | first => exact if_pos h0
  | last => exact if_pos h0
  | next => exact absurd hc (hm rfl)
  | prev => exact if_pos hb

theorem effect_rested {cap : Capacity} {h h' : History α} {c : Call α} (hk : Kept cap h)
    (hr : Rested cap h) (hc : OnCreated h c) (he : Effect h c h') : Rested cap h' := by
  cases he with
  | opened hf =>
    intro k hki h0
    by_cases hkf : k = h.pool.freeListHead
    · subst hkf
      simp only [PoolMoves.opened,Function.update_self] at h0 ⊢
      rw [hr _ hki h0]
      rfl
    · simp only [PoolMoves.opened,Function.update_of_ne hkf] at h0 ⊢
      exact hr k hki h0
  | noSlot hf => exact hr
  | spliced a l x hf =>
    intro k hki h0
    by_cases hkl : k = l
    · subst hkl
      simp only [PoolSplice.spliced,Function.update_self,splicedList_count] at h0
      have hpos := (hk.sound.records k hki).count_nonneg
      omega
    · simp only [PoolSplice.spliced,Function.update_of_ne hkl] at h0 ⊢
      exact hr k hki h0
  | exhausted a l x hf => exact hr
  | moved m l hm =>
    intro k hki h0
    by_cases hkl : k = l
    · subst hkl
      simp only [PoolMoves.moved,setList_lists,Function.update_self,movedList_count] at h0 ⊢
      have hold := hr k hki h0
      rw [movedList_emptied m _ _ h0 hold]
      · exact hold
      · rintro rfl hcurr
        have hb : (h.pool.lists k).after = 0 := by rw [hold]; rfl
        rcases hm with ha | hm
        · omega
        · exact hm hcurr
    · simp only [PoolMoves.moved,setList_lists,Function.update_of_ne hkl] at h0 ⊢
      exact hr k hki h0
  | looked c hl => exact hr
  | joined l1 l2 hc2 hc1 =>
    intro k hki h0
    by_cases hk2 : k = l2
    · simp [PoolMoves.joined,hk2,PoolMoves.emptied]
    · by_cases hk1 : k = l1
      · subst hk1
        have hp1 := (hk.sound.records k hki).count_nonneg
        have hp2 := (hk.sound.records l2 (hk.created_index l2 hc.2)).count_nonneg
        simp only [PoolMoves.joined,Function.update_of_ne hk2,Function.update_self] at h0
        omega
      · simp only [PoolMoves.joined,Function.update_of_ne hk2,Function.update_of_ne hk1] at h0 ⊢
        exact hr k hki h0
  | nothing l1 l2 hc2 => exact hr

theorem reached_rested {cap : Capacity} {h : History α} (hr : Reached cap h) {l : ℤ}
    (hl : l ∈ h.created) (h0 : (h.pool.lists l).count = 0) :
    h.pool.lists l = emptied (h.pool.lists l) := by
  have hstart : Rested cap (prefilled cap : History α) := by
    intro k hk _
    simp [prefilled,laidOut,hk,emptied]
  rcases reached_invariant (I := Rested cap) (fun _ _ hc => hc) hstart
    (fun _ _ _ hk hi hc _ he => effect_rested hk hi hc he) hr with rfl | ⟨hk,hi⟩
  · simp [History.start] at hl
  · exact hi l (hk.created_index l hl) h0

theorem reached_disjoint {cap : Capacity} {h : History α} (hr : ProperlyReached cap h) {l1 l2 : ℤ}
    (h1 : l1 ∈ h.created) (h2 : l2 ∈ h.created) (hne : l1 ≠ l2)
    (hw1 : WellFormed cap h.pool l1) (hw2 : WellFormed cap h.pool l2) :
    List.Disjoint (nodesOf h.pool l1) (nodesOf h.pool l2) := by
  intro i hi1 hi2
  rcases properlyReached_owned hr with rfl | ⟨hk,ho⟩
  · simp [History.start] at h1
  · have ho1 := chain_owned ho (hk.created_index l1 h1) hw1.chain i hi1
    have ho2 := chain_owned ho (hk.created_index l2 h2) hw2.chain i hi2
    rw [ho1] at ho2
    exact hne (Option.some.inj ho2)

/-- `ListConcat` concatenates two well-formed lists exactly when the second is
empty or the first is not: in every pool state in which the two share no node
and an empty list is as it was made, and so for all created lists. -/
theorem concat_concatenates_iff (cap : Capacity) :
    (∀ (s : Pool α) (l1 l2 : ℤ), l1 ≠ l2 → WellFormed cap s l1 → WellFormed cap s l2 →
      List.Disjoint (nodesOf s l1) (nodesOf s l2) →
      ((s.lists l2).count = 0 → s.lists l2 = emptied (s.lists l2)) →
      (Concatenates cap s l1 l2 ↔ (s.lists l2).count = 0 ∨ (s.lists l1).count ≠ 0)) ∧
    ∀ h : History α, ProperlyReached cap h → ∀ l1 ∈ h.created, ∀ l2 ∈ h.created, l1 ≠ l2 →
      WellFormed cap h.pool l1 → WellFormed cap h.pool l2 →
      (Concatenates cap h.pool l1 l2 ↔
        (h.pool.lists l2).count = 0 ∨ (h.pool.lists l1).count ≠ 0) := by
  have hany : ∀ (s : Pool α) (l1 l2 : ℤ), l1 ≠ l2 → WellFormed cap s l1 → WellFormed cap s l2 →
      List.Disjoint (nodesOf s l1) (nodesOf s l2) →
      ((s.lists l2).count = 0 → s.lists l2 = emptied (s.lists l2)) →
      (Concatenates cap s l1 l2 ↔ (s.lists l2).count = 0 ∨ (s.lists l1).count ≠ 0) := by
    intro s l1 l2 hne hw1 hw2 hd he
    rw [concatenates_iff hne hw1 hw2]
    by_cases h2 : (s.lists l2).count = 0
    · exact ⟨fun _ => Or.inl h2,fun _ => Or.inl ⟨h2,he h2⟩⟩
    · simp [h2,hd]
  refine ⟨hany,?_⟩
  intro h hr l1 h1 l2 h2 hne hw1 hw2
  exact hany h.pool l1 l2 hne hw1 hw2 (reached_disjoint hr h1 h2 hne hw1 hw2)
    (reached_rested hr.reached h2)

def secondFilled : History ℕ := lastState (History.step shipped) History.start
  [.create,.create,.adder .append 1 40,.adder .append 1 50,.adder .prepend 1 60]

def bothFilled : History ℕ := lastState (History.step shipped) secondFilled
  [.adder .append 0 10,.adder .append 0 20,.adder .prepend 0 30]

theorem concat_both_filled : items bothFilled.pool 0 = [some 30,some 10,some 20] ∧
    items bothFilled.pool 1 = [some 60,some 40,some 50] ∧
    Concatenates shipped bothFilled.pool 0 1 := by
  have hsecond : ProperlyReached shipped secondFilled :=
    Reach.start.lastState _ _ (by decide +kernel)
  have hr : ProperlyReached shipped bothFilled := hsecond.lastState _ _ (by decide +kernel)
  have hw1 : WellFormed shipped bothFilled.pool 0 := by decide +kernel
  have hw2 : WellFormed shipped bothFilled.pool 1 := by decide +kernel
  refine ⟨by decide +kernel,by decide +kernel,?_⟩
  apply ((concat_concatenates_iff shipped).2 bothFilled hr 0 (by decide +kernel) 1
    (by decide +kernel) (by decide) hw1 hw2).mpr
  decide +kernel

/-- With an empty first list the tail that is linked from is element -1. -/
theorem concat_to_empty_faults : WellFormed shipped secondFilled.pool 0 ∧
    WellFormed shipped secondFilled.pool 1 ∧ items secondFilled.pool 0 = [] ∧
    items secondFilled.pool 1 = [some 60,some 40,some 50] ∧
    listConcat shipped secondFilled.pool (some 0) (some 1) = .error (.node (-1)) ∧
    ¬ Concatenates shipped secondFilled.pool 0 1 := by
  have hf : listConcat shipped secondFilled.pool (some 0) (some 1) = .error (.node (-1)) :=
    listConcat_fault shipped secondFilled.pool 0 1 (by decide +kernel) (by decide +kernel)
  refine ⟨by decide +kernel,by decide +kernel,by decide +kernel,by decide +kernel,hf,?_⟩
  rintro ⟨s',hs,_⟩
  rw [hf] at hs
  cases hs

end ListlibSyscalls.PoolConcatenation
