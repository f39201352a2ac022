import ListlibSyscalls.PoolIndexSafety
import ListlibSyscalls.CountedRefs

/-!
# Lists that share one pool do not meet

Each node handed out belongs to exactly one list. The links of a node and the
three indices of a list stay among the nodes of that list, through every
splice and through the hand-over of a concatenation, and the counts are the
numbers of nodes owned. A call then leaves every list it is not given, and
every node of such a list, as it was.
-/

set_option autoImplicit false

namespace ListlibSyscalls.PoolOwnership
open StepRuns LinkedChain PoolMachine PoolHistory PoolSplice PoolMoves PoolInvariant PoolReached
open PoolIndexSafety CountedRefs

variable {α : Type}

def Mine (h : History α) (l i : ℤ) : Prop := i = -1 ∨ h.owner i = some l

def owned (h : History α) (l : ℤ) : ℕ := h.pool.returned.countP fun i => h.owner i = some l

def total (cap : Capacity) (lists : ℤ → LIST) : ℤ :=
  ((ascending 0 cap.maxLists).map fun l => (lists l).count).sum

structure Owned (cap : Capacity) (h : History α) : Prop where
  returned_iff : ∀ i, (∃ l, h.owner i = some l) ↔ i ∈ h.pool.returned
  lists : ∀ l, ListIndex cap l → Within (Mine h l) (h.pool.lists l)
  nodes : ∀ i l, h.owner i = some l →
    Mine h l (h.pool.nodes i).next ∧ Mine h l (h.pool.nodes i).prev
  counted : ∀ l, ListIndex cap l → (h.pool.lists l).count = owned h l
  total : total cap h.pool.lists = h.inserted

theorem total_update {cap : Capacity} (lists : ℤ → LIST) {l : ℤ} (hl : ListIndex cap l) (L : LIST) :
    total cap (Function.update lists l L) = total cap lists+(L.count-(lists l).count) := by
  apply sum_map_update (LIST.count) lists (ascending_nodup 0 _)
  rw [mem_ascending]
  simpa [ListIndex] using hl

theorem splicedList_count (sp : Splice) (L : LIST) (n : ℤ) :
    (splicedList sp L n).count = L.count+1 := by
  cases sp <;> rfl

theorem countP_update (xs : List ℤ) (owner : ℤ → Option ℤ) (n : ℤ) (hn : n ∉ xs) (o : Option ℤ)
    (l : ℤ) : (xs.countP fun i => Function.update owner n o i = some l) =
      xs.countP fun i => owner i = some l := by
  apply List.countP_congr
  intro i hi
  have hin : i ≠ n := fun e => hn (e ▸ hi)
  rw [Function.update_of_ne hin]

theorem countP_handed (xs : List ℤ) (owner : ℤ → Option ℤ) (l1 l2 : ℤ) (hne : l1 ≠ l2) :
    (xs.countP fun i => handed owner l1 l2 i = some l1) =
      (xs.countP fun i => owner i = some l1)+xs.countP fun i => owner i = some l2 := by
  induction xs with
  | nil => rfl
  | cons i xs ih =>
    simp only [List.countP_cons,ih]
    by_cases h2 : owner i = some l2
    · simp [handed,h2,hne.symm]
      omega
    · by_cases h1 : owner i = some l1
      · simp [handed,h1,hne]
        omega
      · simp [handed,h1,h2]

theorem handed_other (owner : ℤ → Option ℤ) (l1 l2 k : ℤ) (h1 : k ≠ l1) (h2 : k ≠ l2) (i : ℤ) :
    handed owner l1 l2 i = some k ↔ owner i = some k := by
  simp only [handed]
  split_ifs with h
  · simp [h,h1.symm,h2.symm]
  · rfl

theorem handed_emptied (owner : ℤ → Option ℤ) (l1 l2 : ℤ) (hne : l1 ≠ l2) (i : ℤ) :
    handed owner l1 l2 i ≠ some l2 := by
  simp only [handed]
  split_ifs with h
  · simpa using hne
  · exact h

theorem handed_first (owner : ℤ → Option ℤ) (l1 l2 i : ℤ) (h : owner i = some l1 ∨ owner i = some l2) :
    handed owner l1 l2 i = some l1 := by
  simp only [handed]
  split_ifs with h2
  · rfl
  · exact h.resolve_right h2

theorem handed_some (owner : ℤ → Option ℤ) (l1 l2 i : ℤ) :
    (∃ k, handed owner l1 l2 i = some k) ↔ ∃ k, owner i = some k := by
  by_cases h : owner i = some l2
  · simp [handed,h]
  · simp [handed,h]

theorem handed_cases (owner : ℤ → Option ℤ) (l1 l2 i : ℤ) (h : handed owner l1 l2 i = some l1) :
    owner i = some l1 ∨ owner i = some l2 := by
  simp only [handed] at h
  split_ifs at h with he
  · exact Or.inr he
  · exact Or.inl h

namespace Owned

variable {cap : Capacity} {h : History α}

theorem not_sentinel (ho : Owned cap h) (hk : Kept cap h) {i l : ℤ} (hi : h.owner i = some l) :
    i ≠ -1 := by
  have hr := (ho.returned_iff i).mp ⟨l,hi⟩
  exact index_ne_sentinel (hk.sound.returned_index i hr)

theorem ne_fresh (ho : Owned cap h) (hk : Kept cap h) (hf : h.pool.freeNodeHead ≠ -1) {i l : ℤ}
    (hi : h.owner i = some l) : i ≠ h.pool.freeNodeHead := by
  intro e
  exact (hk.sound.fresh hf).2 ((ho.returned_iff _).mp ⟨l,e ▸ hi⟩)

theorem curr_owned (ho : Owned cap h) (hk : Kept cap h) {l : ℤ} (hl : ListIndex cap l) (a : Adder)
    (hs : splice a (h.pool.lists l) = .beforeCurr ∨ splice a (h.pool.lists l) = .afterCurr) :
    h.owner (h.pool.lists l).curr = some l := by
  obtain ⟨_,hb,ha⟩ := splice_inner a _ hs
  have hr := hk.sound.curr_returned hl hb ha
  have hne := index_ne_sentinel (hk.sound.returned_index _ hr)
  exact ((ho.lists l hl).2.2).resolve_left hne

theorem predecessor_mine (ho : Owned cap h) (hk : Kept cap h) {l : ℤ} (hl : ListIndex cap l)
    (a : Adder) : Mine h l (predecessor (splice a (h.pool.lists l)) (h.pool.lists l)
      (h.pool.nodes (h.pool.lists l).curr)) := by
  obtain ⟨hh,ht,hc⟩ := ho.lists l hl
  cases hs : splice a (h.pool.lists l) with
  | atEnd => simp only [predecessor]; split_ifs; exacts [Or.inl rfl,ht]
  | atFront => exact Or.inl rfl
  | beforeCurr => exact (ho.nodes _ _ (ho.curr_owned hk hl a (Or.inl hs))).2
  | afterCurr => exact hc

theorem successor_mine (ho : Owned cap h) (hk : Kept cap h) {l : ℤ} (hl : ListIndex cap l)
    (a : Adder) : Mine h l (successor (splice a (h.pool.lists l)) (h.pool.lists l)
      (h.pool.nodes (h.pool.lists l).curr)) := by
  obtain ⟨hh,ht,hc⟩ := ho.lists l hl
  cases hs : splice a (h.pool.lists l) with
  | atEnd => exact Or.inl rfl
  | atFront => simp only [successor]; split_ifs; exacts [Or.inl rfl,hh]
  | beforeCurr => exact hc
  | afterCurr => exact (ho.nodes _ _ (ho.curr_owned hk hl a (Or.inr hs))).1

theorem apart_of_owner (ho : Owned cap h) (hk : Kept cap h) {l k i j : ℤ} (hkl : k ≠ l)
    (hi : h.owner i = some k) (hj : Mine h l j) : i ≠ j := by
  intro e
  rcases hj with hj | hj
  · exact ho.not_sentinel hk hi (e.trans hj)
  · rw [← e,hi] at hj
    exact hkl (Option.some.inj hj)

section Gaining

/-- What list `k` refers to once the free node has been given to `l`. -/
def Gained (h : History α) (l k i : ℤ) : Prop :=
  i = -1 ∨ Function.update h.owner h.pool.freeNodeHead (some l) i = some k

theorem gained_of_mine (ho : Owned cap h) (hk : Kept cap h) (hf : h.pool.freeNodeHead ≠ -1)
    {l k i : ℤ} (hm : Mine h k i) : Gained h l k i := by
  rcases hm with hm | hm
  · exact Or.inl hm
  · right
    rw [Function.update_of_ne (ho.ne_fresh hk hf hm)]
    exact hm

theorem gained_new (h : History α) (l : ℤ) : Gained h l l h.pool.freeNodeHead :=
  Or.inr (Function.update_self _ _ _)

theorem gained_within (ho : Owned cap h) (hk : Kept cap h) (hf : h.pool.freeNodeHead ≠ -1)
    (l : ℤ) {k : ℤ} (hk' : ListIndex cap k) : Within (Gained h l k) (h.pool.lists k) := by
  obtain ⟨h1,h2,h3⟩ := ho.lists k hk'
  exact ⟨ho.gained_of_mine hk hf h1,ho.gained_of_mine hk hf h2,ho.gained_of_mine hk hf h3⟩

/-- The links of the nodes that were there. A rewritten link belongs to a node
of `l`, so its new target is one too. -/
theorem splicedNodes_gained (ho : Owned cap h) (hk : Kept cap h) {l : ℤ} (hl : ListIndex cap l)
    (a : Adder) (x : α) (hf : h.pool.freeNodeHead ≠ -1) {i k : ℤ} (hi : h.owner i = some k)
    (hin : i ≠ h.pool.freeNodeHead) :
    Gained h l k (splicedNodes (splice a (h.pool.lists l)) (h.pool.lists l) h.pool.nodes
      h.pool.freeNodeHead x i).next ∧
    Gained h l k (splicedNodes (splice a (h.pool.lists l)) (h.pool.lists l) h.pool.nodes
      h.pool.freeNodeHead x i).prev := by
  have hz := ho.not_sentinel hk hi
  obtain ⟨hx,hp⟩ := ho.nodes i k hi
  have hkl {j : ℤ} (hj : Mine h l j) (e : i = j) : k = l := by
    by_contra hne
    exact ho.apart_of_owner hk hne hi hj e
  rw [splicedNodes_old _ _ _ _ _ _ hin hz]
  constructor
  · dsimp only
    split_ifs with e
    · rw [hkl (ho.predecessor_mine hk hl a) e]
      exact gained_new h l
    · exact ho.gained_of_mine hk hf hx
  · dsimp only
    split_ifs with e
    · rw [hkl (ho.successor_mine hk hl a) e]
      exact gained_new h l
    · exact ho.gained_of_mine hk hf hp

end Gaining

theorem spliced_owned (ho : Owned cap h) (hk : Kept cap h) {l : ℤ} (hl : ListIndex cap l)
    (a : Adder) (x : α) (hf : h.pool.freeNodeHead ≠ -1) :
    Owned cap { h with
      pool := spliced (splice a (h.pool.lists l)) h.pool l x
      inserted := h.inserted+1
      owner := Function.update h.owner h.pool.freeNodeHead (some l) } := by
  obtain ⟨_,hnew⟩ := hk.sound.fresh hf
  constructor
  · intro i
    simp only [PoolSplice.spliced,List.mem_append,List.mem_singleton]
    by_cases hi : i = h.pool.freeNodeHead
    · simp [hi]
    · simp only [Function.update_of_ne hi,hi,or_false]
      exact ho.returned_iff i
  · intro k hk'
    by_cases hkl : k = l
    · subst hkl
      simp only [PoolSplice.spliced,Function.update_self]
      exact splicedList_within _ _ _ (ho.gained_within hk hf k hk') (gained_new h k)
    · simp only [PoolSplice.spliced,Function.update_of_ne hkl]
      exact ho.gained_within hk hf l hk'
  · intro i k hi
    by_cases hin : i = h.pool.freeNodeHead
    · subst hin
      dsimp only at hi
      rw [Function.update_self] at hi
      obtain rfl := Option.some.inj hi
      simp only [PoolSplice.spliced,splicedNodes_new]
      exact newNode_within _ _ _ _ _ (Or.inl rfl) (ho.gained_within hk hf l hl) (gained_new h l)
        (fun hs => ho.gained_of_mine hk hf (ho.nodes _ _ (ho.curr_owned hk hl a (Or.inl hs))).2)
        (fun hs => ho.gained_of_mine hk hf (ho.nodes _ _ (ho.curr_owned hk hl a (Or.inr hs))).1)
    · dsimp only at hi
      rw [Function.update_of_ne hin] at hi
      exact ho.splicedNodes_gained hk hl a x hf hi hin
  · intro k hk'
    have hc := ho.counted k hk'
    simp only [owned,PoolSplice.spliced,List.countP_append,countP_update _ _ _ hnew]
    by_cases hkl : k = l
    · subst hkl
      simp [splicedList_count,hc,owned]
    · simp [hkl,Ne.symm hkl,hc,owned]
  · simp only [PoolSplice.spliced,total_update _ hl,splicedList_count,ho.total]
    push_cast
    ring

theorem none_owned (ho : Owned cap h) {l : ℤ} (hl : ListIndex cap l)
    (hc : (h.pool.lists l).count = 0) (i : ℤ) : h.owner i ≠ some l := by
  intro hi
  have hr := (ho.returned_iff i).mp ⟨l,hi⟩
  have hz : owned h l = 0 := by
    have := ho.counted l hl
    omega
  have hno := List.countP_eq_zero.mp hz i hr
  simp [hi] at hno

section Joining

/-- What list `k` refers to once `l2` has handed its nodes to `l1`. -/
def Received (h : History α) (l1 l2 k i : ℤ) : Prop :=
  i = -1 ∨ handed h.owner l1 l2 i = some k

theorem received_of_either {l1 l2 k i : ℤ} (hk : k = l1 ∨ k = l2) (hm : Mine h k i) :
    Received h l1 l2 l1 i := by
  rcases hm with hm | hm
  · exact Or.inl hm
  · rcases hk with rfl | rfl
    · exact Or.inr (handed_first _ _ _ _ (Or.inl hm))
    · exact Or.inr (handed_first _ _ _ _ (Or.inr hm))

theorem received_of_other {l1 l2 k i : ℤ} (hk1 : k ≠ l1) (hk2 : k ≠ l2) (hm : Mine h k i) :
    Received h l1 l2 k i := by
  rcases hm with hm | hm
  · exact Or.inl hm
  · exact Or.inr ((handed_other _ _ _ _ hk1 hk2 i).mpr hm)

theorem joined_nodes (ho : Owned cap h) (hk : Kept cap h) {l1 l2 : ℤ} (h1 : ListIndex cap l1)
    (h2 : ListIndex cap l2) (hne : l1 ≠ l2) {i k : ℤ} (hi : handed h.owner l1 l2 i = some k) :
    Received h l1 l2 k ((joined h.pool l1 l2).nodes i).next ∧
      Received h l1 l2 k ((joined h.pool l1 l2).nodes i).prev := by
  have ht1 := (ho.lists l1 h1).2.1
  have hh2 := (ho.lists l2 h2).1
  by_cases e1 : k = l1
  · subst e1
    obtain ⟨k',hk',hi'⟩ : ∃ k', (k' = k ∨ k' = l2) ∧ h.owner i = some k' := by
      rcases handed_cases _ _ _ _ hi with he | he
      · exact ⟨k,Or.inl rfl,he⟩
      · exact ⟨l2,Or.inr rfl,he⟩
    obtain ⟨hx,hp⟩ := ho.nodes i k' hi'
    constructor
    · simp only [joined]
      split_ifs
      · exact received_of_either (Or.inr rfl) hh2
      · exact received_of_either hk' hx
    · simp only [joined]
      split_ifs
      · exact received_of_either (Or.inl rfl) ht1
      · exact received_of_either hk' hp
  · have e2 : k ≠ l2 := fun e => handed_emptied _ _ _ hne i (e ▸ hi)
    have hi' := (handed_other _ _ _ _ e1 e2 i).mp hi
    obtain ⟨hx,hp⟩ := ho.nodes i k hi'
    simp only [joined,if_neg (ho.apart_of_owner hk e1 hi' ht1),
      if_neg (ho.apart_of_owner hk e2 hi' hh2)]
    exact ⟨received_of_other e1 e2 hx,received_of_other e1 e2 hp⟩

theorem joined_counted (ho : Owned cap h) {l1 l2 k : ℤ} (h2 : ListIndex cap l2)
    (hne : l1 ≠ l2) (hk : ListIndex cap k) : ((joined h.pool l1 l2).lists k).count =
      (h.pool.returned.countP fun i => handed h.owner l1 l2 i = some k : ℕ) := by
  have hc := ho.counted k hk
  by_cases e2 : k = l2
  · subst e2
    have hz : (h.pool.returned.countP fun i => handed h.owner l1 k i = some k) = 0 := by
      rw [List.countP_eq_zero]
      intro i _
      simpa using handed_emptied h.owner l1 k hne i
    simp [joined,emptied,hz]
  · by_cases e1 : k = l1
    · subst e1
      have hc2 := ho.counted l2 h2
      simp only [joined,Function.update_of_ne e2,Function.update_self,
        countP_handed _ _ _ _ hne,hc,hc2]
      push_cast
      rfl
    · have hsame : (h.pool.returned.countP fun i => handed h.owner l1 l2 i = some k) =
          owned h k := by
        apply List.countP_congr
        intro i _
        simpa using handed_other h.owner l1 l2 k e1 e2 i
      simp only [joined,Function.update_of_ne e2,Function.update_of_ne e1]
      rw [hc,hsame]

end Joining

theorem joined_owned (ho : Owned cap h) (hk : Kept cap h) {l1 l2 : ℤ} (h1 : ListIndex cap l1)
    (h2 : ListIndex cap l2) (hne : l1 ≠ l2) :
    Owned cap { h with
      pool := joined h.pool l1 l2
      owner := handed h.owner l1 l2 } := by
  obtain ⟨hh1,ht1,hr1⟩ := ho.lists l1 h1
  obtain ⟨hh2,ht2,hr2⟩ := ho.lists l2 h2
  constructor
  · intro i
    exact (handed_some h.owner l1 l2 i).trans (ho.returned_iff i)
  · intro k hk'
    by_cases e2 : k = l2
    · subst e2
      simp only [joined,Function.update_self]
      exact ⟨Or.inl rfl,Or.inl rfl,Or.inl rfl⟩
    · by_cases e1 : k = l1
      · subst e1
        simp only [joined,Function.update_of_ne e2,Function.update_self]
        exact ⟨received_of_either (Or.inl rfl) hh1,received_of_either (Or.inr rfl) ht2,
          received_of_either (Or.inl rfl) hr1⟩
      · obtain ⟨a1,a2,a3⟩ := ho.lists k hk'
        simp only [joined,Function.update_of_ne e2,Function.update_of_ne e1]
        exact ⟨received_of_other e1 e2 a1,received_of_other e1 e2 a2,received_of_other e1 e2 a3⟩
  · intro i k hi
    exact ho.joined_nodes hk h1 h2 hne hi
  · intro k hk'
    exact ho.joined_counted h2 hne hk'
  · have ht := ho.total
    simp only [joined,total_update _ h1,total_update _ h2,Function.update_of_ne hne.symm,emptied,ht]
    ring

theorem handed_none (ho : Owned cap h) {l1 l2 : ℤ} (h2 : ListIndex cap l2)
    (hc : (h.pool.lists l2).count = 0) : handed h.owner l1 l2 = h.owner := by
  funext i
  simp [handed,ho.none_owned h2 hc i]

theorem with_list (ho : Owned cap h) (h' : History α) {l : ℤ} (hl : ListIndex cap l) (L : LIST)
    (hn : h'.pool.nodes = h.pool.nodes) (hr : h'.pool.returned = h.pool.returned)
    (ho' : h'.owner = h.owner) (hi : h'.inserted = h.inserted)
    (hL : h'.pool.lists = Function.update h.pool.lists l L)
    (hw : Within (Mine h l) L) (hc : L.count = (h.pool.lists l).count) : Owned cap h' := by
  have hm : Mine h' = Mine h := by
    funext k i
    rw [Mine,Mine,ho']
  constructor
  · rw [ho',hr]
    exact ho.returned_iff
  · intro k hk
    rw [hL,hm]
    by_cases hkl : k = l
    · subst hkl
      rwa [Function.update_self]
    · rw [Function.update_of_ne hkl]
      exact ho.lists k hk
  · rw [ho',hn,hm]
    exact ho.nodes
  · intro k hk
    rw [hL,owned,hr,ho']
    by_cases hkl : k = l
    · subst hkl
      rw [Function.update_self,hc]
      exact ho.counted k hk
    · rw [Function.update_of_ne hkl]
      exact ho.counted k hk
  · rw [hL,hi,total_update _ hl,hc,sub_self,add_zero]
    exact ho.total

end Owned

theorem movedList_count (m : Mover) (L : LIST) (c : Node α) : (movedList m L c).count = L.count :=
  (movedList_ends m L c).2.2

theorem prefilled_owned (cap : Capacity) : Owned cap (prefilled cap : History α) := by
  constructor
  · intro i
    simp [prefilled,History.start,laidOut,zeroed]
  · intro l hl
    simp only [prefilled,laidOut,if_pos hl]
    exact ⟨Or.inl rfl,Or.inl rfl,Or.inl rfl⟩
  · intro i l hi
    simp [prefilled,History.start] at hi
  · intro l hl
    simp [prefilled,laidOut,hl,owned,zeroed]
  · have hz : ∀ l ∈ ascending 0 cap.maxLists, (((prefilled cap : History α).pool.lists l).count) = 0 := by
      intro l hl
      rw [mem_ascending] at hl
      have hi : ListIndex cap l := by simpa [ListIndex] using hl
      simp [prefilled,laidOut,hi]
    have hs : total cap (prefilled cap : History α).pool.lists = 0 := by
      rw [total,List.map_congr_left hz]
      simp
    simpa [prefilled,History.start] using hs

/-- Every effect of a call on distinct lists keeps the nodes with their lists. -/
theorem effect_owned {cap : Capacity} {h h' : History α} {c : Call α} (hk : Kept cap h)
    (ho : Owned cap h) (hc : OnCreated h c) (ha : Apart c) (he : Effect h c h') : Owned cap h' := by
  cases he with
  | opened hf =>
    obtain ⟨hi,_⟩ := hk.free_list hf
    have hw := ho.lists _ hi
    exact ho.with_list _ hi { h.pool.lists h.pool.freeListHead with link := -1 }
      rfl rfl rfl rfl rfl hw rfl
  | noSlot => exact ho
  | spliced a l x hf => exact ho.spliced_owned hk (hk.created_index l hc) a x hf
  | exhausted => exact ho
  | moved m l hm =>
    have hl := hk.created_index l hc
    have hr := (ho.lists l hl).2.2
    have hw : Within (Mine h l)
        (movedList m (h.pool.lists l) (h.pool.nodes (h.pool.lists l).curr)) := by
      apply movedList_within m _ _ (Or.inl rfl) (ho.lists l hl)
      · intro ha' hm'
        subst hm'
        exact (ho.nodes _ _ (hr.resolve_left (hm.resolve_left ha'))).1
      · intro hb' hm'
        subst hm'
        exact (ho.nodes _ _ (hr.resolve_left (hm.resolve_left hb'))).2
    exact ho.with_list _ hl _ rfl rfl rfl rfl rfl hw (movedList_count m _ _)
  | looked => exact ho
  | joined l1 l2 hc2 hc1 =>
    exact ho.joined_owned hk (hk.created_index l1 hc.1) (hk.created_index l2 hc.2) ha
  | nothing l1 l2 hc2 =>
    rw [ho.handed_none (hk.created_index l2 hc.2) hc2]
    exact ho

theorem properlyReached_owned {cap : Capacity} {h : History α} (hr : ProperlyReached cap h) :
    h = History.start ∨ (Kept cap h ∧ Owned cap h) := by
  apply reached_invariant (I := Owned cap) (fun _ _ hp => hp.1) (prefilled_owned cap) _ hr
  rintro h c h' hk ho hc (hp | rfl) he
  · exact effect_owned hk ho hc hp.2 he
  · exact effect_owned hk ho hc trivial he

def Given : Call α → ℤ → Prop
  | .create, _ => False
  | .adder _ l _, k => k = l
  | .mover _ l, k => k = l
  | .curr l, k => k = l
  | .count l, k => k = l
  | .concat l1 l2, k => k = l1 ∨ k = l2

/-- Created lists and their nodes refer to nodes of the same list only. -/
def Confined (h : History α) : Prop :=
  (∀ l ∈ h.created, Within (Mine h l) (h.pool.lists l)) ∧
  ∀ i l, h.owner i = some l → Mine h l (h.pool.nodes i).next ∧ Mine h l (h.pool.nodes i).prev

/-- A returning call leaves the lists it is not given as they were, and every
node that afterwards belongs to such a list. A creation is given no list and
leaves the created ones. -/
def LeavesOthers (cap : Capacity) (h : History α) (c : Call α) : Prop :=
  ∀ h', Steps cap h c h' →
    (∀ k, ¬ Given c k → (c = .create → k ∈ h.created) → h'.pool.lists k = h.pool.lists k) ∧
    ∀ i k, h'.owner i = some k → ¬ Given c k →
      (h'.pool.nodes i).item = (h.pool.nodes i).item ∧
      (h'.pool.nodes i).next = (h.pool.nodes i).next ∧
      (h'.pool.nodes i).prev = (h.pool.nodes i).prev

theorem effect_leaves_lists {cap : Capacity} {h h' : History α} {c : Call α} (hk : Kept cap h)
    (he : Effect h c h') (k : ℤ) (hg : ¬ Given c k) (hcr : c = .create → k ∈ h.created) :
    h'.pool.lists k = h.pool.lists k := by
  cases he with
  | opened hf =>
    have hne : k ≠ h.pool.freeListHead := fun e => (hk.free_list hf).2 (e ▸ hcr rfl)
    exact Function.update_of_ne hne _ _
  | noSlot => rfl
  | spliced a l x hf => exact Function.update_of_ne hg _ _
  | exhausted => rfl
  | moved m l hm => exact Function.update_of_ne hg _ _
  | looked => rfl
  | joined l1 l2 hc2 hc1 =>
    obtain ⟨e1,e2⟩ := not_or.mp hg
    simp [joined,e1,e2]
  | nothing => rfl

theorem effect_leaves_nodes {cap : Capacity} {h h' : History α} {c : Call α} (hk : Kept cap h)
    (ho : Owned cap h) (hc : OnCreated h c) (he : Effect h c h') (i k : ℤ)
    (hi : h'.owner i = some k) (hg : ¬ Given c k) : h'.pool.nodes i = h.pool.nodes i := by
  cases he with
  | opened => rfl
  | noSlot => rfl
  | spliced a l x hf =>
    have hl := hk.created_index l hc
    dsimp only at hi
    have hkl : k ≠ l := hg
    have hin : i ≠ h.pool.freeNodeHead := by
      intro e
      rw [e,Function.update_self] at hi
      exact hkl (Option.some.inj hi).symm
    rw [Function.update_of_ne hin] at hi
    exact splicedNodes_frame _ _ _ _ _ _ hin
      (ho.apart_of_owner hk hkl hi (ho.predecessor_mine hk hl a))
      (ho.apart_of_owner hk hkl hi (ho.successor_mine hk hl a))
  | exhausted => rfl
  | moved => rfl
  | looked => rfl
  | joined l1 l2 hc2 hc1 =>
    obtain ⟨e1,e2⟩ := not_or.mp hg
    have hi' := (handed_other _ _ _ _ e1 e2 i).mp hi
    have ht := (ho.lists l1 (hk.created_index l1 hc.1)).2.1
    have hh := (ho.lists l2 (hk.created_index l2 hc.2)).1
    simp only [joined,if_neg (ho.apart_of_owner hk e1 hi' ht),
      if_neg (ho.apart_of_owner hk e2 hi' hh)]
  | nothing => rfl

theorem properlyReached_confined {cap : Capacity} {h : History α} (hr : ProperlyReached cap h) :
    Confined h := by
  rcases properlyReached_owned hr with rfl | ⟨hk,ho⟩
  · constructor
    · intro l hl
      simp [History.start] at hl
    · intro i l hi
      simp [History.start] at hi
  · exact ⟨fun l hl => ho.lists l (hk.created_index l hl),ho.nodes⟩

theorem properlyReached_leaves {cap : Capacity} {h : History α} {c : Call α}
    (hr : ProperlyReached cap h) (hp : Proper h c) : LeavesOthers cap h c := by
  intro h' hs
  rcases properlyReached_owned hr with rfl | ⟨hk,ho⟩
  · obtain ⟨rfl,hon,he⟩ := start_effect hp.1 hs
    refine ⟨fun k _ hcr => absurd (hcr rfl) (by simp [History.start]),?_⟩
    intro i k hi _
    have ho' : h'.owner = fun _ => none := by
      cases he with
      | opened => rfl
      | noSlot => rfl
      | looked _ hl => simp at hl
    simp [ho'] at hi
  · have he := hk.effect hp.1 hs
    refine ⟨effect_leaves_lists hk he,?_⟩
    intro i k hi hg
    have hn := effect_leaves_nodes hk ho hp.1 he i k hi hg
    exact ⟨by rw [hn],by rw [hn],by rw [hn]⟩

/-- Lists that share the pools stay isolated: in every state of every run
their references stay among their own nodes, and every call leaves the other
lists and their nodes unchanged. -/
theorem lists_stay_isolated (cap : Capacity) (calls : List (Call α))
    (hp : Each (Steps cap) Proper History.start calls) :
    Always (Steps cap) Confined History.start calls ∧
    Each (Steps cap) (LeavesOthers cap) History.start calls :=
  ⟨always_of_reach (fun _ => properlyReached_confined) calls _ .start hp,
    each_of_reach (fun _ _ => properlyReached_leaves) calls _ .start hp⟩

/-- Two lists filled in turn, joined, and used again after the hand-over. -/
def sharing : List (Call ℕ) :=
  [.create,.create,.adder .append 0 10,.adder .append 1 20,.adder .add 0 30,.adder .prepend 1 40,
    .concat 0 1,.adder .insert 1 50,.mover .last 0,.adder .append 0 60]

theorem lists_stay_isolated_sharing : StaysInside shipped sharing ∧
    Always (Steps shipped) Confined History.start sharing ∧
    Each (Steps shipped) (LeavesOthers shipped) History.start sharing :=
  ⟨by decide,lists_stay_isolated shipped sharing (by decide)⟩

end ListlibSyscalls.PoolOwnership
