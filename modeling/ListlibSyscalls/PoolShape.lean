import ListlibSyscalls.PoolOwnership

/-!
# Which insertions keep the chains intact

A list is intact when following `next` from its head visits as many distinct
nodes as it counts, ends at its tail, and `prev` retraces the walk. Cursor
moves, creations and concatenations of distinct lists keep every list intact.
An insertion does not when it goes into an empty list, where the new node is
linked to itself, when `ListAppend` runs with the cursor away from the tail it
takes for its predecessor, or when `ListAdd` inserts behind the tail without
moving it.
-/

set_option autoImplicit false

namespace ListlibSyscalls.PoolShape
open StepRuns LinkedChain PoolMachine PoolHistory PoolSplice PoolMoves PoolInvariant PoolReached
open PoolIndexSafety PoolOwnership

variable {α : Type}

abbrev Chain (nodes : ℤ → Node α) (L : LIST) (xs : List ℤ) : Prop :=
  Doubly (fun i => (nodes i).next) (fun i => (nodes i).prev) (-1) L.head L.tail xs

/-- The list is a chain of the length it counts. -/
def Intact (nodes : ℤ → Node α) (L : LIST) : Prop :=
  ∃ xs, Chain nodes L xs ∧ (xs.length:ℤ) = L.count

instance (nodes : ℤ → Node α) (L : LIST) : Decidable (Intact nodes L) :=
  let xs := visited (fun i => (nodes i).next) L.head L.count.toNat
  decidable_of_iff (Chain nodes L xs ∧ (xs.length:ℤ) = L.count) (by
      constructor
      · exact fun h => ⟨xs,h⟩
      · rintro ⟨ys,hy,hc⟩
        have hl : L.count.toNat = ys.length := by omega
        have he : xs = ys := by
          rw [walk_visited hy.forward,← hl]
        rw [he]
        exact ⟨hy,hc⟩)

def ChainsIntact (h : History α) : Prop := ∀ l ∈ h.created, Intact h.pool.nodes (h.pool.lists l)

instance (h : History α) : Decidable (ChainsIntact h) :=
  inferInstanceAs (Decidable (∀ l ∈ h.created, _))

/-- A splice into a list with items, at the cursor it assumes. -/
def Spliceable (sp : Splice) (L : LIST) : Prop :=
  L.count ≠ 0 ∧ (sp = .atEnd → L.curr = L.tail) ∧ (sp = .afterCurr → L.curr ≠ L.tail)

instance (sp : Splice) (L : LIST) : Decidable (Spliceable sp L) :=
  inferInstanceAs (Decidable (_ ∧ _))

/-- The insertions that find a node and the list in a state they handle. -/
def KeepsLinks (h : History α) : Call α → Prop
  | .adder a l _ => h.pool.freeNodeHead = -1 ∨
      Spliceable (splice a (h.pool.lists l)) (h.pool.lists l)
  | _ => True

instance (h : History α) (c : Call α) : Decidable (KeepsLinks h c) :=
  match c with
  | .adder _ _ _ => inferInstanceAs (Decidable (_ ∨ _))
  | .create => inferInstanceAs (Decidable True)
  | .mover _ _ => inferInstanceAs (Decidable True)
  | .curr _ => inferInstanceAs (Decidable True)
  | .count _ => inferInstanceAs (Decidable True)
  | .concat _ _ => inferInstanceAs (Decidable True)

theorem splicedNodes_doubly (sp : Splice) (L : LIST) (nodes : ℤ → Node α) (n : ℤ) (x : α)
    {as bs : List ℤ} (h : Chain nodes L (as++bs)) (hz : n ≠ -1) (hfresh : n ∉ as++bs)
    (hp : predecessor sp L (nodes L.curr) = final (-1) as)
    (hs : successor sp L (nodes L.curr) = bs.headD (-1))
    (hnx : (newNode sp L (nodes L.curr) n x).next = bs.headD (-1))
    (hnp : (newNode sp L (nodes L.curr) n x).prev = final (-1) as) :
    Doubly (fun i => (splicedNodes sp L nodes n x i).next)
      (fun i => (splicedNodes sp L nodes n x i).prev) (-1)
      (if as = [] then n else L.head) (if bs = [] then n else L.tail) (as++n::bs) := by
  have hne := walk_ne_sentinel h.forward
  have hnew (i : ℤ) (hi : i ∈ as++bs) : i ≠ n := fun e => hfresh (e ▸ hi)
  have hnext (i : ℤ) (hi : i ∈ as++bs) : (splicedNodes sp L nodes n x i).next =
      if i = final (-1) as then n else (nodes i).next := by
    rw [splicedNodes_old _ _ _ _ _ _ (hnew i hi) (hne i hi),hp]
  have hprev (i : ℤ) (hi : i ∈ as++bs) : (splicedNodes sp L nodes n x i).prev =
      if i = bs.headD (-1) then n else (nodes i).prev := by
    rw [splicedNodes_old _ _ _ _ _ _ (hnew i hi) (hne i hi),hs]
  have hla {i : ℤ} (hi : i ∈ as) : i ∈ as++bs := List.mem_append_left _ hi
  have hlb {i : ℤ} (hi : i ∈ bs) : i ∈ as++bs := List.mem_append_right _ hi
  have hapart := (List.nodup_append.mp h.distinct).2.2
  -- the last position in front lies in `as`, the first one behind in `bs`
  have hlast {i : ℤ} (hi : i ∈ bs) : i ≠ final (-1) as := by
    by_cases ha : as = []
    · rw [ha]
      exact hne i (hlb hi)
    · exact fun e => hapart _ (final_mem (-1) ha) i hi e.symm
  have hfirst {i : ℤ} (hi : i ∈ as) : i ≠ bs.headD (-1) := by
    cases bs with
    | nil => exact hne i (hla hi)
    | cons b bs => exact fun e => hapart i hi b (by simp) e
  apply h.splice hz hfresh
  · intro i hi he
    rw [hnext i (hla hi),if_neg he]
  · intro i hi
    rw [hnext i (hlb hi),if_neg (hlast hi)]
  · intro ha
    rw [hnext _ (hla (final_mem (-1) ha)),if_pos rfl]
  · rw [splicedNodes_new,hnx]
  · intro i hi
    rw [hprev i (hla hi),if_neg (hfirst hi)]
  · intro i hi he
    rw [hprev i (hlb hi),if_neg he]
  · intro hb
    cases bs with
    | nil => exact absurd rfl hb
    | cons b bs => rw [hprev _ (hlb (by simp)),if_pos rfl]
  · rw [splicedNodes_new,hnp]

theorem splice_empty (a : Adder) (L : LIST) (h0 : L.count = 0) :
    splice a L = .atEnd ∨ splice a L = .atFront := by
  cases a <;> simp [splice,h0]

theorem insertIdx_middle {ι : Type} (as bs : List ι) (i : ι) :
    (as++bs).insertIdx as.length i = as++i::bs := by
  induction as with
  | nil => rfl
  | cons a as ih => simp [ih]

section OneChain

variable {nodes : ℤ → Node α} {L : LIST} {n : ℤ} {xs : List ℤ}

theorem chain_ne_nil (hc : (xs.length:ℤ) = L.count) (h0 : L.count ≠ 0) : xs ≠ [] := by
  intro hx
  rw [hx] at hc
  simp only [List.length_nil] at hc
  omega

theorem chain_tail_mem (hd : Chain nodes L xs) (hx : xs ≠ []) : L.tail ∈ xs := by
  rw [← hd.ends]
  exact final_mem (-1) hx

theorem chain_split (hd : Chain nodes L xs) (hc : L.curr ∈ xs) :
    ∃ as bs, xs = as++L.curr::bs ∧ (nodes L.curr).prev = final (-1) as ∧
      (nodes L.curr).next = bs.headD (-1) ∧ L.curr ∉ as ∧
      (as = [] ↔ L.head = L.curr) ∧ (bs = [] ↔ L.curr = L.tail) := by
  obtain ⟨as,bs,rfl⟩ := List.append_of_mem hc
  obtain ⟨m,hwa,rfl,_,hwb⟩ := (walk_append _ _ _ _ as (_::bs)).mp hd.forward
  obtain ⟨_,hb,_⟩ := (back_append _ _ as (_::bs)).mp hd.backward
  obtain ⟨_,hnb,hapart⟩ := List.nodup_append.mp hd.distinct
  have hlast := hd.ends
  rw [final_append] at hlast
  have hca : L.curr ∉ as := fun hm => hapart _ hm _ (by simp) rfl
  refine ⟨as,bs,rfl,hb,walk_enters hwb,hca,?_,?_⟩
  · cases as with
    | nil => exact iff_of_true rfl hwa
    | cons a as =>
      have hne : a ≠ L.curr := fun e => hca (by simp [e])
      rw [hwa.1]
      exact iff_of_false (by simp) hne
  · cases bs with
    | nil => exact iff_of_true rfl hlast
    | cons b bs =>
      have hm : L.tail ∈ b::bs := by
        rw [← hlast]
        exact final_mem L.curr (by simp)
      exact iff_of_false (by simp) (fun e => (List.nodup_cons.mp hnb).1 (e ▸ hm))

def place (sp : Splice) (L : LIST) (xs : List ℤ) : ℕ :=
  match sp with
  | .atEnd => xs.length
  | .atFront => 0
  | .beforeCurr => xs.idxOf L.curr
  | .afterCurr => xs.idxOf L.curr+1

/-- At the cursor it assumes, each splice extends the chain by its node. -/
theorem spliced_chain (sp : Splice) (x : α) (hd : Chain nodes L xs) (hx : xs ≠ [])
    (hf : n ≠ -1) (hfresh : n ∉ xs)
    (hin : sp = .beforeCurr ∨ sp = .afterCurr → L.curr ∈ xs) (hs : Spliceable sp L) :
    Chain (splicedNodes sp L nodes n x) (splicedList sp L n)
      (xs.insertIdx (place sp L xs) n) := by
  obtain ⟨h0,hend,hafter⟩ := hs
  cases sp with
  | atEnd =>
    have hd' : Chain nodes L (xs++[]) := by simpa using hd
    have hnew := splicedNodes_doubly .atEnd _ _ n x hd' hf (by simpa using hfresh)
      (by simp [predecessor,h0,hd.ends]) rfl (by simp [newNode,h0])
      (by simp [newNode,h0,hend rfl,hd.ends])
    simpa [Chain,splicedList,h0,hx,place] using hnew
  | atFront =>
    have hhead := walk_enters hd.forward
    have hd' : Chain nodes L ([]++xs) := hd
    have hnew := splicedNodes_doubly .atFront _ _ n x hd' hf hfresh rfl
      (by simp [successor,h0,hhead]) (by simp [newNode,h0,hhead]) (by simp [newNode,h0,final])
    simpa [Chain,splicedList,h0,hx,place] using hnew
  | beforeCurr =>
    obtain ⟨as,bs,rfl,hp,hn,hca,ha,hb⟩ := chain_split hd (hin (Or.inl rfl))
    have hnew := splicedNodes_doubly .beforeCurr _ _ n x hd hf hfresh hp rfl rfl hp
    have hpl : place .beforeCurr L (as++L.curr::bs) = as.length := by
      simp [place,List.idxOf_append_of_notMem hca]
    rw [hpl,insertIdx_middle]
    simpa [Chain,splicedList,ha] using hnew
  | afterCurr =>
    obtain ⟨as,bs,rfl,hp,hn,hca,ha,hb⟩ := chain_split hd (hin (Or.inr rfl))
    have hbs : bs ≠ [] := fun e => hafter rfl (hb.mp e)
    have he : as++L.curr::bs = (as++[L.curr])++bs := by simp
    have hlast : final (-1) (as++[L.curr]) = L.curr := by
      rw [final_append]
      rfl
    have hnew := splicedNodes_doubly .afterCurr _ _ n x (he ▸ hd) hf (he ▸ hfresh)
      hlast.symm hn hn hlast.symm
    have hpl : place .afterCurr L (as++L.curr::bs) = (as++[L.curr]).length := by
      simp [place,List.idxOf_append_of_notMem hca]
    rw [hpl,he,insertIdx_middle]
    simpa [Chain,splicedList,hbs] using hnew

theorem place_le (sp : Splice) (hin : sp = .beforeCurr ∨ sp = .afterCurr → L.curr ∈ xs) :
    place sp L xs ≤ xs.length := by
  cases sp with
  | atEnd => exact le_refl _
  | atFront => exact Nat.zero_le _
  | beforeCurr => exact List.idxOf_le_length
  | afterCurr => exact List.idxOf_lt_length_of_mem (hin (Or.inr rfl))

theorem appended_walk (x : α) (hd : Chain nodes L xs) (hx : xs ≠ []) (h0 : L.count ≠ 0)
    (hf : n ≠ -1) (hfresh : n ∉ xs) :
    Walk (fun i => (splicedNodes .atEnd L nodes n x i).next) (-1) L.head (xs++[n]) (-1) := by
  have hold (i : ℤ) (hi : i ∈ xs) := splicedNodes_old .atEnd L nodes n x i
    (fun e => hfresh (e ▸ hi)) (walk_ne_sentinel hd.forward i hi)
  rw [walk_append]
  refine ⟨n,?_,rfl,hf,?_⟩
  · apply walk_redirect hd.forward hd.distinct hx
    · intro i hi he
      rw [hd.ends] at he
      simp [hold i hi,predecessor,h0,he]
    · rw [hd.ends]
      simp [hold _ (chain_tail_mem hd hx),predecessor,h0]
  · show (splicedNodes .atEnd L nodes n x n).next = -1
    simp [splicedNodes,newNode,h0]

/-- Elsewhere the list is not a chain of its new count any more. -/
theorem spliced_broken (sp : Splice) (x : α) (hd : Chain nodes L xs)
    (hc : (xs.length:ℤ) = L.count) (hf : n ≠ -1) (hfresh : n ∉ xs)
    (hempty : L.count = 0 → sp = .atEnd ∨ sp = .atFront) (hs : ¬ Spliceable sp L) :
    ¬ Intact (splicedNodes sp L nodes n x) (splicedList sp L n) := by
  rintro ⟨ys,hd',hc'⟩
  have hy : ys ≠ [] := by
    intro e
    rw [e,splicedList_count] at hc'
    simp only [List.length_nil] at hc'
    omega
  have hlast := walk_final hd'.forward hy
  rw [hd'.ends] at hlast
  by_cases h0 : L.count = 0
  · -- the only node is linked to itself
    have hself : (splicedNodes sp L nodes n x (splicedList sp L n).tail).next = n := by
      rcases hempty h0 with rfl | rfl
      · simp [splicedList,splicedNodes,newNode,h0]
      · simp [splicedList,splicedNodes,newNode,h0]
    exact hf (hself.symm.trans hlast)
  · have hx := chain_ne_nil hc h0
    simp only [Spliceable,not_and_or,not_not,Classical.not_imp] at hs
    rcases hs with hs | ⟨rfl,hs⟩ | ⟨rfl,hs⟩
    · exact h0 hs
    · -- the walk is the old one and the new node, whose backward link is the cursor
      have hys : ys = xs++[n] := by
        apply walk_unique hd'.forward
        simpa [splicedList,h0] using appended_walk x hd hx h0 hf hfresh
      have hb := hd'.backward
      rw [hys,back_append] at hb
      have hprev := hb.2.1
      rw [hd.ends] at hprev
      apply hs
      simpa [splicedNodes,newNode,h0] using hprev
    · -- the tail stays behind the node linked after it
      have htail := chain_tail_mem hd hx
      have hne : L.tail ≠ n := fun e => hfresh (e ▸ htail)
      apply hf
      rw [← hlast]
      simp only [splicedList]
      rw [splicedNodes_old _ _ _ _ _ _ hne (walk_ne_sentinel hd.forward _ htail)]
      simp [predecessor,hs]

end OneChain

section OneList

variable {cap : Capacity} {h : History α} {l : ℤ} {xs : List ℤ}

theorem chain_owned (ho : Owned cap h) (hl : ListIndex cap l)
    (hd : Chain h.pool.nodes (h.pool.lists l) xs) :
    ∀ i ∈ xs, h.owner i = some l := by
  apply walk_confined (P := fun i => h.owner i = some l) hd.forward
  · intro hz
    exact ((ho.lists l hl).1).resolve_left hz
  · intro i hi hz
    exact ((ho.nodes i l hi).1).resolve_left hz

theorem chain_complete (ho : Owned cap h) (hl : ListIndex cap l)
    (hd : Chain h.pool.nodes (h.pool.lists l) xs)
    (hc : (xs.length:ℤ) = (h.pool.lists l).count) {i : ℤ} (hi : h.owner i = some l) : i ∈ xs := by
  have hin := chain_owned ho hl hd
  let ys := h.pool.returned.filter fun j => h.owner j = some l
  have hsub : xs ⊆ ys := by
    intro j hj
    have hjl := hin j hj
    exact List.mem_filter.mpr ⟨(ho.returned_iff j).mp ⟨l,hjl⟩,by simpa using hjl⟩
  have hlen : ys.length ≤ xs.length := by
    have hcount := ho.counted l hl
    have hy : owned h l = ys.length := List.countP_eq_length_filter ..
    omega
  have hperm := (hd.distinct.subperm hsub).perm_of_length_le hlen
  apply hperm.mem_iff.mpr
  exact List.mem_filter.mpr ⟨(ho.returned_iff i).mp ⟨l,hi⟩,by simpa using hi⟩

theorem intact_frame (ho : Owned cap h) (hl : ListIndex cap l) (nodes : ℤ → Node α)
    (hn : ∀ i, h.owner i = some l → nodes i = h.pool.nodes i)
    (hi : Intact h.pool.nodes (h.pool.lists l)) : Intact nodes (h.pool.lists l) := by
  obtain ⟨xs,hd,hc⟩ := hi
  have hin := chain_owned ho hl hd
  refine ⟨xs,hd.congr ?_ ?_,hc⟩
  · intro i hi
    rw [hn i (hin i hi)]
  · intro i hi
    rw [hn i (hin i hi)]

theorem chain_fresh (hk : Kept cap h) (ho : Owned cap h) (hl : ListIndex cap l)
    (hf : h.pool.freeNodeHead ≠ -1) (hd : Chain h.pool.nodes (h.pool.lists l) xs) :
    h.pool.freeNodeHead ∉ xs := by
  intro hx
  exact ho.ne_fresh hk hf (chain_owned ho hl hd _ hx) rfl

/-- An insertion leaves its list intact exactly at the cursor its splice assumes. -/
theorem spliced_intact_iff (hk : Kept cap h) (ho : Owned cap h) (hl : ListIndex cap l)
    (hf : h.pool.freeNodeHead ≠ -1) (a : Adder) (x : α)
    (hi : Intact h.pool.nodes (h.pool.lists l)) :
    Intact (splicedNodes (splice a (h.pool.lists l)) (h.pool.lists l) h.pool.nodes
        h.pool.freeNodeHead x)
      (splicedList (splice a (h.pool.lists l)) (h.pool.lists l) h.pool.freeNodeHead) ↔
    Spliceable (splice a (h.pool.lists l)) (h.pool.lists l) := by
  obtain ⟨xs,hd,hc⟩ := hi
  have hfresh := chain_fresh hk ho hl hf hd
  constructor
  · intro hI
    by_contra hs
    exact spliced_broken _ x hd hc hf hfresh (splice_empty a _) hs hI
  · intro hs
    have hin (hb : splice a (h.pool.lists l) = .beforeCurr ∨
        splice a (h.pool.lists l) = .afterCurr) : (h.pool.lists l).curr ∈ xs :=
      chain_complete ho hl hd hc (ho.curr_owned hk hl a hb)
    refine ⟨_,spliced_chain _ x hd (chain_ne_nil hc hs.1) hf hfresh hin hs,?_⟩
    rw [List.length_insertIdx_of_le_length (place_le _ hin),splicedList_count,← hc]
    push_cast
    rfl

end OneList

/-- When one created list is rewritten and the others are framed, the chains
are intact afterwards exactly when its chain is. -/
theorem chainsIntact_update {cap : Capacity} {h h' : History α} {c : Call α} {l : ℤ}
    (hk : Kept cap h) (ho : Owned cap h) (hP : ChainsIntact h) (hc : OnCreated h c)
    (he : Effect h c h') (hl : l ∈ h.created) (hcr : h'.created = h.created)
    (hg : ∀ k, Given c k ↔ k = l) (how : ∀ i k, k ≠ l → h.owner i = some k → h'.owner i = some k) :
    ChainsIntact h' ↔ Intact h'.pool.nodes (h'.pool.lists l) := by
  constructor
  · intro hI
    exact hI l (hcr ▸ hl)
  · intro hI k hk'
    by_cases hkl : k = l
    · rw [hkl]
      exact hI
    · rw [hcr] at hk'
      have hgk : ¬ Given c k := fun hg' => hkl ((hg k).mp hg')
      rw [effect_leaves_lists hk he k hgk (fun _ => hk')]
      apply intact_frame ho (hk.created_index k hk') _ _ (hP k hk')
      intro i hi
      exact effect_leaves_nodes hk ho hc he i k (how i k hkl hi) hgk

theorem joined_chain {s : Pool α} {l1 l2 : ℤ} {as bs : List ℤ} (hne : l1 ≠ l2)
    (hda : Chain s.nodes (s.lists l1) as) (hdb : Chain s.nodes (s.lists l2) bs)
    (ha : as ≠ []) (hb : bs ≠ []) (hapart : ∀ i ∈ as, i ∉ bs) :
    Chain (joined s l1 l2).nodes ((joined s l1 l2).lists l1) (as++bs) := by
  have htail := chain_tail_mem hda ha
  have hhead : (s.lists l2).head ∈ bs := by
    rw [walk_enters hdb.forward]
    cases bs with
    | nil => exact absurd rfl hb
    | cons b bs => simp
  have hlist : (joined s l1 l2).lists l1 = { s.lists l1 with
      tail := (s.lists l2).tail
      count := (s.lists l1).count+(s.lists l2).count } := by
    simp [joined,hne]
  rw [hlist]
  apply hda.join hdb ha hb hapart
  · intro i _ hit
    exact if_neg hit
  · intro i hi
    have hit : i ≠ (s.lists l1).tail := fun e => hapart _ htail (e ▸ hi)
    exact if_neg hit
  · exact if_pos rfl
  · intro i hi
    have hih : i ≠ (s.lists l2).head := fun e => hapart i hi (e ▸ hhead)
    exact if_neg hih
  · intro i _ hih
    exact if_neg hih
  · exact if_pos rfl

theorem joined_intact {cap : Capacity} {h : History α} {l1 l2 : ℤ} (ho : Owned cap h)
    (h1 : ListIndex cap l1) (h2 : ListIndex cap l2) (hne : l1 ≠ l2)
    (hc1 : (h.pool.lists l1).count ≠ 0) (hc2 : (h.pool.lists l2).count ≠ 0)
    (hi1 : Intact h.pool.nodes (h.pool.lists l1)) (hi2 : Intact h.pool.nodes (h.pool.lists l2)) :
    Intact (joined h.pool l1 l2).nodes ((joined h.pool l1 l2).lists l1) := by
  obtain ⟨as,hda,hca⟩ := hi1
  obtain ⟨bs,hdb,hcb⟩ := hi2
  have hapart : ∀ i ∈ as, i ∉ bs := by
    intro i hi hi'
    have e1 := chain_owned ho h1 hda i hi
    have e2 := chain_owned ho h2 hdb i hi'
    rw [e1] at e2
    exact hne (Option.some.inj e2)
  refine ⟨as++bs,joined_chain hne hda hdb (chain_ne_nil hca hc1) (chain_ne_nil hcb hc2) hapart,?_⟩
  simp [joined,hne,hca,hcb]

theorem effect_chainsIntact {cap : Capacity} {h h' : History α} {c : Call α} (hk : Kept cap h)
    (ho : Owned cap h) (hP : ChainsIntact h) (hp : Proper h c) (he : Effect h c h') :
    ChainsIntact h' ↔ KeepsLinks h c := by
  have hc := hp.1
  cases he with
  | opened hf =>
    apply iff_of_true _ trivial
    obtain ⟨hi,hn⟩ := hk.free_list hf
    intro l hl
    dsimp only [opened]
    by_cases he : l = h.pool.freeListHead
    · rw [he,Function.update_self,hk.unused _ hi hn]
      exact ⟨[],⟨rfl,trivial,List.nodup_nil,rfl⟩,rfl⟩
    · rw [Function.update_of_ne he]
      exact hP l ((List.mem_append.mp hl).resolve_right (by simpa using he))
  | noSlot => exact iff_of_true hP trivial
  | spliced a l x hf =>
    have hl := hk.created_index l hc
    rw [chainsIntact_update hk ho hP hc (.spliced a l x hf) hc rfl (fun _ => Iff.rfl)]
    · simp only [PoolSplice.spliced,Function.update_self,KeepsLinks,hf,false_or]
      exact spliced_intact_iff hk ho hl hf a x (hP l hc)
    · intro i k _ hi
      exact (Function.update_of_ne (ho.ne_fresh hk hf hi) _ _).trans hi
  | exhausted a l x hf => exact iff_of_true hP (Or.inl hf)
  | moved m l hm =>
    rw [chainsIntact_update hk ho hP hc (.moved m l hm) hc rfl (fun _ => Iff.rfl)
      (fun _ _ _ hi => hi)]
    apply iff_of_true _ trivial
    have hL : ((PoolMoves.moved m h.pool l).lists l).head = (h.pool.lists l).head ∧
        ((PoolMoves.moved m h.pool l).lists l).tail = (h.pool.lists l).tail ∧
        ((PoolMoves.moved m h.pool l).lists l).count = (h.pool.lists l).count := by
      simp only [PoolMoves.moved,setList_lists,Function.update_self]
      exact movedList_ends m _ _
    obtain ⟨xs,hd,hcount⟩ := hP l hc
    refine ⟨xs,?_,?_⟩
    · rw [Chain,hL.1,hL.2.1]
      exact hd
    · rw [hL.2.2]
      exact hcount
  | looked c hl =>
    apply iff_of_true hP
    rcases hl with ⟨l,rfl⟩ | ⟨l,rfl⟩ <;> trivial
  | joined l1 l2 hc2 hc1 =>
    apply iff_of_true _ trivial
    have h1 := hk.created_index l1 hc.1
    have h2 := hk.created_index l2 hc.2
    intro k hk'
    by_cases e2 : k = l2
    · rw [e2]
      simp only [joined,Function.update_self]
      exact ⟨[],⟨rfl,trivial,List.nodup_nil,rfl⟩,rfl⟩
    · by_cases e1 : k = l1
      · rw [e1]
        exact joined_intact ho h1 h2 hp.2 hc1 hc2 (hP l1 hc.1) (hP l2 hc.2)
      · have hg : ¬ Given (.concat l1 l2 : Call α) k := not_or.mpr ⟨e1,e2⟩
        rw [effect_leaves_lists hk (.joined l1 l2 hc2 hc1) k hg (fun _ => hk')]
        apply intact_frame ho (hk.created_index k hk') _ _ (hP k hk')
        intro i hi
        exact effect_leaves_nodes hk ho hc (.joined l1 l2 hc2 hc1) i k
          ((handed_other _ _ _ _ e1 e2 i).mpr hi) hg
  | nothing l1 l2 hc2 => exact iff_of_true hP trivial

theorem start_chainsIntact : ChainsIntact (History.start : History α) := by
  intro l hl
  simp [History.start] at hl

theorem step_chainsIntact {cap : Capacity} {h h' : History α} {c : Call α}
    (hr : ProperlyReached cap h) (hP : ChainsIntact h) (hp : Proper h c)
    (hs : Steps cap h c h') : ChainsIntact h' ↔ KeepsLinks h c := by
  rcases properlyReached_owned hr with rfl | ⟨hk,ho⟩
  · obtain ⟨rfl,hon,he⟩ := start_effect hp.1 hs
    have hP0 : ChainsIntact (prefilled cap : History α) := by
      intro l hl
      simp [prefilled,History.start] at hl
    have hp0 : Proper (prefilled cap : History α) .create := ⟨hon,trivial⟩
    exact iff_of_true ((effect_chainsIntact (prefilled_kept cap) (prefilled_owned cap) hP0 hp0
      he).mpr trivial) trivial
  · exact effect_chainsIntact hk ho hP hp (hk.effect hp.1 hs)

/-- From every reached state with intact chains, the starting one included,
the chains stay intact exactly as long as the insertions are made where the
code handles them. -/
theorem chains_intact_iff_links_kept (cap : Capacity) :
    ChainsIntact (History.start : History α) ∧
    ∀ h : History α, ProperlyReached cap h → ChainsIntact h → ∀ calls,
      Each (Steps cap) Proper h calls →
      (Always (Steps cap) ChainsIntact h calls ↔ Each (Steps cap) KeepsLinks h calls) := by
  refine ⟨start_chainsIntact,?_⟩
  intro h hr hP calls hp
  apply always_iff_each (I := ProperlyReached cap) (O := Proper)
  · exact fun _ _ _ hr hp hs => hr.next hp hs
  · intro h c hr _ hp hrefused
    cases c with
    | adder a l x =>
      have hacc := (step_accepted_iff (reached_kept hr.reached) hp.1).mpr trivial
      exact absurd hacc (fun ⟨h',hs⟩ => hrefused h' hs)
    | _ => trivial
  · exact fun _ _ _ hr hP hp hs => step_chainsIntact hr hP hp hs
  · exact hr
  · exact hP
  · exact hp

/-- A second append and a prepend happen to overwrite the links that the first
append left wrong. -/
def repaired : History ℕ := lastState (History.step shipped) History.start
  [.create,.adder .append 0 10,.adder .append 0 20,.adder .prepend 0 30]

def handled : List (Call ℕ) :=
  [.adder .add 0 40,.adder .insert 0 50,.mover .last 0,.adder .append 0 60,.adder .prepend 0 70]

theorem chains_intact_repaired : ProperlyReached shipped repaired ∧
    (repaired.pool.lists 0).count = 3 ∧ ChainsIntact repaired ∧
    Always (Steps shipped) ChainsIntact repaired handled := by
  have hr : ProperlyReached shipped repaired := Reach.start.lastState _ _ (by decide +kernel)
  have hi : ChainsIntact repaired := by decide +kernel
  exact ⟨hr,by decide +kernel,hi,((chains_intact_iff_links_kept shipped).2 repaired hr hi handled
    (by decide +kernel)).mpr (by decide +kernel)⟩

/-- The first item of a list is linked to itself. In the repaired list an
append away from the tail and an addition behind it break the chain again. -/
theorem self_linked :
    (Each (Steps shipped) Proper History.start [.create,.adder .append 0 10] ∧
      ¬ Always (Steps shipped) ChainsIntact History.start [.create,.adder .append 0 10]) ∧
    ¬ Always (Steps shipped) ChainsIntact repaired [.adder .append 0 40] ∧
    ¬ Always (Steps shipped) ChainsIntact repaired [.mover .last 0,.adder .add 0 40] := by
  decide +kernel

end ListlibSyscalls.PoolShape
