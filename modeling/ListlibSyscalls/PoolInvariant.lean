import ListlibSyscalls.LinkedChain
import ListlibSyscalls.PoolMoves

/-!
# The invariant of the pools

Every call on created lists keeps the free chain apart from the nodes handed
out, keeps every stored index either -1 or a node handed out, and keeps the
cursor readable: a cursor that is -1 carries exactly one of the two flags.
The confinement lemmas are stated for an arbitrary set of indices, so that
they also serve when the set is the nodes of one list.
-/

set_option autoImplicit false

namespace ListlibSyscalls.PoolInvariant
open StepRuns LinkedChain PoolMachine PoolHistory PoolSplice PoolMoves

variable {α : Type}

section Confinement

variable (P : ℤ → Prop)

def Within (L : LIST) : Prop := P L.head ∧ P L.tail ∧ P L.curr

variable {P}

theorem splicedList_within (sp : Splice) (L : LIST) (n : ℤ) (hL : Within P L) (hn : P n) :
    Within P (splicedList sp L n) := by
  obtain ⟨hh,ht,hc⟩ := hL
  cases sp with
  | atEnd => simp only [splicedList,Within]; split_ifs <;> simp [hh,hn]
  | atFront => simp only [splicedList,Within]; split_ifs <;> simp [ht,hn]
  | beforeCurr => simp only [splicedList,Within]; split_ifs <;> simp [hh,ht,hn]
  | afterCurr => exact ⟨hh,ht,hc⟩

theorem newNode_within (sp : Splice) (L : LIST) (c : Node α) (n : ℤ) (x : α)
    (hz : P (-1)) (hL : Within P L) (hn : P n) (hp : sp = .beforeCurr → P c.prev)
    (hx : sp = .afterCurr → P c.next) :
    P (newNode sp L c n x).next ∧ P (newNode sp L c n x).prev := by
  obtain ⟨hh,ht,hc⟩ := hL
  cases sp with
  | atEnd => simp only [newNode]; split_ifs <;> simp [hn,hz,hc]
  | atFront => simp only [newNode]; split_ifs <;> simp [hn,hz,hh]
  | beforeCurr => exact ⟨hc,hp rfl⟩
  | afterCurr => exact ⟨hx rfl,hc⟩

theorem movedList_within (m : Mover) (L : LIST) (c : Node α) (hz : P (-1)) (hL : Within P L)
    (hx : L.after ≠ 1 → m = .next → P c.next) (hp : L.before ≠ 1 → m = .prev → P c.prev) :
    Within P (movedList m L c) := by
  obtain ⟨hh,ht,hc⟩ := hL
  cases m with
  | first => simp only [movedList,Within]; split_ifs <;> simp [hh,ht,hc]
  | last => simp only [movedList,Within]; split_ifs <;> simp [hh,ht,hc]
  | next =>
    simp only [movedList,Within]
    split_ifs with h1 h2
    · exact ⟨hh,ht,hc⟩
    · exact ⟨hh,ht,hz⟩
    · exact ⟨hh,ht,hx h1 rfl⟩
  | prev =>
    simp only [movedList,Within]
    split_ifs with h1 h2
    · exact ⟨hh,ht,hc⟩
    · exact ⟨hh,ht,hz⟩
    · exact ⟨hh,ht,hp h1 rfl⟩

end Confinement

theorem splice_inner (a : Adder) (L : LIST)
    (h : splice a L = .beforeCurr ∨ splice a L = .afterCurr) :
    L.count ≠ 0 ∧ L.before ≠ 1 ∧ L.after ≠ 1 := by
  cases a with
  | append => simp [splice] at h
  | prepend => simp [splice] at h
  | insert => simp only [splice] at h; split_ifs at h <;> simp_all
  | add => simp only [splice] at h; split_ifs at h <;> simp_all

theorem splicedNodes_link (sp : Splice) (L : LIST) (nodes : ℤ → Node α) (n : ℤ) (x : α) (i : ℤ)
    (hi : i ≠ n) : (splicedNodes sp L nodes n x i).link = (nodes i).link := by
  simp only [splicedNodes,if_neg hi]
  split_ifs <;> rfl

/-- An index the pools may store: the sentinel or a node handed out. -/
def Ref (s : Pool α) (i : ℤ) : Prop := i = -1 ∨ i ∈ s.returned

/-- Nonempty lists have ends, and the cursor is -1 only off one end. -/
structure Record (L : LIST) : Prop where
  count_nonneg : 0 ≤ L.count
  empty : L.count = 0 → L.head = -1 ∧ L.tail = -1
  ends : L.count ≠ 0 → L.head ≠ -1 ∧ L.tail ≠ -1
  off : L.curr = -1 → L.before = 1 ∨ L.after = 1
  one_flag : ¬ (L.before = 1 ∧ L.after = 1)

theorem splicedList_record (a : Adder) (L : LIST) (n : ℤ) (hL : Record L) (hn : n ≠ -1) :
    Record (splicedList (splice a L) L n) := by
  obtain ⟨h0,hz,he,ho,h1⟩ := hL
  cases hs : splice a L with
  | atEnd =>
    constructor <;> simp only [splicedList]
    · omega
    · intro h
      omega
    · intro _
      split_ifs with hc
      · exact ⟨hn,hn⟩
      · exact ⟨(he hc).1,hn⟩
    · intro h
      exact absurd h hn
    · omega
  | atFront =>
    constructor <;> simp only [splicedList]
    · omega
    · intro h
      omega
    · intro _
      split_ifs with hc
      · exact ⟨hn,hn⟩
      · exact ⟨hn,(he hc).2⟩
    · intro h
      exact absurd h hn
    · split_ifs <;> omega
  | beforeCurr =>
    obtain ⟨hc,hb,ha⟩ := splice_inner a L (Or.inl hs)
    constructor <;> simp only [splicedList]
    · omega
    · intro h
      omega
    · intro _
      split_ifs
      · exact ⟨hn,(he hc).2⟩
      · exact he hc
    · intro h
      exact absurd h hn
    · exact h1
  | afterCurr =>
    obtain ⟨hc,hb,ha⟩ := splice_inner a L (Or.inr hs)
    exact ⟨by simp only [splicedList]; omega,fun h => by simp only [splicedList] at h; omega,
      fun _ => he hc,ho,h1⟩

theorem movedList_record (m : Mover) (L : LIST) (c : Node α) (hL : Record L) :
    Record (movedList m L c) := by
  obtain ⟨h0,hz,he,ho,h1⟩ := hL
  cases m with
  | first =>
    by_cases hc : L.count = 0
    · simpa [movedList,hc] using Record.mk h0 hz he ho h1
    · have hn := he hc
      simp only [movedList,if_neg hc]
      exact ⟨h0,hz,he,fun h => absurd h hn.1,by simp⟩
  | last =>
    by_cases hc : L.count = 0
    · simpa [movedList,hc] using Record.mk h0 hz he ho h1
    · have hn := he hc
      simp only [movedList,if_neg hc]
      exact ⟨h0,hz,he,fun h => absurd h hn.2,by simp⟩
  | next =>
    simp only [movedList]
    split_ifs with ha hx
    · exact ⟨h0,hz,he,ho,h1⟩
    · exact ⟨h0,hz,he,fun _ => Or.inr rfl,by simp⟩
    · exact ⟨h0,hz,he,fun h => absurd h hx,h1⟩
  | prev =>
    simp only [movedList]
    split_ifs with ha hx
    · exact ⟨h0,hz,he,ho,h1⟩
    · exact ⟨h0,hz,he,fun _ => Or.inl rfl,by simp⟩
    · exact ⟨h0,hz,he,fun h => absurd h hx,h1⟩

theorem emptied_record (L : LIST) : Record (emptied L) :=
  ⟨by simp [emptied],by simp [emptied],by simp [emptied],by simp [emptied],by simp [emptied]⟩

structure Sound (cap : Capacity) (s : Pool α) : Prop where
  initialized : s.initialized = 1
  free : ∃ xs, Walk (fun i => (s.nodes i).link) (-1) s.freeNodeHead xs (-1) ∧ xs.Nodup ∧
    ∀ i, i ∈ xs ↔ NodeIndex cap i ∧ i ∉ s.returned
  returned_nodup : s.returned.Nodup
  returned_index : ∀ i ∈ s.returned, NodeIndex cap i
  node_refs : ∀ i ∈ s.returned, Ref s (s.nodes i).next ∧ Ref s (s.nodes i).prev
  list_refs : ∀ l, ListIndex cap l → Within (Ref s) (s.lists l)
  records : ∀ l, ListIndex cap l → Record (s.lists l)

namespace Sound

variable {cap : Capacity} {s : Pool α}

theorem ref_index (hs : Sound cap s) {i : ℤ} (hr : Ref s i) (hi : i ≠ -1) : NodeIndex cap i := by
  rcases hr with h | h
  · exact absurd h hi
  · exact hs.returned_index i h

theorem fresh (hs : Sound cap s) (hf : s.freeNodeHead ≠ -1) :
    NodeIndex cap s.freeNodeHead ∧ s.freeNodeHead ∉ s.returned := by
  obtain ⟨xs,hw,_,hm⟩ := hs.free
  cases xs with
  | nil => exact absurd hw hf
  | cons x xs =>
    rw [hw.1]
    exact (hm x).mp (by simp)

theorem ref_old (hs : Sound cap s) (hf : s.freeNodeHead ≠ -1) {i : ℤ} (hr : Ref s i)
    (hi : i ≠ -1) : Old cap s i := by
  have hn := (hs.fresh hf).2
  rcases hr with h | h
  · exact absurd h hi
  · exact ⟨hs.returned_index i h,fun he => hn (he ▸ h)⟩

theorem curr_returned (hs : Sound cap s) {l : ℤ} (hl : ListIndex cap l)
    (hb : (s.lists l).before ≠ 1) (ha : (s.lists l).after ≠ 1) :
    (s.lists l).curr ∈ s.returned := by
  rcases (hs.list_refs l hl).2.2 with h | h
  · rcases (hs.records l hl).off h with h' | h'
    · exact absurd h' hb
    · exact absurd h' ha
  · exact h

theorem ready (hs : Sound cap s) (hf : s.freeNodeHead ≠ -1) {l : ℤ} (hl : ListIndex cap l)
    (a : Adder) : Ready cap s l (splice a (s.lists l)) := by
  obtain ⟨hh,ht,hc⟩ := hs.list_refs l hl
  have he := (hs.records l hl).ends
  have hinner (h : splice a (s.lists l) = .beforeCurr ∨ splice a (s.lists l) = .afterCurr) :
      (s.lists l).curr ∈ s.returned := by
    obtain ⟨_,hb,ha⟩ := splice_inner a _ h
    exact hs.curr_returned hl hb ha
  have hold {i : ℤ} (h : i ∈ s.returned) : Old cap s i :=
    hs.ref_old hf (Or.inr h) (index_ne_sentinel (hs.returned_index i h))
  cases hsp : splice a (s.lists l) with
  | atEnd => exact fun h0 => hs.ref_old hf ht (he h0).2
  | atFront => exact fun h0 => hs.ref_old hf hh (he h0).1
  | beforeCurr =>
    have hr := hinner (Or.inl hsp)
    exact ⟨hold hr,fun h => hs.ref_old hf (hs.node_refs _ hr).2 h⟩
  | afterCurr =>
    have hr := hinner (Or.inr hsp)
    exact ⟨hold hr,fun h => hs.ref_old hf (hs.node_refs _ hr).1 h⟩

/-- An insertion either finds the pool exhausted and changes nothing, or it
performs the selected splice with a fresh node. -/
theorem runAdder_cases (hs : Sound cap s) {l : ℤ} (hl : ListIndex cap l) (a : Adder) (x : α) :
    (s.freeNodeHead = -1 ∧ runAdder cap a s (some l) (some x) = .ok (s,-1)) ∨
    (s.freeNodeHead ≠ -1 ∧ runAdder cap a s (some l) (some x) =
      .ok (spliced (splice a (s.lists l)) s l x,0)) := by
  by_cases hf : s.freeNodeHead = -1
  · exact Or.inl ⟨hf,runAdder_full cap a s l x hf⟩
  · exact Or.inr ⟨hf,runAdder_ok cap a s l x (hs.fresh hf).1 (hs.ready hf hl a)⟩

theorem spliced_ref (sp : Splice) (l : ℤ) (x : α) {i : ℤ} (h : Ref s i) :
    Ref (spliced sp s l x) i := by
  rcases h with h | h
  · exact Or.inl h
  · exact Or.inr (List.mem_append_left _ h)

theorem spliced_new (sp : Splice) (l : ℤ) (x : α) :
    Ref (spliced sp s l x) s.freeNodeHead :=
  Or.inr (by simp [spliced])

theorem spliced_free (hs : Sound cap s) (hf : s.freeNodeHead ≠ -1) (sp : Splice) (l : ℤ) (x : α) :
    ∃ xs, Walk (fun i => ((spliced sp s l x).nodes i).link) (-1)
        (spliced sp s l x).freeNodeHead xs (-1) ∧ xs.Nodup ∧
      ∀ i, i ∈ xs ↔ NodeIndex cap i ∧ i ∉ (spliced sp s l x).returned := by
  obtain ⟨xs,hw,hn,hm⟩ := hs.free
  cases xs with
  | nil => exact absurd hw hf
  | cons y ys =>
    obtain ⟨hy,_,hw⟩ := hw
    obtain ⟨hyn,hys⟩ := List.nodup_cons.mp hn
    subst hy
    refine ⟨ys,walk_congr ?_ hw,hys,?_⟩
    · intro i hi
      exact splicedNodes_link _ _ _ _ _ _ (fun h => hyn (h ▸ hi))
    · intro i
      have hi := hm i
      simp only [List.mem_cons] at hi
      simp only [spliced,List.mem_append,List.mem_singleton,not_or]
      constructor
      · intro h
        have h' := hi.mp (Or.inr h)
        exact ⟨h'.1,h'.2,fun e => hyn (e ▸ h)⟩
      · rintro ⟨h1,h2,h3⟩
        exact (hi.mpr ⟨h1,h2⟩).resolve_left h3

theorem spliced_sound (hs : Sound cap s) (hf : s.freeNodeHead ≠ -1) {l : ℤ}
    (hl : ListIndex cap l) (a : Adder) (x : α) :
    Sound cap (spliced (splice a (s.lists l)) s l x) := by
  obtain ⟨hi,hnew⟩ := hs.fresh hf
  have hw : Within (Ref (spliced (splice a (s.lists l)) s l x)) (s.lists l) := by
    obtain ⟨hh,ht,hc⟩ := hs.list_refs l hl
    exact ⟨spliced_ref _ _ _ hh,spliced_ref _ _ _ ht,spliced_ref _ _ _ hc⟩
  have hinner (h : splice a (s.lists l) = .beforeCurr ∨ splice a (s.lists l) = .afterCurr) :
      (s.lists l).curr ∈ s.returned := by
    obtain ⟨_,hb,ha⟩ := splice_inner a _ h
    exact hs.curr_returned hl hb ha
  constructor
  · exact hs.initialized
  · exact hs.spliced_free hf _ l x
  · simp only [spliced]
    exact List.nodup_append.mpr ⟨hs.returned_nodup,by simp,
      fun i hi' j hj => by rw [List.mem_singleton.mp hj]; exact fun e => hnew (e ▸ hi')⟩
  · intro i hi'
    rcases List.mem_append.mp hi' with h | h
    · exact hs.returned_index i h
    · rw [List.mem_singleton.mp h]
      exact hi
  · intro i hi'
    by_cases hin : i = s.freeNodeHead
    · subst hin
      simp only [spliced,splicedNodes_new]
      exact newNode_within _ _ _ _ _ (Or.inl rfl) hw (spliced_new _ _ _)
        (fun h => spliced_ref _ _ _ (hs.node_refs _ (hinner (Or.inl h))).2)
        (fun h => spliced_ref _ _ _ (hs.node_refs _ (hinner (Or.inr h))).1)
    · have hold : i ∈ s.returned := by
        rcases List.mem_append.mp hi' with h | h
        · exact h
        · exact absurd (List.mem_singleton.mp h) hin
      obtain ⟨hx,hp⟩ := hs.node_refs i hold
      have hz := index_ne_sentinel (hs.returned_index i hold)
      have hx' := spliced_ref (splice a (s.lists l)) l x hx
      have hp' := spliced_ref (splice a (s.lists l)) l x hp
      have hn' := spliced_new (s := s) (splice a (s.lists l)) l x
      show Ref _ (splicedNodes _ _ _ _ _ i).next ∧ Ref _ (splicedNodes _ _ _ _ _ i).prev
      rw [splicedNodes_old _ _ _ _ _ _ hin hz]
      constructor <;> dsimp only <;> split_ifs <;> assumption
  · intro k hk
    by_cases hkl : k = l
    · subst hkl
      simp only [spliced,Function.update_self]
      exact splicedList_within _ _ _ hw (spliced_new _ _ _)
    · obtain ⟨hh,ht,hc⟩ := hs.list_refs k hk
      simp only [spliced,Function.update_of_ne hkl]
      exact ⟨spliced_ref _ _ _ hh,spliced_ref _ _ _ ht,spliced_ref _ _ _ hc⟩
  · intro k hk
    by_cases hkl : k = l
    · subst hkl
      simp only [spliced,Function.update_self]
      exact splicedList_record a _ _ (hs.records k hk) (index_ne_sentinel hi)
    · simp only [spliced,Function.update_of_ne hkl]
      exact hs.records k hk

/-- A cursor move follows array indices unless it starts from -1 in a
direction that is not flagged. -/
def Steppable (s : Pool α) (l : ℤ) : Mover → Prop
  | .next => (s.lists l).after = 1 ∨ (s.lists l).curr ≠ -1
  | .prev => (s.lists l).before = 1 ∨ (s.lists l).curr ≠ -1
  | _ => True

theorem movable (hs : Sound cap s) {l : ℤ} (hl : ListIndex cap l) (m : Mover)
    (hm : Steppable s l m) : Movable cap s l m := by
  obtain ⟨hh,ht,hc⟩ := hs.list_refs l hl
  have he := (hs.records l hl).ends
  cases m with
  | first => exact fun h0 => hs.ref_index hh (he h0).1
  | last => exact fun h0 => hs.ref_index ht (he h0).2
  | next =>
    intro ha
    have hc' : (s.lists l).curr ≠ -1 := hm.resolve_left ha
    have hr := hc.resolve_left hc'
    exact ⟨hs.returned_index _ hr,fun h => hs.ref_index (hs.node_refs _ hr).1 h⟩
  | prev =>
    intro ha
    have hc' : (s.lists l).curr ≠ -1 := hm.resolve_left ha
    have hr := hc.resolve_left hc'
    exact ⟨hs.returned_index _ hr,fun h => hs.ref_index (hs.node_refs _ hr).2 h⟩

theorem runMover_cases (hs : Sound cap s) {l : ℤ} (hl : ListIndex cap l) (m : Mover) :
    (Steppable s l m ∧ runMover cap m s (some l) = .ok (moved m s l,movedItem m s l)) ∨
    (¬ Steppable s l m ∧ runMover cap m s (some l) = .error (.node (-1))) := by
  by_cases hm : Steppable s l m
  · exact Or.inl ⟨hm,runMover_ok cap m s l (hs.movable hl m hm)⟩
  · right
    cases m with
    | first => exact absurd trivial hm
    | last => exact absurd trivial hm
    | next =>
      simp only [Steppable,not_or,not_not] at hm
      exact ⟨by simp [Steppable,hm],runMover_fault cap _ s l (Or.inl ⟨rfl,hm.1⟩) hm.2⟩
    | prev =>
      simp only [Steppable,not_or,not_not] at hm
      exact ⟨by simp [Steppable,hm],runMover_fault cap _ s l (Or.inr ⟨rfl,hm.1⟩) hm.2⟩

theorem with_lists (hs : Sound cap s) (lists : ℤ → LIST)
    (hr : ∀ l, ListIndex cap l → Within (Ref s) (lists l))
    (hc : ∀ l, ListIndex cap l → Record (lists l)) : Sound cap { s with lists := lists } :=
  ⟨hs.initialized,hs.free,hs.returned_nodup,hs.returned_index,hs.node_refs,hr,hc⟩

theorem moved_sound (hs : Sound cap s) {l : ℤ} (hl : ListIndex cap l) (m : Mover)
    (hm : Steppable s l m) : Sound cap (moved m s l) := by
  apply hs.with_lists
  · intro k hk
    by_cases hkl : k = l
    · subst hkl
      rw [Function.update_self]
      have hc := (hs.list_refs k hk).2.2
      apply movedList_within m _ _ (Or.inl rfl) (hs.list_refs k hk)
      · intro ha he
        subst he
        exact (hs.node_refs _ (hc.resolve_left (hm.resolve_left ha))).1
      · intro hb he
        subst he
        exact (hs.node_refs _ (hc.resolve_left (hm.resolve_left hb))).2
    · rw [Function.update_of_ne hkl]
      exact hs.list_refs k hk
  · intro k hk
    by_cases hkl : k = l
    · subst hkl
      rw [Function.update_self]
      exact movedList_record m _ _ (hs.records k hk)
    · rw [Function.update_of_ne hkl]
      exact hs.records k hk

theorem curr_ok (hs : Sound cap s) {l : ℤ} (hl : ListIndex cap l) :
    listCurr cap s (some l) =
      .ok (if (s.lists l).curr = -1 then none else (s.nodes (s.lists l).curr).item) :=
  listCurr_ok cap s l (hs.ref_index (hs.list_refs l hl).2.2)

/-- Concatenation needs a tail to link from whenever there is something to link. -/
def Joinable (s : Pool α) (l1 l2 : ℤ) : Prop :=
  (s.lists l2).count = 0 ∨ (s.lists l1).count ≠ 0

theorem listConcat_cases (hs : Sound cap s) {l1 l2 : ℤ} (h1 : ListIndex cap l1)
    (h2 : ListIndex cap l2) :
    ((s.lists l2).count = 0 ∧ listConcat cap s (some l1) (some l2) = .ok s) ∨
    ((s.lists l2).count ≠ 0 ∧ (s.lists l1).count ≠ 0 ∧
      listConcat cap s (some l1) (some l2) = .ok (joined s l1 l2)) ∨
    (¬ Joinable s l1 l2 ∧ listConcat cap s (some l1) (some l2) = .error (.node (-1))) := by
  by_cases hc : (s.lists l2).count = 0
  · exact Or.inl ⟨hc,listConcat_empty cap s l1 l2 hc⟩
  · by_cases hc1 : (s.lists l1).count = 0
    · have ht := ((hs.records l1 h1).empty hc1).2
      exact Or.inr (Or.inr ⟨by simp [Joinable,hc,hc1],listConcat_fault cap s l1 l2 hc ht⟩)
    · have ht := ((hs.records l1 h1).ends hc1).2
      have hh := ((hs.records l2 h2).ends hc).1
      exact Or.inr (Or.inl ⟨hc,hc1,listConcat_ok cap s l1 l2 hc
        (hs.ref_index (hs.list_refs l1 h1).2.1 ht)
        (hs.ref_index (hs.list_refs l2 h2).1 hh)⟩)

theorem joined_sound (hs : Sound cap s) {l1 l2 : ℤ} (h1 : ListIndex cap l1)
    (h2 : ListIndex cap l2) (hc1 : (s.lists l1).count ≠ 0) (hc2 : (s.lists l2).count ≠ 0) :
    Sound cap (joined s l1 l2) := by
  obtain ⟨hh1,ht1,hr1⟩ := hs.list_refs l1 h1
  obtain ⟨hh2,ht2,_⟩ := hs.list_refs l2 h2
  have hrec := hs.records l1 h1
  have hn1 := hrec.count_nonneg
  have hn2 := (hs.records l2 h2).count_nonneg
  have he2 := (hs.records l2 h2).ends hc2
  constructor
  · exact hs.initialized
  · exact hs.free
  · exact hs.returned_nodup
  · exact hs.returned_index
  · intro i hi
    obtain ⟨hx,hp⟩ := hs.node_refs i hi
    constructor <;> simp only [joined] <;> split_ifs <;> assumption
  · intro k hk
    by_cases hk2 : k = l2
    · subst hk2
      simp only [joined,Function.update_self]
      exact ⟨Or.inl rfl,Or.inl rfl,Or.inl rfl⟩
    · by_cases hk1 : k = l1
      · subst hk1
        simp only [joined,Function.update_of_ne hk2,Function.update_self]
        exact ⟨hh1,ht2,hr1⟩
      · simp only [joined,Function.update_of_ne hk2,Function.update_of_ne hk1]
        exact hs.list_refs k hk
  · intro k hk
    by_cases hk2 : k = l2
    · subst hk2
      simp only [joined,Function.update_self]
      exact emptied_record _
    · by_cases hk1 : k = l1
      · subst hk1
        simp only [joined,Function.update_of_ne hk2,Function.update_self]
        exact ⟨by dsimp only; omega,fun h => by dsimp only at h; omega,
          fun _ => ⟨(hrec.ends hc1).1,he2.2⟩,hrec.off,hrec.one_flag⟩
      · simp only [joined,Function.update_of_ne hk2,Function.update_of_ne hk1]
        exact hs.records k hk

end Sound

theorem chained_walk (n : ℕ) (hn : 0 < n) (f : ℤ → ℤ)
    (hf : ∀ i : ℤ, 0 ≤ i → i < n → f i = chained n i) :
    Walk f (-1) 0 (ascending 0 n) (-1) := by
  obtain ⟨k,rfl⟩ : ∃ k, n = k+1 := ⟨n-1,by omega⟩
  apply ascending_walk f 0 k (le_refl 0)
  · intro i h1 h2
    rw [hf i h1 (by push_cast; omega),chained,if_neg (by push_cast; omega)]
  · rw [hf _ (by omega) (by push_cast; omega),chained,if_pos (by push_cast; omega)]

theorem laidOut_sound (cap : Capacity) : Sound cap (laidOut cap (zeroed : Pool α)) := by
  constructor
  · rfl
  · refine ⟨ascending 0 cap.maxNodes,?_,ascending_nodup 0 _,?_⟩
    · apply chained_walk _ cap.nodes_pos
      intro i h1 h2
      have hi : NodeIndex cap i := ⟨h1,h2⟩
      simp [laidOut,hi]
    · intro i
      rw [mem_ascending]
      simp [laidOut,zeroed,NodeIndex]
  · exact List.nodup_nil
  · intro i hi
    simp [laidOut,zeroed] at hi
  · intro i hi
    simp [laidOut,zeroed] at hi
  · intro l hl
    simp only [laidOut,if_pos hl]
    exact ⟨Or.inl rfl,Or.inl rfl,Or.inl rfl⟩
  · intro l hl
    simp only [laidOut,if_pos hl]
    exact emptied_record ⟨0,0,0,0,0,0,_⟩

end ListlibSyscalls.PoolInvariant
