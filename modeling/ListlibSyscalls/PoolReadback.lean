import ListlibSyscalls.PoolNotes
import ListlibSyscalls.PoolTraversal

/-!
# Reading back what was appended

A caller that only appends and looks notes what it appended to each list. The
first append leaves a node that links to itself and the later ones take their
backward link from the cursor, so only the forward chain is described: it runs
through the nodes in the order of the note up to the tail, and from the second
append on the tail links to nothing.
-/

set_option autoImplicit false

namespace ListlibSyscalls.PoolReadback
open StepRuns LinkedChain PoolMachine PoolHistory PoolSplice PoolMoves PoolInvariant PoolReached
open PoolOwnership PoolNotes PoolContents PoolTraversal

variable {α : Type}

def appended : Writing α (ℤ → List α)
  | .adder .append l x, .code 0, log => Function.update log l (log l++[x])
  | _, _, log => log

def Appending : Call α → Prop
  | .adder a _ _ => a = .append
  | .mover m _ => m = .first ∨ m = .last
  | .concat _ _ => False
  | _ => True

instance (c : Call α) : Decidable (Appending c) :=
  match c with
  | .adder a _ _ => inferInstanceAs (Decidable (a = .append))
  | .mover m _ => inferInstanceAs (Decidable (m = .first ∨ m = .last))
  | .concat _ _ => inferInstanceAs (Decidable False)
  | .create => inferInstanceAs (Decidable True)
  | .curr _ => inferInstanceAs (Decidable True)
  | .count _ => inferInstanceAs (Decidable True)

def AppendsOnly (n : Noted α (ℤ → List α)) (c : Call α) : Prop :=
  OnCreated n.history c ∧ Appending c

instance (n : Noted α (ℤ → List α)) (c : Call α) : Decidable (AppendsOnly n c) :=
  inferInstanceAs (Decidable (_ ∧ _))

abbrev fresh : Noted α (ℤ → List α) := ⟨History.start,fun _ => []⟩

/-- A list of two or more appended items returns them in order and then NULL. -/
def ReadsBack (cap : Capacity) (n : Noted α (ℤ → List α)) : Prop :=
  ∀ l ∈ n.history.created, 2 ≤ (n.note l).length →
    listCount n.history.pool (some l) = (n.note l).length ∧
    ∃ s', sweep cap .forward l (n.note l).length n.history.pool =
      .ok (s',(n.note l).map some++[none])

def SameEnds (L L' : LIST) : Prop := L'.head = L.head ∧ L'.tail = L.tail ∧ L'.count = L.count

/-- The forward chain of a list with appended items `xs`: its nodes are `is`
and then the tail. -/
structure Strung (h : History α) (l : ℤ) (xs : List α) (is : List ℤ) : Prop where
  walk : Walk (fun i => (h.pool.nodes i).next) (-1) (h.pool.lists l).head is (h.pool.lists l).tail
  items : (is++[(h.pool.lists l).tail]).map (fun i => (h.pool.nodes i).item) = xs.map some
  count : (h.pool.lists l).count = xs.length
  nodup : (is++[(h.pool.lists l).tail]).Nodup
  mine : ∀ i ∈ is++[(h.pool.lists l).tail], h.owner i = some l
  last : is ≠ [] → (h.pool.nodes (h.pool.lists l).tail).next = -1

/-- Nothing appended and nothing counted, or a chain of what was appended. -/
def Holds (h : History α) (l : ℤ) (xs : List α) : Prop :=
  (xs = [] ∧ (h.pool.lists l).count = 0) ∨ ∃ is, Strung h l xs is

section Chains

variable {cap : Capacity} {h h' : History α} {l : ℤ} {xs : List α} {is : List ℤ}

theorem Strung.length (hs : Strung h l xs is) : xs.length = is.length+1 := by
  have hl := congrArg List.length hs.items
  simpa using hl.symm

theorem Strung.through (hs : Strung h l xs is) (ht : (h.pool.lists l).tail ≠ -1) :
    Walk (fun i => (h.pool.nodes i).next) (-1) (h.pool.lists l).head (is++[(h.pool.lists l).tail])
      (h.pool.nodes (h.pool.lists l).tail).next := by
  rw [walk_append]
  exact ⟨_,hs.walk,rfl,ht,rfl⟩

theorem Holds.congr (hh : Holds h l xs) (he : SameEnds (h.pool.lists l) (h'.pool.lists l))
    (hn : ∀ i, h.owner i = some l → h'.pool.nodes i = h.pool.nodes i ∧ h'.owner i = some l) :
    Holds h' l xs := by
  obtain ⟨hhead,htail,hcount⟩ := he
  rcases hh with ⟨hx,h0⟩ | ⟨is,hs⟩
  · exact Or.inl ⟨hx,hcount.trans h0⟩
  · have hnode : ∀ i ∈ is++[(h.pool.lists l).tail], h'.pool.nodes i = h.pool.nodes i :=
      fun i hi => (hn i (hs.mine i hi)).1
    refine Or.inr ⟨is,?_,?_,?_,?_,?_,?_⟩
    · rw [hhead,htail]
      apply walk_congr _ hs.walk
      intro i hi
      rw [hnode i (List.mem_append_left _ hi)]
    · rw [htail,← hs.items]
      apply List.map_congr_left
      intro i hi
      rw [hnode i hi]
    · exact hcount.trans hs.count
    · rw [htail]
      exact hs.nodup
    · rw [htail]
      exact fun i hi => (hn i (hs.mine i hi)).2
    · rw [htail,hnode _ (by simp)]
      exact hs.last

abbrev grown (h : History α) (l : ℤ) (x : α) : History α :=
  { h with
    pool := spliced .atEnd h.pool l x
    inserted := h.inserted+1
    owner := Function.update h.owner h.pool.freeNodeHead (some l) }

/-- An append writes a link of the old tail only. -/
theorem grown_old (h0 : (h.pool.lists l).count ≠ 0) (x : α) {i : ℤ}
    (hn : i ≠ h.pool.freeNodeHead) (hz : i ≠ -1) : (grown h l x).pool.nodes i =
      { h.pool.nodes i with
        next := if i = (h.pool.lists l).tail then h.pool.freeNodeHead else (h.pool.nodes i).next } := by
  simp [spliced,splicedNodes_old _ _ _ _ _ i hn hz,predecessor,successor,h0,hz]

theorem grown_first (h0 : (h.pool.lists l).count = 0) (x : α) : Strung (grown h l x) l [x] [] := by
  have hnew := splicedNodes_new .atEnd (h.pool.lists l) h.pool.nodes h.pool.freeNodeHead x
  constructor
  · simp [spliced,splicedList,h0,Walk]
  · simp [spliced,splicedList,hnew,newNode,h0]
  · simp [spliced,splicedList,h0]
  · simp
  · simp [spliced,splicedList]
  · exact fun hne => absurd rfl hne

theorem Strung.append (hs : Strung h l xs is) (hk : Kept cap h) (ho : Owned cap h)
    (hf : h.pool.freeNodeHead ≠ -1) (x : α) :
    Strung (grown h l x) l (xs++[x]) (is++[(h.pool.lists l).tail]) := by
  have h0 : (h.pool.lists l).count ≠ 0 := by
    rw [hs.count,hs.length]
    omega
  have hnew := splicedNodes_new .atEnd (h.pool.lists l) h.pool.nodes h.pool.freeNodeHead x
  have hne : ∀ i ∈ is++[(h.pool.lists l).tail], i ≠ h.pool.freeNodeHead :=
    fun i hi => ho.ne_fresh hk hf (hs.mine i hi)
  have hz : ∀ i ∈ is++[(h.pool.lists l).tail], i ≠ -1 :=
    fun i hi => ho.not_sentinel hk (hs.mine i hi)
  have hold : ∀ i ∈ is++[(h.pool.lists l).tail], _ :=
    fun i hi => grown_old h0 x (hne i hi) (hz i hi)
  have htail : (h.pool.lists l).tail ∈ is++[(h.pool.lists l).tail] := by simp
  have hlast : ((grown h l x).pool.lists l).tail = h.pool.freeNodeHead := by
    simp [spliced,splicedList]
  constructor
  · have hhead : ((grown h l x).pool.lists l).head = (h.pool.lists l).head := by
      simp [spliced,splicedList,h0]
    have hfinal : final (-1) (is++[(h.pool.lists l).tail]) = (h.pool.lists l).tail := by
      rw [final_append]
      rfl
    rw [hlast,hhead]
    apply walk_redirect (hs.through (hz _ htail)) hs.nodup (by simp)
    · rw [hfinal]
      intro i hi hit
      rw [hold i hi]
      exact if_neg hit
    · rw [hfinal,hold _ htail]
      exact if_pos rfl
  · have hitems : (is++[(h.pool.lists l).tail]).map (fun i => ((grown h l x).pool.nodes i).item) =
        xs.map some := by
      rw [← hs.items]
      apply List.map_congr_left
      intro i hi
      rw [hold i hi]
    rw [hlast,List.map_append,hitems]
    simp [spliced,hnew,newNode,h0]
  · simp [spliced,splicedList,hs.count]
  · rw [hlast]
    apply List.nodup_append.mpr
    refine ⟨hs.nodup,by simp,?_⟩
    intro i hi j hj e
    exact hne i hi (e.trans (List.mem_singleton.mp hj))
  · rw [hlast]
    intro i hi
    rcases List.mem_append.mp hi with hi | hi
    · exact (Function.update_of_ne (hne i hi) _ _).trans (hs.mine i hi)
    · rw [List.mem_singleton.mp hi]
      exact Function.update_self ..
  · intro _
    rw [hlast]
    simp [spliced,hnew,newNode,h0]

theorem Holds.append (hh : Holds h l xs) (hk : Kept cap h) (ho : Owned cap h)
    (hf : h.pool.freeNodeHead ≠ -1) (x : α) : Holds (grown h l x) l (xs++[x]) := by
  rcases hh with ⟨rfl,h0⟩ | ⟨is,hs⟩
  · exact Or.inr ⟨[],grown_first h0 x⟩
  · exact Or.inr ⟨_,hs.append hk ho hf x⟩

theorem Holds.other (hh : Holds h l xs) (hk : Kept cap h) (ho : Owned cap h) {c : Call α}
    (hc : OnCreated h c) (ha : Appending c) (he : Effect h c h') (hg : ¬ Given c l)
    (hcr : c = .create → l ∈ h.created) : Holds h' l xs := by
  have hl := effect_leaves_lists hk he l hg hcr
  have howner : ∀ i, h.owner i = some l → h'.owner i = some l := by
    intro i hi
    cases he with
    | spliced a k x hf => exact (Function.update_of_ne (ho.ne_fresh hk hf hi) _ _).trans hi
    | joined => exact ha.elim
    | nothing => exact ha.elim
    | _ => exact hi
  apply hh.congr ⟨by rw [hl],by rw [hl],by rw [hl]⟩
  intro i hi
  exact ⟨effect_leaves_nodes hk ho hc he i l (howner i hi) hg,howner i hi⟩

end Chains

structure Filed (cap : Capacity) (n : Noted α (ℤ → List α)) : Prop where
  owned : Owned cap n.history
  holds : ∀ l, ListIndex cap l → Holds n.history l (n.note l)

section Runs

variable {cap : Capacity} {n n' : Noted α (ℤ → List α)} {c : Call α} {r : Reply α} {h' : History α}

theorem update_sameEnds (lists : ℤ → LIST) (k : ℤ) (L : LIST) (he : SameEnds (lists k) L) (l : ℤ) :
    SameEnds (lists l) (Function.update lists k L l) := by
  by_cases e : l = k
  · subst e
    rwa [Function.update_self]
  · rw [Function.update_of_ne e]
    exact ⟨rfl,rfl,rfl⟩

theorem adder_reply {s s' : Pool α} (hs : Sound cap s) {l : ℤ} (hl : ListIndex cap l) {a : Adder}
    {x : α} (he : exec cap s (.adder a l x) = .ok (s',r)) :
    r = .code (if s.freeNodeHead = -1 then -1 else 0) := by
  rcases hs.runAdder_cases hl a x with ⟨hf,hx⟩ | ⟨hf,hx⟩
  · simp only [exec,hx,ok_bind] at he
    cases he
    rw [if_pos hf]
  · simp only [exec,hx,ok_bind] at he
    cases he
    rw [if_neg hf]

theorem appending_apart (ha : Appending c) : Apart c := by
  cases c with
  | concat => exact ha.elim
  | _ => trivial

theorem holds_step (hk : Kept cap n.history) (hi : Filed cap n) (hc : OnCreated n.history c)
    (ha : Appending c) (hr : Replied cap n.history c r h') {l : ℤ} (hl : ListIndex cap l) :
    Holds h' l (appended c r n.note l) := by
  have hh := hi.holds l hl
  obtain ⟨s,hx,_⟩ := hr.reply
  cases hr.effect with
  | opened hf =>
    apply hh.congr
    · apply update_sameEnds
      exact ⟨rfl,rfl,rfl⟩
    · exact fun i ho => ⟨rfl,ho⟩
  | noSlot => exact hh
  | spliced a k x hf =>
    cases ha
    have hrep := adder_reply hk.sound (hk.created_index k hc) hx
    rw [if_neg hf] at hrep
    subst hrep
    by_cases e : l = k
    · subst e
      have hnote : appended (.adder .append l x) (.code 0) n.note l = n.note l++[x] :=
        Function.update_self ..
      rw [hnote]
      exact hh.append hk hi.owned hf x
    · have hnote : appended (.adder .append k x) (.code 0) n.note l = n.note l :=
        Function.update_of_ne e _ _
      rw [hnote]
      exact hh.other hk hi.owned hc rfl hr.effect e (fun hcr => by cases hcr)
  | exhausted a k x hf =>
    cases ha
    have hrep := adder_reply hk.sound (hk.created_index k hc) hx
    rw [if_pos hf] at hrep
    subst hrep
    exact hh
  | moved m k hm =>
    apply hh.congr
    · apply update_sameEnds
      exact movedList_ends m _ _
    · exact fun i ho => ⟨rfl,ho⟩
  | looked c hl =>
    rcases hl with ⟨k,rfl⟩ | ⟨k,rfl⟩
    · exact hh
    · exact hh
  | joined => exact ha.elim
  | nothing => exact ha.elim

theorem filed_step (hk : Kept cap n.history) (hi : Filed cap n) (hc : OnCreated n.history c)
    (ha : Appending c) (hr : Replied cap n.history c r h') :
    Filed cap ⟨h',appended c r n.note⟩ :=
  ⟨effect_owned hk hi.owned hc (appending_apart ha) hr.effect,
    fun _ hl => holds_step hk hi hc ha hr hl⟩

theorem Strung.readsBack {h : History α} {l : ℤ} {xs : List α} {is : List ℤ} (hs : Strung h l xs is)
    (hk : Kept cap h) (ho : Owned cap h) (h2 : 2 ≤ xs.length) :
    listCount h.pool (some l) = xs.length ∧
    ∃ s', sweep cap .forward l xs.length h.pool = .ok (s',xs.map some++[none]) := by
  refine ⟨hs.count,?_⟩
  have hlen := hs.length
  have hne : is ≠ [] := by
    rintro rfl
    simp at hlen
    omega
  have hwalk := hs.through (ho.not_sentinel hk (hs.mine _ (by simp)))
  rw [hs.last hne] at hwalk
  have hidx : ∀ i ∈ is++[(h.pool.lists l).tail], NodeIndex cap i := fun i hi =>
    hk.sound.returned_index i ((ho.returned_iff i).mp ⟨l,hs.mine i hi⟩)
  have h0 : (h.pool.lists l).count ≠ 0 := by
    rw [hs.count]
    omega
  obtain ⟨s',hsweep,_⟩ := sweep_walk .forward h0 (by simp) hidx hwalk xs.length
  refine ⟨s',?_⟩
  rw [hsweep,hs.items,List.take_of_length_le (by simp)]
  simp [hlen]

theorem Filed.readsBack (hk : Kept cap n.history) (hi : Filed cap n) : ReadsBack cap n := by
  intro l hl h2
  rcases hi.holds l (hk.created_index l hl) with ⟨hx,_⟩ | ⟨is,hs⟩
  · rw [hx] at h2
    simp at h2
  · exact hs.readsBack hk hi.owned h2

theorem prefilled_filed (cap : Capacity) : Filed cap ⟨(prefilled cap : History α),fun _ => []⟩ := by
  refine ⟨prefilled_owned cap,fun l hl => Or.inl ⟨rfl,?_⟩⟩
  simp [prefilled,laidOut,hl]

theorem reached_filed
    (hr : Reach (Accepts (Noted.step cap appended)) AppendsOnly fresh n) :
    n = fresh ∨ (Kept cap n.history ∧ Filed cap n) := by
  apply noted_invariant (fun _ _ ho => ho.1) (prefilled_filed cap) _ hr
  rintro n c r h' hk hi hc (ho | rfl) hrep
  · exact filed_step hk hi hc ho.2 hrep
  · exact filed_step hk hi hc trivial hrep

theorem reached_readsBack
    (hr : Reach (Accepts (Noted.step cap appended)) AppendsOnly fresh n) : ReadsBack cap n := by
  rcases reached_filed hr with rfl | ⟨hk,hi⟩
  · intro l hl
    cases hl
  · exact hi.readsBack hk

theorem reached_returns
    (hr : Reach (Accepts (Noted.step cap appended)) AppendsOnly fresh n) (hc : AppendsOnly n c) :
    ∃ n', Accepts (Noted.step cap appended) n c n' := by
  apply noted_returns
  rcases reached_filed hr with rfl | ⟨hk,_⟩
  · have hcr := start_offers hc.1
    subst hcr
    have hon : OnCreated (prefilled cap : History α) .create := trivial
    rcases (prefilled_kept cap).step_cases hon with ⟨_,h',he,_⟩ | ⟨hn,_⟩
    · exact ⟨h',(start_step cap).trans he⟩
    · exact absurd trivial hn
  · have hsafe : IndexSafe n.history.pool c := by
      cases c with
      | mover m l =>
        rcases hc.2 with rfl | rfl
        · trivial
        · trivial
      | concat => exact hc.2.elim
      | _ => trivial
    rcases hk.step_cases hc.1 with ⟨_,h',he,_⟩ | ⟨hn,_⟩
    · exact ⟨h',he⟩
    · exact absurd hsafe hn

end Runs

/-- Whatever a caller that only creates, appends and looks has done, no call
faults, and each list of two or more appended items reads back in order. -/
theorem appended_lists_read_back (cap : Capacity) (calls : List (Call α))
    (ho : Each (Accepts (Noted.step cap appended)) AppendsOnly fresh calls) :
    Completes (Accepts (Noted.step cap appended)) fresh calls ∧
    Always (Accepts (Noted.step cap appended)) (ReadsBack cap) fresh calls :=
  ⟨completes_of_reach (fun _ _ => reached_returns) calls _ .start ho,
    always_of_reach (fun _ => reached_readsBack) calls _ .start ho⟩

def fourNodes : Capacity := ⟨4,2,Nat.succ_pos 3,Nat.two_pos⟩

/-- Two lists that take the four nodes of the pool in turn, and one append too many. -/
def inTurn : List (Call ℕ) :=
  [.create,.adder .append 0 10,.create,.adder .append 1 40,.mover .first 0,.adder .append 0 20,
    .curr 1,.adder .append 0 30,.count 0,.mover .last 0,.adder .append 1 50]

theorem appended_lists_read_back_in_turn :
    Each (Accepts (Noted.step fourNodes appended)) AppendsOnly fresh inTurn ∧
    (lastState (Noted.step fourNodes appended) fresh inTurn).note 0 = [10,20,30] ∧
    (lastState (Noted.step fourNodes appended) fresh inTurn).note 1 = [40] ∧
    Always (Accepts (Noted.step fourNodes appended)) (ReadsBack fourNodes) fresh inTurn := by
  have ho : Each (Accepts (Noted.step fourNodes appended)) AppendsOnly fresh inTurn := by
    decide +kernel
  exact ⟨ho,by decide +kernel,by decide +kernel,(appended_lists_read_back fourNodes inTurn ho).2⟩

end ListlibSyscalls.PoolReadback
