import ListlibSyscalls.PoolAccounting

/-!
# When the library refuses a request

A request may pass NULL for a list or an item, and may go to one of the four
functions that are stubs. Such a request changes nothing, so the histories of
requests are those of calls. In each of them an insertion is refused exactly
on a NULL argument or when all nodes have been handed out, and a creation only
when all lists have; whatever is refused changes nothing.
-/

set_option autoImplicit false

namespace ListlibSyscalls.PoolRefusals
open StepRuns LinkedChain PoolMachine PoolHistory PoolSplice PoolMoves PoolInvariant PoolReached
open PoolOwnership PoolAccounting

variable {α : Type}

/-- `ListRemove`, a stub on every list. -/
def listRemove (s : Pool α) (_list : Option ℤ) : Pool α × Option α := (s,none)

def listTrim (s : Pool α) (_list : Option ℤ) : Pool α × Option α := (s,none)

def listFree (s : Pool α) (_list : Option ℤ) : Pool α := s

/-- `ListSearch`, a stub that never finds an item. -/
def listSearch (s : Pool α) (_list : Option ℤ) : Pool α × Option α := (s,none)

inductive Request (α : Type) where
  | create
  | adder (a : Adder) (list : Option ℤ) (item : Option α)
  | mover (m : Mover) (list : Option ℤ)
  | curr (list : Option ℤ)
  | count (list : Option ℤ)
  | concat (list1 list2 : Option ℤ)
  | remove (list : Option ℤ)
  | trim (list : Option ℤ)
  | free (list : Option ℤ)
  | search (list : Option ℤ)

def serve (cap : Capacity) (s : Pool α) : Request α → Except Fault (Pool α × Reply α)
  | .create => do
    let (s,p) ← listCreate cap s
    .ok (s,.list p)
  | .adder a list item => do
    let (s,r) ← runAdder cap a s list item
    .ok (s,.code r)
  | .mover m list => do
    let (s,x) ← runMover cap m s list
    .ok (s,.item x)
  | .curr list => do
    let x ← listCurr cap s list
    .ok (s,.item x)
  | .count list => .ok (s,.count (listCount s list))
  | .concat list1 list2 => do
    let s ← listConcat cap s list1 list2
    .ok (s,.void)
  | .remove list => .ok ((listRemove s list).1,.item (listRemove s list).2)
  | .trim list => .ok ((listTrim s list).1,.item (listTrim s list).2)
  | .free list => .ok (listFree s list,.void)
  | .search list => .ok ((listSearch s list).1,.item (listSearch s list).2)

/-- The call that a request without a NULL makes; a stub makes none. -/
def Request.call : Request α → Option (Call α)
  | .create => some .create
  | .adder a (some l) (some x) => some (.adder a l x)
  | .mover m (some l) => some (.mover m l)
  | .curr (some l) => some (.curr l)
  | .count (some l) => some (.count l)
  | .concat (some l1) (some l2) => some (.concat l1 l2)
  | _ => none

theorem serve_call (cap : Capacity) (s : Pool α) (r : Request α) (c : Call α)
    (h : r.call = some c) : serve cap s r = exec cap s c := by
  cases r with
  | create =>
    cases h
    rfl
  | adder a list item =>
    cases list with
    | none => cases h
    | some l =>
      cases item with
      | none => cases h
      | some x =>
        cases h
        rfl
  | mover m list =>
    cases list with
    | none => cases h
    | some l =>
      cases h
      rfl
  | curr list =>
    cases list with
    | none => cases h
    | some l =>
      cases h
      rfl
  | count list =>
    cases list with
    | none => cases h
    | some l =>
      cases h
      rfl
  | concat list1 list2 =>
    cases list1 with
    | none => cases h
    | some l1 =>
      cases list2 with
      | none => cases h
      | some l2 =>
        cases h
        rfl
  | remove list => cases h
  | trim list => cases h
  | free list => cases h
  | search list => cases h

theorem runAdder_null (cap : Capacity) (a : Adder) (s : Pool α) (list : Option ℤ)
    (item : Option α) (h : list = none ∨ item = none) :
    runAdder cap a s list item = .ok (s,-1) := by
  rcases h with rfl | rfl
  · cases a <;> rfl
  · cases list <;> cases a <;> rfl

theorem serve_null (cap : Capacity) (s : Pool α) (r : Request α) (h : r.call = none) :
    ∃ reply, serve cap s r = .ok (s,reply) := by
  cases r with
  | create => cases h
  | adder a list item =>
    have hn : list = none ∨ item = none := by
      cases list with
      | none => exact Or.inl rfl
      | some l =>
        cases item with
        | none => exact Or.inr rfl
        | some x => cases h
    exact ⟨.code (-1),by simp [serve,runAdder_null cap a s list item hn]⟩
  | mover m list =>
    cases list with
    | none => exact ⟨.item none,by cases m <;> rfl⟩
    | some l => cases h
  | curr list =>
    cases list with
    | none => exact ⟨.item none,rfl⟩
    | some l => cases h
  | count list => exact ⟨.count (listCount s list),rfl⟩
  | concat list1 list2 =>
    refine ⟨.void,?_⟩
    cases list1 with
    | none => rfl
    | some l1 =>
      cases list2 with
      | none => rfl
      | some l2 => cases h
  | remove list => exact ⟨.item none,rfl⟩
  | trim list => exact ⟨.item none,rfl⟩
  | free list => exact ⟨.void,rfl⟩
  | search list => exact ⟨.item none,rfl⟩

def serveStep (cap : Capacity) (h : History α) (r : Request α) :
    Except Fault (History α) := do
  let (s,reply) ← serve cap h.pool r
  match r.call with
  | some c => .ok (h.record c s reply)
  | none => .ok { h with pool := s }

/-- The list pointers of a request come from `ListCreate`. -/
def Sensible (h : History α) (r : Request α) : Prop := ∀ c, r.call = some c → OnCreated h c

instance (h : History α) (r : Request α) : Decidable (Sensible h r) :=
  match hc : r.call with
  | none => isTrue (fun c hr => by rw [hc] at hr; cases hr)
  | some c => decidable_of_iff (OnCreated h c)
      ⟨fun ho k hr => by rw [hc] at hr; cases hr; exact ho,fun ho => ho c hc⟩

abbrev Served (cap : Capacity) (h : History α) : Prop :=
  Reach (Accepts (serveStep cap)) Sensible History.start h

theorem served_reached {cap : Capacity} {h : History α} (hs : Served cap h) : Reached cap h := by
  apply hs.invariant
  · exact .start
  · intro h r h' hr hc hstep
    cases hcall : r.call with
    | none =>
      obtain ⟨reply,he⟩ := serve_null cap h.pool r hcall
      simp only [Accepts,serveStep,he,ok_bind,hcall] at hstep
      cases hstep
      exact hr
    | some c =>
      simp only [Accepts,serveStep,serve_call cap h.pool r c hcall,hcall] at hstep
      exact hr.next (hc c hcall) hstep

def LosesOne (s s' : Pool α) : Prop :=
  ∃ n xs, Walk (fun i => (s.nodes i).link) (-1) s.freeNodeHead (n::xs) (-1) ∧
    Walk (fun i => (s'.nodes i).link) (-1) s'.freeNodeHead xs (-1)

section Refusals

variable {cap : Capacity} {h : History α}

/-- No node is free exactly when as many insertions have succeeded as there are nodes. -/
theorem exhausted_iff (hk : Kept cap h) : h.pool.freeNodeHead = -1 ↔ h.inserted = cap.maxNodes := by
  obtain ⟨xs,hw,hn,hm⟩ := hk.sound.free
  have hl := divided_length hn hk.sound.returned_nodup hk.sound.returned_index hm
  have hi := hk.inserted
  cases xs with
  | nil =>
    have hf : h.pool.freeNodeHead = -1 := hw
    simp only [List.length_nil] at hl
    exact iff_of_true hf (by omega)
  | cons x xs =>
    have hf : h.pool.freeNodeHead ≠ -1 := by
      rw [hw.1]
      exact walk_ne_sentinel hw x (by simp)
    simp only [List.length_cons] at hl
    exact iff_of_false hf (by omega)

theorem spliced_losesOne (hk : Kept cap h) (hf : h.pool.freeNodeHead ≠ -1) (sp : Splice) (l : ℤ)
    (x : α) : LosesOne h.pool (spliced sp h.pool l x) := by
  obtain ⟨xs,hw,hn,hm⟩ := hk.sound.free
  cases xs with
  | nil => exact absurd hw hf
  | cons y ys =>
    refine ⟨y,ys,hw,?_⟩
    obtain ⟨hy,_,hw⟩ := hw
    rw [← hy] at hn hw
    apply walk_congr _ hw
    intro i hi
    apply splicedNodes_link
    exact fun e => (List.nodup_cons.mp hn).1 (e ▸ hi)

def RefusesExactly (cap : Capacity) (h : History α) (a : Adder) (list : Option ℤ)
    (item : Option α) : Prop :=
  ∃ s' r, runAdder cap a h.pool list item = .ok (s',r) ∧ (r = -1 ∨ r = 0) ∧
    (r = -1 ↔ list = none ∨ item = none ∨ h.inserted = cap.maxNodes) ∧
    (r = -1 → s' = h.pool) ∧
    (r = 0 → ∀ l, list = some l →
      (s'.lists l).count = (h.pool.lists l).count+1 ∧ LosesOne h.pool s')

theorem refusesExactly_null (a : Adder) (list : Option ℤ) (item : Option α)
    (hn : list = none ∨ item = none) : RefusesExactly cap h a list item := by
  refine ⟨h.pool,-1,runAdder_null cap a h.pool list item hn,Or.inl rfl,?_,fun _ => rfl,?_⟩
  · rw [← or_assoc]
    exact iff_of_true rfl (Or.inl hn)
  · intro hr
    cases hr

theorem refusesExactly_kept (hk : Kept cap h) (a : Adder) {l : ℤ} (hl : l ∈ h.created) (x : α) :
    RefusesExactly cap h a (some l) (some x) := by
  have hex := exhausted_iff hk
  rcases hk.sound.runAdder_cases (hk.created_index l hl) a x with ⟨hf,he⟩ | ⟨hf,he⟩
  · refine ⟨h.pool,-1,he,Or.inl rfl,?_,fun _ => rfl,?_⟩
    · exact iff_of_true rfl (Or.inr (Or.inr (hex.mp hf)))
    · intro hr
      cases hr
  · refine ⟨_,0,he,Or.inr rfl,?_,?_,?_⟩
    · apply iff_of_false
      · decide
      · rintro (hz | hz | hz)
        · cases hz
        · cases hz
        · exact hf (hex.mpr hz)
    · intro hr
      cases hr
    · intro _ k hkl
      cases hkl
      refine ⟨?_,spliced_losesOne hk hf _ l x⟩
      simp [PoolSplice.spliced,splicedList_count]

/-- A creation fails only when every list is created, and then changes nothing. -/
def CreatesWhileFree (cap : Capacity) (h : History α) : Prop :=
  ∃ s' p, listCreate cap h.pool = .ok (s',p) ∧
    (p = none → (∀ l, ListIndex cap l → l ∈ h.created) ∧ s' = h.pool)

theorem createsWhileFree_kept (hk : Kept cap h) : CreatesWhileFree cap h := by
  have hp : prepared cap h.pool = h.pool := by simp [prepared,hk.sound.initialized]
  by_cases hf : h.pool.freeListHead = -1
  · have he := listCreate_full cap h.pool (by rw [hp]; exact hf)
    rw [hp] at he
    refine ⟨_,none,he,fun _ => ⟨?_,rfl⟩⟩
    obtain ⟨xs,hw,_,hm⟩ := hk.slots
    intro l hl
    by_contra hc
    have hx := (hm l).mpr ⟨hl,hc⟩
    cases xs with
    | nil => cases hx
    | cons y ys =>
      have hy : y ≠ -1 := walk_ne_sentinel hw y (by simp)
      rw [hw.1] at hf
      exact hy hf
  · have he := listCreate_ok cap h.pool (by rw [hp]; exact (hk.free_list hf).1)
    refine ⟨_,_,he,?_⟩
    intro hz
    cases hz

theorem createsWhileFree_start : CreatesWhileFree cap (History.start : History α) := by
  have hi : ListIndex cap (prepared cap (zeroed : Pool α)).freeListHead := by
    have hpos := cap.lists_pos
    refine ⟨le_refl _,?_⟩
    show (0:ℤ) < cap.maxLists
    omega
  refine ⟨_,_,listCreate_ok cap zeroed hi,?_⟩
  intro hz
  cases hz

end Refusals

/-- Whatever was requested before, an insertion is refused exactly on a NULL
argument or when `MAX_NODES` insertions have succeeded, a creation only when no
list slot is free, and what is refused changes nothing. -/
theorem refusals_exact (cap : Capacity) (h : History α) (hs : Served cap h) :
    (∀ (a : Adder) (list : Option ℤ) (item : Option α), (∀ l, list = some l → l ∈ h.created) →
      RefusesExactly cap h a list item) ∧ CreatesWhileFree cap h := by
  have hr := served_reached hs
  constructor
  · intro a list item hl
    cases list with
    | none => exact refusesExactly_null a none item (Or.inl rfl)
    | some l =>
      cases item with
      | none => exact refusesExactly_null a (some l) none (Or.inr rfl)
      | some x =>
        have hc := hl l rfl
        rcases reached_kept hr with rfl | hk
        · simp [History.start] at hc
        · exact refusesExactly_kept hk a hc x
  · rcases reached_kept hr with rfl | hk
    · exact createsWhileFree_start
    · exact createsWhileFree_kept hk

def tight : Capacity := ⟨1,1,Nat.one_pos,Nat.one_pos⟩

/-- The only node is handed out; a NULL list and a stub come afterwards. -/
def usedUp : History ℕ := lastState (serveStep tight) History.start
  [.create,.adder .append (some 0) (some 10),.adder .add none (some 20),.remove (some 0)]

theorem refusals_exact_used_up : usedUp.inserted = 1 ∧
    RefusesExactly tight usedUp .insert (some 0) (some 30) ∧ CreatesWhileFree tight usedUp := by
  have hs : Served tight usedUp := Reach.start.lastState _ _ (by decide +kernel)
  have hr := refusals_exact tight usedUp hs
  have hc : (0:ℤ) ∈ usedUp.created := by decide +kernel
  refine ⟨by decide +kernel,hr.1 .insert (some 0) (some 30) ?_,hr.2⟩
  intro l hl
  cases hl
  exact hc

end ListlibSyscalls.PoolRefusals
