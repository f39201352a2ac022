import ListlibSyscalls.StepRuns
import ListlibSyscalls.ChildLoops
import Mathlib.Logic.Function.Basic
import Mathlib.Tactic

/-!
# The parent thread and its child threads in partA3

The parent thread writes the parameters of each child and creates it, clears
the shared `keep_running`, detaches the children, prints their counters and
frees both arrays. A child reads its parameters, tests and calls `Square` in
turn, and reads its counter once more for its completion line. Detaching waits
for nobody, so the parent may be done while a child is still inside `Square`:
a step that touches an array which has been freed is a fault of the run. The
arrays the children never see are left out, as are sleeps and times.
-/

set_option autoImplicit false

namespace ListlibSyscalls.ThreadCounters
open StepRuns ChildLoops

structure Args where
  threads : ℕ
  size : ℕ
  some_thread : 0 < threads
  threads_le : threads ≤ 1000
  size_pos : 0 < size
  size_le : size ≤ 10000

/-- Where a child thread is. `params` are its own copies of the two parameters. -/
inductive Child where
  | uncreated
  | created
  | testing (params : ℕ × ℕ) (i : ℕ)
  | squaring (params : ℕ × ℕ) (i level : ℕ)
  | reporting (params : ℕ × ℕ)
  | done
  deriving DecidableEq

inductive ParentPoint where
  | creating (i : ℕ)
  | flagging
  | detaching (i : ℕ)
  | summing (i : ℕ)
  | freeingCounter
  | freeingArgs
  | done
  deriving DecidableEq

/-- An array that has been freed is `none`. `printed` and `summary` are the
counts in the two kinds of output lines. -/
structure State where
  parent : ParentPoint
  keepRunning : Bool
  squareCounter : Option (ℕ → BitVec 32)
  args : Option (ℕ → ℕ × ℕ)
  child : ℕ → Child
  printed : ℕ → Option (BitVec 32)
  summary : ℕ → Option (BitVec 32)

/-- The parent thread after its allocations; the counters come from `calloc`. -/
def start (page : ℕ → ℕ × ℕ) : State where
  parent := .creating 0
  keepRunning := true
  squareCounter := some fun _ => 0
  args := some page
  child _ := .uncreated
  printed _ := none
  summary _ := none

inductive Turn where
  | parent
  | child (i : ℕ)
  deriving DecidableEq

inductive Stop where
  | notEnabled
  | usesFreed
  deriving DecidableEq

/-- Access to an array through a pointer that may dangle. -/
def live {β : Type} : Option β → Except Stop β
  | some b => .ok b
  | none => .error .usesFreed

def parentStep (a : Args) (s : State) : Except Stop State :=
  match s.parent with
  | .creating i => do
    let args ← live s.args
    .ok { s with
      args := some (Function.update args i (i+1,a.size))
      child := Function.update s.child i .created
      parent := following a.threads i .creating .flagging }
  | .flagging => .ok { s with keepRunning := false, parent := .detaching 0 }
  | .detaching i => .ok { s with parent := following a.threads i .detaching (.summing 0) }
  | .summing i => do
    let counter ← live s.squareCounter
    .ok { s with
      summary := Function.update s.summary i (some (counter i))
      parent := following a.threads i .summing .freeingCounter }
  | .freeingCounter => .ok { s with squareCounter := none, parent := .freeingArgs }
  | .freeingArgs => .ok { s with args := none, parent := .done }
  | .done => .error .notEnabled

def childStep (s : State) (k : ℕ) : Except Stop State :=
  match s.child k with
  | .uncreated => .error .notEnabled
  | .created => do
    let args ← live s.args
    .ok { s with child := Function.update s.child k (.testing (args k) 1) }
  | .testing params i =>
    if i ≤ params.2 then
      if s.keepRunning then
        .ok { s with child := Function.update s.child k (.squaring params i i) }
      else .ok { s with child := Function.update s.child k (.reporting params) }
    else .ok { s with child := Function.update s.child k (.reporting params) }
  | .squaring params i level => do
    let counter ← live s.squareCounter
    .ok { s with
      squareCounter := some (Function.update counter (params.1-1) (counter (params.1-1)+1))
      child := Function.update s.child k
        (if level = 0 then .testing params (i+1) else .squaring params i (level-1)) }
  | .reporting params => do
    let counter ← live s.squareCounter
    .ok { s with
      printed := Function.update s.printed k (some (counter (params.1-1)))
      child := Function.update s.child k .done }
  | .done => .error .notEnabled

def step (a : Args) (s : State) : Turn → Except Stop State
  | .parent => parentStep a s
  | .child k => childStep s k

/-- No child is about to touch an array that the parent has freed. -/
def NothingDangles (a : Args) (s : State) : Prop :=
  ∀ k, step a s (.child k) ≠ .error .usesFreed

def SummaryFinal (s : State) : Prop :=
  ∀ k v c, s.summary k = some v → s.printed k = some c → v = c

def Child.Squaring : Child → Prop
  | .squaring _ _ _ => True
  | _ => False

instance (c : Child) : Decidable c.Squaring :=
  match c with
  | .squaring _ _ _ => isTrue trivial
  | .uncreated => isFalse id
  | .created => isFalse id
  | .testing _ _ => isFalse id
  | .reporting _ => isFalse id
  | .done => isFalse id

/-- The parent prints a counter only when its child is not inside `Square`, and
frees the counters only when every child is done. -/
def Awaits (a : Args) (child : ℕ → Child) : ParentPoint → Prop
  | .summing i => ¬ (child i).Squaring
  | .freeingCounter => ∀ k < a.threads, child k = .done
  | _ => True

instance (a : Args) (child : ℕ → Child) (q : ParentPoint) : Decidable (Awaits a child q) :=
  match q with
  | .summing _ => inferInstanceAs (Decidable (¬ _))
  | .freeingCounter => inferInstanceAs (Decidable (∀ k < a.threads, _))
  | .creating _ => inferInstanceAs (Decidable True)
  | .flagging => inferInstanceAs (Decidable True)
  | .detaching _ => inferInstanceAs (Decidable True)
  | .freeingArgs => inferInstanceAs (Decidable True)
  | .done => inferInstanceAs (Decidable True)

def Awaited (a : Args) (s : State) : Turn → Prop
  | .child _ => True
  | .parent => Awaits a s.child s.parent

instance (a : Args) (s : State) (t : Turn) : Decidable (Awaited a s t) :=
  match t with
  | .child _ => inferInstanceAs (Decidable True)
  | .parent => inferInstanceAs (Decidable (Awaits a s.child s.parent))

def Placed (a : Args) (k : ℕ) : Child → Prop
  | .testing params _ => params = (k+1,a.size)
  | .squaring params _ _ => params = (k+1,a.size)
  | .reporting params => params = (k+1,a.size)
  | _ => True

def ParentPoint.created (a : Args) : ParentPoint → ℕ
  | .creating i => i
  | _ => a.threads

def ParentPoint.stopped : ParentPoint → Bool
  | .creating _ => false
  | .flagging => false
  | _ => true

structure Inv (a : Args) (s : State) : Prop where
  placed : ∀ k, Placed a k (s.child k)
  written : ∀ k f, s.child k = .created → s.args = some f → f k = (k+1,a.size)
  creating : ∀ i, s.parent = .creating i → i < a.threads
  uncreated : ∀ k, s.parent.created a ≤ k → s.child k = .uncreated
  stopped : s.parent.stopped = true → s.keepRunning = false
  released : s.parent = .freeingArgs → s.squareCounter = none
  finished : s.squareCounter = none ∨ s.args = none → ∀ k < a.threads, s.child k = .done
  printed : ∀ k c, s.printed k = some c → s.child k = .done ∧
    ∀ f, s.squareCounter = some f → f k = c
  summed : ∀ k v, s.summary k = some v → s.keepRunning = false ∧ ¬ (s.child k).Squaring ∧
    (∀ f, s.squareCounter = some f → f k = v) ∧ ∀ c, s.printed k = some c → v = c

theorem start_inv (a : Args) (page : ℕ → ℕ × ℕ) : Inv a (start page) where
  placed _ := trivial
  written k f h := by cases h
  creating i h := by
    cases h
    exact a.some_thread
  uncreated _ _ := rfl
  stopped h := by cases h
  released h := by cases h
  finished h := by rcases h with h | h <;> cases h
  printed k c h := by cases h
  summed k v h := by cases h

/-- A child, its line and its slot. -/
def State.part (s : State) (k : ℕ) : Child × Option (BitVec 32) × Option (BitVec 32) :=
  (s.child k,s.printed k,s.squareCounter.map fun f => f k)

/-- What no child but the parent writes. -/
structure SameRest (s s' : State) : Prop where
  parent : s'.parent = s.parent
  keepRunning : s'.keepRunning = s.keepRunning
  args : s'.args = s.args
  summary : s'.summary = s.summary

section Steps

variable {a : Args} {s s' : State} {k : ℕ}

theorem Inv.range (hi : Inv a s) : s.parent.created a ≤ a.threads := by
  cases h : s.parent with
  | creating i => exact (hi.creating i h).le
  | _ => exact le_refl _

theorem Inv.created_lt (hi : Inv a s) (hk : s.child k ≠ .uncreated) : k < a.threads := by
  by_contra h
  have hr := hi.range
  exact hk (hi.uncreated k (by omega))

theorem Inv.not_freed (hi : Inv a s) (hk : s.child k ≠ .uncreated) (hd : s.child k ≠ .done) :
    s.squareCounter ≠ none ∧ s.args ≠ none := by
  constructor
  · exact fun h => hd (hi.finished (Or.inl h) k (hi.created_lt hk))
  · exact fun h => hd (hi.finished (Or.inr h) k (hi.created_lt hk))

theorem slot_kept {j : ℕ} {f' : ℕ → BitVec 32} (hj : s'.part j = s.part j)
    (hf' : s'.squareCounter = some f') : ∃ f, s.squareCounter = some f ∧ f' j = f j := by
  have hslot : (s'.squareCounter.map fun f => f j) = s.squareCounter.map fun f => f j :=
    congrArg (fun x => x.2.2) hj
  rw [hf',Option.map_some] at hslot
  obtain ⟨f,hf,he⟩ := Option.map_eq_some_iff.mp hslot.symm
  exact ⟨f,hf,he.symm⟩

/-- A child at work may move on without disturbing the rest. -/
theorem Inv.of_child (hi : Inv a s) (hk : s.child k ≠ .uncreated) (hd : s.child k ≠ .done)
    (hr : SameRest s s') (hf : s'.squareCounter = none → s.squareCounter = none)
    (ho : OnlyChild k s.part s'.part) (hplaced : Placed a k (s'.child k))
    (hcreated : s'.child k ≠ .created)
    (hprinted : ∀ c, s'.printed k = some c → s'.child k = .done ∧
      ∀ f, s'.squareCounter = some f → f k = c)
    (hsummed : ∀ v, s.summary k = some v → ¬ (s'.child k).Squaring ∧
      (∀ f, s'.squareCounter = some f → f k = v) ∧ ∀ c, s'.printed k = some c → v = c) :
    Inv a s' where
  placed := ho.forall (P := fun j x => Placed a j x.1) hi.placed hplaced
  written j f hc hf := by
    have hj : j ≠ k := fun e => hcreated (e ▸ hc)
    have hchild : s'.child j = s.child j := congrArg Prod.fst (ho j hj)
    rw [hchild] at hc
    rw [hr.args] at hf
    exact hi.written j f hc hf
  creating i h := by
    rw [hr.parent] at h
    exact hi.creating i h
  uncreated j hj := by
    rw [hr.parent] at hj
    exact ho.keep (P := fun x => x.1 = .uncreated) hk (hi.uncreated j hj)
  stopped h := by
    rw [hr.parent] at h
    rw [hr.keepRunning]
    exact hi.stopped h
  released h := by
    rw [hr.parent] at h
    exact absurd (hi.released h) (hi.not_freed hk hd).1
  finished h := by
    rw [hr.args] at h
    rcases h with h | h
    · exact absurd (hf h) (hi.not_freed hk hd).1
    · exact absurd h (hi.not_freed hk hd).2
  printed j c hc := by
    by_cases hj : j = k
    · rw [hj] at hc ⊢
      exact hprinted c hc
    · have hchild : s'.child j = s.child j := congrArg Prod.fst (ho j hj)
      have hline : s'.printed j = s.printed j := congrArg (fun x => x.2.1) (ho j hj)
      rw [hline] at hc
      obtain ⟨hdone,hval⟩ := hi.printed j c hc
      refine ⟨hchild.trans hdone,fun f' hf' => ?_⟩
      obtain ⟨f,hf,hsame⟩ := slot_kept (ho j hj) hf'
      rw [hsame]
      exact hval f hf
  summed j v hv := by
    rw [hr.summary] at hv
    obtain ⟨hkeep,hsq,hval,hline⟩ := hi.summed j v hv
    rw [hr.keepRunning]
    by_cases hj : j = k
    · rw [hj] at hv ⊢
      exact ⟨hkeep,hsummed v hv⟩
    · have hchild : s'.child j = s.child j := congrArg Prod.fst (ho j hj)
      have hprint : s'.printed j = s.printed j := congrArg (fun x => x.2.1) (ho j hj)
      rw [hchild,hprint]
      refine ⟨hkeep,hsq,fun f' hf' => ?_,hline⟩
      obtain ⟨f,hf,hsame⟩ := slot_kept (ho j hj) hf'
      rw [hsame]
      exact hval f hf

theorem setChild_only (s : State) (k : ℕ) (c : Child) :
    OnlyChild k s.part { s with child := Function.update s.child k c : State }.part := by
  intro j hj
  simp [State.part,hj]

theorem Inv.not_printed (hi : Inv a s) (hd : s.child k ≠ .done) : s.printed k = none := by
  cases h : s.printed k with
  | none => rfl
  | some c => exact absurd (hi.printed k c h).1 hd

theorem Inv.of_move (hi : Inv a s) (hk : s.child k ≠ .uncreated) (hd : s.child k ≠ .done)
    (c : Child) (hplaced : Placed a k c) (hcreated : c ≠ .created)
    (hsq : c.Squaring → s.keepRunning = true) :
    Inv a { s with child := Function.update s.child k c } := by
  refine hi.of_child hk hd ⟨rfl,rfl,rfl,rfl⟩ id (setChild_only s k c) ?_ ?_ ?_ ?_
  · simpa using hplaced
  · simpa using hcreated
  · intro c' hc'
    rw [show s.printed k = none from hi.not_printed hd] at hc'
    cases hc'
  · intro v hv
    obtain ⟨hkeep,_,hval,hline⟩ := hi.summed k v hv
    refine ⟨?_,hval,hline⟩
    simp only [Function.update_self]
    intro h
    have hrun := hsq h
    rw [hkeep] at hrun
    cases hrun

theorem live_ok {β : Type} {p : Option β} {b : β} (h : live p = .ok b) : p = some b := by
  cases p with
  | none => cases h
  | some b' =>
    cases h
    rfl

theorem squaring_inv (hi : Inv a s) {params : ℕ × ℕ} {i level : ℕ} {f : ℕ → BitVec 32}
    (hc : s.child k = .squaring params i level) (hf : s.squareCounter = some f)
    (hp : params = (k+1,a.size)) :
    Inv a { s with
      squareCounter := some (Function.update f (params.1-1) (f (params.1-1)+1))
      child := Function.update s.child k
        (if level = 0 then .testing params (i+1) else .squaring params i (level-1)) } := by
  have hd : s.child k ≠ .done := by simp [hc]
  have hslot : params.1-1 = k := by
    rw [hp]
    rfl
  rw [hslot]
  refine hi.of_child (by simp [hc]) hd ⟨rfl,rfl,rfl,rfl⟩ (fun h => (by cases h)) ?_ ?_ ?_ ?_ ?_
  · intro j hj
    simp [State.part,hf,hj]
  · simp only [Function.update_self]
    split_ifs
    · exact hp
    · exact hp
  · simp only [Function.update_self]
    split_ifs <;> simp
  · intro c hcp
    rw [show s.printed k = none from hi.not_printed hd] at hcp
    cases hcp
  · -- a summed child is not inside `Square`
    intro v hv
    have hsq := (hi.summed k v hv).2.1
    rw [hc] at hsq
    exact absurd trivial hsq

/-- The line of a child shows its own slot, as the summary did if it came first. -/
theorem reporting_inv (hi : Inv a s) {params : ℕ × ℕ} {f : ℕ → BitVec 32}
    (hc : s.child k = .reporting params) (hf : s.squareCounter = some f)
    (hp : params = (k+1,a.size)) :
    Inv a { s with
      printed := Function.update s.printed k (some (f (params.1-1)))
      child := Function.update s.child k .done } := by
  have hslot : params.1-1 = k := by
    rw [hp]
    rfl
  rw [hslot]
  refine hi.of_child (k := k) (by simp [hc]) (by simp [hc]) ⟨rfl,rfl,rfl,rfl⟩ id ?_ ?_ ?_ ?_ ?_
  · intro j hj
    simp [State.part,hj]
  · simp only [Function.update_self]
    trivial
  · simp
  · intro c hcp
    simp only [Function.update_self,Option.some.injEq] at hcp ⊢
    refine ⟨trivial,fun f' hf' => ?_⟩
    rw [← hcp]
    rw [show s.squareCounter = some f from hf] at hf'
    cases hf'
    rfl
  · intro v hv
    obtain ⟨_,_,hval,_⟩ := hi.summed k v hv
    simp only [Function.update_self]
    refine ⟨id,hval,fun c hcp => ?_⟩
    rw [← Option.some.inj hcp]
    exact (hval f hf).symm

theorem childStep_inv (hi : Inv a s) (hs : childStep s k = .ok s') : Inv a s' := by
  have hp := hi.placed k
  simp only [childStep] at hs
  cases hc : s.child k with
  | uncreated =>
    rw [hc] at hs
    cases hs
  | done =>
    rw [hc] at hs
    cases hs
  | created =>
    rw [hc] at hs
    obtain ⟨f,hf,hs⟩ := bind_ok hs
    cases hs
    exact hi.of_move (by simp [hc]) (by simp [hc]) _ (hi.written k f hc (live_ok hf))
      (by simp) (fun h => absurd h id)
  | testing params i =>
    rw [hc] at hs hp
    have hfinish := hi.of_move (by simp [hc]) (by simp [hc]) (.reporting params) hp
      (by simp) (fun h => absurd h id)
    simp only at hs
    split_ifs at hs with hle hkeep
    · cases hs
      exact hi.of_move (by simp [hc]) (by simp [hc]) _ hp (by simp) (fun _ => hkeep)
    · cases hs
      exact hfinish
    · cases hs
      exact hfinish
  | squaring params i level =>
    rw [hc] at hs hp
    obtain ⟨f,hf,hs⟩ := bind_ok hs
    cases hs
    exact squaring_inv hi hc (live_ok hf) hp
  | reporting params =>
    rw [hc] at hs hp
    obtain ⟨f,hf,hs⟩ := bind_ok hs
    cases hs
    exact reporting_inv hi hc (live_ok hf) hp

def ParentPoint.Looping (a : Args) (q : ParentPoint) : Prop :=
  q.created a = a.threads ∧ q ≠ .freeingArgs ∧ ∀ j, q ≠ .creating j

theorem following_looping (a : Args) (i : ℕ) (loop : ℕ → ParentPoint) (exit : ParentPoint)
    (hl : ∀ j, (loop j).Looping a) (he : exit.Looping a) :
    (following a.threads i loop exit).Looping a :=
  forall_following (P := ParentPoint.Looping a) (fun _ => hl _) fun _ => he

theorem create_inv (hi : Inv a s) {i : ℕ} {f : ℕ → ℕ × ℕ} (hp : s.parent = .creating i)
    (hf : s.args = some f) : Inv a { s with
      args := some (Function.update f i (i+1,a.size))
      child := Function.update s.child i .created
      parent := following a.threads i .creating .flagging } := by
  have hlt := hi.creating i hp
  have hu := hi.uncreated
  rw [hp] at hu
  have hun : s.child i = .uncreated := hu i (le_refl i)
  have hother {j : ℕ} (hj : j ≠ i) : Function.update s.child i .created j = s.child j :=
    Function.update_of_ne hj _ _
  have hdone {j : ℕ} (hj : s.child j = .done) : j ≠ i := by
    intro e
    rw [e,hun] at hj
    cases hj
  have hnext : (following a.threads i ParentPoint.creating .flagging).created a = i+1 ∧
      (following a.threads i ParentPoint.creating .flagging).stopped = false := by
    rcases following_cases a.threads i ParentPoint.creating .flagging with ⟨_,h⟩ | ⟨hle,h⟩
    · rw [h]
      exact ⟨rfl,rfl⟩
    · rw [h]
      exact ⟨le_antisymm hle hlt,rfl⟩
  constructor
  · intro j
    by_cases hj : j = i
    · simp only [hj,Function.update_self]
      trivial
    · simp only [hother hj]
      exact hi.placed j
  · intro j g hc hg
    cases hg
    by_cases hj : j = i
    · simp [hj]
    · simp only [hother hj] at hc
      rw [Function.update_of_ne hj]
      exact hi.written j f hc hf
  · intro j hj
    rcases following_cases a.threads i ParentPoint.creating .flagging with ⟨hlt',h⟩ | ⟨_,h⟩
    · cases h.symm.trans hj
      exact hlt'
    · cases h.symm.trans hj
  · intro j hj
    have hij : i+1 ≤ j := hnext.1 ▸ hj
    simp only [hother (show j ≠ i by omega)]
    exact hu j (Nat.le_of_succ_le hij)
  · intro h
    cases hnext.2.symm.trans h
  · intro h
    have hq : following a.threads i ParentPoint.creating .flagging = .freeingArgs := h
    rw [hq] at hnext
    cases hnext.2
  · intro h j hj
    rcases h with h | h
    · have hd := hi.finished (Or.inl h) j hj
      simp only [hother (hdone hd)]
      exact hd
    · cases h
  · intro j c hc
    obtain ⟨hd,hval⟩ := hi.printed j c hc
    simp only [hother (hdone hd)]
    exact ⟨hd,hval⟩
  · intro j v hv
    obtain ⟨hkeep,hsq,hval,hline⟩ := hi.summed j v hv
    refine ⟨hkeep,?_,hval,hline⟩
    by_cases hj : j = i
    · simp only [hj,Function.update_self]
      exact id
    · simp only [hother hj]
      exact hsq

theorem summing_inv (hi : Inv a s) {i : ℕ} {f : ℕ → BitVec 32} (hp : s.parent = .summing i)
    (hf : s.squareCounter = some f) (hsq : ¬ (s.child i).Squaring) :
    Inv a { s with
      summary := Function.update s.summary i (some (f i))
      parent := following a.threads i .summing .freeingCounter } := by
  have hu := hi.uncreated
  have hstop := hi.stopped
  rw [hp] at hu hstop
  have hnext := following_looping a i .summing .freeingCounter
    (fun _ => ⟨rfl,by simp,by simp⟩) ⟨rfl,by simp,by simp⟩
  exact { hi with
    creating := fun j hj => absurd hj (hnext.2.2 j)
    uncreated := fun j hj => hu j (hnext.1.symm.le.trans hj)
    stopped := fun _ => hstop rfl
    released := fun h => absurd h hnext.2.1
    summed := by
      intro j v hv
      by_cases hj : j = i
      · simp only [hj,Function.update_self,Option.some.injEq] at hv
        rw [hj,← hv]
        refine ⟨hstop rfl,hsq,?_,fun c hc => (hi.printed i c hc).2 f hf⟩
        intro g hg
        cases hf.symm.trans hg
        rfl
      · simp only [Function.update_of_ne hj] at hv
        exact hi.summed j v hv }

theorem parentStep_inv (hi : Inv a s) (hw : Awaited a s .parent) (hs : parentStep a s = .ok s') :
    Inv a s' := by
  have hu := hi.uncreated
  have hstop := hi.stopped
  simp only [parentStep] at hs
  simp only [Awaited] at hw
  cases hp : s.parent with
  | creating i =>
    rw [hp] at hs
    obtain ⟨f,hf,hs⟩ := bind_ok hs
    cases hs
    exact create_inv hi hp (live_ok hf)
  | flagging =>
    rw [hp] at hs hu
    cases hs
    exact { hi with
      creating := fun j hj => by cases hj
      uncreated := hu
      stopped := fun _ => rfl
      released := fun h => by cases h
      summed := fun j v hv => ⟨rfl,(hi.summed j v hv).2⟩ }
  | detaching i =>
    rw [hp] at hs hu hstop
    cases hs
    have hnext := following_looping a i .detaching (.summing 0)
      (fun _ => ⟨rfl,by simp,by simp⟩) ⟨rfl,by simp,by simp⟩
    exact { hi with
      creating := fun j hj => absurd hj (hnext.2.2 j)
      uncreated := fun j hj => hu j (hnext.1.symm.le.trans hj)
      stopped := fun _ => hstop rfl
      released := fun h => absurd h hnext.2.1 }
  | summing i =>
    rw [hp] at hs hw
    obtain ⟨f,hf,hs⟩ := bind_ok hs
    cases hs
    exact summing_inv hi hp (live_ok hf) hw
  | freeingCounter =>
    rw [hp] at hs hu hstop hw
    cases hs
    exact { hi with
      creating := fun j hj => by cases hj
      uncreated := hu
      stopped := fun _ => hstop rfl
      released := fun _ => rfl
      finished := fun _ => hw
      printed := fun j c hc => ⟨(hi.printed j c hc).1,fun f hf => by cases hf⟩
      summed := fun j v hv => ⟨(hi.summed j v hv).1,(hi.summed j v hv).2.1,
        fun f hf => (by cases hf),(hi.summed j v hv).2.2.2⟩ }
  | freeingArgs =>
    rw [hp] at hs hu hstop
    cases hs
    have hfreed := hi.released hp
    exact { hi with
      written := fun j f _ hf => by cases hf
      creating := fun j hj => by cases hj
      uncreated := hu
      stopped := fun _ => hstop rfl
      released := fun h => by cases h
      finished := fun _ => hi.finished (Or.inl hfreed) }
  | done =>
    rw [hp] at hs
    cases hs

def AwaitedReached (a : Args) (page : ℕ → ℕ × ℕ) (s : State) : Prop :=
  Reach (Accepts (step a)) (Awaited a) (start page) s

theorem reached_inv {page : ℕ → ℕ × ℕ} (h : AwaitedReached a page s) : Inv a s := by
  apply h.invariant
  · exact start_inv a page
  · intro s t s' hi hw hs
    cases t with
    | parent => exact parentStep_inv hi hw hs
    | child k => exact childStep_inv hi hs

theorem inv_nothingDangles (hi : Inv a s) : NothingDangles a s := by
  intro k h
  have hs : childStep s k = .error .usesFreed := h
  simp only [childStep] at hs
  cases hc : s.child k with
  | uncreated =>
    rw [hc] at hs
    cases hs
  | done =>
    rw [hc] at hs
    cases hs
  | created =>
    have hf := (hi.not_freed (k := k) (by simp [hc]) (by simp [hc])).2
    obtain ⟨f,hf⟩ := Option.ne_none_iff_exists'.mp hf
    rw [hc,hf] at hs
    cases hs
  | testing params i =>
    rw [hc] at hs
    simp only at hs
    split_ifs at hs
  | squaring params i level =>
    have hf := (hi.not_freed (k := k) (by simp [hc]) (by simp [hc])).1
    obtain ⟨f,hf⟩ := Option.ne_none_iff_exists'.mp hf
    rw [hc,hf] at hs
    cases hs
  | reporting params =>
    have hf := (hi.not_freed (k := k) (by simp [hc]) (by simp [hc])).1
    obtain ⟨f,hf⟩ := Option.ne_none_iff_exists'.mp hf
    rw [hc,hf] at hs
    cases hs

end Steps

/-- In every run in which the parent prints a counter only when its child is
not inside `Square` and frees the counters only when all children are done, no
child touches a freed array and the summary is final. -/
theorem counters_safe_when_awaited (a : Args) (page : ℕ → ℕ × ℕ) (turns : List Turn)
    (h : Each (Accepts (step a)) (Awaited a) (start page) turns) :
    Always (Accepts (step a)) (fun s => NothingDangles a s ∧ SummaryFinal s) (start page) turns := by
  have hsafe : ∀ s, AwaitedReached a page s → NothingDangles a s ∧ SummaryFinal s := by
    intro s hr
    have hi := reached_inv hr
    exact ⟨inv_nothingDangles hi,fun k v c hv hc => (hi.summed k v hv).2.2.2 c hc⟩
  exact always_of_reach hsafe turns (start page) .start h

def single : Args := ⟨1,1,by decide,by decide,by decide,by decide⟩

/-- The parent goes on only after the only child has counted and printed. -/
def patient : List Turn :=
  [.parent,.child 0,.child 0,.parent,.parent,.child 0,.child 0,.parent,.child 0,.child 0,.parent,
    .parent]

theorem counters_safe_when_awaited_patient :
    (lastState (step single) (start fun _ => (0,0)) patient).parent = .done ∧
    (lastState (step single) (start fun _ => (0,0)) patient).summary 0 = some 2 ∧
    Always (Accepts (step single)) (fun s => NothingDangles single s ∧ SummaryFinal s)
      (start fun _ => (0,0)) patient :=
  ⟨by decide +kernel,by decide +kernel,
    counters_safe_when_awaited single _ patient (by decide +kernel)⟩

/-- Nothing makes the parent wait: it can free the counters while its child is
inside `Square`, and print a count that the child then goes beyond. -/
theorem freed_inside_square :
    (¬ ∀ s, Reach (Accepts (step single)) (fun _ _ => True) (start fun _ => (0,0)) s →
      NothingDangles single s) ∧
    ¬ ∀ s, Reach (Accepts (step single)) (fun _ _ => True) (start fun _ => (0,0)) s →
      SummaryFinal s := by
  have hr (turns : List Turn) : Reach (Accepts (step single)) (fun _ _ => True)
      (start fun _ => (0,0)) (lastState (step single) (start fun _ => (0,0)) turns) :=
    Reach.start.lastState _ _ (each_of_forall (fun _ _ => trivial) _ _)
  constructor
  · intro h
    exact h _ (hr [.parent,.child 0,.child 0,.parent,.parent,.parent,.parent]) 0 rfl
  · intro h
    have he := h _ (hr [.parent,.child 0,.child 0,.parent,.parent,.parent,.child 0,.child 0,.child 0,
      .child 0]) 0 0 2 (by decide +kernel) (by decide +kernel)
    exact absurd he (by decide)

end ListlibSyscalls.ThreadCounters
