import ListlibSyscalls.SquareCalls
import ListlibSyscalls.StepRuns
import ListlibSyscalls.ChildLoops

/-!
# The parent and its child processes in partA4

The parent forks the children, sets its flag, signals and awaits every child
and prints the shared counters. A child installs its handler, tests and calls
`Square` in turn, prints its count and exits; inside `Square` a step is one
count at one level of the recursion. The signal is delivered at any later
point of the child: before the handler is there it terminates the child,
afterwards it clears the child's own `keep_running`. Sleeps and times are left
out, since turns are taken in any order.
-/

set_option autoImplicit false

namespace ListlibSyscalls.ProcessCounters
open StepRuns ChildLoops SquareCalls

structure Args where
  processes : ℕ
  size : ℕ
  some_process : 0 < processes
  processes_le : processes ≤ 1000
  size_pos : 0 < size
  size_le : size ≤ 10000

inductive Point where
  | unforked
  | installing
  | testing (i : ℕ)
  | squaring (i level : ℕ)
  | reporting
  | exiting
  | terminated
  deriving DecidableEq

structure Child where
  point : Point
  handler : Bool
  keepRunning : Bool
  pending : Bool
  deriving DecidableEq

inductive ParentPoint where
  | forking (i : ℕ)
  | flagging
  | killing (i : ℕ)
  | waiting (i : ℕ)
  | summing (i : ℕ)
  | done
  deriving DecidableEq

/-- `printed` and `summary` are the counts in the two kinds of output lines. -/
structure State where
  parent : ParentPoint
  keepRunning : Bool
  child : ℕ → Child
  squareCounter : ℕ → BitVec 32
  printed : ℕ → Option (BitVec 32)
  summary : ℕ → Option (BitVec 32)

def start : State where
  parent := .forking 0
  keepRunning := true
  child _ := ⟨.unforked,false,true,false⟩
  squareCounter _ := 0
  printed _ := none
  summary _ := none

inductive Turn where
  | parent
  | child (i : ℕ)
  | deliver (i : ℕ)
  deriving DecidableEq

inductive Refused where
  | notEnabled
  deriving DecidableEq

namespace State

def setChild (s : State) (i : ℕ) (c : Child) : State :=
  { s with child := Function.update s.child i c }

def setPoint (s : State) (i : ℕ) (p : Point) : State := s.setChild i { s.child i with point := p }

end State

def parentStep (a : Args) (s : State) : Except Refused State :=
  match s.parent with
  | .forking i => .ok { s.setChild i ⟨.installing,false,s.keepRunning,false⟩ with
      parent := following a.processes i .forking .flagging }
  | .flagging => .ok { s with keepRunning := false, parent := .killing 0 }
  | .killing i => .ok { s.setChild i { s.child i with pending := true } with
      parent := following a.processes i .killing (.waiting 0) }
  | .waiting i =>
    if (s.child i).point = .terminated then
      .ok { s with parent := following a.processes i .waiting (.summing 0) }
    else .error .notEnabled
  | .summing i => .ok { s with
      summary := Function.update s.summary i (some (s.squareCounter i))
      parent := following a.processes i .summing .done }
  | .done => .error .notEnabled

def childStep (a : Args) (s : State) (i : ℕ) : Except Refused State :=
  match (s.child i).point with
  | .unforked => .error .notEnabled
  | .installing => .ok (s.setChild i { s.child i with point := .testing 1, handler := true })
  | .testing j =>
    if j ≤ a.size then
      if (s.child i).keepRunning then .ok (s.setPoint i (.squaring j j))
      else .ok (s.setPoint i .reporting)
    else .ok (s.setPoint i .reporting)
  | .squaring j level => .ok { s.setPoint i
        (if level = 0 then .testing (j+1) else .squaring j (level-1)) with
      squareCounter := Function.update s.squareCounter i (s.squareCounter i+1) }
  | .reporting => .ok { s.setPoint i .exiting with
      printed := Function.update s.printed i (some (s.squareCounter i)) }
  | .exiting => .ok (s.setPoint i .terminated)
  | .terminated => .error .notEnabled

/-- Delivery of a pending SIGUSR1: the handler, or the default action. -/
def deliver (s : State) (i : ℕ) : Except Refused State :=
  if (s.child i).pending ∧ (s.child i).point ≠ .unforked ∧ (s.child i).point ≠ .terminated then
    if (s.child i).handler then
      .ok (s.setChild i { s.child i with keepRunning := false, pending := false })
    else .ok (s.setChild i { s.child i with point := .terminated, pending := false })
  else .error .notEnabled

def step (a : Args) (s : State) : Turn → Except Refused State
  | .parent => parentStep a s
  | .child i => childStep a s i
  | .deliver i => deliver s i

def Reached (a : Args) (s : State) : Prop :=
  Reach (Accepts (step a)) (fun _ _ => True) start s

/-- The count of complete calls `Square(1)` to `Square(k)` for an admitted `k`. -/
def Complete (a : Args) (v : BitVec 32) : Prop := ∃ k ≤ a.size, v = BitVec.ofNat 32 (total k)

def Sound (a : Args) (c : Child) (v : BitVec 32) (printed : Option (BitVec 32)) : Prop :=
  match c.point with
  | .unforked => v = 0 ∧ printed = none
  | .installing => v = 0 ∧ printed = none
  | .testing j => c.handler = true ∧ printed = none ∧
      ∃ k ≤ a.size, j = k+1 ∧ v = BitVec.ofNat 32 (total k)
  | .squaring j level => c.handler = true ∧ printed = none ∧
      ∃ k, k+1 ≤ a.size ∧ j = k+1 ∧ v+BitVec.ofNat 32 (level+1) = BitVec.ofNat 32 (total (k+1))
  | .reporting => c.handler = true ∧ printed = none ∧ Complete a v
  | .exiting => c.handler = true ∧ printed = some v ∧ Complete a v
  | .terminated => (printed = none ∨ printed = some v) ∧ Complete a v

def Followed (a : Args) (child : ℕ → Child) : ParentPoint → Prop
  | .forking j => ∀ i, j ≤ i → (child i).point = .unforked
  | .waiting j => ∀ i < j, (child i).point = .terminated
  | .summing j => j < a.processes ∧ ∀ i < a.processes, (child i).point = .terminated
  | _ => True

structure Inv (a : Args) (s : State) : Prop where
  children : ∀ i, Sound a (s.child i) (s.squareCounter i) (s.printed i)
  followed : Followed a s.child s.parent
  summed : ∀ i v, s.summary i = some v →
    (s.child i).point = .terminated ∧ v = s.squareCounter i

theorem start_inv (a : Args) : Inv a start := by
  constructor
  · intro i
    exact ⟨rfl,rfl⟩
  · intro i _
    rfl
  · intro i v h
    cases h

/-- A child, its slot and its line. -/
def State.part (s : State) (i : ℕ) : Child × BitVec 32 × Option (BitVec 32) :=
  (s.child i,s.squareCounter i,s.printed i)

theorem setChild_only (s : State) (i : ℕ) (c : Child) : OnlyChild i s.part (s.setChild i c).part := by
  intro j hj
  simp [State.part,State.setChild,hj]

def Live (c : Child) : Prop := c.point ≠ .unforked ∧ c.point ≠ .terminated

theorem sound_of_others {a : Args} {s s' : State} {i : ℕ} (hi : Inv a s)
    (ho : OnlyChild i s.part s'.part)
    (hnew : Sound a (s'.child i) (s'.squareCounter i) (s'.printed i)) (j : ℕ) :
    Sound a (s'.child j) (s'.squareCounter j) (s'.printed j) :=
  ho.forall (P := fun _ x => Sound a x.1 x.2.1 x.2.2) hi.children hnew j

/-- Between its fork and its end a child may move without disturbing what is
known of the parent and of the other children. -/
theorem Inv.of_child {a : Args} {s s' : State} {i : ℕ} (hi : Inv a s) (hl : Live (s.child i))
    (hpar : s'.parent = s.parent) (hsum : s'.summary = s.summary)
    (ho : OnlyChild i s.part s'.part)
    (hnew : Sound a (s'.child i) (s'.squareCounter i) (s'.printed i)) : Inv a s' := by
  have hstay {p : Point} (hp : (s.child i).point ≠ p) {k : ℕ} (hk : (s.child k).point = p) :
      (s'.child k).point = p := ho.keep (P := fun x => x.1.point = p) hp hk
  constructor
  · exact sound_of_others hi ho hnew
  · have hf := hi.followed
    rw [hpar]
    cases hp : s.parent with
    | forking j =>
      rw [hp] at hf
      exact fun k hk => hstay hl.1 (hf k hk)
    | waiting j =>
      rw [hp] at hf
      exact fun k hk => hstay hl.2 (hf k hk)
    | summing j =>
      rw [hp] at hf
      exact ⟨hf.1,fun k hk => hstay hl.2 (hf.2 k hk)⟩
    | flagging => trivial
    | killing j => trivial
    | done => trivial
  · intro j v hv
    rw [hsum] at hv
    exact ho.keep (P := fun x => x.1.point = .terminated ∧ v = x.2.1) (fun h => hl.2 h.1)
      (hi.summed j v hv)

theorem complete_zero (a : Args) : Complete a 0 := ⟨0,Nat.zero_le _,rfl⟩

theorem count_one (v w : BitVec 32) (level : ℕ) (h : v+BitVec.ofNat 32 (level+1) = w) :
    v+1+BitVec.ofNat 32 level = w := by
  rw [← h,Nat.add_comm level,BitVec.ofNat_add,BitVec.add_assoc]
  rfl

section Steps

variable {a : Args} {s s' : State} {i : ℕ}

theorem childStep_inv (hi : Inv a s) (hs : childStep a s i = .ok s') : Inv a s' := by
  have hc := hi.children i
  simp only [childStep] at hs
  cases hpt : (s.child i).point with
  | unforked =>
    rw [hpt] at hs
    cases hs
  | terminated =>
    rw [hpt] at hs
    cases hs
  | installing =>
    rw [hpt] at hs
    simp only [Sound,hpt] at hc
    cases hs
    refine hi.of_child ⟨by simp [hpt],by simp [hpt]⟩ rfl rfl (setChild_only s i _) ?_
    simp only [State.setChild,Function.update_self,Sound]
    exact ⟨trivial,hc.2,0,Nat.zero_le _,rfl,hc.1⟩
  | testing j =>
    rw [hpt] at hs
    simp only [Sound,hpt] at hc
    obtain ⟨hh,hpr,k,hk,hj,hv⟩ := hc
    have hfinish : Inv a (s.setPoint i .reporting) := by
      refine hi.of_child ⟨by simp [hpt],by simp [hpt]⟩ rfl rfl (setChild_only s i _) ?_
      simp only [State.setPoint,State.setChild,Function.update_self,Sound]
      exact ⟨hh,hpr,k,hk,hv⟩
    simp only at hs
    split_ifs at hs with hle hkeep
    · cases hs
      refine hi.of_child ⟨by simp [hpt],by simp [hpt]⟩ rfl rfl (setChild_only s i _) ?_
      simp only [State.setPoint,State.setChild,Function.update_self,Sound]
      refine ⟨hh,hpr,k,by omega,hj,?_⟩
      rw [hv,hj,← BitVec.ofNat_add]
      rfl
    · cases hs
      exact hfinish
    · cases hs
      exact hfinish
  | squaring j level =>
    rw [hpt] at hs
    simp only [Sound,hpt] at hc
    obtain ⟨hh,hpr,k,hk,hj,hv⟩ := hc
    have hv' := count_one _ _ _ hv
    cases hs
    refine hi.of_child (i := i) ⟨by simp [hpt],by simp [hpt]⟩ rfl rfl
      (fun j hj => by simp [State.part,State.setPoint,State.setChild,hj]) ?_
    simp only [State.setPoint,State.setChild,Function.update_self]
    cases level with
    | zero =>
      refine ⟨hh,hpr,k+1,hk,by rw [hj],?_⟩
      simpa using hv'
    | succ level => exact ⟨hh,hpr,k,hk,hj,hv'⟩
  | reporting =>
    rw [hpt] at hs
    simp only [Sound,hpt] at hc
    cases hs
    refine hi.of_child (i := i) ⟨by simp [hpt],by simp [hpt]⟩ rfl rfl
      (fun j hj => by simp [State.part,State.setPoint,State.setChild,hj]) ?_
    simp only [State.setPoint,State.setChild,Function.update_self,Sound]
    exact ⟨hc.1,trivial,hc.2.2⟩
  | exiting =>
    rw [hpt] at hs
    simp only [Sound,hpt] at hc
    cases hs
    refine hi.of_child ⟨by simp [hpt],by simp [hpt]⟩ rfl rfl (setChild_only s i _) ?_
    simp only [State.setPoint,State.setChild,Function.update_self,Sound]
    exact ⟨Or.inr hc.2.1,hc.2.2⟩

/-- A delivery changes the flag of a child, or ends one that has counted nothing. -/
theorem deliver_inv (hi : Inv a s) (hs : deliver s i = .ok s') : Inv a s' := by
  have hc := hi.children i
  simp only [deliver] at hs
  split_ifs at hs with hp hh
  · cases hs
    refine hi.of_child hp.2 rfl rfl (setChild_only s i _) ?_
    simp only [State.setChild,Function.update_self]
    exact hc
  · cases hs
    refine hi.of_child hp.2 rfl rfl (setChild_only s i _) ?_
    simp only [State.setChild,Function.update_self,Sound]
    cases hpt : (s.child i).point with
    | installing =>
      simp only [Sound,hpt] at hc
      rw [hc.1]
      exact ⟨Or.inl hc.2,complete_zero a⟩
    | unforked => exact absurd hpt hp.2.1
    | terminated => exact absurd hpt hp.2.2
    | testing j =>
      simp only [Sound,hpt] at hc
      exact absurd hc.1 hh
    | squaring j level =>
      simp only [Sound,hpt] at hc
      exact absurd hc.1 hh
    | reporting =>
      simp only [Sound,hpt] at hc
      exact absurd hc.1 hh
    | exiting =>
      simp only [Sound,hpt] at hc
      exact absurd hc.1 hh

theorem forking_inv (hi : Inv a s) (hf : ∀ k, i ≤ k → (s.child k).point = .unforked) :
    Inv a { s.setChild i ⟨.installing,false,s.keepRunning,false⟩ with
      parent := following a.processes i .forking .flagging } := by
  have hun := hf i (le_refl i)
  have hc := hi.children i
  simp only [Sound,hun] at hc
  constructor
  · apply sound_of_others hi (setChild_only s i _)
    simp only [State.setChild,Function.update_self,Sound]
    exact hc
  · apply forall_following (P := Followed a _)
    · intro _ k hk
      have hne : k ≠ i := by omega
      simp only [State.setChild,Function.update_of_ne hne]
      exact hf k (by omega)
    · exact fun _ => trivial
  · intro j v hv
    obtain ⟨hterm,hval⟩ := hi.summed j v hv
    have hne : j ≠ i := by
      intro e
      rw [e,hun] at hterm
      cases hterm
    simp only [State.setChild,Function.update_of_ne hne]
    exact ⟨hterm,hval⟩

theorem killing_inv (hi : Inv a s) :
    Inv a { s.setChild i { s.child i with pending := true } with
      parent := following a.processes i .killing (.waiting 0) } := by
  have hpoint (j : ℕ) : ((s.setChild i { s.child i with pending := true }).child j).point =
      (s.child j).point := by
    by_cases hj : j = i
    · simp [State.setChild,hj]
    · simp [State.setChild,hj]
  constructor
  · apply sound_of_others hi (setChild_only s i _)
    simp only [State.setChild,Function.update_self]
    exact hi.children i
  · apply forall_following (P := Followed a _)
    · exact fun _ => trivial
    · intro _ k hk
      omega
  · intro j v hv
    obtain ⟨hterm,hval⟩ := hi.summed j v hv
    exact ⟨(hpoint j).trans hterm,hval⟩

theorem waiting_inv (hi : Inv a s) (hf : ∀ k < i, (s.child k).point = .terminated)
    (hterm : (s.child i).point = .terminated) :
    Inv a { s with parent := following a.processes i .waiting (.summing 0) } := by
  have hall : ∀ k < i+1, (s.child k).point = .terminated := by
    intro k hk
    by_cases he : k = i
    · rw [he]
      exact hterm
    · exact hf k (by omega)
  refine ⟨hi.children,?_,hi.summed⟩
  apply forall_following (P := Followed a _)
  · exact fun _ => hall
  · exact fun hlast => ⟨a.some_process,fun k hk => hall k (by omega)⟩

theorem summing_inv (hi : Inv a s) (hf : Followed a s.child (.summing i)) :
    Inv a { s with
      summary := Function.update s.summary i (some (s.squareCounter i))
      parent := following a.processes i .summing .done } := by
  constructor
  · exact hi.children
  · apply forall_following (P := Followed a _)
    · exact fun hlt => ⟨hlt,hf.2⟩
    · exact fun _ => trivial
  · intro j v hv
    by_cases hj : j = i
    · simp only [hj,Function.update_self,Option.some.injEq] at hv
      rw [hj]
      exact ⟨hf.2 i hf.1,hv.symm⟩
    · simp only [Function.update_of_ne hj] at hv
      exact hi.summed j v hv

theorem parentStep_inv (hi : Inv a s) (hs : parentStep a s = .ok s') : Inv a s' := by
  have hf := hi.followed
  simp only [parentStep] at hs
  cases hp : s.parent with
  | forking i =>
    rw [hp] at hs hf
    cases hs
    exact forking_inv hi hf
  | flagging =>
    rw [hp] at hs
    cases hs
    exact ⟨hi.children,trivial,hi.summed⟩
  | killing i =>
    rw [hp] at hs
    cases hs
    exact killing_inv hi
  | waiting i =>
    rw [hp] at hs hf
    simp only at hs
    split_ifs at hs with hterm
    cases hs
    exact waiting_inv hi hf hterm
  | summing i =>
    rw [hp] at hs hf
    cases hs
    exact summing_inv hi hf
  | done =>
    rw [hp] at hs
    cases hs

theorem reached_inv (h : Reached a s) : Inv a s := by
  apply h.invariant
  · exact start_inv a
  · intro s t s' hi _ hs
    cases t with
    | parent => exact parentStep_inv hi hs
    | child i => exact childStep_inv hi hs
    | deliver i => exact deliver_inv hi hs

end Steps

/-- In every run the summary prints for each child the count of its complete
calls, `k(k+3)/2` for some `k` up to the size, and the child's own line says
the same. -/
theorem summary_counts_complete_calls (a : Args) (s : State) (h : Reached a s) (i : ℕ)
    (v : BitVec 32) (hv : s.summary i = some v) :
    (∃ k ≤ a.size, v.toInt = ((k*(k+3)/2:ℕ):ℤ) ∧
      (squares k ⟨some fun _ => 0,i⟩).squareCounter.map (fun c => c i) = some v) ∧
    ∀ c, s.printed i = some c → c = v := by
  have hi := reached_inv h
  obtain ⟨hterm,rfl⟩ := hi.summed i v hv
  have hc := hi.children i
  simp only [Sound,hterm] at hc
  obtain ⟨hpr,k,hk,hval⟩ := hc
  constructor
  · refine ⟨k,hk,?_,?_⟩
    · rw [hval]
      exact toInt_total (hk.trans a.size_le)
    · rw [hval]
      exact squares_slot k i (by omega)
  · intro c hcp
    rcases hpr with hn | hs
    · rw [hn] at hcp
      cases hcp
    · rw [hs] at hcp
      exact (Option.some.inj hcp).symm

/-- Two children of size 3: the first is stopped inside `Square(2)`, which it
completes, the second is killed before it has a handler. -/
def stopped : List Turn :=
  [.parent,.child 0,.child 0,.child 0,.child 0,.child 0,.child 0,.parent,.parent,.parent,
    .deliver 0,.parent,.deliver 1,.child 0,.child 0,.child 0,.child 0,.child 0,.parent,.parent,
    .parent,.parent]

def pair : Args := ⟨2,3,Nat.two_pos,by decide,by decide,by decide⟩

theorem summary_counts_complete_calls_stopped :
    (lastState (step pair) start stopped).summary 0 = some 5 ∧
    (lastState (step pair) start stopped).printed 0 = some 5 ∧
    (lastState (step pair) start stopped).summary 1 = some 0 ∧
    ∃ k ≤ pair.size, (5:BitVec 32).toInt = ((k*(k+3)/2:ℕ):ℤ) := by
  have h0 : (lastState (step pair) start stopped).summary 0 = some 5 := by decide +kernel
  have hr : Reached pair (lastState (step pair) start stopped) :=
    Reach.start.lastState _ _ (each_of_forall (fun _ _ => trivial) _ _)
  obtain ⟨⟨k,hk,hv,_⟩,_⟩ := summary_counts_complete_calls pair _ hr 0 5 h0
  exact ⟨h0,by decide +kernel,by decide +kernel,k,hk,hv⟩

end ListlibSyscalls.ProcessCounters
