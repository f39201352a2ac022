import ListlibSyscalls.ProcTable

/-!
# Where trace masks come from

A run of the process table is followed together with the history of its trace
calls and forks. The newest entry of the history about a table slot is about
the process that occupies it: a fork opens the slot's current life, and what
the slot did in an earlier life stands behind it. Neither `freeproc` nor
`allocproc` writes the mask, so the mask of a new entry is the one the dead
process left there until `kfork` overwrites it, while the entry is still USED.
-/

set_option autoImplicit false

namespace ListlibSyscalls.TraceMask
open ProcTable StepRuns

/-- A trace call with its argument register, or a fork with the slot of the
new process and the mask of its parent when `kfork` was entered. -/
inductive Record where
  | traced (i : ℕ) (a0 : BitVec 64)
  | forked (np : ℕ) (mask : BitVec 64)
  deriving DecidableEq

/-- The mask the history, newest entry first, gives to the process in a slot:
the argument of its last trace call since its creation, else the mask its
parent had at the fork, else that of init. -/
def maskOf : List Record → ℕ → BitVec 64
  | [], _ => 0
  | .traced i a0::log, k => if i = k then (a0.setWidth 32).signExtend 64 else maskOf log k
  | .forked np mask::log, k => if np = k then mask else maskOf log k

structure Recorded where
  table : Table
  log : List Record

def note (n : ℕ) (t : Table) : Event → List Record
  | .fork i memory =>
    match (allocproc n t memory).2 with
    | some np => [.forked np (t.proc i).traceMask]
    | none => []
  | .trace i a0 => [.traced i a0]
  | _ => []

def recordedStep (n : ℕ) (r : Recorded) (e : Event) : Except Unit Recorded :=
  (step n r.table e).map fun t => ⟨t,note n r.table e ++ r.log⟩

def start : Recorded := ⟨boot,[]⟩

def Live (p : Proc) : Prop := p.state = .runnable ∨ p.state = .running ∨ p.state = .sleeping

def Provenance (r : Recorded) : Prop :=
  ∀ k, Live (r.table.proc k) → (r.table.proc k).traceMask = maskOf r.log k

/-- An event changes the mask of a slot only as a trace call of the process in
it, or as the copying section of the fork that creates the process in it. -/
def OnlyOwnMask (n : ℕ) (r : Recorded) (e : Event) : Prop :=
  ∀ r', recordedStep n r e = .ok r' → ∀ k,
    (r'.table.proc k).traceMask = (r.table.proc k).traceMask ∨ (∃ a0, e = .trace k a0) ∨
      ∃ i, e = .copy i true ∧ (r.table.proc i).kfork = .copying k ∧
        (r.table.proc k).state = .used ∧
        (r'.table.proc k).traceMask = (r.table.proc i).traceMask

section Quiet

/-- What most kernel code leaves of an entry: its mask, its place in `kfork`,
and its being in the making or alive, unless it dies outside `kfork`. -/
structure Still (p p' : Proc) : Prop where
  mask : p'.traceMask = p.traceMask
  kfork : p'.kfork = p.kfork
  used : p'.state = .used ↔ p.state = .used
  born : Live p' → Live p
  kept : Live p → Live p' ∨ p.kfork = .idle

def Quiet (t t' : Table) : Prop := ∀ k, Still (t.proc k) (t'.proc k)

theorem still_refl (p : Proc) : Still p p := ⟨rfl,rfl,Iff.rfl,id,Or.inl⟩

theorem still_trans {p q r : Proc} (hq : Still p q) (hr : Still q r) : Still p r where
  mask := hr.mask.trans hq.mask
  kfork := hr.kfork.trans hq.kfork
  used := hr.used.trans hq.used
  born := fun h => hq.born (hr.born h)
  kept := fun h => (hq.kept h).elim
    (fun h' => (hr.kept h').imp_right fun hk => hq.kfork ▸ hk) Or.inr

theorem quiet_refl (t : Table) : Quiet t t := fun k => still_refl (t.proc k)

theorem quiet_trans {t u v : Table} (hu : Quiet t u) (hv : Quiet u v) : Quiet t v :=
  fun k => still_trans (hu k) (hv k)

theorem quiet_set {t : Table} {i : ℕ} {p : Proc} (h : Still (t.proc i) p) :
    Quiet t (t.set i p) := by
  intro k
  rw [set_proc]
  split
  · next hk => exact hk ▸ h
  · exact still_refl _

theorem still_of_eq {p p' : Proc} (hm : p'.traceMask = p.traceMask) (hf : p'.kfork = p.kfork)
    (hs : p'.state = p.state) : Still p p' where
  mask := hm
  kfork := hf
  used := by rw [hs]
  born := fun h => by simpa [Live,hs] using h
  kept := fun h => Or.inl (by simpa [Live,hs] using h)

theorem still_of_live {p p' : Proc} (hm : p'.traceMask = p.traceMask) (hf : p'.kfork = p.kfork)
    (hp : Live p) (hp' : Live p') : Still p p' where
  mask := hm
  kfork := hf
  used := by
    constructor
    · intro h
      simp [Live,h] at hp'
    · intro h
      simp [Live,h] at hp
  born := fun _ => hp
  kept := fun _ => Or.inl hp'

theorem still_freeproc {p : Proc} (hu : p.state ≠ .used) (hl : ¬ Live p) :
    Still p (freeproc p) where
  mask := rfl
  kfork := rfl
  used := by simp [freeproc,hu]
  born := fun h => by simp [Live,freeproc] at h
  kept := fun h => absurd h hl

theorem wakeup_quiet (n : ℕ) (t : Table) (me : Option ℕ) (chan : Option Chan) :
    Quiet t (wakeup n t me chan) := by
  intro k
  simp only [wakeup]
  split
  · next h => exact still_of_live rfl rfl (by simp [Live,h.2.2.1]) (by simp [Live])
  · exact still_refl _

theorem reparent_quiet (n : ℕ) (t : Table) (i : ℕ) : Quiet t (reparent n t i) := by
  rw [reparent]
  generalize List.range n = ks
  induction ks generalizing t with
  | nil => exact quiet_refl t
  | cons k ks ih =>
    rw [List.foldl_cons]
    apply quiet_trans _ (ih _)
    split
    · apply quiet_trans _ (wakeup_quiet n _ _ _)
      exact quiet_set (still_of_eq rfl rfl rfl)
    · exact quiet_refl t

theorem scan_test {n : ℕ} {t : Table} {test : Proc → Bool} {k : ℕ}
    (h : scan n t test = some k) : test (t.proc k) = true := by
  simpa using List.find?_some (p := fun i => test (t.proc i)) h

theorem kexit_quiet (n : ℕ) (t : Table) (i : ℕ) (status : BitVec 32)
    (hi : t.Calls i) : Quiet t (kexit n t i status) := by
  have h1 := reparent_quiet n t i
  have h2 := wakeup_quiet n (reparent n t i) (some i) (((reparent n t i).proc i).parent.map .proc)
  have h := still_trans (h1 i) (h2 i)
  apply quiet_trans (quiet_trans h1 h2)
  apply quiet_set
  constructor
  · rfl
  · rfl
  · simp [h.used,hi.1]
  · intro hz
    simp [Live] at hz
  · intro _
    exact Or.inr (h.kfork.trans hi.2)

theorem kwait_quiet (n : ℕ) (t : Table) (i : ℕ) (copied : Bool) (hi : t.Calls i) :
    Quiet t (kwait n t i copied).1 := by
  rw [kwait]
  split
  · next pp hs =>
    have hz := scan_test hs
    simp only [decide_eq_true_eq] at hz
    split
    · apply quiet_set
      exact still_freeproc (by simp [hz.2]) (by simp [Live,hz.2])
    · exact quiet_refl t
  · split
    · exact quiet_refl t
    · apply quiet_set
      exact still_of_live rfl rfl (by simp [Live,hi.1]) (by simp [Live])

theorem kkill_quiet (n : ℕ) (t : Table) (pid : BitVec 32) : Quiet t (kkill n t pid).1 := by
  rw [kkill]
  split
  · next k hs =>
    apply quiet_set
    by_cases hk : (t.proc k).state = .sleeping
    · exact still_of_live rfl rfl (by simp [Live,hk]) (by simp [Live,hk])
    · exact still_of_eq rfl rfl (by simp [hk])
  · exact quiet_refl t

theorem growproc_still {p q : Proc} {m : BitVec 32} {memory : Bool}
    (h : growproc p m memory = some q) : Still p q := by
  simp only [growproc] at h
  split_ifs at h <;> simp only [Option.some.injEq] at h <;> subst h
  all_goals exact still_of_eq rfl rfl rfl

theorem sysSbrk_quiet (t : Table) (i : ℕ) (m : BitVec 32) (eager memory : Bool) :
    Quiet t (sysSbrk t i m eager memory).1 := by
  simp only [sysSbrk]
  split
  · split
    · next q hq => exact quiet_set (growproc_still hq)
    · exact quiet_refl t
  · split
    · exact quiet_refl t
    · exact quiet_set (still_of_eq rfl rfl rfl)

theorem kexec_quiet (t : Table) (i : ℕ) (image : Option (String × BitVec 64)) :
    Quiet t (kexec t i image) := by
  cases image with
  | none => exact quiet_refl t
  | some v => exact quiet_set (still_of_eq rfl rfl rfl)

end Quiet

section Moves

def fresh (t : Table) (np : ℕ) : Proc :=
  { t.proc np with pid := t.nextpid, state := .used, kfork := .idle }

theorem allocproc_none {n : ℕ} {t : Table} {memory : Bool}
    (h : (allocproc n t memory).2 = none) : Quiet t (allocproc n t memory).1 := by
  revert h
  simp only [allocproc]
  split
  · intro _
    exact quiet_refl t
  · next np hs =>
    have hu := scan_test hs
    simp only [decide_eq_true_eq] at hu
    split
    · intro h
      simp at h
    · intro _ k
      simp only [set_proc]
      split
      · next hk =>
        subst hk
        exact ⟨rfl,rfl,by simp [freeproc,hu],by simp [Live,freeproc],by simp [Live,hu]⟩
      · exact still_refl _

theorem allocproc_some {n : ℕ} {t : Table} {memory : Bool} {np : ℕ}
    (h : (allocproc n t memory).2 = some np) :
    (t.proc np).state = .unused ∧
      (allocproc n t memory).1.proc = Function.update t.proc np (fresh t np) := by
  revert h
  simp only [allocproc]
  split
  · intro h
    simp at h
  · next p hs =>
    have hu := scan_test hs
    simp only [decide_eq_true_eq] at hu
    split
    · intro h
      simp only [Option.some.injEq] at h
      subst h
      exact ⟨hu,rfl⟩
    · intro h
      simp at h

inductive Moves (r : Recorded) : Event → Recorded → Prop
  | quiet {e : Event} {t : Table} : Quiet r.table t → Moves r e ⟨t,r.log⟩
  | trace (i : ℕ) (a0 : BitVec 64) : r.table.Calls i →
      Moves r (.trace i a0) ⟨(sysTrace r.table i a0).1,.traced i a0::r.log⟩
  | alloc (i np : ℕ) (memory : Bool) (t : Table) : r.table.Calls i →
      (r.table.proc np).state = .unused →
      t.proc = Function.update (Function.update r.table.proc np (fresh r.table np)) i
        { r.table.proc i with kfork := .copying np } →
      Moves r (.fork i memory) ⟨t,.forked np (r.table.proc i).traceMask::r.log⟩
  | copy (i np : ℕ) (memory : Bool) : (r.table.proc i).state = .running →
      (r.table.proc i).kfork = .copying np →
      Moves r (.copy i memory) ⟨kforkCopy r.table i np memory,r.log⟩
  | link (i np : ℕ) : (r.table.proc i).state = .running →
      (r.table.proc i).kfork = .linking np → Moves r (.link i) ⟨kforkLink r.table i np,r.log⟩
  | start (i np : ℕ) : (r.table.proc i).state = .running →
      (r.table.proc i).kfork = .starting np →
      Moves r (.start i) ⟨(kforkStart r.table i np).1,r.log⟩

theorem call_ok {t r t' : Table} {i : ℕ} (h : call t i r = .ok t') : t.Calls i ∧ t' = r := by
  rw [call] at h
  split at h
  · next hc => exact ⟨hc,(Except.ok.inj h).symm⟩
  · cases h

theorem fork_moves (n : ℕ) (r : Recorded) (i : ℕ) (memory : Bool) (hi : r.table.Calls i) :
    Moves r (.fork i memory)
      ⟨kforkAlloc n r.table i memory,note n r.table (.fork i memory) ++ r.log⟩ := by
  cases ha : (allocproc n r.table memory).2 with
  | none =>
    have hq := allocproc_none ha
    have hk : kforkAlloc n r.table i memory = (allocproc n r.table memory).1 := by
      rw [kforkAlloc]
      split
      · next t h => rw [h]
      · next t np h => simp [h] at ha
    rw [hk]
    simpa [note,ha] using Moves.quiet hq
  | some np =>
    obtain ⟨hu,hp⟩ := allocproc_some ha
    have hne : i ≠ np := by
      intro he
      simp [← he,hi.1] at hu
    have hk : (kforkAlloc n r.table i memory).proc =
        Function.update (Function.update r.table.proc np (fresh r.table np)) i
          { r.table.proc i with kfork := .copying np } := by
      rw [kforkAlloc]
      split
      · next t h => simp [h] at ha
      · next t np' h =>
        simp only [h,Option.some.injEq] at ha hp
        subst ha
        simp [Table.set,hp,hne]
    simpa [note,ha] using Moves.alloc i np memory _ hi hu hk

theorem recordedStep_moves {n : ℕ} {r r' : Recorded} {e : Event}
    (h : recordedStep n r e = .ok r') : Moves r e r' := by
  rw [recordedStep] at h
  cases hs : step n r.table e with
  | error _ => simp [hs,Except.map] at h
  | ok t =>
    simp only [hs,Except.map,Except.ok.injEq] at h
    subst h
    cases e with
    | fork i memory =>
      obtain ⟨hi,rfl⟩ := call_ok hs
      exact fork_moves n r i memory hi
    | copy i memory =>
      simp only [step] at hs
      split at hs
      · next np hr hk =>
        cases hs
        exact .copy i np memory hr hk
      · cases hs
    | link i =>
      simp only [step] at hs
      split at hs
      · next np hr hk =>
        cases hs
        exact .link i np hr hk
      · cases hs
    | start i =>
      simp only [step] at hs
      split at hs
      · next np hr hk =>
        cases hs
        exact .start i np hr hk
      · cases hs
    | exit i status =>
      simp only [step] at hs
      split at hs
      · cases hs
      · obtain ⟨hi,rfl⟩ := call_ok hs
        exact .quiet (kexit_quiet n r.table i status hi)
    | wait i copied =>
      obtain ⟨hi,rfl⟩ := call_ok hs
      exact .quiet (kwait_quiet n r.table i copied hi)
    | exec i image =>
      obtain ⟨-,rfl⟩ := call_ok hs
      exact .quiet (kexec_quiet r.table i image)
    | trace i a0 =>
      obtain ⟨hi,rfl⟩ := call_ok hs
      exact .trace i a0 hi
    | sbrk i m eager memory =>
      obtain ⟨-,rfl⟩ := call_ok hs
      exact .quiet (sysSbrk_quiet r.table i m eager memory)
    | kill i pid =>
      obtain ⟨-,rfl⟩ := call_ok hs
      exact .quiet (kkill_quiet n r.table pid)
    | fault i =>
      obtain ⟨-,rfl⟩ := call_ok hs
      exact .quiet (quiet_set (still_of_eq rfl rfl rfl))
    | other i =>
      obtain ⟨-,rfl⟩ := call_ok hs
      exact .quiet (quiet_refl _)
    | sleep i chan =>
      obtain ⟨hi,rfl⟩ := call_ok hs
      exact .quiet (quiet_set (still_of_live rfl rfl (by simp [Live,hi.1]) (by simp [Live])))
    | wakeup me chan =>
      cases hs
      exact .quiet (wakeup_quiet n r.table me (some chan))
    | yield i =>
      simp only [step] at hs
      split at hs
      · cases hs
      · next hr _ =>
        cases hs
        exact .quiet (quiet_set (still_of_live rfl rfl (by simp [Live,hr]) (by simp [Live])))
      · cases hs
    | schedule i =>
      simp only [step] at hs
      split at hs
      · next hr =>
        cases hs
        exact .quiet (quiet_set (still_of_live rfl rfl (by simp [Live,hr]) (by simp [Live])))
      · cases hs

end Moves

section Invariant

def child : Kfork → Option ℕ
  | .idle => none
  | .copying np => some np
  | .linking np => some np
  | .starting np => some np

/-- An entry in the making is USED and has one maker. From the allocation on
the history gives it the mask of its maker, which it has once it is copied. -/
structure Inv (r : Recorded) : Prop where
  used : ∀ i np, child (r.table.proc i).kfork = some np → (r.table.proc np).state = .used
  maker : ∀ i np, child (r.table.proc i).kfork = some np → Live (r.table.proc i)
  only : ∀ i j np, child (r.table.proc i).kfork = some np →
    child (r.table.proc j).kfork = some np → i = j
  copying : ∀ i np, (r.table.proc i).kfork = .copying np →
    maskOf r.log np = (r.table.proc i).traceMask
  copied : ∀ i np, child (r.table.proc i).kfork = some np →
    (r.table.proc i).kfork ≠ .copying np → (r.table.proc np).traceMask = maskOf r.log np
  live : Provenance r

theorem start_inv : Inv start := by
  have hk : ∀ i, (boot.proc i).kfork = .idle := by
    intro i
    simp only [boot]
    split <;> rfl
  have hm : ∀ i, (boot.proc i).traceMask = 0 := by
    intro i
    simp only [boot]
    split <;> rfl
  constructor
  · simp [start,hk,child]
  · simp [start,hk,child]
  · simp [start,hk,child]
  · simp [start,hk]
  · simp [start,hk,child]
  · intro k _
    exact hm k

theorem Inv.quiet {r : Recorded} {t : Table} (h : Inv r) (hq : Quiet r.table t) :
    Inv ⟨t,r.log⟩ where
  used := fun i np hi => (hq np).used.mpr (h.used i np ((hq i).kfork ▸ hi))
  maker := by
    intro i np hi
    have hi' : child (r.table.proc i).kfork = some np := (hq i).kfork ▸ hi
    rcases (hq i).kept (h.maker i np hi') with hl | hk
    · exact hl
    · simp [hk,child] at hi'
  only := fun i j np hi hj => h.only i j np ((hq i).kfork ▸ hi) ((hq j).kfork ▸ hj)
  copying := fun i np hi => (h.copying i np ((hq i).kfork ▸ hi)).trans (hq i).mask.symm
  copied := fun i np hi hc =>
    (hq np).mask.trans (h.copied i np ((hq i).kfork ▸ hi) ((hq i).kfork ▸ hc))
  live := fun k hk => (hq k).mask.trans (h.live k ((hq k).born hk))

theorem Inv.apart {r : Recorded} (h : Inv r) {i j np : ℕ} (hi : r.table.Calls i)
    (hj : child (r.table.proc j).kfork = some np) : j ≠ i ∧ np ≠ i := by
  constructor
  · intro he
    simp [he,hi.2,child] at hj
  · intro he
    have hu := h.used j np hj
    simp [he,hi.1] at hu

theorem Inv.trace {r : Recorded} (h : Inv r) (i : ℕ) (a0 : BitVec 64) (hi : r.table.Calls i) :
    Inv ⟨(sysTrace r.table i a0).1,.traced i a0::r.log⟩ := by
  have hk : ∀ j, ((sysTrace r.table i a0).1.proc j).kfork = (r.table.proc j).kfork := by
    intro j
    simp only [sysTrace,set_proc]
    split
    · next he => rw [he]
    · rfl
  have hs : ∀ j, ((sysTrace r.table i a0).1.proc j).state = (r.table.proc j).state := by
    intro j
    simp only [sysTrace,set_proc]
    split
    · next he => rw [he]
    · rfl
  have ho : ∀ j, j ≠ i → (sysTrace r.table i a0).1.proc j = r.table.proc j := by
    intro j hj
    exact set_other _ _ _ _ hj
  have hm : ∀ j, j ≠ i → maskOf (.traced i a0::r.log) j = maskOf r.log j := by
    intro j hj
    rw [maskOf,if_neg (Ne.symm hj)]
  constructor
  · intro j np hj
    rw [hk] at hj
    rw [hs]
    exact h.used j np hj
  · intro j np hj
    rw [hk] at hj
    rw [ho j (h.apart hi hj).1]
    exact h.maker j np hj
  · intro j l np hj hl
    rw [hk] at hj hl
    exact h.only j l np hj hl
  · intro j np hj
    rw [hk] at hj
    have hc : child (r.table.proc j).kfork = some np := by rw [hj,child]
    rw [hm np (h.apart hi hc).2,ho j (h.apart hi hc).1]
    exact h.copying j np hj
  · intro j np hj hc
    rw [hk] at hj hc
    rw [hm np (h.apart hi hj).2,ho np (h.apart hi hj).2]
    exact h.copied j np hj hc
  · intro j hj
    by_cases hji : j = i
    · subst hji
      simp [sysTrace,maskOf,ofInt,argint]
    · rw [ho j hji] at hj ⊢
      rw [hm j hji]
      exact h.live j hj

/-- A section of `kfork` takes the maker `i` to `p` and its entry `np` to `q`,
and the history changes at most for that entry. -/
structure Forking (r r' : Recorded) (i np : ℕ) (p q : Proc) : Prop where
  running : (r.table.proc i).state = .running
  unborn : ¬ Live (r.table.proc np)
  sole : ∀ j, j ≠ i → child (r.table.proc j).kfork ≠ some np
  table : r'.table.proc = Function.update (Function.update r.table.proc np q) i p
  log : ∀ k, k ≠ np → maskOf r'.log k = maskOf r.log k
  runs : p.state = .running
  mask : p.traceMask = (r.table.proc i).traceMask
  onward : ∀ m, child p.kfork = some m → m = np ∧ q.state = .used ∧
    if p.kfork = .copying np then maskOf r'.log np = p.traceMask
    else q.traceMask = maskOf r'.log np
  idle : child q.kfork = none
  born : Live q → q.traceMask = maskOf r'.log np

namespace Forking

variable {r r' : Recorded} {i np : ℕ} {p q : Proc}

theorem maker (f : Forking r r' i np p q) : r'.table.proc i = p := by simp [f.table]

theorem entry (f : Forking r r' i np p q) : r'.table.proc np = q := by
  have hne : np ≠ i := by
    intro he
    exact f.unborn (Or.inr (Or.inl (he ▸ f.running)))
  simp [f.table,hne]

theorem other (f : Forking r r' i np p q) {k : ℕ} (hi : k ≠ i) (hn : k ≠ np) :
    r'.table.proc k = r.table.proc k := by
  simp [f.table,hi,hn]

/-- A fork under way is this one, or one of before with another maker and
another entry. -/
theorem children (f : Forking r r' i np p q) (h : Inv r) {j m : ℕ}
    (hj : child (r'.table.proc j).kfork = some m) : (j = i ∧ m = np) ∨
      (child (r.table.proc j).kfork = some m ∧ j ≠ i ∧ j ≠ np ∧ m ≠ i ∧ m ≠ np) := by
  by_cases hji : j = i
  · subst hji
    rw [f.maker] at hj
    exact Or.inl ⟨rfl,(f.onward m hj).1⟩
  · by_cases hjn : j = np
    · rw [hjn,f.entry,f.idle] at hj
      simp at hj
    · rw [f.other hji hjn] at hj
      have hm := h.used j m hj
      have hmi : m ≠ i := by
        intro he
        simp [he,f.running] at hm
      have hmn : m ≠ np := by
        intro he
        exact f.sole j hji (he ▸ hj)
      exact Or.inr ⟨hj,hji,hjn,hmi,hmn⟩

theorem provenance (f : Forking r r' i np p q) (h : Inv r) : Provenance r' := by
  intro k hk
  by_cases hkn : k = np
  · subst hkn
    rw [f.entry] at hk ⊢
    exact f.born hk
  · rw [f.log k hkn]
    by_cases hki : k = i
    · subst hki
      rw [f.maker,f.mask]
      exact h.live k (Or.inr (Or.inl f.running))
    · rw [f.other hki hkn] at hk ⊢
      exact h.live k hk

theorem inv (f : Forking r r' i np p q) (h : Inv r) : Inv r' where
  used := by
    intro j m hj
    rcases f.children h hj with ⟨rfl,rfl⟩ | ⟨hj',-,-,hmi,hmn⟩
    · rw [f.maker] at hj
      rw [f.entry]
      exact (f.onward m hj).2.1
    · rw [f.other hmi hmn]
      exact h.used j m hj'
  maker := by
    intro j m hj
    rcases f.children h hj with ⟨rfl,-⟩ | ⟨hj',hji,hjn,-,-⟩
    · rw [f.maker]
      exact Or.inr (Or.inl f.runs)
    · rw [f.other hji hjn]
      exact h.maker j m hj'
  only := by
    intro j j₂ m hj hj₂
    rcases f.children h hj with ⟨rfl,rfl⟩ | ⟨hj',-,-,-,hmn⟩
    · rcases f.children h hj₂ with ⟨rfl,-⟩ | ⟨-,-,-,-,hmn⟩
      · rfl
      · exact absurd rfl hmn
    · rcases f.children h hj₂ with ⟨-,rfl⟩ | ⟨hj₂',-,-,-,-⟩
      · exact absurd rfl hmn
      · exact h.only j j₂ m hj' hj₂'
  copying := by
    intro j m hj
    have hc : child (r'.table.proc j).kfork = some m := by rw [hj,child]
    rcases f.children h hc with ⟨rfl,rfl⟩ | ⟨-,hji,hjn,-,hmn⟩
    · rw [f.maker] at hj hc ⊢
      have hm := (f.onward m hc).2.2
      rwa [if_pos hj] at hm
    · rw [f.other hji hjn] at hj ⊢
      rw [f.log m hmn]
      exact h.copying j m hj
  copied := by
    intro j m hj hc
    rcases f.children h hj with ⟨rfl,rfl⟩ | ⟨hj',hji,hjn,hmi,hmn⟩
    · rw [f.maker] at hj hc
      have hm := (f.onward m hj).2.2
      rw [if_neg hc] at hm
      rw [f.entry,hm]
    · rw [f.other hji hjn] at hc
      rw [f.other hmi hmn,f.log m hmn]
      exact h.copied j m hj' hc
  live := f.provenance h

end Forking

theorem Inv.alloc {r : Recorded} (h : Inv r) (i np : ℕ) (t : Table) (hi : r.table.Calls i)
    (hu : (r.table.proc np).state = .unused)
    (ht : t.proc = Function.update (Function.update r.table.proc np (fresh r.table np)) i
      { r.table.proc i with kfork := .copying np }) :
    Inv ⟨t,.forked np (r.table.proc i).traceMask::r.log⟩ := by
  have f : Forking r ⟨t,.forked np (r.table.proc i).traceMask::r.log⟩ i np
      { r.table.proc i with kfork := .copying np } (fresh r.table np) :=
    { running := hi.1
      unborn := by simp [Live,hu]
      sole := by
        intro j _ hc
        have hm := h.used j np hc
        simp [hu] at hm
      table := ht
      log := by
        intro k hk
        rw [maskOf,if_neg (Ne.symm hk)]
      runs := hi.1
      mask := rfl
      onward := by
        intro m hm
        simp only [child,Option.some.injEq] at hm
        simp [hm,fresh,maskOf]
      idle := rfl
      born := by simp [Live,fresh] }
  exact f.inv h

/-- The sections of `kfork` after the allocation leave the history alone. -/
theorem Inv.later {r : Recorded} (h : Inv r) {i np : ℕ} {p q : Proc}
    (hi : (r.table.proc i).state = .running) (hk : child (r.table.proc i).kfork = some np)
    (hps : p.state = .running) (hpm : p.traceMask = (r.table.proc i).traceMask)
    (hp : ∀ m, child p.kfork = some m → m = np ∧ q.state = .used ∧ p.kfork ≠ .copying np)
    (hqk : q.kfork = (r.table.proc np).kfork)
    (hq : q.state ≠ .unused → q.traceMask = maskOf r.log np) :
    Inv ⟨(r.table.set np q).set i p,r.log⟩ := by
  have hn : ¬ Live (r.table.proc np) := by simp [Live,h.used i np hk]
  have f : Forking r ⟨(r.table.set np q).set i p,r.log⟩ i np p q :=
    { running := hi
      unborn := hn
      sole := fun j hj hc => hj (h.only j i np hc hk)
      table := rfl
      log := fun _ _ => rfl
      runs := hps
      mask := hpm
      onward := by
        intro m hm
        obtain ⟨hmn,hqs,hc⟩ := hp m hm
        rw [if_neg hc]
        exact ⟨hmn,hqs,hq (by simp [hqs])⟩
      idle := by
        cases hc : child q.kfork with
        | none => rfl
        | some m => exact absurd (h.maker np m (hqk ▸ hc)) hn
      born := by
        intro hl
        apply hq
        intro hs
        simp [Live,hs] at hl }
  exact f.inv h

theorem Inv.ne {r : Recorded} (h : Inv r) {i np : ℕ} (hi : (r.table.proc i).state = .running)
    (hk : child (r.table.proc i).kfork = some np) : i ≠ np := by
  intro he
  have hu := h.used i np hk
  simp [← he,hi] at hu

theorem Inv.copy {r : Recorded} (h : Inv r) (i np : ℕ) (memory : Bool)
    (hi : (r.table.proc i).state = .running) (hk : (r.table.proc i).kfork = .copying np) :
    Inv ⟨kforkCopy r.table i np memory,r.log⟩ := by
  have hc : child (r.table.proc i).kfork = some np := by rw [hk,child]
  cases memory with
  | false =>
    simp only [kforkCopy,Bool.false_eq_true,if_false,set_other _ _ _ _ (h.ne hi hc)]
    apply h.later hi hc
    · exact hi
    · rfl
    · simp [child]
    · rfl
    · simp [freeproc]
  | true =>
    simp only [kforkCopy,if_true,set_other _ _ _ _ (h.ne hi hc)]
    apply h.later hi hc
    · exact hi
    · rfl
    · intro m hm
      exact ⟨(Option.some.inj hm).symm,h.used i np hc,by simp⟩
    · rfl
    · intro _
      exact (h.copying i np hk).symm

theorem Inv.link {r : Recorded} (h : Inv r) (i np : ℕ)
    (hi : (r.table.proc i).state = .running) (hk : (r.table.proc i).kfork = .linking np) :
    Inv ⟨kforkLink r.table i np,r.log⟩ := by
  have hc : child (r.table.proc i).kfork = some np := by rw [hk,child]
  simp only [kforkLink,set_other _ _ _ _ (h.ne hi hc)]
  apply h.later hi hc
  · exact hi
  · rfl
  · intro m hm
    exact ⟨(Option.some.inj hm).symm,h.used i np hc,by simp⟩
  · rfl
  · intro _
    exact h.copied i np hc (by simp [hk])

theorem Inv.start {r : Recorded} (h : Inv r) (i np : ℕ)
    (hi : (r.table.proc i).state = .running) (hk : (r.table.proc i).kfork = .starting np) :
    Inv ⟨(kforkStart r.table i np).1,r.log⟩ := by
  have hc : child (r.table.proc i).kfork = some np := by rw [hk,child]
  simp only [kforkStart,set_other _ _ _ _ (h.ne hi hc)]
  apply h.later hi hc
  · exact hi
  · rfl
  · simp [child]
  · rfl
  · intro _
    exact h.copied i np hc (by simp [hk])

theorem recordedStep_inv {n : ℕ} {r r' : Recorded} {e : Event} (h : Inv r)
    (hs : recordedStep n r e = .ok r') : Inv r' := by
  cases recordedStep_moves hs with
  | quiet hq => exact h.quiet hq
  | trace i a0 hi => exact h.trace i a0 hi
  | alloc i np memory t hi hu ht => exact h.alloc i np t hi hu ht
  | copy i np memory hi hk => exact h.copy i np memory hi hk
  | link i np hi hk => exact h.link i np hi hk
  | start i np hi hk => exact h.start i np hi hk

theorem masks_kept {t : Table} {i np k : ℕ} {p q : Proc}
    (hp : p.traceMask = (t.proc i).traceMask)
    (hq : k = np → q.traceMask = (t.proc np).traceMask) :
    (((t.set np q).set i p).proc k).traceMask = (t.proc k).traceMask := by
  by_cases hi : k = i
  · rw [hi,set_same,hp]
  · rw [set_other _ _ _ _ hi]
    by_cases hn : k = np
    · rw [hn,set_same,hq hn]
    · rw [set_other _ _ _ _ hn]

theorem onlyOwnMask_of_inv (n : ℕ) {r : Recorded} (e : Event) (h : Inv r) : OnlyOwnMask n r e := by
  intro r' hs k
  cases recordedStep_moves hs with
  | quiet hq => exact Or.inl (hq k).mask
  | trace i a0 _ =>
    by_cases hk : k = i
    · rw [hk]
      exact Or.inr (Or.inl ⟨a0,rfl⟩)
    · apply Or.inl
      rw [sysTrace,set_other _ _ _ _ hk]
  | alloc i np memory t _ _ ht =>
    have hm : (((r.table.set np (fresh r.table np)).set i
        { r.table.proc i with kfork := .copying np }).proc k).traceMask =
        (r.table.proc k).traceMask := masks_kept rfl fun _ => rfl
    apply Or.inl
    rw [ht]
    exact hm
  | copy i np memory hi hk =>
    have hc : child (r.table.proc i).kfork = some np := by rw [hk,child]
    cases memory with
    | false =>
      simp only [kforkCopy,Bool.false_eq_true,if_false,set_other _ _ _ _ (h.ne hi hc)]
      exact Or.inl (masks_kept rfl fun _ => rfl)
    | true =>
      simp only [kforkCopy,if_true,set_other _ _ _ _ (h.ne hi hc)]
      by_cases hkn : k = np
      · subst hkn
        apply Or.inr ∘ Or.inr
        refine ⟨i,rfl,hk,h.used i k hc,?_⟩
        rw [set_other _ _ _ _ (h.ne hi hc).symm,set_same]
      · exact Or.inl (masks_kept rfl fun he => absurd he hkn)
  | link i np hi hk =>
    have hc : child (r.table.proc i).kfork = some np := by rw [hk,child]
    simp only [kforkLink,set_other _ _ _ _ (h.ne hi hc)]
    exact Or.inl (masks_kept rfl fun _ => rfl)
  | start i np hi hk =>
    have hc : child (r.table.proc i).kfork = some np := by rw [hk,child]
    simp only [kforkStart,set_other _ _ _ _ (h.ne hi hc)]
    exact Or.inl (masks_kept rfl fun _ => rfl)

end Invariant

/-- Provenance of trace masks, over every run from the table with init alone
and any order of events: every process that is RUNNABLE, RUNNING or SLEEPING
has the mask that the history gives to it, and no event but a trace call of
its own changes the mask of a process that has been created. -/
theorem masks_have_provenance (n : ℕ) (events : List Event) :
    Always (Accepts (recordedStep n)) Provenance start events ∧
      Each (Accepts (recordedStep n)) (OnlyOwnMask n) start events := by
  have hinv : ∀ r, Reach (Accepts (recordedStep n)) (fun _ _ => True) start r → Inv r := by
    intro r hr
    exact hr.invariant start_inv fun _ _ _ h _ hs => recordedStep_inv h hs
  have hall := each_of_forall (R := Accepts (recordedStep n)) (Q := fun _ _ => True)
    (fun _ _ => trivial) events start
  constructor
  · exact always_of_reach (fun r hr => (hinv r hr).live) events start .start hall
  · exact each_of_reach (fun r e hr _ => onlyOwnMask_of_inv n e (hinv r hr)) events start .start
      hall

/-- Init traces, its child traces, exits and is waited for, and two more forks
get the slot with the dead child's mask still in it, the first without memory. -/
def reuse : List Event :=
  [.schedule 0,.trace 0 32,.fork 0 true,.copy 0 true,.link 0,.start 0,.schedule 1,
    .trace 1 0xFFFFFFFF,.exit 1 0,.wait 0 true,.fork 0 true,.copy 0 false,
    .fork 0 true,.copy 0 true,.link 0,.start 0]

theorem masks_have_provenance_reuse :
    ((lastState (recordedStep 2) start (reuse.take 10)).table.proc 1).traceMask =
      0xFFFFFFFFFFFFFFFF ∧
    ((lastState (recordedStep 2) start reuse).table.proc 1).traceMask = 32 ∧
    Always (Accepts (recordedStep 2)) Provenance start reuse :=
  ⟨by decide +kernel,by decide +kernel,(masks_have_provenance 2 reuse).1⟩

end ListlibSyscalls.TraceMask
