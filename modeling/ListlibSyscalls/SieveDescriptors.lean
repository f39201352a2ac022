import ListlibSyscalls.SieveProgress

/-!
# The descriptors of a sieve process

A child closes the write end it has inherited but not its parent's `read_fd`,
which is as useless to it. Stage `k` therefore holds the read ends of all
earlier pipes when it creates the next one: the first stage holds its own
descriptor only, the second one more, and so on, until `pipe` has no two
descriptors left.
-/

set_option autoImplicit false

namespace ListlibSyscalls.SieveDescriptors
open FilterSieve StepRuns SieveMachine SieveInvariant SievePreserved

variable {c : Config} {F : ℕ → List ℕ} {s : State} {k : ℕ}

def AboutToPipe (s : State) (k : ℕ) : Prop :=
  1 ≤ k ∧ s.Running k ∧ (s.proc k).pc = .pipe

instance (s : State) (k : ℕ) : Decidable (AboutToPipe s k) :=
  inferInstanceAs (Decidable (_ ∧ _))

/-- Nothing is open but the standard descriptors and the stage's own input. -/
def OnlyOwn (s : State) (k : ℕ) : Prop :=
  ∀ fd, (s.proc k).ofile fd ≠ none ↔ fd = 0 ∨ fd = 1 ∨ fd = 2 ∨ fd = (s.proc k).readFd

def PipeFails (c : Config) (s : State) (k : ℕ) : Prop :=
  pipeFds c (s.proc k).ofile s.npipe = none

/-- In every state of every interleaving, whether or not forks fail, no stage
has an extra descriptor and `pipe` finds the two it needs. -/
def Bounded (c : Config) : Prop :=
  ∀ s, Reached c s → ∀ k, AboutToPipe s k → OnlyOwn s k ∧ ¬ PipeFails c s k

theorem stage_descriptors (hi : Inv c F s) (ha : AboutToPipe s k) :
    (∀ fd, (s.proc k).ofile fd ≠ none ↔ fd < k+3) ∧ (s.proc k).readFd = k+2 ∧
    (PipeFails c s k ↔ c.nofile ≤ k+4) := by
  obtain ⟨hk,hr,hpc⟩ := ha
  obtain ⟨htab,hv⟩ := hi.placed k hr.1 hr.2
  simp only [Vars,hpc] at hv
  rw [hpc] at htab
  have htab' : (s.proc k).ofile = table k (own k) none none := htab
  refine ⟨?_,?_,?_⟩
  · intro fd
    rw [htab']
    simp only [table,own]
    split_ifs with h1 h2 h3
    · exact iff_of_true (by simp) (by omega)
    · exact iff_of_true (by simp) (by omega)
    · exact iff_of_true (by simp) (by omega)
    all_goals exact iff_of_false (by simp) (by omega)
  · rcases hv with hv | hv
    · omega
    · exact hv.2.2
  · rw [PipeFails,htab',pipeFds_table]
    split_ifs with hroom
    · exact iff_of_false (by simp) (by omega)
    · exact iff_of_true rfl (by omega)

theorem layer_nil {xs : List ℕ} {j : ℕ} (h : layer xs j = []) (i : ℕ) : layer xs (j+i) = [] := by
  induction i with
  | zero => exact h
  | succ i ih =>
    rw [← Nat.add_assoc,layer,ih]
    rfl

theorem two_single_stage (hb : c.bound = 2) (hi : Inv c F s) (ha : AboutToPipe s k) : k = 1 := by
  obtain ⟨hk,hr,hpc⟩ := ha
  obtain ⟨j,rfl⟩ : ∃ j, k = j+1 := ⟨k-1,by omega⟩
  have hf := hi.flow j hr.1
  rw [SieveFlow,hpc] at hf
  have h1 : layer (upFrom 2 2) 1 = [] := by decide
  by_contra hne
  have hj := layer_nil h1 (j-1)
  rw [show 1+(j-1) = j by omega] at hj
  have hcons := hf.1
  rw [hb,hj] at hcons
  simp at hcons

theorem bounded_two (h2 : 2 < 2^31-1) : Bounded (xv6 2 h2) := by
  intro s hr k ha
  obtain ⟨F,hi⟩ := reached_inv hr
  obtain ⟨hopen,hfd,hfail⟩ := stage_descriptors hi ha
  obtain rfl := two_single_stage rfl hi ha
  constructor
  · intro fd
    rw [hopen fd,hfd]
    omega
  · rw [hfail]
    show ¬ 16 ≤ 1+4
    decide

/-- Program points at which no number above 3 is at stake. -/
def belowThree : Pc → Bool
  | .feed i => i ≤ 3
  | _ => true

/-- Turns that are the same for every bound from 3 on. -/
def BelowThree (s : State) : Turn → Prop
  | .run k => belowThree (s.proc k).pc = true
  | .forkFails _ => True

instance (s : State) (t : Turn) : Decidable (BelowThree s t) :=
  match t with
  | .run _ => inferInstanceAs (Decidable (_ = _))
  | .forkFails _ => inferInstanceAs (Decidable True)

section Larger

variable {n : ℕ} {hmax : n < 2^31-1}

theorem step_belowThree (hn : 3 ≤ n) (s : State) (t : Turn) (ht : BelowThree s t) :
    step (xv6 n hmax) s t = step (xv6 3 three_lt) s t := by
  cases t with
  | forkFails k => rfl
  | run k =>
    have hrun : runProc (xv6 n hmax) s k = runProc (xv6 3 three_lt) s k := by
      cases hpc : (s.proc k).pc with
      | feed i =>
        have hi : i ≤ 3 := by simpa [BelowThree,hpc,belowThree] using ht
        have h1 : i ≤ (xv6 n hmax).bound := le_trans hi hn
        have h2 : i ≤ (xv6 3 three_lt).bound := hi
        simp only [runProc,hpc,if_pos h1,if_pos h2]
        rfl
      | print rest => cases rest <;> simp only [runProc,hpc]
      | _ => simp only [runProc,hpc] <;> rfl
    simp only [step,hrun]

/-- A run for the bound 3 that stays below it is a run for every larger bound. -/
theorem reached_belowThree (hn : 3 ≤ n) (ts : List Turn) (s : State)
    (hr : Reached (xv6 n hmax) s) (hb : Each (Turns (xv6 3 three_lt)) BelowThree s ts) :
    Reached (xv6 n hmax) (lastState (step (xv6 3 three_lt)) s ts) := by
  induction ts generalizing s with
  | nil => exact hr
  | cons t ts ih =>
    rw [lastState]
    split
    · next s' hs =>
      have hs' : Turns (xv6 n hmax) s t s' := (step_belowThree hn s t hb.1).trans hs
      exact ih s' (hr.next trivial hs') (hb.2 s' hs)
    · exact hr

/-- `main` writes 2 and 3, and two stages print them. -/
def secondStage : State := lastState (step (xv6 3 three_lt)) start
  ([(0,5),(1,15),(2,10)].flatMap fun (k,n) => List.replicate n (.run k))

theorem secondStage_reached (hn : 3 ≤ n) : Reached (xv6 n hmax) secondStage :=
  reached_belowThree hn _ start .start (by decide +kernel)

theorem secondStage_open : AboutToPipe secondStage 2 ∧
    (secondStage.proc 2).ofile 3 = some (.readEnd 0) ∧ (secondStage.proc 2).readFd = 4 := by
  decide +kernel

theorem not_bounded_of_three (hn : 3 ≤ n) : ¬ Bounded (xv6 n hmax) := by
  intro h
  obtain ⟨ha,hfile,hfd⟩ := secondStage_open
  have ho := (h _ (secondStage_reached hn) 2 ha).1 3
  rw [hfile,hfd] at ho
  simp at ho

end Larger

/-- Stage `k` holds the descriptors below `k+3`, its own being the last, and
its `pipe` fails from stage 12 on. So no stage holds more than it needs only
when there is no second one. -/
theorem descriptors_bounded_iff (n : ℕ) (hn : 2 ≤ n) (hmax : n < 2^31-1) :
    (∀ s, Reached (xv6 n hmax) s → ∀ k, AboutToPipe s k →
      (∀ fd, (s.proc k).ofile fd ≠ none ↔ fd < k+3) ∧ (s.proc k).readFd = k+2 ∧
      (PipeFails (xv6 n hmax) s k ↔ 12 ≤ k)) ∧
    (Bounded (xv6 n hmax) ↔ n = 2) := by
  constructor
  · intro s hr k ha
    obtain ⟨F,hi⟩ := reached_inv hr
    obtain ⟨hopen,hfd,hfail⟩ := stage_descriptors hi ha
    refine ⟨hopen,hfd,hfail.trans ?_⟩
    show 16 ≤ k+4 ↔ 12 ≤ k
    omega
  · constructor
    · intro h
      by_contra hne
      exact not_bounded_of_three (by omega) h
    · rintro rfl
      exact bounded_two hmax

theorem descriptors_bounded_iff_two : 2 ≤ 2 ∧ Bounded (xv6 2 (by decide)) :=
  ⟨le_refl 2,(descriptors_bounded_iff 2 (le_refl 2) (by decide)).2.mpr rfl⟩

theorem inherited_descriptor : Reached (xv6 3 three_lt) secondStage ∧ AboutToPipe secondStage 2 ∧
    (secondStage.proc 2).ofile 3 = some (.readEnd 0) ∧ (secondStage.proc 2).readFd = 4 ∧
    ¬ Bounded (xv6 3 three_lt) :=
  ⟨secondStage_reached (le_refl 3),secondStage_open.1,secondStage_open.2.1,secondStage_open.2.2,
    not_bounded_of_three (le_refl 3)⟩

end ListlibSyscalls.SieveDescriptors
