import ListlibSyscalls.SievePreserved

/-!
# The sieve prints the primes under every scheduling

Only the last process prints, and the next one is not created before its line
is complete. So the output grows by one line a process, in the order of the
processes, and it is complete when the last process has found its input
empty. A process exits after its child, so `main` exits after all of them.
-/

set_option autoImplicit false

namespace ListlibSyscalls.SieveOutput
open FilterSieve StepRuns SieveMachine SieveInvariant SievePreserved

variable {c : Config} {F : ℕ → List ℕ} {s : State}

def primeLines (n : ℕ) : List Char := (primesUpTo n).flatMap line

theorem text_kept (n : ℕ) : text (kept (upFrom n 2)) = primeLines n := by
  rw [kept_upFrom]
  rfl

/-- The exit of a process has been preceded by the exits of all later ones. -/
theorem exited_all (hi : Inv c F s) (h0 : Exited s 0) : ∀ k < s.nproc, Exited s k := by
  intro k hk
  induction k with
  | zero => exact h0
  | succ k ih =>
    have hb := hi.buried k (by omega) (ih (by omega))
    have ht := hi.tended k hk
    rw [Tended,if_pos hb.1] at ht
    rw [Exited,ht.1]
    decide

/-- In every state of every interleaving the output is a part of the prime
lines from their beginning, and all of them when `main` has exited, which is
after every other process. -/
theorem prints_the_primes (c : Config) (s : State) (hr : CleanlyReached c s) :
    s.out <+: primeLines c.bound ∧
    (Exited s 0 → s.out = primeLines c.bound ∧ ∀ k < s.nproc, Exited s k) := by
  obtain ⟨⟨F,hi⟩,hc⟩ := cleanlyReached_inv hr
  obtain ⟨m,hm⟩ : ∃ m, m+1 = s.nproc := ⟨s.nproc-1,Nat.sub_add_cancel hi.main⟩
  have hp := hi.printed m hm (hc m hm)
  rw [text_kept] at hp
  refine ⟨⟨_,hp⟩,?_⟩
  intro h0
  have hall := exited_all hi h0
  have hb := hi.buried m (by omega) (hall m (by omega))
  have hnone : unprinted (upFrom c.bound 2) m .exit = [] := rfl
  rw [hb.1,hnone,List.append_nil] at hp
  exact ⟨hp,hall⟩

def schedule : List Turn :=
  [(0,6),(1,18),(2,16),(3,4),(2,2),(1,2),(0,2)].flatMap fun (k,n) => List.replicate n (.run k)

def finished : State := lastState (step (xv6 3 three_lt)) start schedule

theorem prints_the_primes_finished :
    CleanlyReached (xv6 3 three_lt) finished ∧ Exited finished 0 ∧
    finished.out = primeLines 3 ∧ finished.nproc = 4 ∧ ∀ k < finished.nproc, Exited finished k := by
  have hr : CleanlyReached (xv6 3 three_lt) finished :=
    Reach.start.lastState schedule start (by decide +kernel)
  have h0 : Exited finished 0 := by decide +kernel
  obtain ⟨hout,hall⟩ := (prints_the_primes (xv6 3 three_lt) finished hr).2 h0
  exact ⟨hr,h0,hout,by decide +kernel,hall⟩

end ListlibSyscalls.SieveOutput
