import Mathlib.Data.Nat.Prime.Basic
import Mathlib.Tactic

/-!
# Sieving by repeated filters

A chain of filters keeps the first number it receives and passes on the later
ones it does not divide. `layer` is what the filters up to a level let
through, `kept` what the filters of a stream keep. On the numbers from 2 to a
bound, taken in order, the numbers kept are the primes up to the bound.
-/

set_option autoImplicit false

namespace ListlibSyscalls.FilterSieve

def passed : List ℕ → List ℕ
  | [] => []
  | p::xs => xs.filter fun x => x % p ≠ 0

theorem passed_length_lt (p : ℕ) (xs : List ℕ) : (passed (p::xs)).length < (p::xs).length := by
  have h := List.length_filter_le (fun x => decide (x % p ≠ 0)) xs
  simp only [passed,List.length_cons]
  omega

def kept : List ℕ → List ℕ
  | [] => []
  | p::xs => p::kept (passed (p::xs))
termination_by xs => xs.length
decreasing_by exact passed_length_lt p xs

theorem kept_nil : kept [] = [] := by rw [kept]

theorem kept_cons (p : ℕ) (xs : List ℕ) : kept (p::xs) = p::kept (passed (p::xs)) := by rw [kept]

def layer (xs : List ℕ) : ℕ → List ℕ
  | 0 => xs
  | k+1 => passed (layer xs k)

def upFrom (n i : ℕ) : List ℕ := List.range' i (n+1-i)

theorem upFrom_nil {n i : ℕ} (h : n < i) : upFrom n i = [] := by
  have h0 : n+1-i = 0 := by omega
  rw [upFrom,h0,List.range'_zero]

theorem upFrom_cons {n i : ℕ} (h : i ≤ n) : upFrom n i = i::upFrom n (i+1) := by
  have h1 : n+1-i = (n+1-(i+1))+1 := by omega
  rw [upFrom,h1,List.range'_succ,upFrom]

def primesUpTo (n : ℕ) : List ℕ := (upFrom n 2).filter Nat.Prime

def Rough (b x : ℕ) : Prop := ∀ q, q.Prime → q < b → ¬ q ∣ x

instance (b x : ℕ) : Decidable (Rough b x) :=
  decidable_of_iff (∀ q < b, q.Prime → ¬ q ∣ x)
    ⟨fun h q hq hb => h q hb hq,fun h q hb hq => h q hq hb⟩

theorem rough_two (x : ℕ) : Rough 2 x := by
  intro q hq hb
  have := hq.two_le
  omega

theorem rough_prime {p : ℕ} (hp : p.Prime) : Rough p p := by
  intro q hq hb hd
  have := (Nat.prime_dvd_prime_iff_eq hq hp).mp hd
  omega

theorem not_rough {b : ℕ} (hb : 2 ≤ b) (hp : ¬ b.Prime) : ¬ Rough b b := by
  intro h
  have hf : b.minFac.Prime := Nat.minFac_prime (by omega)
  have hlt : b.minFac < b := (Nat.not_prime_iff_minFac_lt hb).mp hp
  exact h b.minFac hf hlt (Nat.minFac_dvd b)

theorem rough_succ_prime {p : ℕ} (hp : p.Prime) (x : ℕ) : Rough (p+1) x ↔ Rough p x ∧ x % p ≠ 0 := by
  constructor
  · intro h
    refine ⟨fun q hq hb => h q hq (by omega),?_⟩
    intro h0
    exact h p hp (by omega) (Nat.dvd_of_mod_eq_zero h0)
  · rintro ⟨h,h0⟩ q hq hb hd
    by_cases hqp : q = p
    · subst hqp
      exact h0 (Nat.mod_eq_zero_of_dvd hd)
    · exact h q hq (by omega) hd

theorem rough_succ_composite {b : ℕ} (hp : ¬ b.Prime) (x : ℕ) : Rough (b+1) x ↔ Rough b x := by
  constructor
  · intro h q hq hb
    exact h q hq (by omega)
  · intro h q hq hb
    have hqb : q ≠ b := fun e => hp (e ▸ hq)
    exact h q hq (by omega)

/-- What is left of the numbers from `b` on when every smaller prime has been
filtered out leads to the primes from `b` on. -/
theorem kept_rough (n b : ℕ) (hb : 2 ≤ b) :
    kept ((upFrom n b).filter (Rough b)) = (upFrom n b).filter Nat.Prime := by
  generalize hk : n+1-b = k
  induction k generalizing b with
  | zero =>
    rw [upFrom_nil (by omega)]
    simp [kept_nil]
  | succ k ih =>
    rw [upFrom_cons (by omega)]
    have hnext := ih (b+1) (by omega) (by omega)
    by_cases hp : b.Prime
    · have hsame : passed (b::(upFrom n (b+1)).filter (Rough b)) =
          (upFrom n (b+1)).filter (Rough (b+1)) := by
        rw [passed,List.filter_filter]
        apply List.filter_congr
        intro x _
        simp [rough_succ_prime hp,and_comm]
      rw [List.filter_cons_of_pos (by simpa using rough_prime hp),
        List.filter_cons_of_pos (by simpa using hp),kept_cons,hsame,hnext]
    · have hsame : (upFrom n (b+1)).filter (Rough b) = (upFrom n (b+1)).filter (Rough (b+1)) := by
        apply List.filter_congr
        intro x _
        simp [rough_succ_composite hp]
      rw [List.filter_cons_of_neg (by simpa using not_rough hb hp),
        List.filter_cons_of_neg (by simpa using hp),hsame,hnext]

theorem kept_upFrom (n : ℕ) : kept (upFrom n 2) = primesUpTo n := by
  have h : (upFrom n 2).filter (Rough 2) = upFrom n 2 := by
    rw [List.filter_eq_self]
    intro x _
    simpa using rough_two x
  rw [← h,kept_rough n 2 (le_refl 2),primesUpTo]

end ListlibSyscalls.FilterSieve
