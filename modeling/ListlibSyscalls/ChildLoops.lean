import Mathlib.Data.Nat.Notation
import Mathlib.Tactic.TypeStar

/-!
# Parents that loop over their children

What the parent programs have in common: loops with one round for each child, and
steps of one child that leave the other children alone.
-/

set_option autoImplicit false

namespace ListlibSyscalls.ChildLoops

section Loops

variable {π : Type*} (n i : ℕ) (loop : ℕ → π) (exit : π)

/-- The next round of a loop over `n` children, or what follows it. -/
def following : π := if i+1 < n then loop (i+1) else exit

theorem following_cases : (i+1 < n ∧ following n i loop exit = loop (i+1)) ∨
    (n ≤ i+1 ∧ following n i loop exit = exit) := by
  by_cases h : i+1 < n
  · exact .inl ⟨h,if_pos h⟩
  · exact .inr ⟨Nat.le_of_not_lt h,if_neg h⟩

variable {n i loop exit}

theorem forall_following {P : π → Prop} (hl : i+1 < n → P (loop (i+1))) (he : n ≤ i+1 → P exit) :
    P (following n i loop exit) := by
  rcases following_cases n i loop exit with ⟨hlt,h⟩|⟨hle,h⟩
  · rw [h]
    exact hl hlt
  · rw [h]
    exact he hle

end Loops

section Parts

variable {δ : Type*} {i : ℕ} {part part' : ℕ → δ}

/-- No part but that of child `i` differs. -/
def OnlyChild (i : ℕ) (part part' : ℕ → δ) : Prop := ∀ j, j ≠ i → part' j = part j

theorem OnlyChild.forall {P : ℕ → δ → Prop} (ho : OnlyChild i part part') (h : ∀ j, P j (part j))
    (hi : P i (part' i)) (j : ℕ) : P j (part' j) := by
  by_cases hj : j = i
  · rw [hj]
    exact hi
  · rw [ho j hj]
    exact h j

/-- What is not true of child `i` stays true of the others. -/
theorem OnlyChild.keep {P : δ → Prop} (ho : OnlyChild i part part') (hi : ¬ P (part i)) {j : ℕ}
    (h : P (part j)) : P (part' j) := by
  have hj : j ≠ i := by
    intro e
    rw [e] at h
    exact hi h
  rw [ho j hj]
  exact h

end Parts

end ListlibSyscalls.ChildLoops
