import Mathlib.Data.Fintype.Card
import Mathlib.Data.Finset.Card
import Mathlib.Algebra.Order.BigOperators.Group.Finset
import Mathlib.Tactic

/-!
# Counting references

Finitely many holders each refer to at most one thing. When one holder changes
what it refers to, the count of the old thing goes down and that of the new one
goes up by one.
-/

set_option autoImplicit false

namespace ListlibSyscalls.CountedRefs

variable {ι κ : Type*} [Fintype ι] [DecidableEq κ]

/-- The number of holders that refer to `x`. -/
def tally (f : ι → Option κ) (x : κ) : ℕ := (Finset.univ.filter fun i => f i = some x).card

theorem tally_update [DecidableEq ι] (f : ι → Option κ) (i : ι) (o : Option κ) (x : κ) :
    tally (Function.update f i o) x+(if f i = some x then 1 else 0) =
      tally f x+(if o = some x then 1 else 0) := by
  have hsplit : ∀ f : ι → Option κ, tally f x =
      ((Finset.univ.erase i).filter fun j => f j = some x).card+(if f i = some x then 1 else 0) := by
    intro f
    rw [tally,← Finset.insert_erase (Finset.mem_univ i),Finset.filter_insert]
    split
    · rw [Finset.card_insert_of_notMem (by simp)]
      simp
    · simp
  have hsame : ((Finset.univ.erase i).filter fun j => Function.update f i o j = some x) =
      (Finset.univ.erase i).filter fun j => f j = some x := by
    apply Finset.filter_congr
    intro j hj
    rw [Function.update_of_ne (Finset.ne_of_mem_erase hj)]
  rw [hsplit (Function.update f i o),hsplit f,hsame,Function.update_self]
  omega

theorem tally_pos {f : ι → Option κ} {i : ι} {x : κ} (h : f i = some x) : 0 < tally f x :=
  Finset.card_pos.mpr ⟨i,Finset.mem_filter.mpr ⟨Finset.mem_univ i,h⟩⟩

theorem tally_none (x : κ) : tally (fun _ : ι => none) x = 0 := by simp [tally]

theorem sum_update {σ : Type*} [DecidableEq ι] (g : σ → ℕ) (f : ι → σ) (i : ι) (x : σ) :
    (∑ j, g (Function.update f i x j))+g (f i) = (∑ j, g (f j))+g x := by
  have hsame : ∑ j ∈ Finset.univ.erase i, g (Function.update f i x j) =
      ∑ j ∈ Finset.univ.erase i, g (f j) := by
    apply Finset.sum_congr rfl
    intro j hj
    rw [Function.update_of_ne (Finset.ne_of_mem_erase hj)]
  rw [← Finset.add_sum_erase _ _ (Finset.mem_univ i),
    ← Finset.add_sum_erase Finset.univ (fun j => g (f j)) (Finset.mem_univ i),hsame,
    Function.update_self]
  omega

omit [Fintype ι] in
theorem sum_map_update {σ : Type*} [DecidableEq ι] (g : σ → ℤ) (f : ι → σ) {xs : List ι}
    (hn : xs.Nodup) {i : ι} (hi : i ∈ xs) (x : σ) :
    (xs.map fun j => g (Function.update f i x j)).sum =
      (xs.map fun j => g (f j)).sum+(g x-g (f i)) := by
  induction xs with
  | nil => simp at hi
  | cons j xs ih =>
    obtain ⟨hj,hn⟩ := List.nodup_cons.mp hn
    rw [List.map_cons,List.sum_cons,List.map_cons,List.sum_cons]
    rcases List.mem_cons.mp hi with rfl|hi
    · have hsame : (xs.map fun k => g (Function.update f i x k)) = xs.map fun k => g (f k) := by
        apply List.map_congr_left
        intro k hk
        have hkj : k ≠ i := fun e => hj (e ▸ hk)
        rw [Function.update_of_ne hkj]
      rw [hsame,Function.update_self]
      ring
    · have hji : j ≠ i := fun e => hj (e ▸ hi)
      rw [ih hn hi,Function.update_of_ne hji]
      ring

/-- What two holders have more than they owe is in the difference of the sums. -/
theorem sum_surplus [DecidableEq ι] {a b : ι → ℕ} (h : ∀ i, b i ≤ a i) (i j : ι) (hij : i ≠ j) :
    (∑ k, b k)+(a i-b i)+(a j-b j) ≤ ∑ k, a k := by
  have hj : j ∈ Finset.univ.erase i := Finset.mem_erase.mpr ⟨hij.symm,Finset.mem_univ j⟩
  have hrest : ∑ k ∈ (Finset.univ.erase i).erase j, b k ≤ ∑ k ∈ (Finset.univ.erase i).erase j, a k :=
    Finset.sum_le_sum fun k _ => h k
  rw [← Finset.add_sum_erase _ _ (Finset.mem_univ i),← Finset.add_sum_erase _ _ hj,
    ← Finset.add_sum_erase Finset.univ a (Finset.mem_univ i),
    ← Finset.add_sum_erase (Finset.univ.erase i) a hj]
  have h1 := h i
  have h2 := h j
  omega

theorem sum_surplus_one [DecidableEq ι] {a b : ι → ℕ} (h : ∀ i, b i ≤ a i) (i : ι) :
    (∑ k, b k)+(a i-b i) ≤ ∑ k, a k := by
  have hrest : ∑ k ∈ Finset.univ.erase i, b k ≤ ∑ k ∈ Finset.univ.erase i, a k :=
    Finset.sum_le_sum fun k _ => h k
  rw [← Finset.add_sum_erase _ _ (Finset.mem_univ i),
    ← Finset.add_sum_erase Finset.univ a (Finset.mem_univ i)]
  have h1 := h i
  omega

end ListlibSyscalls.CountedRefs
