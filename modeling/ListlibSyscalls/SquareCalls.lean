import Mathlib.Logic.Function.Basic
import Mathlib.Tactic

/-!
# Square and its call counter

`Square(N)` counts one call at each level of its recursion, in the slot of the
calling thread and only when there is a counter array and a thread number. A
child that has completed `Square(1)` to `Square(k)` has counted `k(k+3)/2`
calls. The same statements with a signed overflow as a failure succeed for
every size the programs admit, and compute the same.
-/

set_option autoImplicit false

namespace ListlibSyscalls.SquareCalls

structure Globals where
  squareCounter : Option (ℤ → BitVec 32)
  currentThread : ℤ

/-- The first statement of `Square`. -/
def countCall (g : Globals) : Globals :=
  match g.squareCounter with
  | some a =>
    if 0 ≤ g.currentThread then
      ⟨some (Function.update a g.currentThread (a g.currentThread+1)),g.currentThread⟩
    else g
  | none => g

/-- The value of `Square(N)` in wrapping arithmetic, and what it leaves counted. -/
def square : ℕ → Globals → BitVec 32 × Globals
  | 0, g => (0,countCall g)
  | N+1, g =>
    let (r,g) := square N (countCall g)
    (r+BitVec.ofNat 32 (N+1)+BitVec.ofNat 32 (N+1)-1,g)

/-- The globals after the complete calls `Square(1)` to `Square(k)`. -/
def squares : ℕ → Globals → Globals
  | 0, g => g
  | k+1, g => (square (k+1) (squares k g)).2

def total : ℕ → ℕ
  | 0 => 0
  | k+1 => total k+(k+2)

theorem total_eq (k : ℕ) : total k = k*(k+3)/2 := by
  have h : 2*total k = k*(k+3) := by
    induction k with
    | zero => rfl
    | succ k ih =>
      rw [total,Nat.mul_add,ih]
      ring
  omega

theorem total_mono {j k : ℕ} (h : j ≤ k) : total j ≤ total k := by
  induction h with
  | refl => exact le_refl _
  | step _ ih =>
    rw [total]
    omega

theorem total_lt {k : ℕ} (h : k ≤ 10000) : total k < 2^31 := by
  have hm := total_mono h
  rw [total_eq 10000] at hm
  omega

theorem toInt_ofNat_small {n : ℕ} (h : n < 2^31) : (BitVec.ofNat 32 n).toInt = n := by
  rw [BitVec.toInt_eq_toNat_of_lt]
  · simp only [BitVec.toNat_ofNat]
    omega
  · simp only [BitVec.toNat_ofNat]
    omega

theorem toInt_total {k : ℕ} (h : k ≤ 10000) :
    (BitVec.ofNat 32 (total k)).toInt = ((k*(k+3)/2:ℕ):ℤ) := by
  rw [toInt_ofNat_small (total_lt h),total_eq]

def addCalls (n : ℕ) (g : Globals) : Globals :=
  match g.squareCounter with
  | some a =>
    if 0 ≤ g.currentThread then
      ⟨some (Function.update a g.currentThread (a g.currentThread+BitVec.ofNat 32 n)),
        g.currentThread⟩
    else g
  | none => g

theorem addCalls_some (n : ℕ) (a : ℤ → BitVec 32) {t : ℤ} (ht : 0 ≤ t) :
    addCalls n ⟨some a,t⟩ = ⟨some (Function.update a t (a t+BitVec.ofNat 32 n)),t⟩ := if_pos ht

theorem addCalls_off (n : ℕ) {g : Globals} (h : g.squareCounter = none ∨ g.currentThread < 0) :
    addCalls n g = g := by
  rw [addCalls]
  split
  · next a ha =>
    have ht : g.currentThread < 0 := h.resolve_left (by rw [ha]; simp)
    rw [if_neg (not_le.mpr ht)]
  · rfl

theorem countCall_eq (g : Globals) : countCall g = addCalls 1 g := rfl

theorem addCalls_addCalls (m n : ℕ) (g : Globals) :
    addCalls m (addCalls n g) = addCalls (n+m) g := by
  obtain ⟨c,t⟩ := g
  by_cases hoff : c = none ∨ t < 0
  · rw [addCalls_off n hoff,addCalls_off m hoff,addCalls_off (n+m) hoff]
  · obtain ⟨hc,ht⟩ := not_or.mp hoff
    obtain ⟨a,rfl⟩ := Option.ne_none_iff_exists'.mp hc
    rw [addCalls_some n a (not_lt.mp ht),addCalls_some m _ (not_lt.mp ht),
      addCalls_some (n+m) a (not_lt.mp ht),Function.update_idem,Function.update_self,
      BitVec.add_assoc,← BitVec.ofNat_add]

theorem square_eq (N : ℕ) (g : Globals) :
    square N g = (BitVec.ofNat 32 (N*N),addCalls (N+1) g) := by
  induction N generalizing g with
  | zero => rfl
  | succ N ih =>
    have hsum : BitVec.ofNat 32 (N*N)+BitVec.ofNat 32 (N+1)+BitVec.ofNat 32 (N+1) =
        BitVec.ofNat 32 ((N+1)*(N+1))+1 := by
      rw [← BitVec.ofNat_add,← BitVec.ofNat_add]
      show _ = BitVec.ofNat 32 ((N+1)*(N+1))+BitVec.ofNat 32 1
      rw [← BitVec.ofNat_add]
      congr 1
      ring
    rw [square,ih,countCall_eq,addCalls_addCalls,Nat.add_comm 1 (N+1)]
    simp only [hsum,BitVec.add_sub_cancel]

theorem squares_eq (k : ℕ) (g : Globals) : squares k g = addCalls (total k) g := by
  induction k with
  | zero =>
    obtain ⟨c,t⟩ := g
    cases c with
    | none => rfl
    | some a =>
      rw [squares,total,addCalls]
      simp
  | succ k ih => rw [squares,ih,square_eq,addCalls_addCalls,total]

theorem squares_counts (k : ℕ) (a : ℤ → BitVec 32) (t : ℤ) (ht : 0 ≤ t) :
    squares k ⟨some a,t⟩ = ⟨some (Function.update a t (a t+BitVec.ofNat 32 (total k))),t⟩ := by
  rw [squares_eq,addCalls_some _ a ht]

theorem squares_slot (k : ℕ) (t : ℤ) (ht : 0 ≤ t) :
    (squares k ⟨some fun _ => 0,t⟩).squareCounter.map (fun a => a t) =
      some (BitVec.ofNat 32 (total k)) := by
  rw [squares_counts k _ t ht]
  simp

section Overflow

def intAdd (x y : BitVec 32) : Option (BitVec 32) :=
  if x.saddOverflow y then none else some (x+y)

def intSub (x y : BitVec 32) : Option (BitVec 32) :=
  if x.ssubOverflow y then none else some (x-y)

def countCallInt (g : Globals) : Option Globals :=
  match g.squareCounter with
  | some a =>
    if 0 ≤ g.currentThread then do
      let c ← intAdd (a g.currentThread) 1
      some ⟨some (Function.update a g.currentThread c),g.currentThread⟩
    else some g
  | none => some g

/-- `Square(N)` with a signed overflow as a failure. -/
def squareInt : ℕ → Globals → Option (BitVec 32 × Globals)
  | 0, g => do
    let g ← countCallInt g
    some (0,g)
  | N+1, g => do
    let g ← countCallInt g
    let (r,g) ← squareInt N g
    let r ← intAdd r (BitVec.ofNat 32 (N+1))
    let r ← intAdd r (BitVec.ofNat 32 (N+1))
    let r ← intSub r 1
    some (r,g)

def squaresInt : ℕ → Globals → Option Globals
  | 0, g => some g
  | k+1, g => do
    let g ← squaresInt k g
    let (_,g) ← squareInt (k+1) g
    some g

def slot (g : Globals) : ℕ :=
  match g.squareCounter with
  | some a => (a g.currentThread).toNat
  | none => 0

theorem intAdd_ofNat {m n : ℕ} (h : m+n < 2^31) :
    intAdd (BitVec.ofNat 32 m) (BitVec.ofNat 32 n) = some (BitVec.ofNat 32 (m+n)) := by
  have hno : ¬ (BitVec.ofNat 32 m).saddOverflow (BitVec.ofNat 32 n) := by
    rw [BitVec.saddOverflow,toInt_ofNat_small (by omega),toInt_ofNat_small (by omega)]
    simp
    omega
  rw [intAdd,if_neg hno,BitVec.ofNat_add]

example : intAdd 0x7FFFFFFF 1 = none := by decide

theorem intSub_ofNat_one {m : ℕ} (h : m+1 < 2^31) :
    intSub (BitVec.ofNat 32 (m+1)) 1 = some (BitVec.ofNat 32 m) := by
  have hno : ¬ (BitVec.ofNat 32 (m+1)).ssubOverflow 1 := by
    have hone : (1:BitVec 32).toInt = 1 := by decide
    rw [BitVec.ssubOverflow,toInt_ofNat_small h,hone]
    simp
    omega
  have hsub : BitVec.ofNat 32 (m+1)-1 = BitVec.ofNat 32 m := by
    rw [BitVec.ofNat_add]
    exact BitVec.add_sub_cancel _ _
  rw [intSub,if_neg hno,hsub]

theorem slot_addCalls (n : ℕ) {g : Globals} (h : slot g+n < 2^31) :
    slot (addCalls n g) ≤ slot g+n := by
  obtain ⟨c,t⟩ := g
  by_cases hoff : c = none ∨ t < 0
  · rw [addCalls_off n hoff]
    exact Nat.le_add_right _ _
  · obtain ⟨hc,ht⟩ := not_or.mp hoff
    obtain ⟨a,rfl⟩ := Option.ne_none_iff_exists'.mp hc
    rw [addCalls_some n a (not_lt.mp ht)]
    simp only [slot,Function.update_self,BitVec.toNat_add,BitVec.toNat_ofNat] at h ⊢
    omega

theorem countCallInt_eq {g : Globals} (h : slot g+1 < 2^31) :
    countCallInt g = some (countCall g) := by
  obtain ⟨c,t⟩ := g
  cases c with
  | none => rfl
  | some a =>
    by_cases ht : 0 ≤ t
    · have hadd : intAdd (a t) 1 = some (a t+1) := by
        have hsum := intAdd_ofNat h
        rw [BitVec.ofNat_add,slot,BitVec.ofNat_toNat,BitVec.setWidth_eq] at hsum
        exact hsum
      simp only [countCallInt,countCall,if_pos ht,hadd]
      rfl
    · simp only [countCallInt,countCall,if_neg ht]

/-- While `N*N+1` and the count stay ints, so does everything in between. -/
theorem squareInt_eq (N : ℕ) {g : Globals} (hN : N*N+1 < 2^31) (hg : slot g+(N+1) < 2^31) :
    squareInt N g = some (square N g) := by
  induction N generalizing g with
  | zero =>
    rw [squareInt,countCallInt_eq hg]
    rfl
  | succ N ih =>
    have hslot : slot (countCall g) ≤ slot g+1 := slot_addCalls 1 (by omega)
    have hsq : (N+1)*(N+1) = N*N+(N+1)+N := by ring
    have hrec := ih (g := countCall g) (by omega) (by omega)
    -- the three sums of the return statement
    have hfirst := intAdd_ofNat (m := N*N) (n := N+1) (by omega)
    have hsecond := intAdd_ofNat (m := N*N+(N+1)) (n := N+1) (by omega)
    have hlast := intSub_ofNat_one (m := N*N+(N+1)+N) (by omega)
    rw [squareInt,countCallInt_eq (by omega)]
    simp only [Option.bind_eq_bind,Option.bind_some,hrec,square_eq,hfirst,hsecond]
    rw [← Nat.add_assoc (N*N+(N+1)) N 1,hlast,Option.bind_some,hsq,countCall_eq,addCalls_addCalls,
      Nat.add_comm 1 (N+1)]

theorem squaresInt_eq (k : ℕ) {g : Globals} (hk : k ≤ 10000) (hg : slot g = 0) :
    squaresInt k g = some (squares k g) := by
  induction k with
  | zero => rfl
  | succ k ih =>
    have hcount := total_lt hk
    have hslot := slot_addCalls (total k) (g := g) (by rw [total] at hcount; omega)
    have hsq : (k+1)*(k+1) ≤ 10000*10000 := Nat.mul_le_mul hk hk
    rw [total] at hcount
    have hcall := squareInt_eq (k+1) (g := addCalls (total k) g) (by omega) (by omega)
    rw [squaresInt,ih (by omega),squares_eq]
    simp only [Option.bind_eq_bind,Option.bind_some,hcall]
    rw [squares,squares_eq]

end Overflow

/-- `Square(N)` is N*N in wrapping arithmetic and counts N+1 calls in the slot
of its thread, a child has counted k(k+3)/2 when it has completed k calls, and
for the admitted sizes no sum on the way and no count overflows. -/
theorem square_value_and_counter :
    (∀ N g, square N g = (BitVec.ofNat 32 (N*N),addCalls (N+1) g)) ∧
    (∀ (a : ℤ → BitVec 32) (t : ℤ), 0 ≤ t → ∀ n,
      addCalls n ⟨some a,t⟩ = ⟨some (Function.update a t (a t+BitVec.ofNat 32 n)),t⟩) ∧
    (∀ (a : ℤ → BitVec 32) (t : ℤ), 0 ≤ t → a t = 0 → ∀ k, squares k ⟨some a,t⟩ =
      ⟨some (Function.update a t (BitVec.ofNat 32 (k*(k+3)/2))),t⟩) ∧
    ∀ size, 1 ≤ size → size ≤ 10000 → ∀ g, slot g = 0 → ∀ k ≤ size,
      squaresInt k g = some (squares k g) ∧
      (BitVec.ofNat 32 (k*(k+3)/2)).toInt = ((k*(k+3)/2:ℕ):ℤ) := by
  refine ⟨square_eq,fun a t ht n => addCalls_some n a ht,?_,?_⟩
  · intro a t ht h0 k
    have hzero : a t+BitVec.ofNat 32 (total k) = BitVec.ofNat 32 (total k) := by
      rw [h0]
      exact BitVec.zero_add _
    rw [squares_counts k a t ht,hzero,total_eq]
  · intro size _ hsize g hg k hk
    have hbound := hk.trans hsize
    refine ⟨squaresInt_eq k hbound hg,?_⟩
    rw [← total_eq,toInt_total hbound,total_eq]

theorem square_value_and_counter_largest :
    squaresInt 10000 ⟨some fun _ => 0,2⟩ =
      some ⟨some (Function.update (fun _ => 0) 2 50015000),2⟩ ∧
    (square 100 ⟨some fun _ => 0,2⟩).1 = 10000 := by
  obtain ⟨hsquare,-,hloop,hint⟩ := square_value_and_counter
  obtain ⟨hrun,-⟩ := hint 10000 (by decide) (le_refl _) ⟨some fun _ => 0,2⟩ rfl 10000 (le_refl _)
  constructor
  · rw [hrun,hloop (fun _ => 0) 2 (by decide) rfl]
    rfl
  · rw [hsquare]
    rfl

end ListlibSyscalls.SquareCalls
