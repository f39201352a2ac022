import ListlibSyscalls.TraceProgram
import Mathlib.Data.Nat.Digits.Lemmas

/-!
# Printed numbers

`printint` of `printf.c`, in the kernel with small letters and in user programs with
capitals. It collects the digits from the last to the first in a buffer of 20 bytes,
which is what the longest of 64 bits take in decimal, and writes them out backwards.
-/

set_option autoImplicit false

namespace ListlibSyscalls.PrintedNumbers
open UserStrings TraceProgram

def table (upper : Bool) : List Byte := (List.range 16).map (digitChar · upper)++[nul]

def minus : Byte := 0x2d

def digitLoop (upper : Bool) (base : ℕ) : ℕ → ℕ → List Byte → ℕ → Except Fault (List Byte × ℕ)
  | 0, _, _, _ => .error .outOfFuel
  | k+1, x, buf, i =>
    match (table upper)[x % base]? with
    | none => .error .overrun
    | some c => do
      let buf ← store buf i c
      if x/base ≠ 0 then digitLoop upper base k (x/base) buf (i+1) else .ok (buf,i+1)

def printint (upper : Bool) (buf : List Byte) (xx : BitVec 64) (base : ℕ) (sign : Bool) :
    Except Fault (List Byte) := do
  let neg := sign && xx.msb
  let x := if neg then -xx else xx
  let (buf,i) ← digitLoop upper base (buf.length+1) x.toNat buf 0
  if neg then
    let buf ← store buf i minus
    .ok (buf.take (i+1)).reverse
  else .ok (buf.take i).reverse

/-- The digits of a number from the last on; zero has one. -/
def lastFirst (base x : ℕ) : List ℕ := if x = 0 then [0] else Nat.digits base x

def numeral (upper : Bool) (base x : ℕ) : List Byte :=
  ((lastFirst base x).map (digitChar · upper)).reverse

variable {base : ℕ} (upper : Bool)

theorem table_get {d : ℕ} (hd : d < 16) : (table upper)[d]? = some (digitChar d upper) := by
  rw [table,List.getElem?_append_left (by simpa using hd)]
  simp [hd]

theorem lastFirst_step (hb : 1 < base) (x : ℕ) :
    lastFirst base x = x % base::if x/base = 0 then [] else lastFirst base (x/base) := by
  rw [lastFirst]
  by_cases hx : x = 0
  · simp [hx]
  · rw [if_neg hx,Nat.digits_def' hb (Nat.pos_of_ne_zero hx)]
    congr 1
    by_cases hq : x/base = 0
    · simp [hq]
    · rw [if_neg hq,lastFirst,if_neg hq]

theorem lastFirst_length {n : ℕ} (hb : 1 < base) (hn : 0 < n) {x : ℕ} (hx : x < base^n) :
    (lastFirst base x).length ≤ n := by
  rw [lastFirst]
  split
  · exact hn
  · exact (Nat.digits_length_le_iff hb x).mpr hx

theorem digitLoop_spec (hb : 1 < base) (hb' : base ≤ 16) (k x : ℕ) (pre rest : List Byte)
    (hk : (lastFirst base x).length ≤ k) (hroom : (lastFirst base x).length ≤ rest.length) :
    digitLoop upper base k x (pre++rest) pre.length =
      .ok (pre++(lastFirst base x).map (digitChar · upper)++rest.drop (lastFirst base x).length,
        pre.length+(lastFirst base x).length) := by
  induction k generalizing x pre rest with
  | zero =>
    rw [lastFirst_step hb] at hk
    simp at hk
  | succ k ih =>
    rw [lastFirst_step hb] at hk hroom ⊢
    rw [List.length_cons] at hk hroom
    obtain ⟨z,rest,rfl⟩ := List.exists_cons_of_length_pos (show 0 < rest.length by omega)
    have hlt : x % base < 16 := (Nat.mod_lt x (by omega)).trans_le hb'
    have hstore : store (pre++z::rest) pre.length (digitChar (x % base) upper) =
        .ok (pre++[digitChar (x % base) upper]++rest) := by
      rw [store,if_pos (by simp)]
      simp
    rw [digitLoop,table_get upper hlt]
    simp only [hstore,bind,Except.bind]
    by_cases hq : x/base = 0
    · simp [hq]
    · rw [if_neg hq] at hk hroom ⊢
      rw [if_pos hq]
      have hnext := ih (x/base) (pre++[digitChar (x % base) upper]) rest (by omega)
        (by simpa using hroom)
      rw [List.length_append,List.length_singleton] at hnext
      rw [hnext]
      simp [Nat.add_assoc,Nat.add_comm 1]

theorem digitLoop_numeral (hb : 1 < base) (hb' : base ≤ 16) (x : ℕ) (buf : List Byte)
    (hroom : (lastFirst base x).length ≤ buf.length) :
    ∃ tail, tail.length+(lastFirst base x).length = buf.length ∧
      digitLoop upper base (buf.length+1) x buf 0 =
        .ok ((numeral upper base x).reverse++tail,(lastFirst base x).length) := by
  have hloop := digitLoop_spec upper hb hb' (buf.length+1) x [] buf (by omega) hroom
  refine ⟨buf.drop (lastFirst base x).length,by simp; omega,?_⟩
  simpa [numeral] using hloop

theorem numeral_length (x : ℕ) : (numeral upper base x).length = (lastFirst base x).length := by
  simp [numeral]

/-- `atoi` reads a decimal numeral back, modulo the range of an int. -/
theorem atoi_numeral (x : ℕ) (rest : List Byte) :
    atoi (numeral upper 10 x++nul::rest) = .ok (BitVec.ofNat 32 x) := by
  have hlt : ∀ d ∈ lastFirst 10 x, d < 10 := by
    intro d hd
    rw [lastFirst] at hd
    split at hd
    · rw [List.mem_singleton.mp hd]
      omega
    · exact Nat.digits_lt_base (by omega) hd
  have hval : (lastFirst 10 x).foldr (fun d n => n*10+d) 0 = x := by
    have hofDigits : Nat.ofDigits 10 (lastFirst 10 x) = x := by
      rw [lastFirst]
      split
      · next hx => simp [hx]
      · exact Nat.ofDigits_digits 10 x
    rw [Nat.ofDigits_eq_foldr] at hofDigits
    simpa [Nat.mul_comm,Nat.add_comm] using hofDigits
  have hvals : ((lastFirst 10 x).reverse.map (Fin.ofNat 10)).map Fin.val =
      (lastFirst 10 x).reverse := by
    rw [List.map_map]
    conv_rhs => rw [← List.map_id (lastFirst 10 x).reverse]
    apply List.map_congr_left
    intro d hd
    exact Nat.mod_eq_of_lt (hlt d (List.mem_reverse.mp hd))
  have hchars : numeral upper 10 x =
      ((lastFirst 10 x).reverse.map (Fin.ofNat 10)).map fun d => digitChar d.val false := by
    rw [numeral,← List.map_reverse,List.map_map]
    apply List.map_congr_left
    intro d hd
    have hd := hlt d (List.mem_reverse.mp hd)
    simp [digitChar,Nat.mod_eq_of_lt hd,hd]
  have hloop := atoiLoop_digits ((lastFirst 10 x).reverse.map (Fin.ofNat 10)) 0 rest
  rw [← List.foldl_map (f := Fin.val) (g := fun n d => n*10+d),hvals,List.foldl_reverse,hval] at hloop
  rw [atoi,hchars]
  exact hloop

theorem natAbs_negative {xx : BitVec 64} (h : xx.msb = true) :
    (-xx).toNat = xx.toInt.natAbs ∧ (-xx).toNat ≤ 2^63 := by
  have hlow := BitVec.le_toNat_of_msb_true h
  have hlt := xx.isLt
  rw [BitVec.toNat_neg,BitVec.toInt_eq_msb_cond,if_pos h]
  simp only [Nat.reduceSub,Nat.reducePow] at hlow
  constructor
  · omega
  · omega

/-- `printint` stays inside its buffer for every number of 64 bits and prints its
numeral, behind a minus sign when it is negative; and `atoi` reads a decimal number
that is not negative back, as far as an int goes. -/
theorem printint_prints (buf : List Byte) (xx : BitVec 64) (base : ℕ) (sign : Bool)
    (hbuf : buf.length = 20) (hbase : base = 10 ∨ base = 16) :
    ∃ out, printint upper buf xx base sign = .ok out ∧
      (sign = true ∧ xx.msb = true → out = minus::numeral upper base xx.toInt.natAbs) ∧
      (¬ (sign = true ∧ xx.msb = true) → out = numeral upper base xx.toNat ∧
        (base = 10 → ∀ rest, atoi (out++nul::rest) = .ok (xx.setWidth 32))) := by
  have hb : 1 < base := by omega
  have hb' : base ≤ 16 := by omega
  by_cases hneg : sign = true ∧ xx.msb = true
  · obtain ⟨habs,hle⟩ := natAbs_negative hneg.2
    have hlen : (lastFirst base (-xx).toNat).length ≤ 19 := by
      apply lastFirst_length hb (by omega)
      rcases hbase with rfl|rfl
      · omega
      · omega
    obtain ⟨tail,htail,hloop⟩ := digitLoop_numeral upper hb hb' (-xx).toNat buf (by omega)
    obtain ⟨z,tail,rfl⟩ := List.exists_cons_of_length_pos (show 0 < tail.length by omega)
    have hstore : store ((numeral upper base (-xx).toNat).reverse++z::tail)
        (lastFirst base (-xx).toNat).length minus =
        .ok ((numeral upper base (-xx).toNat).reverse++minus::tail) := by
      rw [← numeral_length upper,← List.length_reverse,store,if_pos (by simp)]
      simp
    refine ⟨minus::numeral upper base (-xx).toNat,?_,fun _ => by rw [habs],fun h => absurd hneg h⟩
    rw [printint]
    simp only [hneg.1,hneg.2,Bool.and_self,if_true,hloop,bind,Except.bind,hstore]
    rw [← numeral_length upper,← List.length_reverse,List.take_length_add_append]
    simp
  · have hfits := xx.isLt
    have hlen : (lastFirst base xx.toNat).length ≤ 20 := by
      apply lastFirst_length hb (by omega)
      rcases hbase with rfl|rfl
      · omega
      · omega
    obtain ⟨tail,htail,hloop⟩ := digitLoop_numeral upper hb hb' xx.toNat buf (by omega)
    have hneg' : (sign && xx.msb) = false := by
      rw [← Bool.not_eq_true,Bool.and_eq_true]
      exact hneg
    refine ⟨numeral upper base xx.toNat,?_,fun h => absurd h hneg,fun _ => ⟨rfl,?_⟩⟩
    · rw [printint]
      simp only [hneg',Bool.false_eq_true,if_false,hloop,bind,Except.bind]
      rw [← numeral_length upper,← List.length_reverse,List.take_left]
      simp
    · rintro rfl rest
      rw [atoi_numeral,BitVec.ofNat_toNat]

theorem printint_prints_least :
    ∃ out, printint false (List.replicate 20 nul) (BitVec.intMin 64) 10 true = .ok out ∧
      out = minus::numeral false 10 (2^63) := by
  obtain ⟨out,hout,hneg,-⟩ := printint_prints false (List.replicate 20 nul) (BitVec.intMin 64) 10
    true (by simp) (.inl rfl)
  exact ⟨out,hout,hneg (by decide)⟩

end ListlibSyscalls.PrintedNumbers
