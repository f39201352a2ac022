import ListlibSyscalls.SyscallTrace
import ListlibSyscalls.UserStrings

/-!
# The mask argument of the trace program

The program reads its mask with `atoi`, passes it to the `trace` system call
as an int, and `syscall()` later tests single bits of the widened value.
Numerals are written in decimal, or in hexadecimal behind 0x with letters of
either case.
-/

set_option autoImplicit false

namespace ListlibSyscalls.TraceProgram
open StepRuns UserStrings SyscallDispatch SyscallTrace
open ProcTable (ofInt argint)

variable {σ ω : Type*}

/-- The argument of the `trace` call in `main`, or none when there are too few
arguments and only the usage is printed. -/
def main (argv : List (List Byte)) : Except Fault (Option (BitVec 32)) :=
  match argv with
  | _::mask::_::_ => do
    let mask ← atoi mask
    .ok (some mask)
  | _ => .ok none

/-- The registers with which the stub of a call with one int argument traps. -/
def trapped (m : Machine σ) (i : ℕ) (num : BitVec 64) (arg : BitVec 32) : Machine σ :=
  { m with
    rest := { m.rest with
      task := Function.update m.rest.task i { m.rest.task i with
        a0 := arg.signExtend 64
        a7 := num } } }

def SYS_trace : BitVec 64 := 22

def trace (K : Kernel σ ω) (w : ω) (m : Machine σ) (i : ℕ) (mask : BitVec 32) : Machine σ :=
  lastState (step K) (trapped m i SYS_trace mask) [.enter i,.handle i w]

/-- Digits from the first to the last, the hexadecimal ones with their case. -/
inductive Numeral where
  | decimal (ds : List (Fin 10)) (nonempty : ds ≠ [])
  | hexadecimal (ds : List (Fin 16 × Bool)) (nonempty : ds ≠ [])

/-- A digit as a character, 'A' or 'a' and so on from ten. -/
def digitChar (d : ℕ) (upper : Bool) : Byte :=
  BitVec.ofNat 8 (if d < 10 then 0x30+d else if upper then 0x37+d else 0x57+d)

def Numeral.text : Numeral → List Byte
  | .decimal ds _ => ds.map fun d => digitChar d.val false
  | .hexadecimal ds _ => 0x30::0x78::ds.map fun d => digitChar d.1.val d.2

def Numeral.value : Numeral → ℕ
  | .decimal ds _ => ds.foldl (fun n d => n*10+d.val) 0
  | .hexadecimal ds _ => ds.foldl (fun n d => n*16+d.1.val) 0

/-- After the program's call each test of the mask in `syscall` is the bit of
the number that was written. -/
def MaskArrives (K : Kernel σ ω) (w : ω) (m : Machine σ) (i : ℕ) (n : Numeral)
    (program rest command : List Byte) (args : List (List Byte)) : Prop :=
  ∃ mask, main (program::(n.text++nul::rest)::command::args) = .ok (some mask) ∧
    ∀ num, (handlerOf num).isSome →
      (tested ((trace K w m i mask).mask i) num = true ↔ n.value.testBit num.toNat = true)

/-- The numerals of which `atoi` reads all that is tested. -/
def Numeral.Read (n : Numeral) : Prop :=
  match n with
  | .decimal _ _ => True
  | .hexadecimal _ _ => ∀ k, 0 < k → k < 23 → n.value.testBit k = false

theorem digit_step (n : ℕ) (d : Fin 10) :
    BitVec.ofNat 32 n*10+(digitChar d.val false).setWidth 32-0x30 = BitVec.ofNat 32 (n*10+d.val) := by
  have hd : (digitChar d.val false).setWidth 32 = BitVec.ofNat 32 (d.val+0x30) := by
    revert d
    decide
  have hsum : BitVec.ofNat 32 n*10+BitVec.ofNat 32 (d.val+0x30) =
      BitVec.ofNat 32 (n*10+d.val)+0x30 := by
    rw [BitVec.ofNat_add,BitVec.ofNat_add,BitVec.ofNat_mul,BitVec.add_assoc]
    rfl
  rw [hd,hsum,BitVec.add_sub_cancel]

theorem atoiLoop_digits (ds : List (Fin 10)) (n : ℕ) (rest : List Byte) :
    atoiLoop (BitVec.ofNat 32 n) (ds.map (fun d => digitChar d.val false)++nul::rest) =
      .ok (BitVec.ofNat 32 (ds.foldl (fun n d => n*10+d.val) n)) := by
  induction ds generalizing n with
  | nil => rfl
  | cons d ds ih =>
    have hd : isDigit (digitChar d.val false) = true := by
      revert d
      decide
    rw [List.map_cons,List.cons_append,atoiLoop,if_pos hd,digit_step,ih,List.foldl_cons]

theorem atoi_decimal (ds : List (Fin 10)) (h : ds ≠ []) (rest : List Byte) :
    atoi ((Numeral.decimal ds h).text++nul::rest) =
      .ok (BitVec.ofNat 32 (Numeral.decimal ds h).value) :=
  atoiLoop_digits ds 0 rest

theorem atoi_hexadecimal (ds : List (Fin 16 × Bool)) (h : ds ≠ []) (rest : List Byte) :
    atoi ((Numeral.hexadecimal ds h).text++nul::rest) = .ok 0 := by
  have hzero : isDigit 0x30 = true := by decide
  have hx : ¬ isDigit 0x78 = true := by decide
  rw [atoi,Numeral.text,List.cons_append,List.cons_append,atoiLoop,if_pos hzero,atoiLoop,if_neg hx]
  rfl

theorem finish_mask (m : Machine σ) (i : ℕ) (num : ℤ) (ret : BitVec 64) :
    (finish m i num ret).mask = m.mask := by
  simp only [finish]
  split_ifs
  · split
    · rfl
    · rfl
  · rfl

theorem argint_signExtend (v : BitVec 32) : argint (v.signExtend 64) = v := by
  rw [argint]
  apply BitVec.eq_of_getLsbD_eq
  intro k hk
  have hk' : k < 64 := by omega
  rw [BitVec.getLsbD_setWidth,BitVec.getLsbD_signExtend]
  simp [hk,hk']

/-- The mask that `sys_trace` stores is the argument, widened with its sign. -/
theorem trace_mask (K : Kernel σ ω) (w : ω) (m : Machine σ) (i : ℕ) (mask : BitVec 32)
    (hi : m.inside i = none) : (trace K w m i mask).mask i = ofInt mask := by
  have hsys : handlerOf (numOf SYS_trace) = some .trace := by decide
  have henter : step K (trapped m i SYS_trace mask) (.enter i) =
      .ok { trapped m i SYS_trace mask with
        inside := Function.update m.inside i (some SYS_trace) } := by
    simp [step,stepWith,trapped,hi,enter,hsys]
  have hhandle : ∃ m', step K { trapped m i SYS_trace mask with
      inside := Function.update m.inside i (some SYS_trace) } (.handle i w) = .ok m' ∧
      m'.mask i = ofInt (argint (mask.signExtend 64)) := by
    refine ⟨_,by simp only [step,stepWith,Function.update_self,hsys,callHandler,if_pos]; rfl,?_⟩
    rw [finish_mask]
    simp [trapped]
  obtain ⟨m',hm',hmask⟩ := hhandle
  rw [trace,lastState,henter]
  simp only
  rw [lastState,hm']
  simp only [lastState]
  rw [hmask,argint_signExtend]

theorem tested_argument (mask : BitVec 32) {num : ℤ} (h : (handlerOf num).isSome) :
    tested (ofInt mask) num = mask.getLsbD num.toNat := by
  have hn := handlerOf_range h
  have hlt : num.toNat < 32 := by omega
  have hlt' : num.toNat < 64 := by omega
  rw [tested_eq_bit _ h,ofInt,BitVec.getLsbD_signExtend]
  simp [hlt,hlt']

theorem handlerOf_isSome {k : ℕ} (h0 : 0 < k) (h : k < 23) : (handlerOf k).isSome := by
  have hall : ∀ k : Fin 23, 0 < k.val → (handlerOf k.val).isSome := by decide
  exact hall ⟨k,h⟩ h0

/-- What arrives is decided by what `atoi` makes of the numeral. -/
theorem maskArrives_iff (K : Kernel σ ω) (w : ω) {m : Machine σ} {i : ℕ} (hi : m.inside i = none)
    {n : Numeral} {rest : List Byte} {v : BitVec 32} (hv : atoi (n.text++nul::rest) = .ok v)
    (program command : List Byte) (args : List (List Byte)) :
    MaskArrives K w m i n program rest command args ↔ ∀ num, (handlerOf num).isSome →
      (v.getLsbD num.toNat = true ↔ n.value.testBit num.toNat = true) := by
  have hmain : main (program::(n.text++nul::rest)::command::args) = .ok (some v) := by
    simp only [main,hv,ok_bind]
  constructor
  · rintro ⟨mask,hmask,hbits⟩ num hnum
    rw [hmain] at hmask
    cases hmask
    rw [← hbits num hnum,trace_mask K w m i v hi,tested_argument v hnum]
  · intro hbits
    refine ⟨v,hmain,fun num hnum => ?_⟩
    rw [trace_mask K w m i v hi,tested_argument v hnum]
    exact hbits num hnum

/-- The mask reaches the kernel exactly when the numeral is decimal or has none
of the bits that are tested. -/
theorem mask_arrives_iff_read (K : Kernel σ ω) (w : ω) (m : Machine σ) (i : ℕ)
    (hi : m.inside i = none) (n : Numeral) (program rest command : List Byte)
    (args : List (List Byte)) :
    MaskArrives K w m i n program rest command args ↔ n.Read := by
  cases n with
  | decimal ds h =>
    rw [maskArrives_iff K w hi (atoi_decimal ds h rest)]
    refine iff_of_true (fun num hnum => ?_) trivial
    have hlt : num.toNat < 32 := by
      have hn := handlerOf_range hnum
      omega
    rw [BitVec.getLsbD_ofNat]
    simp [hlt]
  | hexadecimal ds h =>
    rw [maskArrives_iff K w hi (atoi_hexadecimal ds h rest)]
    constructor
    · intro hbits k h0 hk
      have hbit := hbits k (handlerOf_isSome h0 hk)
      simpa using hbit
    · intro hnone num hnum
      have hn := handlerOf_range hnum
      have hbit := hnone num.toNat (by omega) (by omega)
      simp [hbit]

def quiet : Machine Unit := started ⟨fun _ => ⟨0,0,3,"trace"⟩,()⟩ fun _ => 0

theorem mask_arrives_32 : (Numeral.decimal [3,2] (by decide)).value = 32 ∧
    MaskArrives asksForTrace () quiet 0 (.decimal [3,2] (by decide)) [nul] [] [nul] [] :=
  ⟨by decide,(mask_arrives_iff_read asksForTrace () quiet 0 rfl (.decimal [3,2] (by decide)) [nul] []
    [nul] []).mpr trivial⟩

def allBits : Numeral := .hexadecimal (List.replicate 8 (15,true)) (by decide)

/-- `trace 0xFFFFFFFF echo` traces nothing: `atoi` stops at the x. -/
theorem no_bit_of_0xFFFFFFFF : allBits.value = 2^32-1 ∧
    main [[nul],allBits.text++[nul],[nul]] = .ok (some 0) ∧
    (∀ num, (handlerOf num).isSome → tested ((trace asksForTrace () quiet 0 0).mask 0) num = false) ∧
    ¬ MaskArrives asksForTrace () quiet 0 allBits [nul] [] [nul] [] := by
  refine ⟨by decide,by decide,?_,?_⟩
  · intro num hnum
    rw [trace_mask _ _ _ _ _ rfl,tested_argument 0 hnum]
    simp
  · intro harr
    have hatoi : atoi (allBits.text++nul::[]) = .ok 0 := atoi_hexadecimal _ _ []
    have hbits := (maskArrives_iff asksForTrace () rfl hatoi [nul] [nul] []).mp harr 5 (by decide)
    exact absurd hbits (by decide)

end ListlibSyscalls.TraceProgram
