import Mathlib.Data.List.TakeWhile
import Mathlib.Tactic

/-!
# The string functions of the user library

A pointer to characters is the list of bytes from it to the end of its array.
Every access is checked against that end and stops with a fault beyond it, so
a call that returns has stayed inside its arrays. The string a pointer refers
to is what stands in front of the first NUL; an array need not have one.
-/

set_option autoImplicit false

namespace ListlibSyscalls.UserStrings

abbrev Byte := BitVec 8

def nul : Byte := 0

def slash : Byte := 0x2f

def dot : Byte := 0x2e

def newline : Byte := 0x0a

inductive Fault where
  | overrun
  | outOfFuel
  deriving DecidableEq

/-- The bytes in front of the first NUL. -/
def text (m : List Byte) : List Byte := m.takeWhile fun c => decide (c ≠ nul)

def strlen : List Byte → Except Fault ℕ
  | [] => .error .overrun
  | c::s =>
    if c = nul then .ok 0
    else do
      let n ← strlen s
      .ok (n+1)

def strcmp : List Byte → List Byte → Except Fault ℤ
  | c::p, d::q => if c ≠ nul ∧ c = d then strcmp p q else .ok ((c.toNat:ℤ)-d.toNat)
  | _, _ => .error .overrun

def strcpy : List Byte → List Byte → Except Fault (List Byte)
  | _::s, c::t =>
    if c = nul then .ok (nul::s)
    else do
      let s ← strcpy s t
      .ok (c::s)
  | _, _ => .error .overrun

/-- `n` bytes copied into an array other than their own. -/
def memmove (m : List Byte) (offset : ℕ) (src : List Byte) (n : ℕ) : Except Fault (List Byte) :=
  if n ≤ src.length ∧ offset+n ≤ m.length then
    .ok (m.take offset++src.take n++m.drop (offset+n))
  else .error .overrun

def store (m : List Byte) (i : ℕ) (c : Byte) : Except Fault (List Byte) :=
  if i < m.length then .ok (m.set i c) else .error .overrun

def isDigit (c : Byte) : Bool := 0x30 ≤ c.toNat ∧ c.toNat ≤ 0x39

/-- The loop of `atoi` with what it has read so far. Ints wrap: the sum with
the character may pass the largest int before the '0' is taken off again. -/
def atoiLoop (n : BitVec 32) : List Byte → Except Fault (BitVec 32)
  | [] => .error .overrun
  | c::s => if isDigit c then atoiLoop (n*10+c.setWidth 32-0x30) s else .ok n

def atoi (s : List Byte) : Except Fault (BitVec 32) := atoiLoop 0 s

theorem text_nul (s : List Byte) : text (nul::s) = [] := rfl

theorem text_cons {c : Byte} (hc : c ≠ nul) (s : List Byte) : text (c::s) = c::text s := by
  simp [text,hc]

theorem text_append_nul {p : List Byte} (hp : nul ∉ p) (s : List Byte) : text (p++nul::s) = p := by
  induction p with
  | nil => rfl
  | cons c p ih =>
    have hc : c ≠ nul := fun e => hp (by simp [e])
    rw [List.cons_append,text_cons hc,ih (fun h => hp (by simp [h]))]

theorem nul_notMem_text (m : List Byte) : nul ∉ text m := by
  intro h
  have := List.mem_takeWhile_imp h
  simp at this

theorem strlen_eq {m : List Byte} (h : nul ∈ m) : strlen m = .ok (text m).length := by
  induction m with
  | nil => simp at h
  | cons c s ih =>
    by_cases hc : c = nul
    · rw [hc,text_nul]
      rfl
    · have hs : nul ∈ s := (List.mem_cons.mp h).resolve_left (Ne.symm hc)
      rw [strlen,if_neg hc,ih hs,text_cons hc]
      rfl

/-- The comparison stays inside both arrays when the second is a string and
the first is one too or at least longer, and it is zero on equal strings only. -/
theorem strcmp_spec {a b : List Byte} (hb : nul ∈ b) (ha : nul ∈ a ∨ (text b).length < a.length) :
    ∃ z, strcmp a b = .ok z ∧ (z = 0 ↔ text a = text b) := by
  induction b generalizing a with
  | nil => simp at hb
  | cons d q ih =>
    cases a with
    | nil => simp at ha
    | cons c p =>
      by_cases hcd : c ≠ nul ∧ c = d
      · obtain ⟨hc,rfl⟩ := hcd
        have hq : nul ∈ q := (List.mem_cons.mp hb).resolve_left (Ne.symm hc)
        have hp : nul ∈ p ∨ (text q).length < p.length := by
          rw [text_cons hc] at ha
          rcases ha with ha | ha
          · exact Or.inl ((List.mem_cons.mp ha).resolve_left (Ne.symm hc))
          · exact Or.inr (by simpa using ha)
        obtain ⟨z,hz,hiff⟩ := ih hq hp
        refine ⟨z,?_,?_⟩
        · rw [strcmp,if_pos ⟨hc,rfl⟩,hz]
        · rw [hiff,text_cons hc,text_cons hc,List.cons.injEq]
          simp
      · refine ⟨(c.toNat:ℤ)-d.toNat,?_,?_⟩
        · rw [strcmp,if_neg hcd]
        · have hzero : (c.toNat:ℤ)-d.toNat = 0 ↔ c = d := by
            rw [← BitVec.toNat_inj]
            omega
          rw [hzero]
          by_cases hc : c = nul
          · rw [hc,text_nul]
            by_cases hd : d = nul
            · simp [hd,text_nul]
            · simp [text_cons hd,Ne.symm hd]
          · have hne : c ≠ d := fun e => hcd ⟨hc,e⟩
            rw [text_cons hc]
            by_cases hd : d = nul
            · simp [hd,text_nul,hc]
            · simp [text_cons hd,hne]

theorem strcpy_eq {m src : List Byte} (hs : nul ∈ src) (hm : (text src).length < m.length) :
    strcpy m src = .ok (text src++nul::m.drop ((text src).length+1)) := by
  induction src generalizing m with
  | nil => simp at hs
  | cons c t ih =>
    cases m with
    | nil => simp at hm
    | cons b m =>
      by_cases hc : c = nul
      · rw [strcpy,if_pos hc,hc,text_nul]
        rfl
      · have ht : nul ∈ t := (List.mem_cons.mp hs).resolve_left (Ne.symm hc)
        rw [text_cons hc] at hm ⊢
        rw [strcpy,if_neg hc,ih ht (by simpa using hm)]
        rfl

end ListlibSyscalls.UserStrings
