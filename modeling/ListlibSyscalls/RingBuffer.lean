import Mathlib.Logic.Function.Basic
import Mathlib.Tactic

/-!
# A ring of cells between two wrapping counters

The counters only ever grow, wrap at `2^w`, and are reduced modulo the size of
the ring when a cell is addressed. This is a queue as long as the size divides
`2^w` and the counters can tell an empty ring from a full one. `Holds` relates
the ring to the queue it stands for; cells outside the queue are arbitrary.
-/

set_option autoImplicit false

namespace ListlibSyscalls.RingBuffer

structure Ring (w size : ℕ) (β : Type*) where
  data : Fin size → β
  nread : BitVec w
  nwrite : BitVec w

variable {w size : ℕ} [NeZero size] {β : Type*}

def slot (size : ℕ) [NeZero size] (c : BitVec w) : Fin size := Fin.ofNat size c.toNat

namespace Ring

def push (r : Ring w size β) (b : β) : Ring w size β :=
  { r with
    data := Function.update r.data (slot size r.nwrite) b
    nwrite := r.nwrite+1 }

def front (r : Ring w size β) : β := r.data (slot size r.nread)

def pop (r : Ring w size β) : Ring w size β := { r with nread := r.nread+1 }

def back (r : Ring w size β) : β := r.data (slot size (r.nwrite-1))

def retract (r : Ring w size β) : Ring w size β := { r with nwrite := r.nwrite-1 }

/-- The ring stands for the queue `q`. -/
structure Holds (r : Ring w size β) (q : List β) : Prop where
  fits : q.length ≤ size
  counters : r.nwrite = r.nread+BitVec.ofNat w q.length
  cells : ∀ i b, q[i]? = some b → r.data (slot size (r.nread+BitVec.ofNat w i)) = b

end Ring

/-- A counter advanced by `i` addresses the cell `i` further on, across the wrap. -/
theorem slot_add (hd : size ∣ 2^w) (c : BitVec w) (i : ℕ) :
    slot size (c+BitVec.ofNat w i) = Fin.ofNat size (c.toNat+i) := by
  apply Fin.ext
  show (c+BitVec.ofNat w i).toNat % size = (c.toNat+i) % size
  rw [BitVec.toNat_add,BitVec.toNat_ofNat,Nat.mod_mod_of_dvd _ hd,Nat.add_mod,
    Nat.mod_mod_of_dvd _ hd,← Nat.add_mod]

theorem slot_ne (hd : size ∣ 2^w) (c : BitVec w) {i j : ℕ} (hij : i < j) (hj : j < size) :
    slot size (c+BitVec.ofNat w i) ≠ slot size (c+BitVec.ofNat w j) := by
  rw [slot_add hd,slot_add hd]
  intro h
  have hm : (c.toNat+i) % size = (c.toNat+j) % size := congrArg Fin.val h
  have hmod : i ≡ j [MOD size] := Nat.ModEq.add_left_cancel' c.toNat hm
  have he : i = j := by
    have h1 := Nat.mod_eq_of_lt (hij.trans hj)
    have h2 := Nat.mod_eq_of_lt hj
    rw [← h1,← h2]
    exact hmod
  omega

/-- Two advances of one counter that differ by less than the wrap are told apart. -/
theorem advance_eq_iff (c : BitVec w) {i j : ℕ} (hi : i < 2^w) (hj : j < 2^w) :
    c+BitVec.ofNat w i = c+BitVec.ofNat w j ↔ i = j := by
  constructor
  · intro h
    have hb := (BitVec.add_right_inj c).mp h
    have ht := congrArg BitVec.toNat hb
    simpa [Nat.mod_eq_of_lt hi,Nat.mod_eq_of_lt hj] using ht
  · intro h
    rw [h]

namespace Ring.Holds

variable {r : Ring w size β} {q : List β}

theorem empty_iff (h : r.Holds q) (hs : size < 2^w) : r.nread = r.nwrite ↔ q = [] := by
  have hq := h.fits
  have ha := advance_eq_iff r.nread (show 0 < 2^w by omega) (show q.length < 2^w by omega)
  have h0 : r.nread+BitVec.ofNat w 0 = r.nread := by simp
  rw [h0,← h.counters] at ha
  rw [ha,eq_comm,List.length_eq_zero_iff]

theorem full_iff (h : r.Holds q) (hs : size < 2^w) :
    r.nwrite = r.nread+BitVec.ofNat w size ↔ q.length = size := by
  have hq := h.fits
  rw [h.counters]
  exact advance_eq_iff r.nread (by omega) hs

theorem push (h : r.Holds q) (hd : size ∣ 2^w) (hq : q.length < size) (b : β) :
    (r.push b).Holds (q++[b]) := by
  constructor
  · rw [List.length_append]
    exact hq
  · show r.nwrite+1 = r.nread+BitVec.ofNat w (q++[b]).length
    rw [List.length_append,BitVec.ofNat_add,← BitVec.add_assoc,← h.counters]
    rfl
  · intro i c hi
    show Function.update r.data (slot size r.nwrite) b (slot size (r.nread+BitVec.ofNat w i)) = c
    rw [h.counters]
    rcases lt_trichotomy i q.length with hlt | rfl | hgt
    · rw [Function.update_of_ne (slot_ne hd r.nread hlt hq)]
      rw [List.getElem?_append_left hlt] at hi
      exact h.cells i c hi
    · rw [Function.update_self]
      simpa using hi
    · rw [List.getElem?_eq_none (by simp; omega)] at hi
      cases hi

theorem front {b : β} (h : r.Holds (b::q)) : r.front = b := by
  have hc := h.cells 0 b rfl
  simpa [Ring.front] using hc

theorem pop {b : β} (h : r.Holds (b::q)) : r.pop.Holds q := by
  have hone (i : ℕ) : r.nread+1+BitVec.ofNat w i = r.nread+BitVec.ofNat w (i+1) := by
    rw [Nat.add_comm i,BitVec.ofNat_add,BitVec.add_assoc]
    rfl
  constructor
  · have hf := h.fits
    rw [List.length_cons] at hf
    omega
  · show r.nwrite = r.nread+1+BitVec.ofNat w q.length
    rw [hone,h.counters,List.length_cons]
  · intro i c hi
    show r.data (slot size (r.nread+1+BitVec.ofNat w i)) = c
    rw [hone]
    exact h.cells (i+1) c hi

theorem before_last {b : β} (h : r.Holds (q++[b])) :
    r.nwrite-1 = r.nread+BitVec.ofNat w q.length := by
  rw [h.counters,List.length_append,BitVec.ofNat_add,← BitVec.add_assoc]
  exact BitVec.add_sub_cancel _ _

theorem back {b : β} (h : r.Holds (q++[b])) : r.back = b := by
  rw [Ring.back,h.before_last]
  exact h.cells q.length b (by simp)

theorem retract {b : β} (h : r.Holds (q++[b])) : r.retract.Holds q := by
  constructor
  · have hf := h.fits
    rw [List.length_append] at hf
    omega
  · exact h.before_last
  · intro i c hi
    apply h.cells i c
    have hlt : i < q.length := (List.getElem?_eq_some_iff.mp hi).1
    rw [List.getElem?_append_left hlt]
    exact hi

end Ring.Holds

end ListlibSyscalls.RingBuffer
