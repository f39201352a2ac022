import Mathlib.Computability.Language
import Mathlib.Tactic

/-!
# Words over an alphabet

Languages built from classes of letters, with what it takes for a word to belong
to them read from its front. Words cut at a delimiter: only what a delimiter ends
is a line.
-/

set_option autoImplicit false

namespace ListlibSyscalls.WordLanguages
open Computability

section Letters

variable {α : Type*} {P : α → Prop} {L : Language α} {w : List α}

def letters (P : α → Prop) : Language α := {w | ∃ x, P x ∧ w = [x]}

theorem mem_letters_mul : w ∈ letters P*L ↔ ∃ x v, w = x::v ∧ P x ∧ v ∈ L := by
  rw [Language.mem_mul]
  constructor
  · rintro ⟨a,⟨x,hx,rfl⟩,v,hv,rfl⟩
    exact ⟨x,v,rfl,hx,hv⟩
  · rintro ⟨x,v,rfl,hx,hv⟩
    exact ⟨[x],⟨x,hx,rfl⟩,v,hv,rfl⟩

theorem mem_repeated_mul : w ∈ (letters P)∗*L ↔
    w ∈ L ∨ ∃ x v, w = x::v ∧ P x ∧ v ∈ (letters P)∗*L := by
  have hunfold : (letters P)∗*L = L+letters P*((letters P)∗*L) := by
    conv_lhs => rw [← Language.one_add_self_mul_kstar_eq_kstar]
    rw [add_mul,one_mul,mul_assoc]
  rw [hunfold,Language.mem_add,mem_letters_mul,← hunfold]

theorem any_repeated : (letters fun _ : α => True)∗ = ⊤ := by
  ext w
  refine ⟨fun _ => trivial,fun _ => ?_⟩
  induction w with
  | nil => exact Language.nil_mem_kstar _
  | cons x w ih =>
    have hmem := (mem_repeated_mul (P := fun _ : α => True) (L := 1) (w := x::w)).mpr
      (.inr ⟨x,w,rfl,trivial,by rw [mul_one]; exact ih trivial⟩)
    rwa [mul_one] at hmem

end Letters

section Lines

variable {α : Type*} [DecidableEq α] (d : α)

/-- The words that a delimiter ends; what follows the last one is not among them. -/
def lines : List α → List (List α)
  | [] => []
  | x::w =>
    if x = d then []::lines w
    else
      match lines w with
      | [] => []
      | l::ls => (x::l)::ls

variable {d}

theorem lines_append {l : List α} (hl : d ∉ l) (w : List α) : lines d (l++d::w) = l::lines d w := by
  induction l with
  | nil => simp [lines]
  | cons x l ih =>
    have hx : x ≠ d := fun h => hl (by simp [h])
    rw [List.cons_append,lines,if_neg hx,ih fun h => hl (List.mem_cons_of_mem x h)]

theorem lines_unended {w : List α} (hw : d ∉ w) : lines d w = [] := by
  induction w with
  | nil => rfl
  | cons x w ih =>
    have hx : x ≠ d := fun h => hw (by simp [h])
    rw [lines,if_neg hx,ih fun h => hw (List.mem_cons_of_mem x h)]

variable (d)

def unlines (ls : List (List α)) : List α := ls.flatMap (·++[d])

variable {d}

theorem lines_unlines_append {ls : List (List α)} (hls : ∀ l ∈ ls, d ∉ l) (w : List α) :
    lines d (unlines d ls++w) = ls++lines d w := by
  induction ls with
  | nil => rfl
  | cons l ls ih =>
    have hcut : unlines d (l::ls)++w = l++d::(unlines d ls++w) := by simp [unlines]
    rw [hcut,lines_append (hls l (by simp)),ih fun l hl => hls l (by simp [hl])]
    rfl

end Lines

end ListlibSyscalls.WordLanguages
