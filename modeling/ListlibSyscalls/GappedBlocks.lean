import Mathlib.Data.List.Pairwise

/-!
# Sorted lists of blocks that never touch

A block is an address and a size. In a gapped list every block ends strictly
before the next one starts, so two neighbours are never one block cut in two.
A block is put back by `insertBlock`, which glues it to the neighbours that it
touches; one that is taken away is cut from the end of a block of the list.
-/

set_option autoImplicit false

namespace ListlibSyscalls.GappedBlocks

abbrev Block := ℕ × ℕ

def Below (x y : Block) : Prop := x.1+x.2 < y.1

def Gapped (fs : List Block) : Prop := fs.Pairwise Below

def Apart (x y : Block) : Prop := x.1+x.2 ≤ y.1 ∨ y.1+y.2 ≤ x.1

def units : List Block → ℕ
  | [] => 0
  | x::fs => x.2+units fs

/-- A block in front of a list, as one with its first block if they touch. -/
def glue (x : Block) : List Block → List Block
  | [] => [x]
  | y::ys => if x.1+x.2 = y.1 then (x.1,x.2+y.2)::ys else x::y::ys

def insertBlock (x : Block) : List Block → List Block
  | [] => [x]
  | y::ys => if x.1 < y.1 then glue x (y::ys) else glue y (insertBlock x ys)

/-- What is left of a block after `n` units are cut from its end. -/
def rest (n : ℕ) (x : Block) : List Block := if x.2 = n then [] else [(x.1,x.2-n)]

def cut (n : ℕ) (x : Block) : Block := (x.1+(x.2-n),n)

theorem Apart.symm {x y : Block} (h : Apart x y) : Apart y x := Or.symm h

@[simp] theorem units_nil : units [] = 0 := rfl

@[simp] theorem units_cons (x : Block) (fs : List Block) : units (x::fs) = x.2+units fs := rfl

@[simp] theorem units_append (fs gs : List Block) : units (fs++gs) = units fs+units gs := by
  induction fs with
  | nil => simp
  | cons x fs ih =>
    rw [List.cons_append,units_cons,units_cons,ih]
    omega

theorem glue_head (x : Block) (fs : List Block) : ∃ m zs, glue x fs = (x.1,m)::zs := by
  cases fs with
  | nil => exact ⟨x.2,[],rfl⟩
  | cons y ys =>
    rw [glue]
    split
    · exact ⟨_,_,rfl⟩
    · exact ⟨x.2,_,rfl⟩

theorem forall_glue {P : Block → Prop} (hP : ∀ x y : Block, P x → P y → x.1+x.2 = y.1 → P (x.1,x.2+y.2))
    (x : Block) (fs : List Block) (hx : P x) (hfs : ∀ y ∈ fs, P y) : ∀ y ∈ glue x fs, P y := by
  cases fs with
  | nil => simpa [glue] using hx
  | cons y ys =>
    rw [glue]
    split
    · next h =>
      intro z hz
      rcases List.mem_cons.mp hz with rfl|hz
      · exact hP x y hx (hfs y List.mem_cons_self) h
      · exact hfs z (List.mem_cons_of_mem y hz)
    · intro z hz
      rcases List.mem_cons.mp hz with rfl|hz
      · exact hx
      · exact hfs z hz

theorem forall_insert {P : Block → Prop}
    (hP : ∀ x y : Block, P x → P y → x.1+x.2 = y.1 → P (x.1,x.2+y.2)) (x : Block) (fs : List Block)
    (hx : P x) (hfs : ∀ y ∈ fs, P y) : ∀ y ∈ insertBlock x fs, P y := by
  induction fs with
  | nil => simpa [insertBlock] using hx
  | cons y ys ih =>
    rw [insertBlock]
    split
    · exact forall_glue hP x (y::ys) hx hfs
    · exact forall_glue hP y _ (hfs y List.mem_cons_self)
        (ih fun z hz => hfs z (List.mem_cons_of_mem y hz))

theorem units_glue (x : Block) (fs : List Block) : units (glue x fs) = x.2+units fs := by
  cases fs with
  | nil => rfl
  | cons y ys =>
    rw [glue]
    split
    · simp only [units_cons]
      omega
    · simp only [units_cons]

theorem units_insert (x : Block) (fs : List Block) :
    units (insertBlock x fs) = x.2+units fs := by
  induction fs with
  | nil => rfl
  | cons y ys ih =>
    rw [insertBlock]
    split
    · exact units_glue x (y::ys)
    · rw [units_glue,ih]
      simp only [units_cons]
      omega

theorem gapped_glue {x : Block} {fs : List Block} (hg : Gapped fs) (hx : ∀ y ∈ fs, x.1+x.2 ≤ y.1)
    (hpos : ∀ y ∈ fs, 0 < y.2) : Gapped (glue x fs) := by
  cases fs with
  | nil => simp [glue,Gapped]
  | cons y ys =>
    have hy := List.pairwise_cons.mp hg
    rw [glue]
    split
    · next h =>
      refine List.pairwise_cons.mpr ⟨fun z hz => ?_,hy.2⟩
      have := hy.1 z hz
      simp only [Below] at this ⊢
      omega
    · next h =>
      refine List.pairwise_cons.mpr ⟨fun z hz => ?_,hg⟩
      have hxy := hx y List.mem_cons_self
      have hypos := hpos y List.mem_cons_self
      rcases List.mem_cons.mp hz with rfl|hz
      · simp only [Below]
        omega
      · have := hy.1 z hz
        simp only [Below] at this ⊢
        omega

theorem gapped_insert {x : Block} {fs : List Block} (hg : Gapped fs) (hx : ∀ y ∈ fs, Apart x y)
    (hxpos : 0 < x.2) (hpos : ∀ y ∈ fs, 0 < y.2) : Gapped (insertBlock x fs) := by
  induction fs with
  | nil => simp [insertBlock,Gapped]
  | cons y ys ih =>
    have hy := List.pairwise_cons.mp hg
    have hxy := hx y List.mem_cons_self
    rw [insertBlock]
    split
    · next h =>
      apply gapped_glue hg _ hpos
      intro z hz
      rcases List.mem_cons.mp hz with rfl|hz
      · simp only [Apart] at hxy
        omega
      · have := hy.1 z hz
        simp only [Apart,Below] at hxy this
        omega
    · next h =>
      have hrest := ih hy.2 (fun z hz => hx z (List.mem_cons_of_mem y hz))
        (fun z hz => hpos z (List.mem_cons_of_mem y hz))
      apply gapped_glue hrest
      · apply forall_insert (P := fun z => y.1+y.2 ≤ z.1) (fun _ _ h _ _ => h)
        · have := hpos y List.mem_cons_self
          simp only [Apart] at hxy
          omega
        · intro z hz
          exact Nat.le_of_lt (hy.1 z hz)
      · exact forall_insert (P := fun z => 0 < z.2) (fun _ _ h _ _ => Nat.add_pos_left h _) x ys hxpos
          fun z hz => hpos z (List.mem_cons_of_mem y hz)

theorem insertBlock_front {x : Block} {bs : List Block} (hb : ∀ y ∈ bs, x.1 < y.1) :
    insertBlock x bs = glue x bs := by
  cases bs with
  | nil => rfl
  | cons y ys => rw [insertBlock,if_pos (hb y List.mem_cons_self)]

theorem insertBlock_after {x q : Block} {as bs : List Block} (hg : Gapped (as++q::bs))
    (hq : q.1 < x.1) (hb : ∀ y ∈ bs, x.1 < y.1) :
    insertBlock x (as++q::bs) = as++glue q (glue x bs) := by
  induction as with
  | nil =>
    rw [List.nil_append,List.nil_append,insertBlock,if_neg (by omega),insertBlock_front hb]
  | cons y as ih =>
    have hy := List.pairwise_cons.mp hg
    have hyq : Below y q := hy.1 q (by simp)
    rw [List.cons_append,insertBlock,if_neg (by simp only [Below] at hyq; omega),ih hy.2,
      List.cons_append]
    -- the block after `y` is an old one, or `q` with a larger size
    cases as with
    | nil =>
      obtain ⟨m,zs,hm⟩ := glue_head q (glue x bs)
      rw [List.nil_append,hm,glue,if_neg]
      simp only [Below] at hyq
      exact Nat.ne_of_lt hyq
    | cons z as =>
      have hyz : Below y z := hy.1 z (by simp)
      rw [List.cons_append,glue,if_neg]
      simp only [Below] at hyz
      exact Nat.ne_of_lt hyz

theorem insert_holds (x : Block) (fs : List Block) :
    ∃ y ∈ insertBlock x fs, x.2 ≤ y.2 := by
  have hglue : ∀ (z : Block) (ys : List Block) (m : ℕ), (∃ y ∈ z::ys, m ≤ y.2) →
      ∃ y ∈ glue z ys, m ≤ y.2 := by
    rintro z ys m ⟨y,hy,hm⟩
    cases ys with
    | nil => exact ⟨y,hy,hm⟩
    | cons w ws =>
      rw [glue]
      split
      · rcases List.mem_cons.mp hy with rfl|hy
        · exact ⟨_,List.mem_cons_self,by dsimp only; omega⟩
        · rcases List.mem_cons.mp hy with rfl|hy
          · exact ⟨_,List.mem_cons_self,by dsimp only; omega⟩
          · exact ⟨y,List.mem_cons_of_mem _ hy,hm⟩
      · exact ⟨y,hy,hm⟩
  induction fs with
  | nil => exact ⟨x,List.mem_cons_self,Nat.le_refl _⟩
  | cons y ys ih =>
    rw [insertBlock]
    split
    · exact hglue x (y::ys) x.2 ⟨x,List.mem_cons_self,Nat.le_refl _⟩
    · obtain ⟨z,hz,hm⟩ := ih
      exact hglue y _ x.2 ⟨z,List.mem_cons_of_mem y hz,hm⟩

theorem mem_rest {n : ℕ} {x y : Block} : y ∈ rest n x ↔ x.2 ≠ n ∧ y = (x.1,x.2-n) := by
  rw [rest]
  split
  · next h => simp [h]
  · next h => simp [h]

theorem units_rest {n : ℕ} {x : Block} (h : n ≤ x.2) : units (rest n x)+n = x.2 := by
  rw [rest]
  split
  · simp only [units_nil]
    omega
  · simp only [units_cons,units_nil]
    omega

theorem units_le {lo hi : ℕ} {fs : List Block} (hg : Gapped fs)
    (hr : ∀ x ∈ fs, lo ≤ x.1 ∧ x.1+x.2 ≤ hi) (h : lo ≤ hi) : lo+units fs ≤ hi := by
  induction fs generalizing lo with
  | nil => exact h
  | cons x fs ih =>
    have hx := hr x List.mem_cons_self
    have hfs := List.pairwise_cons.mp hg
    have := @ih (x.1+x.2) hfs.2 (fun y hy => by
      have h1 := hfs.1 y hy
      have h2 := hr y (List.mem_cons_of_mem x hy)
      simp only [Below] at h1
      omega) hx.2
    rw [units_cons]
    omega

theorem length_le_units {fs : List Block} (hpos : ∀ x ∈ fs, 0 < x.2) : fs.length ≤ units fs := by
  induction fs with
  | nil => exact Nat.zero_le _
  | cons x fs ih =>
    have := ih fun y hy => hpos y (List.mem_cons_of_mem x hy)
    have := hpos x List.mem_cons_self
    rw [List.length_cons,units_cons]
    omega

theorem addresses_nodup {fs : List Block} (hg : Gapped fs) : (fs.map Prod.fst).Nodup := by
  rw [List.Nodup,List.pairwise_map]
  refine List.Pairwise.imp (fun h he => ?_) hg
  simp only [Below] at h
  omega

end ListlibSyscalls.GappedBlocks
