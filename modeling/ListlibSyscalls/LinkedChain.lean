import Mathlib.Data.List.Nodup
import Mathlib.Tactic

/-!
# Chains of links with a sentinel

A link table is a function from positions to positions with one sentinel
value. `Walk f z a xs b` says that following `f` from `a` visits exactly the
positions `xs`, none of them the sentinel, and stops in front of `b`. `Back`
is the converse condition on a second table, and `Doubly` joins both with the
two end positions. The splice and join rules take the changed tables with the
few entries that were rewritten, so one rule serves every insertion point.
-/

set_option autoImplicit false

namespace ListlibSyscalls.LinkedChain

variable {ι : Type*}

def Walk (f : ι → ι) (z : ι) : ι → List ι → ι → Prop
  | a, [], b => a = b
  | a, x::xs, b => a = x ∧ a ≠ z ∧ Walk f z (f x) xs b

def Back (g : ι → ι) : ι → List ι → Prop
  | _, [] => True
  | p, x::xs => g x = p ∧ Back g x xs

/-- The last position of a chain, the given default when there is none. -/
def final (z : ι) : List ι → ι
  | [] => z
  | x::xs => final x xs

/-- A doubly linked chain from `head` to `tail` through the positions `xs`. -/
structure Doubly (f g : ι → ι) (z head tail : ι) (xs : List ι) : Prop where
  forward : Walk f z head xs z
  backward : Back g z xs
  distinct : xs.Nodup
  ends : final z xs = tail

theorem walk_congr {f f' : ι → ι} {z a b : ι} {xs : List ι} (h : ∀ x ∈ xs, f' x = f x)
    (hp : Walk f z a xs b) : Walk f' z a xs b := by
  induction xs generalizing a with
  | nil => exact hp
  | cons x xs ih =>
    refine ⟨hp.1,hp.2.1,?_⟩
    rw [h x (by simp)]
    exact ih (fun y hy => h y (by simp [hy])) hp.2.2

theorem back_congr {g g' : ι → ι} {p : ι} {xs : List ι} (h : ∀ x ∈ xs, g' x = g x)
    (hb : Back g p xs) : Back g' p xs := by
  induction xs generalizing p with
  | nil => trivial
  | cons x xs ih =>
    refine ⟨?_,ih (fun y hy => h y (by simp [hy])) hb.2⟩
    rw [h x (by simp)]
    exact hb.1

theorem walk_unique {f : ι → ι} {z a : ι} {xs ys : List ι} (hx : Walk f z a xs z)
    (hy : Walk f z a ys z) : xs = ys := by
  induction xs generalizing a ys with
  | nil =>
    cases ys with
    | nil => rfl
    | cons y ys => exact absurd hx hy.2.1
  | cons x xs ih =>
    cases ys with
    | nil => exact absurd hy hx.2.1
    | cons y ys =>
      obtain ⟨hax,_,hx⟩ := hx
      obtain ⟨hay,_,hy⟩ := hy
      subst hax
      subst hay
      rw [ih hx hy]

theorem walk_ne_sentinel {f : ι → ι} {z a b : ι} {xs : List ι} (h : Walk f z a xs b) :
    ∀ x ∈ xs, x ≠ z := by
  induction xs generalizing a with
  | nil => simp
  | cons x xs ih =>
    intro y hy
    rcases List.mem_cons.mp hy with rfl | hy
    · exact h.1 ▸ h.2.1
    · exact ih h.2.2 y hy

theorem walk_append (f : ι → ι) (z a b : ι) (xs ys : List ι) :
    Walk f z a (xs++ys) b ↔ ∃ m, Walk f z a xs m ∧ Walk f z m ys b := by
  induction xs generalizing a with
  | nil => simp [Walk]
  | cons x xs ih => simp [Walk,ih,and_assoc]

theorem final_append (z : ι) (xs ys : List ι) :
    final z (xs++ys) = final (final z xs) ys := by
  induction xs generalizing z with
  | nil => rfl
  | cons x xs ih => exact ih x

theorem final_mem (z : ι) {xs : List ι} (h : xs ≠ []) : final z xs ∈ xs := by
  induction xs generalizing z with
  | nil => exact absurd rfl h
  | cons x xs ih =>
    cases xs with
    | nil => simp [final]
    | cons y ys => exact List.mem_cons_of_mem _ (ih x (by simp))

theorem final_default (z w : ι) {xs : List ι} (h : xs ≠ []) : final z xs = final w xs := by
  cases xs with
  | nil => exact absurd rfl h
  | cons x xs => rfl

theorem back_append (g : ι → ι) (p : ι) (xs ys : List ι) :
    Back g p (xs++ys) ↔ Back g p xs ∧ Back g (final p xs) ys := by
  induction xs generalizing p with
  | nil => simp [Back,final]
  | cons x xs ih => simp [Back,final,ih,and_assoc]

theorem walk_redirect {f f' : ι → ι} {z a b n : ι} {xs : List ι} (hw : Walk f z a xs b)
    (hn : xs.Nodup) (hx : xs ≠ []) (hf : ∀ x ∈ xs, x ≠ final z xs → f' x = f x)
    (hl : f' (final z xs) = n) : Walk f' z a xs n := by
  induction xs generalizing a with
  | nil => exact absurd rfl hx
  | cons x xs ih =>
    obtain ⟨hxs,hn⟩ := List.nodup_cons.mp hn
    refine ⟨hw.1,hw.2.1,?_⟩
    cases xs with
    | nil => exact hl
    | cons y ys =>
      have hm : final x (y::ys) ∈ y::ys := final_mem x (by simp)
      have hfx : f' x = f x := hf x (by simp) (fun h => hxs (h ▸ hm))
      rw [hfx]
      exact ih hw.2.2 hn (by simp) (fun w hw => hf w (by simp [hw])) hl

theorem walk_enters {f : ι → ι} {z a : ι} {xs : List ι} (h : Walk f z a xs z) :
    a = xs.headD z := by
  cases xs with
  | nil => exact h
  | cons x xs => exact h.1

/-- Splicing a fresh position between two parts of a chain. The tables are
rewritten at the last position before it and the first position after it. -/
theorem Doubly.splice {f g f' g' : ι → ι} {z head tail new : ι} {as bs : List ι}
    (h : Doubly f g z head tail (as++bs)) (hz : new ≠ z) (hfresh : new ∉ as++bs)
    (hfa : ∀ x ∈ as, x ≠ final z as → f' x = f x) (hfb : ∀ x ∈ bs, f' x = f x)
    (hfl : as ≠ [] → f' (final z as) = new) (hfn : f' new = bs.headD z)
    (hga : ∀ x ∈ as, g' x = g x) (hgb : ∀ x ∈ bs, x ≠ bs.headD z → g' x = g x)
    (hgh : bs ≠ [] → g' (bs.headD z) = new) (hgn : g' new = final z as) :
    Doubly f' g' z (if as = [] then new else head) (if bs = [] then new else tail)
      (as++new::bs) := by
  obtain ⟨m,hwa,hwb⟩ := (walk_append f z head z as bs).mp h.forward
  obtain ⟨hba,hbb⟩ := (back_append g z as bs).mp h.backward
  obtain ⟨hna,hnb,hd⟩ := List.nodup_append.mp h.distinct
  have hm := walk_enters hwb
  have hnew : Walk f' z new (new::bs) z :=
    ⟨rfl,hz,by rw [hfn,← hm]; exact walk_congr hfb hwb⟩
  constructor
  · rw [walk_append]
    by_cases ha : as = []
    · exact ⟨new,by simp [ha,Walk],hnew⟩
    · refine ⟨new,?_,hnew⟩
      rw [if_neg ha]
      exact walk_redirect hwa hna ha hfa (hfl ha)
  · rw [back_append]
    refine ⟨back_congr hga hba,hgn,?_⟩
    cases bs with
    | nil => trivial
    | cons y ys =>
      refine ⟨hgh (by simp),back_congr ?_ hbb.2⟩
      intro x hx
      have hne : x ≠ y := fun hxy => (List.nodup_cons.mp hnb).1 (hxy ▸ hx)
      exact hgb x (by simp [hx]) hne
  · rw [List.nodup_middle]
    exact List.nodup_cons.mpr ⟨hfresh,h.distinct⟩
  · rw [final_append]
    by_cases hb : bs = []
    · simp [hb,final]
    · rw [if_neg hb,← h.ends,final_append]
      exact final_default _ _ hb

theorem Doubly.join {f g f' g' : ι → ι} {z head₁ tail₁ head₂ tail₂ : ι} {as bs : List ι}
    (h₁ : Doubly f g z head₁ tail₁ as) (h₂ : Doubly f g z head₂ tail₂ bs)
    (ha : as ≠ []) (hb : bs ≠ []) (hd : ∀ x ∈ as, x ∉ bs)
    (hfa : ∀ x ∈ as, x ≠ tail₁ → f' x = f x) (hfb : ∀ x ∈ bs, f' x = f x)
    (hft : f' tail₁ = head₂) (hga : ∀ x ∈ as, g' x = g x)
    (hgb : ∀ x ∈ bs, x ≠ head₂ → g' x = g x) (hgh : g' head₂ = tail₁) :
    Doubly f' g' z head₁ tail₂ (as++bs) := by
  have he := h₁.ends
  constructor
  · rw [walk_append]
    refine ⟨head₂,?_,walk_congr hfb h₂.forward⟩
    exact walk_redirect h₁.forward h₁.distinct ha (by rw [he]; exact hfa) (by rw [he]; exact hft)
  · rw [back_append,he]
    refine ⟨back_congr hga h₁.backward,?_⟩
    have hn := h₂.distinct
    have hh := walk_enters h₂.forward
    have hbb := h₂.backward
    cases bs with
    | nil => exact absurd rfl hb
    | cons y ys =>
      simp only [List.headD_cons] at hh
      subst hh
      refine ⟨hgh,back_congr ?_ hbb.2⟩
      intro x hx
      exact hgb x (by simp [hx]) (fun hxy => (List.nodup_cons.mp hn).1 (hxy ▸ hx))
  · exact List.nodup_append.mpr ⟨h₁.distinct,h₂.distinct,
      fun x hx y hy hxy => hd x hx (hxy ▸ hy)⟩
  · rw [final_append,final_default _ z hb]
    exact h₂.ends

theorem Doubly.congr {f g f' g' : ι → ι} {z head tail : ι} {xs : List ι}
    (h : Doubly f g z head tail xs) (hf : ∀ x ∈ xs, f' x = f x) (hg : ∀ x ∈ xs, g' x = g x) :
    Doubly f' g' z head tail xs :=
  ⟨walk_congr hf h.forward,back_congr hg h.backward,h.distinct,h.ends⟩

theorem walk_final {f : ι → ι} {z a : ι} {xs : List ι} (h : Walk f z a xs z) (hx : xs ≠ []) :
    f (final z xs) = z := by
  induction xs generalizing a with
  | nil => exact absurd rfl hx
  | cons x xs ih =>
    cases xs with
    | nil => exact h.2.2
    | cons y ys => exact ih h.2.2 (by simp)

theorem final_reverse (z : ι) (xs : List ι) : final z xs.reverse = xs.headD z := by
  cases xs with
  | nil => rfl
  | cons x xs =>
    rw [List.reverse_cons,final_append]
    rfl

/-- Backward links that retrace a chain form a walk from its last position. -/
theorem back_walk {g : ι → ι} {z p : ι} {xs : List ι} (hb : Back g p xs) (hz : ∀ x ∈ xs, x ≠ z) :
    Walk g z (final p xs) xs.reverse p := by
  induction xs generalizing p with
  | nil => rfl
  | cons x xs ih =>
    rw [List.reverse_cons,walk_append]
    exact ⟨x,ih hb.2 (fun y hy => hz y (by simp [hy])),rfl,hz x (by simp),hb.1⟩

theorem walk_back {f : ι → ι} {z a b : ι} {xs : List ι} (hw : Walk f z a xs b) :
    Back f b xs.reverse := by
  induction xs generalizing a with
  | nil => trivial
  | cons x xs ih =>
    rw [List.reverse_cons,back_append,final_reverse]
    refine ⟨ih hw.2.2,?_,trivial⟩
    cases xs with
    | nil => exact hw.2.2
    | cons y ys => exact hw.2.2.1

theorem Doubly.reverse {f g : ι → ι} {z head tail : ι} {xs : List ι}
    (h : Doubly f g z head tail xs) : Doubly g f z tail head xs.reverse := by
  constructor
  · rw [← h.ends]
    exact back_walk h.backward (walk_ne_sentinel h.forward)
  · exact walk_back h.forward
  · exact List.nodup_reverse.mpr h.distinct
  · rw [final_reverse]
    exact (walk_enters h.forward).symm

/-- In a chain only the last position has no successor, and the backward link
of a successor leads back. -/
theorem Doubly.neighbour {f g : ι → ι} {z head tail c : ι} {xs : List ι}
    (h : Doubly f g z head tail xs) (hc : c ∈ xs) :
    (f c = z ↔ c = tail) ∧ (f c ≠ z → f c ∈ xs ∧ g (f c) = c) := by
  obtain ⟨as,bs,rfl⟩ := List.append_of_mem hc
  obtain ⟨m,_,rfl,_,hw⟩ := (walk_append f z head z as (c::bs)).mp h.forward
  obtain ⟨_,hb⟩ := (back_append g z as (m::bs)).mp h.backward
  have hlast := h.ends
  rw [final_append] at hlast
  cases bs with
  | nil => exact ⟨iff_of_true hw hlast,fun hne => absurd hw hne⟩
  | cons b bs =>
    obtain ⟨rfl,hz,_⟩ := hw
    have hm : tail ∈ f m::bs := by
      rw [← hlast]
      exact final_mem m (by simp)
    have hn := (List.nodup_cons.mp (List.nodup_append.mp h.distinct).2.1).1
    exact ⟨iff_of_false hz (fun e => hn (e ▸ hm)),fun _ => ⟨by simp,hb.2.1⟩⟩

/-- A set that the links do not leave contains every position visited. -/
theorem walk_confined {f : ι → ι} {z a b : ι} {xs : List ι} {P : ι → Prop}
    (h : Walk f z a xs b) (ha : a ≠ z → P a) (hf : ∀ x, P x → f x ≠ z → P (f x)) :
    ∀ x ∈ xs, P x := by
  induction xs generalizing a with
  | nil => simp
  | cons y ys ih =>
    obtain ⟨rfl,hz,hw⟩ := h
    intro x hx
    rcases List.mem_cons.mp hx with rfl | hx
    · exact ha hz
    · exact ih hw (hf a (ha hz)) x hx

def visited (f : ι → ι) : ι → ℕ → List ι
  | _, 0 => []
  | a, k+1 => a::visited f (f a) k

theorem walk_visited {f : ι → ι} {z a b : ι} {xs : List ι} (h : Walk f z a xs b) :
    xs = visited f a xs.length := by
  induction xs generalizing a with
  | nil => rfl
  | cons x xs ih =>
    obtain ⟨rfl,_,hw⟩ := h
    rw [List.length_cons,visited,← ih hw]

section Decidable

variable [DecidableEq ι]

instance decidableWalk (f : ι → ι) (z : ι) : (a : ι) → (xs : List ι) → (b : ι) →
    Decidable (Walk f z a xs b)
  | a, [], b => inferInstanceAs (Decidable (a = b))
  | a, x::xs, b =>
    have := decidableWalk f z (f x) xs b
    inferInstanceAs (Decidable (a = x ∧ a ≠ z ∧ Walk f z (f x) xs b))

instance decidableBack (g : ι → ι) : (p : ι) → (xs : List ι) → Decidable (Back g p xs)
  | _, [] => isTrue trivial
  | p, x::xs =>
    have := decidableBack g x xs
    inferInstanceAs (Decidable (g x = p ∧ Back g x xs))

instance decidableDoubly (f g : ι → ι) (z head tail : ι) (xs : List ι) :
    Decidable (Doubly f g z head tail xs) :=
  decidable_of_iff (Walk f z head xs z ∧ Back g z xs ∧ xs.Nodup ∧ final z xs = tail)
    ⟨fun ⟨h1,h2,h3,h4⟩ => ⟨h1,h2,h3,h4⟩,fun ⟨h1,h2,h3,h4⟩ => ⟨h1,h2,h3,h4⟩⟩

end Decidable

def ascending (a : ℤ) : ℕ → List ℤ
  | 0 => []
  | k+1 => a::ascending (a+1) k

theorem mem_ascending (a x : ℤ) (k : ℕ) : x ∈ ascending a k ↔ a ≤ x ∧ x < a+k := by
  induction k generalizing a with
  | zero => simp [ascending]
  | succ k ih =>
    rw [ascending,List.mem_cons,ih]
    omega

theorem ascending_nodup (a : ℤ) (k : ℕ) : (ascending a k).Nodup := by
  induction k generalizing a with
  | zero => simp [ascending]
  | succ k ih =>
    rw [ascending,List.nodup_cons,mem_ascending]
    exact ⟨by omega,ih (a+1)⟩

theorem ascending_length (a : ℤ) (k : ℕ) : (ascending a k).length = k := by
  induction k generalizing a with
  | zero => rfl
  | succ k ih => simp [ascending,ih]

theorem covering_length {xs : List ℤ} {k : ℕ} (hn : xs.Nodup)
    (hm : ∀ x, x ∈ xs ↔ 0 ≤ x ∧ x < k) : xs.length = k := by
  have hp : xs.Perm (ascending 0 k) := by
    rw [List.perm_ext_iff_of_nodup hn (ascending_nodup 0 k)]
    intro x
    rw [hm x,mem_ascending,zero_add]
  rw [hp.length_eq,ascending_length]

theorem ascending_walk (f : ℤ → ℤ) (a : ℤ) (k : ℕ) (ha : 0 ≤ a)
    (hf : ∀ i, a ≤ i → i < a+k → f i = i+1) (hl : f (a+k) = -1) :
    Walk f (-1) a (ascending a (k+1)) (-1) := by
  induction k generalizing a with
  | zero =>
    have hl' : f a = -1 := by simpa using hl
    exact ⟨rfl,by omega,hl'⟩
  | succ k ih =>
    have hw : f a = a+1 := hf a (le_refl a) (by push_cast; omega)
    have hlast : f (a+1+k) = -1 := by
      rw [← hl]
      congr 1
      push_cast
      ring
    have ht := ih (a+1) (by omega) (fun i h1 h2 => hf i (by omega) (by push_cast; omega)) hlast
    exact ⟨rfl,by omega,by rw [hw]; exact ht⟩

end ListlibSyscalls.LinkedChain
