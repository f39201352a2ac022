import ListlibSyscalls.LinkedChain

/-!
# Rings of links through a sentinel

In a ring the sentinel has links too: they lead to the first and to the last
position. Taking a position out and putting one in front of all others rewrite
the links of the neighbours, whichever of them is the sentinel. A search along
the links comes to the first position with a property, or back to the sentinel.
-/

set_option autoImplicit false

namespace ListlibSyscalls.LinkedRing
open LinkedChain

variable {ι : Type*}

def Ring (f g : ι → ι) (z : ι) (xs : List ι) : Prop := Doubly f g z (f z) (g z) xs

theorem Ring.sentinel_notMem {f g : ι → ι} {z : ι} {xs : List ι} (h : Ring f g z xs) : z ∉ xs :=
  fun hz => walk_ne_sentinel h.forward z hz rfl

theorem Ring.around {f g : ι → ι} {z b : ι} {as bs : List ι} (h : Ring f g z (as++b::bs)) :
    g b = final z as ∧ f b = bs.headD z := by
  obtain ⟨m,-,hb,-,hwb⟩ := (walk_append f z (f z) z as (b::bs)).mp h.forward
  obtain ⟨-,hgb,-⟩ := (back_append g z as (b::bs)).mp h.backward
  exact ⟨hgb,walk_enters hwb⟩

theorem headD_mem (z : ι) {xs : List ι} (h : xs ≠ []) : xs.headD z ∈ xs := by
  cases xs with
  | nil => exact absurd rfl h
  | cons x xs => exact List.mem_cons_self

section Surgery

variable [DecidableEq ι]

theorem Ring.unlink {f g : ι → ι} {z b : ι} {as bs : List ι} (h : Ring f g z (as++b::bs)) :
    Ring (Function.update f (g b) (f b)) (Function.update g (f b) (g b)) z (as++bs) := by
  obtain ⟨hgb,hfb⟩ := h.around
  obtain ⟨m,hwa,hmb,-,hwb⟩ := (walk_append f z (f z) z as (b::bs)).mp h.forward
  obtain ⟨hba,-,hbb⟩ := (back_append g z as (b::bs)).mp h.backward
  obtain ⟨hna,hnb,hd⟩ := List.nodup_append.mp h.distinct
  have hz := h.sentinel_notMem
  have hza : z ∉ as := fun hm => hz (List.mem_append_left _ hm)
  have hzb : z ∉ bs := fun hm => hz (List.mem_append_right _ (List.mem_cons_of_mem _ hm))
  have hdisj : ∀ x ∈ as, x ∉ bs := fun x hx hxb => hd x hx x (List.mem_cons_of_mem _ hxb) rfl
  -- no position behind the removed one is its predecessor, none before it its successor
  have hprev : ∀ x ∈ bs, x ≠ g b := by
    rintro x hx rfl
    rw [hgb] at hx
    by_cases ha : as = []
    · rw [ha] at hx
      exact hzb hx
    · exact hdisj _ (final_mem z ha) hx
  have hnext : ∀ x ∈ as, x ≠ f b := by
    rintro x hx rfl
    rw [hfb] at hx
    by_cases hb : bs = []
    · rw [hb] at hx
      exact hza hx
    · exact hdisj _ hx (headD_mem z hb)
  have hbs : Walk (Function.update f (g b) (f b)) z (f b) bs z :=
    walk_congr (fun x hx => Function.update_of_ne (hprev x hx) _ _) hwb
  constructor
  · rw [walk_append]
    by_cases ha : as = []
    · subst ha
      rw [hgb]
      refine ⟨f b,?_,hgb ▸ hbs⟩
      exact Function.update_self _ _ _
    · refine ⟨f b,?_,hbs⟩
      have hfinal : z ≠ g b := by
        rw [hgb]
        exact fun e => hza (e ▸ final_mem z ha)
      rw [Function.update_of_ne hfinal]
      apply walk_redirect hwa hna ha
      · intro x _ hx
        rw [← hgb] at hx
        exact Function.update_of_ne hx _ _
      · rw [← hgb]
        exact Function.update_self _ _ _
  · rw [back_append]
    refine ⟨back_congr (fun x hx => Function.update_of_ne (hnext x hx) _ _) hba,?_⟩
    cases bs with
    | nil => trivial
    | cons y ys =>
      have hy : f b = y := hfb
      refine ⟨?_,back_congr ?_ hbb.2⟩
      · rw [hy,Function.update_self,hgb]
      · intro x hx
        have hxy : x ≠ f b := by
          rw [hy]
          rintro rfl
          exact (List.nodup_cons.mp (List.nodup_cons.mp hnb).2).1 hx
        exact Function.update_of_ne hxy _ _
  · exact List.nodup_append.mpr ⟨hna,(List.nodup_cons.mp hnb).2,
      fun x hx y hy hxy => hdisj x hx (hxy ▸ hy)⟩
  · rw [final_append]
    by_cases hb : bs = []
    · subst hb
      have hfz : f b = z := hfb
      rw [hfz,Function.update_self,hgb]
      rfl
    · have hne : z ≠ f b := by
        rw [hfb]
        exact fun e => hzb (e ▸ headD_mem z hb)
      have hends := h.ends
      rw [final_append] at hends
      rw [Function.update_of_ne hne,← hends]
      exact final_default _ _ hb

/-- A position put in front: its own links first, then those of the neighbours. -/
theorem Ring.push {f g : ι → ι} {z b : ι} {xs : List ι} (h : Ring f g z xs) (hz : b ≠ z)
    (hb : b ∉ xs) :
    Ring (Function.update (Function.update f b (f z)) z b)
      (Function.update (Function.update g b z) (f z) b) z (b::xs) := by
  have henter := walk_enters h.forward
  have hzx := h.sentinel_notMem
  have hfz : f z ≠ b := by
    rw [henter]
    by_cases hx : xs = []
    · rw [hx]
      exact hz.symm
    · exact fun e => hb (e ▸ headD_mem z hx)
  have hsplice := @Doubly.splice ι f g (Function.update (Function.update f b (f z)) z b)
    (Function.update (Function.update g b z) (f z) b) z (f z) (g z) b [] xs h hz hb
    (fun x hx => absurd hx (by simp)) ?_ (fun hx => absurd rfl hx) ?_ (fun x hx => absurd hx (by simp))
    ?_ ?_ ?_
  · rw [if_pos rfl] at hsplice
    have hhead : Function.update (Function.update f b (f z)) z b z = b := Function.update_self _ _ _
    have htail : Function.update (Function.update g b z) (f z) b z = if xs = [] then b else g z := by
      split
      · next hx =>
        rw [hx] at henter
        rw [show f z = z from henter,Function.update_self]
      · next hx =>
        have hne : z ≠ f z := by
          rw [henter]
          exact fun e => hzx (e ▸ headD_mem z hx)
        rw [Function.update_of_ne hne,Function.update_of_ne hz.symm]
    rw [Ring,hhead,htail]
    exact hsplice
  · intro x hx
    have hxz : x ≠ z := fun e => hzx (e ▸ hx)
    have hxb : x ≠ b := fun e => hb (e ▸ hx)
    rw [Function.update_of_ne hxz,Function.update_of_ne hxb]
  · rw [Function.update_of_ne hz,Function.update_self,henter]
  · intro x hx hne
    have hxb : x ≠ b := fun e => hb (e ▸ hx)
    rw [← henter] at hne
    rw [Function.update_of_ne hne,Function.update_of_ne hxb]
  · intro _
    rw [← henter,Function.update_self]
  · rw [Function.update_of_ne hfz.symm,Function.update_self]
    rfl

/-- The first position along the links with a property; nothing without enough fuel. -/
def seek (f : ι → ι) (z : ι) (p : ι → Bool) : ℕ → ι → Option (Option ι)
  | 0, _ => none
  | k+1, a => if a = z then some none else if p a then some (some a) else seek f z p k (f a)

theorem seek_walk {f : ι → ι} {z a : ι} {xs : List ι} (p : ι → Bool) (h : Walk f z a xs z)
    {k : ℕ} (hk : xs.length < k) : seek f z p k a = some (xs.find? p) := by
  induction xs generalizing a k with
  | nil =>
    cases k with
    | zero => omega
    | succ k =>
      rw [seek,if_pos (show a = z from h)]
      rfl
  | cons x xs ih =>
    cases k with
    | zero => omega
    | succ k =>
      obtain ⟨rfl,hz,hw⟩ := h
      rw [List.length_cons] at hk
      rw [seek,if_neg hz,List.find?_cons]
      cases hp : p a with
      | true => rfl
      | false => exact ih hw (by omega)

end Surgery

end ListlibSyscalls.LinkedRing
