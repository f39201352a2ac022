import ListlibSyscalls.PoolReached

/-!
# Which runs stay inside the node array

Every insertion, `ListFirst`, `ListLast`, `ListCurr` and `ListCount` follow
array indices from every reached state. The remaining three functions test
the wrong field: `ListNext` only looks at `after` and `ListPrev` only at
`before`, so each steps from -1 when the cursor is off the opposite end, and
`ListConcat` tests its second list but links from the tail of its first.
-/

set_option autoImplicit false

namespace ListlibSyscalls.PoolIndexSafety
open StepRuns PoolMachine PoolHistory PoolInvariant PoolReached

variable {α : Type}

/-- Every element a run reads or writes is inside its array. -/
def StaysInside (cap : Capacity) (calls : List (Call α)) : Prop :=
  Completes (Steps cap) History.start calls

/-- The guard the three functions would need, in terms of the state before
the call. -/
def Guarded (h : History α) : Call α → Prop
  | .mover .next l => (h.pool.lists l).after = 1 ∨ (h.pool.lists l).curr ≠ -1
  | .mover .prev l => (h.pool.lists l).before = 1 ∨ (h.pool.lists l).curr ≠ -1
  | .concat l1 l2 => (h.pool.lists l2).count = 0 ∨ (h.pool.lists l1).count ≠ 0
  | _ => True

instance (h : History α) (c : Call α) : Decidable (Guarded h c) :=
  match c with
  | .mover .next _ => inferInstanceAs (Decidable (_ ∨ _))
  | .mover .prev _ => inferInstanceAs (Decidable (_ ∨ _))
  | .concat _ _ => inferInstanceAs (Decidable (_ ∨ _))
  | .create => inferInstanceAs (Decidable True)
  | .adder _ _ _ => inferInstanceAs (Decidable True)
  | .mover .first _ => inferInstanceAs (Decidable True)
  | .mover .last _ => inferInstanceAs (Decidable True)
  | .curr _ => inferInstanceAs (Decidable True)
  | .count _ => inferInstanceAs (Decidable True)

theorem guarded_iff (h : History α) (c : Call α) : Guarded h c ↔ IndexSafe h.pool c := by
  cases c with
  | mover m l => cases m <;> rfl
  | _ => rfl

theorem step_accepted_iff {cap : Capacity} {h : History α} {c : Call α} (hb : Begun cap h)
    (hc : OnCreated h c) : (∃ h', Steps cap h c h') ↔ Guarded h c := by
  have key {k : History α} (hk : Kept cap k) (hc : OnCreated k c) :
      (∃ h', Steps cap k c h') ↔ Guarded k c := by
    rw [guarded_iff]
    rcases hk.step_cases hc with ⟨hg,h',he,_⟩ | ⟨hg,he⟩
    · exact ⟨fun _ => hg,fun _ => ⟨h',he⟩⟩
    · exact ⟨fun ⟨h',hs⟩ => absurd hs (fun hs => forall_accepts_error he (fun _ => False) h' hs),
        fun hg' => absurd hg' hg⟩
  rcases hb with rfl | hk
  · have hcr := start_offers hc
    subst hcr
    have hp := (key (prefilled_kept cap) trivial).mpr trivial
    obtain ⟨h',hs⟩ := hp
    exact ⟨fun _ => trivial,fun _ => ⟨h',(start_step cap).trans hs⟩⟩
  · exact key hk hc

/-- A run stays inside the arrays exactly when each of its calls meets the
guard in the state it starts from. -/
theorem stays_inside_iff_guarded (cap : Capacity) (calls : List (Call α))
    (hp : Each (Steps cap) Proper History.start calls) :
    StaysInside cap calls ↔ Each (Steps cap) Guarded History.start calls :=
  completes_iff_each (I := Begun cap) accepts_deterministic
    (fun _ _ _ hb hc hs => hb.step hc.1 hs) (fun _ _ hb hc => step_accepted_iff hb hc.1)
    calls History.start (Or.inl rfl) hp

instance (cap : Capacity) (calls : List (Call α)) : Decidable (StaysInside cap calls) :=
  inferInstanceAs (Decidable (Completes (Steps cap) History.start calls))

/-- Calls that walk off the end, insert there, and concatenate an empty list. -/
def tour : List (Call ℕ) :=
  [.create,.create,.adder .append 0 10,.adder .append 0 20,.mover .first 0,.mover .next 0,
    .mover .next 0,.mover .next 0,.adder .insert 0 30,.concat 0 1]

theorem stays_inside_tour : Each (Steps shipped) Proper History.start tour ∧
    StaysInside shipped tour :=
  ⟨by decide,(stays_inside_iff_guarded shipped tour (by decide)).mpr (by decide)⟩

/-- The first `ListNext` on a fresh list, `ListPrev` from after the last item
and `ListConcat` onto an empty list all leave the node array. -/
theorem leaves_the_array :
    (Each (Steps shipped) Proper (History.start : History ℕ) [.create,.mover .next 0] ∧
      ¬ StaysInside shipped ([.create,.mover .next 0] : List (Call ℕ))) ∧
    (Each (Steps shipped) Proper History.start
        [.create,.adder .append 0 10,.adder .append 0 20,.mover .next 0,.mover .prev 0] ∧
      ¬ StaysInside shipped
        [.create,.adder .append 0 10,.adder .append 0 20,.mover .next 0,.mover .prev 0]) ∧
    (Each (Steps shipped) Proper History.start
        [.create,.create,.adder .append 1 10,.concat 0 1] ∧
      ¬ StaysInside shipped [.create,.create,.adder .append 1 10,.concat 0 1]) := by
  decide

end ListlibSyscalls.PoolIndexSafety
