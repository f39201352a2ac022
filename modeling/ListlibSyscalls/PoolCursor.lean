import ListlibSyscalls.PoolIndexSafety

/-!
# The cursor flags over whole runs

The cursor is encoded three times. The encodings agree after every call of
`ListFirst`, `ListNext`, `ListPrev` and of every insertion at the end or at
the cursor. `ListLast` clears one flag where `ListFirst` clears both, and
`ListPrepend` on a list with items clears none where `ListAppend` clears both.
A run keeps the encodings in agreement exactly when it never takes one of
these two paths with the flag it forgets set.
-/

set_option autoImplicit false

namespace ListlibSyscalls.PoolCursor
open StepRuns PoolMachine PoolHistory PoolSplice PoolMoves PoolInvariant PoolReached
open PoolIndexSafety

variable {α : Type}

/-- At most one flag, and one exactly when the cursor is on no node. -/
def Agree (L : LIST) : Prop :=
  ¬ (L.before = 1 ∧ L.after = 1) ∧ (L.curr = -1 ↔ L.before = 1 ∨ L.after = 1)

instance (L : LIST) : Decidable (Agree L) := inferInstanceAs (Decidable (_ ∧ _))

def FlagsAgree (h : History α) : Prop := ∀ l ∈ h.created, Agree (h.pool.lists l)

instance (h : History α) : Decidable (FlagsAgree h) :=
  inferInstanceAs (Decidable (∀ l ∈ h.created, _))

/-- The state before the call does not have the flag set that the call forgets. -/
def NoStaleFlag (h : History α) : Call α → Prop
  | .mover .last l => (h.pool.lists l).count = 0 ∨ (h.pool.lists l).after ≠ 1
  | .adder .prepend l _ => h.pool.freeNodeHead = -1 ∨ (h.pool.lists l).count = 0 ∨
      ((h.pool.lists l).before ≠ 1 ∧ (h.pool.lists l).after ≠ 1)
  | .adder .insert l _ => h.pool.freeNodeHead = -1 ∨ (h.pool.lists l).count = 0 ∨
      (h.pool.lists l).before ≠ 1
  | _ => True

instance (h : History α) (c : Call α) : Decidable (NoStaleFlag h c) :=
  match c with
  | .mover .last _ => inferInstanceAs (Decidable (_ ∨ _))
  | .adder .prepend _ _ => inferInstanceAs (Decidable (_ ∨ _ ∨ _))
  | .adder .insert _ _ => inferInstanceAs (Decidable (_ ∨ _ ∨ _))
  | .create => inferInstanceAs (Decidable True)
  | .adder .add _ _ => inferInstanceAs (Decidable True)
  | .adder .append _ _ => inferInstanceAs (Decidable True)
  | .mover .first _ => inferInstanceAs (Decidable True)
  | .mover .next _ => inferInstanceAs (Decidable True)
  | .mover .prev _ => inferInstanceAs (Decidable True)
  | .curr _ => inferInstanceAs (Decidable True)
  | .count _ => inferInstanceAs (Decidable True)
  | .concat _ _ => inferInstanceAs (Decidable True)

theorem agree_emptied (L : LIST) : Agree (emptied L) := by simp [Agree,emptied]

theorem agree_splicedList_end (L : LIST) (n : ℤ) (hn : n ≠ -1) :
    Agree (splicedList .atEnd L n) := by
  simp [Agree,splicedList,hn]

theorem agree_splicedList_front (L : LIST) (n : ℤ) (hn : n ≠ -1) :
    Agree (splicedList .atFront L n) ↔ L.count = 0 ∨ (L.before ≠ 1 ∧ L.after ≠ 1) := by
  by_cases hc : L.count = 0
  · simp [Agree,splicedList,hn,hc]
  · simp only [Agree,splicedList,hc,hn,if_false,false_iff,false_or,not_or]
    tauto

theorem agree_splicedList (h : History α) (a : Adder) (l : ℤ) (x : α)
    (hf : h.pool.freeNodeHead ≠ -1) (hL : Agree (h.pool.lists l)) :
    Agree (splicedList (splice a (h.pool.lists l)) (h.pool.lists l) h.pool.freeNodeHead) ↔
      NoStaleFlag h (.adder a l x) := by
  have hend := agree_splicedList_end (h.pool.lists l) _ hf
  have hfront := agree_splicedList_front (h.pool.lists l) _ hf
  cases a with
  | append => simp [splice,hend,NoStaleFlag]
  | prepend => simp [splice,hfront,NoStaleFlag,hf]
  | insert =>
    by_cases hc : (h.pool.lists l).count = 0
    · simp [splice,hc,hend,NoStaleFlag]
    by_cases hb : (h.pool.lists l).before = 1
    · simp [splice,hc,hb,hfront,NoStaleFlag,hf]
    by_cases ha : (h.pool.lists l).after = 1
    · simp [splice,hc,hb,ha,hend,NoStaleFlag]
    · simp [splice,hc,hb,ha,NoStaleFlag,Agree,splicedList,hf]
  | add =>
    by_cases hc : (h.pool.lists l).count = 0 ∨ (h.pool.lists l).after = 1 ∨
        (h.pool.lists l).curr = -1
    · simp [splice,hc,hend,NoStaleFlag]
    · have hb : (h.pool.lists l).before ≠ 1 := fun hb =>
        hc (Or.inr (Or.inr (hL.2.mpr (Or.inl hb))))
      simp only [splice,if_neg hc,if_neg hb,NoStaleFlag,iff_true]
      exact hL

theorem agree_movedList (h : History α) (m : Mover) (l : ℤ) (c : Node α)
    (hr : Record (h.pool.lists l)) (hm : Sound.Steppable h.pool l m)
    (hL : Agree (h.pool.lists l)) :
    Agree (movedList m (h.pool.lists l) c) ↔ NoStaleFlag h (.mover m l) := by
  cases m with
  | first =>
    by_cases hc : (h.pool.lists l).count = 0
    · simpa [movedList,hc,NoStaleFlag] using hL
    · simp [movedList,hc,NoStaleFlag,Agree,(hr.ends hc).1]
  | last =>
    by_cases hc : (h.pool.lists l).count = 0
    · simpa [movedList,hc,NoStaleFlag] using hL
    · simp [movedList,hc,NoStaleFlag,Agree,(hr.ends hc).2]
  | next =>
    simp only [movedList,NoStaleFlag,iff_true]
    split_ifs with ha hx
    · exact hL
    · simp [Agree]
    · have hc : (h.pool.lists l).curr ≠ -1 := hm.resolve_left ha
      have hb : (h.pool.lists l).before ≠ 1 := fun hb => hc (hL.2.mpr (Or.inl hb))
      simp [Agree,ha,hb,hx]
  | prev =>
    simp only [movedList,NoStaleFlag,iff_true]
    split_ifs with hb hx
    · exact hL
    · simp [Agree]
    · have hc : (h.pool.lists l).curr ≠ -1 := hm.resolve_left hb
      have ha : (h.pool.lists l).after ≠ 1 := fun ha => hc (hL.2.mpr (Or.inr ha))
      simp [Agree,ha,hb,hx]

theorem flagsAgree_update (h : History α) (hP : FlagsAgree h) {l : ℤ} (hl : l ∈ h.created)
    (L : LIST) : (∀ k ∈ h.created, Agree (Function.update h.pool.lists l L k)) ↔ Agree L := by
  constructor
  · intro hk
    simpa using hk l hl
  · intro hL k hk
    by_cases he : k = l
    · subst he
      rwa [Function.update_self]
    · rw [Function.update_of_ne he]
      exact hP k hk

theorem effect_flagsAgree {cap : Capacity} {h h' : History α} {c : Call α} (hk : Kept cap h)
    (hP : FlagsAgree h) (hc : OnCreated h c) (he : Effect h c h') :
    FlagsAgree h' ↔ NoStaleFlag h c := by
  cases he with
  | opened hf =>
    simp only [NoStaleFlag,iff_true]
    obtain ⟨hi,hn⟩ := hk.free_list hf
    intro l hl
    dsimp only [opened]
    by_cases he : l = h.pool.freeListHead
    · subst he
      rw [Function.update_self,hk.unused _ hi hn]
      simp [Agree,emptied]
    · rw [Function.update_of_ne he]
      exact hP l ((List.mem_append.mp hl).resolve_right (by simpa using he))
  | noSlot => simpa [NoStaleFlag] using hP
  | spliced a l x hf =>
    rw [← agree_splicedList h a l x hf (hP l hc)]
    exact flagsAgree_update h hP hc _
  | exhausted a l x hf =>
    have hQ : NoStaleFlag h (.adder a l x) := by cases a <;> simp [NoStaleFlag,hf]
    exact iff_of_true hP hQ
  | moved m l hm =>
    have hr := hk.sound.records l (hk.created_index l hc)
    rw [← agree_movedList h m l (h.pool.nodes (h.pool.lists l).curr) hr hm (hP l hc)]
    exact flagsAgree_update h hP hc _
  | looked c hl =>
    rcases hl with ⟨l,rfl⟩ | ⟨l,rfl⟩
    · simpa [NoStaleFlag] using hP
    · simpa [NoStaleFlag] using hP
  | joined l1 l2 hc2 hc1 =>
    simp only [NoStaleFlag,iff_true]
    intro l hl
    dsimp only [joined]
    by_cases e2 : l = l2
    · rw [e2,Function.update_self]
      exact agree_emptied _
    · rw [Function.update_of_ne e2]
      by_cases e1 : l = l1
      · subst e1
        rw [Function.update_self]
        exact hP l hl
      · rw [Function.update_of_ne e1]
        exact hP l hl
  | nothing l1 l2 hc2 => exact iff_of_true hP trivial

theorem step_flagsAgree {cap : Capacity} {h h' : History α} {c : Call α} (hb : Begun cap h)
    (hP : FlagsAgree h) (hc : OnCreated h c) (hs : Steps cap h c h') :
    FlagsAgree h' ↔ NoStaleFlag h c := by
  rcases hb with rfl | hk
  · obtain ⟨rfl,hon,he⟩ := start_effect hc hs
    have hP0 : FlagsAgree (prefilled cap : History α) := by
      intro l hl
      simp [prefilled,History.start] at hl
    have hiff := effect_flagsAgree (prefilled_kept cap) hP0 hon he
    exact iff_of_true (hiff.mpr trivial) trivial
  · exact effect_flagsAgree hk hP hc (hk.effect hc hs)

/-- The three encodings of the cursor agree in every state of a run exactly
when none of its calls forgets a flag that is set. -/
theorem flags_agree_iff_none_stale (cap : Capacity) (calls : List (Call α))
    (ho : Each (Steps cap) OnCreated History.start calls) :
    Always (Steps cap) FlagsAgree History.start calls ↔
      Each (Steps cap) NoStaleFlag History.start calls := by
  apply always_iff_each (I := Begun cap) (O := OnCreated)
  · exact fun _ _ _ hb hc hs => hb.step hc hs
  · intro h c hb _ hc hrefused
    have hg : ¬ Guarded h c := fun hg =>
      let ⟨h',hs⟩ := (step_accepted_iff hb hc).mpr hg
      hrefused h' hs
    cases c with
    | mover m l => cases m <;> first | trivial | exact absurd trivial hg
    | adder a l x => exact absurd trivial hg
    | _ => trivial
  · exact fun _ _ _ hb hP hc hs => step_flagsAgree hb hP hc hs
  · exact Or.inl rfl
  · intro l hl
    simp [History.start] at hl
  · exact ho

theorem flags_agree_tour : Each (Steps shipped) OnCreated History.start tour ∧
    Always (Steps shipped) FlagsAgree History.start tour :=
  ⟨by decide,(flags_agree_iff_none_stale shipped tour (by decide)).mpr (by decide)⟩

/-- `ListLast` after walking off the end leaves the cursor on the last node
with `after` still set, and `ListPrepend` in its place leaves it on the first. -/
theorem stale_flags :
    (Each (Steps shipped) OnCreated History.start
        [.create,.adder .append 0 10,.adder .append 0 20,.mover .next 0,.mover .last 0] ∧
      ¬ Always (Steps shipped) FlagsAgree History.start
        [.create,.adder .append 0 10,.adder .append 0 20,.mover .next 0,.mover .last 0]) ∧
    (Each (Steps shipped) OnCreated History.start
        [.create,.adder .append 0 10,.adder .append 0 20,.mover .next 0,.adder .prepend 0 30] ∧
      ¬ Always (Steps shipped) FlagsAgree History.start
        [.create,.adder .append 0 10,.adder .append 0 20,.mover .next 0,.adder .prepend 0 30]) := by
  decide

end ListlibSyscalls.PoolCursor
