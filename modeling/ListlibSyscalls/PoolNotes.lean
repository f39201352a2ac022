import ListlibSyscalls.PoolOwnership

/-!
# Histories with a note of the caller

A caller may keep a note of its own and bring it up to date after every reply.
The note changes nothing, so a history with a note goes through the same
effects, and an invariant that also speaks of the note is shown over them.
-/

set_option autoImplicit false

namespace ListlibSyscalls.PoolNotes
open StepRuns PoolMachine PoolHistory PoolReached PoolOwnership

variable {α β : Type}

structure Noted (α β : Type) where
  history : History α
  note : β

/-- How a caller brings its note up to date after a reply. -/
abbrev Writing (α β : Type) := Call α → Reply α → β → β

def Noted.step (cap : Capacity) (write : Writing α β) (n : Noted α β) (c : Call α) :
    Except Fault (Noted α β) := do
  let (s,r) ← exec cap n.history.pool c
  .ok ⟨n.history.record c s r,write c r n.note⟩

/-- A call, its reply, what the books then say, and its effect. -/
structure Replied (cap : Capacity) (h : History α) (c : Call α) (r : Reply α) (h' : History α) :
    Prop where
  reply : ∃ s, exec cap h.pool c = .ok (s,r) ∧ h' = h.record c s r
  effect : Effect h c h'

theorem replied {cap : Capacity} {write : Writing α β} {n n' : Noted α β} {c : Call α}
    (hk : Kept cap n.history) (hc : OnCreated n.history c)
    (hs : Accepts (Noted.step cap write) n c n') :
    ∃ r, Replied cap n.history c r n'.history ∧ n'.note = write c r n.note := by
  obtain ⟨⟨s,r⟩,he,hs⟩ := bind_ok hs
  cases hs
  refine ⟨r,⟨⟨s,he,rfl⟩,hk.effect hc ?_⟩,rfl⟩
  simp only [Accepts,History.step,he,ok_bind]

theorem noted_returns {cap : Capacity} (write : Writing α β) {n : Noted α β} {c : Call α}
    (hs : ∃ h', Steps cap n.history c h') : ∃ n', Accepts (Noted.step cap write) n c n' := by
  obtain ⟨h',hs⟩ := hs
  obtain ⟨⟨s,r⟩,he,_⟩ := bind_ok hs
  refine ⟨⟨n.history.record c s r,write c r n.note⟩,?_⟩
  simp only [Accepts,Noted.step,he,ok_bind]

theorem start_replied {cap : Capacity} {write : Writing α β} {n' : Noted α β} {c : Call α}
    {note : β} (hc : OnCreated (History.start : History α) c)
    (hs : Accepts (Noted.step cap write) ⟨History.start,note⟩ c n') :
    c = .create ∧ ∃ r, Replied cap (prefilled cap) .create r n'.history ∧
      n'.note = write .create r note := by
  have hcr := start_offers hc
  subst hcr
  refine ⟨rfl,?_⟩
  obtain ⟨⟨s,r⟩,he,hs⟩ := bind_ok hs
  cases hs
  have he' : exec cap (prefilled cap).pool .create = .ok (s,r) := (start_exec cap).symm.trans he
  have hon : OnCreated (prefilled cap : History α) .create := trivial
  refine ⟨r,⟨⟨s,he',rfl⟩,(prefilled_kept cap).effect hon ?_⟩,rfl⟩
  simp only [Accepts,History.step,he',ok_bind]
  rfl

theorem noted_invariant {cap : Capacity} {write : Writing α β} {note : β}
    {offered : Noted α β → Call α → Prop} {I : Noted α β → Prop}
    (ho : ∀ n c, offered n c → OnCreated n.history c) (h0 : I ⟨prefilled cap,note⟩)
    (hs : ∀ n c r h', Kept cap n.history → I n → OnCreated n.history c →
      (offered n c ∨ c = .create) → Replied cap n.history c r h' → I ⟨h',write c r n.note⟩)
    {n : Noted α β} (hr : Reach (Accepts (Noted.step cap write)) offered ⟨History.start,note⟩ n) :
    n = ⟨History.start,note⟩ ∨ (Kept cap n.history ∧ I n) := by
  apply hr.invariant (I := fun n => n = ⟨History.start,note⟩ ∨ (Kept cap n.history ∧ I n))
    (Or.inl rfl)
  rintro n c n' (rfl | ⟨hk,hi⟩) hc hst
  · obtain ⟨rfl,r,hrep,hnote⟩ := start_replied (ho _ _ hc) hst
    have hon : OnCreated (prefilled cap : History α) .create := trivial
    have hnew := hs ⟨prefilled cap,note⟩ .create r n'.history (prefilled_kept cap) h0 hon
      (Or.inr rfl) hrep
    rw [← hnote] at hnew
    exact Or.inr ⟨hrep.effect.kept (prefilled_kept cap) hon,hnew⟩
  · have hon := ho _ _ hc
    obtain ⟨r,hrep,hnote⟩ := replied hk hon hst
    have hnew := hs n c r n'.history hk hi hon (Or.inl hc) hrep
    rw [← hnote] at hnew
    exact Or.inr ⟨hrep.effect.kept hk hon,hnew⟩

end ListlibSyscalls.PoolNotes
