import ListlibSyscalls.PoolNotes
import ListlibSyscalls.PoolRefusals

/-!
# List slots and consumed lists

The caller notes which of its lists are still its own: `ListCreate` hands one
out, and the second list of `ListConcat` is consumed. A slot that is neither
noted nor on the chain of free lists can never be created again.
-/

set_option autoImplicit false

namespace ListlibSyscalls.PoolSlots
open StepRuns LinkedChain PoolMachine PoolHistory PoolMoves PoolInvariant PoolReached PoolNotes
open PoolRefusals

variable {α : Type}

def handedOut : Reply α → List ℤ
  | .list (some l) => [l]
  | _ => []

def unconsumed : Call α → List ℤ → List ℤ
  | .concat _ l2, ls => ls.filter (· ≠ l2)
  | _, ls => ls

/-- The lists created and not yet consumed. -/
def live : Writing α (List ℤ) := fun c r ls => unconsumed c ls++handedOut r

/-- The calls of a caller that treats consumed lists as gone. -/
def OnLive (n : Noted α (List ℤ)) (c : Call α) : Prop :=
  Proper { n.history with created := n.note } c

instance (n : Noted α (List ℤ)) (c : Call α) : Decidable (OnLive n c) :=
  inferInstanceAs (Decidable (Proper _ c))

abbrev fresh : Noted α (List ℤ) := ⟨History.start,[]⟩

/-- Each slot is a list of the caller or free, not both and not neither, and
a creation fails only when the caller has `MAX_LISTS` lists. -/
def SlotsConserved (cap : Capacity) (n : Noted α (List ℤ)) : Prop :=
  n.history.pool.initialized ≠ 0 →
    (∃ xs, Walk (fun l => (n.history.pool.lists l).link) (-1) n.history.pool.freeListHead xs (-1) ∧
      ∀ l, ListIndex cap l → Xor (l ∈ n.note) (l ∈ xs)) ∧
    ∀ s, listCreate cap n.history.pool = .ok (s,none) → n.note.length = cap.maxLists

/-- A concatenation that returns consumes a list. -/
def NothingConsumed (n : Noted α (List ℤ)) : Call α → Prop
  | .concat l1 l2 => ¬ Sound.Joinable n.history.pool l1 l2
  | _ => True

instance (n : Noted α (List ℤ)) (c : Call α) : Decidable (NothingConsumed n c) :=
  match c with
  | .concat _ _ => inferInstanceAs (Decidable (¬ (_ ∨ _)))
  | .create => inferInstanceAs (Decidable True)
  | .adder _ _ _ => inferInstanceAs (Decidable True)
  | .mover _ _ => inferInstanceAs (Decidable True)
  | .curr _ => inferInstanceAs (Decidable True)
  | .count _ => inferInstanceAs (Decidable True)

section Slots

variable {cap : Capacity} {n n' : Noted α (List ℤ)} {c : Call α} {r : Reply α}

def Listed (cap : Capacity) (n : Noted α (List ℤ)) : Prop :=
  n = fresh ∨ (Kept cap n.history ∧ n.note.Sublist n.history.created)

theorem onCreated_of_onLive (hsub : n.note.Sublist n.history.created) (hc : OnLive n c) :
    OnCreated n.history c := by
  obtain ⟨hc,_⟩ := hc
  cases c with
  | create => trivial
  | concat l1 l2 => exact ⟨hsub.subset hc.1,hsub.subset hc.2⟩
  | _ => exact hsub.subset hc

theorem record_created (h : History α) (c : Call α) (s : Pool α) (r : Reply α) :
    (h.record c s r).created = h.created++handedOut r := by
  cases r with
  | list p => cases p <;> simp [History.record,handedOut]
  | _ => simp [History.record,handedOut]

theorem unconsumed_sublist (c : Call α) (ls : List ℤ) : (unconsumed c ls).Sublist ls := by
  cases c with
  | concat l1 l2 => exact List.filter_sublist
  | _ => exact List.Sublist.refl ls

theorem live_sublist (hsub : n.note.Sublist n.history.created) {h' : History α}
    (hr : Replied cap n.history c r h') : (live c r n.note).Sublist h'.created := by
  obtain ⟨s,_,rfl⟩ := hr.reply
  rw [record_created]
  exact ((unconsumed_sublist c _).trans hsub).append (List.Sublist.refl _)

theorem listed_replied (hk : Kept cap n.history) (hsub : n.note.Sublist n.history.created)
    (hc : OnCreated n.history c) (hr : Replied cap n.history c r n'.history)
    (hn : n'.note = live c r n.note) :
    Kept cap n'.history ∧ n'.note.Sublist n'.history.created := by
  refine ⟨hr.effect.kept hk hc,?_⟩
  rw [hn]
  exact live_sublist hsub hr

theorem Listed.step (hi : Listed cap n) (hc : OnLive n c)
    (hs : Accepts (Noted.step cap live) n c n') : Listed cap n' := by
  right
  rcases hi with rfl | ⟨hk,hsub⟩
  · obtain ⟨rfl,r,hr,hn⟩ := start_replied (onCreated_of_onLive (List.Sublist.refl _) hc) hs
    exact listed_replied (n := ⟨prefilled cap,[]⟩) (c := .create) (prefilled_kept cap)
      (List.Sublist.refl _) trivial hr hn
  · have hon := onCreated_of_onLive hsub hc
    obtain ⟨r,hr,hn⟩ := replied hk hon hs
    exact listed_replied hk hsub hon hr hn

theorem created_full {h : History α} (hk : Kept cap h) (hf : ∀ l, ListIndex cap l → l ∈ h.created) :
    h.created.length = cap.maxLists :=
  covering_length hk.created_nodup fun l => ⟨hk.created_index l,hf l⟩

/-- The slots are conserved exactly while no list was consumed. -/
theorem slotsConserved_iff (hk : Kept cap n.history) (hsub : n.note.Sublist n.history.created) :
    SlotsConserved cap n ↔ n.note = n.history.created := by
  have hinit : n.history.pool.initialized ≠ 0 := by simp [hk.sound.initialized]
  obtain ⟨xs,hw,_,hm⟩ := hk.slots
  constructor
  · intro h
    obtain ⟨⟨ys,hy,hx⟩,_⟩ := h hinit
    have hxy : ys = xs := walk_unique hy hw
    have hcr : n.history.created ⊆ n.note := by
      intro l hl
      rcases hx l (hk.created_index l hl) with ⟨hn,_⟩ | ⟨hn,_⟩
      · exact hn
      · rw [hxy] at hn
        exact absurd hl ((hm l).mp hn).2
    exact hsub.eq_of_length_le (hk.created_nodup.subperm hcr).length_le
  · intro heq _
    refine ⟨⟨xs,hw,?_⟩,?_⟩
    · intro l hl
      rw [heq]
      by_cases hc : l ∈ n.history.created
      · exact Or.inl ⟨hc,fun hx => ((hm l).mp hx).2 hc⟩
      · exact Or.inr ⟨(hm l).mpr ⟨hl,hc⟩,hc⟩
    · intro s hs
      obtain ⟨s',p,hs',hp⟩ := createsWhileFree_kept hk
      rw [hs] at hs'
      cases hs'
      rw [heq]
      exact created_full hk (hp rfl).1

theorem unconsumed_eq_iff (hc : OnCreated n.history c) (he : ∃ h', Effect n.history c h') :
    unconsumed c n.history.created = n.history.created ↔ NothingConsumed n c := by
  obtain ⟨h',he⟩ := he
  have hjoin : ∀ l1 l2, c = .concat l1 l2 → Sound.Joinable n.history.pool l1 l2 := by
    rintro l1 l2 rfl
    cases he with
    | looked _ hl => simp at hl
    | joined _ _ _ h1 => exact Or.inr h1
    | nothing _ _ h2 => exact Or.inl h2
  cases c with
  | concat l1 l2 =>
    apply iff_of_false
    · intro heq
      have hmem : l2 ∈ unconsumed (.concat l1 l2 : Call α) n.history.created := by
        rw [heq]
        exact hc.2
      simp [unconsumed] at hmem
    · exact fun hn => hn (hjoin l1 l2 rfl)
  | _ => exact iff_of_true rfl trivial

theorem replied_conserved (hk : Kept cap n.history) (hall : n.note = n.history.created)
    (hc : OnCreated n.history c) (hr : Replied cap n.history c r n'.history)
    (hn : n'.note = live c r n.note) : SlotsConserved cap n' ↔ NothingConsumed n c := by
  have hsub : n.note.Sublist n.history.created := by rw [hall]
  obtain ⟨hk',hsub'⟩ := listed_replied hk hsub hc hr hn
  rw [slotsConserved_iff hk' hsub',← unconsumed_eq_iff hc ⟨_,hr.effect⟩]
  obtain ⟨s,_,hrec⟩ := hr.reply
  rw [hn,hrec,record_created,live,List.append_left_inj,hall]

theorem step_conserved (hi : Listed cap n) (hP : SlotsConserved cap n) (hc : OnLive n c)
    (hs : Accepts (Noted.step cap live) n c n') : SlotsConserved cap n' ↔ NothingConsumed n c := by
  rcases hi with rfl | ⟨hk,hsub⟩
  · obtain ⟨rfl,r,hr,hn⟩ := start_replied (onCreated_of_onLive (List.Sublist.refl _) hc) hs
    exact replied_conserved (n := ⟨prefilled cap,[]⟩) (c := .create) (prefilled_kept cap) rfl
      trivial hr hn
  · have hon := onCreated_of_onLive hsub hc
    obtain ⟨r,hr,hn⟩ := replied hk hon hs
    exact replied_conserved hk ((slotsConserved_iff hk hsub).mp hP) hon hr hn

theorem step_refused (hi : Listed cap n) (hc : OnLive n c)
    (hs : ∀ n', ¬ Accepts (Noted.step cap live) n c n') : NothingConsumed n c := by
  cases c with
  | concat l1 l2 =>
    rcases hi with rfl | ⟨hk,hsub⟩
    · cases hc.1.1
    · have hon := onCreated_of_onLive hsub hc
      intro hj
      rcases hk.step_cases hon with ⟨_,h',he,_⟩ | ⟨hnj,_⟩
      · obtain ⟨n',hn'⟩ := noted_returns live ⟨h',he⟩
        exact hs n' hn'
      · exact hnj hj
  | _ => trivial

end Slots

/-- The slots stay conserved along a run exactly when no `ListConcat` of it
returns: the slot of its second list never comes back. -/
theorem slots_conserved_iff_none_consumed (cap : Capacity) (calls : List (Call α))
    (ho : Each (Accepts (Noted.step cap live)) OnLive fresh calls) :
    Always (Accepts (Noted.step cap live)) (SlotsConserved cap) fresh calls ↔
      Each (Accepts (Noted.step cap live)) NothingConsumed fresh calls := by
  apply always_iff_each (I := Listed cap) (O := OnLive)
  · exact fun _ _ _ hi hc hs => hi.step hc hs
  · exact fun _ _ hi _ hc hs => step_refused hi hc hs
  · exact fun _ _ _ hi hP hc hs => step_conserved hi hP hc hs
  · exact Or.inl rfl
  · exact fun h => absurd rfl h
  · exact ho

def unjoined : List (Call ℕ) :=
  [.create,.create,.adder .append 0 10,.adder .prepend 1 20,.mover .first 0,.create,.curr 0]

theorem slots_conserved_unjoined : Each (Accepts (Noted.step shipped live)) OnLive fresh unjoined ∧
    Always (Accepts (Noted.step shipped live)) (SlotsConserved shipped) fresh unjoined := by
  have ho : Each (Accepts (Noted.step shipped live)) OnLive fresh unjoined := by decide +kernel
  refine ⟨ho,?_⟩
  apply (slots_conserved_iff_none_consumed shipped unjoined ho).mpr
  decide +kernel

def joining : List (Call ℕ) :=
  [.create,.create,.adder .append 0 10,.adder .append 1 20,.concat 0 1]

def afterJoining : Noted ℕ (List ℤ) := lastState (Noted.step shipped live) fresh joining

/-- After the concatenation one list is the caller's, yet no list can be created. -/
theorem consumed_slot_lost : Each (Accepts (Noted.step shipped live)) OnLive fresh joining ∧
    afterJoining.note = [0] ∧ (∃ s, listCreate shipped afterJoining.history.pool = .ok (s,none)) ∧
    ¬ Always (Accepts (Noted.step shipped live)) (SlotsConserved shipped) fresh joining := by
  have hnote : afterJoining.note = [0] := by decide +kernel
  have hfull := listCreate_full shipped afterJoining.history.pool (by decide +kernel)
  refine ⟨by decide +kernel,hnote,⟨_,hfull⟩,?_⟩
  intro h
  have hlast : SlotsConserved shipped afterJoining := h.lastState
  have hlen := (hlast (by decide +kernel)).2 _ hfull
  rw [hnote] at hlen
  exact absurd hlen (by decide)

end ListlibSyscalls.PoolSlots
