import ListlibSyscalls.BufCoherence

/-!
# Which buffer is recycled

The order of the ring is the move-to-front order of the releases, so the search
of `bget` from the end comes first to the buffer that has been unused for the
longest time. It finds none only when all buffers are referred to, for which
there must be as many uses and pinned buffers as there are buffers.
-/

set_option autoImplicit false

namespace ListlibSyscalls.BufReplacement
open StepRuns LinkedChain LinkedRing CountedRefs BufMachine BufInvariant BufCoherence

section Room

variable {ι δ : Type} [Fintype ι] [DecidableEq ι] {s : State ι δ} {i : ι}

def busy (s : State ι δ) : Finset ι := Finset.univ.filter fun i => s.use i ≠ .idle

def pinned (s : State ι δ) : Finset ℕ := (Finset.range NBUF).filter fun b => 0 < s.pins b

omit [Fintype ι] in
theorem bget_error_iff {xs : List ℕ} (hxs : Order s xs) (k : Key) :
    bget s i k = .error (.panics .noBuffers) ↔
      ∀ b < NBUF, (s.buf b).key ≠ k ∧ 0 < (s.buf b).refcnt := by
  rw [bget_eq hxs]
  constructor
  · intro h
    split at h
    · cases h
    · next hnone =>
      split at h
      · cases h
      · next hfull =>
        intro b hb
        have hkey := List.find?_eq_none.mp hnone b ((hxs.all b).mpr hb)
        have hcnt := List.find?_eq_none.mp hfull b (List.mem_reverse.mpr ((hxs.all b).mpr hb))
        simp only [decide_eq_true_eq] at hkey hcnt
        exact ⟨hkey,Nat.pos_of_ne_zero hcnt⟩
  · intro h
    have hnone : xs.find? (fun b => decide ((s.buf b).key = k)) = none := by
      rw [List.find?_eq_none]
      intro b hb
      simpa using (h b ((hxs.all b).mp hb)).1
    have hfull : xs.reverse.find? (fun b => decide ((s.buf b).refcnt = 0)) = none := by
      rw [List.find?_eq_none]
      intro b hb
      have := (h b ((hxs.all b).mp (List.mem_reverse.mp hb))).2
      simp only [decide_eq_true_eq]
      omega
    rw [hnone]
    dsimp only
    rw [hfull]

omit [DecidableEq ι] in
/-- If all buffers are referred to, each has a use or a pin of its own. -/
theorem full_card (h : Inv s) (hfull : ∀ b < NBUF, 0 < (s.buf b).refcnt) :
    NBUF ≤ (busy s).card+(pinned s).card := by
  have hsub : Finset.range NBUF ⊆
      (busy s).image (fun i => (bufOf (s.use i)).getD 0) ∪ pinned s := by
    intro b hb
    have hb := Finset.mem_range.mp hb
    rw [Finset.mem_union]
    by_cases hpin : 0 < s.pins b
    · exact .inr (Finset.mem_filter.mpr ⟨Finset.mem_range.mpr hb,hpin⟩)
    · left
      have hrefs := h.refs b hb
      have hpos : 0 < tally (fun i => bufOf (s.use i)) b := by
        have := hfull b hb
        rw [refsTo] at hrefs
        omega
      obtain ⟨i,hi⟩ := Finset.card_pos.mp hpos
      have hi : bufOf (s.use i) = some b := (Finset.mem_filter.mp hi).2
      refine Finset.mem_image.mpr ⟨i,Finset.mem_filter.mpr ⟨Finset.mem_univ i,?_⟩,?_⟩
      · intro hidle
        rw [hidle] at hi
        cases hi
      · rw [hi]
        rfl
  calc NBUF = (Finset.range NBUF).card := (Finset.card_range NBUF).symm
    _ ≤ ((busy s).image (fun i => (bufOf (s.use i)).getD 0) ∪ pinned s).card :=
      Finset.card_le_card hsub
    _ ≤ ((busy s).image (fun i => (bufOf (s.use i)).getD 0)).card+(pinned s).card :=
      Finset.card_union_le _ _
    _ ≤ (busy s).card+(pinned s).card := Nat.add_le_add_right Finset.card_image_le _

/-- `bget` panics exactly when no buffer has the block and all are referred to;
so it does not with fewer uses and pinned buffers than there are buffers. -/
theorem bget_panics {zero : δ} {disk : ℕ → δ} (h : Reached zero disk s) (hi : s.use i = .idle)
    (k : Key) :
    (step s (.bget i k) = .error (.panics .noBuffers) ↔
      ∀ b < NBUF, (s.buf b).key ≠ k ∧ 0 < (s.buf b).refcnt) ∧
    ((busy s).card+(pinned s).card < NBUF → ∃ s', step s (.bget i k) = .ok s') := by
  have hinv := reached_inv h
  obtain ⟨xs,hxs⟩ := hinv.order
  have hstep : step s (.bget i k) = bget s i k := by simp only [step,hi]
  rw [hstep]
  refine ⟨bget_error_iff hxs k,fun hroom => ?_⟩
  cases hb : bget s i k with
  | ok s' => exact ⟨s',rfl⟩
  | error e =>
    have he := bget_error hxs hb
    rw [he] at hb
    have hall := (bget_error_iff hxs k).mp hb
    have := full_card hinv fun b hb => (hall b hb).2
    omega

/-- After the handover there is room for block 8. -/
theorem bget_panics_handover :
    ∃ s', step (lastState step (binit 0 fun _ => 0) handover) (.bget 0 ⟨ROOTDEV,8⟩) = .ok s' :=
  (bget_panics (handover_run.reach.mono fun _ _ => careful_paired) (by decide +kernel) _).2
    (by decide +kernel)

end Room

section Recency

variable {ι δ : Type} [DecidableEq ι]

/-- The buffer that a step leaves without references in `brelse`. -/
def released (s : State ι δ) : Label ι δ → List ℕ
  | .unref i =>
    match s.use i with
    | .leaving b _ => if (s.buf b).refcnt-1 = 0 then [b] else []
    | _ => []
  | _ => []

/-- Steps of the cache beside the list of these buffers, the latest first. -/
def timedStep (x : State ι δ × List ℕ) (l : Label ι δ) :
    Except Refused (State ι δ × List ℕ) := do
  let s ← step x.1 l
  .ok (s,released x.1 l++x.2)

abbrev Timed : State ι δ × List ℕ → Label ι δ → State ι δ × List ℕ → Prop := Accepts timedStep

/-- The buffers by their latest release. -/
def recency : List ℕ → List ℕ
  | [] => (List.range NBUF).reverse
  | b::h => b::(recency h).erase b

theorem recency_nodup (h : List ℕ) : (recency h).Nodup := by
  induction h with
  | nil => exact List.nodup_reverse.mpr List.nodup_range
  | cons b h ih =>
    rw [recency,List.nodup_cons]
    exact ⟨ih.not_mem_erase,ih.erase b⟩

theorem recency_pairwise (h : List ℕ) :
    (recency h).Pairwise fun x y => h.idxOf x ≤ h.idxOf y := by
  induction h with
  | nil => exact List.pairwise_of_forall fun _ _ => Nat.le_refl _
  | cons b h ih =>
    rw [recency,List.pairwise_cons]
    constructor
    · intro y _
      rw [List.idxOf_cons_self]
      exact Nat.zero_le _
    · apply (ih.sublist List.erase_sublist).imp_of_mem
      intro x y hx hy hxy
      have hxb : b ≠ x := fun e => (recency_nodup h).not_mem_erase (e ▸ hx)
      have hyb : b ≠ y := fun e => (recency_nodup h).not_mem_erase (e ▸ hy)
      rw [List.idxOf_cons_ne _ hxb,List.idxOf_cons_ne _ hyb]
      exact Nat.succ_le_succ hxy

variable {s s' : State ι δ} {l : Label ι δ} {h : List ℕ}

omit [DecidableEq ι] in
theorem moveFront_ring {b : ℕ} {xs : List ℕ} (hr : Ring s.next s.prev head xs) (hb : b ∈ xs) :
    Ring (moveFront s b).next (moveFront s b).prev head (b::xs.erase b) := by
  obtain ⟨as,bs,rfl⟩ := List.append_of_mem hb
  obtain ⟨-,hnb,hd⟩ := List.nodup_append.mp hr.distinct
  have has : b ∉ as := fun hm => hd b hm b (by simp) rfl
  have hbs : b ∉ bs := (List.nodup_cons.mp hnb).1
  have hbz : b ≠ head := fun e => hr.sentinel_notMem (e ▸ hb)
  rw [List.erase_append_right _ has,List.erase_cons_head]
  apply hr.unlink.push hbz
  intro hm
  rcases List.mem_append.mp hm with hm|hm
  · exact has hm
  · exact hbs hm

theorem step_links (hs : step s l = .ok s') (hl : ∀ i, l ≠ .unref i) :
    s'.next = s.next ∧ s'.prev = s.prev := by
  cases l with
  | unref i => exact absurd rfl (hl i)
  | bget i k =>
    simp only [step] at hs
    split at hs
    · rw [bget] at hs
      split at hs
      · cases hs
      · cases hs
        exact ⟨rfl,rfl⟩
      · split at hs
        · cases hs
        · cases hs
          exact ⟨rfl,rfl⟩
        · cases hs
    · cases hs
  | acquire i =>
    simp only [step] at hs
    split at hs
    · split at hs
      · cases hs
      · cases hs
        exact ⟨rfl,rfl⟩
    · cases hs
  | fill i =>
    simp only [step] at hs
    split at hs
    · split at hs
      · cases hs
        exact ⟨rfl,rfl⟩
      · cases hs
        exact ⟨rfl,rfl⟩
    · cases hs
  | store i k d =>
    simp only [step] at hs
    split at hs
    · split at hs
      · cases hs
        exact ⟨rfl,rfl⟩
      · cases hs
    · cases hs
  | bwrite i | release i =>
    simp only [step] at hs
    split at hs
    · split at hs
      · cases hs
        exact ⟨rfl,rfl⟩
      · cases hs
    · cases hs
  | bpin i | bunpin i =>
    simp only [step] at hs
    split at hs
    · cases hs
      exact ⟨rfl,rfl⟩
    · cases hs

variable [Fintype ι]

theorem timed_ring (hinv : Inv s) (hr : Ring s.next s.prev head (recency h))
    (hs : step s l = .ok s') : Ring s'.next s'.prev head (recency (released s l++h)) := by
  by_cases hl : ∃ i, l = .unref i
  · obtain ⟨i,rfl⟩ := hl
    simp only [step] at hs
    split at hs
    · next b k hi =>
      cases hs
      simp only [released,hi]
      obtain ⟨xs,hxs⟩ := hinv.order
      have hperm : recency h = xs := walk_unique hr.forward hxs.ring.forward
      have hb : b ∈ recency h := by
        rw [hperm]
        exact (hxs.all b).mpr (hinv.targets i b k (by rw [hi]; rfl)).1
      by_cases h0 : (s.buf b).refcnt-1 = 0
      · rw [if_pos h0]
        have hzero : ((s.setBuf b { s.buf b with refcnt := (s.buf b).refcnt-1 }).buf b).refcnt = 0 := by
          rw [setBuf_self]
          exact h0
        simp only [unref,if_pos hzero]
        exact moveFront_ring hr hb
      · rw [if_neg h0]
        have hpos : ¬ ((s.setBuf b { s.buf b with refcnt := (s.buf b).refcnt-1 }).buf b).refcnt = 0 := by
          rw [setBuf_self]
          exact h0
        simp only [unref,if_neg hpos]
        exact hr
    · cases hs
  · have hne : ∀ i, l ≠ .unref i := fun i e => hl ⟨i,e⟩
    obtain ⟨hn,hp⟩ := step_links hs hne
    have hnone : released s l = [] := by
      cases l with
      | unref i => exact absurd rfl (hne i)
      | bget | acquire | fill | store | bwrite | bpin | bunpin | release => rfl
    rw [hn,hp,hnone]
    exact hr

theorem timed_inv {zero : δ} {disk : ℕ → δ} {x : State ι δ × List ℕ}
    (hx : Reach Timed (fun x l => Paired x.1 l) (binit zero disk,[]) x) :
    Inv x.1 ∧ Ring x.1.next x.1.prev head (recency x.2) := by
  refine hx.invariant (I := fun x => Inv x.1 ∧ Ring x.1.next x.1.prev head (recency x.2)) ?_ ?_
  · exact ⟨binit_inv zero disk,(binit_spec zero disk).1⟩
  · rintro ⟨s,h⟩ l x' ⟨hinv,hr⟩ ho hx'
    obtain ⟨s',hs,h'⟩ := bind_ok hx'
    cases h'
    exact ⟨step_inv hinv ho hs,timed_ring hinv hr hs⟩

theorem bget_least_recent {i : ι} {k : Key} (hinv : Inv s)
    (hr : Ring s.next s.prev head (recency h)) (hmiss : ∀ b < NBUF, (s.buf b).key ≠ k)
    (hs : step s (.bget i k) = .ok s') :
    ∃ b < NBUF, s'.use i = .waiting b k ∧ (s.buf b).refcnt = 0 ∧
      ∀ c < NBUF, (s.buf c).refcnt = 0 → h.idxOf c ≤ h.idxOf b := by
  obtain ⟨xs,hxs⟩ := hinv.order
  have hxs' : recency h = xs := walk_unique hr.forward hxs.ring.forward
  subst hxs'
  simp only [step] at hs
  split at hs
  · have hnone : (recency h).find? (fun b => decide ((s.buf b).key = k)) = none := by
      rw [List.find?_eq_none]
      intro b hb
      simpa using hmiss b ((hxs.all b).mp hb)
    rw [bget_eq hxs,hnone] at hs
    dsimp only at hs
    split at hs
    · next b hfree =>
      cases hs
      have hmem := List.mem_reverse.mp (List.mem_of_find?_eq_some hfree)
      have h0 : (s.buf b).refcnt = 0 := by simpa using List.find?_some hfree
      refine ⟨b,(hxs.all b).mp hmem,setUse_self _,h0,fun c hc hc0 => ?_⟩
      obtain ⟨-,as,bs,hsplit,hused⟩ := List.find?_eq_some_iff_append.mp hfree
      have horder : recency h = bs.reverse++b::as.reverse := by
        rw [← List.reverse_reverse (recency h),hsplit]
        simp
      have hpair := recency_pairwise h
      have hcmem := (hxs.all c).mpr hc
      rw [horder] at hpair hcmem
      rcases List.mem_append.mp hcmem with hcb|hcb
      · exact (List.pairwise_append.mp hpair).2.2 c hcb b (by simp)
      · rcases List.mem_cons.mp hcb with rfl|hca
        · exact Nat.le_refl _
        · have := hused c (List.mem_reverse.mp hca)
          simp [hc0] at this
    · cases hs
  · cases hs

/-- In every run the ring is the move-to-front order of the releases, so a block
that is not in the cache gets the buffer that was released before all others. -/
theorem recycles_least_recent {zero : δ} {disk : ℕ → δ} {x : State ι δ × List ℕ}
    (hx : Reach Timed (fun x l => Paired x.1 l) (binit zero disk,[]) x) :
    Ring x.1.next x.1.prev head (recency x.2) ∧
    ∀ i k s', (∀ b < NBUF, (x.1.buf b).key ≠ k) → step x.1 (.bget i k) = .ok s' →
      ∃ b < NBUF, s'.use i = .waiting b k ∧ (x.1.buf b).refcnt = 0 ∧
        ∀ c < NBUF, (x.1.buf c).refcnt = 0 → x.2.idxOf c ≤ x.2.idxOf b := by
  obtain ⟨hinv,hr⟩ := timed_inv hx
  exact ⟨hr,fun i k s' hmiss hs => bget_least_recent hinv hr hmiss hs⟩

def served : List (Label Unit ℕ) :=
  [.bget () ⟨ROOTDEV,7⟩,.acquire (),.fill (),.release (),.unref ()]

/-- Block 7 was in buffer 0, which is the first of the ring then, and block 8 gets
buffer 1, the last of it. -/
theorem recycles_least_recent_served :
    let x := lastState timedStep (binit 0 fun _ => 0,[]) served
    let s' := lastState step x.1 [.bget () ⟨ROOTDEV,8⟩]
    x.2 = [0] ∧ Ring x.1.next x.1.prev head (0::(List.range NBUF).reverse.erase 0) ∧
    s'.use () = .waiting 1 ⟨ROOTDEV,8⟩ ∧
    ∀ c < NBUF, (x.1.buf c).refcnt = 0 → [0].idxOf c ≤ [0].idxOf 1 := by
  intro x s'
  have hx : Reach Timed (fun x l => Paired x.1 l) (binit 0 fun _ => 0,[]) x :=
    (Run.lastState served _ (by decide +kernel) (by decide +kernel)).reach
  have h0 : x.2 = [0] := by decide +kernel
  have hs : step x.1 (.bget () ⟨ROOTDEV,8⟩) = .ok s' := by
    obtain ⟨t,ht,-⟩ : Completes Steps x.1 [.bget () ⟨ROOTDEV,8⟩] := by decide +kernel
    rw [show step x.1 (.bget () ⟨ROOTDEV,8⟩) = .ok t from ht]
    simp only [s',lastState,show step x.1 (.bget () ⟨ROOTDEV,8⟩) = .ok t from ht]
  have hu : s'.use () = .waiting 1 ⟨ROOTDEV,8⟩ := by decide +kernel
  obtain ⟨hring,hall⟩ := recycles_least_recent hx
  obtain ⟨b,-,hb,-,hlast⟩ := hall () ⟨ROOTDEV,8⟩ s' (by decide +kernel) hs
  rw [hu] at hb
  cases hb
  rw [h0] at hring hlast
  exact ⟨h0,hring,hu,hlast⟩

end Recency

end ListlibSyscalls.BufReplacement
