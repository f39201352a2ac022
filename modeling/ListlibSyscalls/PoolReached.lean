import ListlibSyscalls.PoolInvariant

/-!
# What a call can do to a reached history

`Effect` lists everything a call on created lists can do, with its guards,
and every accepted step from a history that keeps the books is one of them.
Every invariant of whole runs is then an induction over these eight cases.
Before the first creation nothing but a creation is offered, and it acts as
if the pools had been laid out beforehand.
-/

set_option autoImplicit false

namespace ListlibSyscalls.PoolReached
open StepRuns LinkedChain PoolMachine PoolHistory PoolSplice PoolMoves PoolInvariant

variable {α : Type}

/-- Sound pools, whose free lists are the ones not created, and whose handed
out nodes are as many as there were successful insertions. -/
structure Kept (cap : Capacity) (h : History α) : Prop where
  sound : Sound cap h.pool
  slots : ∃ xs, Walk (fun l => (h.pool.lists l).link) (-1) h.pool.freeListHead xs (-1) ∧
    xs.Nodup ∧ ∀ l, l ∈ xs ↔ ListIndex cap l ∧ l ∉ h.created
  created_nodup : h.created.Nodup
  created_index : ∀ l ∈ h.created, ListIndex cap l
  unused : ∀ l, ListIndex cap l → l ∉ h.created → h.pool.lists l = emptied (h.pool.lists l)
  inserted : h.inserted = h.pool.returned.length

def handed (owner : ℤ → Option ℤ) (l1 l2 : ℤ) : ℤ → Option ℤ :=
  fun i => if owner i = some l2 then some l1 else owner i

inductive Effect (h : History α) : Call α → History α → Prop
  | opened (hf : h.pool.freeListHead ≠ -1) :
      Effect h .create { h with
        pool := opened h.pool
        created := h.created ++ [h.pool.freeListHead] }
  | noSlot (hf : h.pool.freeListHead = -1) : Effect h .create h
  | spliced (a : Adder) (l : ℤ) (x : α) (hf : h.pool.freeNodeHead ≠ -1) :
      Effect h (.adder a l x) { h with
        pool := spliced (splice a (h.pool.lists l)) h.pool l x
        inserted := h.inserted+1
        owner := Function.update h.owner h.pool.freeNodeHead (some l) }
  | exhausted (a : Adder) (l : ℤ) (x : α) (hf : h.pool.freeNodeHead = -1) :
      Effect h (.adder a l x) h
  | moved (m : Mover) (l : ℤ) (hm : Sound.Steppable h.pool l m) :
      Effect h (.mover m l) { h with pool := moved m h.pool l }
  | looked (c : Call α) (hc : (∃ l, c = .curr l) ∨ ∃ l, c = .count l) : Effect h c h
  | joined (l1 l2 : ℤ) (hc2 : (h.pool.lists l2).count ≠ 0) (hc1 : (h.pool.lists l1).count ≠ 0) :
      Effect h (.concat l1 l2) { h with
        pool := joined h.pool l1 l2
        owner := handed h.owner l1 l2 }
  | nothing (l1 l2 : ℤ) (hc2 : (h.pool.lists l2).count = 0) :
      Effect h (.concat l1 l2) { h with owner := handed h.owner l1 l2 }

/-- The calls that follow array indices only, by the state they start from. -/
def IndexSafe (s : Pool α) : Call α → Prop
  | .mover m l => Sound.Steppable s l m
  | .concat l1 l2 => Sound.Joinable s l1 l2
  | _ => True

theorem Kept.free_list {cap : Capacity} {h : History α} (hk : Kept cap h)
    (hf : h.pool.freeListHead ≠ -1) :
    ListIndex cap h.pool.freeListHead ∧ h.pool.freeListHead ∉ h.created := by
  obtain ⟨xs,hw,_,hm⟩ := hk.slots
  cases xs with
  | nil => exact absurd hw hf
  | cons x xs =>
    rw [hw.1]
    exact (hm x).mp (by simp)

/-- Each call either performs its effect or faults at index -1, and which of
the two is decided by the state it starts from. -/
theorem Kept.step_cases {cap : Capacity} {h : History α} (hk : Kept cap h) {c : Call α}
    (hc : OnCreated h c) :
    (IndexSafe h.pool c ∧ ∃ h', h.step cap c = .ok h' ∧ Effect h c h') ∨
    (¬ IndexSafe h.pool c ∧ h.step cap c = .error (.node (-1))) := by
  have hs := hk.sound
  cases c with
  | create =>
    left
    have hp : prepared cap h.pool = h.pool := by simp [prepared,hs.initialized]
    by_cases hf : h.pool.freeListHead = -1
    · have he : listCreate cap h.pool = .ok (h.pool,none) := by
        simpa [hp] using listCreate_full cap h.pool (by rw [hp]; exact hf)
      exact ⟨trivial,h,by simp [History.step,exec,he,History.record],.noSlot hf⟩
    · have he : listCreate cap h.pool = .ok (opened h.pool,some h.pool.freeListHead) := by
        simpa [hp] using listCreate_ok cap h.pool (by rw [hp]; exact (hk.free_list hf).1)
      exact ⟨trivial,_,by simp [History.step,exec,he,History.record],.opened hf⟩
  | adder a l x =>
    left
    rcases hs.runAdder_cases (hk.created_index l hc) a x with ⟨hf,he⟩ | ⟨hf,he⟩
    · exact ⟨trivial,h,by simp [History.step,exec,he,History.record],.exhausted a l x hf⟩
    · refine ⟨trivial,_,?_,.spliced a l x hf⟩
      have ho : (fun i => if i ∈ (PoolSplice.spliced (splice a (h.pool.lists l)) h.pool l x).returned.drop
          h.pool.returned.length then some l else h.owner i) =
          Function.update h.owner h.pool.freeNodeHead (some l) := by
        funext i
        simp [PoolSplice.spliced,Function.update_apply]
      simp [History.step,exec,he,History.record,ho]
  | mover m l =>
    rcases hs.runMover_cases (hk.created_index l hc) m with ⟨hm,he⟩ | ⟨hm,he⟩
    · exact Or.inl ⟨hm,_,by simp [History.step,exec,he,History.record],.moved m l hm⟩
    · exact Or.inr ⟨hm,by simp [History.step,exec,he]⟩
  | curr l =>
    have he := hs.curr_ok (hk.created_index l hc)
    exact Or.inl ⟨trivial,h,by simp [History.step,exec,he,History.record],
      .looked _ (Or.inl ⟨l,rfl⟩)⟩
  | count l =>
    exact Or.inl ⟨trivial,h,by simp [History.step,exec,History.record],
      .looked _ (Or.inr ⟨l,rfl⟩)⟩
  | concat l1 l2 =>
    rcases hs.listConcat_cases (hk.created_index l1 hc.1) (hk.created_index l2 hc.2) with
      ⟨h2,he⟩ | ⟨h2,h1,he⟩ | ⟨hj,he⟩
    · exact Or.inl ⟨Or.inl h2,_,by simp [History.step,exec,he,History.record]; rfl,
        .nothing l1 l2 h2⟩
    · exact Or.inl ⟨Or.inr h1,_,by simp [History.step,exec,he,History.record]; rfl,
        .joined l1 l2 h2 h1⟩
    · exact Or.inr ⟨hj,by simp [History.step,exec,he]⟩

theorem Kept.effect {cap : Capacity} {h h' : History α} (hk : Kept cap h) {c : Call α}
    (hc : OnCreated h c) (hs : Steps cap h c h') : Effect h c h' := by
  rcases hk.step_cases hc with ⟨_,h₁,he,heff⟩ | ⟨_,he⟩
  · have : h' = h₁ := accepts_deterministic h c h' h₁ hs he
    rw [this]
    exact heff
  · exact forall_accepts_error he (fun _ => Effect h c h') h' hs

theorem Kept.slots_congr {cap : Capacity} {h : History α} (hk : Kept cap h) (s : Pool α)
    (hh : s.freeListHead = h.pool.freeListHead)
    (hl : ∀ l, (s.lists l).link = (h.pool.lists l).link) :
    ∃ xs, Walk (fun l => (s.lists l).link) (-1) s.freeListHead xs (-1) ∧
      xs.Nodup ∧ ∀ l, l ∈ xs ↔ ListIndex cap l ∧ l ∉ h.created := by
  obtain ⟨xs,hw,hn,hm⟩ := hk.slots
  refine ⟨xs,?_,hn,hm⟩
  rw [hh]
  exact walk_congr (fun l _ => hl l) hw

theorem opened_other {s : Pool α} {l : ℤ} (hl : l ≠ s.freeListHead) :
    (opened s).lists l = s.lists l := Function.update_of_ne hl _ _

theorem opened_sound {cap : Capacity} {s : Pool α} (hs : Sound cap s) : Sound cap (opened s) := by
  have hself : (opened s).lists s.freeListHead = { s.lists s.freeListHead with link := -1 } :=
    Function.update_self _ _ _
  refine ⟨hs.initialized,hs.free,hs.returned_nodup,hs.returned_index,hs.node_refs,?_,?_⟩
  · intro l hl
    by_cases he : l = s.freeListHead
    · subst he
      rw [hself]
      exact hs.list_refs _ hl
    · rw [opened_other he]
      exact hs.list_refs l hl
  · intro l hl
    by_cases he : l = s.freeListHead
    · subst he
      have hr := hs.records _ hl
      rw [hself]
      exact ⟨hr.count_nonneg,hr.empty,hr.ends,hr.off,hr.one_flag⟩
    · rw [opened_other he]
      exact hs.records l hl

theorem opened_slots {cap : Capacity} {h : History α} (hk : Kept cap h)
    (hf : h.pool.freeListHead ≠ -1) :
    ∃ xs, Walk (fun l => ((opened h.pool).lists l).link) (-1) (opened h.pool).freeListHead xs (-1) ∧
      xs.Nodup ∧ ∀ l, l ∈ xs ↔ ListIndex cap l ∧ l ∉ h.created++[h.pool.freeListHead] := by
  obtain ⟨xs,hw,hn,hm⟩ := hk.slots
  cases xs with
  | nil => exact absurd hw hf
  | cons y ys =>
    obtain ⟨hy,_,hw⟩ := hw
    obtain ⟨hyn,hys⟩ := List.nodup_cons.mp hn
    subst hy
    refine ⟨ys,walk_congr ?_ hw,hys,?_⟩
    · intro l hl
      rw [opened_other (fun e => hyn (e ▸ hl))]
    · intro l
      have hl := hm l
      simp only [List.mem_cons] at hl
      simp only [List.mem_append,List.mem_singleton,not_or]
      constructor
      · intro h'
        have h'' := hl.mp (Or.inr h')
        exact ⟨h''.1,h''.2,fun e => hyn (e ▸ h')⟩
      · rintro ⟨h1,h2,h3⟩
        exact (hl.mpr ⟨h1,h2⟩).resolve_left h3

theorem opened_kept {cap : Capacity} {h : History α} (hk : Kept cap h)
    (hf : h.pool.freeListHead ≠ -1) :
    Kept cap { h with
      pool := opened h.pool
      created := h.created ++ [h.pool.freeListHead] } := by
  obtain ⟨hi,hnew⟩ := hk.free_list hf
  constructor
  · exact opened_sound hk.sound
  · exact opened_slots hk hf
  · exact List.nodup_append.mpr ⟨hk.created_nodup,by simp,
      fun l hl k hk' => by rw [List.mem_singleton.mp hk']; exact fun e => hnew (e ▸ hl)⟩
  · intro l hl
    rcases List.mem_append.mp hl with h' | h'
    · exact hk.created_index l h'
    · rw [List.mem_singleton.mp h']
      exact hi
  · intro l hl hc
    simp only [List.mem_append,List.mem_singleton,not_or] at hc
    dsimp only
    rw [opened_other hc.2]
    exact hk.unused l hl hc.1
  · exact hk.inserted

theorem Kept.unused_congr {cap : Capacity} {h : History α} (hk : Kept cap h) (s : Pool α)
    (hl : ∀ l, l ∉ h.created → s.lists l = h.pool.lists l) :
    ∀ l, ListIndex cap l → l ∉ h.created → s.lists l = emptied (s.lists l) := by
  intro l hi hc
  rw [hl l hc]
  exact hk.unused l hi hc

theorem splicedList_link (sp : Splice) (L : LIST) (n : ℤ) : (splicedList sp L n).link = L.link := by
  cases sp <;> rfl

theorem movedList_link (m : Mover) (L : LIST) (c : Node α) : (movedList m L c).link = L.link := by
  cases m <;> simp only [movedList] <;> split_ifs <;> rfl

theorem Effect.kept {cap : Capacity} {h h' : History α} {c : Call α} (hk : Kept cap h)
    (hc : OnCreated h c) (he : Effect h c h') : Kept cap h' := by
  cases he with
  | opened hf => exact opened_kept hk hf
  | noSlot => exact hk
  | spliced a l x hf =>
    have hcl : l ∈ h.created := hc
    have hl := hk.created_index l hcl
    refine ⟨hk.sound.spliced_sound hf hl a x,hk.slots_congr _ rfl ?_,hk.created_nodup,
      hk.created_index,hk.unused_congr _ ?_,?_⟩
    · intro k
      by_cases hkl : k = l
      · subst hkl
        simp [PoolSplice.spliced,splicedList_link]
      · simp [PoolSplice.spliced,hkl]
    · intro k hkc
      have hkl : k ≠ l := fun e => hkc (e ▸ hcl)
      exact Function.update_of_ne hkl _ _
    · simp [PoolSplice.spliced,hk.inserted]
  | exhausted => exact hk
  | moved m l hm =>
    have hcl : l ∈ h.created := hc
    have hl := hk.created_index l hcl
    refine ⟨hk.sound.moved_sound hl m hm,hk.slots_congr _ rfl ?_,hk.created_nodup,
      hk.created_index,hk.unused_congr _ ?_,hk.inserted⟩
    · intro k
      by_cases hkl : k = l
      · subst hkl
        simp [PoolMoves.moved,movedList_link]
      · simp [PoolMoves.moved,hkl]
    · intro k hkc
      have hkl : k ≠ l := fun e => hkc (e ▸ hcl)
      exact Function.update_of_ne hkl _ _
  | looked => exact hk
  | joined l1 l2 hc2 hc1 =>
    have h1 := hk.created_index l1 hc.1
    have h2 := hk.created_index l2 hc.2
    refine ⟨hk.sound.joined_sound h1 h2 hc1 hc2,hk.slots_congr _ rfl ?_,hk.created_nodup,
      hk.created_index,hk.unused_congr _ ?_,hk.inserted⟩
    · intro k
      simp only [PoolMoves.joined,emptied,Function.update_apply]
      split_ifs with e2 e1
      · rw [e2]
      · rw [e1]
      · rfl
    · intro k hkc
      have e1 : k ≠ l1 := fun e => hkc (e ▸ hc.1)
      have e2 : k ≠ l2 := fun e => hkc (e ▸ hc.2)
      simp [PoolMoves.joined,e1,e2]
  | nothing =>
    exact ⟨hk.sound,hk.slots,hk.created_nodup,hk.created_index,hk.unused,hk.inserted⟩

def prefilled (cap : Capacity) : History α :=
  { (History.start : History α) with pool := laidOut cap zeroed }

theorem prefilled_kept (cap : Capacity) : Kept cap (prefilled cap : History α) := by
  refine ⟨laidOut_sound cap,⟨ascending 0 cap.maxLists,?_,ascending_nodup 0 _,?_⟩,
    List.nodup_nil,?_,?_,rfl⟩
  · apply chained_walk _ cap.lists_pos
    intro l h1 h2
    have hl : ListIndex cap l := ⟨h1,h2⟩
    simp [prefilled,laidOut,hl]
  · intro l
    rw [mem_ascending]
    simp [prefilled,History.start,ListIndex]
  · intro l hl
    simp [prefilled,History.start] at hl
  · intro l hl _
    simp [prefilled,laidOut,hl,emptied]

theorem start_exec (cap : Capacity) :
    exec cap (zeroed : Pool α) .create = exec cap (prefilled cap).pool .create := by
  have h0 : (zeroed : Pool α).initialized = 0 := rfl
  have h1 : (laidOut cap (zeroed : Pool α)).initialized ≠ 0 := by simp [laidOut]
  simp only [exec,prefilled,listCreate,if_pos h0,if_neg h1,initPools_ok,ok_bind]

theorem start_step (cap : Capacity) :
    (History.start : History α).step cap .create = (prefilled cap).step cap .create := by
  rw [History.step,History.step,← start_exec]
  rfl

def Begun (cap : Capacity) (h : History α) : Prop := h = History.start ∨ Kept cap h

theorem start_offers {c : Call α} (hc : OnCreated History.start c) : c = .create := by
  cases c <;> simp_all [OnCreated,History.start]

theorem start_effect {cap : Capacity} {h' : History α} {c : Call α}
    (hc : OnCreated History.start c) (hs : Steps cap History.start c h') :
    c = .create ∧ OnCreated (prefilled cap : History α) c ∧ Effect (prefilled cap) c h' := by
  have hcr := start_offers hc
  subst hcr
  have hon : OnCreated (prefilled cap : History α) .create := trivial
  exact ⟨rfl,hon,(prefilled_kept cap).effect hon ((start_step cap).symm.trans hs)⟩

theorem Begun.step {cap : Capacity} {h h' : History α} {c : Call α} (hb : Begun cap h)
    (hc : OnCreated h c) (hs : Steps cap h c h') : Begun cap h' := by
  rcases hb with rfl | hk
  · obtain ⟨_,hon,he⟩ := start_effect hc hs
    exact Or.inr (he.kept (prefilled_kept cap) hon)
  · exact Or.inr ((hk.effect hc hs).kept hk hc)

theorem reached_invariant {cap : Capacity} {offered : History α → Call α → Prop}
    {I : History α → Prop} (ho : ∀ h c, offered h c → OnCreated h c) (h0 : I (prefilled cap))
    (hs : ∀ h c h', Kept cap h → I h → OnCreated h c → (offered h c ∨ c = .create) →
      Effect h c h' → I h')
    {h : History α} (hr : Reach (Steps cap) offered History.start h) :
    h = History.start ∨ (Kept cap h ∧ I h) := by
  apply hr.invariant (I := fun h => h = History.start ∨ (Kept cap h ∧ I h)) (Or.inl rfl)
  rintro h c h' (rfl | ⟨hk,hi⟩) hc hst
  · obtain ⟨hcr,hon,he⟩ := start_effect (ho _ _ hc) hst
    exact Or.inr ⟨he.kept (prefilled_kept cap) hon,
      hs _ _ _ (prefilled_kept cap) h0 hon (Or.inr hcr) he⟩
  · have hc' := ho _ _ hc
    have he := hk.effect hc' hst
    exact Or.inr ⟨he.kept hk hc',hs _ _ _ hk hi hc' (Or.inl hc) he⟩

theorem reached_kept {cap : Capacity} {h : History α} (hr : Reached cap h) :
    h = History.start ∨ Kept cap h := by
  rcases reached_invariant (I := fun _ => True) (fun _ _ hc => hc) trivial
    (fun _ _ _ _ _ _ _ _ => trivial) hr with h' | h'
  · exact Or.inl h'
  · exact Or.inr h'.1

end ListlibSyscalls.PoolReached
