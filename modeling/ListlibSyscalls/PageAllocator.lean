import ListlibSyscalls.LinkedChain
import ListlibSyscalls.StepRuns

/-!
# The page allocator of the kernel

`kalloc.c`: the free pages are a list through their own first words. `word` has the
first word of each page, which is all the allocator reads of it, and `owner` says who
got the page; the code does not read it. The sections under `kmem.lock` are one step
each. The fill with junk goes with them: nobody else has the page then. An owner may
write anything to its page.
-/

set_option autoImplicit false

namespace ListlibSyscalls.PageAllocator
open StepRuns LinkedChain

abbrev PGSIZE : ℕ := 4096

def junk : ℕ := 0x0505050505050505

structure State (π : Type) where
  word : ℕ → ℕ
  freelist : ℕ
  owner : ℕ → Option π

inductive Refused where
  | panics (text : String)
  | outOfFuel
  | nothing
  deriving DecidableEq

inductive Label (π : Type) where
  | kalloc (p : π)
  | kfree (p : π) (pa : ℕ)
  | write (p : π) (pa w : ℕ)

/-- The kernel ends at `kend`, and the memory at PHYSTOP. -/
structure Layout where
  kend : ℕ
  PHYSTOP : ℕ
  positive : 0 < kend

section Machine

variable {π : Type} (m : Layout)

def kfree (s : State π) (pa : ℕ) : Except Refused (State π) :=
  if pa % PGSIZE ≠ 0 ∨ pa < m.kend ∨ m.PHYSTOP ≤ pa then .error (.panics "kfree")
  else
    .ok ⟨Function.update s.word pa s.freelist,pa,Function.update s.owner pa none⟩

def kalloc (s : State π) (p : π) : ℕ × State π :=
  if s.freelist = 0 then (0,s)
  else
    (s.freelist,⟨Function.update s.word s.freelist junk,s.word s.freelist,
      Function.update s.owner s.freelist (some p)⟩)

def freerange : ℕ → ℕ → State π → Except Refused (State π)
  | 0, _, _ => .error .outOfFuel
  | k+1, p, s =>
    if p+PGSIZE ≤ m.PHYSTOP then do
      let s ← kfree m s p
      freerange k (p+PGSIZE) s
    else .ok s

def roundUp (a : ℕ) : ℕ := (a+PGSIZE-1)/PGSIZE*PGSIZE

def kinit (s : State π) : Except Refused (State π) :=
  freerange m (m.PHYSTOP+1) (roundUp m.kend) s

variable [DecidableEq π]

def step (s : State π) : Label π → Except Refused (State π)
  | .kalloc p => .ok (kalloc s p).2
  | .kfree _ pa => kfree m s pa
  | .write p pa w =>
    if s.owner pa = some p then .ok { s with word := Function.update s.word pa w }
    else .error .nothing

/-- Who frees a page got it. -/
def Offered (s : State π) : Label π → Prop
  | .kfree p pa => s.owner pa = some p
  | _ => True

instance (s : State π) : (l : Label π) → Decidable (Offered s l)
  | .kfree p pa => inferInstanceAs (Decidable (s.owner pa = some p))
  | .kalloc _ | .write .. => .isTrue trivial

/-- Memory when `kinit` is called: no page is owned, and `freelist` is 0. -/
def blank (word : ℕ → ℕ) : State π := ⟨word,0,fun _ => none⟩

def Reached (word : ℕ → ℕ) (s : State π) : Prop :=
  ∃ s₀, kinit m (blank word) = .ok s₀ ∧ Reach (Accepts (step m)) Offered s₀ s

end Machine

section Invariant

variable {π : Type} {m : Layout} {s s' : State π}

def Page (m : Layout) (a : ℕ) : Prop := a % PGSIZE = 0 ∧ m.kend ≤ a ∧ a+PGSIZE ≤ m.PHYSTOP

structure Holds (m : Layout) (s : State π) (free : List ℕ) : Prop where
  chain : Walk s.word 0 s.freelist free 0
  distinct : free.Nodup
  free : ∀ a, a ∈ free ↔ Page m a ∧ s.owner a = none
  owned : ∀ a, (s.owner a).isSome → Page m a

theorem Page.pos {a : ℕ} (h : Page m a) : a ≠ 0 := by
  have := m.positive
  have := h.2.1
  omega

theorem link_walk {w : ℕ → ℕ} {a b : ℕ} {xs : List ℕ} (h : Walk w 0 a xs 0) (hb : b ∉ xs)
    (hb0 : b ≠ 0) : Walk (Function.update w b a) 0 b (b::xs) 0 := by
  refine ⟨rfl,hb0,?_⟩
  rw [Function.update_self]
  apply walk_congr _ h
  intro x hx
  have hxb : x ≠ b := by
    rintro rfl
    exact hb hx
  exact Function.update_of_ne hxb _ _

theorem kfree_ok {a : ℕ} (h : Page m a) (s : State π) :
    kfree m s a = .ok ⟨Function.update s.word a s.freelist,a,Function.update s.owner a none⟩ := by
  obtain ⟨h1,h2,h3⟩ := h
  have h3 : a+4096 ≤ m.PHYSTOP := h3
  rw [kfree,if_neg (by omega)]

theorem kfree_holds {free : List ℕ} {a : ℕ} (h : Holds m s free) (hpage : Page m a)
    (hown : a ∉ free) :
    ∃ s', kfree m s a = .ok s' ∧ Holds m s' (a::free) := by
  refine ⟨_,kfree_ok hpage s,link_walk h.chain hown hpage.pos,?_,?_,?_⟩
  · exact List.nodup_cons.mpr ⟨hown,h.distinct⟩
  · intro b
    by_cases hb : b = a
    · simp [hb,hpage]
    · simp [hb,h.free]
  · intro b hb
    by_cases hba : b = a
    · rwa [hba]
    · apply h.owned
      simpa [hba] using hb

theorem kalloc_holds {free : List ℕ} (h : Holds m s free) (p : π) :
    (free = [] ∧ kalloc s p = (0,s)) ∨
    ∃ a rest, free = a::rest ∧ (kalloc s p).1 = a ∧ Holds m (kalloc s p).2 rest := by
  obtain ⟨hchain,hdistinct,hfree,howned⟩ := h
  cases free with
  | nil =>
    left
    have hempty : s.freelist = 0 := hchain
    exact ⟨rfl,by rw [kalloc,if_pos hempty]⟩
  | cons a rest =>
    right
    obtain ⟨rfl,hne,hwalk⟩ := hchain
    obtain ⟨hnot,hnodup⟩ := List.nodup_cons.mp hdistinct
    rw [kalloc,if_neg hne]
    refine ⟨_,rest,rfl,rfl,?_,hnodup,?_,?_⟩
    · apply walk_congr _ hwalk
      intro x hx
      have hxa : x ≠ s.freelist := by
        rintro rfl
        exact hnot hx
      exact Function.update_of_ne hxa _ _
    · intro b
      by_cases hb : b = s.freelist
      · simp [hb,hnot]
      · have hbfree := hfree b
        simpa [hb] using hbfree
    · intro b hb
      by_cases hba : b = s.freelist
      · rw [hba]
        exact ((hfree s.freelist).mp (by simp)).1
      · apply howned
        simpa [hba] using hb

theorem freerange_spec (k p : ℕ) (free : List ℕ) (s : State π)
    (hpos : 0 < k) (hk : m.PHYSTOP < p+k) (hp : p % PGSIZE = 0) (hlow : m.kend ≤ p)
    (hchain : Walk s.word 0 s.freelist free 0) (hdistinct : free.Nodup)
    (hfree : ∀ a, a ∈ free ↔ Page m a ∧ a < p) (hown : ∀ a, s.owner a = none) :
    ∃ s' free', freerange m k p s = .ok s' ∧ Holds m s' free' := by
  induction k generalizing p free s with
  | zero => omega
  | succ k ih =>
    rw [freerange]
    by_cases hend : p+PGSIZE ≤ m.PHYSTOP
    · have hpage : Page m p := ⟨hp,hlow,hend⟩
      have hnot : p ∉ free := by
        intro hmem
        exact absurd ((hfree p).mp hmem).2 (lt_irrefl p)
      rw [if_pos hend,kfree_ok hpage]
      have hp : p % 4096 = 0 := hp
      have hend : p+4096 ≤ m.PHYSTOP := hend
      apply ih (p+PGSIZE) (p::free)
      · omega
      · show m.PHYSTOP < p+4096+k
        omega
      · show (p+4096) % 4096 = 0
        omega
      · omega
      · exact link_walk hchain hnot hpage.pos
      · exact List.nodup_cons.mpr ⟨hnot,hdistinct⟩
      · intro a
        rw [List.mem_cons,hfree]
        constructor
        · rintro (rfl|⟨ha,hlt⟩)
          · exact ⟨hpage,Nat.lt_add_of_pos_right (by decide)⟩
          · exact ⟨ha,hlt.trans_le (Nat.le_add_right p PGSIZE)⟩
        · rintro ⟨ha,hlt⟩
          have halign : a % 4096 = 0 := ha.1
          have hlt : a < p+4096 := hlt
          by_cases hap : a < p
          · exact .inr ⟨ha,hap⟩
          · left
            omega
      · intro a
        by_cases ha : a = p
        · simp [ha]
        · simp [ha,hown]
    · rw [if_neg hend]
      refine ⟨s,free,rfl,hchain,hdistinct,?_,?_⟩
      · intro a
        rw [hfree]
        constructor
        · exact fun h => ⟨h.1,hown a⟩
        · intro h
          refine ⟨h.1,?_⟩
          have hfit := h.1.2.2
          omega
      · intro a ha
        rw [hown] at ha
        cases ha

theorem kinit_holds (m : Layout) (word : ℕ → ℕ) :
    ∃ (s : State π) (free : List ℕ), kinit m (blank word) = .ok s ∧ Holds m s free := by
  have hround : roundUp m.kend % 4096 = 0 ∧ m.kend ≤ roundUp m.kend ∧
      roundUp m.kend < m.kend+4096 := by
    show (m.kend+4096-1)/4096*4096 % 4096 = 0 ∧ m.kend ≤ (m.kend+4096-1)/4096*4096 ∧
      (m.kend+4096-1)/4096*4096 < m.kend+4096
    omega
  obtain ⟨halign,hlow,hhigh⟩ := hround
  apply freerange_spec (m.PHYSTOP+1) (roundUp m.kend) []
  · omega
  · omega
  · exact halign
  · exact hlow
  · rfl
  · exact List.nodup_nil
  · intro a
    simp only [List.not_mem_nil,false_iff,not_and]
    rintro ⟨ha,hge,-⟩ hlt
    have ha : a % 4096 = 0 := ha
    omega
  · exact fun _ => rfl

variable [DecidableEq π]

theorem step_holds {free : List ℕ} (h : Holds m s free) {l : Label π} (ho : Offered s l) :
    match step m s l with
    | .ok s' => ∃ free', Holds m s' free'
    | .error e => e = .nothing := by
  cases l with
  | kalloc p =>
    rcases kalloc_holds h p with ⟨-,heq⟩|⟨a,rest,-,-,hrest⟩
    · simp only [step,heq]
      exact ⟨free,h⟩
    · exact ⟨rest,hrest⟩
  | kfree p pa =>
    have hown : s.owner pa = some p := ho
    have hpage : Page m pa := h.owned pa (by rw [hown]; rfl)
    have hnot : pa ∉ free := by
      intro hmem
      rw [((h.free pa).mp hmem).2] at hown
      cases hown
    obtain ⟨s',heq,hs'⟩ := kfree_holds h hpage hnot
    simp only [step,heq]
    exact ⟨_,hs'⟩
  | write p pa w =>
    rw [step]
    split
    · next hs =>
      split at hs
      · next hown =>
        cases hs
        -- a page with an owner is not in the list, so its links stay
        refine ⟨free,?_,h.distinct,h.free,h.owned⟩
        apply walk_congr _ h.chain
        intro x hx
        have hxp : x ≠ pa := by
          rintro rfl
          rw [((h.free x).mp hx).2] at hown
          cases hown
        exact Function.update_of_ne hxp _ _
      · cases hs
    · next hs =>
      split at hs
      · cases hs
      · cases hs
        rfl

theorem reached_holds {word : ℕ → ℕ} (h : Reached m word s) : ∃ free, Holds m s free := by
  obtain ⟨s₀,hinit,hreach⟩ := h
  obtain ⟨s₁,free,heq,hholds⟩ := kinit_holds (π := π) m word
  rw [hinit] at heq
  cases heq
  have hstep : ∀ (s : State π) l s', (∃ free, Holds m s free) → Offered s l → step m s l = .ok s' →
      ∃ free, Holds m s' free := by
    rintro s l s' ⟨free,hfree⟩ ho hs
    have hstep := step_holds hfree ho
    rw [hs] at hstep
    exact hstep
  exact hreach.invariant ⟨free,hholds⟩ hstep

/-- `kinit` returns, and then in every state of every run: the list has each page that
nobody owns exactly once; `kalloc` returns 0 only when all pages are owned, and else a
page of the memory behind the kernel that nobody owns; and freeing a page that one got
does not panic. -/
theorem pages_accounted (m : Layout) (word : ℕ → ℕ) :
    (∃ s₀ : State π, kinit m (blank word) = .ok s₀) ∧
    ∀ s : State π, Reached m word s →
      (∃ free, Walk s.word 0 s.freelist free 0 ∧ free.Nodup ∧
        ∀ a, a ∈ free ↔ Page m a ∧ s.owner a = none) ∧
      (∀ p, (kalloc s p).1 = 0 → ∀ a, Page m a → (s.owner a).isSome) ∧
      (∀ p, (kalloc s p).1 ≠ 0 → Page m (kalloc s p).1 ∧ s.owner (kalloc s p).1 = none) ∧
      ∀ l e, Offered s l → step m s l = .error e → e = .nothing := by
  refine ⟨?_,?_⟩
  · obtain ⟨s₀,free,heq,-⟩ := kinit_holds (π := π) m word
    exact ⟨s₀,heq⟩
  intro s hs
  obtain ⟨free,h⟩ := reached_holds hs
  refine ⟨⟨free,h.chain,h.distinct,h.free⟩,?_,?_,?_⟩
  · intro p hzero a ha
    rcases kalloc_holds h p with ⟨rfl,-⟩|⟨b,rest,rfl,hb,-⟩
    · by_contra hnone
      rw [Option.not_isSome_iff_eq_none] at hnone
      have hmem := (h.free a).mpr ⟨ha,hnone⟩
      cases hmem
    · have hpage := ((h.free b).mp (by simp)).1
      exact absurd (hb.symm.trans hzero) hpage.pos
  · intro p hne
    rcases kalloc_holds h p with ⟨-,heq⟩|⟨b,rest,rfl,hb,-⟩
    · rw [heq] at hne
      exact absurd rfl hne
    · rw [hb]
      exact (h.free b).mp (by simp)
  · intro l e ho he
    have hstep := step_holds h ho
    rw [he] at hstep
    exact hstep

end Invariant

def small : Layout := ⟨5000,16384,by omega⟩

theorem pages_accounted_small :
    ∃ s₀ : State Unit, kinit small (blank fun _ => 0) = .ok s₀ ∧
      ∀ p, (kalloc s₀ p).1 ≠ 0 → Page small (kalloc s₀ p).1 ∧ s₀.owner (kalloc s₀ p).1 = none := by
  obtain ⟨⟨s₀,hinit⟩,hall⟩ := pages_accounted (π := Unit) small fun _ => 0
  exact ⟨s₀,hinit,(hall s₀ ⟨s₀,hinit,.start⟩).2.2.1⟩

end ListlibSyscalls.PageAllocator
