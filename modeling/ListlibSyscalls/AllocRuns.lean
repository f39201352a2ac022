import ListlibSyscalls.AllocInvariant

/-!
# Runs of a program that uses `malloc` and `free`

Any sequence of calls and of stores into blocks the program owns, with any
replies of `sbrk`. No call hangs, no two blocks overlap, memory is not lost, and
when all blocks are back the free list is a single block again.
-/

set_option autoImplicit false

namespace ListlibSyscalls.AllocRuns
open StepRuns GappedBlocks AllocMachine AllocPaths AllocRing AllocInvariant

structure Owned (base lo : ℕ) (s : State) (fs : List Block) (f : ℕ) : Prop where
  freep : s.heap.freep = some f
  inRing : f ∈ base::fs.map Prod.fst
  placed : Placed base lo s.brk s.heap.mem fs s.live
  total : units fs+units (s.live.map Grant.block) = s.obtained

structure Inv (base lo : ℕ) (s : State) : Prop where
  base_lt : base < lo
  le_brk : lo ≤ s.brk
  heap : (s.heap.freep = none ∧ s.live = [] ∧ s.obtained = 0) ∨ ∃ fs f, Owned base lo s fs f

variable {base lo : ℕ} {s s' : State}

theorem initialized_owned (h : Inv base lo s) :
    ∃ fs f, Owned base lo { s with heap := initialized base s.heap } fs f := by
  rcases h.heap with ⟨hnone,hlive,hobt⟩|⟨fs,f,ho⟩
  · refine ⟨[],base,?_,List.mem_cons_self,⟨⟨?_,?_,List.Pairwise.nil,?_,?_⟩,?_,?_,?_,?_,?_⟩,?_⟩
    · simp [initialized,hnone]
    · simp [initialized,hnone,Leads]
    · simp [initialized,hnone]
    all_goals simp [hlive,hobt]
  · refine ⟨fs,f,?_⟩
    have hsame : initialized base s.heap = s.heap := by
      rw [initialized,ho.freep]
    rw [hsame]
    exact ho

theorem Owned.inv {fs : List Block} {f : ℕ} (h : Owned base lo s fs f) (hb : base < lo)
    (hl : lo ≤ s.brk) : Inv base lo s := ⟨hb,hl,.inr ⟨fs,f,h⟩⟩

theorem Owned.grant {as bs : List Block} {x : Block} {f : ℕ} (h : Owned base lo s (as++x::bs) f)
    (hb : base < lo) (nbytes : ℕ) (hx : nunits nbytes ≤ x.2) :
    ∃ fs' f', Owned base lo (grant s nbytes
      (take s.heap.mem (nunits nbytes) (lastAddr base as))).1 fs' f' := by
  obtain ⟨mem',a,htake,hplaced,hlast⟩ := h.placed.grant hb nbytes hx
  refine ⟨_,lastAddr base as,?_,hlast,?_,?_⟩
  · simp only [AllocMachine.grant,htake]
  · simp only [AllocMachine.grant,htake]
    exact hplaced
  · have hu := units_rest hx
    have ht := h.total
    simp only [AllocMachine.grant,units_append,units_cons,List.map_cons,Grant.block] at ht ⊢
    omega

theorem Owned.morecore {fs : List Block} {f : ℕ} (h : Owned base lo s fs f) (a nu : ℕ) (hb : base < lo)
    (hl : lo ≤ s.brk) (ha : s.brk ≤ a) (hnu : 0 < nu) :
    ∃ h' f', free (a+nu+1) ⟨Function.update s.heap.mem a ⟨(s.heap.mem a).ptr,nu⟩,some f⟩ (a+1) =
        some h' ∧
      Owned base lo ⟨h',a+nu,s.obtained+nu,s.live⟩ (insertBlock (a,nu) fs) f' := by
  have hfree : ∀ x ∈ fs, x.1+x.2 ≤ a := fun x hx =>
    Nat.le_trans (h.placed.ring.range x hx).2 ha
  have hlive : ∀ g ∈ s.live, g.addr+g.size ≤ a := fun g hg =>
    Nat.le_trans (h.placed.shape g hg).2.2 ha
  have hpos : ∀ g ∈ s.live, 0 < g.size := fun g hg => h.placed.size_pos hg
  have hself : (Function.update s.heap.mem a ⟨(s.heap.mem a).ptr,nu⟩ a).size = nu := by
    rw [Function.update_self]
  have hplaced : Placed base lo (a+nu)
      (Function.update s.heap.mem a ⟨(s.heap.mem a).ptr,nu⟩) fs s.live := by
    refine ⟨(h.placed.ring.frame fun u hu => ?_).mono (by omega),h.placed.above,h.placed.apart,
      h.placed.cross,fun g hg => ?_,fun g hg => ?_⟩
    · apply Function.update_of_ne
      rintro rfl
      rcases List.mem_cons.mp hu with he|hu
      · omega
      · obtain ⟨x,hx,hxa⟩ := List.mem_map.mp hu
        have h1 := hfree x hx
        have h2 := h.placed.ring.pos x hx
        omega
    · rw [Function.update_of_ne]
      · exact h.placed.header g hg
      · have h1 := hlive g hg
        have h2 := hpos g hg
        omega
    · obtain ⟨h1,h2,h3⟩ := h.placed.shape g hg
      exact ⟨h1,h2,by omega⟩
  obtain ⟨mem',p,hfr,hput,hp⟩ := hplaced.put hb h.inRing (show lo ≤ a by omega) (by rw [hself]; exact hnu)
    (Nat.le_of_eq (by rw [hself])) (fun y hy => by rw [hself]; exact .inr (hfree y hy))
    (fun g hg => by rw [hself]; exact .inr (hlive g hg))
  rw [hself] at hput hp
  refine ⟨_,p,hfr,rfl,hp,hput,?_⟩
  have ht := h.total
  rw [units_insert]
  dsimp only
  omega

theorem malloc_spec (h : Inv base lo s) (nbytes : ℕ) (reply : Option ℕ)
    (hr : ∀ a ∈ reply, s.brk ≤ a) :
    ∃ fs s' r, Leads (initialized base s.heap).mem base fs base ∧ Gapped fs ∧
      malloc base s nbytes reply = .ok (s',r) ∧ Inv base lo s' ∧
      (r = .null ↔ reply = none ∧ ∀ x ∈ fs, x.2 < nunits nbytes) := by
  have hn := nunits_pos nbytes
  obtain ⟨fs,f,ho⟩ := initialized_owned h
  have hfreep : (initialized base s.heap).freep = some f := ho.freep
  have hring : Ring base s.brk (initialized base s.heap).mem fs := ho.placed.ring
  refine ⟨fs,?_⟩
  rcases hring.scan ho.inRing hn with ⟨as,x,bs,rfl,hx,hscan⟩|⟨hall,hscan⟩
  · obtain ⟨fs',f',hg⟩ := ho.grant h.base_lt nbytes hx
    refine ⟨_,.address ((take (initialized base s.heap).mem (nunits nbytes) (lastAddr base as)).2+1),
      hring.path,hring.gapped,?_,hg.inv h.base_lt h.le_brk,?_⟩
    · simp only [malloc,hfreep,hscan]
      rfl
    · refine ⟨fun hr => (by cases hr),fun hr => ?_⟩
      have := hr.2 x (by simp)
      omega
  · cases reply with
    | none =>
      refine ⟨_,.null,hring.path,hring.gapped,?_,ho.inv h.base_lt h.le_brk,?_⟩
      · simp only [malloc,hfreep,hscan]
      · exact ⟨fun _ => ⟨rfl,hall⟩,fun _ => rfl⟩
    | some a =>
      have ha := hr a rfl
      have hnu : nunits nbytes ≤ coreUnits (nunits nbytes) := by
        rw [coreUnits]
        split <;> omega
      obtain ⟨h',f',hfree,ho'⟩ := ho.morecore a (coreUnits (nunits nbytes)) h.base_lt
        h.le_brk ha (by omega)
      -- the new block, or one that took it in, is large enough
      obtain ⟨y,hy,hym⟩ := insert_holds (a,coreUnits (nunits nbytes)) fs
      rcases ho'.placed.ring.scan ho'.inRing hn with ⟨as,x,bs,hfs,hx,hscan'⟩|⟨hall',-⟩
      · rw [hfs] at ho'
        obtain ⟨fs',f'',hg⟩ := ho'.grant h.base_lt nbytes hx
        have hle : lo ≤ a+coreUnits (nunits nbytes) := by
          have := h.le_brk
          omega
        refine ⟨_,.address ((take h'.mem (nunits nbytes) (lastAddr base as)).2+1),
          hring.path,hring.gapped,?_,hg.inv h.base_lt hle,?_⟩
        · simp only [malloc,hfreep,hscan]
          rw [hfree]
          have hf' : h'.freep = some f' := ho'.freep
          simp only [hf']
          have hscan'' : scan h'.mem (nunits nbytes) f' (a+coreUnits (nunits nbytes)+1) f' =
            .found (lastAddr base as) := hscan'
          rw [hscan'']
          rfl
        · exact ⟨fun hr => (by cases hr),fun hr => (by cases hr.1)⟩
      · have := hall' y hy
        dsimp only at hym
        omega

theorem inv_malloc (h : Inv base lo s) (nbytes : ℕ) (reply : Option ℕ)
    (hr : ∀ a ∈ reply, s.brk ≤ a) :
    ∃ s', step base s (.malloc nbytes reply) = .ok s' ∧ Inv base lo s' := by
  obtain ⟨_,s',r,-,-,hm,hi,-⟩ := malloc_spec h nbytes reply hr
  exact ⟨s',by rw [step,hm]; rfl,hi⟩

theorem inv_free (h : Inv base lo s) {g : Grant} (hg : g ∈ s.live) :
    ∃ s', step base s (.free (g.addr+1)) = .ok s' ∧ Inv base lo s' := by
  rcases h.heap with ⟨-,hlive,-⟩|⟨fs,f,ho⟩
  · rw [hlive] at hg
    simp at hg
  · obtain ⟨hdrop,hap,hunits⟩ := ho.placed.drop hg
    have hsize := ho.placed.header g hg
    obtain ⟨hn,hlo,hend⟩ := ho.placed.shape g hg
    have hblock : (g.addr,(s.heap.mem g.addr).size) = g.block := by rw [hsize]; rfl
    obtain ⟨mem',p,hfree,hput,hp⟩ := hdrop.put h.base_lt ho.inRing hlo
      (by rw [hsize]; exact ho.placed.size_pos hg) (by rw [hsize]; exact hend)
      (fun y hy => by rw [hblock]; exact (ho.placed.cross y hy g hg).symm)
      (fun g' hg' => by rw [hblock]; exact hap g' hg')
    have hheap : s.heap = ⟨s.heap.mem,some f⟩ := by rw [← ho.freep]
    rw [← hheap] at hfree
    refine ⟨{ s with
      heap := ⟨mem',some p⟩,live := s.live.filter fun g' => g'.addr+1 ≠ g.addr+1 },?_,?_⟩
    · rw [step,hfree]
    · refine ⟨h.base_lt,h.le_brk,.inr ⟨_,p,rfl,hp,hput,?_⟩⟩
      have ht := ho.total
      rw [units_insert,hsize]
      dsimp only
      omega

theorem inv_store (h : Inv base lo s) {g : Grant} (hg : g ∈ s.live) {u : ℕ} (hu : g.addr < u)
    (hend : u < g.addr+g.size) (d : Header) :
    Inv base lo { s with heap := ⟨Function.update s.heap.mem u d,s.heap.freep⟩ } := by
  rcases h.heap with ⟨-,hlive,-⟩|⟨fs,f,ho⟩
  · rw [hlive] at hg
    simp at hg
  · have hring : u ∉ base::fs.map Prod.fst := by
      intro hm
      have hlo := (ho.placed.shape g hg).2.1
      have hb := h.base_lt
      rcases List.mem_cons.mp hm with he|hm
      · omega
      · obtain ⟨x,hx,hxu⟩ := List.mem_map.mp hm
        have h1 := ho.placed.cross x hx g hg
        have h2 := ho.placed.ring.pos x hx
        simp only [Apart,Grant.block] at h1
        omega
    have hheader : ∀ g' ∈ s.live, g'.addr ≠ u := by
      intro g' hg' he
      have h1 := (ho.placed.drop hg).2.1 g' (List.mem_filter.mpr ⟨hg',by simp; omega⟩)
      have h2 := ho.placed.size_pos hg'
      simp only [Apart,Grant.block] at h1
      omega
    refine ⟨h.base_lt,h.le_brk,.inr ⟨fs,f,ho.freep,ho.inRing,⟨?_,ho.placed.above,ho.placed.apart,
      ho.placed.cross,fun g' hg' => ?_,ho.placed.shape⟩,ho.total⟩⟩
    · refine ho.placed.ring.frame fun v hv => ?_
      exact Function.update_of_ne (fun he : v = u => hring (he ▸ hv)) d s.heap.mem
    · dsimp only
      rw [Function.update_of_ne (hheader g' hg')]
      exact ho.placed.header g' hg'

theorem inv_step (h : Inv base lo s) {l : Label} (ho : Offered s l) :
    ∃ s', step base s l = .ok s' ∧ Inv base lo s' := by
  cases l with
  | malloc nbytes reply => exact inv_malloc h nbytes reply ho.2
  | free ap =>
    obtain ⟨g,hg,rfl⟩ := ho
    exact inv_free h hg
  | store u d =>
    obtain ⟨g,hg,hu,hend⟩ := ho
    exact ⟨_,rfl,inv_store h hg hu hend d⟩

theorem reached_inv {mem : ℕ → Header} {brk : ℕ} (hb : base < brk)
    (h : Reached base mem brk s) : Inv base brk s := by
  apply Reach.invariant (I := Inv base brk) _ _ h
  · exact ⟨hb,Nat.le_refl _,.inl ⟨rfl,rfl,rfl⟩⟩
  · intro s l s' hi ho hs
    obtain ⟨s'',hs'',hi'⟩ := inv_step hi ho
    rw [accepts_deterministic s l s' s'' hs hs'']
    exact hi'

/-- No call hangs: the loops of `malloc` and `free` end, no null pointer is
followed, and `malloc` asks for memory at most once. -/
theorem calls_return {mem : ℕ → Header} {brk : ℕ} (hb : base < brk)
    (h : Reached base mem brk s) (l : Label) (ho : Offered s l) :
    ∃ s', step base s l = .ok s' := by
  obtain ⟨s',hs,-⟩ := inv_step (reached_inv hb h) ho
  exact ⟨s',hs⟩

def blank : ℕ → Header := fun _ => ⟨0,0⟩

/-- Two blocks, a store into the first, which is then freed, and a third that
gets the place. -/
def session : List Label :=
  [.malloc 20 (some 100),.malloc 100 none,.store 4194 ⟨1,1⟩,.free 4194,.malloc 5 none]

theorem session_reached : Reached 10 blank 100 (lastState (step 10) (start blank 100) session) :=
  (Run.lastState session _ (by decide +kernel) (by decide +kernel)).reach

theorem calls_return_session :
    ∃ s', step 10 (lastState (step 10) (start blank 100) session) (.free 4186) = .ok s' :=
  calls_return (by decide) session_reached (.free 4186) (by decide +kernel)

/-- `malloc` returns null exactly when `sbrk` refuses and no block of the free
list is large enough; as these do not touch, no run of free units is. -/
theorem malloc_null_iff {mem : ℕ → Header} {brk : ℕ} (hb : base < brk)
    (h : Reached base mem brk s) (nbytes : ℕ) (reply : Option ℕ)
    (ho : Offered s (.malloc nbytes reply)) :
    ∃ fs, Leads (initialized base s.heap).mem base fs base ∧ Gapped fs ∧
      ((∃ s', malloc base s nbytes reply = .ok (s',.null)) ↔
        reply = none ∧ ∀ x ∈ fs, x.2 < nunits nbytes) := by
  obtain ⟨fs,s',r,hp,hg,hm,-,hr⟩ := malloc_spec (reached_inv hb h) nbytes reply ho.2
  refine ⟨fs,hp,hg,?_⟩
  rw [← hr]
  constructor
  · rintro ⟨s'',hs⟩
    rw [hm] at hs
    cases hs
    rfl
  · rintro rfl
    exact ⟨s',hm⟩

theorem malloc_null_session :
    ∃ fs, Leads (initialized 10 (lastState (step 10) (start blank 100) session).heap).mem 10 fs 10 ∧
      Gapped fs ∧ ((∃ s', malloc 10 (lastState (step 10) (start blank 100) session) 100000 none =
        .ok (s',.null)) ↔ (none : Option ℕ) = none ∧ ∀ x ∈ fs, x.2 < nunits 100000) :=
  malloc_null_iff (by decide) session_reached 100000 none (by decide +kernel)

def finished : List Label := session++[.free 4186,.free 4195]

end ListlibSyscalls.AllocRuns
