import ListlibSyscalls.PipeRecords
import ListlibSyscalls.SievePreserved

/-!
# The pipes of the sieve are pipes of bytes

In the system of sieve processes a pipe is a queue of ints, and a call that has to
wait is a turn that is not taken. Here the queue is compared with the bytes of
`pipe.c`: a call on the queue is taken when the same call on the bytes returns, with
the same result, and refused when that call falls asleep.
-/

set_option autoImplicit false

namespace ListlibSyscalls.SievePipes
open StepRuns SieveMachine SievePreserved

/-- The bytes of `S` are the ints in pipe `pi`, and the same ends are open. -/
structure Carries (c : Config) (s : State) (pi : ℕ) (S : PipeMachine.State) : Prop where
  ints : ∃ q, PipeRecords.Inv S q ∧ s.queue pi = q.map BitVec.toNat
  readopen : S.pipe.readopen = true ↔ s.Open c (.readEnd pi)
  writeopen : S.pipe.writeopen = true ↔ s.Open c (.writeEnd pi)

section Calls

variable {c : Config} {s s' : State} {pi : ℕ} {S : PipeMachine.State}

/-- What `piperead` returns for the int that the sieve reads, or for none. -/
def reply : Option ℕ → ℤ × List PipeMachine.Byte
  | some x => (4,PipeMachine.bytes (BitVec.ofNat 32 x))
  | none => (0,[])

theorem pipewrite_agrees (hcap : c.capacity = PipeMachine.PIPESIZE/4) (h : Carries c s pi S)
    (x : BitVec 32) {copyin : ℕ → Bool} (hc : ∀ j < 4, copyin j = true) :
    (∀ s', pipewrite c s x.toNat (some (.writeEnd pi)) = .ok s' →
      Carries c s' pi (S.pipewrite x copyin 0) ∧ (S.pipewrite x copyin 0).writer = .idle) ∧
    ∀ e, pipewrite c s x.toNat (some (.writeEnd pi)) = .error e →
      Carries c s pi (S.pipewrite x copyin 0) ∧
      (S.pipewrite x copyin 0).writer = .inside x copyin 0 true := by
  obtain ⟨q,hi,hq⟩ := h.ints
  obtain ⟨q',hi',hw⟩ := PipeRecords.pipewrite_inv hi x hc
  obtain ⟨hro,hwo⟩ := PipeRecords.pipewrite_ends hi x hc
  have hcarry {t : State} (ht : t.queue pi = q'.map BitVec.toNat)
      (ho : ∀ f, t.Open c f ↔ s.Open c f) : Carries c t pi (S.pipewrite x copyin 0) :=
    ⟨⟨q',hi',ht⟩,by rw [hro,ho]; exact h.readopen,by rw [hwo,ho]; exact h.writeopen⟩
  have hlen : (s.queue pi).length = q.length := by rw [hq,List.length_map]
  generalize hwr : (S.pipewrite x copyin 0).writer = w at hw
  cases hw with
  | refused hclosed =>
    have ho : ¬ s.Open c (.readEnd pi) := fun ho => by simpa [hclosed] using h.readopen.mpr ho
    have hcall : pipewrite c s x.toNat (some (.writeEnd pi)) = .ok s := by
      simp only [pipewrite,if_pos ho]
    rw [hcall]
    constructor
    · intro s' hs
      cases hs
      exact ⟨hcarry hq fun _ => Iff.rfl,rfl⟩
    · intro e he
      cases he
  | waits hopen hfull =>
    have ho : ¬ ¬ s.Open c (.readEnd pi) := not_not.mpr (h.readopen.mp hopen)
    have hcall : pipewrite c s x.toNat (some (.writeEnd pi)) = .error .blocked := by
      simp only [pipewrite,if_neg ho,if_pos (show (s.queue pi).length = c.capacity by omega)]
    rw [hcall]
    constructor
    · intro s' hs
      cases hs
    · intro e _
      exact ⟨hcarry hq fun _ => Iff.rfl,rfl⟩
  | written hopen hroom =>
    have ho : ¬ ¬ s.Open c (.readEnd pi) := not_not.mpr (h.readopen.mp hopen)
    have hcall : pipewrite c s x.toNat (some (.writeEnd pi)) =
        .ok (s.setQueue pi (s.queue pi++[x.toNat])) := by
      simp only [pipewrite,if_neg ho,if_neg (show ¬ (s.queue pi).length = c.capacity by omega)]
    rw [hcall]
    constructor
    · intro s' hs
      cases hs
      refine ⟨hcarry ?_ fun _ => Iff.rfl,rfl⟩
      rw [setQueue_self,hq,List.map_append]
      rfl
    · intro e he
      cases he

theorem piperead_agrees (h : Carries c s pi S) (ho : s.Open c (.readEnd pi))
    {copyout : ℕ → Bool} (hc : ∀ j < 4, copyout j = true) :
    (∀ s' r, piperead c s (some (.readEnd pi)) = .ok (s',r) →
      Carries c s' pi (S.piperead copyout) ∧ (S.piperead copyout).reader = .idle ∧
      (S.piperead copyout).reads = S.reads++[reply r]) ∧
    ∀ e, piperead c s (some (.readEnd pi)) = .error e →
      Carries c s pi (S.piperead copyout) ∧
      (S.piperead copyout).reader = .inside copyout true := by
  obtain ⟨q,hi,hq⟩ := h.ints
  have hopen := h.readopen.mpr ho
  obtain ⟨q',replies,hi',hreads,ht⟩ := PipeRecords.piperead_inv hi hopen hc
  obtain ⟨hro,hwo⟩ := PipeRecords.piperead_ends hi hopen hc
  have hcarry {t : State} (ht : t.queue pi = q'.map BitVec.toNat)
      (ho : ∀ f, t.Open c f ↔ s.Open c f) : Carries c t pi (S.piperead copyout) :=
    ⟨⟨q',hi',ht⟩,by rw [hro,ho]; exact h.readopen,by rw [hwo,ho]; exact h.writeopen⟩
  generalize hrd : (S.piperead copyout).reader = rd at ht
  cases ht with
  | waits hw =>
    have hq0 : s.queue pi = [] := hq
    have hcall : piperead c s (some (.readEnd pi)) = .error .blocked := by
      simp only [piperead,hq0,if_pos (h.writeopen.mp hw)]
    rw [hcall]
    constructor
    · intro s' r hs
      cases hs
    · intro e _
      exact ⟨hcarry hq fun _ => Iff.rfl,rfl⟩
  | ended hw =>
    have hq0 : s.queue pi = [] := hq
    have hn : ¬ s.Open c (.writeEnd pi) := fun ho => by simpa [hw] using h.writeopen.mpr ho
    have hcall : piperead c s (some (.readEnd pi)) = .ok (s,none) := by
      simp only [piperead,hq0,if_neg hn]
    rw [hcall]
    constructor
    · intro s' r hs
      cases hs
      exact ⟨hcarry hq fun _ => Iff.rfl,rfl,hreads⟩
    · intro e he
      cases he
  | taken x _ =>
    have hq1 : s.queue pi = x.toNat::q'.map BitVec.toNat := hq
    have hcall : piperead c s (some (.readEnd pi)) =
        .ok (s.setQueue pi (q'.map BitVec.toNat),some x.toNat) := by
      simp only [piperead,hq1]
    rw [hcall]
    constructor
    · intro s' r hs
      cases hs
      refine ⟨hcarry (setQueue_self _ _ _) fun _ => Iff.rfl,rfl,?_⟩
      rw [hreads]
      simp [reply]
    · intro e he
      cases he

end Calls

section Turns

variable {c : Config} {s s' s₁ : State} {k : ℕ}

def File.Made (n : ℕ) : File → Prop
  | .console => True
  | .readEnd pi => pi < n
  | .writeEnd pi => pi < n

structure Known (c : Config) (s : State) : Prop where
  descriptors : ∀ j < s.nproc, ∀ fd f, (s.proc j).ofile fd = some f →
    fd < c.nofile ∧ File.Made s.npipe f
  queued : ∀ pi, ∀ x ∈ s.queue pi, x < 2^32
  pending : ∀ j x, (s.proc j).pc = .writeNum x → x < 2^32

inductive Transfer (c : Config) (s : State) : State → Prop
  | none : Transfer c s s
  | write {pi x : ℕ} {s₁ : State} : s.Open c (.writeEnd pi) → x < 2^32 →
      pipewrite c s x (some (.writeEnd pi)) = .ok s₁ → Transfer c s s₁
  | read {pi : ℕ} {r : Option ℕ} {s₁ : State} : s.Open c (.readEnd pi) →
      piperead c s (some (.readEnd pi)) = .ok (s₁,r) → Transfer c s s₁

/-- No process has a descriptor that none had before. -/
def Inherits (s s' : State) : Prop :=
  ∀ j < s'.nproc, ∀ fd f, (s'.proc j).ofile fd = some f →
    ∃ i < s.nproc, (s.proc i).ofile fd = some f

/-- What a turn does to the pipes: at most one transfer, after which ends may be
closed, or a new pipe with both ends open. -/
inductive Effect (c : Config) (s s' : State) : Prop
  | moved (s₁ : State) : Transfer c s s₁ → s'.queue = s₁.queue → s'.npipe = s.npipe →
      Inherits s s' → Effect c s s'
  | created : s'.queue = Function.update s.queue s.npipe [] → s'.npipe = s.npipe+1 →
      s'.Open c (.readEnd s.npipe) → s'.Open c (.writeEnd s.npipe) →
      (∀ j < s'.nproc, ∀ fd f, (s'.proc j).ofile fd = some f →
        (∃ i < s.nproc, (s.proc i).ofile fd = some f) ∨
        fd < c.nofile ∧ (f = .readEnd s.npipe ∨ f = .writeEnd s.npipe)) → Effect c s s'

theorem start_known (h : 3 ≤ c.nofile) : Known c start := by
  constructor
  · intro j _ fd f hf
    simp only [start] at hf
    split_ifs at hf with hfd
    cases hf
    exact ⟨by omega,trivial⟩
  · intro pi x hx
    cases hx
  · intro j x hx
    cases hx

theorem open_inherited {f : File} (h : Inherits s s') (ho : s'.Open c f) : s.Open c f := by
  obtain ⟨j,hj,fd,hfd,hf⟩ := ho
  obtain ⟨i,hi,hf'⟩ := h j hj fd f hf
  exact ⟨i,hi,fd,hfd,hf'⟩

theorem Transfer.queue (h : Transfer c s s₁) : ∃ Q, s₁ = { s with queue := Q } := by
  cases h with
  | none => exact ⟨s.queue,rfl⟩
  | @write pi x _ _ _ h =>
    rcases pipewrite_ok h with ⟨_,rfl⟩ | rfl
    · exact ⟨_,rfl⟩
    · exact ⟨_,rfl⟩
  | @read pi r _ _ h =>
    cases r with
    | none =>
      obtain ⟨_,_,rfl⟩ := piperead_none h
      exact ⟨_,rfl⟩
    | some x =>
      obtain ⟨q,_,rfl⟩ := piperead_some h
      exact ⟨_,rfl⟩

theorem setQueue_bounded {pi : ℕ} {q : List ℕ} (h : ∀ pi, ∀ x ∈ s.queue pi, x < 2^32)
    (hq : ∀ x ∈ q, x < 2^32) (j : ℕ) : ∀ x ∈ (s.setQueue pi q).queue j, x < 2^32 := by
  by_cases hj : j = pi
  · rw [hj,setQueue_self]
    exact hq
  · rw [setQueue_other s q hj]
    exact h j

theorem Transfer.queued (hk : Known c s) (h : Transfer c s s₁) (pi : ℕ) :
    ∀ x ∈ s₁.queue pi, x < 2^32 := by
  cases h with
  | none => exact hk.queued pi
  | @write j y _ _ hy h =>
    rcases pipewrite_ok h with ⟨_,rfl⟩ | rfl
    · exact hk.queued pi
    · apply setQueue_bounded hk.queued
      intro x hx
      rcases List.mem_append.mp hx with hx | hx
      · exact hk.queued j x hx
      · rw [List.mem_singleton.mp hx]
        exact hy
  | @read j r _ _ h =>
    cases r with
    | none =>
      obtain ⟨_,_,rfl⟩ := piperead_none h
      exact hk.queued pi
    | some y =>
      obtain ⟨q,hq,rfl⟩ := piperead_some h
      apply setQueue_bounded hk.queued
      intro x hx
      apply hk.queued j x
      rw [hq]
      exact List.mem_cons_of_mem y hx

theorem transfer_write {fd x : ℕ} (hk : Known c s) (hr : s.Running k) (hx : x < 2^32)
    (h : pipewrite c s x ((s.proc k).ofile fd) = .ok s₁) : Transfer c s s₁ := by
  cases hf : (s.proc k).ofile fd with
  | none =>
    rw [hf] at h
    cases h
    exact .none
  | some f =>
    rw [hf] at h
    cases f with
    | console =>
      cases h
      exact .none
    | readEnd pi =>
      cases h
      exact .none
    | writeEnd pi => exact .write ⟨k,hr.1,fd,(hk.descriptors k hr.1 fd _ hf).1,hf⟩ hx h

theorem transfer_read {fd : ℕ} {r : Option ℕ} (hk : Known c s) (hr : s.Running k)
    (h : piperead c s ((s.proc k).ofile fd) = .ok (s₁,r)) :
    Transfer c s s₁ ∧ ∀ x, r = some x → x < 2^32 := by
  cases hf : (s.proc k).ofile fd with
  | none =>
    rw [hf] at h
    cases h
    exact ⟨.none,by simp⟩
  | some f =>
    rw [hf] at h
    cases f with
    | console =>
      cases h
      exact ⟨.none,by simp⟩
    | writeEnd pi =>
      cases h
      exact ⟨.none,by simp⟩
    | readEnd pi =>
      refine ⟨.read ⟨k,hr.1,fd,(hk.descriptors k hr.1 fd _ hf).1,hf⟩ h,?_⟩
      rintro x rfl
      obtain ⟨q,hq,_⟩ := piperead_some h
      apply hk.queued pi x
      rw [hq]
      exact List.mem_cons_self

/-- A process goes on with no descriptor it did not have, and with no number
that is too large. -/
structure Sheds (P P' : Proc) : Prop where
  ofile : ∀ fd f, P'.ofile fd = some f → P.ofile fd = some f
  pc : ∀ x, P'.pc = .writeNum x → P.pc = .writeNum x ∨ x < 2^32

theorem Sheds.same (P : Proc) : Sheds P P := ⟨fun _ _ h => h,fun _ h => Or.inl h⟩

theorem close_sheds {P : Proc} {fd fd' : ℕ} {f : File} (h : close P fd fd' = some f) :
    P.ofile fd' = some f := by
  by_cases hfd : fd' = fd
  · rw [hfd,close,Function.update_self] at h
    cases h
  · rwa [close,Function.update_of_ne hfd] at h

/-- A turn that neither forks nor makes a pipe. -/
theorem effect_moved (hk : Known c s) (ht : Transfer c s s₁) (hq : s'.queue = s₁.queue)
    (hn : s'.nproc = s.nproc) (hp : s'.npipe = s.npipe) (hs : ∀ j, Sheds (s.proc j) (s'.proc j)) :
    Effect c s s' ∧ ∀ j x, (s'.proc j).pc = .writeNum x → x < 2^32 := by
  refine ⟨.moved s₁ ht hq hp fun j hj fd f hf => ⟨j,hn ▸ hj,(hs j).ofile fd f hf⟩,?_⟩
  intro j x hx
  rcases (hs j).pc x hx with h | h
  · exact hk.pending j x h
  · exact h

theorem effect_set {P : Proc} (hk : Known c s) (ht : Transfer c s s₁) (hq : s'.queue = s₁.queue)
    (hn : s'.nproc = s.nproc) (hp : s'.npipe = s.npipe)
    (hproc : s'.proc = Function.update s.proc k P) (hs : Sheds (s.proc k) P) :
    Effect c s s' ∧ ∀ j x, (s'.proc j).pc = .writeNum x → x < 2^32 := by
  refine effect_moved hk ht hq hn hp fun j => ?_
  rw [hproc]
  by_cases hj : j = k
  · rw [hj,Function.update_self]
    exact hs
  · rw [Function.update_of_ne hj]
    exact .same _

theorem pipe_effect (hk : Known c s) (hr : s.Running k) (hpc : (s.proc k).pc = .pipe)
    (h : runProc c s k = .ok s') :
    Effect c s s' ∧ ∀ j x, (s'.proc j).pc = .writeNum x → x < 2^32 := by
  simp only [runProc,hpc] at h
  cases hfds : pipeFds c (s.proc k).ofile s.npipe with
  | none =>
    rw [hfds] at h
    cases h
  | some fds =>
    obtain ⟨fd0,fd1⟩ := fds
    rw [hfds] at h
    cases h
    obtain ⟨_,h0,hrest⟩ := Option.bind_eq_some_iff.mp hfds
    obtain ⟨_,h1,he⟩ := Option.bind_eq_some_iff.mp hrest
    cases he
    have hfd0 := DescriptorTable.fdalloc_some h0
    have hfd1 := DescriptorTable.fdalloc_some h1
    have hne : fd0 ≠ fd1 := by
      rintro rfl
      simpa using hfd1.2.1
    have hself {P : Proc} : Function.update s.proc k P k = P := Function.update_self _ _ _
    constructor
    · refine .created rfl rfl ⟨k,hr.1,fd0,hfd0.1,?_⟩ ⟨k,hr.1,fd1,hfd1.1,?_⟩ ?_
      · dsimp only
        rw [hself]
        simp [hne]
      · dsimp only
        rw [hself]
        simp
      · intro j hj fd f hf
        dsimp only at hf
        by_cases hjk : j = k
        · rw [hjk,hself] at hf
          dsimp only at hf
          by_cases hf1 : fd = fd1
          · rw [hf1,Function.update_self] at hf
            exact .inr ⟨hf1 ▸ hfd1.1,.inr (Option.some.inj hf).symm⟩
          · rw [Function.update_of_ne hf1] at hf
            by_cases hf0 : fd = fd0
            · rw [hf0,Function.update_self] at hf
              exact .inr ⟨hf0 ▸ hfd0.1,.inl (Option.some.inj hf).symm⟩
            · rw [Function.update_of_ne hf0] at hf
              exact .inl ⟨k,hr.1,hf⟩
        · rw [Function.update_of_ne hjk] at hf
          exact .inl ⟨j,hj,hf⟩
    · intro j x hx
      dsimp only at hx
      by_cases hjk : j = k
      · rw [hjk,hself] at hx
        cases hx
      · rw [Function.update_of_ne hjk] at hx
        exact hk.pending j x hx

theorem fork_effect (hk : Known c s) (hr : s.Running k) (hpc : (s.proc k).pc = .fork)
    (h : runProc c s k = .ok s') :
    Effect c s s' ∧ ∀ j x, (s'.proc j).pc = .writeNum x → x < 2^32 := by
  simp only [runProc,hpc] at h
  cases h
  constructor
  · refine .moved s .none rfl rfl ?_
    intro j hj fd f hf
    dsimp only at hj hf
    by_cases hjn : j = s.nproc
    · rw [hjn,Function.update_self] at hf
      exact ⟨k,hr.1,hf⟩
    · rw [Function.update_of_ne hjn] at hf
      by_cases hjk : j = k
      · rw [hjk,Function.update_self] at hf
        exact ⟨k,hr.1,hf⟩
      · rw [Function.update_of_ne hjk] at hf
        exact ⟨j,by omega,hf⟩
  · intro j x hx
    dsimp only at hx
    by_cases hjn : j = s.nproc
    · rw [hjn,Function.update_self] at hx
      cases hx
    · rw [Function.update_of_ne hjn] at hx
      by_cases hjk : j = k
      · rw [hjk,Function.update_self] at hx
        cases hx
      · rw [Function.update_of_ne hjk] at hx
        exact hk.pending j x hx

theorem kwait_sheds (h : kwait s k = .ok s') : s'.queue = s.queue ∧ s'.nproc = s.nproc ∧
    s'.npipe = s.npipe ∧ ∀ j, Sheds (s.proc j) (s'.proc j) := by
  simp only [kwait] at h
  split at h
  · next d _ =>
    cases h
    refine ⟨rfl,rfl,rfl,fun j => ?_⟩
    simp only [freeproc,State.setProc]
    by_cases hj : j = d
    · rw [hj,Function.update_self]
      exact ⟨fun _ _ hf => hf,fun _ hx => .inl hx⟩
    · rw [Function.update_of_ne hj]
      exact .same _
  · split_ifs at h
    cases h
    exact ⟨rfl,rfl,rfl,fun j => .same _⟩

theorem kexit_sheds (s : State) (k j : ℕ) :
    Sheds (s.proc j) ((kexit s k).proc j) := by
  simp only [kexit,State.setProc]
  by_cases hj : j = k
  · rw [hj,Function.update_self]
    refine ⟨fun _ _ hf => (by cases hf),fun x hp => ?_⟩
    split_ifs at hp <;> exact .inl hp
  · rw [Function.update_of_ne hj]
    split_ifs
    · exact ⟨fun _ _ hf => hf,fun _ hp => .inl hp⟩
    · exact .same _

theorem printing_pc (cs : List Char) (x : ℕ) : printing cs ≠ .writeNum x := by
  cases cs <;> simp [printing]

theorem runProc_effect (hk : Known c s) (hr : s.Running k) (h : runProc c s k = .ok s') :
    Effect c s s' ∧ ∀ j x, (s'.proc j).pc = .writeNum x → x < 2^32 := by
  have hsame {P : Proc} (hf : P.ofile = (s.proc k).ofile) (hx : ∀ x, P.pc ≠ .writeNum x) :
      Sheds (s.proc k) P := ⟨fun _ _ h => hf ▸ h,fun x h => absurd h (hx x)⟩
  have hclose {P : Proc} {fd : ℕ} (hf : P.ofile = close (s.proc k) fd)
      (hx : ∀ x, P.pc ≠ .writeNum x) : Sheds (s.proc k) P :=
    ⟨fun _ _ h => close_sheds (hf ▸ h),fun x h => absurd h (hx x)⟩
  cases hpc : (s.proc k).pc with
  | pipe => exact pipe_effect hk hr hpc h
  | fork => exact fork_effect hk hr hpc h
  | childClose =>
    simp only [runProc,hpc] at h
    cases h
    exact effect_set hk .none rfl rfl rfl rfl (hclose rfl (by simp))
  | close0 =>
    simp only [runProc,hpc] at h
    cases h
    refine effect_set hk .none rfl rfl rfl rfl (hclose rfl fun x => ?_)
    cases (s.proc k).body <;> simp
  | feed i =>
    simp only [runProc,hpc] at h
    split_ifs at h with hle
    · obtain ⟨s₁,hw,hs⟩ := bind_ok h
      have ht := transfer_write hk hr (by have := c.bound_lt; omega) hw
      obtain ⟨Q,rfl⟩ := ht.queue
      cases hs
      exact effect_set hk ht rfl rfl rfl rfl (hsame rfl (by simp))
    · cases h
      exact effect_set hk .none rfl rfl rfl rfl (hclose rfl (by simp))
  | readFirst =>
    simp only [runProc,hpc] at h
    obtain ⟨⟨s₁,r⟩,hw,hs⟩ := bind_ok h
    obtain ⟨ht,_⟩ := transfer_read hk hr hw
    obtain ⟨Q,rfl⟩ := ht.queue
    cases r with
    | none =>
      cases hs
      exact effect_set hk ht rfl rfl rfl rfl (hsame rfl (by simp))
    | some x =>
      cases hs
      exact effect_set hk ht rfl rfl rfl rfl (hsame rfl (printing_pc (line x)))
  | closeEmpty =>
    simp only [runProc,hpc] at h
    cases h
    exact effect_set hk .none rfl rfl rfl rfl (hclose rfl (by simp))
  | print rest =>
    cases rest with
    | nil =>
      simp only [runProc,hpc] at h
      cases h
      exact effect_set hk .none rfl rfl rfl rfl (hsame rfl (by simp))
    | cons ch rest =>
      simp only [runProc,hpc,putc] at h
      cases h
      split_ifs
      · exact effect_set hk .none rfl rfl rfl rfl (hsame rfl (printing_pc _))
      · exact effect_set hk .none rfl rfl rfl rfl (hsame rfl (printing_pc _))
  | readNum =>
    simp only [runProc,hpc] at h
    obtain ⟨⟨s₁,r⟩,hw,hs⟩ := bind_ok h
    obtain ⟨ht,hlt⟩ := transfer_read hk hr hw
    obtain ⟨Q,rfl⟩ := ht.queue
    cases r with
    | none =>
      cases hs
      exact effect_set hk ht rfl rfl rfl rfl (hsame rfl (by simp))
    | some x =>
      cases hs
      refine effect_set hk ht rfl rfl rfl rfl ⟨fun _ _ h => h,fun y hy => .inr ?_⟩
      dsimp only at hy
      split_ifs at hy
      cases hy
      exact hlt x rfl
  | writeNum x =>
    simp only [runProc,hpc] at h
    obtain ⟨s₁,hw,hs⟩ := bind_ok h
    have ht := transfer_write hk hr (hk.pending k x hpc) hw
    obtain ⟨Q,rfl⟩ := ht.queue
    cases hs
    exact effect_set hk ht rfl rfl rfl rfl (hsame rfl (by simp))
  | closeRead =>
    simp only [runProc,hpc] at h
    cases h
    exact effect_set hk .none rfl rfl rfl rfl (hclose rfl (by simp))
  | close1 =>
    simp only [runProc,hpc] at h
    cases h
    exact effect_set hk .none rfl rfl rfl rfl (hclose rfl (by simp))
  | wait =>
    simp only [runProc,hpc] at h
    obtain ⟨s₁,hw,hs⟩ := bind_ok h
    obtain ⟨hq,hn,hp,hsheds⟩ := kwait_sheds hw
    cases hs
    refine effect_moved hk .none hq hn hp fun j => ?_
    simp only [goto,State.setProc]
    by_cases hj : j = k
    · rw [hj,Function.update_self]
      exact ⟨(hsheds k).ofile,fun _ hx => by cases hx⟩
    · rw [Function.update_of_ne hj]
      exact hsheds j
  | exit =>
    simp only [runProc,hpc] at h
    cases h
    exact effect_moved hk .none rfl rfl rfl (kexit_sheds s k)

theorem step_effect {t : Turn} (hk : Known c s) (h : Turns c s t s') :
    Effect c s s' ∧ ∀ j x, (s'.proc j).pc = .writeNum x → x < 2^32 := by
  cases t with
  | run k =>
    simp only [Accepts,step] at h
    split_ifs at h with hr
    exact runProc_effect hk hr h
  | forkFails k =>
    simp only [Accepts,step] at h
    split_ifs at h with hr
    cases h
    exact effect_set hk .none rfl rfl rfl rfl ⟨fun _ _ h => h,fun _ hx => by cases hx⟩

theorem step_known {t : Turn} (hk : Known c s) (h : Turns c s t s') : Known c s' := by
  obtain ⟨he,hpending⟩ := step_effect hk h
  cases he with
  | moved s₁ ht hq hp hinh =>
    refine ⟨?_,?_,hpending⟩
    · intro j hj fd f hf
      obtain ⟨i,hi,hf'⟩ := hinh j hj fd f hf
      rw [hp]
      exact hk.descriptors i hi fd f hf'
    · rw [hq]
      exact ht.queued hk
  | created hq hp _ _ hfiles =>
    refine ⟨?_,?_,hpending⟩
    · intro j hj fd f hf
      rw [hp]
      rcases hfiles j hj fd f hf with ⟨i,hi,hf'⟩ | ⟨hfd,hf'⟩
      · obtain ⟨hlt,hmade⟩ := hk.descriptors i hi fd f hf'
        refine ⟨hlt,?_⟩
        cases f with
        | console => trivial
        | readEnd pi => exact Nat.lt_succ_of_lt hmade
        | writeEnd pi => exact Nat.lt_succ_of_lt hmade
      · refine ⟨hfd,?_⟩
        rcases hf' with rfl | rfl
        · exact Nat.lt_succ_self _
        · exact Nat.lt_succ_self _
    · rw [hq]
      exact setQueue_bounded (s := s) hk.queued (by simp)

end Turns

section Bytes

variable {page : Fin PipeMachine.PIPESIZE → PipeMachine.Byte} {q : List (BitVec 32)}
  {S : PipeMachine.State}

/-- A state of the bytes with no call under way. -/
structure Rests (page : Fin PipeMachine.PIPESIZE → PipeMachine.Byte)
    (S : PipeMachine.State) : Prop where
  reach : Reach (Accepts PipeMachine.step) PipeMachine.Offered (PipeMachine.start page) S
  writer : S.writer = .idle
  reader : S.reader = .idle

theorem pipewrite_reader (x : BitVec 32) (copyin : ℕ → Bool) (i : ℕ) (h : S.reader = .idle) :
    (S.pipewrite x copyin i).reader = .idle := by
  simp only [PipeMachine.State.pipewrite]
  split
  · dsimp only
    split_ifs
    · exact PipeRecords.wake_idle h
    · exact h
  · exact PipeRecords.wake_idle h

theorem piperead_writer (copyout : ℕ → Bool) (h : S.writer = .idle) :
    (S.piperead copyout).writer = .idle := by
  simp only [PipeMachine.State.piperead]
  split
  · dsimp only
    split_ifs
    · exact PipeRecords.wake_idle_writer h
    · exact h
  · exact h

theorem Rests.closeWrite (h : Rests page S) (hi : PipeRecords.Inv S q) {w : Prop}
    (hw : w → S.pipe.writeopen = true) : ∃ S', Rests page S' ∧ PipeRecords.Inv S' q ∧
      (S'.pipe.writeopen = true ↔ w) ∧ S'.pipe.readopen = S.pipe.readopen := by
  by_cases hc : S.pipe.writeopen = true ∧ ¬ w
  · have hs : PipeMachine.step S .closeWrite = .ok (S.pipeclose .writer) := by
      simp [PipeMachine.step,h.writer,hc.1]
    have hoffered : PipeMachine.Offered S .closeWrite := trivial
    refine ⟨S.pipeclose .writer,⟨h.reach.next hoffered hs,h.writer,?_⟩,?_,?_,rfl⟩
    · exact PipeRecords.wake_idle h.reader
    · exact PipeRecords.pipeclose_inv hi .writer (by simp)
    · exact iff_of_false (by simp [PipeMachine.State.pipeclose]) hc.2
  · exact ⟨S,h,hi,⟨fun ho => by_contra fun hn => hc ⟨ho,hn⟩,hw⟩,rfl⟩

theorem Rests.closeRead (h : Rests page S) (hi : PipeRecords.Inv S q) {r : Prop}
    (hr : r → S.pipe.readopen = true) : ∃ S', Rests page S' ∧ PipeRecords.Inv S' q ∧
      (S'.pipe.readopen = true ↔ r) ∧ S'.pipe.writeopen = S.pipe.writeopen := by
  by_cases hc : S.pipe.readopen = true ∧ ¬ r
  · have hs : PipeMachine.step S .closeRead = .ok (S.pipeclose .reader) := by
      simp [PipeMachine.step,h.reader,hc.1]
    have hoffered : PipeMachine.Offered S .closeRead := trivial
    refine ⟨S.pipeclose .reader,⟨h.reach.next hoffered hs,?_,h.reader⟩,?_,?_,rfl⟩
    · exact PipeRecords.wake_idle_writer h.writer
    · exact PipeRecords.pipeclose_inv hi .reader fun _ => h.reader
    · exact iff_of_false (by simp [PipeMachine.State.pipeclose]) hc.2
  · exact ⟨S,h,hi,⟨fun ho => by_contra fun hn => hc ⟨ho,hn⟩,hr⟩,rfl⟩

end Bytes

section Runs

variable {c : Config} {s s' s₁ : State} {pi : ℕ}
  {page : Fin PipeMachine.PIPESIZE → PipeMachine.Byte}

/-- Some run of the bytes has come to carry pipe `pi`. -/
def Backed (page : Fin PipeMachine.PIPESIZE → PipeMachine.Byte) (c : Config) (s : State)
    (pi : ℕ) : Prop := ∃ S, Rests page S ∧ Carries c s pi S

theorem Backed.transfer (hcap : c.capacity = PipeMachine.PIPESIZE/4) (hb : Backed page c s pi)
    (ht : Transfer c s s₁) : Backed page c s₁ pi := by
  obtain ⟨S,hS,hcarry⟩ := hb
  have helsewhere {j : ℕ} {xs : List ℕ} (hj : pi ≠ j) : Backed page c (s.setQueue j xs) pi := by
    obtain ⟨q,hi,hq⟩ := hcarry.ints
    exact ⟨S,hS,⟨q,hi,(setQueue_other s xs hj).trans hq⟩,hcarry.readopen,hcarry.writeopen⟩
  cases ht with
  | none => exact ⟨S,hS,hcarry⟩
  | @write j x _ ho hx h =>
    by_cases hj : pi = j
    · subst hj
      have hx' : (BitVec.ofNat 32 x).toNat = x := by
        rw [BitVec.toNat_ofNat,Nat.mod_eq_of_lt hx]
      have hmapped : ∀ j < 4, (fun _ => true : ℕ → Bool) j = true := fun _ _ => rfl
      have hagree := (pipewrite_agrees hcap hcarry (BitVec.ofNat 32 x) hmapped).1
      rw [hx'] at hagree
      obtain ⟨hcarry',hidle⟩ := hagree s₁ h
      have hs : PipeMachine.step S (.write (BitVec.ofNat 32 x) fun _ => true) =
          .ok (S.pipewrite (BitVec.ofNat 32 x) (fun _ => true) 0) := by
        simp [PipeMachine.step,hS.writer,hcarry.writeopen.mpr ho]
      have hoffered : PipeMachine.Offered S (.write (BitVec.ofNat 32 x) fun _ => true) := hmapped
      exact ⟨_,⟨hS.reach.next hoffered hs,hidle,pipewrite_reader _ _ _ hS.reader⟩,hcarry'⟩
    · rcases pipewrite_ok h with ⟨_,rfl⟩ | rfl
      · exact ⟨S,hS,hcarry⟩
      · exact helsewhere hj
  | @read j r _ ho h =>
    by_cases hj : pi = j
    · subst hj
      have hmapped : ∀ j < 4, (fun _ => true : ℕ → Bool) j = true := fun _ _ => rfl
      obtain ⟨hcarry',hidle,_⟩ := (piperead_agrees hcarry ho hmapped).1 s₁ r h
      have hs : PipeMachine.step S (.read fun _ => true) = .ok (S.piperead fun _ => true) := by
        simp [PipeMachine.step,hS.reader,hcarry.readopen.mpr ho]
      have hoffered : PipeMachine.Offered S (.read fun _ => true) := hmapped
      exact ⟨_,⟨hS.reach.next hoffered hs,piperead_writer _ hS.writer,hidle⟩,hcarry'⟩
    · cases r with
      | none =>
        obtain ⟨_,_,rfl⟩ := piperead_none h
        exact ⟨S,hS,hcarry⟩
      | some x =>
        obtain ⟨xs,_,rfl⟩ := piperead_some h
        exact helsewhere hj

/-- What is closed in the sieve is closed in the bytes. -/
theorem Backed.close (hb : Backed page c s pi) (hq : s'.queue pi = s.queue pi)
    (hread : s'.Open c (.readEnd pi) → s.Open c (.readEnd pi))
    (hwrite : s'.Open c (.writeEnd pi) → s.Open c (.writeEnd pi)) : Backed page c s' pi := by
  obtain ⟨S,hS,hcarry⟩ := hb
  obtain ⟨q,hi,hqueue⟩ := hcarry.ints
  obtain ⟨S₁,h₁,hi₁,hw₁,hr₁⟩ := hS.closeWrite hi fun h => hcarry.writeopen.mpr (hwrite h)
  obtain ⟨S₂,h₂,hi₂,hr₂,hw₂⟩ := h₁.closeRead hi₁ fun h =>
    hr₁.trans (hcarry.readopen.mpr (hread h))
  exact ⟨S₂,h₂,⟨q,hi₂,hq.trans hqueue⟩,hr₂,by rw [hw₂]; exact hw₁⟩

theorem backed_start (hq : s.queue pi = []) (hr : s.Open c (.readEnd pi))
    (hw : s.Open c (.writeEnd pi)) : Backed page c s pi :=
  ⟨PipeMachine.start page,⟨.start,rfl,rfl⟩,
    ⟨[],PipeRecords.start_inv page,hq⟩,iff_of_true rfl hr,iff_of_true rfl hw⟩

theorem step_backed (hcap : c.capacity = PipeMachine.PIPESIZE/4) {t : Turn} (hk : Known c s)
    (hb : ∀ pi < s.npipe, Backed page c s pi) (h : Turns c s t s') (hpi : pi < s'.npipe) :
    Backed page c s' pi := by
  cases (step_effect hk h).1 with
  | moved s₁ ht hq hp hinh =>
    have hb₁ := (hb pi (hp ▸ hpi)).transfer hcap ht
    obtain ⟨Q,rfl⟩ := ht.queue
    exact hb₁.close (congrFun hq pi) (open_inherited hinh) (open_inherited hinh)
  | created hq hp hr hw hfiles =>
    by_cases hnew : pi = s.npipe
    · subst hnew
      exact backed_start (by rw [hq,Function.update_self]) hr hw
    · have hold {f : File} (hf : f ≠ .readEnd s.npipe ∧ f ≠ .writeEnd s.npipe)
          (ho : s'.Open c f) : s.Open c f := by
        obtain ⟨j,hj,fd,hfd,hfile⟩ := ho
        rcases hfiles j hj fd f hfile with ⟨i,hi,hf'⟩ | ⟨_,he | he⟩
        · exact ⟨i,hi,fd,hfd,hf'⟩
        · exact absurd he hf.1
        · exact absurd he hf.2
      refine (hb pi (by omega)).close ?_ (hold (by simp [hnew])) (hold (by simp [hnew]))
      rw [hq,Function.update_of_ne hnew]

/-- In every run of the sieve, with the pipes of the kernel, every pipe is carried by
a run of the byte pipe. -/
theorem pipes_backed (hcap : c.capacity = PipeMachine.PIPESIZE/4) (hfiles : 3 ≤ c.nofile)
    (hr : Reached c s) (hpi : pi < s.npipe) : Backed page c s pi := by
  have hinv : Known c s ∧ ∀ pi < s.npipe, Backed page c s pi := by
    apply hr.invariant (I := fun s => Known c s ∧ ∀ pi < s.npipe, Backed page c s pi)
    · exact ⟨start_known hfiles,fun pi hpi => absurd hpi (Nat.not_lt_zero pi)⟩
    · rintro s t s' ⟨hk,hb⟩ _ h
      exact ⟨step_known hk h,fun _ => step_backed hcap hk hb h⟩
  exact hinv.2 pi hpi

/-- The pipes of `xv6` are such pipes. -/
theorem xv6_pipes_backed {n : ℕ} {hn : n < 2^31-1} (hr : Reached (xv6 n hn) s)
    (hpi : pi < s.npipe) : Backed page (xv6 n hn) s pi :=
  pipes_backed rfl (show 3 ≤ 16 by decide) hr hpi

end Runs

end ListlibSyscalls.SievePipes
