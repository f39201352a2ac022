import ListlibSyscalls.BufMachine
import ListlibSyscalls.CountedRefs

/-!
# What the buffer cache keeps

The links form a ring through all buffers, in which a buffer of the same block as
an earlier one is still as `binit` left it. A reference count is the number of
uses that refer to the buffer and of its pins, and a buffer with references keeps
its block. Every step keeps this, whoever takes it.
-/

set_option autoImplicit false

namespace ListlibSyscalls.BufInvariant
open StepRuns LinkedChain LinkedRing CountedRefs BufMachine

def target : Use → Option (ℕ × Key)
  | .idle => none
  | .waiting b k => some (b,k)
  | .locked b k => some (b,k)
  | .holding b k => some (b,k)
  | .leaving b k => some (b,k)

def bufOf (u : Use) : Option ℕ := (target u).map Prod.fst

section Invariant

variable {ι δ : Type} {s : State ι δ}

def Blank (x : Buf ι δ) : Prop := x.refcnt = 0 ∧ x.valid = false

/-- The order of the ring, from the buffer used last, with one buffer to a block. -/
structure Order (s : State ι δ) (xs : List ℕ) : Prop where
  ring : Ring s.next s.prev head xs
  all : ∀ b, b ∈ xs ↔ b < NBUF
  apart : xs.Pairwise fun x y => (s.buf x).key = (s.buf y).key → Blank (s.buf y)

theorem Order.length {xs : List ℕ} (h : Order s xs) : xs.length = NBUF := by
  have hperm : xs.Perm (List.range NBUF) := by
    rw [List.perm_ext_iff_of_nodup h.ring.distinct List.nodup_range]
    intro b
    rw [h.all b,List.mem_range]
  rw [hperm.length_eq,List.length_range]

theorem Order.seek_next {xs : List ℕ} (h : Order s xs) (p : ℕ → Bool) :
    seek s.next head p (NBUF+1) (s.next head) = some (xs.find? p) :=
  seek_walk p h.ring.forward (by rw [h.length]; exact Nat.lt_succ_self _)

theorem Order.seek_prev {xs : List ℕ} (h : Order s xs) (p : ℕ → Bool) :
    seek s.prev head p (NBUF+1) (s.prev head) = some (xs.reverse.find? p) := by
  have hback := (Doubly.reverse h.ring).forward
  exact seek_walk p hback (by rw [List.length_reverse,h.length]; exact Nat.lt_succ_self _)

theorem Order.keep {s' : State ι δ} {xs : List ℕ} (h : Order s xs) (hn : s'.next = s.next)
    (hp : s'.prev = s.prev) (hk : ∀ b, (s'.buf b).key = (s.buf b).key)
    (hb : ∀ b, Blank (s.buf b) → Blank (s'.buf b)) : Order s' xs := by
  refine ⟨by rw [hn,hp]; exact h.ring,h.all,h.apart.imp ?_⟩
  intro x y hxy hkey
  rw [hk,hk] at hkey
  exact hb y (hxy hkey)

variable [Fintype ι]

def refsTo (s : State ι δ) (b : ℕ) : ℕ := tally (fun i => bufOf (s.use i)) b

structure Inv (s : State ι δ) : Prop where
  order : ∃ xs, Order s xs
  refs : ∀ b < NBUF, (s.buf b).refcnt = refsTo s b+s.pins b
  targets : ∀ i b k, target (s.use i) = some (b,k) → b < NBUF ∧ (s.buf b).key = k
  locks : ∀ b i, (s.buf b).lock = some i ↔ ∃ k, s.use i = .locked b k ∨ s.use i = .holding b k
  filled : ∀ i b k, s.use i = .holding b k → (s.buf b).valid = true

theorem refsTo_setUse [DecidableEq ι] (s : State ι δ) (i : ι) (u : Use) (b : ℕ) :
    refsTo (s.setUse i u) b+(if bufOf (s.use i) = some b then 1 else 0) =
      refsTo s b+(if bufOf u = some b then 1 else 0) := by
  have hcomp : (fun j => bufOf ((s.setUse i u).use j)) =
      Function.update (fun j => bufOf (s.use j)) i (bufOf u) := by
    funext j
    by_cases hj : j = i
    · subst hj
      simp [State.setUse]
    · simp [State.setUse,hj]
  rw [refsTo,hcomp]
  exact tally_update _ i (bufOf u) b

theorem Inv.refcnt_pos (h : Inv s) {i : ι} {b : ℕ} {k : Key} (hi : target (s.use i) = some (b,k)) :
    0 < (s.buf b).refcnt := by
  have hpos : 0 < refsTo s b := tally_pos (i := i) (by rw [bufOf,hi]; rfl)
  rw [h.refs b (h.targets i b k hi).1]
  omega

theorem Inv.unused (h : Inv s) {b : ℕ} (h0 : (s.buf b).refcnt = 0) :
    (∀ i k, target (s.use i) ≠ some (b,k)) ∧ (s.buf b).lock = none := by
  have hno : ∀ i k, target (s.use i) ≠ some (b,k) := by
    intro i k hi
    have := h.refcnt_pos hi
    omega
  refine ⟨hno,?_⟩
  cases hl : (s.buf b).lock with
  | none => rfl
  | some i =>
    obtain ⟨k,hk|hk⟩ := (h.locks b i).mp hl
    · exact absurd (by rw [hk]; rfl) (hno i k)
    · exact absurd (by rw [hk]; rfl) (hno i k)

end Invariant

section Steps

variable {ι δ : Type} {s : State ι δ} {i j : ι} {b c : ℕ} {k : Key}

@[simp] theorem setBuf_self (x : Buf ι δ) : (s.setBuf b x).buf b = x := Function.update_self _ _ _

theorem setBuf_of_ne (x : Buf ι δ) (h : c ≠ b) : (s.setBuf b x).buf c = s.buf c :=
  Function.update_of_ne h _ _

theorem target_locked {u : Use} (h : u = .locked b k ∨ u = .holding b k) :
    target u = some (b,k) := by
  rcases h with rfl|rfl
  · rfl
  · rfl

theorem Order.hit {xs : List ℕ} (hxs : Order s xs)
    (hfind : xs.find? (fun b => decide ((s.buf b).key = k)) = some b) (n : ℕ) :
    Order (s.setBuf b { s.buf b with refcnt := n }) xs := by
  obtain ⟨hkey,as,bs,rfl,hbefore⟩ := List.find?_eq_some_iff_append.mp hfind
  have hkey : (s.buf b).key = k := by simpa using hkey
  have hbefore : ∀ x ∈ as, (s.buf x).key ≠ k := fun x hx => by simpa using hbefore x hx
  set s' := s.setBuf b { s.buf b with refcnt := n } with hs'
  have hsame : ∀ c, (s'.buf c).key = (s.buf c).key := by
    intro c
    by_cases hc : c = b
    · rw [hc,hs',setBuf_self]
    · rw [hs',setBuf_of_ne _ hc]
  have hblank : ∀ c, c ≠ b → Blank (s.buf c) → Blank (s'.buf c) := by
    intro c hc
    rw [hs',setBuf_of_ne _ hc]
    exact id
  obtain ⟨hna,hnb,hd⟩ := List.nodup_append.mp hxs.ring.distinct
  obtain ⟨hpa,hpb,hcross⟩ := List.pairwise_append.mp hxs.apart
  obtain ⟨hhead,hpb⟩ := List.pairwise_cons.mp hpb
  have hbs : ∀ y ∈ bs, y ≠ b := fun y hy e => (List.nodup_cons.mp hnb).1 (e ▸ hy)
  have has : ∀ y ∈ as, y ≠ b := fun y hy => hd y hy b (by simp)
  refine ⟨hxs.ring,hxs.all,?_⟩
  simp only [hsame]
  rw [List.pairwise_append,List.pairwise_cons]
  refine ⟨?_,⟨?_,?_⟩,?_⟩
  · exact hpa.imp_of_mem fun _ hy hR he => hblank _ (has _ hy) (hR he)
  · exact fun y hy he => hblank y (hbs y hy) (hhead y hy he)
  · exact hpb.imp_of_mem fun _ hy hR he => hblank _ (hbs _ hy) (hR he)
  · intro x hx y hy he
    rcases List.mem_cons.mp hy with rfl|hy
    · exact absurd (he.trans hkey) (hbefore x hx)
    · exact hblank y (hbs y hy) (hcross x hx y (List.mem_cons_of_mem _ hy) he)

theorem Order.recycle {xs : List ℕ} (hxs : Order s xs) (hnone : ∀ x ∈ xs, (s.buf x).key ≠ k)
    (x : Buf ι δ) (hkey : x.key = k) : Order (s.setBuf b x) xs := by
  refine ⟨hxs.ring,hxs.all,?_⟩
  apply (hxs.apart.and hxs.ring.distinct).imp_of_mem
  rintro y y' hy hy' ⟨hR,hne⟩ he
  by_cases hyb : y = b
  · rw [hyb,setBuf_self,setBuf_of_ne x (fun e => hne (hyb.trans e.symm)),hkey] at he
    exact absurd he.symm (hnone y' hy')
  · rw [setBuf_of_ne x hyb] at he
    by_cases hyb' : y' = b
    · rw [hyb',setBuf_self,hkey] at he
      exact absurd he (hnone y hy)
    · rw [setBuf_of_ne x hyb'] at he ⊢
      exact hR he

variable [DecidableEq ι]

@[simp] theorem setUse_self (u : Use) : (s.setUse i u).use i = u := Function.update_self _ _ _

theorem setUse_of_ne (u : Use) (h : j ≠ i) : (s.setUse i u).use j = s.use j :=
  Function.update_of_ne h _ _

variable [Fintype ι]

/-- A use that has the buffer of its block changes the lock, the data or their
validity. -/
theorem Inv.touch (h : Inv s) (hi : target (s.use i) = some (b,k)) (x : Buf ι δ) (u : Use)
    (hu : target u = some (b,k)) (hkey : x.key = (s.buf b).key) (hrefs : x.refcnt = (s.buf b).refcnt)
    (hlock : ∀ j, x.lock = some j ↔ ∃ k, (s.setUse i u).use j = .locked b k ∨
      (s.setUse i u).use j = .holding b k)
    (hvalid : ∀ j k, (s.setUse i u).use j = .holding b k → x.valid = true) :
    Inv ((s.setBuf b x).setUse i u) := by
  have hpos := h.refcnt_pos hi
  have hkeys : ∀ c, ((s.setBuf b x).buf c).key = (s.buf c).key := by
    intro c
    by_cases hc : c = b
    · rw [hc,setBuf_self,hkey]
    · rw [setBuf_of_ne x hc]
  have hcnt : ∀ c, ((s.setBuf b x).buf c).refcnt = (s.buf c).refcnt := by
    intro c
    by_cases hc : c = b
    · rw [hc,setBuf_self,hrefs]
    · rw [setBuf_of_ne x hc]
  have htarget : ∀ j, target ((s.setUse i u).use j) = target (s.use j) := by
    intro j
    by_cases hj : j = i
    · rw [hj,setUse_self,hu,hi]
    · rw [setUse_of_ne u hj]
  constructor
  · obtain ⟨xs,hxs⟩ := h.order
    refine ⟨xs,hxs.keep rfl rfl hkeys fun c hc => ?_⟩
    by_cases hcb : c = b
    · rw [hcb] at hc
      exact absurd hc.1 (by omega)
    · show Blank ((s.setBuf b x).buf c)
      rwa [setBuf_of_ne x hcb]
  · intro c hc
    have hrefsTo : refsTo ((s.setBuf b x).setUse i u) c = refsTo s c := by
      show tally _ c = tally _ c
      congr 1
      funext j
      exact congrArg (Option.map Prod.fst) (htarget j)
    rw [hrefsTo]
    exact (hcnt c).trans (h.refs c hc)
  · intro j c k' hj
    obtain ⟨hlt,hk⟩ := h.targets j c k' ((htarget j).symm.trans hj)
    exact ⟨hlt,(hkeys c).trans hk⟩
  · intro c j
    show ((s.setBuf b x).buf c).lock = some j ↔ ∃ k, (s.setUse i u).use j = .locked c k ∨
      (s.setUse i u).use j = .holding c k
    by_cases hcb : c = b
    · rw [hcb,setBuf_self]
      exact hlock j
    · rw [setBuf_of_ne x hcb,h.locks c j]
      by_cases hj : j = i
      · subst hj
        have hold : ¬ ∃ k, s.use j = .locked c k ∨ s.use j = .holding c k := by
          rintro ⟨k',hk'⟩
          rw [target_locked hk'] at hi
          cases hi
          exact hcb rfl
        have hnew : ¬ ∃ k, (s.setUse j u).use j = .locked c k ∨ (s.setUse j u).use j = .holding c k := by
          rintro ⟨k',hk'⟩
          rw [setUse_self] at hk'
          rw [target_locked hk'] at hu
          cases hu
          exact hcb rfl
        exact iff_of_false hold hnew
      · rw [setUse_of_ne u hj]
  · intro j c k' hj
    show ((s.setBuf b x).buf c).valid = true
    by_cases hcb : c = b
    · rw [hcb] at hj ⊢
      rw [setBuf_self]
      exact hvalid j k' hj
    · rw [setBuf_of_ne x hcb]
      by_cases hji : j = i
      · subst hji
        have hju : target u = some (c,k') := by
          have := congrArg target hj
          rwa [show ((s.setBuf b x).setUse j u).use j = u from setUse_self u] at this
        rw [hu] at hju
        cases hju
        exact absurd rfl hcb
      · exact h.filled j c k' ((setUse_of_ne u hji).symm.trans hj)

omit [DecidableEq ι] in
/-- A change of the references to a buffer that has some, all through pins. -/
theorem Inv.repin (h : Inv s) (hi : target (s.use i) = some (b,k)) (n p : ℕ)
    (hn : n = refsTo s b+p) : Inv { s.setBuf b { s.buf b with refcnt := n } with
      pins := Function.update s.pins b p } := by
  have hpos := h.refcnt_pos hi
  have hsame : ∀ c, ((s.setBuf b { s.buf b with refcnt := n }).buf c).key = (s.buf c).key ∧
      ((s.setBuf b { s.buf b with refcnt := n }).buf c).lock = (s.buf c).lock ∧
      ((s.setBuf b { s.buf b with refcnt := n }).buf c).valid = (s.buf c).valid := by
    intro c
    by_cases hc : c = b
    · rw [hc,setBuf_self]
      exact ⟨rfl,rfl,rfl⟩
    · rw [setBuf_of_ne _ hc]
      exact ⟨rfl,rfl,rfl⟩
  constructor
  · obtain ⟨xs,hxs⟩ := h.order
    refine ⟨xs,hxs.keep rfl rfl (fun c => (hsame c).1) fun c hc => ?_⟩
    by_cases hcb : c = b
    · rw [hcb] at hc
      exact absurd hc.1 (by omega)
    · show Blank ((s.setBuf b _).buf c)
      rwa [setBuf_of_ne _ hcb]
  · intro c hc
    show ((s.setBuf b _).buf c).refcnt = refsTo s c+Function.update s.pins b p c
    by_cases hcb : c = b
    · rw [hcb,setBuf_self,Function.update_self]
      exact hn
    · rw [setBuf_of_ne _ hcb,Function.update_of_ne hcb]
      exact h.refs c hc
  · intro j c k' hj
    obtain ⟨hlt,hk⟩ := h.targets j c k' hj
    exact ⟨hlt,(hsame c).1.trans hk⟩
  · intro c j
    show ((s.setBuf b _).buf c).lock = some j ↔ _
    rw [(hsame c).2.1]
    exact h.locks c j
  · intro j c k' hj
    exact (hsame c).2.2.trans (h.filled j c k' hj)

/-- A use comes to refer to a buffer. If others do already, block and data stay. -/
theorem Inv.enter (h : Inv s) (hi : s.use i = .idle) (hb : b < NBUF) (x : Buf ι δ)
    (horder : ∃ xs, Order (s.setBuf b x) xs) (hkey : x.key = k) (hlock : x.lock = (s.buf b).lock)
    (hcnt : x.refcnt = (s.buf b).refcnt+1)
    (hkept : ∀ j k', target (s.use j) = some (b,k') →
      x.key = (s.buf b).key ∧ x.valid = (s.buf b).valid) :
    Inv ((s.setBuf b x).setUse i (.waiting b k)) := by
  have hlocks : ∀ c, ((s.setBuf b x).buf c).lock = (s.buf c).lock := by
    intro c
    by_cases hcb : c = b
    · rw [hcb,setBuf_self,hlock]
    · rw [setBuf_of_ne x hcb]
  constructor
  · obtain ⟨xs,hxs⟩ := horder
    exact ⟨xs,hxs.keep rfl rfl (fun _ => rfl) (fun _ hc => hc)⟩
  · intro c hc
    have hcount := refsTo_setUse s i (.waiting b k) c
    have hold := h.refs c hc
    rw [hi] at hcount
    show ((s.setBuf b x).buf c).refcnt = refsTo (s.setUse i (.waiting b k)) c+s.pins c
    by_cases hcb : c = b
    · rw [hcb] at hcount hold ⊢
      rw [setBuf_self,hcnt]
      simp [bufOf,target] at hcount
      omega
    · have hne : ¬ b = c := fun e => hcb e.symm
      rw [setBuf_of_ne x hcb]
      simp [bufOf,target,hne] at hcount
      omega
  · intro j c k' hj
    by_cases hji : j = i
    · rw [hji,setUse_self] at hj
      cases hj
      exact ⟨hb,(congrArg Buf.key (setBuf_self x)).trans hkey⟩
    · have hj : target (s.use j) = some (c,k') := by rwa [setUse_of_ne _ hji] at hj
      obtain ⟨hlt,hk⟩ := h.targets j c k' hj
      refine ⟨hlt,?_⟩
      show ((s.setBuf b x).buf c).key = k'
      by_cases hcb : c = b
      · rw [hcb] at hj hk ⊢
        rw [setBuf_self,(hkept j k' hj).1,hk]
      · rw [setBuf_of_ne x hcb,hk]
  · intro c j
    show ((s.setBuf b x).buf c).lock = some j ↔ ∃ k', (s.setUse i (.waiting b k)).use j = .locked c k' ∨
      (s.setUse i (.waiting b k)).use j = .holding c k'
    rw [hlocks c,h.locks c j]
    by_cases hji : j = i
    · rw [hji,setUse_self,hi]
      simp
    · rw [setUse_of_ne _ hji]
  · intro j c k' hj
    by_cases hji : j = i
    · rw [hji,setUse_self] at hj
      cases hj
    · have hj : s.use j = .holding c k' := by rwa [setUse_of_ne _ hji] at hj
      have hvalid := h.filled j c k' hj
      show ((s.setBuf b x).buf c).valid = true
      by_cases hcb : c = b
      · rw [hcb] at hj hvalid ⊢
        rw [setBuf_self,(hkept j k' (by rw [hj]; rfl)).2,hvalid]
      · rw [setBuf_of_ne x hcb,hvalid]

theorem bget_inv (h : Inv s) (hi : s.use i = .idle) {s' : State ι δ} (hs : bget s i k = .ok s') :
    Inv s' := by
  obtain ⟨xs,hxs⟩ := h.order
  rw [bget,hxs.seek_next] at hs
  cases hfind : xs.find? (fun b => decide ((s.buf b).key = k)) with
  | some b =>
    rw [hfind] at hs
    cases hs
    have hb : b < NBUF := (hxs.all b).mp (List.mem_of_find?_eq_some hfind)
    have hkey : (s.buf b).key = k := by simpa using List.find?_some hfind
    exact h.enter hi hb _ ⟨xs,hxs.hit hfind _⟩ hkey rfl rfl fun j k' _ => ⟨rfl,rfl⟩
  | none =>
    rw [hfind] at hs
    dsimp only at hs
    rw [hxs.seek_prev] at hs
    have hnone : ∀ x ∈ xs, (s.buf x).key ≠ k := by
      intro x hx
      simpa using List.find?_eq_none.mp hfind x hx
    cases hfree : xs.reverse.find? (fun b => decide ((s.buf b).refcnt = 0)) with
    | none =>
      rw [hfree] at hs
      cases hs
    | some b =>
      rw [hfree] at hs
      cases hs
      have h0 : (s.buf b).refcnt = 0 := by simpa using List.find?_some hfree
      have hb : b < NBUF := by
        apply (hxs.all b).mp
        exact List.mem_reverse.mp (List.mem_of_find?_eq_some hfree)
      refine h.enter hi hb _ ⟨xs,hxs.recycle hnone _ rfl⟩ rfl rfl ?_ ?_
      · rw [h0]
      · exact fun j k' hj => absurd hj ((h.unused h0).1 j k')

omit [Fintype ι] [DecidableEq ι] in
theorem Order.moveFront {xs : List ℕ} (hxs : Order s xs) (hb : b ∈ xs)
    (hused : ¬ Blank (s.buf b)) : ∃ ys, Order (moveFront s b) (b::ys) := by
  obtain ⟨as,bs,rfl⟩ := List.append_of_mem hb
  obtain ⟨-,hnb,hd⟩ := List.nodup_append.mp hxs.ring.distinct
  obtain ⟨hpa,hpb,hcross⟩ := List.pairwise_append.mp hxs.apart
  obtain ⟨hhead,hpb⟩ := List.pairwise_cons.mp hpb
  have hbz : b ≠ head := fun e => hxs.ring.sentinel_notMem (e ▸ hb)
  have hout : b ∉ as++bs := by
    intro hm
    rcases List.mem_append.mp hm with hm|hm
    · exact hd b hm b (by simp) rfl
    · exact (List.nodup_cons.mp hnb).1 hm
  refine ⟨as++bs,hxs.ring.unlink.push hbz hout,?_,?_⟩
  · intro c
    rw [← hxs.all c]
    simp only [List.mem_cons,List.mem_append]
    tauto
  · rw [List.pairwise_cons,List.pairwise_append]
    refine ⟨?_,hpa,hpb,fun x hx y hy => hcross x hx y (List.mem_cons_of_mem _ hy)⟩
    intro y hy he
    rcases List.mem_append.mp hy with hy|hy
    · exact absurd (hcross y hy b (by simp) he.symm) hused
    · exact hhead y hy he

theorem unref_inv (h : Inv s) (hi : s.use i = .leaving b k) : Inv ((unref s b).setUse i .idle) := by
  have htarget : target (s.use i) = some (b,k) := by rw [hi]; rfl
  have hpos := h.refcnt_pos htarget
  obtain ⟨hb,hkey⟩ := h.targets i b k htarget
  set s₁ := s.setBuf b { s.buf b with refcnt := (s.buf b).refcnt-1 } with hs₁
  have hsame : ∀ c, (s₁.buf c).key = (s.buf c).key ∧ (s₁.buf c).lock = (s.buf c).lock ∧
      (s₁.buf c).valid = (s.buf c).valid := by
    intro c
    by_cases hc : c = b
    · rw [hc,hs₁,setBuf_self]
      exact ⟨rfl,rfl,rfl⟩
    · rw [hs₁,setBuf_of_ne _ hc]
      exact ⟨rfl,rfl,rfl⟩
  have hblank : ∀ c, Blank (s.buf c) → Blank (s₁.buf c) := by
    intro c hc
    by_cases hcb : c = b
    · rw [hcb] at hc
      exact absurd hc.1 (by omega)
    · rwa [hs₁,setBuf_of_ne _ hcb]
  have hrest : (unref s b).buf = s₁.buf ∧ (unref s b).use = s.use ∧ (unref s b).pins = s.pins := by
    rw [unref]
    dsimp only
    split
    · exact ⟨rfl,rfl,rfl⟩
    · exact ⟨rfl,rfl,rfl⟩
  obtain ⟨hbuf,huse,hpins⟩ := hrest
  obtain ⟨xs,hxs⟩ := h.order
  have horder : ∃ ys, Order (unref s b) ys := by
    rw [unref]
    dsimp only
    split
    · have hused : ¬ Blank (s.buf b) := fun hc => absurd hc.1 (by omega)
      obtain ⟨ys,hys⟩ := hxs.moveFront ((hxs.all b).mpr hb) hused
      exact ⟨b::ys,hys.keep rfl rfl (fun c => (hsame c).1) hblank⟩
    · exact ⟨xs,hxs.keep rfl rfl (fun c => (hsame c).1) hblank⟩
  constructor
  · obtain ⟨ys,hys⟩ := horder
    exact ⟨ys,hys.keep rfl rfl (fun _ => rfl) (fun _ hc => hc)⟩
  · intro c hc
    have hcount := refsTo_setUse (unref s b) i .idle c
    have hsum : refsTo (unref s b) c = refsTo s c := by rw [refsTo,huse]; rfl
    have hold := h.refs c hc
    rw [huse,hi,hsum] at hcount
    show ((unref s b).buf c).refcnt = refsTo ((unref s b).setUse i .idle) c+(unref s b).pins c
    rw [hbuf,hpins]
    by_cases hcb : c = b
    · rw [hcb] at hcount hold ⊢
      rw [hs₁,setBuf_self]
      simp [bufOf,target] at hcount
      dsimp only
      omega
    · have hne : ¬ b = c := fun e => hcb e.symm
      rw [hs₁,setBuf_of_ne _ hcb]
      simp [bufOf,target,hne] at hcount
      omega
  · intro j c k' hj
    by_cases hji : j = i
    · rw [hji,setUse_self] at hj
      cases hj
    · rw [setUse_of_ne _ hji,huse] at hj
      obtain ⟨hlt,hk⟩ := h.targets j c k' hj
      exact ⟨hlt,((congrArg Buf.key (congrFun hbuf c)).trans (hsame c).1).trans hk⟩
  · intro c j
    show ((unref s b).buf c).lock = some j ↔ _
    rw [hbuf,(hsame c).2.1,h.locks c j]
    by_cases hji : j = i
    · rw [hji,setUse_self,hi]
      simp
    · rw [setUse_of_ne _ hji,huse]
  · intro j c k' hj
    by_cases hji : j = i
    · rw [hji,setUse_self] at hj
      cases hj
    · rw [setUse_of_ne _ hji,huse] at hj
      exact ((congrArg Buf.valid (congrFun hbuf c)).trans (hsame c).2.2).trans (h.filled j c k' hj)

theorem acquire_inv (h : Inv s) (hi : s.use i = .waiting b k) (hfree : (s.buf b).lock = none) :
    Inv ((s.setBuf b { s.buf b with lock := some i }).setUse i (.locked b k)) := by
  have htarget : target (s.use i) = some (b,k) := by rw [hi]; rfl
  refine h.touch htarget _ _ ?_ ?_ ?_ ?_ ?_
  · rfl
  · rfl
  · rfl
  · intro j
    by_cases hj : j = i
    · rw [hj,setUse_self]
      exact iff_of_true rfl ⟨k,.inl rfl⟩
    · rw [setUse_of_ne _ hj,← h.locks b j,hfree]
      simp [Ne.symm hj]
  · intro j k' hj
    by_cases hji : j = i
    · rw [hji,setUse_self] at hj
      cases hj
    · rw [setUse_of_ne _ hji] at hj
      exact h.filled j b k' hj

theorem fill_inv (h : Inv s) (hi : s.use i = .locked b k) (x : Buf ι δ)
    (hkey : x.key = (s.buf b).key) (hcnt : x.refcnt = (s.buf b).refcnt)
    (hlock : x.lock = (s.buf b).lock) (hvalid : x.valid = true) :
    Inv ((s.setBuf b x).setUse i (.holding b k)) := by
  have htarget : target (s.use i) = some (b,k) := by rw [hi]; rfl
  refine h.touch htarget x _ rfl hkey hcnt ?_ fun j k' _ => hvalid
  intro j
  rw [hlock]
  by_cases hj : j = i
  · rw [hj,setUse_self]
    exact iff_of_true ((h.locks b i).mpr ⟨k,.inl hi⟩) ⟨k,.inr rfl⟩
  · rw [setUse_of_ne _ hj]
    exact h.locks b j

theorem store_inv (h : Inv s) (hi : s.use i = .holding b k) (d : δ) :
    Inv (s.setBuf b { s.buf b with data := d }) := by
  have htarget : target (s.use i) = some (b,k) := by rw [hi]; rfl
  have huse : (s.setUse i (s.use i)).use = s.use := Function.update_eq_self i s.use
  have hself : (s.setBuf b { s.buf b with data := d }).setUse i (s.use i) =
      s.setBuf b { s.buf b with data := d } := by
    show { s.setBuf b _ with use := Function.update s.use i (s.use i) } = _
    rw [Function.update_eq_self]
    rfl
  rw [← hself]
  refine h.touch htarget _ _ htarget ?_ ?_ ?_ ?_
  · rfl
  · rfl
  · intro j
    rw [huse]
    exact h.locks b j
  · intro j k' hj
    rw [huse] at hj
    exact h.filled j b k' hj

theorem release_inv (h : Inv s) (hi : s.use i = .holding b k) (hlock : (s.buf b).lock = some i) :
    Inv ((s.setBuf b { s.buf b with lock := none }).setUse i (.leaving b k)) := by
  have htarget : target (s.use i) = some (b,k) := by rw [hi]; rfl
  refine h.touch htarget _ _ ?_ ?_ ?_ ?_ ?_
  · rfl
  · rfl
  · rfl
  · intro j
    by_cases hj : j = i
    · rw [hj,setUse_self]
      simp
    · rw [setUse_of_ne _ hj,← h.locks b j,hlock]
      simp [Ne.symm hj]
  · intro j k' hj
    by_cases hji : j = i
    · rw [hji,setUse_self] at hj
      cases hj
    · rw [setUse_of_ne _ hji] at hj
      exact h.filled j b k' hj

theorem step_inv (h : Inv s) {l : Label ι δ} {s' : State ι δ} (ho : Paired s l)
    (hs : step s l = .ok s') : Inv s' := by
  cases l with
  | bget i k =>
    simp only [step] at hs
    split at hs
    · next hi => exact bget_inv h hi hs
    · cases hs
  | acquire i =>
    simp only [step] at hs
    split at hs
    · next b k hi =>
      split at hs
      · cases hs
      · next hfree =>
        cases hs
        exact acquire_inv h hi (by simpa using hfree)
    · cases hs
  | fill i =>
    simp only [step] at hs
    split at hs
    · next b k hi =>
      split at hs
      · next hvalid =>
        cases hs
        have hself : s.setBuf b (s.buf b) = s := by
          rw [State.setBuf,Function.update_eq_self]
        have := fill_inv h hi (s.buf b) rfl rfl rfl hvalid
        rwa [hself] at this
      · cases hs
        exact fill_inv h hi _ rfl rfl rfl rfl
    · cases hs
  | store i k d =>
    simp only [step] at hs
    split at hs
    · next b k' hi =>
      split at hs
      · cases hs
        exact store_inv h hi d
      · cases hs
    · cases hs
  | bwrite i =>
    simp only [step] at hs
    split at hs
    · split at hs
      · cases hs
        obtain ⟨⟨xs,hxs⟩,h2,h3,h4,h5⟩ := h
        exact ⟨⟨xs,hxs.keep rfl rfl (fun _ => rfl) (fun _ hc => hc)⟩,h2,h3,h4,h5⟩
      · cases hs
    · cases hs
  | bpin i =>
    simp only [step] at hs
    split at hs
    · next b k hi =>
      cases hs
      have htarget : target (s.use i) = some (b,k) := by rw [hi]; rfl
      have hold := h.refs b (h.targets i b k htarget).1
      exact h.repin htarget _ _ (by omega)
    · cases hs
  | bunpin i =>
    simp only [step] at hs
    split at hs
    · next b k hi =>
      cases hs
      have htarget : target (s.use i) = some (b,k) := by rw [hi]; rfl
      have hold := h.refs b (h.targets i b k htarget).1
      have hpin := ho b (by rw [hi]; rfl)
      exact h.repin htarget _ _ (by omega)
    · cases hs
  | release i =>
    simp only [step] at hs
    split at hs
    · next b k hi =>
      split at hs
      · next hlock =>
        cases hs
        exact release_inv h hi hlock
      · cases hs
    · cases hs
  | unref i =>
    simp only [step] at hs
    split at hs
    · next b k hi =>
      cases hs
      exact unref_inv h hi
    · cases hs

omit [Fintype ι] [DecidableEq ι] in
theorem linkAll_ring (h : Ring s.next s.prev head []) (n : ℕ) (hn : n ≤ NBUF) :
    Ring (linkAll s n).next (linkAll s n).prev head (List.range n).reverse ∧
      (linkAll s n).buf = s.buf ∧ (linkAll s n).use = s.use ∧ (linkAll s n).pins = s.pins ∧
      (linkAll s n).disk = s.disk := by
  induction n with
  | zero => exact ⟨h,rfl,rfl,rfl,rfl⟩
  | succ n ih =>
    obtain ⟨hring,hrest⟩ := ih (by omega)
    refine ⟨?_,hrest⟩
    rw [List.range_succ,List.reverse_append]
    refine hring.push ?_ (by simp)
    rintro rfl
    exact Nat.not_succ_le_self _ hn

omit [Fintype ι] [DecidableEq ι] in
theorem binit_spec (zero : δ) (disk : ℕ → δ) :
    Ring (binit zero disk : State ι δ).next (binit zero disk : State ι δ).prev head
      (List.range NBUF).reverse ∧
    (binit zero disk : State ι δ).buf = (fun _ => ⟨false,⟨0,0⟩,none,0,zero⟩) ∧
    (binit zero disk : State ι δ).use = (fun _ => .idle) ∧
    (binit zero disk : State ι δ).pins = (fun _ => 0) ∧
    (binit zero disk : State ι δ).disk = disk := by
  have hempty : Ring (fun _ => head) (fun _ => head) head [] := ⟨rfl,trivial,List.nodup_nil,rfl⟩
  exact linkAll_ring hempty NBUF (Nat.le_refl _)

omit [DecidableEq ι] in
theorem binit_inv (zero : δ) (disk : ℕ → δ) : Inv (binit zero disk : State ι δ) := by
  obtain ⟨hring,hbuf,huse,hpins,-⟩ := binit_spec (ι := ι) zero disk
  constructor
  · refine ⟨_,hring,?_,?_⟩
    · intro b
      rw [List.mem_reverse,List.mem_range]
    · apply List.pairwise_of_forall
      intro x y _
      rw [hbuf]
      exact ⟨rfl,rfl⟩
  · intro b _
    rw [refsTo,huse,hpins,hbuf]
    exact (tally_none b).symm
  · intro i b k hi
    rw [huse] at hi
    cases hi
  · intro b i
    rw [hbuf,huse]
    simp
  · intro i b k hi
    rw [huse] at hi
    cases hi

theorem reached_inv {zero : δ} {disk : ℕ → δ} (h : Reached zero disk s) : Inv s :=
  h.invariant (binit_inv zero disk) fun _ _ _ hI ho hr => step_inv hI ho hr

end Steps

end ListlibSyscalls.BufInvariant
