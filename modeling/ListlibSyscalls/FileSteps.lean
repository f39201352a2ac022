import ListlibSyscalls.FileInvariant

/-!
# All steps of the file table keep the books

What is left are the second half of `sys_pipe`, which makes two files and a pipe at
once, and `kfork`, which changes the child as well. Together with the others they
are all steps, so the reference counts are right in every state of every run.
-/

set_option autoImplicit false

namespace ListlibSyscalls.FileSteps
open StepRuns CountedRefs FileMachine FileInvariant
open DescriptorTable (NOFILE)

variable {π : Type} [Fintype π] [DecidableEq π] {s : State π} {p : π} {f rf wf : FileId}

def piped (s : State π) (rf wf : FileId) (pi : ℕ) : State π :=
  { (s.setFile rf { s.file rf with obj := some (.pipe pi false) }).setFile wf
      ⟨1,some (.pipe pi true)⟩ with pipe := Function.update s.pipe pi (some ⟨true,true⟩) }

omit [Fintype π] [DecidableEq π] in
theorem piped_openOn {pi : ℕ} (hpi : s.pipe pi = none) (o : Obj) :
    openOn (piped s rf wf pi) o = openOn s o+(if o = .pipe pi false then 1 else 0)+
      (if o = .pipe pi true then 1 else 0) := by
  cases o with
  | inode ip => simp [openOn,piped,State.setFile]
  | pipe pi' w =>
    by_cases h : pi' = pi
    · subst h
      cases w <;> simp [openOn,piped,hpi]
    · simp [openOn,piped,h]

theorem piped_inv (h : Inv s) {pi : ℕ} (P : Proc π) (hp : (s.proc p).point = .second rf)
    (hwf : filealloc s = some wf) (hpi : s.pipe pi = none)
    (hheld : ∀ g, held P g = held (s.proc p) g+(if g = wf then 1 else 0))
    (hpt : P.point = .user ∨ P.point = .closing [rf,wf] none) (hlife : P.life = .alive) :
    Inv ((piped s rf wf pi).setProc p P) := by
  have halive := h.acting p (by rw [hp]; simp)
  obtain ⟨href,hobj⟩ := h.solo p rf hp
  have hw0 := filealloc_ref hwf
  have hne : wf ≠ rf := by
    rintro rfl
    omega
  have howed : ∀ g, owed P.point g = 0 ∧ owed (s.proc p).point g = 0 := by
    intro g
    rw [hp]
    rcases hpt with hpt|hpt
    · rw [hpt]
      exact ⟨rfl,rfl⟩
    · rw [hpt]
      exact ⟨rfl,rfl⟩
  have hpend : pending P.point = none ∧ pending (s.proc p).point = none := by
    rw [hp]
    rcases hpt with hpt|hpt
    · rw [hpt]
      exact ⟨rfl,rfl⟩
    · rw [hpt]
      exact ⟨rfl,rfl⟩
  have hfile : ((piped s rf wf pi).setProc p P).file = Function.update (Function.update s.file rf
      { s.file rf with obj := some (.pipe pi false) }) wf ⟨1,some (.pipe pi true)⟩ := rfl
  have hchange : Change s p P ((piped s rf wf pi).setProc p P) := by
    refine ⟨rfl,?_,?_,?_,?_,?_,?_,?_,?_,?_,?_,?_⟩
    · intro g
      obtain ⟨h1,h2⟩ := howed g
      have hg := hheld g
      rw [hfile,h1,h2]
      by_cases hgw : g = wf
      · subst hgw
        rw [if_pos rfl] at hg
        rw [Function.update_self,hw0]
        dsimp only
        omega
      · rw [if_neg hgw] at hg
        rw [Function.update_of_ne hgw]
        by_cases hgr : g = rf
        · subst hgr
          rw [Function.update_self]
          dsimp only
          omega
        · rw [Function.update_of_ne hgr]
          omega
    · intro g hg
      rcases hpt with hpt|hpt
      · rw [hpt] at hg
        cases hg
      · rw [hpt] at hg
        cases hg
    · intro g hg
      rw [hfile] at hg
      by_cases hgw : g = wf
      · rw [hgw]
        exact .inl hw0
      · rw [Function.update_of_ne hgw] at hg
        by_cases hgr : g = rf
        · right
          simp [hgr,held,inHand,hp]
        · rw [Function.update_of_ne hgr] at hg
          exact absurd rfl hg
    · intro g h0
      rw [hfile] at h0 ⊢
      by_cases hgw : g = wf
      · rw [hgw,Function.update_self] at h0
        cases h0
      · rw [Function.update_of_ne hgw] at h0 ⊢
        by_cases hgr : g = rf
        · rw [hgr,Function.update_self] at h0
          dsimp only at h0
          omega
        · rw [Function.update_of_ne hgr] at h0 ⊢
          exact h.free g h0
    · intro o
      set F₁ := Function.update s.file rf { s.file rf with obj := some (.pipe pi false) } with hF₁
      have h1 : tally (fun g => (F₁ g).obj) o+0 = tally (fun g => (s.file g).obj) o+
          (if o = .pipe pi false then 1 else 0) := by
        have htally := tally_obj s rf { s.file rf with obj := some (.pipe pi false) } o
        rw [hobj] at htally
        simp only [reduceCtorEq,if_false,Option.some_inj,eq_comm (b := o)] at htally
        exact htally
      have h2 : tally (fun g => (Function.update F₁ wf ⟨1,some (.pipe pi true)⟩ g).obj) o+0 =
          tally (fun g => (F₁ g).obj) o+(if o = .pipe pi true then 1 else 0) := by
        have htally := tally_obj (s.setFile rf { s.file rf with obj := some (.pipe pi false) }) wf
          ⟨1,some (.pipe pi true)⟩ o
        have hwobj : (F₁ wf).obj = none := by
          rw [hF₁,Function.update_of_ne hne]
          exact h.free wf hw0
        rw [show ((s.setFile rf { s.file rf with obj := some (.pipe pi false) }).file wf).obj =
          none from hwobj] at htally
        simp only [reduceCtorEq,if_false,Option.some_inj,eq_comm (b := o)] at htally
        exact htally
      have hopen : openOn ((piped s rf wf pi).setProc p P) o = openOn s o+
          (if o = .pipe pi false then 1 else 0)+(if o = .pipe pi true then 1 else 0) :=
        (openOn_eq rfl rfl o).trans (@piped_openOn π s rf wf pi hpi o)
      rw [hfile,hopen,hpend.1,hpend.2]
      simp only [reduceCtorEq,if_false]
      omega
    · intro pi' e he
      have he : Function.update s.pipe pi (some ⟨true,true⟩) pi' = some e := he
      by_cases hpi' : pi' = pi
      · subst hpi'
        rw [Function.update_self] at he
        cases he
        exact .inl rfl
      · rw [Function.update_of_ne hpi'] at he
        exact h.pipes pi' e he
    · intro g hg
      rcases hpt with hpt|hpt
      · rw [hpt] at hg
        cases hg
      · rw [hpt] at hg
        cases hg
    · exact fun _ => hlife
    · intro c i hg
      rcases hpt with hpt|hpt
      · rw [hpt] at hg
        cases hg
      · rw [hpt] at hg
        cases hg
    · intro hu
      rw [hlife] at hu
      cases hu
    · intro i ff hg
      rcases hpt with hpt|hpt
      · rw [hpt] at hg
        cases hg
      · rw [hpt] at hg
        cases hg
  exact hchange.inv h halive

omit [Fintype π] [DecidableEq π] in
theorem count_pair (f g h : FileId) :
    [f,g].count h = (if f = h then 1 else 0)+(if h = g then 1 else 0) := by
  rw [List.count_cons,count_one,Nat.add_comm]
  by_cases hf : f = h
  · simp [hf]
  · simp [hf]

omit [Fintype π] [DecidableEq π] in
theorem held_pair (hp : (s.proc p).point = .second rf) (g : FileId) :
    held { s.proc p with point := .closing [rf,wf] none } g =
      held (s.proc p) g+(if g = wf then 1 else 0) := by
  simp only [held,hp,inHand,count_pair]
  omega

theorem pipeRest_inv (h : Inv s) (hp : (s.proc p).point = .second rf) {kalloc : Option ℕ}
    (hk : ∀ pi ∈ kalloc, s.pipe pi = none) (copyout : Bool) :
    Inv (pipeRest s p rf kalloc copyout) := by
  have hlife := h.acting p (by rw [hp]; simp)
  rw [pipeRest]
  cases hwf : filealloc s with
  | none =>
    dsimp only
    refine (change_proc h _ ?_ ?_ ?_ ?_ ?_ ?_ ?_ ?_).inv h hlife
    · intro g
      simp only [held,hp,owed,inHand,count_one,eq_comm (a := g)]
    · intro g hg
      cases hg
    · rw [hp]
      rfl
    · intro g
      simp
    · exact fun _ => hlife
    · intro c i hg
      cases hg
    · intro hu
      exact absurd (hlife.symm.trans hu) (by simp)
    · intro i ff hg
      cases hg
  | some wf =>
    dsimp only
    cases kalloc with
    | none =>
      dsimp only
      have hchange : Change s p { s.proc p with point := .closing [rf,wf] none }
          ((s.setFile wf ⟨1,none⟩).goto p (.closing [rf,wf] none)) := by
        refine change_alloc (x := none) h _ hwf rfl rfl ?_ ?_ ?_ h.pipes ?_ ?_ ?_ hlife ?_
        · exact fun g => ⟨by rw [hp]; rfl,held_pair hp g⟩
        · rw [hp]
          rfl
        · intro o
          have hsame : openOn ((s.setFile wf ⟨1,none⟩).goto p (.closing [rf,wf] none)) o =
            openOn s o := openOn_eq rfl rfl o
          rw [hsame]
          simp
        · intro g hg
          cases hg
        · intro g hg
          cases hg
        · intro c i hg
          cases hg
        · intro i ff hg
          cases hg
      exact hchange.inv h hlife
    | some pi =>
      have hpi := hk pi rfl
      have hclosing : Inv ((piped s rf wf pi).goto p (.closing [rf,wf] none)) :=
        piped_inv h { s.proc p with point := .closing [rf,wf] none } hp hwf hpi (held_pair hp)
          (.inr rfl) hlife
      dsimp only
      split
      · exact hclosing
      · next fd0 hfd0 =>
        split
        · exact hclosing
        · next fd1 hfd1 =>
          split
          · refine piped_inv h _ hp hwf hpi ?_ ?_ ?_
            · intro g
              have h0 := tally_install (fdalloc_free hfd0) rf g
              have h1 := tally_install (fdalloc_free hfd1) wf g
              simp only [held,hp,inHand,eq_comm (a := g)]
              dsimp only [State.setFile] at h0 h1 ⊢
              omega
            · exact .inl rfl
            · exact hlife
          · exact hclosing

section Fork

variable {np : π} {i : ℕ}

/-- The child of a fork is another process, and nobody else forks it. -/
theorem forking_child (h : Inv s) (hp : (s.proc p).point = .forking np i) :
    np ≠ p ∧ (s.proc np).life = .embryo p ∧ (s.proc np).point = .user := by
  have hlife := h.acting p (by rw [hp]; simp)
  obtain ⟨hembryo,-⟩ := h.embryos p np i hp
  refine ⟨?_,hembryo,?_⟩
  · rintro rfl
    rw [hlife] at hembryo
    cases hembryo
  · by_contra hne
    have := h.acting np hne
    rw [hembryo] at this
    cases this

/-- A process in user code, not alive, changes its descriptors and its life, while
the count of one file goes up by what it gets. -/
theorem child_inv (h : Inv s) {C : Proc π} {n : ℕ} {s' : State π} (hne : np ≠ p)
    (hC : C.point = .user) (huser : (s.proc np).point = .user)
    (hproc : s'.proc = Function.update s.proc np C)
    (hfile : ∀ g, s'.file g = if g = f then { s.file f with ref := (s.file f).ref+n } else s.file g)
    (hheld : ∀ g, held C g = held (s.proc np) g+(if g = f then n else 0))
    (hpipe : s'.pipe = s.pipe) (hiref : s'.iref = s.iref)
    (hf : n ≠ 0 → held (s.proc p) f ≠ 0 ∧ ∀ rf, (s.proc p).point ≠ .second rf)
    (hembryo : (s.proc np).life = C.life ∨ ∀ q c j, (s.proc q).point = .forking c j → c ≠ np)
    (hkeep : ∀ q j, (s.proc q).point = .forking np j → ∀ fd : Fd, j ≤ fd.val → C.ofile fd = none)
    (hvacant : C.life = .unused → ∀ fd, C.ofile fd = none) : Inv s' := by
  have hself : s'.proc np = C := by rw [hproc,Function.update_self]
  have hother : ∀ q, q ≠ np → s'.proc q = s.proc q := fun q hq => by
    rw [hproc,Function.update_of_ne hq]
  have hobj : (fun g => (s'.file g).obj) = fun g => (s.file g).obj := by
    funext g
    rw [hfile g]
    split
    · next hg => rw [hg]
    · rfl
  constructor
  · intro g
    apply refs_setProc h hproc
    have := hheld g
    rw [hfile g,hC,huser]
    by_cases hg : g = f
    · subst hg
      rw [if_pos rfl] at this ⊢
      simp only [owed]
      omega
    · rw [if_neg hg] at this ⊢
      simp only [owed]
      omega
  · intro q g hq
    by_cases hqn : q = np
    · rw [hqn,hself,hC] at hq
      cases hq
    · rw [hother q hqn] at hq ⊢
      exact h.debts q g hq
  · intro g h0
    rw [congrFun hobj g]
    rw [hfile g] at h0
    by_cases hg : g = f
    · rw [if_pos hg] at h0
      dsimp only at h0
      rw [hg]
      exact h.free f (by omega)
    · rw [if_neg hg] at h0
      exact h.free g h0
  · intro o
    have hpend := tally_pending s np C o
    rw [hC,huser] at hpend
    rw [hobj,hproc,openOn_eq hpipe hiref]
    have := h.objs o
    omega
  · rw [hpipe]
    exact h.pipes
  · intro q rf hq
    have hqn : q ≠ np := by
      rintro rfl
      rw [hself,hC] at hq
      cases hq
    rw [hother q hqn] at hq
    obtain ⟨href,hnone⟩ := h.solo q rf hq
    have hsame : s'.file rf = s.file rf := by
      rw [hfile rf]
      split
      · next hrf =>
        by_cases hn : n = 0
        · rw [hn,hrf]
          rfl
        · obtain ⟨hheldp,hnot⟩ := hf hn
          have hqp : q ≠ p := by
            rintro rfl
            exact hnot rf hq
          have hheldq : held (s.proc q) rf ≠ 0 := by simp [held,inHand,hq]
          have := h.two_refs hqp hheldq (hrf ▸ hheldp)
          omega
      · rfl
    rw [hsame]
    exact ⟨href,hnone⟩
  · intro q hq
    by_cases hqn : q = np
    · rw [hqn,hself,hC] at hq
      exact absurd rfl hq
    · rw [hother q hqn] at hq ⊢
      exact h.acting q hq
  · intro q c j hq
    have hqn : q ≠ np := by
      rintro rfl
      rw [hself,hC] at hq
      cases hq
    rw [hother q hqn] at hq
    obtain ⟨hemb,hnone⟩ := h.embryos q c j hq
    by_cases hcn : c = np
    · subst hcn
      rw [hself]
      refine ⟨?_,hkeep q j hq⟩
      rcases hembryo with hlife|hno
      · rw [← hlife]
        exact hemb
      · exact absurd rfl (hno q c j hq)
    · rw [hother c hcn]
      exact ⟨hemb,hnone⟩
  · intro q hq
    by_cases hqn : q = np
    · rw [hqn,hself] at hq ⊢
      exact hvacant hq
    · rw [hother q hqn] at hq ⊢
      exact h.vacant q hq
  · intro q j ff hq
    have hqn : q ≠ np := by
      rintro rfl
      rw [hself,hC] at hq
      cases hq
    rw [hother q hqn] at hq ⊢
    exact h.exits q j ff hq

omit [DecidableEq π] in
theorem forking_unique (h : Inv s) {q q' : π} (hlife : (s.proc np).life = .embryo q) {j : ℕ}
    (hq : (s.proc q').point = .forking np j) : q' = q := by
  have := (h.embryos q' np j hq).1
  rw [hlife] at this
  cases this
  rfl

theorem kfork_inv (h : Inv s) (hcall : Calling s p) (hnp : (s.proc np).life = .unused) :
    Inv ((s.setProc np { s.proc np with life := .embryo p }).goto p (.forking np 0)) := by
  obtain ⟨hlife,huser⟩ := hcall
  have hne : np ≠ p := by
    rintro rfl
    rw [hlife] at hnp
    cases hnp
  have hnuser : (s.proc np).point = .user := by
    by_contra hu
    have := h.acting np hu
    rw [hnp] at this
    cases this
  have hnobody : ∀ q c j, (s.proc q).point = .forking c j → c ≠ np := by
    rintro q c j hq rfl
    have := (h.embryos q c j hq).1
    rw [hnp] at this
    cases this
  set s₁ := s.setProc np { s.proc np with life := .embryo p } with hs₁
  have h₁ : Inv s₁ := by
    refine child_inv (n := 0) (f := ⟨0,by decide⟩) (C := { s.proc np with life := .embryo p }) h hne
      hnuser hnuser rfl ?_ ?_ rfl rfl ?_ ?_ ?_ ?_
    · intro g
      split
      · next hg => rw [hg]; rfl
      · rfl
    · intro g
      split
      · rfl
      · rfl
    · exact fun hn => absurd rfl hn
    · exact .inr hnobody
    · exact fun q j hq => absurd rfl (hnobody q np j hq)
    · intro hu
      cases hu
  have hp₁ : s₁.proc p = s.proc p := Function.update_of_ne hne.symm _ _
  have hnp₁ : s₁.proc np = { s.proc np with life := .embryo p } := Function.update_self _ _ _
  refine (change_proc h₁ _ ?_ ?_ ?_ ?_ ?_ ?_ ?_ ?_).inv h₁ (by rw [hp₁]; exact hlife)
  · intro g
    simp only [held,hp₁,huser,owed,inHand]
  · intro g hg
    cases hg
  · rw [hp₁,huser]
    rfl
  · intro rf
    simp
  · rw [hp₁]
    exact fun _ => hlife
  · intro c j hj
    cases hj
    rw [hnp₁]
    exact ⟨hne,rfl,fun fd _ => h.vacant np hnp fd⟩
  · rw [hp₁]
    intro hu
    exact absurd (hlife.symm.trans hu) (by simp)
  · intro j ff hj
    cases hj

theorem forking_dup (h : Inv s) (hi : i < NOFILE) (hp : (s.proc p).point = .forking np i)
    (hfd : (s.proc p).ofile ⟨i,hi⟩ = some f) :
    Inv (((s.setFile f { s.file f with ref := (s.file f).ref+1 }).setProc np { s.proc np with
      ofile := Function.update (s.proc np).ofile ⟨i,hi⟩ (some f) }).goto p (.forking np (i+1))) := by
  obtain ⟨hne,hembryo,huser⟩ := forking_child h hp
  have hnone := (h.embryos p np i hp).2
  -- the parent first, so that the new descriptor is below the index of the loop
  have h₁ := forking_skip h hp
  set s₁ := s.goto p (.forking np (i+1)) with hs₁
  have hp₁ : s₁.proc p = { s.proc p with point := .forking np (i+1) } := Function.update_self _ _ _
  have hnp₁ : s₁.proc np = s.proc np := Function.update_of_ne hne _ _
  have hheld : held (s₁.proc p) f ≠ 0 := by
    have := tally_pos hfd
    rw [hp₁]
    simp only [held]
    omega
  refine child_inv (n := 1) (f := f) (C := { s.proc np with
    ofile := Function.update (s.proc np).ofile ⟨i,hi⟩ (some f) }) h₁ hne ?_ ?_ ?_ ?_ ?_ rfl rfl
    ?_ ?_ ?_ ?_
  · exact huser
  · rw [hnp₁]
    exact huser
  · have hp' : Function.update s.proc np { s.proc np with
        ofile := Function.update (s.proc np).ofile ⟨i,hi⟩ (some f) } p = s.proc p :=
      Function.update_of_ne hne.symm _ _
    show Function.update (Function.update s.proc np _) p { Function.update s.proc np _ p with
      point := .forking np (i+1) } = Function.update (Function.update s.proc p _) np _
    rw [hp']
    exact Function.update_comm hne _ _ _
  · intro g
    show Function.update s.file f _ g = if g = f then _ else s.file g
    by_cases hg : g = f
    · rw [hg,Function.update_self,if_pos rfl]
      rfl
    · rw [Function.update_of_ne hg,if_neg hg]
  · intro g
    rw [hnp₁]
    simp only [held,tally_install (hnone ⟨i,hi⟩ (Nat.le_refl i)) f g,eq_comm (a := g)]
    omega
  · intro _
    refine ⟨hheld,fun rf => ?_⟩
    rw [hp₁]
    simp
  · rw [hnp₁]
    exact .inl rfl
  · intro q j hq fd hfdj
    have hqp : q = p := forking_unique h₁ (by rw [hnp₁]; exact hembryo) hq
    rw [hqp,hp₁] at hq
    cases hq
    have hfdi : fd ≠ ⟨i,hi⟩ := by
      rintro rfl
      exact absurd hfdj (Nat.not_succ_le_self i)
    show Function.update (s.proc np).ofile ⟨i,hi⟩ (some f) fd = none
    rw [Function.update_of_ne hfdi]
    exact hnone fd (by omega)
  · intro hu
    exact absurd (hembryo.symm.trans hu) (by simp)

theorem forked_inv (h : Inv s) (hp : (s.proc p).point = .forking np i) :
    Inv ((s.setProc np { s.proc np with life := .alive }).goto p .user) := by
  obtain ⟨hne,hembryo,huser⟩ := forking_child h hp
  have hlife := h.acting p (by rw [hp]; simp)
  have h₁ : Inv (s.goto p .user) := by
    refine (change_proc h _ ?_ ?_ ?_ ?_ ?_ ?_ ?_ ?_).inv h hlife
    · intro g
      simp only [held,hp,owed,inHand]
    · intro g hg
      cases hg
    · rw [hp]
      rfl
    · intro rf
      simp
    · exact fun hu => absurd rfl hu
    · intro c j hj
      cases hj
    · intro hu
      exact absurd (hlife.symm.trans hu) (by simp)
    · intro j ff hj
      cases hj
  set s₁ := s.goto p .user with hs₁
  have hp₁ : s₁.proc p = { s.proc p with point := .user } := Function.update_self _ _ _
  have hnp₁ : s₁.proc np = s.proc np := Function.update_of_ne hne _ _
  have hnobody : ∀ q c j, (s₁.proc q).point = .forking c j → c ≠ np := by
    rintro q c j hq rfl
    have hqp : q = p := forking_unique h₁ (by rw [hnp₁]; exact hembryo) hq
    rw [hqp,hp₁] at hq
    cases hq
  refine child_inv (n := 0) (f := ⟨0,by decide⟩) (C := { s.proc np with life := .alive }) h₁ hne
    huser ?_ ?_ ?_ ?_ rfl rfl ?_ ?_ ?_ ?_
  · rw [hnp₁]
    exact huser
  · have hp' : Function.update s.proc np { s.proc np with life := .alive } p = s.proc p :=
      Function.update_of_ne hne.symm _ _
    show Function.update (Function.update s.proc np _) p { Function.update s.proc np _ p with
      point := .user } = Function.update (Function.update s.proc p _) np _
    rw [hp']
    exact Function.update_comm hne _ _ _
  · intro g
    split
    · next hg => rw [hg]; rfl
    · rfl
  · intro g
    rw [hnp₁]
    split
    · rfl
    · rfl
  · exact fun hn => absurd rfl hn
  · exact .inr hnobody
  · exact fun q j hq => absurd rfl (hnobody q np j hq)
  · intro hu
    cases hu

end Fork

section Runs

theorem filedup_ok (h : Inv s) (hheld : held (s.proc p) f ≠ 0) :
    filedup s f = .ok (s.setFile f { s.file f with ref := (s.file f).ref+1 }) := by
  have := h.ref_pos hheld
  rw [filedup,if_neg (by omega)]

theorem fileclose_ok (h : Inv s) (hheld : held (s.proc p) f ≠ 0) :
    ∃ s' ff, fileclose s f = .ok (s',ff) ∧ s'.proc = s.proc := by
  have := h.ref_pos hheld
  rw [fileclose,if_neg (by omega)]
  split
  · exact ⟨_,_,rfl,rfl⟩
  · exact ⟨_,_,rfl,rfl⟩

def Keeps : Except Refused (State π) → Prop
  | .ok s' => Inv s'
  | .error e => e = .nothing

theorem goOn_inv (h : Inv s) {kalloc : Option ℕ} {copyout : Bool}
    (hk : ∀ pi ∈ kalloc, s.pipe pi = none) : Keeps (goOn s p kalloc copyout) := by
  rw [goOn]
  split
  · rfl
  · next f hp =>
    have hheld : held (s.proc p) f ≠ 0 := by
      have := h.debts p f hp
      omega
    rw [filedup_ok h hheld]
    exact duping_inv h hp
  · next fs o hp =>
    have hpend : pending (s.proc p).point = some o := by rw [hp]; rfl
    obtain ⟨s',hs',-⟩ := finish_spec h hpend
    rw [hs']
    refine finish_inv h hpend hs' (h.acting p (by rw [hp]; simp)) rfl ?_ ?_ ?_ ?_ ?_ ?_
    · rw [hp]
      exact fun f => rfl
    · rw [hp]
      exact fun f => rfl
    · intro f hg
      cases hg
    · intro rf hg
      cases hg
    · intro c i hg
      cases hg
    · intro i ff hg
      cases hg
  · next hp => exact closed_inv h hp
  · next f fs hp =>
    have hheld : held (s.proc p) f ≠ 0 := by simp [held,hp,inHand]
    obtain ⟨s',ff,hs',-⟩ := fileclose_ok h hheld
    rw [hs']
    exact closing_inv h hp hs'
  · next rf hp => exact pipeRest_inv h hp hk copyout
  · next np i hp =>
    split
    · next hi =>
      split
      · exact forking_skip h hp
      · next f hfd =>
        have hheld : held (s.proc p) f ≠ 0 := by
          have := tally_pos hfd
          simp only [held]
          omega
        rw [filedup_ok h hheld]
        exact forking_dup h hi hp hfd
    · exact forked_inv h hp
  · next fd o hp =>
    have hpend : pending (s.proc p).point = some o := by rw [hp]; rfl
    obtain ⟨s',hs',-⟩ := finish_spec h hpend
    rw [hs']
    refine finish_inv h hpend hs' (h.acting p (by rw [hp]; simp)) rfl ?_ ?_ ?_ ?_ ?_ ?_
    · rw [hp]
      exact fun f => rfl
    · rw [hp]
      exact fun f => rfl
    · intro f hg
      cases hg
    · intro rf hg
      cases hg
    · intro c i hg
      cases hg
    · intro i ff hg
      cases hg
      exact h.exits p _ _ hp
  · next fd hp =>
    split
    · next hi =>
      split
      · next hnone => exact exiting_skip h hi hp hnone
      · next f hfd =>
        have hheld : held (s.proc p) f ≠ 0 := by
          have := tally_pos hfd
          simp only [held]
          omega
        obtain ⟨s',ff,hs',hproc⟩ := fileclose_ok h hheld
        rw [hs']
        have hinv := exiting_close h hi hp hfd hs'
        rw [← hproc] at hinv
        exact hinv
    · next hi => exact exited_inv h hi hp

theorem step_keeps (h : Inv s) {l : Label π} (ho : Offered s l) : Keeps (step s l) := by
  cases l with
  | sysDup p fd =>
    simp only [step]
    split
    · next hcall =>
      split
      · next f fd' hfd hfree => exact sysDup_inv h hcall hfd hfree
      · exact h
    · rfl
  | sysClose p fd =>
    simp only [step]
    split
    · next hcall =>
      split
      · next f hfd => exact sysClose_inv h hcall hfd
      · exact h
    · rfl
  | sysOpen p ip =>
    simp only [step]
    split
    · next hcall =>
      split
      · exact h
      · next f hf =>
        split
        · exact alloc_inv h hcall hf (.inl rfl)
        · next fd hfd => exact sysOpen_inv h hcall ip hf hfd
    · rfl
  | sysPipe p =>
    simp only [step]
    split
    · next hcall =>
      split
      · exact h
      · next rf hf => exact alloc_inv h hcall hf (.inr rfl)
    · rfl
  | kfork p np =>
    simp only [step]
    split
    · next hcall => exact kfork_inv h hcall.1 hcall.2
    · rfl
  | kexit p =>
    simp only [step]
    split
    · next hcall => exact kexit_inv h hcall
    · rfl
  | goOn p kalloc copyout =>
    simp only [step]
    apply goOn_inv h
    intro pi hpi
    cases Option.mem_def.mp hpi
    exact ho

theorem boot_inv (init : π) : Inv (boot init) := by
  constructor
  · intro f
    simp [boot,owed,held,inHand,tally]
  · intro p f hp
    cases hp
  · exact fun f _ => rfl
  · intro o
    cases o with
    | pipe pi w => simp [boot,openOn,pending,tally]
    | inode ip => simp [boot,openOn,pending,tally]
  · intro pi e he
    cases he
  · intro p rf hp
    cases hp
  · exact fun p hp => absurd rfl hp
  · intro p c i hp
    cases hp
  · exact fun p _ fd => rfl
  · intro p i ff hp
    cases hp

theorem reached_inv {init : π} (h : Reached init s) : Inv s := by
  refine h.invariant (boot_inv init) ?_
  intro s l s' hinv ho hs
  have hkeep := step_keeps hinv ho
  rw [show step s l = .ok s' from hs] at hkeep
  exact hkeep

def descriptors (s : State π) (f : FileId) : ℕ := ∑ p, tally (s.proc p).ofile f

def Quiet (s : State π) : Prop := ∀ p, (s.proc p).point = .user

instance (s : State π) : Decidable (Quiet s) :=
  inferInstanceAs (Decidable (∀ p, (s.proc p).point = .user))

omit [DecidableEq π] in
theorem quiet_refs (h : Inv s) (hq : Quiet s) (f : FileId) : (s.file f).ref = descriptors s f := by
  have hrefs := h.refs f
  have howed : ∑ p, owed (s.proc p).point f = 0 := by
    apply Finset.sum_eq_zero
    intro p _
    rw [hq p]
    rfl
  have hheld : ∑ p, held (s.proc p) f = descriptors s f := by
    apply Finset.sum_congr rfl
    intro p _
    rw [held,hq p]
    rfl
  omega

/-- The reference counts in every state of every run. No step panics in `filedup` or
`fileclose`, or touches a pipe that has been freed. -/
theorem reference_counts {init : π} (h : Reached init s) :
    (∀ f, (s.file f).ref+∑ p, owed (s.proc p).point f =
      descriptors s f+∑ p, inHand (s.proc p).point f) ∧
    (Quiet s → ∀ f, (s.file f).ref = descriptors s f) ∧
    ∀ l e, Offered s l → step s l = .error e → e = .nothing := by
  have hinv := reached_inv h
  refine ⟨fun f => ?_,fun hq f => quiet_refs hinv hq f,fun l e ho he => ?_⟩
  · have hrefs := hinv.refs f
    simp only [held] at hrefs
    rw [Finset.sum_add_distrib] at hrefs
    exact hrefs
  · have hkeep := step_keeps hinv ho
    rw [he] at hkeep
    exact hkeep

def openEnd (s : State π) (pi : ℕ) (writable : Bool) : Prop :=
  ∃ e, s.pipe pi = some e ∧ (if writable then e.writeopen else e.readopen) = true

omit [Fintype π] [DecidableEq π] in
theorem openEnd_iff (s : State π) (pi : ℕ) (w : Bool) :
    openEnd s pi w ↔ openOn s (.pipe pi w) ≠ 0 := by
  rw [openEnd]
  cases he : s.pipe pi with
  | none => simp [openOn,he]
  | some e => simp [openOn,he]

def hasEnd (s : State π) (pi : ℕ) (w : Bool) : Prop :=
  ∃ p fd f, (s.proc p).ofile fd = some f ∧ (s.file f).obj = some (.pipe pi w)

/-- An end of a pipe is open as long as any process has a descriptor for it, and when
all calls have returned it is open only then; so a reader finds the end of its input
as soon as the last descriptor for writing is gone, not before. The page of the pipe
is kept exactly as long as one of its ends is open. -/
theorem pipe_end_open {init : π} (h : Reached init s) (pi : ℕ) :
    (∀ w, hasEnd s pi w → openEnd s pi w) ∧
    (Quiet s → ∀ w, openEnd s pi w → hasEnd s pi w) ∧
    ((s.pipe pi).isSome ↔ openEnd s pi false ∨ openEnd s pi true) := by
  have hinv := reached_inv h
  refine ⟨?_,?_,?_⟩
  · rintro w ⟨p,fd,f,-,hobj⟩
    have hpos : 0 < tally (fun f => (s.file f).obj) (.pipe pi w) := tally_pos (i := f) hobj
    have hobjs := hinv.objs (.pipe pi w)
    rw [openEnd_iff]
    omega
  · intro hq w hopen
    rw [openEnd_iff] at hopen
    have hobjs := hinv.objs (.pipe pi w)
    have hpend : tally (fun p => pending (s.proc p).point) (.pipe pi w) = 0 := by
      have hnone : (fun p => pending (s.proc p).point) = fun _ => none := by
        funext p
        rw [hq p]
        rfl
      rw [hnone]
      exact tally_none _
    have hpos : 0 < tally (fun f => (s.file f).obj) (.pipe pi w) := by omega
    obtain ⟨f,hf⟩ := Finset.card_pos.mp hpos
    have hobj : (s.file f).obj = some (.pipe pi w) := (Finset.mem_filter.mp hf).2
    have href : (s.file f).ref ≠ 0 := by
      intro h0
      rw [hinv.free f h0] at hobj
      cases hobj
    rw [quiet_refs hinv hq f,descriptors] at href
    obtain ⟨p,-,hp⟩ := Finset.exists_ne_zero_of_sum_ne_zero href
    obtain ⟨fd,hfd⟩ := Finset.card_pos.mp (Nat.pos_of_ne_zero hp)
    exact ⟨p,fd,f,(Finset.mem_filter.mp hfd).2,hobj⟩
  · constructor
    · intro hsome
      obtain ⟨e,he⟩ := Option.isSome_iff_exists.mp hsome
      rcases hinv.pipes pi e he with hr|hw
      · exact .inl ⟨e,he,hr⟩
      · exact .inr ⟨e,he,hw⟩
    · rintro (⟨e,he,-⟩|⟨e,he,-⟩)
      · rw [he]
        rfl
      · rw [he]
        rfl

end Runs

/-- The process `false` makes a pipe in page 7 and a child `true`, and exits. -/
def heirloom : List (Label Bool) :=
  [.sysPipe false,.goOn false (some 7) true,.kfork false true]++
    List.replicate 17 (.goOn false none true)++.kexit false::List.replicate 17 (.goOn false none true)

theorem heirloom_reached : Reached false (lastState step (boot false) heirloom) :=
  .lastState heirloom _ .start (by decide +kernel)

theorem reference_counts_heirloom :
    ((lastState step (boot false) heirloom).file 1).ref =
      descriptors (lastState step (boot false) heirloom) 1 :=
  (reference_counts heirloom_reached).2.1 (by decide +kernel) 1

theorem pipe_end_open_heirloom : openEnd (lastState step (boot false) heirloom) 7 true :=
  (pipe_end_open heirloom_reached 7).1 true ⟨true,1,1,by decide +kernel,by decide +kernel⟩

end ListlibSyscalls.FileSteps
