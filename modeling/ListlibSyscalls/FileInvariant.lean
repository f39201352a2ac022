import ListlibSyscalls.FileMachine
import ListlibSyscalls.CountedRefs

/-!
# The reference counts of files

The count of a file and the `filedup`s still to be made are together the
descriptors for it and the references that calls under way have in hand. An object
is referred to by at most one file in use, or by the copy of one that is being
closed, and then it is open. All steps keep this, in any order.
-/

set_option autoImplicit false

namespace ListlibSyscalls.FileInvariant
open StepRuns CountedRefs FileMachine
open DescriptorTable (NOFILE)

variable {π : Type}

/-- References that a call under way will give back or install. -/
def inHand : Point π → FileId → ℕ
  | .closing fs _, f => fs.count f
  | .second rf, f => if rf = f then 1 else 0
  | _, _ => 0

/-- `filedup`s that a call under way still has to make. -/
def owed : Point π → FileId → ℕ
  | .duping g, f => if g = f then 1 else 0
  | _, _ => 0

def held (P : Proc π) (f : FileId) : ℕ := tally P.ofile f+inHand P.point f

def pending : Point π → Option Obj
  | .closing _ ff => ff
  | .exiting _ ff => ff
  | _ => none

def openOn (s : State π) : Obj → ℕ
  | .pipe pi writable =>
    match s.pipe pi with
    | none => 0
    | some e => if (if writable then e.writeopen else e.readopen) then 1 else 0
  | .inode ip => s.iref ip

variable [Fintype π]

structure Inv (s : State π) : Prop where
  refs : ∀ f, (s.file f).ref+∑ p, owed (s.proc p).point f = ∑ p, held (s.proc p) f
  debts : ∀ p f, (s.proc p).point = .duping f → 2 ≤ held (s.proc p) f
  free : ∀ f, (s.file f).ref = 0 → (s.file f).obj = none
  objs : ∀ o, tally (fun f => (s.file f).obj) o+tally (fun p => pending (s.proc p).point) o =
    openOn s o
  pipes : ∀ pi e, s.pipe pi = some e → e.readopen = true ∨ e.writeopen = true
  solo : ∀ p rf, (s.proc p).point = .second rf → (s.file rf).ref = 1 ∧ (s.file rf).obj = none
  acting : ∀ p, (s.proc p).point ≠ .user → (s.proc p).life = .alive
  embryos : ∀ p c i, (s.proc p).point = .forking c i → (s.proc c).life = .embryo p ∧
    ∀ fd : Fd, i ≤ fd.val → (s.proc c).ofile fd = none
  vacant : ∀ p, (s.proc p).life = .unused → ∀ fd, (s.proc p).ofile fd = none
  exits : ∀ p i ff, (s.proc p).point = .exiting i ff →
    ∀ fd : Fd, fd.val < i → (s.proc p).ofile fd = none

variable {s : State π} {p q : π} {f : FileId}

omit [Fintype π] in
theorem owed_cases (pt : Point π) (f : FileId) :
    owed pt f = 0 ∨ (pt = .duping f ∧ owed pt f = 1) := by
  cases pt with
  | duping g =>
    by_cases hg : g = f
    · exact .inr ⟨by rw [hg],if_pos hg⟩
    · exact .inl (if_neg hg)
  | user | closing | second | forking | exiting => exact .inl rfl

/-- Who has references to a file has more of them than owed. -/
theorem Inv.surplus (h : Inv s) (hp : held (s.proc p) f ≠ 0) :
    owed (s.proc p).point f < held (s.proc p) f := by
  rcases owed_cases (s.proc p).point f with h0|⟨hd,h1⟩
  · omega
  · have := h.debts p f hd
    omega

theorem Inv.owed_le (h : Inv s) (p : π) (f : FileId) :
    owed (s.proc p).point f ≤ held (s.proc p) f := by
  rcases owed_cases (s.proc p).point f with h0|⟨hd,h1⟩
  · omega
  · have := h.debts p f hd
    omega

theorem Inv.ref_pos [DecidableEq π] (h : Inv s) (hp : held (s.proc p) f ≠ 0) :
    0 < (s.file f).ref := by
  have hsum := sum_surplus_one (fun p => h.owed_le p f) p
  have hrefs := h.refs f
  have hlt := h.surplus hp
  omega

theorem Inv.two_refs [DecidableEq π] (h : Inv s) (hpq : p ≠ q) (hp : held (s.proc p) f ≠ 0)
    (hq : held (s.proc q) f ≠ 0) : 2 ≤ (s.file f).ref := by
  have hsum := sum_surplus (fun p => h.owed_le p f) p q hpq
  have hrefs := h.refs f
  have h1 := h.surplus hp
  have h2 := h.surplus hq
  omega

section Changes

variable [DecidableEq π]

theorem refs_setProc (h : Inv s) {s' : State π} {P : Proc π}
    (hproc : s'.proc = Function.update s.proc p P)
    (hbal : (s'.file f).ref+owed P.point f+held (s.proc p) f =
      (s.file f).ref+owed (s.proc p).point f+held P f) :
    (s'.file f).ref+∑ q, owed (s'.proc q).point f = ∑ q, held (s'.proc q) f := by
  have hrefs := h.refs f
  have howed := sum_update (fun P : Proc π => owed P.point f) s.proc p P
  have hheld := sum_update (fun P : Proc π => held P f) s.proc p P
  rw [hproc]
  omega

omit [Fintype π] [DecidableEq π] in
theorem tally_obj (s : State π) (f : FileId) (x : File) (o : Obj) :
    tally (fun g => (Function.update s.file f x g).obj) o+(if (s.file f).obj = some o then 1 else 0) =
      tally (fun g => (s.file g).obj) o+(if x.obj = some o then 1 else 0) := by
  have hcomp : (fun g => (Function.update s.file f x g).obj) =
      Function.update (fun g => (s.file g).obj) f x.obj := by
    funext g
    by_cases hg : g = f
    · subst hg
      simp
    · simp [hg]
  rw [hcomp]
  exact tally_update _ f x.obj o

theorem tally_pending (s : State π) (p : π) (P : Proc π) (o : Obj) :
    tally (fun q => pending (Function.update s.proc p P q).point) o+
        (if pending (s.proc p).point = some o then 1 else 0) =
      tally (fun q => pending (s.proc q).point) o+(if pending P.point = some o then 1 else 0) := by
  have hcomp : (fun q => pending (Function.update s.proc p P q).point) =
      Function.update (fun q => pending (s.proc q).point) p (pending P.point) := by
    funext q
    by_cases hq : q = p
    · subst hq
      simp
    · simp [hq]
  rw [hcomp]
  exact tally_update _ p (pending P.point) o

/-- A step of one process that is not being forked. It changes files that nobody
or the process itself refers to, and keeps the books. -/
structure Change (s : State π) (p : π) (P : Proc π) (s' : State π) : Prop where
  proc : s'.proc = Function.update s.proc p P
  refs : ∀ f, (s'.file f).ref+owed P.point f+held (s.proc p) f =
    (s.file f).ref+owed (s.proc p).point f+held P f
  debts : ∀ f, P.point = .duping f → 2 ≤ held P f
  changed : ∀ f, s'.file f ≠ s.file f → (s.file f).ref = 0 ∨ held (s.proc p) f ≠ 0
  free : ∀ f, (s'.file f).ref = 0 → (s'.file f).obj = none
  objs : ∀ o, tally (fun f => (s'.file f).obj) o+(if pending P.point = some o then 1 else 0)+
      openOn s o = tally (fun f => (s.file f).obj) o+
      (if pending (s.proc p).point = some o then 1 else 0)+openOn s' o
  pipes : ∀ pi e, s'.pipe pi = some e → e.readopen = true ∨ e.writeopen = true
  solo : ∀ rf, P.point = .second rf → (s'.file rf).ref = 1 ∧ (s'.file rf).obj = none
  acting : P.point ≠ .user → P.life = .alive
  embryos : ∀ c i, P.point = .forking c i → c ≠ p ∧ (s.proc c).life = .embryo p ∧
    ∀ fd : Fd, i ≤ fd.val → (s.proc c).ofile fd = none
  vacant : P.life = .unused → ∀ fd, P.ofile fd = none
  exits : ∀ i ff, P.point = .exiting i ff → ∀ fd : Fd, fd.val < i → P.ofile fd = none

theorem Change.inv {s' : State π} {P : Proc π} (hc : Change s p P s') (h : Inv s)
    (hlife : (s.proc p).life = .alive) : Inv s' := by
  have hself : s'.proc p = P := by rw [hc.proc,Function.update_self]
  have hother : ∀ q, q ≠ p → s'.proc q = s.proc q := fun q hq => by
    rw [hc.proc,Function.update_of_ne hq]
  constructor
  · exact fun f => refs_setProc h hc.proc (hc.refs f)
  · intro q f hq
    by_cases hqp : q = p
    · rw [hqp,hself] at hq ⊢
      exact hc.debts f hq
    · rw [hother q hqp] at hq ⊢
      exact h.debts q f hq
  · exact hc.free
  · intro o
    have hobjs := h.objs o
    have hbal := hc.objs o
    have hpend := tally_pending s p P o
    rw [hc.proc]
    omega
  · exact hc.pipes
  · intro q rf hq
    by_cases hqp : q = p
    · rw [hqp,hself] at hq
      exact hc.solo rf hq
    · rw [hother q hqp] at hq
      obtain ⟨href,hobj⟩ := h.solo q rf hq
      have hsame : s'.file rf = s.file rf := by
        by_contra hne
        rcases hc.changed rf hne with h0|hp
        · omega
        · have hheld : held (s.proc q) rf ≠ 0 := by simp [held,inHand,hq]
          have := h.two_refs hqp hheld hp
          omega
      rw [hsame]
      exact ⟨href,hobj⟩
  · intro q hq
    by_cases hqp : q = p
    · rw [hqp,hself] at hq ⊢
      exact hc.acting hq
    · rw [hother q hqp] at hq ⊢
      exact h.acting q hq
  · intro q c i hq
    by_cases hqp : q = p
    · rw [hqp,hself] at hq
      obtain ⟨hcp,hrest⟩ := hc.embryos c i hq
      rw [hqp,hother c hcp]
      exact hrest
    · rw [hother q hqp] at hq
      obtain ⟨hembryo,hnone⟩ := h.embryos q c i hq
      have hcp : c ≠ p := by
        rintro rfl
        rw [hlife] at hembryo
        cases hembryo
      rw [hother c hcp]
      exact ⟨hembryo,hnone⟩
  · intro q hq
    by_cases hqp : q = p
    · rw [hqp,hself] at hq ⊢
      exact hc.vacant hq
    · rw [hother q hqp] at hq ⊢
      exact h.vacant q hq
  · intro q i ff hq
    by_cases hqp : q = p
    · rw [hqp,hself] at hq ⊢
      exact hc.exits i ff hq
    · rw [hother q hqp] at hq ⊢
      exact h.exits q i ff hq

end Changes

section Calls

variable [DecidableEq π] {P : Proc π}

theorem change_proc (h : Inv s) (P : Proc π)
    (hrefs : ∀ f, owed P.point f+held (s.proc p) f = owed (s.proc p).point f+held P f)
    (hdebts : ∀ f, P.point = .duping f → 2 ≤ held P f)
    (hpending : pending P.point = pending (s.proc p).point)
    (hsolo : ∀ rf, P.point ≠ .second rf) (hacting : P.point ≠ .user → P.life = .alive)
    (hembryos : ∀ c i, P.point = .forking c i → c ≠ p ∧ (s.proc c).life = .embryo p ∧
      ∀ fd : Fd, i ≤ fd.val → (s.proc c).ofile fd = none)
    (hvacant : P.life = .unused → ∀ fd, P.ofile fd = none)
    (hexits : ∀ i ff, P.point = .exiting i ff → ∀ fd : Fd, fd.val < i → P.ofile fd = none) :
    Change s p P (s.setProc p P) := by
  refine ⟨rfl,?_,hdebts,?_,h.free,?_,h.pipes,?_,hacting,hembryos,hvacant,hexits⟩
  · intro f
    have := hrefs f
    show (s.file f).ref+_+_ = _
    omega
  · exact fun f hne => absurd rfl hne
  · intro o
    rw [hpending]
    rfl
  · exact fun rf hp => absurd hp (hsolo rf)

omit [Fintype π] [DecidableEq π] in
theorem fdalloc_free {ofile : Fd → Option FileId} {fd : Fd} (h : fdalloc ofile = some fd) :
    ofile fd = none := by
  simpa [fdalloc] using List.find?_some h

omit [Fintype π] [DecidableEq π] in
theorem tally_install {ofile : Fd → Option FileId} {fd : Fd} (hfree : ofile fd = none)
    (f g : FileId) : tally (Function.update ofile fd (some f)) g =
      tally ofile g+(if f = g then 1 else 0) := by
  have hcount := tally_update ofile fd (some f) g
  rw [hfree] at hcount
  simpa using hcount

omit [Fintype π] [DecidableEq π] in
theorem tally_uninstall {ofile : Fd → Option FileId} {fd : Fd} {f : FileId}
    (hfd : ofile fd = some f) (g : FileId) :
    tally (Function.update ofile fd none) g+(if f = g then 1 else 0) = tally ofile g := by
  have hcount := tally_update ofile fd none g
  rw [hfd] at hcount
  simpa using hcount

omit [Fintype π] [DecidableEq π] in
theorem count_one (f g : FileId) : [f].count g = if g = f then 1 else 0 := by
  by_cases hg : g = f
  · simp [hg]
  · have hne : f ≠ g := fun e => hg e.symm
    simp [hg,hne]

theorem sysDup_inv (h : Inv s) (hcall : Calling s p) {fd fd' : Fd}
    (hfd : (s.proc p).ofile fd = some f) (hfree : fdalloc (s.proc p).ofile = some fd') :
    Inv (s.setProc p ⟨.alive,Function.update (s.proc p).ofile fd' (some f),.duping f⟩) := by
  obtain ⟨hlife,huser⟩ := hcall
  have htally := tally_install (fdalloc_free hfree) f
  have hpos : 0 < tally (s.proc p).ofile f := tally_pos hfd
  refine (change_proc h _ ?_ ?_ ?_ ?_ ?_ ?_ ?_ ?_).inv h hlife
  · intro g
    have := htally g
    simp only [held,huser,owed,inHand]
    omega
  · intro g hg
    have hg : f = g := by simpa using hg
    have := htally g
    rw [if_pos hg] at this
    rw [hg] at hpos
    simp only [held]
    omega
  · rw [huser]
    rfl
  · intro rf
    simp
  · exact fun _ => rfl
  · intro c i hp
    cases hp
  · intro hp
    cases hp
  · intro i ff hp
    cases hp

theorem sysClose_inv (h : Inv s) (hcall : Calling s p) {fd : Fd}
    (hfd : (s.proc p).ofile fd = some f) :
    Inv (s.setProc p ⟨.alive,Function.update (s.proc p).ofile fd none,.closing [f] none⟩) := by
  obtain ⟨hlife,huser⟩ := hcall
  have htally := tally_uninstall hfd
  refine (change_proc h _ ?_ ?_ ?_ ?_ ?_ ?_ ?_ ?_).inv h hlife
  · intro g
    have := htally g
    simp only [held,huser,owed,inHand,count_one,eq_comm (a := g)]
    omega
  · intro g hg
    cases hg
  · rw [huser]
    rfl
  · intro rf
    simp
  · exact fun _ => rfl
  · intro c i hp
    cases hp
  · intro hp
    cases hp
  · intro i ff hp
    cases hp

theorem kexit_inv (h : Inv s) (hcall : Calling s p) : Inv (s.goto p (.exiting 0 none)) := by
  obtain ⟨hlife,huser⟩ := hcall
  refine (change_proc h _ ?_ ?_ ?_ ?_ ?_ ?_ ?_ ?_).inv h hlife
  · intro g
    simp only [held,huser,owed,inHand]
  · intro g hg
    cases hg
  · rw [huser]
    rfl
  · intro rf
    simp
  · exact fun _ => hlife
  · intro c i hp
    cases hp
  · intro hp
    rw [hlife] at hp
    cases hp
  · intro i ff hp fd hlt
    cases hp
    exact absurd hlt (Nat.not_lt_zero _)

theorem closed_inv (h : Inv s) (hp : (s.proc p).point = .closing [] none) : Inv (s.goto p .user) := by
  have hlife := h.acting p (by rw [hp]; simp)
  refine (change_proc h _ ?_ ?_ ?_ ?_ ?_ ?_ ?_ ?_).inv h hlife
  · intro g
    simp only [held,hp,owed,inHand,List.count_nil]
  · intro g hg
    cases hg
  · rw [hp]
    rfl
  · intro rf
    simp
  · exact fun hne => absurd rfl hne
  · intro c i hp
    cases hp
  · intro hp
    rw [hlife] at hp
    cases hp
  · intro i ff hp
    cases hp

theorem forking_skip (h : Inv s) {np : π} {i : ℕ} (hp : (s.proc p).point = .forking np i) :
    Inv (s.goto p (.forking np (i+1))) := by
  have hlife := h.acting p (by rw [hp]; simp)
  obtain ⟨hembryo,hnone⟩ := h.embryos p np i hp
  have hne : np ≠ p := by
    rintro rfl
    rw [hlife] at hembryo
    cases hembryo
  refine (change_proc h _ ?_ ?_ ?_ ?_ ?_ ?_ ?_ ?_).inv h hlife
  · intro g
    simp only [held,hp,owed,inHand]
  · intro g hg
    cases hg
  · rw [hp]
    rfl
  · intro rf
    simp
  · exact fun _ => hlife
  · intro c j hj
    cases hj
    exact ⟨hne,hembryo,fun fd hfd => hnone fd (by omega)⟩
  · intro hp
    rw [hlife] at hp
    cases hp
  · intro i ff hp
    cases hp

theorem exiting_skip (h : Inv s) {i : ℕ} (hi : i < NOFILE)
    (hp : (s.proc p).point = .exiting i none) (hnone : (s.proc p).ofile ⟨i,hi⟩ = none) :
    Inv (s.goto p (.exiting (i+1) none)) := by
  have hlife := h.acting p (by rw [hp]; simp)
  refine (change_proc h _ ?_ ?_ ?_ ?_ ?_ ?_ ?_ ?_).inv h hlife
  · intro g
    simp only [held,hp,owed,inHand]
  · intro g hg
    cases hg
  · rw [hp]
    rfl
  · intro rf
    simp
  · exact fun _ => hlife
  · intro c j hj
    cases hj
  · intro hp
    rw [hlife] at hp
    cases hp
  · intro j ff hj fd hfd
    cases hj
    by_cases hlt : fd.val < i
    · exact h.exits p i none hp fd hlt
    · have heq : fd = ⟨i,hi⟩ := Fin.ext (show fd.val = i by omega)
      rw [heq]
      exact hnone

theorem exited_inv (h : Inv s) {i : ℕ} (hi : ¬ i < NOFILE)
    (hp : (s.proc p).point = .exiting i none) :
    Inv (s.setProc p { s.proc p with life := .unused,point := .user }) := by
  have hlife := h.acting p (by rw [hp]; simp)
  refine (change_proc h _ ?_ ?_ ?_ ?_ ?_ ?_ ?_ ?_).inv h hlife
  · intro g
    simp only [held,hp,owed,inHand]
  · intro g hg
    cases hg
  · rw [hp]
    rfl
  · intro rf
    simp
  · exact fun hne => absurd rfl hne
  · intro c j hj
    cases hj
  · exact fun _ fd => h.exits p i none hp fd (by omega)
  · intro j ff hj
    cases hj

end Calls

section Counts

variable [DecidableEq π] {x : File}

omit [Fintype π] [DecidableEq π] in
theorem openOn_eq {s' : State π} (hpipe : s'.pipe = s.pipe) (hiref : s'.iref = s.iref) (o : Obj) :
    openOn s' o = openOn s o := by
  cases o with
  | pipe pi w => simp only [openOn,hpipe]
  | inode ip => simp only [openOn,hiref]

/-- The count of a file that the process refers to goes up or down, and its object
may go over to the process. -/
theorem change_count (h : Inv s) (P : Proc π) (hx : held (s.proc p) f ≠ 0)
    (hfree : x.ref = 0 → x.obj = none)
    (hrefs : ∀ g, (if g = f then x.ref else (s.file g).ref)+owed P.point g+held (s.proc p) g =
      (s.file g).ref+owed (s.proc p).point g+held P g)
    (hobj : ∀ o, (if x.obj = some o then 1 else 0)+(if pending P.point = some o then 1 else 0) =
      (if (s.file f).obj = some o then 1 else 0)+
        (if pending (s.proc p).point = some o then 1 else 0))
    (hdebts : ∀ f, P.point ≠ .duping f) (hsolo : ∀ rf, P.point ≠ .second rf)
    (hforking : ∀ c i, P.point ≠ .forking c i) (hlife : P.life = .alive)
    (hexits : ∀ i ff, P.point = .exiting i ff → ∀ fd : Fd, fd.val < i → P.ofile fd = none) :
    Change s p P ((s.setFile f x).setProc p P) := by
  have hfile : ∀ g, ((s.setFile f x).setProc p P).file g = if g = f then x else s.file g := by
    intro g
    show Function.update s.file f x g = _
    by_cases hg : g = f
    · rw [hg,Function.update_self,if_pos rfl]
    · rw [Function.update_of_ne hg,if_neg hg]
  refine ⟨rfl,?_,?_,?_,?_,?_,h.pipes,?_,?_,?_,?_,hexits⟩
  · intro g
    have := hrefs g
    rw [hfile g]
    split at this
    · next hg =>
      rw [if_pos hg]
      exact this
    · next hg =>
      rw [if_neg hg]
      exact this
  · exact fun g hg => absurd hg (hdebts g)
  · intro g hne
    rw [hfile g] at hne
    by_cases hg : g = f
    · rw [hg]
      exact .inr hx
    · rw [if_neg hg] at hne
      exact absurd rfl hne
  · intro g h0
    rw [hfile g] at h0 ⊢
    by_cases hg : g = f
    · rw [if_pos hg] at h0 ⊢
      exact hfree h0
    · rw [if_neg hg] at h0 ⊢
      exact h.free g h0
  · intro o
    have htally := tally_obj s f x o
    have hbal := hobj o
    have hopen : openOn ((s.setFile f x).setProc p P) o = openOn s o := openOn_eq rfl rfl o
    rw [hopen]
    show tally (fun g => (Function.update s.file f x g).obj) o+_+_ = _
    omega
  · exact fun rf hp => absurd hp (hsolo rf)
  · exact fun _ => hlife
  · exact fun c i hp => absurd hp (hforking c i)
  · intro hu
    rw [hlife] at hu
    cases hu

theorem duping_inv (h : Inv s) (hp : (s.proc p).point = .duping f) :
    Inv ((s.setFile f { s.file f with ref := (s.file f).ref+1 }).goto p .user) := by
  have hlife := h.acting p (by rw [hp]; simp)
  have hheld : held (s.proc p) f ≠ 0 := by
    have := h.debts p f hp
    omega
  refine (change_count h { s.proc p with point := .user } hheld ?_ ?_ ?_ ?_ ?_ ?_ hlife ?_).inv h
    hlife
  · intro h0
    exact absurd h0 (Nat.succ_ne_zero _)
  · intro g
    simp only [held,hp,owed,inHand]
    by_cases hg : g = f
    · subst hg
      simp only [if_true]
    · have hne : f ≠ g := fun e => hg e.symm
      simp only [if_neg hg,if_neg hne]
  · intro o
    rw [hp]
    rfl
  · intro g hg
    cases hg
  · intro rf hp
    cases hp
  · intro c i hp
    cases hp
  · intro i ff hp
    cases hp

/-- The section of `fileclose`, at one of the two places where a process gives up a
reference to the file. -/
theorem fileclose_inv (h : Inv s) {s' : State π} {ff : Option Obj} (P : Option Obj → Proc π)
    (hs : fileclose s f = .ok (s',ff)) (hx : held (s.proc p) f ≠ 0)
    (howed : ∀ o g, owed (P o).point g = owed (s.proc p).point g)
    (hheld : ∀ o g, held (P o) g+(if g = f then 1 else 0) = held (s.proc p) g)
    (hpending : ∀ o, pending (P o).point = o) (hnone : pending (s.proc p).point = none)
    (hdebts : ∀ o f, (P o).point ≠ .duping f) (hsolo : ∀ o rf, (P o).point ≠ .second rf)
    (hforking : ∀ o c i, (P o).point ≠ .forking c i) (hlife : ∀ o, (P o).life = .alive)
    (hexits : ∀ o i ff, (P o).point = .exiting i ff → ∀ fd : Fd, fd.val < i → (P o).ofile fd = none)
    (halive : (s.proc p).life = .alive) : Inv (s'.setProc p (P ff)) := by
  rw [fileclose] at hs
  split at hs
  · cases hs
  · next h1 =>
    split at hs
    · next hmore =>
      cases hs
      refine (change_count h (P none) hx ?_ ?_ ?_ (hdebts none) (hsolo none) (hforking none)
        (hlife none) (hexits none)).inv h halive
      · intro h0
        dsimp only at h0
        omega
      · intro g
        have hg := hheld none g
        rw [howed none g]
        split
        · next hgf =>
          rw [if_pos hgf] at hg
          rw [hgf] at hg ⊢
          dsimp only
          omega
        · next hgf =>
          rw [if_neg hgf] at hg
          omega
      · intro o
        rw [hpending,hnone]
    · next hlast =>
      cases hs
      refine (change_count h (P (s.file f).obj) hx ?_ ?_ ?_ (hdebts _) (hsolo _) (hforking _)
        (hlife _) (hexits _)).inv h halive
      · exact fun _ => rfl
      · intro g
        have hg := hheld (s.file f).obj g
        rw [howed _ g]
        split
        · next hgf =>
          rw [if_pos hgf] at hg
          rw [hgf] at hg ⊢
          dsimp only
          omega
        · next hgf =>
          rw [if_neg hgf] at hg
          omega
      · intro o
        rw [hpending,hnone]
        simp

theorem closing_inv (h : Inv s) {fs : List FileId} {s' : State π} {ff : Option Obj}
    (hp : (s.proc p).point = .closing (f::fs) none) (hs : fileclose s f = .ok (s',ff)) :
    Inv (s'.goto p (.closing fs ff)) := by
  have hlife := h.acting p (by rw [hp]; simp)
  have hproc : s'.proc p = s.proc p := by
    rw [fileclose] at hs
    split at hs
    · cases hs
    · split at hs
      · cases hs
        rfl
      · cases hs
        rfl
  have hgoto : s'.goto p (.closing fs ff) = s'.setProc p { s.proc p with point := .closing fs ff } := by
    rw [State.goto,hproc]
  rw [hgoto]
  refine fileclose_inv h (fun ff => { s.proc p with point := .closing fs ff }) hs ?_ ?_ ?_ ?_ ?_ ?_
    ?_ ?_ ?_ ?_ hlife
  · simp [held,hp,inHand]
  · intro o g
    rw [hp]
    rfl
  · intro o g
    have hcount : (f::fs).count g = fs.count g+(if g = f then 1 else 0) := by
      rw [List.count_cons]
      by_cases hg : g = f
      · simp [hg]
      · have hne : f ≠ g := fun e => hg e.symm
        simp [hg,hne]
    simp only [held,hp,inHand,hcount]
    omega
  · exact fun o => rfl
  · rw [hp]
    rfl
  · intro o g hg
    cases hg
  · intro o rf hg
    cases hg
  · intro o c i hg
    cases hg
  · exact fun o => hlife
  · intro o i ff hg
    cases hg

theorem exiting_close (h : Inv s) {i : ℕ} (hi : i < NOFILE) {s' : State π} {ff : Option Obj}
    (hp : (s.proc p).point = .exiting i none) (hfd : (s.proc p).ofile ⟨i,hi⟩ = some f)
    (hs : fileclose s f = .ok (s',ff)) :
    Inv (s'.setProc p ⟨(s.proc p).life,Function.update (s.proc p).ofile ⟨i,hi⟩ none,
      .exiting (i+1) ff⟩) := by
  have hlife := h.acting p (by rw [hp]; simp)
  have htally := tally_uninstall hfd
  refine fileclose_inv h (fun ff => ⟨(s.proc p).life,Function.update (s.proc p).ofile ⟨i,hi⟩ none,
      .exiting (i+1) ff⟩) hs ?_ ?_ ?_ ?_ ?_ ?_ ?_ ?_ ?_ ?_ hlife
  · have := tally_pos hfd
    simp only [held]
    omega
  · intro o g
    rw [hp]
    rfl
  · intro o g
    have := htally g
    simp only [held,hp,inHand]
    by_cases hg : g = f
    · rw [if_pos hg]
      rw [if_pos hg.symm] at this
      omega
    · have hne : f ≠ g := fun e => hg e.symm
      rw [if_neg hg]
      rw [if_neg hne] at this
      omega
  · exact fun o => rfl
  · rw [hp]
    rfl
  · intro o g hg
    cases hg
  · intro o rf hg
    cases hg
  · intro o c i hg
    cases hg
  · exact fun o => hlife
  · intro o j ff hj fd hlt
    cases hj
    by_cases hfdi : fd = ⟨i,hi⟩
    · rw [hfdi]
      exact Function.update_self _ _ _
    · have hne : fd.val ≠ i := fun e => hfdi (Fin.ext e)
      show Function.update (s.proc p).ofile ⟨i,hi⟩ none fd = none
      rw [Function.update_of_ne hfdi]
      exact h.exits p i none hp fd (by omega)

end Counts

section Objects

variable [DecidableEq π] {o : Obj}

omit [DecidableEq π] in
theorem finish_spec (h : Inv s) (hp : pending (s.proc p).point = some o) :
    ∃ s', finish s o = .ok s' ∧ s'.file = s.file ∧ s'.proc = s.proc ∧
      (∀ o', openOn s' o'+(if o' = o then 1 else 0) = openOn s o') ∧
      ∀ pi e, s'.pipe pi = some e → e.readopen = true ∨ e.writeopen = true := by
  have hpos : 0 < tally (fun q => pending (s.proc q).point) o := tally_pos (i := p) hp
  have hobjs := h.objs o
  cases o with
  | inode ip =>
    refine ⟨{ s with iref := Function.update s.iref ip (s.iref ip-1) },rfl,rfl,rfl,?_,h.pipes⟩
    intro o'
    simp only [openOn] at hobjs
    cases o' with
    | pipe pi w => simp [openOn]
    | inode ip' =>
      by_cases hip : ip' = ip
      · subst hip
        simp only [openOn,Function.update_self,if_true]
        omega
      · have hne : ¬ Obj.inode ip' = Obj.inode ip := fun e => hip (by injection e)
        simp only [openOn,Function.update_of_ne hip,if_neg hne,Nat.add_zero]
  | pipe pi w =>
    cases he : s.pipe pi with
    | none =>
      simp only [openOn,he] at hobjs
      omega
    | some e =>
      simp only [openOn,he] at hobjs
      have hflag : (if w then e.writeopen else e.readopen) = true := by
        by_contra hne
        rw [if_neg hne] at hobjs
        omega
      simp only [finish,pipeclose,he]
      refine ⟨_,rfl,rfl,rfl,?_,?_⟩
      · intro o'
        cases o' with
        | inode ip => simp [openOn]
        | pipe pi' w' =>
          by_cases hpi : pi' = pi
          · subst hpi
            simp only [openOn,he,Function.update_self]
            cases hw : w <;> cases hw' : w' <;> cases hr : e.readopen <;> cases hwr : e.writeopen <;>
              simp_all
          · have hne : ¬ Obj.pipe pi' w' = Obj.pipe pi w := fun e => hpi (by injection e)
            simp only [openOn,Function.update_of_ne hpi,if_neg hne,Nat.add_zero]
      · intro pi' e' he'
        by_cases hpi : pi' = pi
        · subst hpi
          simp only [Function.update_self] at he'
          generalize (if w then ({ e with writeopen := false } : Pipe)
            else { e with readopen := false }) = left at he'
          split at he'
          · cases he'
          · next hopen =>
            rw [← Option.some.inj he']
            by_contra hboth
            apply hopen
            simpa using hboth
        · simp only [Function.update_of_ne hpi] at he'
          exact h.pipes pi' e' he'

theorem finish_inv (h : Inv s) {s' : State π} {pt : Point π}
    (hp : pending (s.proc p).point = some o) (hs : finish s o = .ok s')
    (hlife : (s.proc p).life = .alive) (hnone : pending pt = none)
    (howed : ∀ f, owed pt f = owed (s.proc p).point f)
    (hheld : ∀ f, inHand pt f = inHand (s.proc p).point f) (hdebts : ∀ f, pt ≠ .duping f)
    (hsolo : ∀ rf, pt ≠ .second rf) (hforking : ∀ c i, pt ≠ .forking c i)
    (hexits : ∀ i ff, pt = .exiting i ff → ∀ fd : Fd, fd.val < i → (s.proc p).ofile fd = none) :
    Inv (s'.goto p pt) := by
  obtain ⟨s'',hs'',hfile,hproc,hopen,hpipes⟩ := finish_spec h hp
  rw [hs] at hs''
  cases hs''
  have hchange : Change s p { s.proc p with point := pt } (s'.goto p pt) := by
    refine ⟨?_,?_,?_,?_,?_,?_,hpipes,?_,?_,?_,?_,?_⟩
    · show Function.update s'.proc p { s'.proc p with point := pt } = _
      rw [hproc]
    · intro f
      show (s'.file f).ref+_+_ = _
      rw [hfile,howed f]
      simp only [held,hheld f]
    · exact fun f hf => absurd hf (hdebts f)
    · intro f hne
      exact absurd (congrFun hfile f) hne
    · intro f
      show (s'.file f).ref = 0 → (s'.file f).obj = none
      rw [hfile]
      exact h.free f
    · intro o'
      have hbal := hopen o'
      show tally (fun f => (s'.file f).obj) o'+_+_ = _
      rw [hfile,hnone,hp,show openOn (s'.goto p pt) o' = openOn s' o' from openOn_eq rfl rfl o']
      have hsym : (some o = some o') = (o' = o) := by
        rw [Option.some_inj]
        exact propext eq_comm
      simp only [hsym]
      simp only [reduceCtorEq,if_false]
      omega
    · exact fun rf hf => absurd hf (hsolo rf)
    · exact fun _ => hlife
    · exact fun c i hf => absurd hf (hforking c i)
    · intro hu
      exact absurd (hlife.symm.trans hu) (by simp)
    · exact hexits
  exact hchange.inv h hlife

omit [Fintype π] [DecidableEq π] in
theorem filealloc_ref {f : FileId} (hf : filealloc s = some f) : (s.file f).ref = 0 := by
  simpa [filealloc] using List.find?_some hf

theorem change_alloc (h : Inv s) {s' : State π} {x : Option Obj} (P : Proc π)
    (hf : filealloc s = some f) (hfile : s'.file = Function.update s.file f ⟨1,x⟩)
    (hproc : s'.proc = Function.update s.proc p P)
    (hrefs : ∀ g, owed P.point g = owed (s.proc p).point g ∧
      held P g = held (s.proc p) g+(if g = f then 1 else 0))
    (hnone : pending P.point = pending (s.proc p).point)
    (hopen : ∀ o, openOn s' o = openOn s o+(if x = some o then 1 else 0))
    (hpipes : ∀ pi e, s'.pipe pi = some e → e.readopen = true ∨ e.writeopen = true)
    (hdebts : ∀ g, P.point ≠ .duping g) (hsolo : ∀ rf, P.point = .second rf → rf = f ∧ x = none)
    (hforking : ∀ c i, P.point ≠ .forking c i) (hlife : P.life = .alive)
    (hexits : ∀ i ff, P.point ≠ .exiting i ff) : Change s p P s' := by
  have h0 := filealloc_ref hf
  have hself : s'.file f = ⟨1,x⟩ := by rw [hfile,Function.update_self]
  have hother : ∀ g, g ≠ f → s'.file g = s.file g := fun g hg => by
    rw [hfile,Function.update_of_ne hg]
  refine ⟨hproc,?_,?_,?_,?_,?_,hpipes,?_,?_,?_,?_,?_⟩
  · intro g
    obtain ⟨howed,hheld⟩ := hrefs g
    by_cases hg : g = f
    · subst hg
      rw [if_pos rfl] at hheld
      rw [hself,howed,hheld,h0]
      dsimp only
      omega
    · rw [if_neg hg] at hheld
      rw [hother g hg,howed,hheld]
      omega
  · exact fun g hg => absurd hg (hdebts g)
  · intro g hne
    by_cases hg : g = f
    · rw [hg]
      exact .inl h0
    · exact absurd (hother g hg) hne
  · intro g hg0
    by_cases hg : g = f
    · rw [hg,hself] at hg0
      cases hg0
    · rw [hother g hg] at hg0 ⊢
      exact h.free g hg0
  · intro o
    have htally := tally_obj s f ⟨1,x⟩ o
    rw [h.free f h0,← hfile] at htally
    have := hopen o
    simp only [reduceCtorEq,if_false] at htally
    rw [hnone]
    omega
  · intro rf hp
    obtain ⟨rfl,rfl⟩ := hsolo rf hp
    rw [hself]
    exact ⟨rfl,rfl⟩
  · exact fun _ => hlife
  · exact fun c i hp => absurd hp (hforking c i)
  · intro hu
    rw [hlife] at hu
    cases hu
  · exact fun i ff hp => absurd hp (hexits i ff)

theorem sysOpen_inv (h : Inv s) (hcall : Calling s p) {fd : Fd} (ip : ℕ)
    (hf : filealloc s = some f) (hfd : fdalloc (s.proc p).ofile = some fd) :
    Inv ({ s.setFile f ⟨1,some (.inode ip)⟩ with
        iref := Function.update s.iref ip (s.iref ip+1) }.setProc p
      ⟨.alive,Function.update (s.proc p).ofile fd (some f),.user⟩) := by
  obtain ⟨hlife,huser⟩ := hcall
  have hrefs : ∀ g, held (⟨.alive,Function.update (s.proc p).ofile fd (some f),.user⟩ : Proc π) g =
      held (s.proc p) g+(if g = f then 1 else 0) := by
    intro g
    simp only [held,huser,inHand,tally_install (fdalloc_free hfd) f g,eq_comm (a := f),
      Nat.add_zero]
  have hopen : ∀ o, openOn ({ s.setFile f ⟨1,some (.inode ip)⟩ with
      iref := Function.update s.iref ip (s.iref ip+1) } : State π) o =
      openOn s o+(if some (Obj.inode ip) = some o then 1 else 0) := by
    intro o
    cases o with
    | pipe pi w => simp [openOn,State.setFile]
    | inode ip' =>
      by_cases hip : ip' = ip
      · subst hip
        simp [openOn]
      · have hne : ¬ ip = ip' := fun e => hip e.symm
        simp [openOn,hip,hne]
  have hchange : Change s p ⟨.alive,Function.update (s.proc p).ofile fd (some f),.user⟩
      ({ s.setFile f ⟨1,some (.inode ip)⟩ with
        iref := Function.update s.iref ip (s.iref ip+1) }.setProc p
      ⟨.alive,Function.update (s.proc p).ofile fd (some f),.user⟩) := by
    refine change_alloc h _ hf rfl rfl ?_ ?_ ?_ h.pipes ?_ ?_ ?_ ?_ ?_
    · exact fun g => ⟨by rw [huser],hrefs g⟩
    · rw [huser]
    · exact fun o => (openOn_eq rfl rfl o).trans (hopen o)
    · intro g hg
      cases hg
    · intro rf hg
      cases hg
    · intro c i hg
      cases hg
    · rfl
    · intro i ff hg
      cases hg
  exact hchange.inv h hlife

theorem alloc_inv (h : Inv s) (hcall : Calling s p) {pt : Point π} (hf : filealloc s = some f)
    (hpt : pt = .closing [f] none ∨ pt = .second f) :
    Inv ((s.setFile f ⟨1,none⟩).goto p pt) := by
  obtain ⟨hlife,huser⟩ := hcall
  have hrefs : ∀ g, owed pt g = owed (s.proc p).point g ∧
      held { s.proc p with point := pt } g = held (s.proc p) g+(if g = f then 1 else 0) := by
    intro g
    rcases hpt with rfl|rfl
    · simp only [held,huser,owed,inHand,count_one]
      exact ⟨trivial,rfl⟩
    · simp only [held,huser,owed,inHand,eq_comm (a := f)]
      exact ⟨trivial,rfl⟩
  have hpending : pending pt = pending (s.proc p).point := by
    rw [huser]
    rcases hpt with rfl|rfl
    · rfl
    · rfl
  have hopen : ∀ o, openOn ((s.setFile f ⟨1,none⟩).goto p pt) o =
      openOn s o+(if (none : Option Obj) = some o then 1 else 0) := by
    intro o
    have hsame : openOn ((s.setFile f ⟨1,none⟩).goto p pt) o = openOn s o := openOn_eq rfl rfl o
    rw [hsame]
    simp
  have hchange : Change s p { s.proc p with point := pt } ((s.setFile f ⟨1,none⟩).goto p pt) := by
    apply change_alloc h { s.proc p with point := pt } hf (x := none) _ _ hrefs hpending hopen h.pipes
    · intro g hg
      rcases hpt with rfl|rfl
      · cases hg
      · cases hg
    · intro rf hg
      rcases hpt with rfl|rfl
      · cases hg
      · cases hg
        exact ⟨rfl,rfl⟩
    · intro c i hg
      rcases hpt with rfl|rfl
      · cases hg
      · cases hg
    · exact hlife
    · intro i ff hg
      rcases hpt with rfl|rfl
      · cases hg
      · cases hg
    · rfl
    · rfl
  exact hchange.inv h hlife

end Objects

end ListlibSyscalls.FileInvariant
