import Mathlib.Logic.Relation
import ListlibSyscalls.StepRuns
import ListlibSyscalls.SyscallDispatch

/-!
# Tracing reports the masked calls and disturbs nothing

Along a run the history of the dispatches is kept: each entry with the value
of a7, and each return with the value handed back and the mask and pid of the
process at that point. The trace lines of a process are read off its history.
Erasing masks and trace lines takes every run to the run of the dispatcher
with all masks held at zero. The masks themselves are written as in the process
table.
-/

set_option autoImplicit false

namespace ListlibSyscalls.SyscallTrace
open ProcTable (ofInt argint Table set_proc kforkCopy)
open SyscallDispatch StepRuns

variable {σ ω : Type*}

inductive Record where
  | entered (i : ℕ) (a7 : BitVec 64)
  | returned (i : ℕ) (a7 ret mask : BitVec 64) (pid : BitVec 32)

def Record.proc : Record → ℕ
  | .entered i _ => i
  | .returned i _ _ _ _ => i

/-- The line that a dispatch is due: none unless its handler returned, its
number is one of the table and the bit of that number is set in the mask. -/
def lineDue : Record → Option Line
  | .entered _ _ => none
  | .returned i a7 ret mask pid =>
    match nameOf (numOf a7) with
    | some name =>
      if (handlerOf (numOf a7)).isSome ∧ mask.getLsbD (numOf a7).toNat then
        some ⟨.trace i,traceText pid name ret⟩
      else none
    | none => none

structure Recorded (σ : Type*) where
  machine : Machine σ
  log : List Record

def note (K : Kernel σ ω) (m : Machine σ) : Turn ω → List Record
  | .enter i => [.entered i (m.rest.task i).a7]
  | .handle i w =>
    match m.inside i with
    | none => []
    | some a7 =>
      match handlerOf (numOf a7) with
      | none => []
      | some sys =>
        match callHandler K m i w sys with
        | (m,some ret) => [.returned i a7 ret (m.mask i) (m.rest.task i).pid]
        | (_,none) => []
  | _ => []

def recordedStep (K : Kernel σ ω) (r : Recorded σ) (t : Turn ω) : Except Unit (Recorded σ) :=
  (step K r.machine t).map fun m => ⟨m,r.log ++ note K r.machine t⟩

def traceLines (console : List Line) (i : ℕ) : List Line :=
  console.filter fun l => l.source = .trace i

def due (log : List Record) (i : ℕ) : List Line :=
  (log.filter fun x => x.proc = i).filterMap lineDue

def TraceExact (r : Recorded σ) : Prop :=
  ∀ i, traceLines r.machine.console i = due r.log i

def isTrace : Source → Bool
  | .trace _ => true
  | _ => false

/-- A state without its masks and trace lines. -/
def erase (m : Machine σ) : Machine σ :=
  { clearMasks m with console := m.console.filter fun l => !isTrace l.source }

section BitTest

theorem handlerOf_range {num : ℤ} (h : (handlerOf num).isSome) : 0 < num ∧ num < 23 := by
  rw [handlerOf] at h
  split at h
  · next hn => exact hn
  · cases h

theorem ofInt_one_shift (n : ℕ) (h : n < 23) : ofInt (1#32 <<< n) = BitVec.twoPow 64 n := by
  have hall : ∀ k : Fin 23, ofInt (1#32 <<< k.val) = BitVec.twoPow 64 k.val := by decide
  exact hall ⟨n,h⟩

theorem tested_eq_bit (mask : BitVec 64) {num : ℤ} (h : (handlerOf num).isSome) :
    tested mask num = mask.getLsbD num.toNat := by
  have hn := handlerOf_range h
  have hlt : num.toNat < 23 := by omega
  rw [tested,ofInt_one_shift _ hlt,BitVec.and_twoPow]
  have hz : BitVec.twoPow 64 num.toNat ≠ 0#64 := by
    intro he
    have hb := congrArg (fun v => v.getLsbD num.toNat) he
    simp [show num.toNat < 64 by omega] at hb
  cases mask.getLsbD num.toNat <;> simp [hz]

theorem nameOf_isSome {num : ℤ} (h : (handlerOf num).isSome) : (nameOf num).isSome := by
  have hn := handlerOf_range h
  have hall : ∀ k : Fin 23, 0 < k.val → (nameOf k.val).isSome := by decide
  have hk := hall ⟨num.toNat,by omega⟩ (by show 0 < num.toNat; omega)
  rwa [show ((num.toNat : ℕ) : ℤ) = num by omega] at hk

end BitTest

section Exact

theorem due_append (log new : List Record) (k : ℕ) : due (log ++ new) k = due log k ++ due new k := by
  rw [due,List.filter_append,List.filterMap_append]
  rfl

theorem traceLines_print (m : Machine σ) (source : Source) (texts : List String) (k : ℕ)
    (h : source ≠ .trace k) :
    traceLines (print m source texts).console k = traceLines m.console k := by
  rw [traceLines,print,List.filter_append]
  have hn : (texts.map fun text => (⟨source,text⟩ : Line)).filter
      (fun l => l.source = .trace k) = [] := by
    rw [List.filter_eq_nil_iff]
    intro l hl
    obtain ⟨text,-,rfl⟩ := List.mem_map.mp hl
    simpa using h
  rw [hn,List.append_nil]
  rfl

theorem traceLines_enter (m : Machine σ) (i k : ℕ) :
    traceLines (enter m i).console k = traceLines m.console k := by
  simp only [enter]
  split
  · rfl
  · exact traceLines_print _ _ _ _ (by simp)

theorem traceLines_callHandler (K : Kernel σ ω) (m : Machine σ) (i : ℕ) (w : ω) (sys : Sys)
    (k : ℕ) : traceLines (callHandler K m i w sys).1.console k = traceLines m.console k := by
  simp only [callHandler]
  split
  · rfl
  · split <;> exact traceLines_print _ _ _ _ (by simp)

theorem traceLines_finish (m : Machine σ) (i : ℕ) (a7 ret : BitVec 64) (k : ℕ)
    (h : (handlerOf (numOf a7)).isSome) :
    traceLines (finish m i (numOf a7) ret).console k = traceLines m.console k ++
      due [.returned i a7 ret (m.mask i) (m.rest.task i).pid] k := by
  obtain ⟨name,hname⟩ := Option.isSome_iff_exists.mp (nameOf_isSome h)
  have hpid : ((setA0 m.rest i ret).task i).pid = (m.rest.task i).pid := by simp [setA0]
  simp only [finish,tested_eq_bit _ h,hname,hpid]
  by_cases hb : (m.mask i).getLsbD (numOf a7).toNat = true
  · rw [if_pos hb]
    by_cases hk : i = k
    · subst hk
      simp [due,Record.proc,lineDue,hname,h,hb,traceLines,print]
    · rw [traceLines_print _ _ _ _ (by simpa using hk)]
      simp [due,Record.proc,hk]
  · rw [if_neg hb]
    by_cases hk : i = k
    · subst hk
      simp [due,Record.proc,lineDue,hname,hb]
    · simp [due,Record.proc,hk]

theorem due_entered (i : ℕ) (a7 : BitVec 64) (k : ℕ) : due [.entered i a7] k = [] := by
  by_cases hk : i = k <;> simp [due,Record.proc,lineDue,hk]

theorem recordedStep_exact {K : Kernel σ ω} {r r' : Recorded σ} {t : Turn ω}
    (h : TraceExact r) (hs : recordedStep K r t = .ok r') : TraceExact r' := by
  rw [recordedStep] at hs
  cases hm : step K r.machine t with
  | error _ => simp [hm,Except.map] at hs
  | ok m =>
    simp only [hm,Except.map,Except.ok.injEq] at hs
    subst hs
    intro k
    show traceLines m.console k = due (r.log ++ note K r.machine t) k
    rw [due_append,← h k]
    cases t with
    | user i w =>
      simp only [step,stepWith] at hm
      split at hm
      · cases hm
        simp [note,due]
      · cases hm
    | enter i =>
      simp only [step,stepWith] at hm
      split at hm
      · cases hm
        rw [traceLines_enter,note,due_entered,List.append_nil]
      · cases hm
    | handle i w =>
      cases ha : r.machine.inside i with
      | none => simp [step,stepWith,ha] at hm
      | some a7 =>
        cases hsys : handlerOf (numOf a7) with
        | none => simp [step,stepWith,ha,hsys] at hm
        | some sys =>
          have hc := traceLines_callHandler K r.machine i w sys k
          have hv : (handlerOf (numOf a7)).isSome := by rw [hsys,Option.isSome_some]
          rcases he : callHandler K r.machine i w sys with ⟨m₁,ret⟩
          rw [he] at hc
          cases ret with
          | none =>
            simp only [step,stepWith,ha,hsys,he,id,Except.ok.injEq] at hm
            simpa [note,ha,hsys,he,due,← hm] using hc
          | some ret =>
            simp only [step,stepWith,ha,hsys,he,id,Except.ok.injEq] at hm
            simp only [note,ha,hsys,he,← hm,← hc]
            exact traceLines_finish m₁ i a7 ret k hv
    | interrupt w =>
      simp only [step,stepWith] at hm
      cases hm
      rw [traceLines_print _ _ _ _ (by simp)]
      simp [note,due]

end Exact

section Erasure

theorem erase_print (m : Machine σ) (source : Source) (texts : List String)
    (h : isTrace source = false) : erase (print m source texts) = print (erase m) source texts := by
  simp only [erase,print,clearMasks,List.filter_append]
  have hn : (texts.map fun text => (⟨source,text⟩ : Line)).filter
      (fun l => !isTrace l.source) = texts.map fun text => ⟨source,text⟩ := by
    rw [List.filter_eq_self]
    intro l hl
    obtain ⟨text,-,rfl⟩ := List.mem_map.mp hl
    simp [h]
  rw [hn]

theorem erase_print_trace (m : Machine σ) (i : ℕ) (text : String) :
    erase (print m (.trace i) [text]) = erase m := by
  simp [erase,print,clearMasks,isTrace]

theorem erase_enter (m : Machine σ) (i : ℕ) : erase (enter m i) = enter (erase m) i := by
  simp only [enter]
  have hr : (erase m).rest = m.rest := rfl
  rw [hr]
  split
  · rfl
  · rw [erase_print _ _ _ rfl]
    rfl

theorem tested_zero (num : ℤ) : tested 0 num = false := by simp [tested]

theorem erase_finish (m : Machine σ) (i : ℕ) (num : ℤ) (ret : BitVec 64) :
    erase (finish m i num ret) = finish (erase m) i num ret := by
  have h0 : (erase m).mask i = 0 := rfl
  simp only [finish,h0,tested_zero]
  split
  · split <;> rw [erase_print_trace] <;> rfl
  · rfl

/-- A handler's section does the same to the rest of the state whatever the
masks are, and returns the same. -/
theorem erase_callHandler (K : Kernel σ ω) (m : Machine σ) (i : ℕ) (w : ω) (sys : Sys) :
    clearMasks (callHandler K (erase m) i w sys).1 = erase (callHandler K m i w sys).1 ∧
      (callHandler K (erase m) i w sys).2 = (callHandler K m i w sys).2 := by
  have hr : (erase m).rest = m.rest := rfl
  simp only [callHandler,hr]
  split
  · exact ⟨rfl,rfl⟩
  · have hp := erase_print { m with rest := (K.handler sys i w m.rest).rest } .other
      (K.handler sys i w m.rest).output rfl
    split
    · next np _ _ =>
      have hf : ∀ m : Machine σ, erase (kforkMask m i np) = clearMasks (kforkMask (erase m) i np) :=
        fun _ => rfl
      rw [hf,hp]
      exact ⟨rfl,rfl⟩
    · rw [hp]
      exact ⟨rfl,rfl⟩

theorem erase_step (K : Kernel σ ω) (m : Machine σ) (t : Turn ω) :
    unmaskedStep K (erase m) t = (step K m t).map erase := by
  have hi : (erase m).inside = m.inside := rfl
  have hr : (erase m).rest = m.rest := rfl
  cases t with
  | user i w =>
    simp only [unmaskedStep,step,stepWith,hi,hr]
    split <;> rfl
  | enter i =>
    simp only [unmaskedStep,step,stepWith,hi]
    split
    · rw [← erase_enter]
      rfl
    · rfl
  | handle i w =>
    simp only [unmaskedStep,step,stepWith,hi]
    split
    · rfl
    · next a7 _ =>
      split
      · rfl
      · next sys _ =>
        obtain ⟨h1,h2⟩ := erase_callHandler K m i w sys
        rcases hc : callHandler K m i w sys with ⟨m₁,ret⟩
        rcases he : callHandler K (erase m) i w sys with ⟨m₂,ret₂⟩
        rw [hc,he] at h1 h2
        simp only at h1 h2
        subst h2
        cases ret₂ with
        | none =>
          show Except.ok (clearMasks m₂) = Except.ok (erase m₁)
          rw [h1]
        | some ret =>
          show Except.ok (finish (clearMasks m₂) i (numOf a7) ret) =
            Except.ok (erase (finish m₁ i (numOf a7) ret))
          rw [h1,erase_finish]
  | interrupt w =>
    simp only [unmaskedStep,step,stepWith,hr]
    show Except.ok _ = Except.ok (erase (print _ _ _))
    rw [erase_print _ _ _ rfl]
    rfl

end Erasure

section Masks

/-- The masks are those of a process table. -/
def Masks (m : Machine σ) (T : Table) : Prop := ∀ k, m.mask k = (T.proc k).traceMask

theorem sysTrace_masks {m : Machine σ} {T : Table} (h : Masks m T) (i : ℕ) :
    Masks (SyscallDispatch.sysTrace m i).1 (ProcTable.sysTrace T i (m.rest.task i).a0).1 := by
  intro k
  rw [SyscallDispatch.sysTrace,ProcTable.sysTrace,set_proc]
  by_cases hk : k = i
  · rw [if_pos hk,hk]
    exact Function.update_self _ _ _
  · rw [if_neg hk,← h k]
    exact Function.update_of_ne hk _ _

theorem kforkMask_masks {m : Machine σ} {T : Table} (h : Masks m T) (i np : ℕ) :
    Masks (kforkMask m i np) (kforkCopy T i np true) := by
  intro k
  have hcopy : ((kforkCopy T i np true).proc k).traceMask =
      if k = np then (T.proc i).traceMask else (T.proc k).traceMask := by
    simp only [kforkCopy,if_true,set_proc]
    by_cases hi : k = i
    · rw [if_pos hi,hi]
      split_ifs
      · rfl
      · rfl
    · rw [if_neg hi]
      split_ifs
      · rfl
      · rfl
  rw [hcopy,kforkMask]
  by_cases hk : k = np
  · rw [if_pos hk,hk,← h i]
    exact Function.update_self _ _ _
  · rw [if_neg hk,← h k]
    exact Function.update_of_ne hk _ _

inductive MaskStep (T : Table) : Table → Prop
  | trace (i : ℕ) (a0 : BitVec 64) : MaskStep T (ProcTable.sysTrace T i a0).1
  | copy (i np : ℕ) : MaskStep T (kforkCopy T i np true)

theorem step_masks {K : Kernel σ ω} {m m' : Machine σ} {t : Turn ω} {T : Table} (h : Masks m T)
    (hs : step K m t = .ok m') : Masks m' T ∨ ∃ T', MaskStep T T' ∧ Masks m' T' := by
  cases t with
  | user i w =>
    simp only [step,stepWith] at hs
    split at hs
    · cases hs
      exact .inl h
    · cases hs
  | enter i =>
    simp only [step,stepWith] at hs
    split at hs
    · cases hs
      left
      rw [SyscallDispatch.enter]
      split
      · exact h
      · exact h
    · cases hs
  | handle i w =>
    simp only [step,stepWith] at hs
    split at hs
    · cases hs
    next a7 _ =>
    split at hs
    · cases hs
    next sys _ =>
    have hcall : Masks (callHandler K m i w sys).1 T ∨
        ∃ T', MaskStep T T' ∧ Masks (callHandler K m i w sys).1 T' := by
      rw [callHandler]
      split
      · exact .inr ⟨_,.trace i _,sysTrace_masks h i⟩
      · dsimp only
        split
        · exact .inr ⟨_,.copy i _,kforkMask_masks h i _⟩
        · exact .inl h
    have hfinish : ∀ (m : Machine σ) (num : ℤ) (ret : BitVec 64),
        (finish m i num ret).mask = m.mask := by
      intro m num ret
      rw [finish]
      dsimp only
      split
      · split
        · rfl
        · rfl
      · rfl
    rcases hc : callHandler K m i w sys with ⟨m₁,ret⟩
    rw [hc] at hs hcall
    cases ret with
    | none =>
      cases hs
      exact hcall
    | some ret =>
      cases hs
      simpa only [Masks,hfinish,id] using hcall
  | interrupt w =>
    cases hs
    exact .inl h

/-- The masks of a run are those of a process table that only such sections change. -/
theorem reached_masks {K : Kernel σ ω} {rest : Rest σ} {mask : ℕ → BitVec 64} {T₀ : Table}
    {m : Machine σ} (h₀ : ∀ k, mask k = (T₀.proc k).traceMask)
    (h : Reach (Accepts (step K)) (fun _ _ => True) (started rest mask) m) :
    ∃ T, Relation.ReflTransGen MaskStep T₀ T ∧ Masks m T := by
  induction h with
  | start => exact ⟨T₀,.refl,h₀⟩
  | next _ _ hs ih =>
    obtain ⟨T,hrun,hm⟩ := ih
    rcases step_masks hm hs with hm'|⟨T',hstep,hm'⟩
    · exact ⟨T,hrun,hm'⟩
    · exact ⟨T',hrun.tail hstep,hm'⟩

end Masks

/-- Trace output is the masked history of system calls and nothing depends on
it. From any state and any masks, along every run and for every process, the
trace lines are those its dispatches are due; and the run without its masks
and trace lines is the run of the dispatcher with all masks zero, over the
same turns. -/
theorem tracing_reports_and_only_reports (K : Kernel σ ω) (rest : Rest σ) (mask : ℕ → BitVec 64)
    (turns : List (Turn ω)) :
    Always (Accepts (recordedStep K)) TraceExact ⟨started rest mask,[]⟩ turns ∧
      visits (unmaskedStep K) (started rest fun _ => 0) turns =
        (visits (step K) (started rest mask) turns).map erase := by
  have h0 : TraceExact (⟨started rest mask,[]⟩ : Recorded σ) := fun _ => rfl
  have hall := each_of_forall (R := Accepts (recordedStep K)) (Q := fun _ _ => True)
    (fun _ _ => trivial) turns ⟨started rest mask,[]⟩
  constructor
  · apply always_of_reach _ turns _ .start hall
    intro r hr
    exact hr.invariant h0 fun _ _ _ h _ hs => recordedStep_exact h hs
  · exact visits_map erase (erase_step K) turns (started rest mask)

/-- Process 0 asks for its trace calls to be traced, and for nothing else. -/
def asksForTrace : Kernel Unit Unit where
  handler _ _ _ r := ⟨r,[],some 0,none⟩
  user _ _ r := { r with task := fun _ => ⟨0xFFFFFFFF00400000,22,3,"trace"⟩ }
  interrupt _ r := (r,[])

def untraced : Rest Unit := ⟨fun _ => ⟨0,0,3,"init"⟩,()⟩

theorem tracing_reports_asking :
    (lastState (step asksForTrace) (started untraced fun _ => 0)
      [.user 0 (),.enter 0,.handle 0 ()]).console =
        [⟨.trace 0,"3: syscall trace -> 0\n"⟩] ∧
    Always (Accepts (recordedStep asksForTrace)) TraceExact
      ⟨started untraced fun _ => 0,[]⟩ [.user 0 (),.enter 0,.handle 0 ()] :=
  ⟨by decide +kernel,(tracing_reports_and_only_reports asksForTrace untraced (fun _ => 0) _).1⟩

end ListlibSyscalls.SyscallTrace
