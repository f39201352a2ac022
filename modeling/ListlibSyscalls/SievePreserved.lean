import ListlibSyscalls.SieveInvariant

/-!
# Every call of the sieve keeps the invariant

One lemma for each program point, then the induction over all runs.
-/

set_option autoImplicit false

namespace ListlibSyscalls.SievePreserved
open FilterSieve StepRuns DescriptorTable SieveMachine SieveInvariant

variable {c : Config} {F : ℕ → List ℕ} {s s' : State} {k : ℕ}

theorem setQueue_self (s : State) (j : ℕ) (q : List ℕ) : (s.setQueue j q).queue j = q :=
  Function.update_self _ _ _

theorem setQueue_other (s : State) {i j : ℕ} (q : List ℕ) (h : i ≠ j) :
    (s.setQueue j q).queue i = s.queue i := Function.update_of_ne h _ _

@[simp] theorem setQueue_out (s : State) (j : ℕ) (q : List ℕ) : (s.setQueue j q).out = s.out := rfl

theorem piperead_some {j x : ℕ} {s₁ : State}
    (h : piperead c s (some (.readEnd j)) = .ok (s₁,some x)) :
    ∃ q, s.queue j = x::q ∧ s₁ = s.setQueue j q := by
  simp only [piperead] at h
  split at h
  · next y q hq =>
    simp only [Except.ok.injEq,Prod.mk.injEq,Option.some.injEq] at h
    obtain ⟨rfl,rfl⟩ := h
    exact ⟨q,hq,rfl⟩
  · split_ifs at h
    simp at h

theorem piperead_none {j : ℕ} {s₁ : State}
    (h : piperead c s (some (.readEnd j)) = .ok (s₁,none)) :
    s.queue j = [] ∧ ¬ s.Open c (.writeEnd j) ∧ s₁ = s := by
  simp only [piperead] at h
  split at h
  · simp at h
  · next hq =>
    split_ifs at h with ho
    simp only [Except.ok.injEq,Prod.mk.injEq,and_true] at h
    exact ⟨hq,ho,h.symm⟩

theorem pipewrite_ok {j x : ℕ} {s₁ : State} (h : pipewrite c s x (some (.writeEnd j)) = .ok s₁) :
    (¬ s.Open c (.readEnd j) ∧ s₁ = s) ∨ s₁ = s.setQueue j (s.queue j ++ [x]) := by
  simp only [pipewrite] at h
  by_cases ho : s.Open c (.readEnd j)
  · rw [if_neg (not_not.mpr ho)] at h
    split_ifs at h
    exact Or.inr (Except.ok.inj h).symm
  · rw [if_pos ho] at h
    exact Or.inl ⟨ho,(Except.ok.inj h).symm⟩

section Early

theorem keeps_childClose (hi : Inv c F s) (hr : s.Running k) (hpc : (s.proc k).pc = .childClose)
    (h : runProc c s k = .ok s') : Keeps c s s' := by
  obtain ⟨htab,hv⟩ := hi.placed k hr.1 hr.2
  simp only [Vars,hpc] at hv
  simp only [runProc,hpc,Except.ok.injEq] at h
  subst h
  refine (Local.of_early (P := { s.proc k with
      ofile := close (s.proc k) (s.proc k).p1
      body := .sieve
      readFd := (s.proc k).p0
      pc := .readFirst }) (by rw [hpc]; exact id) (by rw [hpc]; decide) hr.2 rfl
    (Or.inl ⟨id,by simp⟩) hi hr.1 (by rw [hpc]; rfl) ⟨?_,hv.1,Or.inr ⟨hv.1,rfl,hv.2.1⟩⟩ hv.1
    (fun _ _ _ => rfl) ?_).keeps hi hr (by rw [hpc]; decide)
  · show close (s.proc k) (s.proc k).p1 = tableAt k .readFirst
    rw [close,htab,hpc,hv.2.2]
    exact table_set_first none
  · intro j hj
    subst hj
    have hf := hi.flow j hr.1
    rw [SieveFlow,hpc] at hf
    exact hf

theorem readFd_file (hk1 : 1 ≤ k) (hv : Role k (s.proc k)) {x y : Option File}
    (htab : (s.proc k).ofile = table k (own k) x y) :
    (s.proc k).ofile (s.proc k).readFd = some (.readEnd (k-1)) := by
  rcases hv with hv | hv
  · omega
  · rw [hv.2.2,htab,table_own hk1]
    rfl

theorem printing_line (x : ℕ) : printing (line x) = .print (line x) := by
  have hne : line x ≠ [] := List.append_ne_nil_of_right_ne_nil _ (List.cons_ne_nil _ _)
  obtain ⟨ch,cs,hcs⟩ := List.exists_cons_of_ne_nil hne
  rw [hcs,printing]

theorem keeps_readFirst (hi : Inv c F s) (hr : s.Running k) (hpc : (s.proc k).pc = .readFirst)
    (h : runProc c s k = .ok s') : Keeps c s s' := by
  obtain ⟨htab,hv⟩ := hi.placed k hr.1 hr.2
  simp only [Vars,hpc] at hv
  rw [hpc] at htab
  obtain ⟨j,rfl⟩ : ∃ j, k = j+1 := ⟨k-1,by omega⟩
  have hf := hi.flow j hr.1
  simp only [SieveFlow,hpc] at hf
  simp only [runProc,hpc,readFd_file hv.1 hv.2 htab,Nat.add_sub_cancel] at h
  cases hrd : piperead c s (some (.readEnd j)) with
  | error e => simp [hrd,bind,Except.bind] at h
  | ok r =>
    obtain ⟨s₁,o⟩ := r
    rw [hrd] at h
    cases o with
    | none =>
      obtain ⟨hq,ho,rfl⟩ := piperead_none hrd
      have hnil := hi.end_of_file hr.1 hq ho
      rw [hnil] at hf
      have hs : s' = goto s₁ (j+1) .closeEmpty := (Except.ok.inj h).symm
      subst hs
      refine (Local.of_early (P := { s₁.proc (j+1) with pc := .closeEmpty })
        (by rw [hpc]; exact id) (by rw [hpc]; decide) hr.2 rfl
        (Or.inl ⟨id,by simp⟩) hi hr.1 ?_ ⟨htab,hv.1,hv.2⟩ hv.1
        (fun _ _ _ => rfl) ?_).keeps hi hr (by rw [hpc]; decide)
      · rw [hpc]
        simp [unprinted,← hf.1,kept_nil,text]
      · intro i hij
        obtain rfl : j = i := by omega
        refine ⟨hnil,?_⟩
        rw [hf.2,layer,← hf.1]
        rfl
    | some x =>
      obtain ⟨q,hq,rfl⟩ := piperead_some hrd
      have hs : s' = (s.setQueue j q).setProc (j+1) { s.proc (j+1) with
          prime := x
          pc := printing (line x) } := (Except.ok.inj h).symm
      subst hs
      have hline : printing (line x) = .print (line x) := printing_line x
      have hx : layer (upFrom c.bound 2) j = x::(q ++ F j) := by
        rw [← hf.1,hq]
        rfl
      rw [hline]
      refine (Local.of_early (P := { s.proc (j+1) with prime := x, pc := .print (line x) })
        (by rw [hpc]; exact id) (by rw [hpc]; decide) hr.2 rfl
        (Or.inl ⟨id,by simp⟩) hi hr.1 ?_ ⟨htab,hv.1,hv.2⟩ hv.1 ?_ ?_).keeps hi hr
        (by rw [hpc]; decide)
      · rw [hpc]
        simp only [unprinted,Nat.add_sub_cancel,hx,kept_cons,layer]
        simp [text]
      · intro i _ hi'
        exact setQueue_other s q (by omega)
      · intro i hij
        obtain rfl : j = i := by omega
        refine ⟨?_,hf.2⟩
        rw [setQueue_self,hx]

theorem keeps_closeEmpty (hi : Inv c F s) (hr : s.Running k) (hpc : (s.proc k).pc = .closeEmpty)
    (h : runProc c s k = .ok s') : Keeps c s s' := by
  obtain ⟨htab,hv⟩ := hi.placed k hr.1 hr.2
  simp only [Vars,hpc] at hv
  simp only [runProc,hpc,Except.ok.injEq] at h
  subst h
  have hfd : (s.proc k).readFd = k+2 := by
    rcases hv.2 with hb | hb
    · omega
    · exact hb.2.2
  refine (Local.of_early (P := { s.proc k with
      ofile := close (s.proc k) (s.proc k).readFd
      pc := .exit }) (by rw [hpc]; exact id) (by rw [hpc]; decide) hr.2 rfl
    (Or.inr rfl) hi hr.1 (by rw [hpc]; rfl) ⟨?_,trivial⟩ hv.1
    (fun _ _ _ => rfl) ?_).keeps hi hr (by rw [hpc]; decide)
  · show close (s.proc k) (s.proc k).readFd = tableAt k .exit
    rw [close,htab,hpc,hfd]
    exact table_close_own hv.1
  · intro j hj
    subst hj
    have hf := hi.flow j hr.1
    rw [SieveFlow,hpc] at hf
    exact hf

theorem unprinted_printing (xs : List ℕ) (m : ℕ) (cs : List Char) :
    unprinted xs m (printing cs) = cs ++ text (kept (layer xs m)) := by
  cases cs <;> rfl

theorem printing_cases (cs : List Char) : printing cs = .pipe ∨ ∃ rest, printing cs = .print rest := by
  cases cs with
  | nil => exact Or.inl rfl
  | cons ch cs => exact Or.inr ⟨ch::cs,rfl⟩

theorem keeps_print {cs : List Char} (hi : Inv c F s) (hr : s.Running k)
    (hpc : (s.proc k).pc = .print cs) (h : runProc c s k = .ok s') : Keeps c s s' := by
  obtain ⟨htab,hv⟩ := hi.placed k hr.1 hr.2
  simp only [Vars,hpc] at hv
  rw [hpc] at htab
  have hcon : (s.proc k).ofile 1 = some .console := by
    rw [htab]
    exact table_console
  -- with or without a character left, the rest of the line stays to be printed
  obtain ⟨rest,out,hs,hcs⟩ : ∃ rest out, s' = { s with
      proc := Function.update s.proc k { s.proc k with pc := printing rest }
      out := out } ∧ out ++ rest = s.out ++ cs := by
    cases cs with
    | nil =>
      simp only [runProc,hpc,Except.ok.injEq] at h
      exact ⟨[],s.out,h.symm,rfl⟩
    | cons ch rest =>
      simp only [runProc,hpc,Except.ok.injEq,putc,if_pos hcon] at h
      exact ⟨rest,s.out ++ [ch],h.symm,by simp⟩
  subst hs
  have hearly : ¬ Forked (printing rest) ∧ printing rest ≠ .fork := by
    rcases printing_cases rest with he | ⟨r,he⟩ <;> rw [he] <;> exact ⟨id,by simp⟩
  refine (Local.of_early (P := { s.proc k with pc := printing rest })
    (by rw [hpc]; exact id) (by rw [hpc]; simp) hr.2 rfl (Or.inl hearly) hi hr.1 ?_ ?_ hv.1
    (fun _ _ _ => rfl) ?_).keeps hi hr (by rw [hpc]; simp)
  · dsimp only
    rw [hpc,unprinted_printing,unprinted,← List.append_assoc,hcs,List.append_assoc]
  · rcases printing_cases rest with he | ⟨r,he⟩
    · rw [he]
      exact ⟨htab,hv.2⟩
    · rw [he]
      exact ⟨htab,hv.1,hv.2⟩
  · intro j hj
    subst hj
    have hf := hi.flow j hr.1
    rw [SieveFlow,hpc] at hf
    rcases printing_cases rest with he | ⟨r,he⟩ <;> rw [he] <;> exact hf

end Early

section Forked

theorem keeps_close0 (hi : Inv c F s) (hr : s.Running k) (hpc : (s.proc k).pc = .close0)
    (h : runProc c s k = .ok s') : Keeps c s s' := by
  obtain ⟨htab,hv⟩ := hi.placed k hr.1 hr.2
  simp only [Vars,hpc] at hv
  obtain ⟨hrole,h0,h1,hroom⟩ := hv
  simp only [runProc,hpc,Except.ok.injEq] at h
  have hclose : close (s.proc k) (s.proc k).p0 = table k (own k) none (some (.writeEnd k)) := by
    rw [close,htab,hpc,h0]
    exact table_set_first none
  rcases hrole with ⟨hk0,hb⟩ | ⟨hk1,hb,hfd⟩
  · simp only [hb] at h
    subst h
    refine (Local.of_forked (P := { s.proc k with
        ofile := close (s.proc k) (s.proc k).p0
        body := .main
        pc := .feed 2 }) (by rw [hpc]; trivial) (by rw [hpc]; decide) hr.2 rfl trivial (by simp) hi
      ⟨hclose,hk0,h1,hroom⟩ (fun _ _ _ => rfl) (fun _ _ => rfl) (fun _ => rfl) ?_ ?_).keeps hi hr
      (by rw [hpc]; decide)
    · intro _
      have hf := hi.flow_main
      rw [hk0] at hpc
      rw [MainFlow,hpc] at hf
      exact hf
    · intro j hj
      omega
  · simp only [hb] at h
    subst h
    refine (Local.of_forked (P := { s.proc k with
        ofile := close (s.proc k) (s.proc k).p0
        body := .sieve
        pc := .readNum }) (by rw [hpc]; trivial) (by rw [hpc]; decide) hr.2 rfl trivial (by simp) hi
      ⟨hclose,hk1,Or.inr ⟨hk1,rfl,hfd⟩,h1,hroom⟩ (fun _ _ _ => rfl) (fun _ _ => rfl) (fun _ => rfl)
      ?_ ?_).keeps hi hr (by rw [hpc]; decide)
    · intro he
      omega
    · intro j hj
      subst hj
      have hf := hi.flow j hr.1
      rw [SieveFlow,hpc] at hf
      exact hf

theorem keeps_closeRead (hi : Inv c F s) (hr : s.Running k) (hpc : (s.proc k).pc = .closeRead)
    (h : runProc c s k = .ok s') : Keeps c s s' := by
  obtain ⟨htab,hv⟩ := hi.placed k hr.1 hr.2
  simp only [Vars,hpc] at hv
  obtain ⟨hk1,hrole,h1,hroom⟩ := hv
  simp only [runProc,hpc,Except.ok.injEq] at h
  subst h
  have hfd : (s.proc k).readFd = k+2 := by
    rcases hrole with hb | hb
    · omega
    · exact hb.2.2
  refine (Local.of_forked (P := { s.proc k with
      ofile := close (s.proc k) (s.proc k).readFd
      pc := .close1 }) (by rw [hpc]; trivial) (by rw [hpc]; decide) hr.2 rfl trivial (by simp) hi
    ⟨?_,hk1,h1,hroom⟩ (fun _ _ _ => rfl) (fun _ _ => rfl) (fun _ => rfl) ?_ ?_).keeps hi hr
    (by rw [hpc]; decide)
  · show close (s.proc k) (s.proc k).readFd = tableAt k .close1
    rw [close,htab,hpc,hfd]
    exact table_close_own hk1
  · intro he
    omega
  · intro j hj
    subst hj
    have hf := hi.flow j hr.1
    rw [SieveFlow,hpc] at hf
    exact hf

theorem keeps_close1 (hi : Inv c F s) (hr : s.Running k) (hpc : (s.proc k).pc = .close1)
    (h : runProc c s k = .ok s') : Keeps c s s' := by
  obtain ⟨htab,hv⟩ := hi.placed k hr.1 hr.2
  simp only [Vars,hpc] at hv
  obtain ⟨hk1,h1,hroom⟩ := hv
  simp only [runProc,hpc,Except.ok.injEq] at h
  subst h
  refine (Local.of_forked (P := { s.proc k with
      ofile := close (s.proc k) (s.proc k).p1
      pc := .wait }) (by rw [hpc]; trivial) (by rw [hpc]; decide) hr.2 rfl trivial (by simp) hi
    ⟨?_,trivial⟩ (fun _ _ _ => rfl) (fun _ _ => rfl) (fun _ => rfl) ?_ ?_).keeps hi hr
    (by rw [hpc]; decide)
  · show close (s.proc k) (s.proc k).p1 = tableAt k .wait
    rw [close,htab,hpc,h1]
    exact table_set_second none
  · intro he
    omega
  · intro j hj
    subst hj
    have hf := hi.flow j hr.1
    rw [SieveFlow,hpc] at hf
    exact hf

theorem keeps_readNum (hi : Inv c F s) (hr : s.Running k) (hpc : (s.proc k).pc = .readNum)
    (h : runProc c s k = .ok s') : Keeps c s s' := by
  obtain ⟨htab,hv⟩ := hi.placed k hr.1 hr.2
  simp only [Vars,hpc] at hv
  rw [hpc] at htab
  obtain ⟨j,rfl⟩ : ∃ j, k = j+1 := ⟨k-1,by omega⟩
  have hf := hi.flow j hr.1
  simp only [SieveFlow,hpc] at hf
  simp only [runProc,hpc,readFd_file hv.1 hv.2.1 htab,Nat.add_sub_cancel] at h
  cases hrd : piperead c s (some (.readEnd j)) with
  | error e => simp [hrd,bind,Except.bind] at h
  | ok r =>
    obtain ⟨s₁,o⟩ := r
    rw [hrd] at h
    cases o with
    | none =>
      obtain ⟨hq,ho,rfl⟩ := piperead_none hrd
      have hnil := hi.end_of_file hr.1 hq ho
      rw [hnil] at hf
      have hs : s' = goto s₁ (j+1) .closeRead := (Except.ok.inj h).symm
      subst hs
      refine (Local.of_forked (P := { s₁.proc (j+1) with pc := .closeRead })
        (by rw [hpc]; trivial) (by rw [hpc]; decide) hr.2 rfl trivial (by simp) hi
        ⟨htab,hv⟩ (fun _ _ _ => rfl) (fun _ _ => rfl) (fun _ => rfl) ?_ ?_).keeps hi hr
        (by rw [hpc]; decide)
      · intro he
        omega
      · intro i hij
        obtain rfl : j = i := by omega
        exact ⟨hnil,hf⟩
    | some x =>
      obtain ⟨q,hq,rfl⟩ := piperead_some hrd
      rw [hq,List.cons_append] at hf
      have hs : s' = goto (s.setQueue j q) (j+1)
          (if x % (s.proc (j+1)).prime ≠ 0 then .writeNum x else .readNum) := (Except.ok.inj h).symm
      subst hs
      have hqueues : ∀ i, i ≠ j+1 → i+1 ≠ j+1 → (s.setQueue j q).queue i = s.queue i :=
        fun i _ hi' => setQueue_other s q (by omega)
      have hsame : (s.setQueue j q).queue (j+1) = s.queue (j+1) := setQueue_other s q (by omega)
      -- a number that is passed on moves from the input to the output
      by_cases hx : x % (s.proc (j+1)).prime ≠ 0
      · rw [if_pos hx]
        refine (Local.of_forked (P := { s.proc (j+1) with pc := .writeNum x })
          (by rw [hpc]; trivial) (by rw [hpc]; decide) hr.2 rfl trivial (by simp) hi
          ⟨htab,hv⟩ hqueues (fun _ _ => rfl) (fun _ => by rw [hsame]) ?_ ?_).keeps hi hr
          (by rw [hpc]; decide)
        · intro he
          omega
        · intro i hij
          obtain rfl : j = i := by omega
          show F (j+1) = x::passed _
          rw [setQueue_self,hf]
          simp [passed,hx]
      · rw [if_neg hx]
        refine (Local.of_forked (P := { s.proc (j+1) with pc := .readNum })
          (by rw [hpc]; trivial) (by rw [hpc]; decide) hr.2 rfl trivial (by simp) hi
          ⟨htab,hv⟩ hqueues (fun _ _ => rfl) (fun _ => by rw [hsame]) ?_ ?_).keeps hi hr
          (by rw [hpc]; decide)
        · intro he
          omega
        · intro i hij
          obtain rfl : j = i := by omega
          show F (j+1) = passed _
          rw [setQueue_self,hf]
          simp [passed,not_not.mp hx]

/-- A completed write with a reader moves the number from the writer into the
pipe. Without one it is lost, and there is no process to miss it. -/
theorem write_feeds {x : ℕ} {ys : List ℕ} {s₁ : State} (hi : Inv c F s)
    (hroom : k+4 < c.nofile) (hF : F k = x::ys)
    (hw : pipewrite c s x (some (.writeEnd k)) = .ok s₁) :
    ∃ Q, s₁ = { s with queue := Q } ∧ (∀ j, j ≠ k → Q j = s.queue j) ∧
      (k+1 < s.nproc → Q k ++ ys = s.queue k ++ F k) := by
  rcases pipewrite_ok hw with ⟨ho,rfl⟩ | rfl
  · refine ⟨s₁.queue,rfl,fun _ _ => rfl,?_⟩
    intro hk1
    exact absurd (hi.read_open hk1 hroom (by simp [hF])) ho
  · refine ⟨_,rfl,fun j hj => Function.update_of_ne hj _ _,?_⟩
    intro _
    rw [Function.update_self,hF,List.append_assoc]
    rfl

theorem keeps_writeNum {x : ℕ} (hi : Inv c F s) (hr : s.Running k)
    (hpc : (s.proc k).pc = .writeNum x) (h : runProc c s k = .ok s') : Keeps c s s' := by
  obtain ⟨htab,hv⟩ := hi.placed k hr.1 hr.2
  simp only [Vars,hpc] at hv
  rw [hpc] at htab
  obtain ⟨j,rfl⟩ : ∃ j, k = j+1 := ⟨k-1,by omega⟩
  have hf := hi.flow j hr.1
  simp only [SieveFlow,hpc] at hf
  have hfile : (s.proc (j+1)).ofile (s.proc (j+1)).p1 = some (.writeEnd (j+1)) := by
    rw [htab,hv.2.2.1]
    exact table_second
  simp only [runProc,hpc,hfile] at h
  cases hw : pipewrite c s x (some (.writeEnd (j+1))) with
  | error e => simp [hw,bind,Except.bind] at h
  | ok s₁ =>
    rw [hw] at h
    obtain ⟨Q,rfl,hQ,hfeeds⟩ := write_feeds hi hv.2.2.2 hf hw
    have hs := (Except.ok.inj h).symm
    subst hs
    refine (Local.of_forked (P := { s.proc (j+1) with pc := .readNum })
      (G := Function.update F (j+1) (passed ((s.proc (j+1)).prime::(s.queue j ++ F j))))
      (by rw [hpc]; trivial) (by rw [hpc]; simp) hr.2 rfl trivial (by simp) hi
      ⟨htab,hv⟩ (fun i hi' _ => hQ i hi') (fun i hi' => Function.update_of_ne hi' _ _) ?_ ?_ ?_).keeps hi hr (by rw [hpc]; simp)
    · intro hk1
      rw [Function.update_self]
      exact hfeeds hk1
    · intro he
      omega
    · intro i hij
      obtain rfl : j = i := by omega
      show Function.update F (j+1) _ (j+1) = passed _
      rw [Function.update_self,hQ j (by omega)]

theorem keeps_feed {i : ℕ} (hi : Inv c F s) (hr : s.Running k) (hpc : (s.proc k).pc = .feed i)
    (h : runProc c s k = .ok s') : Keeps c s s' := by
  obtain ⟨htab,hv⟩ := hi.placed k hr.1 hr.2
  simp only [Vars,hpc] at hv
  rw [hpc] at htab
  obtain ⟨rfl,h1,hroom⟩ := hv
  have hf := hi.flow_main
  simp only [MainFlow,hpc] at hf
  have hfile : (s.proc 0).ofile (s.proc 0).p1 = some (.writeEnd 0) := by
    rw [htab,h1]
    exact table_second
  by_cases hb : i ≤ c.bound
  · simp only [runProc,hpc,if_pos hb,hfile] at h
    cases hw : pipewrite c s i (some (.writeEnd 0)) with
    | error e => simp [hw,bind,Except.bind] at h
    | ok s₁ =>
      rw [hw] at h
      rw [upFrom_cons hb] at hf
      obtain ⟨Q,rfl,hQ,hfeeds⟩ := write_feeds hi hroom hf hw
      have hs := (Except.ok.inj h).symm
      subst hs
      refine (Local.of_forked (P := { s.proc 0 with pc := .feed (i+1) })
        (G := Function.update F 0 (upFrom c.bound (i+1)))
        (by rw [hpc]; trivial) (by rw [hpc]; simp) hr.2 rfl trivial (by simp) hi
        ⟨htab,rfl,h1,hroom⟩ (fun j hj _ => hQ j hj) (fun j hj => Function.update_of_ne hj _ _)
        ?_ ?_ ?_).keeps hi hr (by rw [hpc]; simp)
      · intro hk1
        rw [Function.update_self]
        exact hfeeds hk1
      · intro _
        exact Function.update_self _ _ _
      · intro j hj
        omega
  · simp only [runProc,hpc,if_neg hb,Except.ok.injEq] at h
    subst h
    refine (Local.of_forked (P := { s.proc 0 with
        ofile := close (s.proc 0) (s.proc 0).p1
        pc := .wait }) (by rw [hpc]; trivial) (by rw [hpc]; simp) hr.2 rfl trivial (by simp) hi
      ⟨?_,trivial⟩ (fun _ _ _ => rfl) (fun _ _ => rfl) (fun _ => rfl) ?_ ?_).keeps hi hr
      (by rw [hpc]; simp)
    · show close (s.proc 0) (s.proc 0).p1 = tableAt 0 .wait
      rw [close,htab,h1]
      funext fd
      simp only [Function.update_apply,tableAt,table]
      split_ifs <;> first | rfl | omega
    · intro _
      show F 0 = []
      rw [hf,upFrom_nil (by omega)]
    · intro j hj
      omega

end Forked

section Pipe

theorem table_full (fd : ℕ) (h : fd < k+3) (x y : Option File) :
    (table k (own k) x y fd).isSome = true := by
  simp only [table,own]
  split_ifs <;> first | rfl | omega

theorem pipeFds_table (k pi : ℕ) : pipeFds c (table k (own k) none none) pi =
    if k+4 < c.nofile then some (k+3,k+4) else none := by
  have h0 : fdalloc c.nofile (table k (own k) none none) =
      if k+3 < c.nofile then some (k+3) else none :=
    fdalloc_eq (fun i hi => table_full i hi none none) table_first
  have h1 : fdalloc c.nofile (table k (own k) (some (.readEnd pi)) none) =
      if k+4 < c.nofile then some (k+4) else none := by
    apply fdalloc_eq _ table_second
    intro i hi
    by_cases he : i = k+3
    · rw [he,table_first]
      rfl
    · exact table_full i (by omega) _ _
  rw [pipeFds,h0]
  by_cases hr : k+3 < c.nofile
  · simp only [if_pos hr,Option.bind_eq_bind,Option.bind_some,table_set_first,h1]
    split_ifs <;> rfl
  · rw [if_neg hr,if_neg (by omega)]
    rfl

theorem keeps_pipe (hi : Inv c F s) (hr : s.Running k) (hpc : (s.proc k).pc = .pipe)
    (h : runProc c s k = .ok s') : Keeps c s s' := by
  obtain ⟨htab,hv⟩ := hi.placed k hr.1 hr.2
  simp only [Vars,hpc] at hv
  rw [hpc] at htab
  have hlast := hi.last hr.1 (by rw [hpc]; exact id)
  have hn : s.npipe = k := by
    have hp := hi.piped k hlast
    rwa [hpc] at hp
  have htab' : (s.proc k).ofile = table k (own k) none none := htab
  simp only [runProc,hpc,htab',pipeFds_table] at h
  split_ifs at h with hroom
  simp only [hn,Except.ok.injEq,table_set_first,table_set_second] at h
  subst h
  have hl : Local c F F s k { s.proc k with
      pc := .fork
      p0 := k+3
      p1 := k+4
      ofile := table k (own k) (some (.readEnd k)) (some (.writeEnd k)) }
      (Function.update s.queue k []) s.out (k+1) := by
    refine ⟨⟨by rw [hpc]; exact fun h => absurd h id,?_,?_,⟨?_,fun _ => rfl⟩,
      fun _ => ⟨rfl,hv,rfl,rfl,hroom⟩,fun h => absurd hr.2 h,?_,fun _ _ => rfl,fun _ => by omega,
      ?_,?_⟩,hr.2,rfl,by rw [hpc]; exact fun h => absurd h id⟩
    · intro _ _
      exact ⟨rfl,Function.update_self _ _ _⟩
    · intro hk
      omega
    · intro _ _
      rw [hpc]
      exact ⟨Or.inl hn,rfl⟩
    · intro j hj _
      exact Function.update_of_ne hj _ _
    · intro h0
      have hf := hi.flow_main
      rw [h0] at hpc
      rw [MainFlow,hpc] at hf
      exact hf
    · intro j hj
      subst hj
      have hf := hi.flow j hr.1
      rw [SieveFlow,hpc] at hf
      rw [Function.update_of_ne (by omega)]
      exact hf
  refine ⟨⟨F,hl.inv hi hr⟩,?_⟩
  intro _ m hm
  obtain rfl : m = k := by
    dsimp only at hm
    omega
  right
  dsimp only
  rw [Function.update_self]

theorem fork_flow (hi : Inv c F s) (hr : s.Running k) (hpc : (s.proc k).pc = .fork) :
    F k = layer (upFrom c.bound 2) k := by
  cases k with
  | zero =>
    have hf := hi.flow_main
    rw [MainFlow,hpc] at hf
    exact hf
  | succ j =>
    have hf := hi.flow j hr.1
    rw [SieveFlow,hpc] at hf
    exact hf.2

theorem forkFailed_inv (hi : Inv c F s) (hr : s.Running k) (hpc : (s.proc k).pc = .fork) :
    Inv c F (goto s k .close0) := by
  obtain ⟨htab,hv⟩ := hi.placed k hr.1 hr.2
  simp only [Vars,hpc] at hv
  rw [hpc] at htab
  have hlast := hi.last hr.1 (by rw [hpc]; exact id)
  have hn : s.npipe = k+1 := by
    have hp := hi.piped k hlast
    rw [hpc] at hp
    exact hp.1
  have hl : Local c F F s k { s.proc k with pc := .close0 } s.queue s.out s.npipe := by
    refine ⟨⟨by rw [hpc]; exact fun h => absurd h id,?_,fun _ => rfl,⟨?_,fun _ => rfl⟩,
      fun _ => ⟨htab,hv⟩,fun h => absurd hr.2 h,fun _ _ _ => rfl,fun _ _ => rfl,fun _ => rfl,
      ?_,?_⟩,hr.2,rfl,by rw [hpc]; exact fun h => absurd h id⟩
    · intro _ _
      exact hn
    · intro _ hc
      rcases hc with hc | hc
      · omega
      · simp at hc
    · intro h0
      have hf := hi.flow_main
      rw [h0] at hpc
      rw [MainFlow,hpc] at hf
      exact hf
    · intro j hj
      subst hj
      have hf := hi.flow j hr.1
      rw [SieveFlow,hpc] at hf
      show F (j+1) = passed _
      rw [hf.2,hf.1]
      rfl
  exact hl.inv hi hr

def child (s : State) (k : ℕ) : Proc := { s.proc k with pc := .childClose, parent := some k }

theorem added_core (hi : Core c F s) (hk : k+1 = s.nproc) (hp : Forked (s.proc k).pc)
    (hq : s.queue k ++ F k = layer (upFrom c.bound 2) k) (C : Proc) (hpc : C.pc = .childClose)
    (hl : C.life = .running) (hplaced : Placed c (k+1) C) (hn : s.npipe = k+1)
    (hout : s.out ++ text (kept (layer (upFrom c.bound 2) k)) = text (kept (upFrom c.bound 2))) :
    Core c (Function.update F (k+1) (layer (upFrom c.bound 2) (k+1))) { s with
      proc := Function.update s.proc (k+1) C
      nproc := s.nproc+1 } := by
  have hself : Function.update s.proc (k+1) C (k+1) = C := Function.update_self _ _ _
  have hold {i : ℕ} (hi' : i ≠ k+1) : Function.update s.proc (k+1) C i = s.proc i :=
    Function.update_of_ne hi' _ _
  have hG {i : ℕ} (hi' : i ≠ k+1) :
      Function.update F (k+1) (layer (upFrom c.bound 2) (k+1)) i = F i :=
    Function.update_of_ne hi' _ _
  have hlast {m : ℕ} (hm : m+1 = s.nproc+1) : m = k+1 := by omega
  constructor
  · exact Nat.succ_pos _
  · intro i hi' hl'
    dsimp only at hi' hl' ⊢
    by_cases he : i = k+1
    · rw [he,hself]
      exact hplaced
    · rw [hold he] at hl' ⊢
      exact hi.placed i (by omega) hl'
  · intro i hi' hl'
    dsimp only at hi' hl' ⊢
    by_cases he : i = k+1
    · rw [he,hself] at hl'
      exact absurd hl hl'
    · rw [hold he] at hl' ⊢
      exact hi.buried i (by omega) hl'
  · dsimp only
    rw [hold (by omega),hG (by omega)]
    exact hi.flow_main
  · intro j hj
    dsimp only at hj ⊢
    by_cases he : j = k
    · rw [he,hself,hG (by omega),Function.update_self,hq,SieveFlow,hpc]
      exact ⟨rfl,rfl⟩
    · rw [hold (by omega),hG (by omega),hG (by omega)]
      exact hi.flow j (by omega)
  · intro j hj
    dsimp only at hj ⊢
    rw [hold (by omega)]
    by_cases he : j = k
    · rw [he]
      exact hp
    · exact hi.forked j (by omega)
  · intro m hm
    obtain rfl := hlast hm
    dsimp only
    rw [hself,hpc]
    exact hn
  · intro m hm _
    obtain rfl := hlast hm
    dsimp only
    rw [hself,hpc]
    exact hout

theorem keeps_fork (hi : Inv c F s) (hr : s.Running k) (hpc : (s.proc k).pc = .fork)
    (h : runProc c s k = .ok s') : Keeps c s s' := by
  obtain ⟨htab,hv⟩ := hi.placed k hr.1 hr.2
  simp only [Vars,hpc] at hv
  rw [hpc] at htab
  have hlast := hi.last hr.1 (by rw [hpc]; exact id)
  obtain ⟨hn,hq⟩ : s.npipe = k+1 ∧ s.queue k = [] := by
    have hp := hi.piped k hlast
    rwa [hpc] at hp
  simp only [runProc,hpc,Except.ok.injEq] at h
  have hs : s' = { goto s k .close0 with
      proc := Function.update (goto s k .close0).proc (k+1) (child s k)
      nproc := s.nproc+1 } := by
    rw [← h,hlast]
    rfl
  subst hs
  -- the parent goes on as after a failed fork
  have hp := forkFailed_inv hi hr hpc
  have hpk : ((goto s k .close0).proc k).pc = .close0 := by
    simp [goto,State.setProc]
  have hself : Function.update (goto s k .close0).proc (k+1) (child s k) (k+1) = child s k :=
    Function.update_self _ _ _
  have hold {i : ℕ} (hi' : i ≠ k+1) :
      Function.update (goto s k .close0).proc (k+1) (child s k) i = (goto s k .close0).proc i :=
    Function.update_of_ne hi' _ _
  have hprinted := hi.printed k hlast (Or.inr hpc)
  rw [hpc] at hprinted
  refine ⟨⟨_,added_core hp.toCore hlast (by rw [hpk]; trivial) ?_ (child s k) rfl hr.2 ?_ hn hprinted,
    ?_,?_⟩,?_⟩
  · show s.queue k ++ F k = _
    rw [hq,fork_flow hi hr hpc]
    rfl
  · exact ⟨htab.trans table_inherited,by omega,hv.2.1,hv.2.2.1⟩
  · intro j hj
    have hj' : j+1 < s.nproc+1 := hj
    dsimp only
    by_cases he : j = k
    · subst he
      rw [hself,hold (by omega),Tended,hpk,if_neg (by simp)]
      exact ⟨by rw [show (child s j).life = .running from hr.2]; decide,rfl⟩
    · rw [hold (by omega),hold (by omega)]
      exact hp.tended j (show j+1 < s.nproc by omega)
  · intro i j hpar
    dsimp only at hpar ⊢
    by_cases he : i = k+1
    · subst he
      rw [hself] at hpar
      have hkj : k = j := Option.some.inj hpar
      exact ⟨by omega,by omega⟩
    · rw [hold he] at hpar
      obtain ⟨h1,h2⟩ := hp.parents i j hpar
      have h3 : i < s.nproc := h2
      exact ⟨h1,by omega⟩
  · intro _ m hm
    have hm' : m+1 = s.nproc+1 := hm
    left
    show s.npipe = m
    omega

end Pipe

section Leaving

/-- The child of a process is the next one, so `wait` frees that one or, when
the fork has failed, returns at once. -/
theorem kwait_ok {s₁ : State} (hi : Inv c F s) (hr : s.Running k) (hpc : (s.proc k).pc = .wait)
    (h : kwait s k = .ok s₁) :
    (k+1 < s.nproc ∧ (s.proc (k+1)).life = .zombie ∧ s₁ = freeproc s (k+1)) ∨
    (k+1 = s.nproc ∧ s₁ = s) := by
  simp only [kwait] at h
  split at h
  · next j hj =>
    have hd := List.find?_some hj
    have hz : IsChild s k j ∧ (s.proc j).life = .zombie := of_decide_eq_true hd
    obtain ⟨rfl,hlt⟩ := hi.parents j k hz.1
    exact Or.inl ⟨hlt,hz.2,(Except.ok.inj h).symm⟩
  · split_ifs at h with hc
    refine Or.inr ⟨?_,(Except.ok.inj h).symm⟩
    by_contra hne
    have hlt : k+1 < s.nproc := by
      have := hr.1
      omega
    have ht := hi.tended k hlt
    rw [Tended,hpc,if_neg (by decide)] at ht
    exact hc ⟨k+1,hlt,ht.2⟩

theorem freeproc_core {d : ℕ} (hi : Core c F s) (hd : d < s.nproc)
    (hl : (s.proc d).life ≠ .running) : Core c F (freeproc s d) := by
  have hb := hi.buried d hd hl
  have hm : Moves c F F s d { s.proc d with life := .unused, parent := none }
      s.queue s.out s.npipe := by
    refine ⟨fun h => h,fun _ h => h,fun _ => rfl,⟨fun _ h => ⟨h,rfl⟩,fun _ => rfl⟩,?_,fun _ => hb,
      fun _ _ _ => rfl,fun _ _ => rfl,fun _ => rfl,?_,?_⟩
    · intro h
      simp at h
    · intro h0
      have hf := hi.flow_main
      rw [h0]
      exact hf
    · intro j hj
      subst hj
      exact hi.flow j hd
  exact hm.core hi hd

theorem waited_moves (hi : Core c F s) (hr : s.Running k) (hpc : (s.proc k).pc = .wait) :
    Moves c F F s k { s.proc k with pc := .exit } s.queue s.out s.npipe := by
  obtain ⟨htab,_⟩ := hi.placed k hr.1 hr.2
  rw [hpc] at htab
  refine ⟨fun _ => trivial,?_,fun _ => rfl,⟨?_,fun _ => rfl⟩,fun _ => ⟨htab,trivial⟩,
    fun h => absurd hr.2 h,fun _ _ _ => rfl,fun _ _ => rfl,fun _ => rfl,?_,?_⟩
  · intro _ hp
    rw [hpc] at hp
    exact Or.inr hp
  · intro hm hc
    have hp := hi.piped k hm
    rw [hpc] at hp
    have hn : s.npipe = k+1 := hp
    rcases hc with hc | hc
    · omega
    · simp at hc
  · intro h0
    have hf := hi.flow_main
    rw [h0] at hpc
    rw [MainFlow,hpc] at hf
    exact hf
  · intro j hj
    subst hj
    have hf := hi.flow j hr.1
    rw [SieveFlow,hpc] at hf
    exact hf

theorem keeps_reaped (hi : Inv c F s) (hr : s.Running k) (hpc : (s.proc k).pc = .wait)
    (hlt : k+1 < s.nproc) (hz : (s.proc (k+1)).life = .zombie) :
    Keeps c s (goto (freeproc s (k+1)) k .exit) := by
  have hfk : (freeproc s (k+1)).proc k = s.proc k := Function.update_of_ne (by omega) _ _
  have hr' : (freeproc s (k+1)).Running k := ⟨hr.1,by rw [hfk]; exact hr.2⟩
  have hcore := freeproc_core hi.toCore hlt (by rw [hz]; decide)
  have hpk : (goto (freeproc s (k+1)) k .exit).proc k = { s.proc k with pc := .exit } := by
    rw [← hfk]
    exact Function.update_self _ _ _
  have hpc1 : (goto (freeproc s (k+1)) k .exit).proc (k+1) =
      { s.proc (k+1) with life := .unused, parent := none } :=
    (Function.update_of_ne (by omega) _ _).trans (Function.update_self _ _ _)
  have hother {i : ℕ} (h1 : i ≠ k) (h2 : i ≠ k+1) :
      (goto (freeproc s (k+1)) k .exit).proc i = s.proc i :=
    (Function.update_of_ne h1 _ _).trans (Function.update_of_ne h2 _ _)
  refine ⟨⟨F,(waited_moves hcore hr' (by rw [hfk]; exact hpc)).core hcore hr'.1,?_,?_⟩,?_⟩
  · intro j hj
    have ht := hi.tended j hj
    show Tended j ((goto (freeproc s (k+1)) k .exit).proc j)
      ((goto (freeproc s (k+1)) k .exit).proc (j+1))
    by_cases hjk : j = k
    · subst hjk
      rw [hpk,hpc1,Tended,if_pos rfl]
      exact ⟨rfl,rfl⟩
    · by_cases hjc : j = k+1
      · subst hjc
        rw [hpc1,hother (by omega) (by omega)]
        exact tended_congr Iff.rfl Iff.rfl rfl ht
      · rw [hother hjk hjc]
        by_cases hck : j+1 = k
        · rw [hck,hpk]
          rw [hck] at ht
          exact tended_congr Iff.rfl Iff.rfl rfl ht
        · rw [hother hck (by omega)]
          exact ht
  · intro i j hp
    have hp' : ((goto (freeproc s (k+1)) k .exit).proc i).parent = some j := hp
    by_cases hik : i = k
    · subst hik
      rw [hpk] at hp'
      exact hi.parents i j hp'
    · by_cases hic : i = k+1
      · subst hic
        rw [hpc1] at hp'
        simp at hp'
      · rw [hother hik hic] at hp'
        exact hi.parents i j hp'
  · refine clean_congr (k := k) ?_ ?_ (by rw [hpc]; decide) ?_
    · rfl
    · rfl
    · intro m hmk
      by_cases hmc : m = k+1
      · subst hmc
        rw [hpc1]
      · rw [hother hmk hmc]

theorem keeps_wait (hi : Inv c F s) (hr : s.Running k) (hpc : (s.proc k).pc = .wait)
    (h : runProc c s k = .ok s') : Keeps c s s' := by
  simp only [runProc,hpc] at h
  cases hw : kwait s k with
  | error e => simp [hw,bind,Except.bind] at h
  | ok s₁ =>
    rw [hw] at h
    have hs : s' = goto s₁ k .exit := (Except.ok.inj h).symm
    subst hs
    rcases kwait_ok hi hr hpc hw with ⟨hlt,hz,rfl⟩ | ⟨hlast,rfl⟩
    · exact keeps_reaped hi hr hpc hlt hz
    · obtain ⟨ht,hp⟩ := hi.tree (k := k) (P := { s₁.proc k with pc := .exit }) rfl Iff.rfl
        (fun hlt => by omega)
      refine ⟨⟨F,(waited_moves hi.toCore hr hpc).core hi.toCore hr.1,ht,hp⟩,
        clean_congr (k := k) ?_ ?_ (by rw [hpc]; decide) ?_⟩
      · rfl
      · rfl
      · intro m hmk
        show (Function.update s₁.proc k _ m).pc = (s₁.proc m).pc
        rw [Function.update_of_ne hmk]

theorem kexit_eq (hi : Inv c F s) (hpc : (s.proc k).pc = .exit) :
    kexit s k = s.setProc k { s.proc k with life := .zombie, ofile := fun _ => none } := by
  have hnone (j : ℕ) : ¬ IsChild s k j := by
    intro hj
    obtain ⟨rfl,hlt⟩ := hi.parents j k hj
    have ht := hi.tended k hlt
    rw [Tended,if_pos hpc] at ht
    rw [IsChild,ht.2] at hj
    simp at hj
  simp only [kexit,if_neg (hnone _)]

theorem keeps_exit (hi : Inv c F s) (hr : s.Running k) (hpc : (s.proc k).pc = .exit)
    (h : runProc c s k = .ok s') : Keeps c s s' := by
  simp only [runProc,hpc,Except.ok.injEq] at h
  rw [kexit_eq hi hpc] at h
  subst h
  let Z : Proc := { s.proc k with life := .zombie, ofile := fun _ => none }
  have hm : Moves c F F s k Z s.queue s.out s.npipe := by
    refine ⟨fun h => h,fun _ h => h,fun _ => rfl,⟨fun _ h => ⟨h,rfl⟩,fun _ => rfl⟩,?_,
      fun _ => ⟨hpc,rfl⟩,fun _ _ _ => rfl,fun _ _ => rfl,fun _ => rfl,?_,?_⟩
    · intro h
      simp [Z] at h
    · intro h0
      have hf := hi.flow_main
      rw [← h0] at hf
      rw [← h0]
      exact hf
    · intro j hj
      subst hj
      exact hi.flow j hr.1
  obtain ⟨ht,hp⟩ := hi.tree (k := k) (P := Z) rfl (by simp [Z,hr.2]) (fun _ => Iff.rfl)
  refine ⟨⟨F,hm.core hi.toCore hr.1,ht,hp⟩,clean_congr (k := k) ?_ ?_ (by rw [hpc]; decide) ?_⟩
  · rfl
  · rfl
  · intro m hmk
    show (Function.update s.proc k Z m).pc = (s.proc m).pc
    rw [Function.update_of_ne hmk]

end Leaving

theorem runProc_keeps (hi : Inv c F s) (hr : s.Running k) (h : runProc c s k = .ok s') :
    Keeps c s s' := by
  cases hpc : (s.proc k).pc with
  | pipe => exact keeps_pipe hi hr hpc h
  | fork => exact keeps_fork hi hr hpc h
  | childClose => exact keeps_childClose hi hr hpc h
  | close0 => exact keeps_close0 hi hr hpc h
  | feed i => exact keeps_feed hi hr hpc h
  | readFirst => exact keeps_readFirst hi hr hpc h
  | closeEmpty => exact keeps_closeEmpty hi hr hpc h
  | print rest => exact keeps_print hi hr hpc h
  | readNum => exact keeps_readNum hi hr hpc h
  | writeNum x => exact keeps_writeNum hi hr hpc h
  | closeRead => exact keeps_closeRead hi hr hpc h
  | close1 => exact keeps_close1 hi hr hpc h
  | wait => exact keeps_wait hi hr hpc h
  | exit => exact keeps_exit hi hr hpc h

theorem step_keeps {t : Turn} (hi : Inv c F s) (h : Turns c s t s') :
    (∃ F', Inv c F' s') ∧ (Forks t → Clean s → Clean s') := by
  cases t with
  | run k =>
    simp only [Accepts,step] at h
    split_ifs at h with hr
    obtain ⟨hinv,hc⟩ := runProc_keeps hi hr h
    exact ⟨hinv,fun _ => hc⟩
  | forkFails k =>
    simp only [Accepts,step] at h
    split_ifs at h with hr
    rw [← Except.ok.inj h]
    exact ⟨⟨F,forkFailed_inv hi hr.1 hr.2⟩,fun hf => absurd hf id⟩

theorem reached_inv (hr : Reached c s) : ∃ F, Inv c F s :=
  hr.invariant (I := fun s => ∃ F, Inv c F s) ⟨_,start_inv c⟩
    (fun _ _ _ ⟨_,hi⟩ _ h => (step_keeps hi h).1)

theorem cleanlyReached_inv (hr : CleanlyReached c s) : (∃ F, Inv c F s) ∧ Clean s := by
  apply hr.invariant (I := fun s => (∃ F, Inv c F s) ∧ Clean s)
  · exact ⟨⟨_,start_inv c⟩,fun m hm => Or.inl (by simp [start] at hm ⊢; omega)⟩
  · rintro s t s' ⟨⟨F,hi⟩,hc⟩ ht h
    obtain ⟨hinv,hclean⟩ := step_keeps hi h
    exact ⟨hinv,hclean ht hc⟩

end ListlibSyscalls.SievePreserved
