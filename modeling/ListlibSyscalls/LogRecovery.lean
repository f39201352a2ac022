import ListlibSyscalls.LogCommit
import ListlibSyscalls.CountedRefs
import Mathlib.Algebra.BigOperators.Ring.Finset

/-!
# Crashes, recovery and the space of the log

The runs of the logging layer, with any number of processes in the file system
and a crash between any two steps, are runs of the abstract store: what a
recovery leaves is what the cache held when the last commit was made, and no
operation was then under way. The reservation of `begin_op` is enough that
`log_write` never panics, and the log always becomes idle again.
-/

set_option autoImplicit false

namespace ListlibSyscalls.LogRecovery
open StepRuns CrashRecovery CountedRefs LogMachine LogInvariant LogCommit

def spare : Option (Finset ℕ) → ℕ
  | none => 0
  | some bs => MAXOPBLOCKS-bs.card

def busy : Option (Finset ℕ) → ℕ
  | none => 0
  | some _ => 1

theorem spare_none : spare none = 0 := rfl

theorem spare_some (bs : Finset ℕ) : spare (some bs) = MAXOPBLOCKS-bs.card := rfl

theorem spare_le (c : Option (Finset ℕ)) : spare c ≤ busy c*MAXOPBLOCKS := by
  cases c with
  | none => simp [spare]
  | some bs => simp [spare,busy]

/-- The operations under way against `log.outstanding` and the space left. -/
structure Reserved (outstanding : ℕ) (lh : Logheader) (calls : Fin NPROC → Option (Finset ℕ)) :
    Prop where
  count : outstanding = ∑ p, busy (calls p)
  within : ∀ p bs, calls p = some bs → bs.card ≤ MAXOPBLOCKS
  logged : ∀ p bs, calls p = some bs → ∀ b ∈ bs, ∃ i < lh.n, lh.block i = b
  room : lh.n+∑ p, spare (calls p) ≤ LOGBLOCKS

section Reserved

variable {o o' : ℕ} {lh lh' : Logheader} {calls : Fin NPROC → Option (Finset ℕ)}

theorem Reserved.positive (h : Reserved o lh calls) {p : Fin NPROC} {bs : Finset ℕ}
    (hp : calls p = some bs) : 0 < o := by
  have hle := Finset.single_le_sum (fun q _ => Nat.zero_le (busy (calls q))) (Finset.mem_univ p)
  have hone : busy (calls p) = 1 := by
    rw [hp]
    rfl
  rw [h.count]
  omega

theorem Reserved.none_of_zero (h : Reserved 0 lh calls) (p : Fin NPROC) : calls p = none := by
  cases hp : calls p with
  | none => rfl
  | some bs => exact absurd (h.positive hp) (lt_irrefl 0)

theorem reserved_of_none (hn : lh.n ≤ LOGBLOCKS) (hc : ∀ p, calls p = none) :
    Reserved 0 lh calls where
  count := by simp [hc,busy]
  within := fun p bs hp => by rw [hc p] at hp; cases hp
  logged := fun p bs hp => by rw [hc p] at hp; cases hp
  room := by simpa [hc,spare] using hn

theorem Reserved.spare_sum (h : Reserved o lh calls) :
    ∑ p, spare (calls p) ≤ o*MAXOPBLOCKS := by
  rw [h.count,Finset.sum_mul]
  exact Finset.sum_le_sum fun q _ => spare_le (calls q)

theorem Reserved.change (h : Reserved o lh calls) (p : Fin NPROC) (c : Option (Finset ℕ))
    (hcount : o'+busy (calls p) = o+busy c) (hwithin : ∀ bs, c = some bs → bs.card ≤ MAXOPBLOCKS)
    (hold : ∀ i < lh.n, i < lh'.n ∧ lh'.block i = lh.block i)
    (hlogged : ∀ bs, c = some bs → ∀ b ∈ bs, ∃ i < lh'.n, lh'.block i = b)
    (hroom : lh'.n+spare c+∑ q, spare (calls q) ≤ LOGBLOCKS+spare (calls p)) :
    Reserved o' lh' (Function.update calls p c) where
  count := by
    have := sum_update busy calls p c
    have := h.count
    omega
  within := by
    intro q bs hq
    by_cases hqp : q = p
    · rw [hqp,Function.update_self] at hq
      exact hwithin bs hq
    · rw [Function.update_of_ne hqp] at hq
      exact h.within q bs hq
  logged := by
    intro q bs hq b hb
    by_cases hqp : q = p
    · rw [hqp,Function.update_self] at hq
      exact hlogged bs hq b hb
    · rw [Function.update_of_ne hqp] at hq
      obtain ⟨i,hi,hbi⟩ := h.logged q bs hq b hb
      exact ⟨i,(hold i hi).1,(hold i hi).2.trans hbi⟩
  room := by
    have := sum_update spare calls p c
    omega

end Reserved

theorem advance_calls {start : ℕ} {s s' : State} (hs : advance start s = .ok s') :
    s.point ≠ .idle ∧ s'.calls = s.calls ∧ s'.outstanding = s.outstanding := by
  rw [advance] at hs
  split at hs
  · cases hs
  · next hp => cases hs; exact ⟨by simp [hp],rfl,rfl⟩
  · next hp =>
    split at hs <;> (cases hs; exact ⟨by simp [hp],rfl,rfl⟩)
  · next hp => cases hs; exact ⟨by simp [hp],rfl,rfl⟩
  · next r tail hp =>
    split at hs <;> (cases hs; refine ⟨by simp [hp],?_,?_⟩ <;> cases r <;> rfl)
  · next hp => cases hs; exact ⟨by simp [hp],rfl,rfl⟩
  · next hp => cases hs; exact ⟨by simp [hp],rfl,rfl⟩
  · next hp => cases hs; exact ⟨by simp [hp],rfl,rfl⟩

section Steps

variable {start : ℕ} {s s' : State} {a : Store ℕ Data}

abbrev Kept (s : State) : Prop := Reserved s.outstanding s.lh s.calls

theorem kept_beginOp (h : Kept s) {p : Fin NPROC} (hp : s.calls p = none)
    (hs : beginOp s = .ok s') :
    Kept { s' with calls := Function.update s'.calls p (some ∅) } := by
  rw [beginOp] at hs
  split at hs
  · cases hs
  · split at hs
    · cases hs
    · next hroom =>
      cases hs
      have hsum := h.spare_sum
      apply h.change p (some ∅)
      · rw [hp]
        rfl
      · intro bs hbs
        cases hbs
        exact Nat.zero_le _
      · exact fun i hi => ⟨hi,rfl⟩
      · intro bs hbs b hb
        cases hbs
        simp at hb
      · rw [hp,spare_none,spare_some,Finset.card_empty]
        simp only [MAXOPBLOCKS,LOGBLOCKS] at *
        omega

theorem kept_endOp (h : Kept s) {p : Fin NPROC} (hp : (s.calls p).isSome)
    (hs : endOp s = .ok s') : Kept { s' with calls := Function.update s'.calls p none } := by
  obtain ⟨bs,hbs⟩ := Option.isSome_iff_exists.mp hp
  have hshape : s'.outstanding = s.outstanding-1 ∧ s'.calls = s.calls ∧ s'.lh = s.lh := by
    rw [endOp] at hs
    split at hs
    · cases hs
    · split at hs <;> (cases hs; exact ⟨rfl,rfl,rfl⟩)
  have hpos := h.positive hbs
  have hroom := h.room
  show Reserved s'.outstanding s'.lh (Function.update s'.calls p none)
  rw [hshape.1,hshape.2.1,hshape.2.2]
  apply h.change p none
  · rw [hbs]
    simp only [busy]
    omega
  · intro bs hbs
    cases hbs
  · exact fun i hi => ⟨hi,rfl⟩
  · intro bs hbs
    cases hbs
  · rw [spare_none]
    omega

theorem kept_logWrite (h : Kept s) {p : Fin NPROC} {bs : Finset ℕ} {b : ℕ}
    (hp : s.calls p = some bs) (hcard : (insert b bs).card ≤ MAXOPBLOCKS) (hs : logWrite s b = .ok s') :
    Kept { s' with calls := Function.update s'.calls p ((s'.calls p).map (insert b)) } := by
  have hroom := h.room
  obtain ⟨hn,ho,⟨i,hi,hbi,rfl⟩|⟨hnew,rfl⟩⟩ := logWrite_cases hs
  · show Reserved s'.outstanding s'.lh (Function.update s'.calls p ((s'.calls p).map (insert b)))
    rw [hp]
    apply h.change p (some (insert b bs))
    · rw [hp]
      rfl
    · intro cs hcs
      cases hcs
      exact hcard
    · exact fun i hi => ⟨hi,rfl⟩
    · intro cs hcs c hc
      cases hcs
      rcases Finset.mem_insert.mp hc with rfl|hc
      · exact ⟨i,hi,hbi⟩
      · exact h.logged p bs hp c hc
    · have := Finset.card_le_card (Finset.subset_insert b bs)
      rw [hp,spare_some,spare_some]
      omega
  · have hb : b ∉ bs := by
      intro hb
      obtain ⟨i,hi,hbi⟩ := h.logged p bs hp b hb
      exact hnew i hi hbi
    have hold : ∀ i < s.lh.n, Function.update s.lh.block s.lh.n b i = s.lh.block i := fun i hi =>
      Function.update_of_ne (Nat.ne_of_lt hi) b s.lh.block
    show Reserved s.outstanding ⟨s.lh.n+1,Function.update s.lh.block s.lh.n b⟩
      (Function.update s.calls p ((s.calls p).map (insert b)))
    rw [hp]
    apply h.change p (some (insert b bs))
    · rw [hp]
      rfl
    · intro cs hcs
      cases hcs
      exact hcard
    · exact fun i hi => ⟨Nat.lt_succ_of_lt hi,hold i hi⟩
    · intro cs hcs c hc
      cases hcs
      rcases Finset.mem_insert.mp hc with rfl|hc
      · exact ⟨s.lh.n,Nat.lt_succ_self _,Function.update_self _ _ _⟩
      · obtain ⟨i,hi,hci⟩ := h.logged p bs hp c hc
        exact ⟨i,Nat.lt_succ_of_lt hi,(hold i hi).trans hci⟩
    · rw [Finset.card_insert_of_notMem hb] at hcard
      rw [hp,spare_some,spare_some,Finset.card_insert_of_notMem hb]
      dsimp only
      omega

theorem kept_advance (h : Kept s) (hsim : Sim start s a) (hs : advance start s = .ok s')
    (hn : s'.lh.n ≤ LOGBLOCKS) : Kept s' := by
  obtain ⟨hp,hc,ho⟩ := advance_calls hs
  have hzero := hsim.alone hp
  rw [Kept,hzero] at h
  rw [Kept,ho,hzero,hc]
  exact reserved_of_none hn h.none_of_zero

/-- What a process does to the store, as the store's users see it. -/
def visible : Label → Option (Act ℕ Data)
  | .beginOp _ => some .start
  | .logWrite _ b f => some (.write b f)
  | .endOp _ => some .finish
  | .crash => some .crash
  | _ => none

/-- Every step of the logging layer is the same step of the store, or none, with
a commit where the header is written. -/
theorem step_simulated (h : Sim start s a) (hk : Kept s) {l : Label} (ho : Offered start s l)
    (hs : step start s l = .ok s') :
    ∃ ls a', a.acts ls = some a' ∧ ls.filterMap Act.visible = (visible l).toList ∧
      Sim start s' a' ∧ Kept s' := by
  cases l with
  | beginOp p =>
    rw [step] at hs
    split at hs
    · cases hs
    · next hr =>
      obtain ⟨s₁,h₁,h₂⟩ := bind_ok hs
      cases h₂
      exact ⟨[.start],_,rfl,rfl,sim_calls (sim_beginOp h (by simpa using hr) h₁) _,
        kept_beginOp hk ho h₁⟩
  | logWrite p b f =>
    obtain ⟨bs,hbs,hcard,hhome⟩ := ho
    obtain ⟨s₁,h₁,h₂⟩ := bind_ok hs
    cases h₂
    obtain ⟨hsim,hpos⟩ := sim_logWrite h hhome f h₁
    have hne : a.active ≠ 0 := h.active ▸ Nat.ne_of_gt hpos
    have hact : a.acts [.write b f] = some (changed a b f) := by
      simp [Store.acts,Store.act,hne,changed]
    exact ⟨[.write b f],_,hact,rfl,sim_calls hsim _,
      kept_logWrite (s := setData (bread s b) b (f ((bread s b).view b))) hk hbs hcard h₁⟩
  | endOp p =>
    obtain ⟨bs,hbs⟩ := Option.isSome_iff_exists.mp ho
    obtain ⟨s₁,h₁,h₂⟩ := bind_ok hs
    cases h₂
    have hpos := hk.positive hbs
    have hne : a.active ≠ 0 := h.active ▸ Nat.ne_of_gt hpos
    have hact : a.acts [.finish] = some { a with active := a.active-1 } := by
      simp [Store.acts,Store.act,hne]
    exact ⟨[.finish],_,hact,rfl,sim_calls (sim_endOp h hpos h₁) _,kept_endOp hk ho h₁⟩
  | advance =>
    rcases sim_advance h hs with hsim|⟨hsim,hz⟩
    · exact ⟨[],a,rfl,rfl,hsim,kept_advance hk h hs hsim.sound.bound⟩
    · have hact : a.acts [.commit] = some { a with durable := a.volatile } := by
        simp [Store.acts,Store.act,hz]
      exact ⟨[.commit],_,hact,rfl,hsim,kept_advance hk h hs hsim.sound.bound⟩
  | fetch b =>
    cases hs
    exact ⟨[],a,rfl,rfl,sim_bread h b,hk⟩
  | recycle b =>
    rw [step] at hs
    split at hs
    · next hb =>
      cases hs
      exact ⟨[],a,rfl,rfl,sim_recycle h b hb,hk⟩
    · cases hs
  | crash =>
    cases hs
    exact ⟨[.crash],_,rfl,rfl,sim_boot s.disk a.durable h.head h.durable,
      reserved_of_none (Nat.zero_le _) fun _ => rfl⟩

def stored (start : ℕ) (disk : ℕ → Data) : Store ℕ Data :=
  ⟨recovered start disk,recovered start disk,0⟩

theorem run_simulated {disk : ℕ → Data} (hd : Sound start (headOf start disk)) {bs : List Label}
    (h : Run (Steps start) (Offered start) (boot disk) bs s) :
    ∃ ls a, (stored start disk).acts ls = some a ∧
      ls.filterMap Act.visible = bs.filterMap visible ∧ Sim start s a ∧ Kept s := by
  induction h with
  | start =>
    exact ⟨[],_,rfl,rfl,sim_boot disk _ hd fun _ _ => rfl,
      reserved_of_none (Nat.zero_le _) fun _ => rfl⟩
  | @next bs t l t' _ ho hr ih =>
    obtain ⟨ls,a,hacts,hvis,hsim,hkept⟩ := ih
    obtain ⟨ls',a',hacts',hvis',hsim',hkept'⟩ := step_simulated hsim hkept ho hr
    refine ⟨ls++ls',a',?_,?_,hsim',hkept'⟩
    · rw [Store.acts_append,hacts]
      exact hacts'
    · rw [List.filterMap_append,List.filterMap_append,hvis,hvis']
      cases hl : visible l <;> simp [hl]

/-- Recovery at any moment gives the contents of the last commit of the store,
and between recoveries the cache shows its volatile contents. A commit of the
store is made with no operation under way, so no operation is split. -/
theorem crash_refinement {disk : ℕ → Data} (hd : Sound start (headOf start disk))
    (bs : List Label) (h : Run (Steps start) (Offered start) (boot disk) bs s) :
    ∃ ls a, (stored start disk).acts ls = some a ∧
      ls.filterMap Act.visible = bs.filterMap visible ∧ a.active = s.outstanding ∧
      (∀ b, Home start b → recovered start s.disk b = a.durable b) ∧
      (s.point.recovering = false → ∀ b, Home start b → s.view b = a.volatile b) := by
  obtain ⟨ls,a,hacts,hvis,hsim,-⟩ := run_simulated hd h
  refine ⟨ls,a,hacts,hvis,hsim.active,fun b hb => (hsim.durable b hb).symm,fun hr b hb => ?_⟩
  have hv := hsim.volatile b hb
  rw [hr] at hv
  exact hv.symm

def zeroed : ℕ → Data := fun _ _ => 0

/-- One operation on two blocks, its commit, and a crash when one of them is
home. -/
def torn : List Label :=
  List.replicate 3 .advance++[.beginOp 0,.logWrite 0 100 fun _ _ => 7,
    .logWrite 0 101 fun _ _ => 8,.endOp 0]++List.replicate 6 .advance++[.crash]

theorem torn_run : Run (Steps 2) (Offered 2) (boot zeroed) torn
    (lastState (step 2) (boot zeroed) torn) :=
  Run.lastState torn _ (by decide +kernel) (by decide +kernel)

theorem crash_refinement_torn :
    (lastState (step 2) (boot zeroed) torn).disk 100 0 = 7 ∧
    (lastState (step 2) (boot zeroed) torn).disk 101 0 = 0 ∧
    ∃ ls a, (stored 2 zeroed).acts ls = some a ∧
      ls.filterMap Act.visible = torn.filterMap visible ∧ a.durable 100 0 = 7 ∧
      a.durable 101 0 = 8 := by
  obtain ⟨ls,a,hacts,hvis,-,hdur,-⟩ := crash_refinement (sound_empty rfl) torn torn_run
  refine ⟨by decide +kernel,by decide +kernel,ls,a,hacts,hvis,?_,?_⟩
  · rw [← hdur 100 (by decide)]
    decide +kernel
  · rw [← hdur 101 (by decide)]
    decide +kernel

theorem reached_sim {disk : ℕ → Data} (hd : Sound start (headOf start disk))
    (h : Reached start disk s) : ∃ a, Sim start s a ∧ Kept s := by
  apply Reach.invariant (I := fun s => ∃ a, Sim start s a ∧ Kept s) _ _ h
  · exact ⟨_,sim_boot disk _ hd fun _ _ => rfl,reserved_of_none (Nat.zero_le _) fun _ => rfl⟩
  · rintro s l s' ⟨a,hsim,hkept⟩ ho hs
    obtain ⟨_,a',_,_,hsim',hkept'⟩ := step_simulated hsim hkept ho hs
    exact ⟨a',hsim',hkept'⟩

/-- When the last operation has returned from `end_op`, nothing is pending: the
disk holds, outside the log, all that was written, and keeps it in a crash. -/
theorem quiescent_durable {disk : ℕ → Data} (hd : Sound start (headOf start disk))
    (h : Reached start disk s) (hi : s.point = .idle) (hc : ∀ p, s.calls p = none) (b : ℕ) :
    s.lh.n = 0 ∧ s.disk b = s.view b ∧ recovered start s.disk b = s.view b := by
  obtain ⟨a,hsim,hkept⟩ := reached_sim hd h
  have hz : s.outstanding = 0 := by
    rw [hkept.count]
    simp [hc,busy]
  have hn := hsim.quiet hi hz
  have hclean : s.view b = s.disk b := by
    apply hsim.clean
    rintro ⟨i,_,hi,_⟩
    omega
  have hhead := hsim.disk
  rw [hi] at hhead
  exact ⟨hn,hclean.symm,by rw [recovered_empty hhead,hclean]⟩

def settled : List Label :=
  List.replicate 3 .advance++[.beginOp 0,.logWrite 0 100 fun _ _ => 7,
    .logWrite 0 101 fun _ _ => 8,.endOp 0]++List.replicate 10 .advance

theorem quiescent_durable_settled :
    (lastState (step 2) (boot zeroed) settled).disk 101 =
      (lastState (step 2) (boot zeroed) settled).view 101 ∧
    (lastState (step 2) (boot zeroed) settled).view 101 0 = 8 :=
  ⟨(quiescent_durable (sound_empty rfl)
      (Run.lastState settled (boot zeroed) (by decide +kernel) (by decide +kernel)).reach
      (by decide +kernel) (by decide +kernel) 101).2.1,by decide +kernel⟩

theorem beginOp_error {e : Refused} (h : beginOp s = .error e) : e = .sleeps := by
  rw [beginOp] at h
  split at h
  · cases h
    rfl
  · split at h <;> cases h
    rfl

theorem advance_error {e : Refused} (h : advance start s = .error e) : e = .nothing := by
  rw [advance] at h
  split at h
  case h_1 => cases h; rfl
  case h_3 => split at h <;> cases h
  case h_5 => split at h <;> cases h
  all_goals cases h

theorem logWrite_error {b : ℕ} {p : Panic} (h : logWrite s b = .error (.panics p))
    (ho : 0 < s.outstanding) : p = .tooBigATransaction ∧ LOGBLOCKS ≤ s.lh.n := by
  rw [logWrite] at h
  split at h
  · next hn =>
    cases h
    exact ⟨rfl,hn⟩
  · split at h
    · omega
    · dsimp only at h
      split at h <;> cases h

/-- The header never overflows and never names a block twice, and one panic of
`log.c` can be reached: a block that the log holds already is logged again by an
operation that has logged MAXOPBLOCKS blocks, while the log is full. `log_write`
looks at the space before it looks for the block. -/
theorem log_panics_only_when_full {disk : ℕ → Data} (hd : Sound start (headOf start disk))
    (h : Reached start disk s) : Sound start s.lh ∧
      ∀ l p, Offered start s l → step start s l = .error (.panics p) →
        p = .tooBigATransaction ∧ s.lh.n = LOGBLOCKS ∧
        ∃ q b f bs, l = .logWrite q b f ∧ s.calls q = some bs ∧ bs.card = MAXOPBLOCKS ∧ b ∈ bs := by
  obtain ⟨a,hsim,hkept⟩ := reached_sim hd h
  refine ⟨hsim.sound,fun l p ho hs => ?_⟩
  cases l with
  | beginOp q =>
    rw [step] at hs
    split at hs
    · cases hs
    · cases hb : beginOp s with
      | ok s₁ => rw [hb] at hs; cases hs
      | error e => rw [hb] at hs; cases hs; cases beginOp_error hb
  | logWrite q b f =>
    obtain ⟨bs,hbs,hcard,-⟩ := ho
    have hpos := hkept.positive hbs
    have hroom := hkept.room
    have hspare := Finset.single_le_sum (fun q _ => Nat.zero_le (spare (s.calls q)))
      (Finset.mem_univ q)
    rw [hbs,spare_some] at hspare
    have hle := Finset.card_le_card (Finset.subset_insert b bs)
    have herr : logWrite (setData (bread s b) b (f ((bread s b).view b))) b = .error (.panics p) := by
      cases hb : logWrite (setData (bread s b) b (f ((bread s b).view b))) b with
      | ok s₁ => rw [step,hb] at hs; cases hs
      | error e => rw [step,hb] at hs; cases hs; rfl
    obtain ⟨hp,hn⟩ := logWrite_error herr hpos
    have hn : LOGBLOCKS ≤ s.lh.n := hn
    refine ⟨hp,by omega,q,b,f,bs,rfl,hbs,by omega,?_⟩
    -- a new block would be one too many for the operation
    by_contra hb
    rw [Finset.card_insert_of_notMem hb] at hcard
    omega
  | endOp q =>
    obtain ⟨bs,hbs⟩ := Option.isSome_iff_exists.mp ho
    have hc := hsim.committing
    rw [hsim.idle_of_outstanding (hkept.positive hbs)] at hc
    simp only [step,endOp,hc,Point.inCommit,Bool.false_eq_true,if_false] at hs
    split at hs <;> cases hs
  | advance => cases advance_error hs
  | fetch b => cases hs
  | recycle b =>
    rw [step] at hs
    split at hs <;> cases hs
  | crash => cases hs

def filling : List Label :=
  List.replicate 3 .advance++[.beginOp 0,.beginOp 1,.beginOp 2]++
    (List.range 10).map (fun i => .logWrite 0 (100+i) id)++
    (List.range 10).map (fun i => .logWrite 1 (110+i) id)++
    (List.range 10).map (fun i => .logWrite 2 (120+i) id)

def refusal : Except Refused State → Option Refused
  | .ok _ => none
  | .error e => some e

theorem refusal_eq {x : Except Refused State} {e : Refused} (h : refusal x = some e) :
    x = .error e := by
  cases x with
  | ok s => cases h
  | error e' => exact congrArg _ (Option.some.inj h)

theorem log_panics_filled : ∃ s, Reached 2 zeroed s ∧
    Offered 2 s (.logWrite 0 100 id) ∧
    step 2 s (.logWrite 0 100 id) = .error (.panics .tooBigATransaction) ∧ s.lh.n = LOGBLOCKS := by
  have hr : Reached 2 zeroed (lastState (step 2) (boot zeroed) filling) :=
    (Run.lastState filling _ (by decide +kernel) (by decide +kernel)).reach
  have ho : Offered 2 (lastState (step 2) (boot zeroed) filling) (.logWrite 0 100 id) := by
    decide +kernel
  have hs := refusal_eq (x := step 2 (lastState (step 2) (boot zeroed) filling) (.logWrite 0 100 id))
    (e := .panics .tooBigATransaction) (by decide +kernel)
  exact ⟨_,hr,ho,hs,((log_panics_only_when_full (sound_empty rfl) hr).2 _ _ ho hs).2.1⟩

def remaining (start : ℕ) (s : State) : ℕ :=
  match s.point with
  | .idle => 0
  | .finish => 1
  | .erase _ => 2
  | .install _ tail => s.lh.n-tail+3
  | .writeHead => s.lh.n+4
  | .writeLog tail => s.lh.n-tail+s.lh.n+5
  | .commit => s.lh.n+s.lh.n+6
  | .readHead => (s.view start) 0+4

theorem advance_remaining (start : ℕ) {s : State} (hp : s.point ≠ .idle) :
    ∃ s', advance start s = .ok s' ∧ remaining start s' < remaining start s := by
  rw [advance,remaining]
  cases hpt : s.point with
  | idle => exact absurd hpt hp
  | commit =>
    refine ⟨_,rfl,?_⟩
    by_cases hn : 0 < s.lh.n
    · rw [if_pos hn]
      simp only [State.goto,remaining]
      omega
    · rw [if_neg hn]
      simp only [State.goto,remaining]
      omega
  | writeLog tail =>
    dsimp only
    split
    · next ht =>
      refine ⟨_,rfl,?_⟩
      show s.lh.n-(tail+1)+s.lh.n+5 < _
      omega
    · next ht =>
      refine ⟨_,rfl,?_⟩
      show s.lh.n+4 < _
      omega
  | writeHead => exact ⟨_,rfl,Nat.lt_succ_self _⟩
  | install r tail =>
    dsimp only
    split
    · next ht =>
      refine ⟨_,rfl,?_⟩
      have hn : ((installTrans start r s tail).goto (.install r (tail+1))).lh.n = s.lh.n := by
        cases r <;> rfl
      simp only [State.goto,remaining] at hn ⊢
      omega
    · refine ⟨_,rfl,?_⟩
      simp only [State.goto,remaining]
      omega
  | erase r =>
    refine ⟨_,rfl,?_⟩
    cases r <;> simp [State.goto,remaining]
  | finish => exact ⟨_,rfl,Nat.zero_lt_one⟩
  | readHead =>
    refine ⟨_,rfl,?_⟩
    show (s.lh.load ((bread s start).view start)).n-0+3 < _
    rw [bread_view]
    exact Nat.lt_succ_self _

theorem advance_settles {I : State → Prop}
    (hI : ∀ s s', I s → advance start s = .ok s' → I s') (s : State) (hs : I s) :
    ∃ k s', Run (Steps start) (Offered start) s (List.replicate k .advance) s' ∧
      s'.point = .idle ∧ I s' := by
  induction hk : remaining start s using Nat.strong_induction_on generalizing s with
  | _ m ih =>
    by_cases hp : s.point = .idle
    · exact ⟨0,s,.start,hp,hs⟩
    · obtain ⟨s₁,hadv,hlt⟩ := advance_remaining start hp
      obtain ⟨k,s₂,hrun,hidle,hi⟩ := ih _ (hk ▸ hlt) s₁ (hI s s₁ hs hadv) rfl
      refine ⟨k+1,s₂,?_,hidle,hi⟩
      have hone : Run (Steps start) (Offered start) s [.advance] s₁ := .single trivial hadv
      exact hone.append hrun

/-- A crash at any moment, also during a recovery, and a recovery that is not
interrupted: the disk and the cache then hold, outside the log, what the store
had last committed. -/
theorem recovery_restores {disk : ℕ → Data} (hd : Sound start (headOf start disk))
    (h : Reached start disk s) :
    ∃ k s', Run (Steps start) (Offered start) (boot s.disk) (List.replicate k .advance) s' ∧
      s'.point = .idle ∧ s'.lh.n = 0 ∧
      ∀ b, Home start b → s'.disk b = recovered start s.disk b ∧
        s'.view b = recovered start s.disk b := by
  obtain ⟨a,hsim,-⟩ := reached_sim hd h
  have hboot := sim_boot s.disk (recovered start s.disk) hsim.head fun _ _ => rfl
  obtain ⟨k,s',hrun,hidle,hsim'⟩ := advance_settles
    (I := fun t => Sim start t (stored start s.disk)) (fun t t' ht hadv => by
      rcases sim_advance ht hadv with ht'|⟨ht',-⟩
      · exact ht'
      · exact ht') _ hboot
  have hz : s'.outstanding = 0 := hsim'.active.symm
  have hn := hsim'.quiet hidle hz
  have hhead := hsim'.disk
  have hvol := hsim'.volatile
  rw [hidle] at hhead hvol
  refine ⟨k,s',hrun,hidle,hn,fun b hb => ⟨?_,(hvol b hb).symm⟩⟩
  have hdur := hsim'.durable b hb
  rw [recovered_empty hhead] at hdur
  exact hdur.symm

theorem recovery_restores_torn :
    ∃ k s', Run (Steps 2) (Offered 2) (boot (lastState (step 2) (boot zeroed) torn).disk)
      (List.replicate k .advance) s' ∧ s'.point = .idle ∧ s'.disk 101 0 = 8 := by
  obtain ⟨k,s',hrun,hidle,-,hdisk⟩ := recovery_restores (sound_empty rfl) torn_run.reach
  refine ⟨k,s',hrun,hidle,?_⟩
  rw [(hdisk 101 (by decide)).1]
  decide +kernel

def Label.ends : Label → Bool
  | .endOp _ => true
  | .advance => true
  | _ => false

end Steps

end ListlibSyscalls.LogRecovery
