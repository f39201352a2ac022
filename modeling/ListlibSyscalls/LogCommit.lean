import ListlibSyscalls.LogInvariant

/-!
# Commit and recovery, one disk write at a time

Every action of `commit` and of `recover_from_log` keeps the simulation with the
abstract store; the first header write of a commit is the store's commit.
-/

set_option autoImplicit false

namespace ListlibSyscalls.LogCommit
open StepRuns CrashRecovery LogMachine LogInvariant

variable {start : ℕ} {s : State} {a : Store ℕ Data}

theorem goto_view (s : State) (pt : Point) (x : ℕ) : (s.goto pt).view x = s.view x := rfl

theorem sim_goto (h : Sim start s a) (pt : Point) (hr : pt.recovering = s.point.recovering)
    (hf : Point.first pt s.lh.n = Point.first s.point s.lh.n) (hat : At start s pt)
    (hc : Point.inCommit pt = Point.inCommit s.point) (hne : s.point ≠ .idle) (hpt : pt ≠ .idle) :
    Sim start (s.goto pt) a := by
  have hpend : ∀ x, Pending (s.goto pt) x ↔ Pending s x := by
    intro x
    simp only [Pending,State.goto,hf]
  exact
    { active := h.active
      durable := h.durable
      volatile := fun b hb => by
        rw [h.volatile b hb,goto_view]
        exact congrArg (fun r : Bool => if r then a.durable b else s.view b) hr.symm
      sound := h.sound
      clean := fun b hb => h.clean b (mt (hpend b).mpr hb)
      pinned := fun b hb => h.pinned b ((hpend b).mp hb)
      disk := at_congr s (s.goto pt) rfl rfl (fun _ => rfl) pt hat
      committing := h.committing.trans hc.symm
      alone := fun _ => h.alone hne
      quiet := fun hi => absurd hi hpt }

theorem sim_commit (h : Sim start s a) (hp : s.point = .commit) :
    Sim start (s.goto (if 0 < s.lh.n then .writeLog 0 else .finish)) a := by
  have hd := h.disk
  rw [hp] at hd
  have hne : s.point ≠ .idle := by
    rw [hp]
    decide
  split
  · apply sim_goto h _ _ _ _ _ hne
    · decide
    · rw [hp]; rfl
    · rw [hp]; rfl
    · exact ⟨hd,Nat.zero_le _,fun i hi => absurd hi (Nat.not_lt_zero i)⟩
    · rw [hp]; rfl
  · next hn =>
    apply sim_goto h _ _ _ _ _ hne
    · decide
    · rw [hp]; rfl
    · rw [hp]; rfl
    · exact ⟨hd,Nat.eq_zero_of_not_pos hn⟩
    · rw [hp]; rfl

/-- Blocks of the log area are not at home, and pending blocks are. -/
theorem Sim.not_pending (h : Sim start s a) {b : ℕ} (hb : ¬ Home start b) : ¬ Pending s b := by
  rintro ⟨i,_,hi,rfl⟩
  exact hb (h.sound.home i hi)

theorem log_not_home {i : ℕ} (hi : i < LOGBLOCKS) : ¬ Home start (start+i+1) := by
  rintro (h|h) <;> omega

theorem head_not_home : ¬ Home start start := by
  rintro (h|h) <;> omega

theorem ne_of_home {b c : ℕ} (hb : Home start b) (hc : ¬ Home start c) : b ≠ c := by
  rintro rfl
  exact hc hb

/-- A block of the log area is written while the header on the disk is empty. -/
theorem sim_log_block (h : Sim start s a) (tail : ℕ) (hp : s.point = .writeLog tail)
    (ht : tail < s.lh.n) :
    Sim start ((bwrite s (start+tail+1) (s.view (s.lh.block tail))).goto (.writeLog (tail+1))) a := by
  have hd := h.disk
  rw [hp] at hd
  obtain ⟨hhead,-,hcopied⟩ := hd
  have hv := h.volatile
  simp only [hp,Point.recovering,Bool.false_eq_true,if_false] at hv
  have hpend : ∀ x, Pending ((bwrite s (start+tail+1) (s.view (s.lh.block tail))).goto
      (.writeLog (tail+1))) x ↔ Pending s x := by
    intro x
    simp only [Pending,State.goto,bwrite,hp,Point.first]
  have hout : ¬ Home start (start+tail+1) := log_not_home (Nat.lt_of_lt_of_le ht h.sound.bound)
  generalize hdata : s.view (s.lh.block tail) = d at *
  have hview : ∀ b, b ≠ start+tail+1 → (bwrite s (start+tail+1) d).view b = s.view b := by
    intro b hb
    rw [bwrite_view,if_neg hb]
  have hdisk : ∀ b, b ≠ start+tail+1 → (bwrite s (start+tail+1) d).disk b = s.disk b :=
    fun b hb => bwrite_disk_ne s d hb
  have hhead' : (headOf start (bwrite s (start+tail+1) d).disk).n = 0 := by
    rw [headOf,hdisk start (by omega)]
    exact hhead
  exact
    { active := h.active
      durable := by
        intro b hb
        show a.durable b = recovered start (bwrite s (start+tail+1) d).disk b
        rw [h.durable b hb,recovered_empty hhead,recovered_empty hhead',
          hdisk b (ne_of_home hb hout)]
      volatile := by
        intro b hb
        rw [goto_view,hview b (ne_of_home hb hout)]
        exact hv b hb
      sound := h.sound
      clean := by
        intro b hb
        show (bwrite s (start+tail+1) d).view b = (bwrite s (start+tail+1) d).disk b
        by_cases hbt : b = start+tail+1
        · rw [bwrite_view,if_pos hbt,hbt,bwrite_disk_self]
        · rw [hview b hbt,hdisk b hbt]
          exact h.clean b (mt (hpend b).mpr hb)
      pinned := fun b hb => h.pinned b ((hpend b).mp hb)
      disk := by
        refine ⟨hhead',ht,fun i hi => ?_⟩
        have hin : i < s.lh.n := Nat.lt_of_lt_of_le hi ht
        show (bwrite s (start+tail+1) d).disk (start+i+1) =
          (bwrite s (start+tail+1) d).view (s.lh.block i)
        rw [hview _ (ne_of_home (h.sound.home i hin) hout)]
        rcases Nat.lt_succ_iff_lt_or_eq.mp hi with hi|rfl
        · rw [hdisk _ (by omega)]
          exact hcopied i hi
        · rw [bwrite_disk_self,hdata]
      committing := h.committing.trans (by rw [hp]; rfl)
      alone := fun _ => h.alone (by simp [hp])
      quiet := fun hi => by cases hi }

theorem store_same (lh : Logheader) (d : Data) : Same (.ofData (lh.store d)) lh where
  n := rfl
  block := by
    intro i hi
    show (if i < lh.n then lh.block i else d (i+1)) = lh.block i
    rw [if_pos hi]

/-- The first header write of a commit: what a recovery would give becomes what
the cache holds. -/
theorem sim_header (h : Sim start s a) (hp : s.point = .writeHead) (d : Data) :
    Sim start ((bwrite s start (s.lh.store d)).goto (.install false 0))
      { a with durable := a.volatile } := by
  have hd := h.disk
  rw [hp] at hd
  obtain ⟨hhead,hcopied⟩ := hd
  have hv := h.volatile
  simp only [hp,Point.recovering,Bool.false_eq_true,if_false] at hv
  have hpend : ∀ x, Pending ((bwrite s start (s.lh.store d)).goto (.install false 0)) x ↔
      Pending s x := by
    intro x
    simp only [Pending,State.goto,bwrite,hp,Point.first]
  have hclean := h.clean
  simp only [Pending,hp,Point.first,Nat.zero_le,true_and] at hclean
  have hsame : Same (headOf start (bwrite s start (s.lh.store d)).disk) s.lh := by
    rw [headOf,bwrite_disk_self]
    exact store_same s.lh d
  generalize s.lh.store d = d' at *
  have hview : ∀ b, b ≠ start → (bwrite s start d').view b = s.view b := by
    intro b hb
    rw [bwrite_view,if_neg hb]
  have hdisk : ∀ b, b ≠ start → (bwrite s start d').disk b = s.disk b :=
    fun b hb => bwrite_disk_ne s d' hb
  have hlog : ∀ i < s.lh.n, (bwrite s start d').disk (start+i+1) =
      (bwrite s start d').view (s.lh.block i) := by
    intro i hi
    rw [hdisk _ (by omega),hview _ (ne_of_home (h.sound.home i hi) head_not_home)]
    exact hcopied i hi
  have hrecovered : ∀ b, Home start b →
      recovered start (bwrite s start d').disk b = s.view b := by
    intro b hb
    by_cases hx : ∃ i < s.lh.n, s.lh.block i = b
    · obtain ⟨i,hi,rfl⟩ := hx
      rw [← hsame.block i hi,recovered_entry (hsame.sound h.sound) (hsame.n ▸ hi),hlog i hi,
        hsame.block i hi,hview _ (ne_of_home hb head_not_home)]
    · rw [recovered_other,hdisk b (ne_of_home hb head_not_home)]
      · exact (hclean b hx).symm
      · intro i hi hbi
        have hi' : i < s.lh.n := hsame.n ▸ hi
        exact hx ⟨i,hi',(hsame.block i hi').symm.trans hbi⟩
  exact
    { active := h.active
      durable := fun b hb => (hv b hb).trans (hrecovered b hb).symm
      volatile := by
        intro b hb
        rw [goto_view,hview b (ne_of_home hb head_not_home)]
        exact hv b hb
      sound := h.sound
      clean := by
        intro b hb
        show (bwrite s start d').view b = (bwrite s start d').disk b
        by_cases hbs : b = start
        · rw [bwrite_view,if_pos hbs,hbs,bwrite_disk_self]
        · rw [hview b hbs,hdisk b hbs]
          exact h.clean b (mt (hpend b).mpr hb)
      pinned := fun b hb => h.pinned b ((hpend b).mp hb)
      disk := ⟨hsame,Nat.zero_le _,fun i hi => absurd hi (Nat.not_lt_zero i),fun _ => hlog⟩
      committing := h.committing.trans (by rw [hp]; rfl)
      alone := fun _ => h.alone (by simp [hp])
      quiet := fun hi => by cases hi }

/-- A committed block is copied home; unless recovering it is unpinned. The data
of the log is, outside recovery, what the cache holds already. -/
theorem sim_home_block (h : Sim start s a) (r : Bool) (tail : ℕ) (hp : s.point = .install r tail)
    (ht : tail < s.lh.n) (s' : State)
    (hs' : s' = if r then bwrite s (s.lh.block tail) (s.view (start+tail+1))
      else bunpin (bwrite s (s.lh.block tail) (s.view (start+tail+1))) (s.lh.block tail)) :
    Sim start (s'.goto (.install r (tail+1))) a := by
  have hd := h.disk
  rw [hp] at hd
  obtain ⟨hsame,-,hinst,hcopied⟩ := hd
  have hhome := h.sound.home tail ht
  have hout : ¬ Home start (start+tail+1) := log_not_home (Nat.lt_of_lt_of_le ht h.sound.bound)
  have hdata : s.view (start+tail+1) = s.disk (start+tail+1) := h.clean _ (Sim.not_pending h hout)
  have hdisk : s'.disk = Function.update s.disk (s.lh.block tail) (s.disk (start+tail+1)) := by
    rw [hs',hdata]
    cases r <;> rfl
  have hview : ∀ b, s'.view b = if b = s.lh.block tail then s.disk (start+tail+1) else s.view b := by
    intro b
    rw [hs',hdata]
    cases r <;> exact bwrite_view s (s.lh.block tail) b _
  have hdisk' : ∀ b, b ≠ s.lh.block tail → s'.disk b = s.disk b := by
    intro b hb
    rw [hdisk,Function.update_of_ne hb]
  have hlh : s'.lh = s.lh := by
    rw [hs']
    cases r <;> rfl
  have hlog : ∀ i < s.lh.n, s'.disk (start+i+1) = s.disk (start+i+1) := by
    intro i hi
    apply hdisk'
    exact (ne_of_home hhome (log_not_home (Nat.lt_of_lt_of_le hi h.sound.bound))).symm
  have hkept : r = false → ∀ b, s'.view b = s.view b := by
    intro hr b
    rw [hview b]
    split
    · next hb => rw [hb,hcopied hr tail ht]
    · rfl
  -- what is still to be installed was so before, and is another block
  have hpend : ∀ b, Pending (s'.goto (.install r (tail+1))) b →
      r = false ∧ Pending s b ∧ b ≠ s.lh.block tail := by
    rintro b ⟨i,hfi,hi,rfl⟩
    simp only [State.goto,hlh] at hfi hi ⊢
    cases r with
    | true =>
      simp only [Point.first] at hfi
      omega
    | false =>
      simp only [Point.first] at hfi
      refine ⟨rfl,⟨i,?_,hi,rfl⟩,fun hb => ?_⟩
      · rw [hp]
        simp only [Point.first]
        omega
      · have := h.sound.distinct i hi tail ht hb
        omega
  have hpend' : ∀ b, Pending s b → b ≠ s.lh.block tail →
      Pending (s'.goto (.install r (tail+1))) b := by
    rintro b ⟨i,hfi,hi,rfl⟩ hb
    rw [hp] at hfi
    refine ⟨i,?_,?_,?_⟩
    · simp only [State.goto,hlh]
      cases r with
      | true => exact hfi
      | false =>
        simp only [Point.first] at hfi ⊢
        have : i ≠ tail := fun h => hb (by rw [h])
        omega
    · simpa only [State.goto,hlh] using hi
    · simp only [State.goto,hlh]
  have hrest : s'.outstanding = s.outstanding ∧ s'.committing = s.committing := by
    rw [hs']
    cases r <;> exact ⟨rfl,rfl⟩
  exact
    { active := h.active.trans hrest.1.symm
      durable := by
        intro b hb
        show a.durable b = recovered start s'.disk b
        rw [hdisk,h.durable b hb,← hsame.block tail ht,
          recovered_install (hsame.sound h.sound) (hsame.n ▸ ht)]
      volatile := by
        intro b hb
        rw [h.volatile b hb,hp,goto_view]
        cases r with
        | true => rfl
        | false => exact (hkept rfl b).symm
      sound := hlh ▸ h.sound
      clean := by
        intro b hb
        rw [goto_view,hview b]
        show _ = s'.disk b
        by_cases hbt : b = s.lh.block tail
        · rw [if_pos hbt,hdisk,hbt,Function.update_self]
        · rw [if_neg hbt,hdisk' b hbt]
          exact h.clean b fun hpb => hb (hpend' b hpb hbt)
      pinned := by
        intro b hb
        obtain ⟨hr,hpb,hbt⟩ := hpend b hb
        have hpins : s'.pins b = s.pins b := by
          rw [hs',hr]
          exact Function.update_of_ne hbt _ _
        show 0 < s'.pins b
        rw [hpins]
        exact h.pinned b hpb
      disk := by
        refine ⟨?_,?_,?_,?_⟩
        · show Same (headOf start s'.disk) s'.lh
          rw [headOf,hdisk' start (ne_of_home hhome head_not_home).symm,hlh]
          exact hsame
        · show tail+1 ≤ s'.lh.n
          rw [hlh]
          exact ht
        · intro i hi
          show s'.disk (s'.lh.block i) = s'.disk (start+i+1)
          rw [hlh,hlog i (by omega)]
          rcases Nat.lt_succ_iff_lt_or_eq.mp hi with hi|rfl
          · rw [hdisk' _ fun hb => by have := h.sound.distinct i (by omega) tail ht hb; omega]
            exact hinst i hi
          · rw [hdisk,Function.update_self]
        · intro hr i hi
          show s'.disk (start+i+1) = s'.view (s'.lh.block i)
          have hi : i < s.lh.n := hlh ▸ hi
          rw [hlh,hlog i hi,hkept hr]
          exact hcopied hr i hi
      committing := hrest.2.trans (h.committing.trans (by rw [hp]; rfl))
      alone := fun _ => hrest.1.trans (h.alone (by simp [hp]))
      quiet := fun hi => by cases hi }

theorem sim_erase (h : Sim start s a) (r : Bool) (hp : s.point = .erase r) (d : Data) :
    Sim start ((bwrite { s with lh := ⟨0,s.lh.block⟩ } start
      (Logheader.store ⟨0,s.lh.block⟩ d)).goto (if r then .idle else .finish)) a := by
  have hd := h.disk
  rw [hp] at hd
  obtain ⟨hsame,hinst⟩ := hd
  have hclean : ∀ b, s.view b = s.disk b := by
    intro b
    apply h.clean
    rintro ⟨i,hf,hi,_⟩
    rw [hp] at hf
    exact absurd hi (Nat.not_lt.mpr hf)
  have hdone : ∀ b, Home start b → a.durable b = s.disk b := by
    intro b hb
    rw [h.durable b hb]
    by_cases hx : ∃ i < s.lh.n, s.lh.block i = b
    · obtain ⟨i,hi,rfl⟩ := hx
      rw [hinst i hi]
      nth_rewrite 1 [← hsame.block i hi]
      exact recovered_entry (hsame.sound h.sound) (hsame.n ▸ hi)
    · apply recovered_other
      intro i hi hbi
      have hi' : i < s.lh.n := hsame.n ▸ hi
      exact hx ⟨i,hi',(hsame.block i hi').symm.trans hbi⟩
  have hvol : ∀ b, Home start b → a.volatile b = s.disk b := by
    intro b hb
    rw [h.volatile b hb,hdone b hb,hclean b,ite_self]
  have hhead : (headOf start (Function.update s.disk start
      (Logheader.store ⟨0,s.lh.block⟩ d))).n = 0 := by
    rw [headOf,Function.update_self]
    rfl
  generalize Logheader.store ⟨0,s.lh.block⟩ d = d' at *
  have hview : ∀ b, ((bwrite { s with lh := ⟨0,s.lh.block⟩ } start d').goto
      (if r then .idle else .finish)).view b = Function.update s.disk start d' b := by
    intro b
    rw [goto_view,bwrite_view]
    by_cases hb : b = start
    · rw [if_pos hb,hb,Function.update_self]
    · rw [if_neg hb,Function.update_of_ne hb]
      exact hclean b
  exact
    { active := h.active
      durable := by
        intro b hb
        rw [hdone b hb]
        show s.disk b = recovered start (Function.update s.disk start d') b
        rw [recovered_empty hhead,Function.update_of_ne (ne_of_home hb head_not_home)]
      volatile := by
        intro b hb
        have hne := ne_of_home hb head_not_home
        rw [hview b,Function.update_of_ne hne,hvol b hb,hdone b hb,ite_self]
      sound := sound_empty rfl
      clean := fun b _ => hview b
      pinned := by
        rintro b ⟨i,_,hi,_⟩
        exact absurd hi (Nat.not_lt_zero i)
      disk := by
        cases r with
        | true => exact hhead
        | false => exact ⟨hhead,rfl⟩
      committing := by
        refine h.committing.trans ?_
        rw [hp]
        cases r <;> rfl
      alone := fun _ => h.alone (by simp [hp])
      quiet := fun _ _ => rfl }

theorem sim_finish (h : Sim start s a) (hp : s.point = .finish) :
    Sim start { s with committing := false,point := .idle } a := by
  have hd := h.disk
  have hv := h.volatile
  have hc := h.clean
  have hpin := h.pinned
  rw [hp] at hd
  simp only [Pending,hp] at hv hc hpin
  exact ⟨h.active,h.durable,hv,h.sound,hc,hpin,hd.1,rfl,fun hi => absurd rfl hi,fun _ _ => hd.2⟩

theorem sim_readHead (h : Sim start s a) (hp : s.point = .readHead) :
    Sim start (({ s with lh := s.lh.load (s.view start) } : State).goto (.install true 0)) a := by
  have hd := h.disk
  rw [hp] at hd
  obtain ⟨hsound,hn⟩ := hd
  have hclean : ∀ b, s.view b = s.disk b := by
    intro b
    apply h.clean
    rintro ⟨i,_,hi,_⟩
    omega
  have hsame : Same (headOf start s.disk) (s.lh.load (s.view start)) := by
    rw [hclean start]
    refine ⟨rfl,fun i hi => ?_⟩
    exact (if_pos hi).symm
  have hload : Sound start (s.lh.load (s.view start)) :=
    Same.sound ⟨hsame.n.symm,fun i hi => (hsame.block i (hsame.n ▸ hi)).symm⟩ hsound
  have hv := h.volatile
  rw [hp] at hv
  exact
    { active := h.active
      durable := h.durable
      volatile := hv
      sound := hload
      clean := fun b _ => hclean b
      pinned := by
        rintro b ⟨i,hf,hi,_⟩
        exact absurd hi (Nat.not_lt.mpr hf)
      disk := ⟨hsame,Nat.zero_le _,fun i hi => absurd hi (Nat.not_lt_zero i),fun hr => by cases hr⟩
      committing := h.committing.trans (by rw [hp]; rfl)
      alone := fun _ => h.alone (by simp [hp])
      quiet := fun hi => by cases hi }

/-- One action keeps the simulation; the store behind it stays, or commits. -/
theorem sim_advance {s' : State} (h : Sim start s a) (hs : advance start s = .ok s') :
    Sim start s' a ∨ (Sim start s' { a with durable := a.volatile } ∧ a.active = 0) := by
  rw [advance] at hs
  cases hp : s.point with
  | idle => rw [hp] at hs; cases hs
  | commit =>
    rw [hp] at hs
    cases hs
    exact .inl (sim_commit h hp)
  | writeLog tail =>
    rw [hp] at hs
    dsimp only at hs
    split at hs
    · next ht =>
      cases hs
      refine .inl ?_
      have hb := sim_bread (sim_bread h (start+tail+1)) (s.lh.block tail)
      exact sim_log_block hb tail hp ht
    · next ht =>
      cases hs
      have hd := h.disk
      rw [hp] at hd
      obtain ⟨hhead,hle,hcopied⟩ := hd
      have htail : tail = s.lh.n := by omega
      refine .inl (sim_goto h .writeHead ?_ ?_ ⟨hhead,htail ▸ hcopied⟩ ?_ ?_ (by simp)) <;> simp [hp]
      · rfl
      · rfl
      · rfl
  | writeHead =>
    rw [hp] at hs
    cases hs
    refine .inr ⟨?_,?_⟩
    · exact sim_header (sim_bread h start) hp _
    · rw [h.active]
      exact h.alone (by simp [hp])
  | install r tail =>
    rw [hp] at hs
    dsimp only at hs
    split at hs
    · next ht =>
      cases hs
      refine .inl ?_
      have hb := sim_bread (sim_bread h (start+tail+1)) (s.lh.block tail)
      exact sim_home_block hb r tail hp ht _ (by cases r <;> rfl)
    · next ht =>
      cases hs
      have hd := h.disk
      rw [hp] at hd
      obtain ⟨hsame,hle,hinst,-⟩ := hd
      have htail : tail = s.lh.n := by omega
      refine .inl (sim_goto h (.erase r) ?_ ?_ ⟨hsame,htail ▸ hinst⟩ ?_ ?_ (by simp))
      · rw [hp]; rfl
      · rw [hp,← htail]; cases r <;> rfl
      · rw [hp]; rfl
      · simp [hp]
  | erase r =>
    rw [hp] at hs
    cases hs
    exact .inl (sim_erase (sim_bread h start) r hp _)
  | finish =>
    rw [hp] at hs
    cases hs
    exact .inl (sim_finish h hp)
  | readHead =>
    rw [hp] at hs
    cases hs
    exact .inl (sim_readHead (sim_bread h start) hp)

end ListlibSyscalls.LogCommit
