import ListlibSyscalls.SieveOutput

/-!
# The pipeline is never stuck

A process can be held up in three ways: by an empty input that its
predecessor may still write to, by a full output, or by a child that is still
running. The last running process is not held up by its child, nor by its
output, which nobody would read any more. If it waits for input, its
predecessor can still write, has an empty pipe in front of it, and so can only
be waiting for input itself; `main` has none to wait for.
-/

set_option autoImplicit false

namespace ListlibSyscalls.SieveProgress
open FilterSieve StepRuns SieveMachine SieveInvariant SievePreserved SieveOutput

variable {c : Config} {F : ℕ → List ℕ} {s : State} {k : ℕ}

/-- The program points between the fork of a process and its `close(p[1])`. -/
def Writing : Pc → Prop
  | .close0 => True
  | .feed _ => True
  | .readNum => True
  | .writeNum _ => True
  | .closeRead => True
  | .close1 => True
  | _ => False

theorem table_writeEnd {a x y : Option File} {fd j : ℕ} (ha : a ≠ some (.writeEnd j))
    (h : table k a x y fd = some (.writeEnd j)) :
    (fd = k+3 ∧ x = some (.writeEnd j)) ∨ (fd = k+4 ∧ y = some (.writeEnd j)) := by
  simp only [table] at h
  split_ifs at h with h1 h2 h3 h4 h5
  · simp at h
  · simp at h
  · exact absurd h ha
  · exact Or.inl ⟨h4,h⟩
  · exact Or.inr ⟨h5,h⟩

theorem tableAt_writeEnd {pc : Pc} {fd j : ℕ} (h : tableAt k pc fd = some (.writeEnd j)) :
    (j = k ∧ (Writing pc ∨ pc = .fork)) ∨ (j = k-1 ∧ pc = .childClose) := by
  have hown : own k ≠ some (.writeEnd j) := by simp [own]
  have hnone : (none : Option File) ≠ some (.writeEnd j) := by simp
  have hsame {i : ℕ} (he : some (File.writeEnd i) = some (.writeEnd j)) : j = i := by simpa using he.symm
  have hread {i : ℕ} (he : some (File.readEnd i) = some (.writeEnd j)) : False := by simp at he
  cases pc <;> rcases table_writeEnd (by first | exact hown | exact hnone) h with ⟨_,he⟩ | ⟨_,he⟩ <;>
    first
    | exact absurd he hnone
    | exact (hread he).elim
    | exact Or.inl ⟨hsame he,Or.inl trivial⟩
    | exact Or.inl ⟨hsame he,Or.inr rfl⟩
    | exact Or.inr ⟨hsame he,rfl⟩

/-- Only the two processes beside a pipe can hold its write end, and the
reader only until its first `close`. -/
theorem holder_cases (hi : Inv c F s) (hk : k < s.nproc) {j : ℕ} (h : s.Holds c k (.writeEnd j)) :
    (k = j ∧ s.Running k ∧ (Writing (s.proc k).pc ∨ (s.proc k).pc = .fork)) ∨
    (k = j+1 ∧ (s.proc k).pc = .childClose) := by
  obtain ⟨fd,_,hfd⟩ := h
  by_cases hl : (s.proc k).life = .running
  · obtain ⟨htab,hv⟩ := hi.placed k hk hl
    rw [htab] at hfd
    rcases tableAt_writeEnd hfd with ⟨hj,hw⟩ | ⟨hj,hpc⟩
    · exact Or.inl ⟨hj.symm,⟨hk,hl⟩,hw⟩
    · simp only [Vars,hpc] at hv
      exact Or.inr ⟨by omega,hpc⟩
  · rw [(hi.buried k hk hl).2] at hfd
    simp at hfd

theorem writing_room (hi : Inv c F s) (hr : s.Running k) (hw : Writing (s.proc k).pc) :
    (s.proc k).ofile (k+4) = some (.writeEnd k) ∧ (s.proc k).p1 = k+4 ∧ k+4 < c.nofile := by
  obtain ⟨htab,hv⟩ := hi.placed k hr.1 hr.2
  rw [htab]
  cases hpc : (s.proc k).pc <;> rw [hpc] at hw <;> simp only [Vars,hpc] at hv <;>
    first | exact absurd hw id | exact ⟨table_second,by omega,by omega⟩

/-- Once the child has closed its copy, the write end of a pipe is held by the
process that created it, until that process closes it, and by no other. -/
theorem sole_writer (hi : Inv c F s) {j : ℕ} (hj : j+1 < s.nproc)
    (hc : (s.proc (j+1)).pc ≠ .childClose) (hk : k < s.nproc) :
    s.Holds c k (.writeEnd j) ↔ k = j ∧ s.Running j ∧ Writing (s.proc j).pc := by
  constructor
  · intro h
    rcases holder_cases hi hk h with ⟨rfl,hr,hw⟩ | ⟨rfl,hw⟩
    · refine ⟨rfl,hr,hw.resolve_right ?_⟩
      intro hf
      have := hi.forked k hj
      rw [hf] at this
      exact this
    · exact absurd hw hc
  · rintro ⟨rfl,hr,hw⟩
    obtain ⟨hfile,_,hroom⟩ := writing_room hi hr hw
    exact ⟨k+4,hroom,hfile⟩

def Able (c : Config) (s : State) (k : ℕ) : Prop := ∃ s', runProc c s k = .ok s'

def Starved (c : Config) (s : State) (j : ℕ) : Prop :=
  j+1 < s.nproc ∧ (s.proc (j+1)).pc ≠ .childClose ∧ s.queue j = [] ∧ s.Open c (.writeEnd j)

theorem piperead_able (f : Option File) : (∃ r, piperead c s f = .ok r) ∨
    ∃ j, f = some (.readEnd j) ∧ s.queue j = [] ∧ s.Open c (.writeEnd j) := by
  rcases f with _ | f
  · exact Or.inl ⟨_,rfl⟩
  · cases f with
    | console => exact Or.inl ⟨_,rfl⟩
    | writeEnd j => exact Or.inl ⟨_,rfl⟩
    | readEnd j =>
      simp only [piperead]
      cases hq : s.queue j with
      | cons x q => exact Or.inl ⟨_,rfl⟩
      | nil =>
        by_cases ho : s.Open c (.writeEnd j)
        · exact Or.inr ⟨j,rfl,hq,ho⟩
        · exact Or.inl ⟨(s,none),by simp [ho]⟩

theorem pipewrite_able (x j : ℕ) : (∃ s₁, pipewrite c s x (some (.writeEnd j)) = .ok s₁) ∨
    (s.queue j).length = c.capacity := by
  by_cases hf : (s.queue j).length = c.capacity
  · exact Or.inr hf
  · left
    by_cases ho : s.Open c (.readEnd j)
    · exact ⟨s.setQueue j (s.queue j ++ [x]),by simp [pipewrite,ho,hf]⟩
    · exact ⟨s,by simp [pipewrite,ho]⟩

theorem read_able (hi : Inv c F s) (hr : s.Running k)
    (hpc : (s.proc k).pc = .readFirst ∨ (s.proc k).pc = .readNum) :
    Able c s k ∨ ∃ j, k = j+1 ∧ Starved c s j := by
  obtain ⟨htab,hv⟩ := hi.placed k hr.1 hr.2
  have hfile : 1 ≤ k ∧ (s.proc k).ofile (s.proc k).readFd = some (.readEnd (k-1)) := by
    rcases hpc with hp | hp
    · simp only [Vars,hp] at hv
      rw [hp] at htab
      exact ⟨hv.1,readFd_file hv.1 hv.2 htab⟩
    · simp only [Vars,hp] at hv
      rw [hp] at htab
      exact ⟨hv.1,readFd_file hv.1 hv.2.1 htab⟩
  rcases piperead_able (c := c) (s := s) ((s.proc k).ofile (s.proc k).readFd) with
    ⟨⟨s₁,o⟩,hread⟩ | ⟨j,hj,hq,ho⟩
  · left
    rcases hpc with hp | hp
    · cases o <;> exact ⟨_,by simp only [runProc,hp,hread]; rfl⟩
    · cases o <;> exact ⟨_,by simp only [runProc,hp,hread]; rfl⟩
  · right
    rw [hfile.2] at hj
    have hjk : k-1 = j := by simpa using hj
    obtain rfl : k = j+1 := by omega
    refine ⟨j,rfl,hr.1,?_,hq,ho⟩
    rcases hpc with hp | hp <;> rw [hp] <;> decide

theorem clean_child (hi : Inv c F s) (hc : Clean s) (hk : k < s.nproc) (hf : Forked (s.proc k).pc)
    (hx : (s.proc k).pc ≠ .exit) : k+1 < s.nproc := by
  by_contra hnot
  have hlast : k+1 = s.nproc := by omega
  have hn := (piped_forked hf hx).mp (hi.piped k hlast)
  rcases hc k hlast with h | h
  · omega
  · rw [h] at hf
    exact hf

theorem wait_able (hi : Inv c F s) (hc : Clean s) (hr : s.Running k)
    (hpc : (s.proc k).pc = .wait) : Able c s k ∨ s.Running (k+1) := by
  have hlt := clean_child hi hc hr.1 (by rw [hpc]; trivial) (by rw [hpc]; decide)
  have ht := hi.tended k hlt
  rw [Tended,hpc,if_neg (by decide)] at ht
  cases hl : (s.proc (k+1)).life with
  | running => exact Or.inr ⟨hlt,hl⟩
  | unused => exact absurd hl ht.1
  | zombie =>
    left
    have hfind : ((List.range s.nproc).find? fun j => IsChild s k j ∧ (s.proc j).life = .zombie) ≠
        none := by
      rw [ne_eq,List.find?_range_eq_none]
      intro hall
      have hno := hall (k+1) hlt
      simp [IsChild,ht.2,hl] at hno
    obtain ⟨j,hj⟩ := Option.ne_none_iff_exists'.mp hfind
    exact ⟨goto (freeproc s j) k .exit,by simp only [runProc,hpc,kwait,hj]; rfl⟩

/-- The three ways in which a process can be held up. -/
theorem able_cases (hi : Inv c F s) (hc : Clean s) (hr : s.Running k)
    (hroom : (s.proc k).pc = .pipe → pipeFds c (s.proc k).ofile s.npipe ≠ none) :
    Able c s k ∨ (∃ j, k = j+1 ∧ Starved c s j) ∨
    (k+1 < s.nproc ∧ (s.queue k).length = c.capacity) ∨
    ((s.proc k).pc = .wait ∧ s.Running (k+1)) := by
  have hwrite (hw : Writing (s.proc k).pc) : k+1 < s.nproc ∧
      (s.proc k).ofile (s.proc k).p1 = some (.writeEnd k) := by
    obtain ⟨hfile,hp1,_⟩ := writing_room hi hr hw
    refine ⟨clean_child hi hc hr.1 ?_ ?_,by rw [hp1]; exact hfile⟩
    · cases hpc : (s.proc k).pc <;> rw [hpc] at hw <;> trivial
    · intro he
      rw [he] at hw
      exact hw
  cases hpc : (s.proc k).pc with
  | pipe =>
    obtain ⟨⟨fd0,fd1⟩,hfd⟩ := Option.ne_none_iff_exists'.mp (hroom hpc)
    exact Or.inl ⟨_,by simp only [runProc,hpc,hfd]; rfl⟩
  | fork => exact Or.inl ⟨_,by simp only [runProc,hpc]; rfl⟩
  | childClose => exact Or.inl ⟨_,by simp only [runProc,hpc]; rfl⟩
  | close0 => exact Or.inl ⟨_,by simp only [runProc,hpc]; rfl⟩
  | feed i =>
    obtain ⟨hlt,hfile⟩ := hwrite (by rw [hpc]; trivial)
    by_cases hb : i ≤ c.bound
    · rcases pipewrite_able (c := c) (s := s) i k with ⟨s₁,hw⟩ | hf
      · exact Or.inl ⟨goto s₁ k (.feed (i+1)),by simp only [runProc,hpc,if_pos hb,hfile,hw]; rfl⟩
      · exact Or.inr (Or.inr (Or.inl ⟨hlt,hf⟩))
    · exact Or.inl ⟨_,by simp only [runProc,hpc,if_neg hb]; rfl⟩
  | readFirst =>
    rcases read_able hi hr (Or.inl hpc) with h | h
    · exact Or.inl h
    · exact Or.inr (Or.inl h)
  | closeEmpty => exact Or.inl ⟨_,by simp only [runProc,hpc]; rfl⟩
  | print rest => cases rest <;> exact Or.inl ⟨_,by simp only [runProc,hpc]; rfl⟩
  | readNum =>
    rcases read_able hi hr (Or.inr hpc) with h | h
    · exact Or.inl h
    · exact Or.inr (Or.inl h)
  | writeNum x =>
    obtain ⟨hlt,hfile⟩ := hwrite (by rw [hpc]; trivial)
    rcases pipewrite_able (c := c) (s := s) x k with ⟨s₁,hw⟩ | hf
    · exact Or.inl ⟨goto s₁ k .readNum,by simp only [runProc,hpc,hfile,hw]; rfl⟩
    · exact Or.inr (Or.inr (Or.inl ⟨hlt,hf⟩))
  | closeRead => exact Or.inl ⟨_,by simp only [runProc,hpc]; rfl⟩
  | close1 => exact Or.inl ⟨_,by simp only [runProc,hpc]; rfl⟩
  | wait =>
    rcases wait_able hi hc hr hpc with h | h
    · exact Or.inl h
    · exact Or.inr (Or.inr (Or.inr ⟨rfl,h⟩))
  | exit => exact Or.inl ⟨_,by simp only [runProc,hpc]; rfl⟩

def Roomy (c : Config) (s : State) : Prop :=
  ∀ k < s.nproc, (s.proc k).life = .running → (s.proc k).pc = .pipe →
    pipeFds c (s.proc k).ofile s.npipe ≠ none

instance (c : Config) (s : State) : Decidable (Roomy c s) :=
  inferInstanceAs (Decidable (∀ k < s.nproc, _))

theorem starved_able (hcap : 0 < c.capacity) (hi : Inv c F s) (hc : Clean s) (hroom : Roomy c s)
    (j : ℕ) (hs : Starved c s j) : ∃ k, s.Running k ∧ Able c s k := by
  induction j using Nat.strong_induction_on with
  | _ j ih =>
    obtain ⟨hj,hchild,hq,i,hin,hh⟩ := hs
    obtain ⟨rfl,hr,hw⟩ := (sole_writer hi hj hchild hin).mp hh
    rcases able_cases hi hc hr (hroom i hr.1 hr.2) with h | ⟨j,he,hst⟩ | ⟨_,hf⟩ | ⟨hp,_⟩
    · exact ⟨i,hr,h⟩
    · exact ih j (by omega) hst
    · rw [hq] at hf
      simp only [List.length_nil] at hf
      omega
    · rw [hp] at hw
      exact absurd hw id

/-- As long as `main` has not exited some process can go on, and the write end
of every pipe is held by its writer alone once the reader has closed its copy. -/
theorem pipeline_never_stuck (c : Config) (hcap : 0 < c.capacity) (s : State)
    (hr : CleanlyReached c s) :
    (Roomy c s → ¬ Exited s 0 → ∃ k s', Turns c s (.run k) s') ∧
    ∀ j, j+1 < s.nproc → (s.proc (j+1)).pc ≠ .childClose → ∀ k < s.nproc,
      (s.Holds c k (.writeEnd j) ↔ k = j ∧ s.Running j ∧ Writing (s.proc j).pc) := by
  obtain ⟨⟨F,hi⟩,hc⟩ := cleanlyReached_inv hr
  refine ⟨?_,fun j hj hchild k hk => sole_writer hi hj hchild hk⟩
  intro hroom h0
  have hmain : s.Running 0 := ⟨hi.main,not_not.mp h0⟩
  have hable : ∃ k, s.Running k ∧ Able c s k := by
    -- the last process that is still running
    let k := Nat.findGreatest s.Running s.nproc
    have hk : s.Running k := Nat.findGreatest_spec (Nat.zero_le _) hmain
    have hlater : ¬ s.Running (k+1) := by
      intro h
      exact Nat.findGreatest_is_greatest (Nat.lt_succ_self k) (le_of_lt h.1) h
    rcases able_cases hi hc hk (hroom k hk.1 hk.2) with h | ⟨j,_,hst⟩ | ⟨hlt,hf⟩ | ⟨_,h⟩
    · exact ⟨k,hk,h⟩
    · exact starved_able hcap hi hc hroom j hst
    · have hdead : (s.proc (k+1)).life ≠ .running := fun h => hlater ⟨hlt,h⟩
      have hflow := hi.flow k hlt
      rw [SieveFlow,(hi.buried (k+1) hlt hdead).1] at hflow
      rw [(List.append_eq_nil_iff.mp hflow.1).1] at hf
      simp only [List.length_nil] at hf
      omega
    · exact absurd h hlater
  obtain ⟨k,hk,s',hs⟩ := hable
  refine ⟨k,s',?_⟩
  show step c s (.run k) = .ok s'
  rw [step,if_pos hk]
  exact hs

/-- The run for 2 and 3 while the second filter prints its line. -/
def midway : State := lastState (step (xv6 3 three_lt)) start (schedule.take 30)

theorem pipeline_never_stuck_midway : CleanlyReached (xv6 3 three_lt) midway ∧ midway.nproc = 3 ∧
    ∃ k s', Turns (xv6 3 three_lt) midway (.run k) s' := by
  have hr : CleanlyReached (xv6 3 three_lt) midway :=
    Reach.start.lastState (schedule.take 30) start (by decide +kernel)
  exact ⟨hr,by decide +kernel,(pipeline_never_stuck (xv6 3 three_lt) (by decide) midway hr).1
    (by decide +kernel) (by decide +kernel)⟩

end ListlibSyscalls.SieveProgress
