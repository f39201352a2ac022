import ListlibSyscalls.SieveMachine

/-!
# The invariant of the sieve

Process `k+1` is the only child of process `k` and reads from the pipe that
process `k` has created. In every state its descriptor table is determined by
its program point: besides the three standard descriptors it holds the read
ends of all earlier pipes, which it has inherited, and its share of its own
pipe. `F k` is what process `k` is still going to write. What is in pipe `k`
followed by `F k` is all that process `k+1` is still going to receive, and
the program point of process `k+1` relates that to `F (k+1)`. The last
process is the only one that prints.
-/

set_option autoImplicit false

namespace ListlibSyscalls.SieveInvariant
open FilterSieve StepRuns SieveMachine

/-- The table of process `k`: standard descriptors, inherited read ends, its
own input, and its two descriptors for the next pipe. -/
def table (k : ℕ) (own x y : Option File) (fd : ℕ) : Option File :=
  if fd < 3 then some .console
  else if fd < k+2 then some (.readEnd (fd-3))
  else if fd = k+2 then own
  else if fd = k+3 then x
  else if fd = k+4 then y
  else none

def own (k : ℕ) : Option File := some (.readEnd (k-1))

def tableAt (k : ℕ) : Pc → ℕ → Option File
  | .childClose => table k (own k) (some (.writeEnd (k-1))) none
  | .pipe => table k (own k) none none
  | .readFirst => table k (own k) none none
  | .closeEmpty => table k (own k) none none
  | .print _ => table k (own k) none none
  | .fork => table k (own k) (some (.readEnd k)) (some (.writeEnd k))
  | .close0 => table k (own k) (some (.readEnd k)) (some (.writeEnd k))
  | .feed _ => table k (own k) none (some (.writeEnd k))
  | .readNum => table k (own k) none (some (.writeEnd k))
  | .writeNum _ => table k (own k) none (some (.writeEnd k))
  | .closeRead => table k (own k) none (some (.writeEnd k))
  | .close1 => table k none none (some (.writeEnd k))
  | .wait => table k none none none
  | .exit => table k none none none

section Table

variable {k : ℕ} {a x y : Option File}

@[simp] theorem table_own (hk : 1 ≤ k) : table k a x y (k+2) = a := by
  simp [table]
  omega

@[simp] theorem table_first : table k a x y (k+3) = x := by
  simp [table]

@[simp] theorem table_second : table k a x y (k+4) = y := by
  simp [table]

theorem table_console : table k a x y 1 = some .console := by
  simp [table]

theorem table_close_own (hk : 1 ≤ k) : Function.update (table k a x y) (k+2) none = table k none x y := by
  funext fd
  simp only [Function.update_apply,table]
  split_ifs <;> first | rfl | omega

theorem table_set_first (b : Option File) :
    Function.update (table k a x y) (k+3) b = table k a b y := by
  funext fd
  simp only [Function.update_apply,table]
  split_ifs <;> first | rfl | omega

theorem table_set_second (b : Option File) :
    Function.update (table k a x y) (k+4) b = table k a x b := by
  funext fd
  simp only [Function.update_apply,table]
  split_ifs <;> first | rfl | omega

/-- The table a child starts from, seen as its own. -/
theorem table_inherited : table k (own k) (some (.readEnd k)) y =
    table (k+1) (own (k+1)) y none := by
  funext fd
  simp only [table,own]
  split_ifs <;> first | rfl | omega | (congr 2; omega)

end Table

/-- `main` is process 0; the others run `sieve` on the descriptor before their pipe. -/
def Role (k : ℕ) (P : Proc) : Prop :=
  (k = 0 ∧ P.body = .main) ∨ (1 ≤ k ∧ P.body = .sieve ∧ P.readFd = k+2)

/-- The values of the program's variables that its later calls use. -/
def Vars (c : Config) (k : ℕ) (P : Proc) : Prop :=
  match P.pc with
  | .childClose => 1 ≤ k ∧ P.p0 = k+2 ∧ P.p1 = k+3
  | .pipe => Role k P
  | .readFirst => 1 ≤ k ∧ Role k P
  | .closeEmpty => 1 ≤ k ∧ Role k P
  | .print _ => 1 ≤ k ∧ Role k P
  | .fork => Role k P ∧ P.p0 = k+3 ∧ P.p1 = k+4 ∧ k+4 < c.nofile
  | .close0 => Role k P ∧ P.p0 = k+3 ∧ P.p1 = k+4 ∧ k+4 < c.nofile
  | .feed _ => k = 0 ∧ P.p1 = k+4 ∧ k+4 < c.nofile
  | .readNum => 1 ≤ k ∧ Role k P ∧ P.p1 = k+4 ∧ k+4 < c.nofile
  | .writeNum _ => 1 ≤ k ∧ Role k P ∧ P.p1 = k+4 ∧ k+4 < c.nofile
  | .closeRead => 1 ≤ k ∧ Role k P ∧ P.p1 = k+4 ∧ k+4 < c.nofile
  | .close1 => 1 ≤ k ∧ P.p1 = k+4 ∧ k+4 < c.nofile
  | .wait => True
  | .exit => True

def Placed (c : Config) (k : ℕ) (P : Proc) : Prop := P.ofile = tableAt k P.pc ∧ Vars c k P

/-- What `main` is still going to write. -/
def MainFlow (n : ℕ) (P : Proc) (out : List ℕ) : Prop :=
  match P.pc with
  | .pipe => out = upFrom n 2
  | .fork => out = upFrom n 2
  | .close0 => out = upFrom n 2
  | .feed i => out = upFrom n i
  | .wait => out = []
  | .exit => out = []
  | _ => False

/-- What a sieve process behind `j` filters is still going to write, given
what it is still going to receive. -/
def SieveFlow (n j : ℕ) (P : Proc) (inp out : List ℕ) : Prop :=
  match P.pc with
  | .childClose => inp = layer (upFrom n 2) j ∧ out = layer (upFrom n 2) (j+1)
  | .readFirst => inp = layer (upFrom n 2) j ∧ out = layer (upFrom n 2) (j+1)
  | .print _ => P.prime::inp = layer (upFrom n 2) j ∧ out = layer (upFrom n 2) (j+1)
  | .pipe => P.prime::inp = layer (upFrom n 2) j ∧ out = layer (upFrom n 2) (j+1)
  | .fork => P.prime::inp = layer (upFrom n 2) j ∧ out = layer (upFrom n 2) (j+1)
  | .close0 => out = passed (P.prime::inp)
  | .readNum => out = passed (P.prime::inp)
  | .writeNum x => out = x::passed (P.prime::inp)
  | .feed _ => False
  | _ => inp = [] ∧ out = []

def Forked : Pc → Prop
  | .close0 => True
  | .feed _ => True
  | .readNum => True
  | .writeNum _ => True
  | .closeRead => True
  | .close1 => True
  | .wait => True
  | .exit => True
  | _ => False

/-- A process has its child until it has waited for it. -/
def Tended (j : ℕ) (P C : Proc) : Prop :=
  if P.pc = .exit then C.life = .unused ∧ C.parent = none
  else C.life ≠ .unused ∧ C.parent = some j

/-- The number of pipes, by the program point of the last process `m`. -/
def Piped (n m : ℕ) (q : List ℕ) : Pc → Prop
  | .childClose => n = m
  | .readFirst => n = m
  | .closeEmpty => n = m
  | .print _ => n = m
  | .pipe => n = m
  | .fork => n = m+1 ∧ q = []
  | .exit => n = m ∨ n = m+1
  | _ => n = m+1

def text (ps : List ℕ) : List Char := ps.flatMap line

def unprinted (xs : List ℕ) (m : ℕ) : Pc → List Char
  | .childClose => text (kept (layer xs (m-1)))
  | .readFirst => text (kept (layer xs (m-1)))
  | .print rest => rest ++ text (kept (layer xs m))
  | .pipe => text (kept (layer xs m))
  | .fork => text (kept (layer xs m))
  | _ => []

structure Core (c : Config) (F : ℕ → List ℕ) (s : State) : Prop where
  main : 0 < s.nproc
  placed : ∀ k < s.nproc, (s.proc k).life = .running → Placed c k (s.proc k)
  buried : ∀ k < s.nproc, (s.proc k).life ≠ .running →
    (s.proc k).pc = .exit ∧ (s.proc k).ofile = fun _ => none
  flow_main : MainFlow c.bound (s.proc 0) (F 0)
  flow : ∀ j, j+1 < s.nproc →
    SieveFlow c.bound j (s.proc (j+1)) (s.queue j ++ F j) (F (j+1))
  forked : ∀ j, j+1 < s.nproc → Forked (s.proc j).pc
  piped : ∀ m, m+1 = s.nproc → Piped s.npipe m (s.queue m) (s.proc m).pc
  printed : ∀ m, m+1 = s.nproc → (s.npipe = m ∨ (s.proc m).pc = .fork) →
    s.out ++ unprinted (upFrom c.bound 2) m (s.proc m).pc = text (kept (upFrom c.bound 2))

structure Inv (c : Config) (F : ℕ → List ℕ) (s : State) : Prop extends Core c F s where
  tended : ∀ j, j+1 < s.nproc → Tended j (s.proc j) (s.proc (j+1))
  parents : ∀ i j, (s.proc i).parent = some j → i = j+1 ∧ i < s.nproc

theorem start_inv (c : Config) : Inv c (fun _ => upFrom c.bound 2) start := by
  have hone {k : ℕ} (hk : k < start.nproc) : k = 0 := by simpa [start] using hk
  have hnone {j : ℕ} (hj : j+1 < start.nproc) : False := by
    have := hone hj
    omega
  have hlast {m : ℕ} (hm : m+1 = start.nproc) : m = 0 := by simpa [start] using hm
  refine ⟨⟨by decide,?_,?_,rfl,fun j hj => (hnone hj).elim,fun j hj => (hnone hj).elim,?_,?_⟩,
    fun j hj => (hnone hj).elim,?_⟩
  · intro k hk _
    obtain rfl := hone hk
    refine ⟨?_,Or.inl ⟨rfl,rfl⟩⟩
    funext fd
    simp only [start,tableAt,table]
    split_ifs <;> first | rfl | omega
  · intro k _ hl
    exact absurd rfl hl
  · intro m hm
    obtain rfl := hlast hm
    rfl
  · intro m hm _
    obtain rfl := hlast hm
    rfl
  · intro i j hp
    simp [start] at hp

/-- No process is behind a fork without a child: either the last one has not
created its pipe, or it is about to fork. -/
def Clean (s : State) : Prop := ∀ m, m+1 = s.nproc → s.npipe = m ∨ (s.proc m).pc = .fork

namespace Inv

variable {c : Config} {F : ℕ → List ℕ} {s : State} {k : ℕ}

theorem last (hi : Inv c F s) (hk : k < s.nproc) (hf : ¬ Forked (s.proc k).pc) :
    k+1 = s.nproc := by
  by_contra hne
  exact hf (hi.forked k (by omega))

end Inv

/-- A call that rewrites its own process, its input and its output only. -/
structure Moves (c : Config) (F G : ℕ → List ℕ) (s : State) (k : ℕ) (P : Proc)
    (Q : ℕ → List ℕ) (out : List Char) (n : ℕ) : Prop where
  forked : Forked (s.proc k).pc → Forked P.pc
  piped : k+1 = s.nproc → Piped s.npipe k (s.queue k) (s.proc k).pc → Piped n k (Q k) P.pc
  count : k+1 < s.nproc → n = s.npipe
  printed : (k+1 = s.nproc → n = k ∨ P.pc = .fork → (s.npipe = k ∨ (s.proc k).pc = .fork) ∧
    out ++ unprinted (upFrom c.bound 2) k P.pc =
      s.out ++ unprinted (upFrom c.bound 2) k (s.proc k).pc) ∧ (k+1 < s.nproc → out = s.out)
  placed : P.life = .running → Placed c k P
  buried : P.life ≠ .running → P.pc = .exit ∧ P.ofile = fun _ => none
  queues : ∀ j, j ≠ k → j+1 ≠ k → Q j = s.queue j
  outputs : ∀ j, j ≠ k → G j = F j
  feeds : k+1 < s.nproc → Q k ++ G k = s.queue k ++ F k
  flow_main : k = 0 → MainFlow c.bound P (G 0)
  flow : ∀ j, k = j+1 → SieveFlow c.bound j P (Q j ++ F j) (G (j+1))

section Moves

variable {c : Config} {F G : ℕ → List ℕ} {s : State} {k : ℕ} {P : Proc} {Q : ℕ → List ℕ}
  {out : List Char} {n : ℕ}

theorem Moves.core (hi : Core c F s) (hk : k < s.nproc) (h : Moves c F G s k P Q out n) :
    Core c G { s with
      proc := Function.update s.proc k P
      queue := Q
      out := out
      npipe := n } := by
  have hself : Function.update s.proc k P k = P := Function.update_self _ _ _
  have hother {j : ℕ} (hj : j ≠ k) : Function.update s.proc k P j = s.proc j :=
    Function.update_of_ne hj _ _
  constructor
  · exact hi.main
  · intro j hj hl
    dsimp only at hl ⊢
    by_cases hjk : j = k
    · subst hjk
      rw [hself] at hl ⊢
      exact h.placed hl
    · rw [hother hjk] at hl ⊢
      exact hi.placed j hj hl
  · intro j hj hl
    dsimp only at hl ⊢
    by_cases hjk : j = k
    · subst hjk
      rw [hself] at hl ⊢
      exact h.buried hl
    · rw [hother hjk] at hl ⊢
      exact hi.buried j hj hl
  · dsimp only
    by_cases h0 : 0 = k
    · subst h0
      rw [hself]
      exact h.flow_main rfl
    · rw [hother h0,h.outputs 0 h0]
      exact hi.flow_main
  · intro j hj
    dsimp only
    by_cases hjk : j+1 = k
    · subst hjk
      rw [hself,h.outputs j (by omega)]
      exact h.flow j rfl
    · rw [hother hjk,h.outputs (j+1) hjk]
      by_cases he : j = k
      · subst he
        rw [h.feeds hj]
        exact hi.flow j hj
      · rw [h.queues j he hjk,h.outputs j he]
        exact hi.flow j hj
  · intro j hj
    dsimp only
    by_cases hjk : j = k
    · subst hjk
      rw [hself]
      exact h.forked (hi.forked j hj)
    · rw [hother hjk]
      exact hi.forked j hj
  · intro m hm
    have hpm := hi.piped m hm
    dsimp only at hm ⊢
    by_cases hmk : m = k
    · subst hmk
      rw [hself]
      exact h.piped hm hpm
    · rw [hother hmk,h.queues m hmk (by omega),h.count (by omega)]
      exact hpm
  · intro m hm hc
    dsimp only at hm hc ⊢
    by_cases hmk : m = k
    · subst hmk
      rw [hself] at hc ⊢
      obtain ⟨hc',he⟩ := h.printed.1 hm hc
      rw [he]
      exact hi.printed m hm hc'
    · rw [hother hmk,h.count (by omega)] at hc
      rw [hother hmk,h.printed.2 (by omega)]
      exact hi.printed m hm hc

/-- The process tree only sees whether a process is at its exit, and the life
and parent of its child. -/
theorem tended_congr {j : ℕ} {P P' C C' : Proc} (hx : P'.pc = .exit ↔ P.pc = .exit)
    (hl : C'.life = .unused ↔ C.life = .unused) (hp : C'.parent = C.parent)
    (h : Tended j P C) : Tended j P' C' := by
  simp only [Tended,hx,hl,hp,ne_eq] at h ⊢
  exact h

theorem Inv.tree (hi : Inv c F s) (hp : P.parent = (s.proc k).parent)
    (hl : P.life = .unused ↔ (s.proc k).life = .unused)
    (hx : k+1 < s.nproc → (P.pc = .exit ↔ (s.proc k).pc = .exit)) :
    (∀ j, j+1 < s.nproc → Tended j (Function.update s.proc k P j) (Function.update s.proc k P (j+1))) ∧
    ∀ i j, (Function.update s.proc k P i).parent = some j → i = j+1 ∧ i < s.nproc := by
  have hself : Function.update s.proc k P k = P := Function.update_self _ _ _
  have hother {j : ℕ} (hj : j ≠ k) : Function.update s.proc k P j = s.proc j :=
    Function.update_of_ne hj _ _
  constructor
  · intro j hj
    by_cases hjk : j = k
    · subst hjk
      rw [hself,hother (by omega)]
      exact tended_congr (hx hj) Iff.rfl rfl (hi.tended j hj)
    · rw [hother hjk]
      by_cases hck : j+1 = k
      · subst hck
        rw [hself]
        exact tended_congr Iff.rfl hl hp (hi.tended j hj)
      · rw [hother hck]
        exact hi.tended j hj
  · intro i j hij
    by_cases hik : i = k
    · subst hik
      rw [hself,hp] at hij
      exact hi.parents i j hij
    · rw [hother hik] at hij
      exact hi.parents i j hij

/-- A call that neither ends the process nor has to do with the process tree. -/
structure Local (c : Config) (F G : ℕ → List ℕ) (s : State) (k : ℕ) (P : Proc)
    (Q : ℕ → List ℕ) (out : List Char) (n : ℕ) : Prop extends Moves c F G s k P Q out n where
  life : P.life = .running
  parent : P.parent = (s.proc k).parent
  stays : Forked (s.proc k).pc → P.pc ≠ .exit ∧ (s.proc k).pc ≠ .exit

theorem Local.inv (hi : Inv c F s) (hr : s.Running k) (h : Local c F G s k P Q out n) :
    Inv c G { s with
      proc := Function.update s.proc k P
      queue := Q
      out := out
      npipe := n } := by
  have hx (hk : k+1 < s.nproc) : P.pc = .exit ↔ (s.proc k).pc = .exit := by
    obtain ⟨h1,h2⟩ := h.stays (hi.forked k hk)
    exact iff_of_false h1 h2
  obtain ⟨ht,hp⟩ := hi.tree h.parent (by simp [h.life,hr.2]) hx
  exact ⟨h.core hi.toCore hr.1,ht,hp⟩

end Moves

theorem piped_forked {n m : ℕ} {q : List ℕ} {pc : Pc} (hf : Forked pc) (hx : pc ≠ .exit) :
    Piped n m q pc ↔ n = m+1 := by
  cases pc <;> first | exact Iff.rfl | exact absurd rfl hx | exact absurd hf id

theorem piped_early {n m : ℕ} {q : List ℕ} {pc : Pc} (hf : ¬ Forked pc) (hx : pc ≠ .fork) :
    Piped n m q pc ↔ n = m := by
  cases pc <;> first | exact Iff.rfl | exact absurd rfl hx | exact absurd trivial hf

def Keeps (c : Config) (s s' : State) : Prop :=
  (∃ F, Inv c F s') ∧ (Clean s → Clean s')

section Moves

variable {c : Config} {F G : ℕ → List ℕ} {s : State} {k : ℕ} {P : Proc} {Q : ℕ → List ℕ}
  {out : List Char}

theorem clean_congr {s' : State} (hn : s'.nproc = s.nproc) (hp : s'.npipe = s.npipe)
    (hk : (s.proc k).pc ≠ .fork) (hm : ∀ m, m ≠ k → (s'.proc m).pc = (s.proc m).pc)
    (hc : Clean s) : Clean s' := by
  intro m hlast
  rw [hn] at hlast
  rw [hp]
  rcases hc m hlast with h | h
  · exact Or.inl h
  · have hmk : m ≠ k := fun e => hk (e ▸ h)
    exact Or.inr ((hm m hmk).trans h)

theorem Local.keeps (hi : Inv c F s) (hr : s.Running k) (h : Local c F G s k P Q out s.npipe)
    (hp : (s.proc k).pc ≠ .fork) :
    Keeps c s { s with proc := Function.update s.proc k P, queue := Q, out := out } := by
  refine ⟨⟨G,h.inv hi hr⟩,clean_congr (k := k) ?_ ?_ hp ?_⟩
  · rfl
  · rfl
  · intro m hm
    dsimp only
    rw [Function.update_of_ne hm]

theorem Local.of_forked (hf : Forked (s.proc k).pc) (hx : (s.proc k).pc ≠ .exit)
    (hl : P.life = .running) (hp : P.parent = (s.proc k).parent) (hf' : Forked P.pc)
    (hx' : P.pc ≠ .exit) (hi : Inv c F s) (placed : Placed c k P)
    (queues : ∀ j, j ≠ k → j+1 ≠ k → Q j = s.queue j) (outputs : ∀ j, j ≠ k → G j = F j)
    (feeds : k+1 < s.nproc → Q k ++ G k = s.queue k ++ F k)
    (flow_main : k = 0 → MainFlow c.bound P (G 0))
    (flow : ∀ j, k = j+1 → SieveFlow c.bound j P (Q j ++ F j) (G (j+1))) :
    Local c F G s k P Q s.out s.npipe := by
  refine ⟨⟨fun _ => hf',?_,fun _ => rfl,⟨?_,fun _ => rfl⟩,fun _ => placed,fun h => absurd hl h,
    queues,outputs,feeds,flow_main,flow⟩,hl,hp,fun _ => ⟨hx',hx⟩⟩
  · intro _ hn
    exact (piped_forked hf' hx').mpr ((piped_forked hf hx).mp hn)
  · intro hm hc
    have hn := (piped_forked hf hx).mp (hi.piped k hm)
    rcases hc with hc | hc
    · omega
    · rw [hc] at hf'
      exact absurd hf' id

theorem Local.of_early (hf : ¬ Forked (s.proc k).pc) (hx : (s.proc k).pc ≠ .fork)
    (hl : P.life = .running) (hp : P.parent = (s.proc k).parent)
    (hpc : ¬ Forked P.pc ∧ P.pc ≠ .fork ∨ P.pc = .exit) (hi : Inv c F s) (hk : k < s.nproc)
    (hout : out ++ unprinted (upFrom c.bound 2) k P.pc =
      s.out ++ unprinted (upFrom c.bound 2) k (s.proc k).pc)
    (placed : Placed c k P) (hk1 : 1 ≤ k)
    (queues : ∀ j, j ≠ k → j+1 ≠ k → Q j = s.queue j)
    (flow : ∀ j, k = j+1 → SieveFlow c.bound j P (Q j ++ F j) (F (j+1))) :
    Local c F F s k P Q out s.npipe := by
  have hlast := hi.last hk hf
  have hn := (piped_early hf hx).mp (hi.piped k hlast)
  refine ⟨⟨fun h => absurd h hf,?_,fun _ => rfl,⟨fun _ _ => ⟨Or.inl hn,hout⟩,fun h => by omega⟩,
    fun _ => placed,fun h => absurd hl h,queues,fun _ _ => rfl,fun h => by omega,
    fun h => by omega,flow⟩,hl,hp,fun h => absurd h hf⟩
  intro _ _
  rcases hpc with ⟨hf',hx'⟩ | he
  · exact (piped_early hf' hx').mpr hn
  · rw [he]
    exact Or.inl hn

end Moves

namespace Inv

variable {c : Config} {F : ℕ → List ℕ} {s : State} {k : ℕ}

theorem written (hi : Inv c F s) {j : ℕ} (hj : j < s.nproc) (hf : Forked (s.proc j).pc)
    (hw : (s.proc j).life = .running → (s.proc j).ofile (j+4) ≠ some (.writeEnd j)) : F j = [] := by
  have hpc : (s.proc j).pc = .wait ∨ (s.proc j).pc = .exit := by
    by_cases hl : (s.proc j).life = .running
    · have hh := hw hl
      rw [(hi.placed j hj hl).1] at hh
      cases hp : (s.proc j).pc <;> rw [hp] at hf hh <;>
        first | exact Or.inl rfl | exact Or.inr rfl | exact absurd hf id | exact absurd table_second hh
    · exact Or.inr (hi.buried j hj hl).1
  cases j with
  | zero =>
    have hm := hi.flow_main
    rcases hpc with hp | hp <;> rw [MainFlow,hp] at hm <;> exact hm
  | succ i =>
    have hm := hi.flow i hj
    rcases hpc with hp | hp <;> rw [SieveFlow,hp] at hm <;> exact hm.2

/-- End of file is reported only when nothing more is to come. -/
theorem end_of_file (hi : Inv c F s) {j : ℕ} (hj : j+1 < s.nproc) (hq : s.queue j = [])
    (hw : ¬ s.Open c (.writeEnd j)) : s.queue j ++ F j = [] := by
  have hF : F j = [] := by
    apply hi.written (by omega) (hi.forked j hj)
    intro hl hh
    have hpl := hi.placed j (by omega) hl
    have hroom : j+4 < c.nofile := by
      have hf := hi.forked j hj
      have hv := hpl.2
      rw [hpl.1] at hh
      cases hp : (s.proc j).pc <;> rw [hp] at hf hh <;> simp only [Vars,hp] at hv <;>
        first | exact absurd hf id | omega | exact absurd (table_second.symm.trans hh) (by simp)
    exact hw ⟨j,by omega,j+4,hroom,hh⟩
  rw [hq,hF,List.append_nil]

theorem read_open (hi : Inv c F s) (hk : k+1 < s.nproc) (hroom : k+4 < c.nofile)
    (hne : s.queue k ++ F k ≠ []) : s.Open c (.readEnd k) := by
  have hf := hi.flow k hk
  have hl : (s.proc (k+1)).life = .running := by
    by_contra hl
    rw [SieveFlow,(hi.buried (k+1) hk hl).1] at hf
    exact hne hf.1
  have hpl := (hi.placed (k+1) hk hl).1
  refine ⟨k+1,hk,k+3,by omega,?_⟩
  have hown {x y : Option File} : table (k+1) (own (k+1)) x y (k+3) = some (.readEnd k) :=
    table_own (by omega)
  rw [hpl]
  cases hp : (s.proc (k+1)).pc <;> rw [SieveFlow,hp] at hf <;>
    first | exact hown | exact absurd hf.1 hne

end Inv

end ListlibSyscalls.SieveInvariant
