import ListlibSyscalls.ShellProgress
import ListlibSyscalls.DescriptorTable

/-!
# Running commands on descriptors

`runcmd` sets up the standard streams of a command with `close`, `open`, `dup`
and `pipe`, counting on the lowest free descriptor. A process of the tree is
named by the position of its command. Each has its own table, so the outcome of
the whole tree does not depend on how the processes are interleaved: the list
has what each does, in the order of the tree. Whether an `open`, a `pipe` or a
`fork` succeeds is up to the system and given for every position, and for each
`open` of the console at the start of the shell. What the command means on
streams, without descriptors, is `denote`.
-/

set_option autoImplicit false

namespace ListlibSyscalls.ShellRun
open StepRuns UserStrings DescriptorTable ShellMachine

/-- The steps from a command down to a part of it, the last one first. -/
abbrev Position := List ℕ

/-- What a descriptor stands for: something the shell was given, the file
opened at a position, or an end of the pipe made there. -/
inductive Stream (α : Type) where
  | given (x : α)
  | file (pos : Position) (name : List Byte) (mode : ℕ)
  | readEnd (pos : Position)
  | writeEnd (pos : Position)
  deriving DecidableEq

abbrev Table (α : Type) := ℕ → Option (Stream α)

structure World where
  console : ℕ → Bool
  opens : Position → Bool
  pipes : Position → Bool
  forks : Position → Bool

inductive Event (τ : Type) where
  | exec (pos : Position) (argv : List (List Byte)) (on : τ)
  | openFailed (name : List Byte)
  | panics (text : String)
  deriving DecidableEq

section Calls

variable {α : Type}

def close (T : Table α) (fd : ℕ) : Table α := Function.update T fd none

def sysOpen (T : Table α) (st : Stream α) : Option (Table α) := do
  let fd ← fdalloc NOFILE T
  some (Function.update T fd (some st))

/-- A `dup` that fails returns -1, which `runcmd` ignores. -/
def dup (T : Table α) (fd : ℕ) : Table α :=
  match T fd, fdalloc NOFILE T with
  | some st, some fd' => Function.update T fd' (some st)
  | _, _ => T

def sysPipe (T : Table α) (pos : Position) : Option (Table α × ℕ × ℕ) := do
  let fd0 ← fdalloc NOFILE T
  let T := Function.update T fd0 (some (.readEnd pos))
  let fd1 ← fdalloc NOFILE T
  some (Function.update T fd1 (some (.writeEnd pos)),fd0,fd1)

def runcmd (w : World) : Position → Table α → Cmd (List Byte) → List (Event (Table α))
  | pos, T, .exec argv => if argv = [] then [] else [.exec pos argv T]
  | pos, T, .redir cmd k file =>
    match if w.opens pos then sysOpen (close T k.fd) (.file pos file k.mode) else none with
    | none => [.openFailed file]
    | some T => runcmd w (0::pos) T cmd
  | pos, T, .list left right =>
    if w.forks (0::pos) then runcmd w (0::pos) T left++runcmd w (1::pos) T right
    else [.panics "fork"]
  | pos, T, .pipe left right =>
    match if w.pipes pos then sysPipe T pos else none with
    | none => [.panics "pipe"]
    | some (T,p0,p1) =>
      if w.forks (0::pos) then
        runcmd w (0::pos) (close (close (dup (close T 1) p1) p0) p1) left++
        if w.forks (1::pos) then
          runcmd w (1::pos) (close (close (dup (close T 0) p0) p0) p1) right
        else [.panics "fork"]
      else [.panics "fork"]
  | pos, T, .back cmd =>
    if w.forks (0::pos) then runcmd w (0::pos) T cmd else [.panics "fork"]

/-- The loop at the start of `main`, from its pass `n`. -/
def consoles (w : World) (console : Stream α) : ℕ → ℕ → Table α → Table α
  | 0, _, T => T
  | k+1, n, T =>
    match if w.console n then fdalloc NOFILE T else none with
    | none => T
    | some fd =>
      if 3 ≤ fd then close (Function.update T fd (some console)) fd
      else consoles w console k (n+1) (Function.update T fd (some console))

end Calls

section Meaning

variable {α : Type}

structure Streams (α : Type) where
  stdin : Stream α
  stdout : Stream α
  stderr : Stream α
  deriving DecidableEq

def redirect (s : Streams α) (k : Redir) (st : Stream α) : Streams α :=
  match k with
  | .input => { s with stdin := st }
  | .output => { s with stdout := st }
  | .append => { s with stdout := st }

def denote (w : World) : Position → Streams α → Cmd (List Byte) → List (Event (Streams α))
  | pos, s, .exec argv => if argv = [] then [] else [.exec pos argv s]
  | pos, s, .redir cmd k file =>
    if w.opens pos then denote w (0::pos) (redirect s k (.file pos file k.mode)) cmd
    else [.openFailed file]
  | pos, s, .list left right =>
    if w.forks (0::pos) then denote w (0::pos) s left++denote w (1::pos) s right
    else [.panics "fork"]
  | pos, s, .pipe left right =>
    if w.pipes pos then
      if w.forks (0::pos) then
        denote w (0::pos) { s with stdout := .writeEnd pos } left++
        if w.forks (1::pos) then denote w (1::pos) { s with stdin := .readEnd pos } right
        else [.panics "fork"]
      else [.panics "fork"]
    else [.panics "pipe"]
  | pos, s, .back cmd =>
    if w.forks (0::pos) then denote w (0::pos) s cmd else [.panics "fork"]

def withStreams (T : Table α) (s : Streams α) : Table α := fun fd =>
  if fd = 0 then some s.stdin else if fd = 1 then some s.stdout
  else if fd = 2 then some s.stderr else T fd

def Event.map {τ υ : Type} (f : τ → υ) : Event τ → Event υ
  | .exec pos argv on => .exec pos argv (f on)
  | .openFailed name => .openFailed name
  | .panics text => .panics text

/-- There are descriptors for the ends of a pipe. -/
def Room (T : Table α) : Prop :=
  ∃ a < NOFILE, ∃ b < NOFILE, 3 ≤ a ∧ a < b ∧ (T a).isNone = true ∧ (T b).isNone = true

instance (T : Table α) : Decidable (Room T) := by
  unfold Room
  infer_instance

/-- Without such descriptors no pipe is granted. -/
def World.within (w : World) (T : Table α) : World :=
  { w with pipes := fun pos => w.pipes pos && decide (Room T) }

end Meaning

section Lowest

variable {α : Type} {T : Table α} {s : Streams α}

theorem withStreams_above {fd : ℕ} (h : 3 ≤ fd) : withStreams T s fd = T fd := by
  rw [withStreams,if_neg (by omega),if_neg (by omega),if_neg (by omega)]

theorem withStreams_below {fd : ℕ} (h : fd < 3) : (withStreams T s fd).isSome = true := by
  rw [withStreams]
  split_ifs
  · rfl
  · rfl
  · rfl
  · omega

theorem withStreams_lowest {fd : ℕ} (h : fdalloc NOFILE (withStreams T s) = some fd) :
    3 ≤ fd ∧ fd < NOFILE ∧ T fd = none := by
  obtain ⟨hlt,hfree,-⟩ := fdalloc_some h
  have h3 : 3 ≤ fd := by
    by_contra hlt
    have := withStreams_below (T := T) (s := s) (Nat.lt_of_not_le hlt)
    rw [hfree] at this
    cases this
  exact ⟨h3,hlt,(withStreams_above h3).symm.trans hfree⟩

def piped (T : Table α) (s : Streams α) (pos : Position) (a b : ℕ) : Table α :=
  Function.update (Function.update (withStreams T s) a (some (.readEnd pos))) b
    (some (.writeEnd pos))

/-- The two ends come into free descriptors, if there are two. -/
theorem sysPipe_room (h : Room T) (pos : Position) :
    ∃ a b, 3 ≤ a ∧ a < b ∧ T a = none ∧ T b = none ∧
      sysPipe (withStreams T s) pos = some (piped T s pos a b,a,b) := by
  obtain ⟨x,hx,y,hy,h3,hxy,hTx,hTy⟩ := h
  cases ha : fdalloc NOFILE (withStreams T s) with
  | none =>
    have := fdalloc_none ha hx
    rw [withStreams_above h3,← Option.not_isNone,hTx] at this
    cases this
  | some a =>
    obtain ⟨ha3,halt,hTa⟩ := withStreams_lowest ha
    set T₁ := Function.update (withStreams T s) a (some (Stream.readEnd pos)) with hT₁
    have hother : ∃ z < NOFILE, z ≠ a ∧ (T₁ z).isNone = true := by
      by_cases hxa : x = a
      · have hya : y ≠ a := by omega
        refine ⟨y,hy,hya,?_⟩
        rw [hT₁,Function.update_of_ne hya,withStreams_above (by omega),hTy]
      · refine ⟨x,hx,hxa,?_⟩
        rw [hT₁,Function.update_of_ne hxa,withStreams_above h3,hTx]
    obtain ⟨z,hz,-,hTz⟩ := hother
    cases hb : fdalloc NOFILE T₁ with
    | none =>
      have := fdalloc_none hb hz
      rw [← Option.not_isNone,hTz] at this
      cases this
    | some b =>
      obtain ⟨hblt,hTb,-⟩ := fdalloc_some hb
      have hba : b ≠ a := by
        rintro rfl
        rw [hT₁,Function.update_self] at hTb
        cases hTb
      rw [hT₁,Function.update_of_ne hba] at hTb
      have hbelow := (fdalloc_some ha).2.2
      have hlt : a < b := by
        by_contra hle
        have := hbelow b (by omega)
        rw [hTb] at this
        cases this
      rw [withStreams_above (by omega)] at hTb
      refine ⟨a,b,ha3,hlt,hTa,hTb,?_⟩
      simp only [sysPipe,ha,Option.bind_eq_bind,Option.bind_some,← hT₁,hb]
      rfl

theorem sysPipe_no_room (h : ¬ Room T) (pos : Position) : sysPipe (withStreams T s) pos = none := by
  cases ha : fdalloc NOFILE (withStreams T s) with
  | none => simp [sysPipe,ha]
  | some a =>
    obtain ⟨ha3,halt,hTa⟩ := withStreams_lowest ha
    cases hb : fdalloc NOFILE (Function.update (withStreams T s) a (some (Stream.readEnd pos))) with
    | none => simp [sysPipe,ha,hb]
    | some b =>
      exfalso
      obtain ⟨hblt,hTb,-⟩ := fdalloc_some hb
      have hba : b ≠ a := by
        rintro rfl
        rw [Function.update_self] at hTb
        cases hTb
      rw [Function.update_of_ne hba] at hTb
      have hab : a < b := by
        by_contra hle
        have := (fdalloc_some ha).2.2 b (by omega)
        rw [hTb] at this
        cases this
      rw [withStreams_above (by omega)] at hTb
      exact h ⟨a,halt,b,hblt,ha3,hab,by rw [hTa]; rfl,by rw [hTb]; rfl⟩

theorem fdalloc_close (fd : ℕ) (h : fd < 3) (hopen : ∀ i < 3, (T i).isSome = true) :
    fdalloc NOFILE (close T fd) = some fd := by
  refine fdalloc_eq_some.mpr ⟨Nat.lt_trans h (by decide),Function.update_self _ _ _,?_⟩
  intro i hi
  rw [close,Function.update_of_ne (by omega)]
  exact hopen i (by omega)

theorem fd_lt (k : Redir) : k.fd < 3 := by cases k <;> decide

theorem update_redirect (k : Redir) (st : Stream α) :
    Function.update (withStreams T s) k.fd (some st) = withStreams T (redirect s k st) := by
  funext fd
  by_cases hfd : fd = k.fd
  · subst hfd
    rw [Function.update_self]
    cases k <;> rfl
  · rw [Function.update_of_ne hfd]
    cases k <;> simp only [withStreams,redirect] <;> simp only [Redir.fd] at hfd <;> simp [hfd]

theorem sysOpen_close (k : Redir) (st : Stream α) :
    sysOpen (close (withStreams T s) k.fd) st = some (withStreams T (redirect s k st)) := by
  have hfd := fdalloc_close k.fd (fd_lt k) (fun i hi => withStreams_below (T := T) (s := s) hi)
  rw [sysOpen,hfd]
  show some (Function.update (close (withStreams T s) k.fd) k.fd (some st)) = _
  rw [close,Function.update_idem,update_redirect]

/-- The tables of the two children of a pipe. One end goes to the standard
descriptor and both of the others are closed. -/
theorem pipe_child {a b fd x : ℕ} {st st₀ st₁ : Stream α} (hfd : fd < 3) (h3 : 3 ≤ a)
    (hab : a < b) (hTa : T a = none) (hTb : T b = none) (hx : x = a ∨ x = b)
    (hst : Function.update (Function.update (withStreams T s) a (some st₀)) b (some st₁) x =
      some st) :
    close (close (dup (close (Function.update (Function.update (withStreams T s) a (some st₀)) b
      (some st₁)) fd) x) a) b = Function.update (withStreams T s) fd (some st) := by
  set T₁ := Function.update (Function.update (withStreams T s) a (some st₀)) b (some st₁) with hT₁
  have hsame : ∀ i, i ≠ a → i ≠ b → T₁ i = withStreams T s i := by
    intro i hia hib
    rw [hT₁,Function.update_of_ne hib,Function.update_of_ne hia]
  have hopen : ∀ i < 3, (T₁ i).isSome = true := by
    intro i hi
    rw [hsame i (by omega) (by omega)]
    exact withStreams_below hi
  have hx' : close T₁ fd x = some st := by
    rw [close,Function.update_of_ne (by omega),hst]
  have hdup : dup (close T₁ fd) x = Function.update (close T₁ fd) fd (some st) := by
    simp only [dup,hx',fdalloc_close fd hfd hopen]
  rw [hdup,close,close,close,Function.update_idem]
  funext i
  by_cases hib : i = b
  · subst hib
    rw [Function.update_self,Function.update_of_ne (by omega),withStreams_above (by omega),hTb]
  · rw [Function.update_of_ne hib]
    by_cases hia : i = a
    · subst hia
      rw [Function.update_self,Function.update_of_ne (by omega),withStreams_above h3,hTa]
    · rw [Function.update_of_ne hia]
      by_cases hi : i = fd
      · rw [hi,Function.update_self,Function.update_self]
      · rw [Function.update_of_ne hi,Function.update_of_ne hi,hsame i hia hib]

theorem pipe_left {a b : ℕ} (pos : Position) (h3 : 3 ≤ a) (hab : a < b) (hTa : T a = none)
    (hTb : T b = none) : close (close (dup (close (piped T s pos a b) 1) b) a) b =
      withStreams T { s with stdout := .writeEnd pos } := by
  have hend : piped T s pos a b b = some (.writeEnd pos) := Function.update_self _ _ _
  exact (pipe_child (by omega) h3 hab hTa hTb (.inr rfl) hend).trans
    (update_redirect .output (.writeEnd pos))

theorem pipe_right {a b : ℕ} (pos : Position) (h3 : 3 ≤ a) (hab : a < b) (hTa : T a = none)
    (hTb : T b = none) : close (close (dup (close (piped T s pos a b) 0) a) a) b =
      withStreams T { s with stdin := .readEnd pos } := by
  have hend : piped T s pos a b a = some (.readEnd pos) := by
    rw [piped,Function.update_of_ne (by omega),Function.update_self]
  exact (pipe_child (by omega) h3 hab hTa hTb (.inl rfl) hend).trans
    (update_redirect .input (.readEnd pos))

end Lowest

section Runs

variable {α : Type} (w : World) (T : Table α)

/-- Every process of the tree has the streams that the command means, and the
other descriptors of the shell; no end of a pipe stays open beside them. -/
theorem runcmd_denotes (pos : Position) (s : Streams α) (c : Cmd (List Byte)) :
    runcmd w pos (withStreams T s) c =
      (denote (w.within T) pos s c).map (Event.map (withStreams T)) := by
  induction c generalizing pos s with
  | exec argv =>
    rw [runcmd,denote]
    split
    · rfl
    · rfl
  | redir c k f ih =>
    rw [runcmd,denote]
    by_cases ho : w.opens pos = true
    · have ho' : (w.within T).opens pos = true := ho
      rw [if_pos ho,if_pos ho',sysOpen_close]
      exact ih _ _
    · have ho' : ¬ (w.within T).opens pos = true := ho
      rw [if_neg ho,if_neg ho']
      rfl
  | list l r ihl ihr =>
    rw [runcmd,denote]
    by_cases hf : w.forks (0::pos) = true
    · have hf' : (w.within T).forks (0::pos) = true := hf
      rw [if_pos hf,if_pos hf',ihl,ihr,List.map_append]
    · have hf' : ¬ (w.within T).forks (0::pos) = true := hf
      rw [if_neg hf,if_neg hf']
      rfl
  | back c ih =>
    rw [runcmd,denote]
    by_cases hf : w.forks (0::pos) = true
    · have hf' : (w.within T).forks (0::pos) = true := hf
      rw [if_pos hf,if_pos hf',ih]
    · have hf' : ¬ (w.within T).forks (0::pos) = true := hf
      rw [if_neg hf,if_neg hf']
      rfl
  | pipe l r ihl ihr =>
    rw [runcmd,denote]
    by_cases hp : (w.within T).pipes pos = true
    · have hgrant : w.pipes pos = true ∧ Room T := by
        simpa [World.within] using hp
      obtain ⟨a,b,h3,hab,hTa,hTb,heq⟩ := sysPipe_room (s := s) hgrant.2 pos
      rw [if_pos hgrant.1,if_pos hp,heq]
      dsimp only
      rw [pipe_left pos h3 hab hTa hTb,pipe_right pos h3 hab hTa hTb]
      by_cases hf : w.forks (0::pos) = true
      · have hf' : (w.within T).forks (0::pos) = true := hf
        rw [if_pos hf,if_pos hf',ihl,List.map_append]
        congr 1
        by_cases hg : w.forks (1::pos) = true
        · have hg' : (w.within T).forks (1::pos) = true := hg
          rw [if_pos hg,if_pos hg',ihr]
        · have hg' : ¬ (w.within T).forks (1::pos) = true := hg
          rw [if_neg hg,if_neg hg']
          rfl
      · have hf' : ¬ (w.within T).forks (0::pos) = true := hf
        rw [if_neg hf,if_neg hf']
        rfl
    · have hnone : (if w.pipes pos = true then sysPipe (withStreams T s) pos else none) = none := by
        split
        · next hpipes =>
          apply sysPipe_no_room
          intro hroom
          apply hp
          simp [World.within,hpipes,hroom]
        · rfl
      rw [hnone,if_neg hp]
      rfl

def filled (console : Stream α) : Streams α :=
  ⟨(T 0).getD console,(T 1).getD console,(T 2).getD console⟩

variable {T}

theorem withStreams_filled {console : Stream α} (h : ∀ i < 3, (T i).isSome = true) :
    withStreams T (filled T console) = T := by
  have hget : ∀ i < 3, some ((T i).getD console) = T i := by
    intro i hi
    obtain ⟨st,hst⟩ := Option.isSome_iff_exists.mp (h i hi)
    rw [hst]
    rfl
  funext fd
  rw [withStreams]
  split_ifs with h0 h1 h2
  · rw [h0]
    exact hget 0 (by omega)
  · rw [h1]
    exact hget 1 (by omega)
  · rw [h2]
    exact hget 2 (by omega)
  · rfl

theorem filled_update {console : Stream α} {fd : ℕ} (hfd : fd < 3) (hfree : T fd = none) :
    withStreams (Function.update T fd (some console))
      (filled (Function.update T fd (some console)) console) =
    withStreams T (filled T console) := by
  have hget : ∀ i, ((Function.update T fd (some console)) i).getD console =
      (T i).getD console := by
    intro i
    by_cases hi : i = fd
    · rw [hi,Function.update_self,hfree]
      rfl
    · rw [Function.update_of_ne hi]
  funext i
  simp only [withStreams,filled,hget]
  split_ifs with h0 h1 h2
  · rfl
  · rfl
  · rfl
  · exact Function.update_of_ne (by omega) _ _

def missing (T : Table α) : ℕ := (List.range 3).countP fun i => (T i).isNone

theorem missing_eq_zero : missing T = 0 ↔ ∀ i < 3, (T i).isSome = true := by
  rw [missing,List.countP_eq_zero]
  simp [Option.isSome_iff_ne_none]

theorem missing_update {fd : ℕ} (hfd : fd < 3) (hfree : T fd = none) (st : Stream α) :
    missing T = missing (Function.update T fd (some st))+1 := by
  simp only [missing,List.range_succ,List.range_zero,List.countP_append,List.countP_cons,
    List.countP_nil]
  interval_cases fd <;> simp [hfree] <;> omega

/-- The loop goes up the standard descriptors, and what it takes above them it gives
back. It ends early at an `open` that is refused. -/
theorem consoles_spec (w : World) (console : Stream α) {k n : ℕ} (hk : missing T < k) :
    ((∀ i < 3, (consoles w console k n T i).isSome = true) ↔
      ∀ m < missing T, w.console (n+m) = true) ∧
    ((∀ m < missing T, w.console (n+m) = true) →
      consoles w console k n T = withStreams T (filled T console)) := by
  induction k generalizing T n with
  | zero => omega
  | succ k ih =>
    -- the loop ends with the table as it was
    have hstay (hz : missing T = 0 ∨ w.console n = false) :
        ((∀ i < 3, (T i).isSome = true) ↔ ∀ m < missing T, w.console (n+m) = true) ∧
        ((∀ m < missing T, w.console (n+m) = true) → T = withStreams T (filled T console)) := by
      have hiff : (∀ m < missing T, w.console (n+m) = true) ↔ missing T = 0 := by
        constructor
        · intro hall
          by_contra hne
          have h0 := hall 0 (Nat.pos_of_ne_zero hne)
          rcases hz with hz|hz
          · exact hne hz
          · rw [Nat.add_zero,hz] at h0
            cases h0
        · intro h0 m hm
          omega
      rw [hiff,missing_eq_zero]
      exact ⟨Iff.rfl,fun hall => (withStreams_filled hall).symm⟩
    rw [consoles]
    by_cases hgrant : w.console n = true
    · rw [if_pos hgrant]
      cases hfd : fdalloc NOFILE T with
      | none =>
        refine hstay (.inl (missing_eq_zero.mpr fun i hi => ?_))
        exact fdalloc_none hfd (Nat.lt_trans hi (by decide))
      | some fd =>
        obtain ⟨-,hfree,hbelow⟩ := fdalloc_some hfd
        dsimp only
        by_cases h3 : 3 ≤ fd
        · have hsame : close (Function.update T fd (some console)) fd = T := by
            rw [close,Function.update_idem,← hfree,Function.update_eq_self]
          rw [if_pos h3,hsame]
          exact hstay (.inl (missing_eq_zero.mpr fun i hi => hbelow i (by omega)))
        · have hmiss := missing_update (Nat.lt_of_not_le h3) hfree console
          obtain ⟨hopen,hrun⟩ := ih (T := Function.update T fd (some console)) (n := n+1) (by omega)
          have hsum : ∀ m, n+1+m = n+(m+1) := fun m => by omega
          have hshift : (∀ m < missing T, w.console (n+m) = true) ↔
              ∀ m < missing (Function.update T fd (some console)),
                w.console (n+1+m) = true := by
            constructor
            · intro hall m hm
              rw [hsum]
              exact hall (m+1) (by omega)
            · intro hall m hm
              cases m with
              | zero => exact hgrant
              | succ m =>
                rw [← hsum]
                exact hall m (by omega)
          rw [if_neg h3,hshift,← filled_update (Nat.lt_of_not_le h3) hfree]
          exact ⟨hopen,hrun⟩
    · have hrefused : w.console n = false := by simpa using hgrant
      rw [if_neg hgrant]
      exact hstay (.inr hrefused)

variable (T)

/-- Whatever descriptors the shell is started with, it has the standard ones exactly
when the console is opened as often as one of them is missing; then, whatever the
system grants, a command line is run on the streams that it means. -/
theorem shell_denotes (console : Stream α) (c : Cmd (List Byte)) :
    ((∀ i < 3, (consoles w console 4 0 T i).isSome = true) ↔
      ∀ m < missing T, w.console m = true) ∧
    ((∀ m < missing T, w.console m = true) → runcmd w [] (consoles w console 4 0 T) c =
      (denote (w.within T) [] (filled T console) c).map (Event.map (withStreams T))) := by
  have hlt : missing T < 4 := Nat.lt_succ_of_le (List.countP_le_length (l := List.range 3))
  have hspec := consoles_spec w console (n := 0) hlt
  simp only [Nat.zero_add] at hspec
  refine ⟨hspec.1,fun hopen => ?_⟩
  rw [hspec.2 hopen]
  exact runcmd_denotes w T [] (filled T console) c

/-- A pipe in a shell that is started with descriptor 0 only. -/
theorem shell_denotes_pair :
    let w : World := ⟨fun n => decide (n < 2),fun _ => true,fun _ => true,fun _ => true⟩
    let T : Table ℕ := fun fd => if fd = 0 then some (.given 0) else none
    (runcmd w [] (consoles w (.given 1) 4 0 T) (.pipe (.exec [[ch 'a']]) (.exec [[ch 'b']]))) =
      [.exec [0] [[ch 'a']] (withStreams T ⟨.given 0,.writeEnd [],.given 1⟩),
        .exec [1] [[ch 'b']] (withStreams T ⟨.readEnd [],.given 1,.given 1⟩)] := by
  intro w T
  have hroom : Room T := by decide
  rw [(shell_denotes w T (.given 1) (.pipe (.exec [[ch 'a']]) (.exec [[ch 'b']]))).2 (by decide)]
  simp [denote,World.within,hroom,Event.map,w,filled,T]

end Runs

section Ends

variable {α : Type} {w : World}

/-- The ends of pipes among the streams of the process at a position. -/
def Wired (pos : Position) (s : Streams α) : Prop :=
  (∀ q, s.stdin = .readEnd q → 1::q <:+ pos) ∧ (∀ q, s.stdin ≠ .writeEnd q) ∧
  (∀ q, s.stdout = .writeEnd q → 0::q <:+ pos) ∧ (∀ q, s.stdout ≠ .readEnd q) ∧
  (∀ q, s.stderr ≠ .readEnd q ∧ s.stderr ≠ .writeEnd q)

theorem Wired.deeper {pos : Position} {s : Streams α} (h : Wired pos s) (i : ℕ) :
    Wired (i::pos) s := by
  obtain ⟨h1,h2,h3,h4,h5⟩ := h
  exact ⟨fun q hq => (h1 q hq).trans (List.suffix_cons i pos),h2,
    fun q hq => (h3 q hq).trans (List.suffix_cons i pos),h4,h5⟩

theorem Wired.redirect {pos p : Position} {s : Streams α} (h : Wired pos s) (k : Redir)
    (f : List Byte) (m : ℕ) : Wired pos (redirect s k (.file p f m)) := by
  obtain ⟨h1,h2,h3,h4,h5⟩ := h
  cases k with
  | input => exact ⟨fun q hq => (by cases hq),fun q hq => (by cases hq),h3,h4,h5⟩
  | output => exact ⟨h1,h2,fun q hq => (by cases hq),fun q hq => (by cases hq),h5⟩
  | append => exact ⟨h1,h2,fun q hq => (by cases hq),fun q hq => (by cases hq),h5⟩

theorem Wired.left {pos : Position} {s : Streams α} (h : Wired pos s) :
    Wired (0::pos) { s with stdout := .writeEnd pos } := by
  obtain ⟨h1,h2,h3,h4,h5⟩ := h.deeper 0
  refine ⟨h1,h2,fun q hq => ?_,fun q hq => (by cases hq),h5⟩
  cases hq
  exact List.suffix_rfl

theorem Wired.right {pos : Position} {s : Streams α} (h : Wired pos s) :
    Wired (1::pos) { s with stdin := .readEnd pos } := by
  obtain ⟨h1,h2,h3,h4,h5⟩ := h.deeper 1
  refine ⟨fun q hq => ?_,fun q hq => (by cases hq),h3,h4,h5⟩
  cases hq
  exact List.suffix_rfl

theorem denote_wired {pos p : Position} {s s' : Streams α} {c : Cmd (List Byte)}
    {argv : List (List Byte)} (h : Wired pos s) (hm : .exec p argv s' ∈ denote w pos s c) :
    Wired p s' := by
  induction c generalizing pos s with
  | exec argv' =>
    rw [denote] at hm
    split at hm
    · simp at hm
    · cases List.mem_singleton.mp hm
      exact h
  | redir c k f ih =>
    rw [denote] at hm
    split at hm
    · exact ih ((h.redirect k f k.mode).deeper 0) hm
    · simp at hm
  | list l r ihl ihr =>
    rw [denote] at hm
    split at hm
    · rcases List.mem_append.mp hm with hm|hm
      · exact ihl (h.deeper 0) hm
      · exact ihr (h.deeper 1) hm
    · simp at hm
  | back c ih =>
    rw [denote] at hm
    split at hm
    · exact ih (h.deeper 0) hm
    · simp at hm
  | pipe l r ihl ihr =>
    rw [denote] at hm
    split at hm
    · split at hm
      · rcases List.mem_append.mp hm with hm|hm
        · exact ihl h.left hm
        · split at hm
          · exact ihr h.right hm
          · simp at hm
      · simp at hm
    · simp at hm

/-- A program of the line has the end of a pipe only as the standard stream that
the pipe is made for, on the side of the pipe that the end belongs to; so a
reader sees the end of its input when the programs on the left are done. -/
theorem pipe_ends_held {x₀ x₁ x₂ : α} {T : Table α} {c : Cmd (List Byte)} {p q : Position}
    {argv : List (List Byte)} {T' : Table α} {fd : ℕ} (hT : ∀ i q, 3 ≤ i →
      T i ≠ some (.readEnd q) ∧ T i ≠ some (.writeEnd q))
    (hm : .exec p argv T' ∈ runcmd w [] (withStreams T ⟨.given x₀,.given x₁,.given x₂⟩) c) :
    (T' fd = some (.writeEnd q) → fd = 1 ∧ 0::q <:+ p) ∧
      (T' fd = some (.readEnd q) → fd = 0 ∧ 1::q <:+ p) := by
  rw [runcmd_denotes] at hm
  obtain ⟨e,he,heq⟩ := List.mem_map.mp hm
  cases e with
  | openFailed name => cases heq
  | panics text => cases heq
  | exec p' argv' s =>
    cases heq
    have hstart : Wired [] (⟨.given x₀,.given x₁,.given x₂⟩ : Streams α) :=
      ⟨fun q hq => (by cases hq),fun q hq => (by cases hq),fun q hq => (by cases hq),
        fun q hq => (by cases hq),fun q => ⟨fun hq => (by cases hq),fun hq => (by cases hq)⟩⟩
    obtain ⟨h1,h2,h3,h4,h5⟩ := denote_wired hstart he
    rw [withStreams]
    split_ifs with hi0 hi1 hi2
    · exact ⟨fun h => absurd (Option.some.inj h) (h2 q),fun h => ⟨hi0,h1 q (Option.some.inj h)⟩⟩
    · exact ⟨fun h => ⟨hi1,h3 q (Option.some.inj h)⟩,fun h => absurd (Option.some.inj h) (h4 q)⟩
    · exact ⟨fun h => absurd (Option.some.inj h) (h5 q).2,
        fun h => absurd (Option.some.inj h) (h5 q).1⟩
    · have hge : 3 ≤ fd := by omega
      exact ⟨fun h => absurd h (hT fd q hge).2,fun h => absurd h (hT fd q hge).1⟩

def granting : World := ⟨fun _ => true,fun _ => true,fun _ => true,fun _ => true⟩

/-- `a | b`, run by a shell with the standard descriptors only. -/
theorem pair_runs : .exec [0] [[ch 'a']] (withStreams (fun _ => none)
      ⟨.given 0,.writeEnd [],.given 2⟩) ∈ runcmd granting [] (withStreams (fun _ => none)
      (⟨.given 0,.given 1,.given 2⟩ : Streams ℕ)) (.pipe (.exec [[ch 'a']]) (.exec [[ch 'b']])) := by
  have hroom : Room (fun _ => (none : Option (Stream ℕ))) := by decide
  rw [runcmd_denotes]
  simp [denote,World.within,granting,hroom,Event.map]

/-- Its left side has the write end as standard output and nowhere else. -/
theorem pipe_ends_held_pair : ∃ T', .exec [0] [[ch 'a']] T' ∈ runcmd granting []
      (withStreams (fun _ => none) (⟨.given 0,.given 1,.given 2⟩ : Streams ℕ))
      (.pipe (.exec [[ch 'a']]) (.exec [[ch 'b']])) ∧
    T' 1 = some (.writeEnd []) ∧ ∀ fd, T' fd = some (.writeEnd []) → fd = 1 := by
  have hT : ∀ (i : ℕ) (q : Position), 3 ≤ i →
      (none : Option (Stream ℕ)) ≠ some (.readEnd q) ∧
        (none : Option (Stream ℕ)) ≠ some (.writeEnd q) :=
    fun i q _ => ⟨fun h => (by cases h),fun h => (by cases h)⟩
  exact ⟨_,pair_runs,rfl,fun fd h => ((pipe_ends_held hT pair_runs).1 h).1⟩

end Ends

end ListlibSyscalls.ShellRun
