import ListlibSyscalls.LogMachine
import Mathlib.Algebra.BigOperators.Group.Finset.Basic
import Mathlib.Algebra.Order.BigOperators.Group.Finset

/-!
# What the logging layer keeps

`recovered` is the disk that a complete recovery would leave. The invariant
says that this disk has, outside the log, the contents of the last transaction
that was committed, whatever step comes next. Recovery, installing and writing
the log area leave `recovered` alone, because a log that is replayed over part
of itself gives the same disk; only the write of a nonempty header changes it,
and then to what the cache holds. Until a block is installed it is pinned, so
that no recycling loses it.
-/

set_option autoImplicit false

namespace ListlibSyscalls.LogInvariant
open StepRuns CrashRecovery LogMachine

section Views

variable (s : State) (b x : ℕ) (d : Data)

@[simp] theorem bread_disk : (bread s b).disk = s.disk := rfl

@[simp] theorem bread_lh : (bread s b).lh = s.lh := rfl

@[simp] theorem bread_pins : (bread s b).pins = s.pins := rfl

@[simp] theorem bread_point : (bread s b).point = s.point := rfl

@[simp] theorem bread_outstanding : (bread s b).outstanding = s.outstanding := rfl

@[simp] theorem bread_committing : (bread s b).committing = s.committing := rfl

@[simp] theorem bread_calls : (bread s b).calls = s.calls := rfl

@[simp] theorem bread_view : (bread s b).view x = s.view x := by
  by_cases h : x = b
  · simp [bread,State.view,h]
  · simp [bread,State.view,Function.update_of_ne h]

theorem setData_view : (setData s b d).view x = if x = b then d else s.view x := by
  by_cases h : x = b
  · simp [setData,State.view,h]
  · simp [setData,State.view,h]

theorem bwrite_view : (bwrite s b d).view x = if x = b then d else s.view x := by
  by_cases h : x = b
  · simp [bwrite,State.view,h]
  · simp [bwrite,State.view,h]

theorem bwrite_disk_self : (bwrite s b d).disk b = d := Function.update_self _ _ _

theorem bwrite_disk_ne {b x : ℕ} (h : x ≠ b) : (bwrite s b d).disk x = s.disk x :=
  Function.update_of_ne h _ _

end Views

def headOf (start : ℕ) (disk : ℕ → Data) : Logheader := .ofData (disk start)

def entries (start : ℕ) (disk : ℕ → Data) (lh : Logheader) : List (ℕ × Data) :=
  (List.range lh.n).map fun i => (lh.block i,disk (start+i+1))

def recovered (start : ℕ) (disk : ℕ → Data) : ℕ → Data :=
  replay (entries start disk (headOf start disk)) disk

section Recovered

variable {start : ℕ} {disk disk' : ℕ → Data}

theorem mem_entries_keys {lh : Logheader} {b : ℕ} :
    b ∈ (entries start disk lh).map Prod.fst ↔ ∃ i < lh.n, lh.block i = b := by
  simp [entries]

theorem entries_nodup {lh : Logheader} (h : Sound start lh) :
    ((entries start disk lh).map Prod.fst).Nodup := by
  rw [entries,List.map_map]
  refine List.Nodup.map_on ?_ List.nodup_range
  intro i hi j hj
  exact h.distinct i (List.mem_range.mp hi) j (List.mem_range.mp hj)

theorem recovered_empty (h : (headOf start disk).n = 0) : recovered start disk = disk := by
  rw [recovered,entries,h]
  rfl

theorem recovered_other {b : ℕ} (h : ∀ i < (headOf start disk).n, (headOf start disk).block i ≠ b) :
    recovered start disk b = disk b := by
  apply replay_other
  rw [mem_entries_keys]
  rintro ⟨i,hi,hb⟩
  exact h i hi hb

theorem recovered_entry (h : Sound start (headOf start disk)) {i : ℕ}
    (hi : i < (headOf start disk).n) :
    recovered start disk ((headOf start disk).block i) = disk (start+i+1) := by
  apply replay_mem _ _ _ _ (entries_nodup h)
  exact List.mem_map.mpr ⟨i,List.mem_range.mpr hi,rfl⟩

/-- Installing a block of the log changes nothing that recovery would not. -/
theorem recovered_install (h : Sound start (headOf start disk)) {i : ℕ}
    (hi : i < (headOf start disk).n) (d : Data) (b : ℕ) :
    recovered start (Function.update disk ((headOf start disk).block i) d) b =
      recovered start disk b := by
  have hb := h.home i hi
  have hs : (headOf start disk).block i ≠ start := by
    rcases hb with hb|hb <;> omega
  have hhead : headOf start (Function.update disk ((headOf start disk).block i) d) =
      headOf start disk :=
    congrArg Logheader.ofData (Function.update_of_ne hs.symm d disk)
  have hentries : entries start (Function.update disk ((headOf start disk).block i) d)
      (headOf start disk) = entries start disk (headOf start disk) := by
    apply List.map_congr_left
    intro j hj
    have hj := List.mem_range.mp hj
    have hn := h.bound
    rw [Function.update_of_ne]
    rcases hb with hb|hb <;> omega
  rw [recovered,hhead,hentries]
  apply replay_update
  exact mem_entries_keys.mpr ⟨i,hi,rfl⟩

end Recovered

/-- The first entry of the header that is not installed yet. -/
def Point.first : Point → ℕ → ℕ
  | .install false tail, _ => tail
  | .install true _, n => n
  | .erase _, n => n
  | _, _ => 0

def Pending (s : State) (b : ℕ) : Prop :=
  ∃ i, Point.first s.point s.lh.n ≤ i ∧ i < s.lh.n ∧ s.lh.block i = b

/-- The header of the disk and that of the memory name the same blocks. -/
structure Same (h lh : Logheader) : Prop where
  n : h.n = lh.n
  block : ∀ i < lh.n, h.block i = lh.block i

def Copied (start : ℕ) (s : State) (k : ℕ) : Prop :=
  ∀ i < k, s.disk (start+i+1) = s.view (s.lh.block i)

def Installed (start : ℕ) (s : State) (k : ℕ) : Prop :=
  ∀ i < k, s.disk (s.lh.block i) = s.disk (start+i+1)

def At (start : ℕ) (s : State) : Point → Prop
  | .idle => (headOf start s.disk).n = 0
  | .commit => (headOf start s.disk).n = 0
  | .writeLog tail => (headOf start s.disk).n = 0 ∧ tail ≤ s.lh.n ∧ Copied start s tail
  | .writeHead => (headOf start s.disk).n = 0 ∧ Copied start s s.lh.n
  | .install r tail => Same (headOf start s.disk) s.lh ∧ tail ≤ s.lh.n ∧
      Installed start s tail ∧ (r = false → Copied start s s.lh.n)
  | .erase _ => Same (headOf start s.disk) s.lh ∧ Installed start s s.lh.n
  | .finish => (headOf start s.disk).n = 0 ∧ s.lh.n = 0
  | .readHead => Sound start (headOf start s.disk) ∧ s.lh.n = 0

/-- The points of `end_op` between setting and clearing `committing`. -/
def Point.inCommit : Point → Bool
  | .idle => false
  | .readHead => false
  | .install r _ => !r
  | .erase r => !r
  | _ => true

/-- The state of the logging layer against the store it implements. -/
structure Sim (start : ℕ) (s : State) (a : Store ℕ Data) : Prop where
  active : a.active = s.outstanding
  durable : ∀ b, Home start b → a.durable b = recovered start s.disk b
  volatile : ∀ b, Home start b → a.volatile b = if s.point.recovering then a.durable b else s.view b
  sound : Sound start s.lh
  clean : ∀ b, ¬ Pending s b → s.view b = s.disk b
  pinned : ∀ b, Pending s b → 0 < s.pins b
  disk : At start s s.point
  committing : s.committing = Point.inCommit s.point
  alone : s.point ≠ .idle → s.outstanding = 0
  quiet : s.point = .idle → s.outstanding = 0 → s.lh.n = 0

section Steps

variable {start : ℕ} {s : State} {a : Store ℕ Data}

theorem at_congr (s s' : State) (hd : s'.disk = s.disk) (hl : s'.lh = s.lh)
    (hv : ∀ x, s'.view x = s.view x) (pt : Point) (h : At start s pt) : At start s' pt := by
  cases pt <;> simpa [At,Copied,Installed,hd,hl,hv] using h

theorem sim_cache (h : Sim start s a) (c : ℕ → Option Data)
    (hv : ∀ x, ({ s with cache := c } : State).view x = s.view x) :
    Sim start { s with cache := c } a where
  active := h.active
  durable := h.durable
  volatile := by
    intro x hx
    rw [hv x]
    exact h.volatile x hx
  sound := h.sound
  clean := by
    intro x hx
    rw [hv x]
    exact h.clean x hx
  pinned := h.pinned
  disk := at_congr s { s with cache := c } rfl rfl hv s.point h.disk
  committing := h.committing
  alone := h.alone
  quiet := h.quiet

theorem sim_bread (h : Sim start s a) (b : ℕ) : Sim start (bread s b) a :=
  sim_cache h _ (fun x => bread_view s b x)

theorem sim_calls (h : Sim start s a) (c : Fin NPROC → Option (Finset ℕ)) :
    Sim start { s with calls := c } a :=
  ⟨h.active,h.durable,h.volatile,h.sound,h.clean,h.pinned,
    at_congr s { s with calls := c } rfl rfl (fun _ => rfl) s.point h.disk,h.committing,h.alone,h.quiet⟩

/-- A block that is not pinned is on the disk as it is in the cache. -/
theorem sim_recycle (h : Sim start s a) (b : ℕ) (hb : s.pins b = 0) :
    Sim start { s with cache := Function.update s.cache b none } a := by
  have hclean : s.view b = s.disk b := by
    apply h.clean
    intro hp
    have := h.pinned b hp
    omega
  apply sim_cache h
  intro x
  by_cases hx : x = b
  · rw [hx,hclean]
    simp [State.view]
  · simp [State.view,hx]

theorem slotFrom_spec (lh : Logheader) (b k i : ℕ) :
    slotFrom lh b k i ≤ i+k ∧ (slotFrom lh b k i < i+k → lh.block (slotFrom lh b k i) = b) ∧
      ∀ j, i ≤ j → j < slotFrom lh b k i → lh.block j ≠ b := by
  induction k generalizing i with
  | zero =>
    rw [slotFrom]
    exact ⟨le_refl i,fun h => absurd h (lt_irrefl i),fun j h1 h2 => by omega⟩
  | succ k ih =>
    rw [slotFrom]
    split
    · next hb => exact ⟨by omega,fun _ => hb,fun j h1 h2 => by omega⟩
    · next hb =>
      obtain ⟨h1,h2,h3⟩ := ih (i+1)
      refine ⟨by omega,fun h => h2 (by omega),fun j hj1 hj2 => ?_⟩
      rcases Nat.eq_or_lt_of_le hj1 with rfl|hj
      · exact hb
      · exact h3 j hj hj2

/-- `log_write` absorbs a block that is in the log already, or enters and pins
it at the end. -/
theorem logWrite_cases {s' : State} {b : ℕ} (h : logWrite s b = .ok s') :
    s.lh.n < LOGBLOCKS ∧ 0 < s.outstanding ∧
      ((∃ i < s.lh.n, s.lh.block i = b ∧ s' = s) ∨
       ((∀ i < s.lh.n, s.lh.block i ≠ b) ∧
        s' = { bpin s b with lh := ⟨s.lh.n+1,Function.update s.lh.block s.lh.n b⟩ })) := by
  obtain ⟨hle,hfound,hmiss⟩ := slotFrom_spec s.lh b s.lh.n 0
  rw [Nat.zero_add] at hle hfound
  rw [logWrite] at h
  split at h
  · cases h
  · split at h
    · cases h
    · refine ⟨by omega,by omega,?_⟩
      dsimp only at h
      split at h
      · next hi =>
        right
        refine ⟨fun j hj => hmiss j (Nat.zero_le j) (by omega),?_⟩
        rw [hi] at h
        exact (Except.ok.inj h).symm
      · next hi =>
        left
        have hlt : slotFrom s.lh b s.lh.n 0 < s.lh.n := by omega
        refine ⟨_,hlt,hfound hlt,?_⟩
        rw [← Except.ok.inj h,Function.update_eq_self_iff.mpr (hfound hlt).symm]

theorem sound_empty {lh : Logheader} (h : lh.n = 0) : Sound start lh :=
  ⟨by omega,fun i hi => by omega,fun i hi => by omega⟩

theorem Same.sound {h lh : Logheader} (hs : Same h lh) (hl : Sound start lh) : Sound start h := by
  have hn := hs.n
  refine ⟨hn ▸ hl.bound,fun i hi => ?_,fun i hi j hj hb => ?_⟩
  · rw [hs.block i (by omega)]
    exact hl.home i (by omega)
  · rw [hs.block i (by omega),hs.block j (by omega)] at hb
    exact hl.distinct i (by omega) j (by omega) hb

/-- The header on the disk is one that recovery can use, at every point. -/
theorem Sim.head (h : Sim start s a) : Sound start (headOf start s.disk) := by
  have hd := h.disk
  cases hp : s.point with
  | idle => rw [hp] at hd; exact sound_empty hd
  | commit => rw [hp] at hd; exact sound_empty hd
  | writeLog tail => rw [hp] at hd; exact sound_empty hd.1
  | writeHead => rw [hp] at hd; exact sound_empty hd.1
  | install r tail => rw [hp] at hd; exact hd.1.sound h.sound
  | erase r => rw [hp] at hd; exact hd.1.sound h.sound
  | finish => rw [hp] at hd; exact sound_empty hd.1
  | readHead => rw [hp] at hd; exact hd.1

theorem sim_boot (disk : ℕ → Data) (d : ℕ → Data) (h : Sound start (headOf start disk))
    (hd : ∀ b, Home start b → d b = recovered start disk b) :
    Sim start (boot disk) ⟨d,d,0⟩ where
  active := rfl
  durable := hd
  volatile := fun _ _ => rfl
  sound := sound_empty rfl
  clean := fun _ _ => rfl
  pinned := by
    rintro b ⟨i,_,hi,_⟩
    exact absurd hi (Nat.not_lt_zero i)
  disk := ⟨h,rfl⟩
  committing := rfl
  alone := fun _ => rfl
  quiet := fun _ _ => rfl

theorem Sim.idle_of_outstanding (h : Sim start s a) (ho : 0 < s.outstanding) :
    s.point = .idle := by
  by_contra hp
  have := h.alone hp
  omega

theorem sim_beginOp {s' : State} (h : Sim start s a) (hr : s.point.recovering = false)
    (hs : beginOp s = .ok s') : Sim start s' { a with active := a.active+1 } := by
  rw [beginOp] at hs
  split at hs
  · cases hs
  · next hc =>
    split at hs
    · cases hs
    · have hidle : s.point = .idle := by
        rw [h.committing] at hc
        cases hp : s.point <;> simp_all [Point.inCommit,Point.recovering]
      cases hs
      exact
        { active := congrArg (·+1) h.active
          durable := h.durable
          volatile := h.volatile
          sound := h.sound
          clean := h.clean
          pinned := h.pinned
          disk := at_congr s _ rfl rfl (fun _ => rfl) s.point h.disk
          committing := h.committing
          alone := fun hp => absurd hidle hp
          quiet := fun _ ho => absurd ho (Nat.succ_ne_zero _) }

theorem sim_endOp {s' : State} (h : Sim start s a) (ho : 0 < s.outstanding)
    (hs : endOp s = .ok s') : Sim start s' { a with active := a.active-1 } := by
  have hidle := h.idle_of_outstanding ho
  have hd := h.disk
  have hv := h.volatile
  have hp := h.pinned
  have hcl := h.clean
  rw [hidle] at hd
  simp only [Pending,hidle] at hv hp hcl
  rw [endOp] at hs
  split at hs
  · cases hs
  · split at hs
    · next hz =>
      cases hs
      exact
        { active := congrArg (·-1) h.active
          durable := h.durable
          volatile := hv
          sound := h.sound
          clean := hcl
          pinned := hp
          disk := hd
          committing := rfl
          alone := fun _ => hz
          quiet := fun h => by cases h }
    · next hz =>
      cases hs
      exact
        { active := congrArg (·-1) h.active
          durable := h.durable
          volatile := h.volatile
          sound := h.sound
          clean := h.clean
          pinned := h.pinned
          disk := at_congr s _ rfl rfl (fun _ => rfl) s.point h.disk
          committing := h.committing
          alone := fun hp => absurd hidle hp
          quiet := fun _ h => absurd h hz }

def changed (a : Store ℕ Data) (b : ℕ) (f : Data → Data) : Store ℕ Data :=
  { a with volatile := Function.update a.volatile b (f (a.volatile b)) }

theorem changed_volatile (h : Sim start s a) (hidle : s.point = .idle) {b : ℕ} (hb : Home start b)
    (f : Data → Data) (x : ℕ) (hx : Home start x) :
    (changed a b f).volatile x = (setData (bread s b) b (f ((bread s b).view b))).view x := by
  have hv := h.volatile
  simp only [hidle,Point.recovering,Bool.false_eq_true,if_false] at hv
  rw [setData_view,bread_view,bread_view]
  show Function.update a.volatile b (f (a.volatile b)) x = _
  by_cases hxb : x = b
  · rw [if_pos hxb,hxb,Function.update_self,hv b hb]
  · rw [if_neg hxb,Function.update_of_ne hxb,hv x hx]

theorem sim_absorbed (h : Sim start s a) (hidle : s.point = .idle) (ho : 0 < s.outstanding) {b : ℕ}
    (hb : Home start b) (f : Data → Data) {i : ℕ} (hi : i < s.lh.n) (hbi : s.lh.block i = b) :
    Sim start (setData (bread s b) b (f ((bread s b).view b))) (changed a b f) where
  active := h.active
  durable := h.durable
  volatile := by
    intro x hx
    rw [changed_volatile h hidle hb f x hx]
    simp only [setData,bread_point,hidle,Point.recovering,Bool.false_eq_true,if_false]
  sound := h.sound
  clean := by
    intro x hx
    have hne : x ≠ b := by
      rintro rfl
      refine hx ⟨i,?_,hi,hbi⟩
      rw [show (setData (bread s x) x (f ((bread s x).view x))).point = .idle from hidle]
      exact Nat.zero_le i
    rw [setData_view,if_neg hne,bread_view]
    exact h.clean x hx
  pinned := h.pinned
  disk := by
    have hd := h.disk
    rw [hidle] at hd
    rw [show (setData (bread s b) b (f ((bread s b).view b))).point = .idle from hidle]
    exact hd
  committing := h.committing
  alone := fun hp => absurd hidle hp
  quiet := fun _ hz => absurd hz (Nat.ne_of_gt ho)

theorem sound_enter {lh : Logheader} (h : Sound start lh) {b : ℕ} (hb : Home start b)
    (hn : lh.n < LOGBLOCKS) (hnew : ∀ i < lh.n, lh.block i ≠ b) :
    Sound start ⟨lh.n+1,Function.update lh.block lh.n b⟩ := by
  have hold : ∀ i < lh.n, Function.update lh.block lh.n b i = lh.block i := fun i hi =>
    Function.update_of_ne (Nat.ne_of_lt hi) b lh.block
  refine ⟨hn,fun i hi => ?_,fun i hi j hj he => ?_⟩
  · show Home start (Function.update lh.block lh.n b i)
    rcases Nat.lt_succ_iff_lt_or_eq.mp hi with hi|rfl
    · rw [hold i hi]
      exact h.home i hi
    · rw [Function.update_self]
      exact hb
  · dsimp only at he
    rcases Nat.lt_succ_iff_lt_or_eq.mp hi with hi|rfl <;>
      rcases Nat.lt_succ_iff_lt_or_eq.mp hj with hj|rfl
    · rw [hold i hi,hold j hj] at he
      exact h.distinct i hi j hj he
    · rw [hold i hi,Function.update_self] at he
      exact absurd he (hnew i hi)
    · rw [hold j hj,Function.update_self] at he
      exact absurd he.symm (hnew j hj)
    · rfl

theorem sim_entered (h : Sim start s a) (hidle : s.point = .idle) (ho : 0 < s.outstanding) {b : ℕ}
    (hb : Home start b) (f : Data → Data) (hn : s.lh.n < LOGBLOCKS)
    (hnew : ∀ i < s.lh.n, s.lh.block i ≠ b) (d : Data) (hd : d = f ((bread s b).view b)) :
    Sim start { bpin (setData (bread s b) b d) b with
      lh := ⟨s.lh.n+1,Function.update s.lh.block s.lh.n b⟩ } (changed a b f) := by
  have hold : ∀ i < s.lh.n, Function.update s.lh.block s.lh.n b i = s.lh.block i := fun i hi =>
    Function.update_of_ne (Nat.ne_of_lt hi) b s.lh.block
  have hpend : ∀ x, Pending { bpin (setData (bread s b) b d) b with
      lh := ⟨s.lh.n+1,Function.update s.lh.block s.lh.n b⟩ } x ↔ x = b ∨ Pending s x := by
    intro x
    simp only [Pending,bpin,setData,bread_point,hidle,Point.first,Nat.zero_le,true_and]
    constructor
    · rintro ⟨i,hi,rfl⟩
      rcases Nat.lt_succ_iff_lt_or_eq.mp hi with hi|rfl
      · right
        exact ⟨i,hi,(hold i hi).symm⟩
      · left
        exact Function.update_self _ _ _
    · rintro (rfl|⟨i,hi,rfl⟩)
      · exact ⟨s.lh.n,Nat.lt_succ_self _,Function.update_self _ _ _⟩
      · exact ⟨i,Nat.lt_succ_of_lt hi,hold i hi⟩
  exact
    { active := h.active
      durable := h.durable
      volatile := by
        intro x hx
        rw [changed_volatile h hidle hb f x hx,← hd]
        simp only [bpin,setData,bread_point,hidle,Point.recovering,Bool.false_eq_true,if_false]
        rfl
      sound := sound_enter h.sound hb hn hnew
      clean := by
        intro x hx
        rw [hpend,not_or] at hx
        have hv := setData_view (bread s b) b x d
        rw [if_neg hx.1,bread_view] at hv
        exact hv.trans (h.clean x hx.2)
      pinned := by
        intro x hx
        rw [hpend] at hx
        show 0 < Function.update s.pins b (s.pins b+1) x
        by_cases hxb : x = b
        · rw [hxb,Function.update_self]
          exact Nat.succ_pos _
        · rw [Function.update_of_ne hxb]
          exact h.pinned x (hx.resolve_left hxb)
      disk := by
        have hd := h.disk
        rw [hidle] at hd
        show At start _ s.point
        rw [hidle]
        exact hd
      committing := h.committing
      alone := fun hp => absurd hidle hp
      quiet := fun _ hz => absurd hz (Nat.ne_of_gt ho) }

theorem sim_logWrite {s' : State} (h : Sim start s a) {b : ℕ} (hb : Home start b)
    (f : Data → Data)
    (hs : logWrite (setData (bread s b) b (f ((bread s b).view b))) b = .ok s') :
    Sim start s' (changed a b f) ∧ 0 < s.outstanding := by
  obtain ⟨hn,ho,⟨i,hi,hbi,rfl⟩|⟨hnew,rfl⟩⟩ := logWrite_cases hs
  · exact ⟨sim_absorbed h (h.idle_of_outstanding ho) ho hb f hi hbi,ho⟩
  · exact ⟨sim_entered h (h.idle_of_outstanding ho) ho hb f hn hnew _ rfl,ho⟩

end Steps

end ListlibSyscalls.LogInvariant
