import ListlibSyscalls.FindSteps
import ListlibSyscalls.FindTree

/-!
# find prints exactly the files of that name

The descent is followed through the tree: a call on a node prints what `lines`
lists for it, unless some open or `fstat` failed and said so. Every recursive
call has a longer path and the paths are bounded by the buffer, so the fuel
never runs out.
-/

set_option autoImplicit false

namespace ListlibSyscalls.FindOutput
open StepRuns UserStrings DescriptorTable FindMachine FindPaths FindDescriptors FindSteps FindTree

def AllFound (lines : List Line) : Prop := ∀ line ∈ lines, ∃ p, line = .found p

/-- Between two states the paths `ps` were printed, unless `ok` fails and a
failure was reported. -/
def Prints (ok : Prop) (s s' : State) (ps : List (List Byte)) : Prop :=
  ∃ lines, s'.out = s.out++lines ∧ (ok ∨ AllFound lines → lines = ps.map Line.found)

section Prints

variable {a b c : Prop} {s s' s'' : State} {ps qs : List (List Byte)}

theorem Prints.nothing (h : s'.out = s.out) : Prints a s s' [] :=
  ⟨[],by simpa using h,fun _ => rfl⟩

theorem Prints.line {p : List Byte} (h : s'.out = s.out++[.found p]) : Prints a s s' [p] :=
  ⟨_,h,fun _ => rfl⟩

theorem Prints.failure {line : Line} (h : s'.out = s.out++[line]) (hl : ∀ p, line ≠ .found p)
    (ha : ¬ a) : Prints a s s' ps := by
  refine ⟨_,h,fun hall => ?_⟩
  obtain ⟨p,hp⟩ := hall.resolve_left ha line (by simp)
  exact absurd hp (hl p)

theorem Prints.trans (h : Prints a s s' ps) (h' : Prints b s' s'' qs) (ha : c → a) (hb : c → b) :
    Prints c s s'' (ps++qs) := by
  obtain ⟨as,has,hp⟩ := h
  obtain ⟨bs,hbs,hq⟩ := h'
  refine ⟨as++bs,by rw [hbs,has,List.append_assoc],fun hall => ?_⟩
  have hps := hp (hall.imp ha (fun hall l hl => hall l (List.mem_append_left _ hl)))
  have hqs := hq (hall.imp hb (fun hall l hl => hall l (List.mem_append_right _ hl)))
  rw [hps,hqs,List.map_append]

theorem Prints.congr {t t' : State} (h : Prints a s s' ps) (ht : t.out = s.out)
    (ht' : t'.out = s'.out) (ha : c → a) : Prints c t t' ps := by
  obtain ⟨lines,ho,hp⟩ := h
  exact ⟨lines,by rw [ht',ht,ho],fun hall => hp (hall.imp_left ha)⟩

end Prints

/-- An open file shows the node: what `fstat` says, if it does, and for a
directory its dirents in order. -/
def Shows (t : Tree) (f : File) : Prop :=
  (∀ k, f.kind = some k → k = t.kind) ∧ ∀ slots, t = .dir slots → f.dirents = slots.dirents

def Resolves (env : Env) (start : List Byte) (e : List Name × Tree) : Prop :=
  ∀ k f, env.openPath k (render start e.1) = some f → Shows e.2 f

def Names (env : Env) (start : List Byte) (t : Tree) : Prop :=
  ∀ e ∈ ([],t)::t.occurrences, Resolves env start e

def Answers (env : Env) (start : List Byte) (e : List Name × Tree) : Prop :=
  ∀ k, ∃ f, env.openPath k (render start e.1) = some f ∧ f.kind.isSome

/-- Every open and `fstat` below the start path succeeds: the file system
answers and there are descriptors for the deepest entry. -/
def Succeeds (env : Env) (start : List Byte) (t : Tree) (s : State) : Prop :=
  (∀ e ∈ ([],t)::t.occurrences, Answers env start e) ∧ t.height ≤ freeSlots env s.ofile

theorem names_root {env : Env} {start : List Byte} {t : Tree} (h : Names env start t) (k : ℕ)
    (f : File) (hf : env.openPath k start = some f) : Shows t f := by
  apply h ([],t) (by simp) k f
  simpa [render] using hf

theorem height_pos (t : Tree) : 0 < t.height := by
  cases t with
  | file => exact Nat.one_pos
  | device => exact Nat.one_pos
  | dir slots => exact Nat.succ_pos _

def Fails (env : Env) (s : State) (path : List Byte) : Prop :=
  fdalloc env.nofile s.ofile = none ∨ ∀ f, env.openPath s.opens (text path) = some f → f.kind = none

theorem not_succeeds {env : Env} {s : State} {path : List Byte} (h : Fails env s path) (t : Tree) :
    ¬ Succeeds env (text path) t s := by
  rintro ⟨hans,hfree⟩
  rcases h with h | h
  · have hpos := height_pos t
    rw [freeSlots_none h] at hfree
    omega
  · obtain ⟨f,hf,hk⟩ := hans ([],t) (by simp) s.opens
    rw [render,List.flatMap_nil,List.append_nil] at hf
    simp [h f hf] at hk

theorem find_fails {env : Env} {target path : List Byte} {s : State} (fuel : ℕ) (hp : nul ∈ path)
    (ht : nul ∈ target) (h : Fails env s path) :
    ∃ line, (∀ p, line ≠ .found p) ∧
      find env target (fuel+1) path s = .ok (spent s [line]) := by
  rw [find_succ env fuel s hp ht]
  cases hf : env.openPath s.opens (text path) with
  | none => exact ⟨.cannotOpen (text path),by simp,rfl⟩
  | some f =>
    cases hfd : fdalloc env.nofile s.ofile with
    | none => exact ⟨.cannotOpen (text path),by simp,rfl⟩
    | some fd =>
      rcases h with h | h
      · rw [hfd] at h
        cases h
      · simp only [h f hf]
        exact ⟨.cannotStat (text path),by simp,rfl⟩

theorem opens_of_not_fails {env : Env} {s : State} {path : List Byte} (h : ¬ Fails env s path) :
    ∃ f fd k, env.openPath s.opens (text path) = some f ∧ fdalloc env.nofile s.ofile = some fd ∧
      f.kind = some k := by
  obtain ⟨hfd,hk⟩ := not_or.mp h
  push Not at hk
  obtain ⟨f,hf,hk⟩ := hk
  obtain ⟨fd,hfd⟩ := Option.ne_none_iff_exists'.mp hfd
  obtain ⟨k,hk⟩ := Option.ne_none_iff_exists'.mp hk
  exact ⟨f,fd,k,hf,hfd,hk⟩

theorem scan_passes {call : List Byte → State → Except Fault State} {path buf : List Byte}
    {de : Dirent} {des : List Dirent} {s : State} {c : Prop} {ps : List (List Byte)}
    (hp : nul ∈ path) (h : Skipped path de)
    (hrest : ∃ s', scan call path des buf s.logRead = .ok s' ∧ Prints c s.logRead s' ps) :
    ∃ s', scan call path (de::des) buf s = .ok s' ∧ Prints c s s' ps := by
  obtain ⟨s',hs,hpr⟩ := hrest
  refine ⟨s',?_,hpr.congr rfl rfl id⟩
  rw [scan_skips call des buf s hp h,hs]

theorem entry_visited {path : List Byte} (inum : Inum) (name : Name)
    (hfits : (text path).length+1+DIRSIZ+1 ≤ bufSize) :
    ¬ Skipped path ⟨inum.val,padded name.bytes,padded_length name.short⟩ := by
  rintro (h | h | h | h)
  · exact inum.property h
  · rw [text_padded name.noNul] at h
    exact name.notDot h
  · rw [text_padded name.noNul] at h
    exact name.notDots h
  · exact absurd hfits (Nat.not_le_of_lt h)

section Descent

variable {env : Env} {target : List Byte}

mutual
theorem find_prints (ht : nul ∈ target) (t : Tree) (fuel : ℕ) (path : List Byte) (s : State)
    (hp : nul ∈ path) (hn : Names env (text path) t) (hfuel : 0 < fuel)
    (hdeep : bufSize-14 ≤ (text path).length+fuel) :
    ∃ s', find env target fuel path s = .ok s' ∧
      Prints (Succeeds env (text path) t s) s s' (t.lines (text target) (text path)) := by
  obtain ⟨fuel,rfl⟩ := Nat.exists_eq_add_of_lt hfuel
  rw [Nat.zero_add] at hdeep ⊢
  by_cases hfails : Fails env s path
  · obtain ⟨line,hline,hs⟩ := find_fails fuel hp ht hfails
    exact ⟨_,hs,Prints.failure rfl hline (not_succeeds hfails t)⟩
  · obtain ⟨f,fd,k,hf,hfd,hk⟩ := opens_of_not_fails hfails
    obtain ⟨hkind,hdir⟩ := names_root hn _ f hf
    have hkt := hkind k hk
    subst hkt
    rw [find_succ env fuel s hp ht,hf,hfd]
    simp only [hk]
    cases t with
    | file =>
      refine ⟨_,rfl,?_⟩
      rw [Tree.lines]
      split_ifs
      · exact Prints.line rfl
      · exact Prints.nothing (by simp [spent])
    | device => exact ⟨_,rfl,Prints.nothing (by simp [spent])⟩
    | dir slots =>
      simp only [Tree.kind]
      rw [hdir slots rfl,Tree.lines]
      have hfree := freeSlots_open f hfd
      by_cases hfits : (text path).length+1+DIRSIZ+1 ≤ bufSize
      · obtain ⟨s₂,hscan,hprints⟩ := scan_prints ht slots fuel path (env.stack (s.opens+1))
          (entered s fd f) hp (env.stack_size _) hfits
          (fun e he => hn e (List.mem_cons_of_mem _ he))
          (by simp only [DIRSIZ,bufSize] at *; omega) (by simp only [DIRSIZ,bufSize] at *; omega)
        refine ⟨s₂.leave.close fd,by rw [hscan,ok_bind],?_⟩
        rw [if_pos hfits]
        apply hprints.congr rfl rfl
        rintro ⟨hans,hheight⟩
        have hroom : slots.height+1 ≤ freeSlots env (entered s fd f).ofile+1 :=
          hheight.trans_eq hfree.symm
        exact ⟨fun e he => hans e (List.mem_cons_of_mem _ he),Nat.le_of_succ_le_succ hroom⟩
      · obtain ⟨s₂,hscan,hout⟩ := scan_long (find env target fuel) hp (Nat.lt_of_not_le hfits)
          slots.dirents (env.stack (s.opens+1)) (entered s fd f)
        refine ⟨s₂.leave.close fd,by rw [hscan,ok_bind],?_⟩
        rw [if_neg hfits]
        exact Prints.nothing hout
theorem scan_prints (ht : nul ∈ target) (ss : Slots) (fuel : ℕ) (path buf : List Byte) (s : State)
    (hp : nul ∈ path) (hb : buf.length = bufSize)
    (hfits : (text path).length+1+DIRSIZ+1 ≤ bufSize)
    (hn : ∀ e ∈ ss.occurrences, Resolves env (text path) e) (hfuel : 0 < fuel)
    (hdeep : bufSize-14 ≤ (text path).length+1+fuel) :
    ∃ s', scan (find env target fuel) path ss.dirents buf s = .ok s' ∧
      Prints ((∀ e ∈ ss.occurrences, Answers env (text path) e) ∧
        ss.height ≤ freeSlots env s.ofile) s s' (ss.lines (text target) (text path)) := by
  cases ss with
  | nil => exact ⟨s.logRead,rfl,Prints.nothing rfl⟩
  | free name size rest =>
    exact scan_passes hp (Or.inl rfl)
      (scan_prints ht rest fuel path buf s.logRead hp hb hfits hn hfuel hdeep)
  | self inum rest =>
    exact scan_passes hp (Or.inr (Or.inl (text_padded (by decide))))
      (scan_prints ht rest fuel path buf s.logRead hp hb hfits hn hfuel hdeep)
  | parent inum rest =>
    exact scan_passes hp (Or.inr (Or.inr (Or.inl (text_padded (by decide)))))
      (scan_prints ht rest fuel path buf s.logRead hp hb hfits hn hfuel hdeep)
  | entry inum name node rest =>
    obtain ⟨hnode,hrest⟩ := forall_occurrences_entry hn
    have htext := text_padded name.noNul
    obtain ⟨buf',hlen,hnul,hpath,hscan⟩ := scan_visits (find env target fuel) rest.dirents s hp
      (entry_visited inum name hfits) hb
    rw [htext] at hpath
    have hnames : Names env (text buf') node := by
      intro e he k f hf
      rw [hpath,← render_cons] at hf
      exact hnode e he k f hf
    obtain ⟨s₁,hfind,hpr₁⟩ := find_prints ht node fuel buf' (s.logRead.logCall path buf') hnul
      hnames hfuel (by rw [hpath]; simp; omega)
    obtain ⟨s₂,hs₂,hpr₂⟩ := scan_prints ht rest fuel path buf' s₁ hp hlen hfits hrest hfuel hdeep
    refine ⟨s₂,?_,?_⟩
    · rw [Slots.dirents,hscan,hfind,ok_bind,hs₂]
    · rw [Slots.lines,← hpath]
      -- the first call gave its descriptors back
      have hofile : s₁.ofile = s.ofile := find_ofile fuel buf' (s.logRead.logCall path buf') s₁ hfind
      rw [hofile] at hpr₂
      apply (hpr₁.congr rfl rfl id).trans hpr₂
      · rintro ⟨hans,hheight⟩
        refine ⟨fun e he k => ?_,le_trans (le_max_left _ _) hheight⟩
        rw [hpath,← render_cons]
        exact (forall_occurrences_entry hans).1 e he k
      · rintro ⟨hans,hheight⟩
        exact ⟨(forall_occurrences_entry hans).2,le_trans (le_max_right _ _) hheight⟩
end

end Descent

/-- On every tree the search returns, and when every open and `fstat` succeeds,
as every run does that has reported no failure, it prints exactly the expected
paths, in order. -/
theorem find_prints_exactly (env : Env) (path target : List Byte) (tree : Tree) (hp : nul ∈ path)
    (ht : nul ∈ target) (hn : Names env (text path) tree) (fuel : ℕ) (hf : bufSize ≤ fuel)
    (s : State) :
    ∃ s' lines, find env target fuel path s = .ok s' ∧ s'.out = s.out++lines ∧
      (Succeeds env (text path) tree s ∨ AllFound lines →
        lines = (expected (text path) (text target) tree).map Line.found) := by
  have hbig : bufSize = 512 := rfl
  obtain ⟨s',hs,lines,ho,hlines⟩ := find_prints ht tree fuel path s hp hn (by omega) (by omega)
  refine ⟨s',lines,hs,ho,fun hall => ?_⟩
  rw [hlines hall,tree_lines_eq]

def opened : Tree → File
  | .dir slots => ⟨some .dir,slots.dirents⟩
  | t => ⟨some t.kind,[]⟩

def holding (nofile : ℕ) (start : List Byte) (t : Tree) : Env where
  nofile := nofile
  openPath _ path :=
    ((([],t)::t.occurrences).find? fun e => decide (render start e.1 = path)).map
      fun e => opened e.2
  stack _ := List.replicate bufSize nul
  stack_size _ := List.length_replicate

theorem shows_opened (t : Tree) : Shows t (opened t) := by
  constructor
  · intro k hk
    cases t with
    | file => exact (Option.some.inj hk).symm
    | device => exact (Option.some.inj hk).symm
    | dir slots => exact (Option.some.inj hk).symm
  · rintro slots rfl
    rfl

theorem kind_opened (t : Tree) : (opened t).kind.isSome := by
  cases t with
  | file => rfl
  | device => rfl
  | dir slots => rfl

theorem holding_names (nofile : ℕ) (start : List Byte) (t : Tree)
    (h : ((([],t)::t.occurrences).map fun e => render start e.1).Nodup) :
    Names (holding nofile start t) start t := by
  intro e he k f hf
  obtain ⟨e',hfind,rfl⟩ := Option.map_eq_some_iff.mp hf
  have hpath : render start e'.1 = render start e.1 := by
    simpa using List.find?_some hfind
  have heq : e' = e := List.inj_on_of_nodup_map h (List.mem_of_find?_eq_some hfind) he hpath
  rw [heq]
  exact shows_opened e.2

theorem holding_answers (nofile : ℕ) (start : List Byte) (t : Tree) :
    ∀ e ∈ ([],t)::t.occurrences, Answers (holding nofile start t) start e := by
  intro e he k
  have hsome : ((([],t)::t.occurrences).find?
      fun e' => decide (render start e'.1 = render start e.1)).isSome :=
    List.find?_isSome.mpr ⟨e,he,decide_eq_true rfl⟩
  obtain ⟨e',hfind⟩ := Option.isSome_iff_exists.mp hsome
  exact ⟨_,Option.map_eq_some_iff.mpr ⟨e',hfind,rfl⟩,kind_opened e'.2⟩

def chars (cs : List Char) : List Byte := cs.map fun c => BitVec.ofNat 8 c.toNat

def freshState : State :=
  ⟨0,fun fd => if fd < 3 then some ⟨some .device,[]⟩ else none,[],0,[],[]⟩

def usedInum : Inum := ⟨1,by decide⟩

def shortName : Name :=
  ⟨chars ['t'],by decide,by decide,by decide,by decide,by decide,by decide⟩

def fullName : Name :=
  ⟨chars ['a','b','c','d','e','f','g','h','i','j','k','l','m','t'],by decide,by decide,by decide,
    by decide,by decide,by decide⟩

/-- A directory with a free slot, a device, a directory named "t" that holds a
file, and a directory with a full name that holds a file "t". -/
def smallTree : Tree :=
  .dir (.self usedInum (.parent usedInum (.free (List.replicate DIRSIZ nul) (by decide)
    (.entry usedInum ⟨chars ['d'],by decide,by decide,by decide,by decide,by decide,by decide⟩ .device
    (.entry usedInum shortName (.dir (.entry usedInum fullName .file .nil))
    (.entry usedInum fullName (.dir (.entry usedInum shortName .file .nil)) .nil))))))

theorem find_prints_exactly_small :
    ∃ s', find (holding 16 (chars ['r']) smallTree) (chars ['t']++[nul]) bufSize
        (chars ['r']++[nul]) freshState = .ok s' ∧
      s'.out = [.found (chars ['r']++slash::fullName.bytes++slash::shortName.bytes)] := by
  have hr : text (chars ['r']++[nul]) = chars ['r'] := by decide
  obtain ⟨s',lines,hs,ho,hlines⟩ := find_prints_exactly (holding 16 (chars ['r']) smallTree)
    (chars ['r']++[nul]) (chars ['t']++[nul]) smallTree (by simp) (by simp)
    (by rw [hr]; exact holding_names 16 (chars ['r']) smallTree (by decide)) bufSize (le_refl _)
    freshState
  have hgood : Succeeds (holding 16 (chars ['r']) smallTree) (chars ['r']) smallTree
      freshState :=
    ⟨holding_answers 16 (chars ['r']) smallTree,by decide⟩
  refine ⟨s',hs,?_⟩
  rw [ho,hlines (Or.inl (by rw [hr]; exact hgood))]
  decide

end ListlibSyscalls.FindOutput
