import ListlibSyscalls.FindOutput

/-!
# How deep find can look

A call keeps its directory open while it searches the entries, so the levels
of a tree take one descriptor each. On a file system that refuses nothing the
output is known exactly: the files of that name as far as the descriptors go,
and one message for every entry on the first level they do not reach. The user
stack, of which a call takes some too, is taken to be large enough.
-/

set_option autoImplicit false

namespace ListlibSyscalls.FindDepth
open StepRuns UserStrings DescriptorTable FindMachine FindPaths FindDescriptors FindSteps FindTree FindOutput

abbrev MAXPATH : ℕ := 128

/-- What is printed for one entry when `d` descriptors are free at the root. -/
def lineOf (target : List Byte) (d : ℕ) (start : List Byte) (e : List Name × Tree) : List Line :=
  if e.1.length = d then [.cannotOpen (render start e.1)]
  else if e.1.length < d ∧ e.2.kind = .file ∧ afterSlash (render start e.1) = target then
    [.found (render start e.1)]
  else []

/-- The entry stands under its path, which is short enough, and the file
system refuses neither its open nor its `fstat`. -/
def Present (env : Env) (start : List Byte) (e : List Name × Tree) : Prop :=
  Resolves env start e ∧ Answers env start e ∧ (render start e.1).length < MAXPATH

theorem lineOf_below (target : List Byte) (d : ℕ) (start : List Byte) (n : Name)
    (e : List Name × Tree) :
    lineOf target (d+1) start (n::e.1,e.2) = lineOf target d (start++slash::n.bytes) e := by
  simp [lineOf,render_cons]

theorem lineOf_entry (target : List Byte) (d : ℕ) (start : List Byte) (i : Inum) (n : Name)
    (t : Tree) (rest : Slots) :
    (Slots.entry i n t rest).occurrences.flatMap (lineOf target (d+1) start) =
      (([],t)::t.occurrences).flatMap (lineOf target d (start++slash::n.bytes))++
        rest.occurrences.flatMap (lineOf target (d+1) start) := by
  have hmap : ([n],t)::t.occurrences.map (fun e => (n::e.1,e.2)) =
      (([],t)::t.occurrences).map fun e => (n::e.1,e.2) := rfl
  rw [Slots.occurrences,List.flatMap_append,hmap,List.flatMap_map]
  simp only [lineOf_below]

theorem lineOf_unreached (target start : List Byte) (t : Tree) :
    (([],t)::t.occurrences).flatMap (lineOf target 0 start) = [.cannotOpen start] := by
  have hbelow : t.occurrences.flatMap (lineOf target 0 start) = [] := by
    rw [List.flatMap_eq_nil_iff]
    intro e he
    have hne := tree_occurrences_ne_nil t e he
    simp [lineOf,hne]
  rw [List.flatMap_cons,hbelow]
  simp [lineOf,render]

theorem present_below {env : Env} {start : List Byte} {n : Name} {e : List Name × Tree}
    (h : Present env start (n::e.1,e.2)) : Present env (start++slash::n.bytes) e := by
  obtain ⟨hres,hans,hlen⟩ := h
  rw [render_cons] at hlen
  refine ⟨fun k f hf => ?_,fun k => ?_,hlen⟩
  · rw [← render_cons] at hf
    exact hres k f hf
  · rw [← render_cons]
    exact hans k

theorem present_root {env : Env} {start : List Byte} {t : Tree} (h : Present env start ([],t))
    (k : ℕ) : ∃ f, env.openPath k start = some f ∧ f.kind = some t.kind ∧
      (∀ slots, t = .dir slots → f.dirents = slots.dirents) ∧
      start.length+1+DIRSIZ+1 ≤ bufSize := by
  obtain ⟨hres,hans,hlen⟩ := h
  obtain ⟨f,hf,hk⟩ := hans k
  obtain ⟨hkind,hdir⟩ := hres k f hf
  obtain ⟨j,hj⟩ := Option.isSome_iff_exists.mp hk
  rw [render,List.flatMap_nil,List.append_nil] at hf hlen
  refine ⟨f,hf,?_,hdir,?_⟩
  · rw [hj,hkind j hj]
  · simp only [MAXPATH,DIRSIZ,bufSize] at *
    omega

section Descent

variable {env : Env} {target : List Byte}

mutual
theorem find_reports (ht : nul ∈ target) (t : Tree) (fuel : ℕ) (path : List Byte) (s : State)
    (hp : nul ∈ path) (hpres : ∀ e ∈ ([],t)::t.occurrences, Present env (text path) e)
    (hfuel : 0 < fuel) (hdeep : bufSize-14 ≤ (text path).length+fuel) :
    ∃ s', find env target fuel path s = .ok s' ∧ s'.out = s.out++
      (([],t)::t.occurrences).flatMap
        (lineOf (text target) (freeSlots env s.ofile) (text path)) := by
  obtain ⟨fuel,rfl⟩ := Nat.exists_eq_add_of_lt hfuel
  rw [Nat.zero_add] at hdeep ⊢
  obtain ⟨f,hf,hk,hdir,hfits⟩ := present_root (hpres ([],t) (by simp)) s.opens
  rw [find_succ env fuel s hp ht,hf]
  cases hfd : fdalloc env.nofile s.ofile with
  | none =>
    rw [freeSlots_none hfd,lineOf_unreached]
    exact ⟨_,rfl,rfl⟩
  | some fd =>
    have hfree := freeSlots_open f hfd
    have hroot : lineOf (text target) (freeSlots env s.ofile) (text path) ([],t) =
        if t.kind = .file ∧ afterSlash (text path) = text target then [.found (text path)]
        else [] := by
      simp [lineOf,render,← hfree]
    rw [List.flatMap_cons,hroot]
    simp only [hk]
    cases t with
    | file => exact ⟨_,rfl,by simp [spent,Tree.kind,Tree.occurrences]⟩
    | device => exact ⟨_,rfl,by simp [spent,Tree.kind,Tree.occurrences]⟩
    | dir slots =>
      obtain ⟨s₂,hscan,hout⟩ := scan_reports ht slots fuel path (env.stack (s.opens+1))
        (entered s fd f) hp (env.stack_size _) hfits
        (fun e he => hpres e (List.mem_cons_of_mem _ he))
        (by simp only [DIRSIZ,bufSize] at *; omega) (by simp only [DIRSIZ,bufSize] at *; omega)
      simp only [Tree.kind]
      rw [hdir slots rfl]
      refine ⟨s₂.leave.close fd,by rw [hscan,ok_bind],?_⟩
      simp only [State.close,State.leave,hout,entered,hfree]
      simp [Tree.occurrences]
theorem scan_reports (ht : nul ∈ target) (ss : Slots) (fuel : ℕ) (path buf : List Byte) (s : State)
    (hp : nul ∈ path) (hb : buf.length = bufSize)
    (hfits : (text path).length+1+DIRSIZ+1 ≤ bufSize)
    (hpres : ∀ e ∈ ss.occurrences, Present env (text path) e) (hfuel : 0 < fuel)
    (hdeep : bufSize-14 ≤ (text path).length+1+fuel) :
    ∃ s', scan (find env target fuel) path ss.dirents buf s = .ok s' ∧ s'.out = s.out++
      ss.occurrences.flatMap (lineOf (text target) (freeSlots env s.ofile+1) (text path)) := by
  cases ss with
  | nil => exact ⟨s.logRead,rfl,by simp [Slots.occurrences,State.logRead]⟩
  | free name size rest =>
    obtain ⟨s',hs,hout⟩ := scan_reports ht rest fuel path buf s.logRead hp hb hfits hpres hfuel hdeep
    exact ⟨s',(scan_skips _ _ buf s hp (Or.inl rfl)).trans hs,hout⟩
  | self inum rest =>
    obtain ⟨s',hs,hout⟩ := scan_reports ht rest fuel path buf s.logRead hp hb hfits hpres hfuel hdeep
    exact ⟨s',(scan_skips _ _ buf s hp (Or.inr (Or.inl (text_padded (by decide))))).trans hs,hout⟩
  | parent inum rest =>
    obtain ⟨s',hs,hout⟩ := scan_reports ht rest fuel path buf s.logRead hp hb hfits hpres hfuel hdeep
    exact ⟨s',(scan_skips _ _ buf s hp
      (Or.inr (Or.inr (Or.inl (text_padded (by decide)))))).trans hs,hout⟩
  | entry inum name node rest =>
    obtain ⟨hnode,hrest⟩ := forall_occurrences_entry hpres
    obtain ⟨buf',hlen,hnul,hpath,hscan⟩ := scan_visits (find env target fuel) rest.dirents s hp
      (entry_visited inum name hfits) hb
    rw [text_padded name.noNul] at hpath
    obtain ⟨s₁,hfind,hout₁⟩ := find_reports ht node fuel buf' (s.logRead.logCall path buf') hnul
      (by rw [hpath]; exact fun e he => present_below (hnode e he)) hfuel
      (by rw [hpath]; simp; omega)
    obtain ⟨s₂,hs₂,hout₂⟩ := scan_reports ht rest fuel path buf' s₁ hp hlen hfits hrest hfuel hdeep
    refine ⟨s₂,?_,?_⟩
    · rw [Slots.dirents,hscan,hfind,ok_bind,hs₂]
    · -- the first call gave its descriptors back
      have hofile : s₁.ofile = s.ofile := find_ofile fuel buf' (s.logRead.logCall path buf') s₁ hfind
      rw [lineOf_entry,hout₂,hout₁,hofile,hpath,List.append_assoc]
      rfl
end

end Descent

mutual
theorem tree_levels (t : Tree) (e : List Name × Tree) (he : e ∈ t.occurrences) (k : ℕ) (hk : 0 < k)
    (hle : k ≤ e.1.length) : ∃ e' ∈ t.occurrences, e'.1.length = k := by
  cases t with
  | file => simp [Tree.occurrences] at he
  | device => simp [Tree.occurrences] at he
  | dir slots => exact slots_levels slots e he k hk hle
theorem slots_levels (ss : Slots) (e : List Name × Tree) (he : e ∈ ss.occurrences) (k : ℕ)
    (hk : 0 < k) (hle : k ≤ e.1.length) : ∃ e' ∈ ss.occurrences, e'.1.length = k := by
  cases ss with
  | nil => simp [Slots.occurrences] at he
  | free name size rest => exact slots_levels rest e he k hk hle
  | self inum rest => exact slots_levels rest e he k hk hle
  | parent inum rest => exact slots_levels rest e he k hk hle
  | entry inum name node rest =>
    rw [Slots.occurrences] at he ⊢
    rcases List.mem_append.mp he with he | he
    · by_cases h1 : k = 1
      · exact ⟨([name],node),by simp,h1.symm⟩
      · -- below the first level the entry lies in the node
        rcases List.mem_cons.mp he with rfl | he
        · simp only [List.length_singleton] at hle
          omega
        · obtain ⟨e₀,he₀,rfl⟩ := List.mem_map.mp he
          simp only [List.length_cons] at hle
          obtain ⟨e',he',hl⟩ := tree_levels node e₀ he₀ (k-1) (by omega) (by omega)
          refine ⟨(name::e'.1,e'.2),?_,?_⟩
          · apply List.mem_append_left
            apply List.mem_cons_of_mem
            exact List.mem_map.mpr ⟨e',he',rfl⟩
          · simp only [List.length_cons]
            omega
    · obtain ⟨e',he',hl⟩ := slots_levels rest e he k hk hle
      exact ⟨e',List.mem_append_right _ he',hl⟩
end

/-- A message is printed exactly when the tree goes deeper than the descriptors. -/
theorem cannotOpen_iff (target : List Byte) (d : ℕ) (hd : 0 < d) (start : List Byte) (t : Tree) :
    (∃ q, .cannotOpen q ∈ (([],t)::t.occurrences).flatMap (lineOf target d start)) ↔
      ∃ e ∈ t.occurrences, d ≤ e.1.length := by
  constructor
  · rintro ⟨q,hq⟩
    obtain ⟨e,he,hline⟩ := List.mem_flatMap.mp hq
    have hlen : e.1.length = d := by
      by_contra hne
      rw [lineOf,if_neg hne] at hline
      split_ifs at hline
      · simp at hline
      · simp at hline
    rcases List.mem_cons.mp he with rfl | he
    · exact absurd hlen (Nat.ne_of_lt hd)
    · exact ⟨e,he,hlen.ge⟩
  · rintro ⟨e,he,hle⟩
    obtain ⟨e',he',hlen⟩ := tree_levels t e he d hd hle
    refine ⟨render start e'.1,List.mem_flatMap.mpr ⟨e',List.mem_cons_of_mem _ he',?_⟩⟩
    rw [lineOf,if_pos hlen]
    exact List.mem_singleton_self _

def Standard (s : State) : Prop := ∀ fd < NOFILE, (s.ofile fd).isSome ↔ fd < 3

theorem standard_freeSlots {env : Env} {s : State} (hn : env.nofile = NOFILE) (hs : Standard s) :
    freeSlots env s.ofile = 13 := by
  have hset : ((Finset.range NOFILE).filter fun fd => (s.ofile fd).isNone) =
      (Finset.range NOFILE).filter fun fd => 3 ≤ fd := by
    ext fd
    simp only [Finset.mem_filter,Finset.mem_range]
    refine and_congr_right fun hfd => ?_
    rw [← not_lt,← hs fd hfd]
    cases s.ofile fd with
    | none => simp
    | some f => simp
  rw [freeSlots,hn,hset]
  decide

/-- With the three standard descriptors in use a tree of short paths is
searched twelve levels down. The files of that name up to there are printed,
each entry on the next level is reported and not searched, and no open fails
for want of a descriptor exactly when there is no such entry. -/
theorem find_reaches_twelve_levels (env : Env) (path target : List Byte) (tree : Tree) (s : State)
    (hn : env.nofile = NOFILE) (hs : Standard s) (hp : nul ∈ path) (ht : nul ∈ target)
    (hpres : ∀ e ∈ ([],tree)::tree.occurrences, Present env (text path) e) (fuel : ℕ)
    (hf : bufSize ≤ fuel) :
    ∃ s' lines, find env target fuel path s = .ok s' ∧ s'.out = s.out++lines ∧
      lines = (([],tree)::tree.occurrences).flatMap (lineOf (text target) 13 (text path)) ∧
      ((∀ q, .cannotOpen q ∉ lines) ↔ ∀ e ∈ tree.occurrences, e.1.length ≤ 12) := by
  have hbig : bufSize = 512 := rfl
  obtain ⟨s',hfind,hout⟩ := find_reports ht tree fuel path s hp hpres (by omega) (by omega)
  rw [standard_freeSlots hn hs] at hout
  refine ⟨s',_,hfind,hout,rfl,?_⟩
  have hiff := cannotOpen_iff (text target) 13 (by decide) (text path) tree
  constructor
  · intro hnone e he
    by_contra hdeep
    obtain ⟨q,hq⟩ := hiff.mpr ⟨e,he,Nat.lt_of_not_le hdeep⟩
    exact hnone q hq
  · intro hlow q hq
    obtain ⟨e,he,hdeep⟩ := hiff.mp ⟨q,hq⟩
    exact absurd (hlow e he) (Nat.not_le_of_lt hdeep)

/-- A file named "t" below that many directories, one in the other, all named "t". -/
def chain : ℕ → Tree
  | 0 => .file
  | k+1 => .dir (.entry usedInum shortName (chain k) .nil)

theorem standard_freshState : Standard freshState := by
  intro fd _
  by_cases h : fd < 3
  · simp [freshState,h]
  · simp [freshState,h]

theorem chain_present (k : ℕ)
    (hnodup : ((([],chain k)::(chain k).occurrences).map fun e => render (chars ['r']) e.1).Nodup)
    (hshort : ∀ e ∈ ([],chain k)::(chain k).occurrences,
      (render (chars ['r']) e.1).length < MAXPATH) :
    ∀ e ∈ ([],chain k)::(chain k).occurrences,
      Present (holding NOFILE (chars ['r']) (chain k)) (chars ['r']) e := fun e he =>
  ⟨holding_names NOFILE (chars ['r']) (chain k) hnodup e he,
    holding_answers NOFILE (chars ['r']) (chain k) e he,hshort e he⟩

theorem find_reaches_twelfth : ∃ s', find (holding NOFILE (chars ['r']) (chain 12))
      (chars ['t']++[nul]) bufSize (chars ['r']++[nul]) freshState = .ok s' ∧
    s'.out = [.found (chars ['r']++(List.replicate 12 [slash,0x74]).flatten)] := by
  have hr : text (chars ['r']++[nul]) = chars ['r'] := by decide
  have hpres := chain_present 12 (by decide +kernel) (by decide +kernel)
  obtain ⟨s',lines,hs,hout,hlines,-⟩ := find_reaches_twelve_levels
    (holding NOFILE (chars ['r']) (chain 12)) (chars ['r']++[nul]) (chars ['t']++[nul]) (chain 12)
    freshState rfl standard_freshState (by simp) (by simp) (by rw [hr]; exact hpres) bufSize
    (le_refl _)
  refine ⟨s',hs,?_⟩
  rw [hout,hlines]
  decide +kernel

/-- At the thirteenth level the only file of that name cannot be opened. -/
theorem thirteenth_not_reached :
    (∀ e ∈ ([],chain 13)::(chain 13).occurrences,
      Present (holding NOFILE (chars ['r']) (chain 13)) (chars ['r']) e) ∧
    expected (chars ['r']) (chars ['t']) (chain 13) =
      [chars ['r']++(List.replicate 13 [slash,0x74]).flatten] ∧
    ∃ s', find (holding NOFILE (chars ['r']) (chain 13)) (chars ['t']++[nul]) bufSize
        (chars ['r']++[nul]) freshState = .ok s' ∧
      s'.out = [.cannotOpen (chars ['r']++(List.replicate 13 [slash,0x74]).flatten)] := by
  refine ⟨chain_present 13 (by decide +kernel) (by decide +kernel),by decide +kernel,?_⟩
  have hout : (find (holding NOFILE (chars ['r']) (chain 13)) (chars ['t']++[nul]) bufSize
      (chars ['r']++[nul]) freshState).toOption.map State.out =
      some [.cannotOpen (chars ['r']++(List.replicate 13 [slash,0x74]).flatten)] := by
    decide +kernel
  cases hs : find (holding NOFILE (chars ['r']) (chain 13)) (chars ['t']++[nul]) bufSize
      (chars ['r']++[nul]) freshState with
  | ok s' =>
    rw [hs] at hout
    exact ⟨s',rfl,Option.some.inj hout⟩
  | error e =>
    rw [hs] at hout
    cases hout

end ListlibSyscalls.FindDepth
