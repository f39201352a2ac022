import ListlibSyscalls.FindOutput

/-!
# find returns on every directory graph

Nothing is assumed of what the file system answers: directories may contain
each other or themselves, names may be empty, repeated or without a NUL. A
recursive call is only made on a longer path that still fits the buffer, so
the room left in the buffer bounds the depth. No access leaves its array, or
the run would have stopped with a fault.
-/

set_option autoImplicit false

namespace ListlibSyscalls.FindTermination
open StepRuns UserStrings DescriptorTable FindMachine FindPaths FindDescriptors FindSteps FindTree FindOutput

/-- An entry that a directory opened under the path has, in use and neither "."
nor "..". -/
def Listed (env : Env) (path : List Byte) (de : Dirent) : Prop :=
  (∃ n f, env.openPath n path = some f ∧ f.kind = some .dir ∧ de ∈ f.dirents) ∧
    de.inum ≠ 0 ∧ text de.name ≠ [dot] ∧ text de.name ≠ [dot,dot]

/-- A recursive call: for an entry of the directory, on the caller's path, a slash
and the name up to its first NUL or its end, which with a NUL behind it fits the
buffer. -/
def Deeper (env : Env) (c : List Byte × List Byte) : Prop :=
  (∃ de, Listed env c.1 de ∧ c.2 = c.1++slash::text de.name) ∧
    c.1.length < c.2.length ∧ c.2.length < bufSize

def Descends (env : Env) (s s' : State) : Prop :=
  ∃ new, s'.calls = s.calls++new ∧ ∀ c ∈ new, Deeper env c

variable {env : Env}

theorem Descends.uncalled {s s' : State} (h : s'.calls = s.calls) : Descends env s s' :=
  ⟨[],by simpa using h,by simp⟩

theorem Descends.trans {s s' s'' : State} (h : Descends env s s') (h' : Descends env s' s'') :
    Descends env s s'' := by
  obtain ⟨xs,hxs,hx⟩ := h
  obtain ⟨ys,hys,hy⟩ := h'
  refine ⟨xs++ys,by rw [hys,hxs,List.append_assoc],fun c hc => ?_⟩
  rcases List.mem_append.mp hc with hc | hc
  · exact hx c hc
  · exact hy c hc

theorem text_length_le (m : List Byte) : (text m).length ≤ m.length :=
  (List.takeWhile_prefix _).length_le

section Search

variable {target : List Byte}

theorem logCall_descends {path buf : List Byte} {de : Dirent} (s : State)
    (hde : Listed env (text path) de) (ht : text buf = text path++slash::text de.name)
    (hfits : (text path).length+1+DIRSIZ+1 ≤ bufSize) :
    Descends env s (s.logRead.logCall path buf) := by
  refine ⟨[(text path,text buf)],rfl,fun c hc => ?_⟩
  rw [List.mem_singleton.mp hc]
  have hlen : (text buf).length = (text path).length+1+(text de.name).length := by
    rw [ht]
    simp
    omega
  have hname := text_length_le de.name
  rw [de.size] at hname
  exact ⟨⟨de,hde,ht⟩,by simp only; omega,by simp only; omega⟩

theorem scan_returns {call : List Byte → State → Except Fault State} {path : List Byte}
    {n : ℕ} {f : File} (hp : nul ∈ path) (hopen : env.openPath n (text path) = some f)
    (hdir : f.kind = some .dir) (hcall : ∀ buf s, nul ∈ buf → (text path).length+1+DIRSIZ+1 ≤ bufSize →
      (text path).length < (text buf).length → ∃ s', call buf s = .ok s' ∧ Descends env s s')
    (des : List Dirent) (hdes : ∀ de ∈ des, de ∈ f.dirents) (buf : List Byte) (s : State)
    (hb : buf.length = bufSize) : ∃ s', scan call path des buf s = .ok s' ∧ Descends env s s' := by
  induction des generalizing buf s with
  | nil => exact ⟨s.logRead,rfl,Descends.uncalled rfl⟩
  | cons de des ih =>
    have ih := ih fun e he => hdes e (List.mem_cons_of_mem de he)
    by_cases hskip : Skipped path de
    · obtain ⟨s',hs,hd⟩ := ih buf s.logRead hb
      refine ⟨s',?_,(Descends.uncalled rfl).trans hd⟩
      rw [scan_skips call des buf s hp hskip,hs]
    · obtain ⟨buf',hlen,hnul,htext,hscan⟩ := scan_visits call des s hp hskip hb
      have hfits : (text path).length+1+DIRSIZ+1 ≤ bufSize :=
        Nat.le_of_not_lt fun h => hskip (Or.inr (Or.inr (Or.inr h)))
      have hde : Listed env (text path) de := by
        simp only [Skipped,not_or] at hskip
        exact ⟨⟨n,f,hopen,hdir,hdes de (by simp)⟩,hskip.1,hskip.2.1,hskip.2.2.1⟩
      have hlonger : (text path).length < (text buf').length := by
        rw [htext]
        simp
      obtain ⟨s₁,hs₁,hd₁⟩ := hcall buf' (s.logRead.logCall path buf') hnul hfits hlonger
      obtain ⟨s₂,hs₂,hd₂⟩ := ih buf' s₁ hlen
      refine ⟨s₂,?_,((logCall_descends s hde htext hfits).trans hd₁).trans hd₂⟩
      rw [hscan,hs₁,ok_bind,hs₂]

/-- The fuel only has to cover the room that the path leaves in the buffer. -/
theorem find_returns (ht : nul ∈ target) (fuel : ℕ) (path : List Byte) (s : State)
    (hp : nul ∈ path) (hfuel : 0 < fuel) (hdeep : bufSize-14 ≤ (text path).length+fuel) :
    ∃ s', find env target fuel path s = .ok s' ∧ Descends env s s' := by
  induction fuel generalizing path s with
  | zero => cases hfuel
  | succ fuel ih =>
    rw [find_succ env fuel s hp ht]
    cases hopen : env.openPath s.opens (text path) with
    | none => exact ⟨_,rfl,Descends.uncalled rfl⟩
    | some f =>
      cases fdalloc env.nofile s.ofile with
      | none => exact ⟨_,rfl,Descends.uncalled rfl⟩
      | some fd =>
        simp only
        cases hkind : f.kind with
        | none => exact ⟨_,rfl,Descends.uncalled rfl⟩
        | some k =>
          cases k with
          | file => exact ⟨_,rfl,Descends.uncalled rfl⟩
          | device => exact ⟨_,rfl,Descends.uncalled rfl⟩
          | dir =>
            have hcall : ∀ buf s, nul ∈ buf → (text path).length+1+DIRSIZ+1 ≤ bufSize →
                (text path).length < (text buf).length →
                ∃ s', find env target fuel buf s = .ok s' ∧ Descends env s s' := by
              intro buf s hnul hfits hlonger
              simp only [DIRSIZ,bufSize] at hfits hdeep ih
              exact ih buf s hnul (by omega) (by omega)
            obtain ⟨s₂,hscan,hd⟩ := scan_returns hp hopen hkind hcall f.dirents
              (fun _ hde => hde) (env.stack (s.opens+1)) (entered s fd f) (env.stack_size _)
            simp only [hscan,ok_bind]
            exact ⟨_,rfl,hd⟩

end Search

/-- On every directory graph and every start path the search returns, with
fuel for as many calls as the buffer has bytes, every recursive call is on the
longer path of an entry, and that path is built inside the buffer. -/
theorem find_returns_inside_buffer (env : Env) (path target : List Byte) (hp : nul ∈ path)
    (ht : nul ∈ target) (fuel : ℕ) (hf : bufSize ≤ fuel) (s : State) :
    (∃ s', find env target fuel path s = .ok s' ∧ Descends env s s') ∧
    ∀ (p buf : List Byte) (de : Dirent), nul ∈ p → (text p).length+1+DIRSIZ+1 ≤ bufSize →
      buf.length = bufSize → ∃ buf', buildPath buf p de = .ok buf' ∧ buf'.length = bufSize ∧
        nul ∈ buf' ∧ text buf' = text p++slash::text de.name := by
  have hbig : bufSize = 512 := rfl
  refine ⟨find_returns ht fuel path s hp (by omega) (by omega),?_⟩
  exact fun p buf de hnul hfits hb => buildPath_spec de hnul hfits hb

/-- A directory whose two entries, one of them without a name, lead back to it. -/
def knot : File :=
  ⟨some .dir,[⟨1,List.replicate DIRSIZ nul,List.length_replicate⟩,
    ⟨2,List.replicate DIRSIZ dot,List.length_replicate⟩]⟩

def knotted : Env where
  nofile := 1000
  openPath _ _ := some knot
  stack _ := List.replicate bufSize slash
  stack_size _ := List.length_replicate

theorem find_returns_knotted : ∃ s', find knotted (chars ['t']++[nul]) bufSize [dot,nul]
    freshState = .ok s' ∧ Descends knotted freshState s' :=
  (find_returns_inside_buffer knotted [dot,nul] (chars ['t']++[nul]) (by decide) (by decide)
    bufSize (le_refl _) freshState).1

/-- Whatever opens, `fstat`s and reads fail, a search that returns has the
descriptors it started with, each read at depth `d` was made with exactly `d`
more, and every search of a string returns. -/
theorem find_restores_descriptors (env : Env) (path target : List Byte) (fuel : ℕ) (s : State) :
    (∀ s', find env target fuel path s = .ok s' → Balanced env 1 s s') ∧
    (nul ∈ path → nul ∈ target → bufSize ≤ fuel → ∃ s', find env target fuel path s = .ok s') := by
  have hbig : bufSize = 512 := rfl
  constructor
  · exact find_balanced fuel path s
  · intro hp ht hf
    obtain ⟨s',hs,_⟩ := find_returns ht fuel path s hp (by omega) (by omega)
    exact ⟨s',hs⟩

theorem find_restores_small : ∃ s', find (holding 16 (chars ['r']) smallTree) (chars ['t']++[nul])
      bufSize (chars ['r']++[nul]) freshState = .ok s' ∧
    Balanced (holding 16 (chars ['r']) smallTree) 1 freshState s' ∧
    s'.reads.map Prod.fst = [1,1,1,1,1,2,2,1,2,2,1] := by
  obtain ⟨hbal,hret⟩ := find_restores_descriptors (holding 16 (chars ['r']) smallTree)
    (chars ['r']++[nul]) (chars ['t']++[nul]) bufSize freshState
  obtain ⟨s',hs⟩ := hret (by simp) (by simp) (le_refl _)
  refine ⟨s',hs,hbal s' hs,?_⟩
  have hreads : (find (holding 16 (chars ['r']) smallTree) (chars ['t']++[nul]) bufSize
      (chars ['r']++[nul]) freshState).toOption.map (fun s => s.reads.map Prod.fst) =
      some [1,1,1,1,1,2,2,1,2,2,1] := by
    decide +kernel
  rw [hs] at hreads
  exact Option.some.inj hreads

end ListlibSyscalls.FindTermination
