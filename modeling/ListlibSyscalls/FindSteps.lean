import ListlibSyscalls.FindDescriptors

/-!
# One call and one entry at a time

What a call of `find` does on a string, as one equation in the answer of the
file system and the next free descriptor, and what the loop does with one
entry. Everything said about whole searches is read off these.
-/

set_option autoImplicit false

namespace ListlibSyscalls.FindSteps
open StepRuns UserStrings DescriptorTable FindMachine FindPaths FindDescriptors

def spent (s : State) (lines : List Line) : State :=
  { s with opens := s.opens+1, out := s.out++lines }

def entered (s : State) (fd : ℕ) (f : File) : State :=
  { s with opens := s.opens+1, ofile := Function.update s.ofile fd (some f), depth := s.depth+1 }

theorem spent_close {env : Env} {s : State} {fd : ℕ} (f : File) (lines : List Line)
    (h : fdalloc env.nofile s.ofile = some fd) :
    State.close { s with
      opens := s.opens+1
      ofile := Function.update s.ofile fd (some f)
      out := s.out++lines } fd = spent s lines := by
  simp only [State.close,spent,close_open f h]

/-- A call opens its path, reports a failure, or goes on by the kind of the file. -/
theorem find_succ (env : Env) {target path : List Byte} (fuel : ℕ) (s : State) (hp : nul ∈ path)
    (ht : nul ∈ target) :
    find env target (fuel+1) path s =
      match env.openPath s.opens (text path), fdalloc env.nofile s.ofile with
      | some f, some fd =>
        match f.kind with
        | none => .ok (spent s [.cannotStat (text path)])
        | some .file => .ok (spent s
            (if afterSlash (text path) = text target then [.found (text path)] else []))
        | some .dir => do
          let t ← scan (find env target fuel) path f.dirents (env.stack (s.opens+1))
            (entered s fd f)
          .ok (t.leave.close fd)
        | some .device => .ok (spent s [])
      | _, _ => .ok (spent s [.cannotOpen (text path)]) := by
  rw [find,openFile]
  cases env.openPath s.opens (text path) with
  | none =>
    simp only [puts_eq hp,ok_bind]
    rfl
  | some f =>
    cases hfd : fdalloc env.nofile s.ofile with
    | none =>
      simp only [puts_eq hp,ok_bind]
      rfl
    | some fd =>
      simp only
      cases f.kind with
      | none =>
        simp only [puts_eq hp,ok_bind]
        exact congrArg Except.ok (spent_close f _ hfd)
      | some k =>
        cases k with
        | file =>
          obtain ⟨hn,htext⟩ := fileName_spec hp
          obtain ⟨z,hz,hiff⟩ := strcmp_spec ht (Or.inl hn)
          rw [htext] at hiff
          simp only [strlen_eq hp,ok_bind,hz,puts_eq hp]
          by_cases hz0 : z = 0
          · rw [if_pos hz0,if_pos (hiff.mp hz0)]
            exact congrArg Except.ok (spent_close f _ hfd)
          · rw [if_neg hz0,if_neg (fun h => hz0 (hiff.mpr h))]
            have hnone := spent_close f [] hfd
            rw [List.append_nil] at hnone
            exact congrArg Except.ok hnone
        | dir => rfl
        | device =>
          have hnone := spent_close f [] hfd
          rw [List.append_nil] at hnone
          exact congrArg Except.ok hnone

/-- The loop passes over free slots, over "." and "..", and over every entry
of a directory whose path leaves no room for a name. -/
def Skipped (path : List Byte) (de : Dirent) : Prop :=
  de.inum = 0 ∨ text de.name = [dot] ∨ text de.name = [dot,dot] ∨
    bufSize < (text path).length+1+DIRSIZ+1

theorem scan_skips (call : List Byte → State → Except Fault State) {path : List Byte}
    {de : Dirent} (des : List Dirent) (buf : List Byte) (s : State) (hp : nul ∈ path)
    (h : Skipped path de) : scan call path (de::des) buf s = scan call path des buf s.logRead := by
  rw [scan]
  by_cases hi : de.inum = 0
  · rw [if_pos hi]
  · obtain ⟨b,hb,hiff⟩ := isDots_spec de
    rw [if_neg hi,hb,ok_bind]
    cases b with
    | true => rfl
    | false =>
      have hdots : ¬ (text de.name = [dot] ∨ text de.name = [dot,dot]) := fun hd => by
        cases hiff.mpr hd
      have hlong := ((or_assoc.mpr (h.resolve_left hi)).resolve_left hdots)
      simp only [Bool.false_eq_true,if_false]
      rw [strlen_eq hp,ok_bind,if_pos hlong]

theorem scan_visits (call : List Byte → State → Except Fault State) {path : List Byte}
    {de : Dirent} (des : List Dirent) {buf : List Byte} (s : State) (hp : nul ∈ path)
    (h : ¬ Skipped path de) (hb : buf.length = bufSize) :
    ∃ buf', buf'.length = bufSize ∧ nul ∈ buf' ∧ text buf' = text path++slash::text de.name ∧
      scan call path (de::des) buf s = (do
        let s ← call buf' (s.logRead.logCall path buf')
        scan call path des buf' s) := by
  obtain ⟨hi,hone,htwo,hfits⟩ := by simpa only [Skipped,not_or] using h
  obtain ⟨buf',hbuild,hlen,hnul,htext⟩ := buildPath_spec de hp (Nat.le_of_not_lt hfits) hb
  refine ⟨buf',hlen,hnul,htext,?_⟩
  obtain ⟨b,hdots,hiff⟩ := isDots_spec de
  have hb : b = false := by
    cases b with
    | false => rfl
    | true => exact absurd (hiff.mp rfl) (not_or.mpr ⟨hone,htwo⟩)
  rw [scan,if_neg hi,hdots,ok_bind,hb]
  simp only [Bool.false_eq_true,if_false]
  rw [strlen_eq hp,ok_bind,if_neg hfits,hbuild,ok_bind]

/-- In a directory whose path leaves no room every entry is skipped. -/
theorem scan_long (call : List Byte → State → Except Fault State) {path : List Byte}
    (hp : nul ∈ path) (hlong : bufSize < (text path).length+1+DIRSIZ+1) (des : List Dirent)
    (buf : List Byte) (s : State) :
    ∃ s', scan call path des buf s = .ok s' ∧ s'.out = s.out := by
  induction des generalizing s with
  | nil => exact ⟨s.logRead,rfl,rfl⟩
  | cons de des ih =>
    obtain ⟨s',hs,ho⟩ := ih s.logRead
    refine ⟨s',?_,ho⟩
    rw [scan_skips call des buf s hp (Or.inr (Or.inr (Or.inr hlong))),hs]

end ListlibSyscalls.FindSteps
