import Mathlib.Data.Finset.Card
import Mathlib.Data.Finset.Range
import ListlibSyscalls.FindPaths

/-!
# The descriptors of find

An open takes one free descriptor and the call that made it gives it back, on
every path through `find`. Whatever the file system answers, a call that
returns has left the descriptor table as it was, and each read of a directory
was made with one descriptor open for every call then under way.
-/

set_option autoImplicit false

namespace ListlibSyscalls.FindDescriptors
open StepRuns UserStrings DescriptorTable FindMachine FindPaths

variable {env : Env} {target : List Byte}

def freeSlots (env : Env) (ofile : ℕ → Option File) : ℕ :=
  ((Finset.range env.nofile).filter fun fd => (ofile fd).isNone).card

theorem freeSlots_none {ofile : ℕ → Option File} (h : fdalloc env.nofile ofile = none) :
    freeSlots env ofile = 0 := by
  rw [freeSlots,Finset.card_eq_zero,Finset.filter_eq_empty_iff]
  intro fd hfd
  have hused := fdalloc_none h (Finset.mem_range.mp hfd)
  rw [Option.isSome_iff_exists] at hused
  obtain ⟨f,hf⟩ := hused
  simp [hf]

theorem freeSlots_open {ofile : ℕ → Option File} {fd : ℕ} (f : File)
    (h : fdalloc env.nofile ofile = some fd) :
    freeSlots env (Function.update ofile fd (some f))+1 = freeSlots env ofile := by
  obtain ⟨hlt,hfree,-⟩ := fdalloc_some h
  have herase : ((Finset.range env.nofile).filter
      fun i => (Function.update ofile fd (some f) i).isNone) =
      ((Finset.range env.nofile).filter fun i => (ofile i).isNone).erase fd := by
    ext i
    by_cases hi : i = fd
    · simp [hi]
    · simp [hi]
  rw [freeSlots,freeSlots,herase]
  apply Finset.card_erase_add_one
  simp [hlt,hfree]

def openSlots (env : Env) (ofile : ℕ → Option File) : ℕ :=
  ((Finset.range env.nofile).filter fun fd => (ofile fd).isSome).card

theorem openSlots_add_freeSlots (env : Env) (ofile : ℕ → Option File) :
    openSlots env ofile+freeSlots env ofile = env.nofile := by
  have hsplit := Finset.card_filter_add_card_filter_not (s := Finset.range env.nofile)
    (fun fd => (ofile fd).isSome = true)
  simpa [openSlots,freeSlots] using hsplit

theorem openSlots_open {ofile : ℕ → Option File} {fd : ℕ} (f : File)
    (h : fdalloc env.nofile ofile = some fd) :
    openSlots env (Function.update ofile fd (some f)) = openSlots env ofile+1 := by
  have hfree := freeSlots_open f h
  have hold := openSlots_add_freeSlots env ofile
  have hnew := openSlots_add_freeSlots env (Function.update ofile fd (some f))
  omega

theorem close_open {ofile : ℕ → Option File} {fd : ℕ} (f : File)
    (h : fdalloc env.nofile ofile = some fd) :
    Function.update (Function.update ofile fd (some f)) fd none = ofile := by
  rw [Function.update_idem,← (fdalloc_some h).2.1,Function.update_eq_self]

theorem openFile_cases (env : Env) (s : State) (path : List Byte) :
    openFile env s path = ({ s with opens := s.opens+1 },none) ∨
    ∃ fd f, fdalloc env.nofile s.ofile = some fd ∧ openFile env s path =
      ({ s with opens := s.opens+1, ofile := Function.update s.ofile fd (some f) },some (fd,f)) := by
  rw [openFile]
  cases env.openPath s.opens (text path) with
  | none => exact Or.inl rfl
  | some f =>
    cases hfd : fdalloc env.nofile s.ofile with
    | none => exact Or.inl rfl
    | some fd => exact Or.inr ⟨fd,f,rfl,rfl⟩

/-- Between two states the table and the depth are back where they were, and
each read was made `k` levels below, `least` or more, with `k` more descriptors. -/
structure Balanced (env : Env) (least : ℕ) (s s' : State) : Prop where
  ofile : s'.ofile = s.ofile
  depth : s'.depth = s.depth
  reads : ∃ new, s'.reads = s.reads++new ∧ ∀ r ∈ new, ∃ k, least ≤ k ∧ r.1 = s.depth+k ∧
    openSlots env r.2 = openSlots env s.ofile+k

theorem Balanced.unread {least : ℕ} {s s' : State} (ho : s'.ofile = s.ofile)
    (hd : s'.depth = s.depth) (hr : s'.reads = s.reads) : Balanced env least s s' :=
  ⟨ho,hd,[],by simpa using hr,by simp⟩

theorem Balanced.trans {a b least : ℕ} {s s' s'' : State} (h : Balanced env a s s')
    (h' : Balanced env b s' s'') (ha : least ≤ a) (hb : least ≤ b) : Balanced env least s s'' := by
  obtain ⟨xs,hxs,hx⟩ := h.reads
  obtain ⟨ys,hys,hy⟩ := h'.reads
  refine ⟨h'.ofile.trans h.ofile,h'.depth.trans h.depth,xs++ys,?_,?_⟩
  · rw [hys,hxs,List.append_assoc]
  · intro r hr
    rcases List.mem_append.mp hr with hr | hr
    · obtain ⟨k,hk,hrest⟩ := hx r hr
      exact ⟨k,ha.trans hk,hrest⟩
    · obtain ⟨k,hk,hrest⟩ := hy r hr
      rw [h.ofile,h.depth] at hrest
      exact ⟨k,hb.trans hk,hrest⟩

theorem logRead_balanced (env : Env) (s : State) : Balanced env 0 s s.logRead := by
  refine ⟨rfl,rfl,[(s.depth,s.ofile)],rfl,?_⟩
  intro r hr
  rw [List.mem_singleton.mp hr]
  exact ⟨0,le_refl _,rfl,rfl⟩

theorem scan_balanced {call : List Byte → State → Except Fault State}
    (hcall : ∀ path s s', call path s = .ok s' → Balanced env 1 s s') (path : List Byte)
    (des : List Dirent) (buf : List Byte) (s s' : State)
    (h : scan call path des buf s = .ok s') : Balanced env 0 s s' := by
  induction des generalizing buf s with
  | nil =>
    cases h
    exact logRead_balanced env s
  | cons de des ih =>
    have hskip : ∀ buf, scan call path des buf s.logRead = .ok s' → Balanced env 0 s s' :=
      fun buf h => (logRead_balanced env s).trans (ih buf s.logRead h) (le_refl _) (le_refl _)
    rw [scan] at h
    split_ifs at h
    · exact hskip buf h
    · obtain ⟨b,-,h⟩ := bind_ok h
      split_ifs at h
      · exact hskip buf h
      · obtain ⟨n,-,h⟩ := bind_ok h
        split_ifs at h
        · exact hskip buf h
        · obtain ⟨buf',-,h⟩ := bind_ok h
          obtain ⟨s₁,hs₁,h⟩ := bind_ok h
          have hlog : Balanced env 0 s (s.logRead.logCall path buf') :=
            ⟨rfl,rfl,(logRead_balanced env s).reads⟩
          have hone := hlog.trans (hcall buf' _ s₁ hs₁) (le_refl 0) (Nat.zero_le 1)
          exact hone.trans (ih buf' s₁ h) (le_refl _) (le_refl _)

/-- A call gives its descriptor back however it ends. -/
theorem find_balanced (fuel : ℕ) (path : List Byte) (s s' : State)
    (h : find env target fuel path s = .ok s') : Balanced env 1 s s' := by
  induction fuel generalizing path s s' with
  | zero => cases h
  | succ fuel ih =>
    rcases openFile_cases env s path with ho | ⟨fd,f,hfd,ho⟩
    · rw [find,ho] at h
      obtain ⟨p,-,h⟩ := bind_ok h
      cases h
      exact Balanced.unread rfl rfl rfl
    · rw [find,ho] at h
      cases hk : f.kind with
      | none =>
        simp only [hk] at h
        obtain ⟨p,-,h⟩ := bind_ok h
        cases h
        exact Balanced.unread (close_open f hfd) rfl rfl
      | some k =>
        cases k with
        | file =>
          simp only [hk] at h
          obtain ⟨n,-,h⟩ := bind_ok h
          obtain ⟨z,-,h⟩ := bind_ok h
          split_ifs at h
          · obtain ⟨p,-,h⟩ := bind_ok h
            cases h
            exact Balanced.unread (close_open f hfd) rfl rfl
          · cases h
            exact Balanced.unread (close_open f hfd) rfl rfl
        | dir =>
          simp only [hk] at h
          obtain ⟨s₂,hscan,h⟩ := bind_ok h
          cases h
          obtain ⟨hofile,hdepth,new,hnew,hreads⟩ := scan_balanced ih path f.dirents _ _ s₂ hscan
          refine ⟨?_,?_,new,hnew,?_⟩
          · rw [State.close,State.leave,hofile]
            exact close_open f hfd
          · rw [State.close,State.leave,hdepth]
            rfl
          · intro r hr
            obtain ⟨k,_,hd,hopen⟩ := hreads r hr
            -- one level and one descriptor more than the caller
            rw [State.enter,openSlots_open f hfd] at hopen
            refine ⟨k+1,Nat.le_add_left 1 k,?_,?_⟩
            · rw [hd,State.enter,Nat.add_right_comm,Nat.add_assoc]
            · rw [hopen,Nat.add_right_comm,Nat.add_assoc]
        | device =>
          simp only [hk] at h
          cases h
          exact Balanced.unread (close_open f hfd) rfl rfl

theorem find_ofile (fuel : ℕ) (path : List Byte) (s s' : State)
    (h : find env target fuel path s = .ok s') : s'.ofile = s.ofile :=
  (find_balanced fuel path s s' h).ofile

end ListlibSyscalls.FindDescriptors
