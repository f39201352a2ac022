import ListlibSyscalls.FindMachine
import ListlibSyscalls.StepRuns

/-!
# The paths find builds and takes apart

On an entry whose path fits, the buffer holds the string of the directory, a
slash and the name up to its first NUL or its end. The backward scan finds the
part behind the last slash. None of this leaves its array.
-/

set_option autoImplicit false

namespace ListlibSyscalls.FindPaths
open StepRuns UserStrings FindMachine

theorem text_append_cons {p : List Byte} (hp : nul ∉ p) {c : Byte} (hc : c ≠ nul) (r : List Byte) :
    text (p++c::r) = p++c::text r := by
  induction p with
  | nil => exact text_cons hc r
  | cons b p ih =>
    have hb : b ≠ nul := fun e => hp (by simp [e])
    rw [List.cons_append,text_cons hb,ih (fun h => hp (by simp [h]))]
    rfl

theorem text_terminated (a b : List Byte) : text (a++nul::b) = text a := by
  induction a with
  | nil => rfl
  | cons c a ih =>
    by_cases hc : c = nul
    · rw [hc]
      rfl
    · rw [List.cons_append,text_cons hc,text_cons hc,ih]

theorem split_text {m : List Byte} (h : nul ∈ m) : ∃ rest, m = text m++nul::rest := by
  induction m with
  | nil => simp at h
  | cons c m ih =>
    by_cases hc : c = nul
    · exact ⟨m,by rw [hc]; rfl⟩
    · obtain ⟨rest,hr⟩ := ih ((List.mem_cons.mp h).resolve_left (Ne.symm hc))
      refine ⟨rest,?_⟩
      rw [text_cons hc,List.cons_append,← hr]

theorem puts_eq {path : List Byte} (h : nul ∈ path) : puts path = .ok (text path) := if_pos h

theorem isDots_spec (de : Dirent) : ∃ b, isDots de = .ok b ∧
    (b = true ↔ text de.name = [dot] ∨ text de.name = [dot,dot]) := by
  have hsize := de.size
  obtain ⟨z,hz,hone⟩ := strcmp_spec (a := de.name) (b := [dot,nul]) (by simp)
    (Or.inr (by rw [hsize]; decide))
  obtain ⟨y,hy,htwo⟩ := strcmp_spec (a := de.name) (b := [dot,dot,nul]) (by simp)
    (Or.inr (by rw [hsize]; decide))
  have h1 : text [dot,nul] = [dot] := by decide
  have h2 : text [dot,dot,nul] = [dot,dot] := by decide
  rw [h1] at hone
  rw [h2] at htwo
  by_cases hz0 : z = 0
  · refine ⟨true,?_,iff_of_true rfl (Or.inl (hone.mp hz0))⟩
    rw [isDots,hz,ok_bind,if_pos hz0]
  · refine ⟨decide (y = 0),?_,?_⟩
    · rw [isDots,hz,ok_bind,if_neg hz0,hy,ok_bind]
    · rw [decide_eq_true_iff,htwo]
      exact ⟨Or.inr,fun h => h.resolve_left (fun h1 => hz0 (hone.mpr h1))⟩

theorem set_middle (as bs : List Byte) (b c : Byte) : (as++b::bs).set as.length c = as++c::bs := by
  rw [List.set_append_right _ _ (le_refl _),Nat.sub_self]
  rfl

theorem buildPath_spec {buf path : List Byte} (de : Dirent) (hp : nul ∈ path)
    (hfits : (text path).length+1+DIRSIZ+1 ≤ bufSize) (hb : buf.length = bufSize) :
    ∃ buf', buildPath buf path de = .ok buf' ∧ buf'.length = bufSize ∧ nul ∈ buf' ∧
      text buf' = text path++slash::text de.name := by
  have hn := nul_notMem_text path
  have hsize := de.size
  obtain ⟨d,ds,hds⟩ : ∃ d ds, (buf.drop ((text path).length+1)).drop DIRSIZ = d::ds := by
    apply List.exists_cons_of_length_pos
    rw [List.length_drop,List.length_drop,hb]
    omega
  -- the buffer after each of the five statements
  have hcopy : strcpy buf path = .ok (text path++nul::buf.drop ((text path).length+1)) :=
    strcpy_eq hp (by omega)
  have hlen : strlen (text path++nul::buf.drop ((text path).length+1)) =
      .ok (text path).length := by
    rw [strlen_eq (by simp),text_append_nul hn]
  have hslash : store (text path++nul::buf.drop ((text path).length+1)) (text path).length slash =
      .ok (text path++slash::buf.drop ((text path).length+1)) := by
    rw [store,if_pos (by simp),set_middle]
  have hmove : memmove (text path++slash::buf.drop ((text path).length+1))
      ((text path).length+1) de.name DIRSIZ =
      .ok ((text path++slash::de.name)++d::ds) := by
    have htake : (text path++slash::buf.drop ((text path).length+1)).take
        ((text path).length+1) = text path++[slash] := by
      simp [List.take_append]
    have hdrop : (text path++slash::buf.drop ((text path).length+1)).drop
        ((text path).length+1+DIRSIZ) = d::ds := by
      rw [← hds,List.drop_append]
      simp [Nat.add_assoc,Nat.add_comm 1]
    rw [memmove,if_pos ⟨hsize.ge,by simp [hb]; omega⟩,htake,hdrop,← hsize,List.take_length]
    simp
  have hend : store ((text path++slash::de.name)++d::ds) ((text path).length+1+DIRSIZ) nul =
      .ok ((text path++slash::de.name)++nul::ds) := by
    have hl : (text path).length+1+DIRSIZ = (text path++slash::de.name).length := by
      simp [hsize]
      omega
    rw [hl,store,if_pos (by simp),set_middle]
  refine ⟨(text path++slash::de.name)++nul::ds,?_,?_,by simp,?_⟩
  · rw [buildPath,hcopy,ok_bind,hlen,ok_bind,hslash,ok_bind,hmove,ok_bind,hend]
  · have hl := congrArg List.length hds
    simp only [List.length_drop,List.length_cons,hb] at hl
    simp [hsize]
    omega
  · rw [text_terminated,text_append_cons hn (by decide)]

def afterSlash (p : List Byte) : List Byte :=
  (p.reverse.takeWhile fun c => decide (c ≠ slash)).reverse

theorem afterSlash_snoc_slash (p : List Byte) : afterSlash (p++[slash]) = [] := by
  simp [afterSlash]

theorem afterSlash_snoc {c : Byte} (hc : c ≠ slash) (p : List Byte) :
    afterSlash (p++[c]) = afterSlash p++[c] := by
  simp [afterSlash,hc]

theorem afterSlash_append {n : List Byte} (hn : slash ∉ n) (p : List Byte) :
    afterSlash (p++slash::n) = n := by
  have hall : ∀ c ∈ n.reverse, decide (c ≠ slash) = true := by
    intro c hc
    have hne : c ≠ slash := fun e => hn (e ▸ List.mem_reverse.mp hc)
    simpa using hne
  rw [afterSlash,List.reverse_append,List.reverse_cons,List.append_assoc,
    List.takeWhile_append_of_pos hall]
  simp

theorem fileName_eq (p q : List Byte) (i : ℕ) (hi : i ≤ p.length) :
    fileName (p++q) i = afterSlash (p.take i)++p.drop i++q := by
  induction i with
  | zero => simp [fileName,afterSlash]
  | succ i ih =>
    have hlt : i < p.length := hi
    have hget : (p++q)[i]? = some p[i] := by
      rw [List.getElem?_append_left hlt,List.getElem?_eq_getElem hlt]
    rw [fileName,hget,List.take_succ_eq_append_getElem hlt]
    by_cases hc : p[i] = slash
    · rw [if_pos (by rw [hc]),hc,afterSlash_snoc_slash,List.drop_append_of_le_length hi]
      rfl
    · rw [if_neg (by simpa using hc),ih hlt.le,afterSlash_snoc hc,List.drop_eq_getElem_cons hlt]
      simp

theorem fileName_spec {path : List Byte} (h : nul ∈ path) :
    nul ∈ fileName path (text path).length ∧
      text (fileName path (text path).length) = afterSlash (text path) := by
  obtain ⟨rest,hr⟩ := split_text h
  have he : fileName path (text path).length = afterSlash (text path)++nul::rest := by
    have hf := fileName_eq (text path) (nul::rest) (text path).length (le_refl _)
    rw [← hr] at hf
    rw [hf,List.take_length,List.drop_length,List.append_nil]
  have hn : nul ∉ afterSlash (text path) := by
    intro hm
    have hr := (List.takeWhile_prefix _).subset (List.mem_reverse.mp hm)
    exact nul_notMem_text path (List.mem_reverse.mp hr)
  rw [he]
  exact ⟨by simp,text_append_nul hn rest⟩

end ListlibSyscalls.FindPaths
