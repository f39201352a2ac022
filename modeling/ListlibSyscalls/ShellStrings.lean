import ListlibSyscalls.ShellRoundTrip

/-!
# The strings that the parser leaves

The tokens of the tree point into the line, and `nulterminate` cuts them there.
A NUL goes where a word has ended, so it never falls on a character of another
word, and every pointer of the tree refers to the text of its token.
-/

set_option autoImplicit false

namespace ListlibSyscalls.ShellStrings
open StepRuns UserStrings ShellMachine ShellProgress ShellRender ShellRoundTrip

/-- The tokens in the order of `nulterminate`. -/
def tokens : Cmd Token → List Token
  | .exec argv => argv
  | .redir cmd _ file => tokens cmd++[file]
  | .pipe left right => tokens left++tokens right
  | .list left right => tokens left++tokens right
  | .back cmd => tokens cmd

def cut (m : List Byte) (stops : List ℕ) : List Byte := stops.foldl (fun m i => m.set i nul) m

theorem nulterminate_eq (len : ℕ) (cmd : Cmd Token) (m : List Byte) :
    nulterminate len cmd m = cut m ((tokens cmd).map (Token.stop len)) := by
  induction cmd generalizing m with
  | exec argv => rw [nulterminate,tokens,cut,List.foldl_map]
  | redir cmd k file ih => rw [nulterminate,ih,tokens,List.map_append,cut,cut,List.foldl_append]; rfl
  | pipe l r ihl ihr =>
    rw [nulterminate,ihl,ihr,tokens,List.map_append,cut,cut,cut,List.foldl_append]
  | list l r ihl ihr =>
    rw [nulterminate,ihl,ihr,tokens,List.map_append,cut,cut,cut,List.foldl_append]
  | back cmd ih => exact ih m

theorem cut_length (m : List Byte) (stops : List ℕ) : (cut m stops).length = m.length := by
  induction stops generalizing m with
  | nil => rfl
  | cons i stops ih => exact (ih (m.set i nul)).trans List.length_set

theorem cut_get_of_notMem {m : List Byte} {stops : List ℕ} {i : ℕ} (hi : i ∉ stops) :
    (cut m stops)[i]? = m[i]? := by
  induction stops generalizing m with
  | nil => rfl
  | cons j stops ih =>
    have hne : j ≠ i := fun h => hi (by simp [h])
    have htail := @ih (m.set j nul) fun h => hi (List.mem_cons_of_mem _ h)
    exact htail.trans (List.getElem?_set_ne hne)

theorem cut_get_nul {m : List Byte} {stops : List ℕ} {i : ℕ} (hi : m[i]? = some nul) :
    (cut m stops)[i]? = some nul := by
  induction stops generalizing m with
  | nil => exact hi
  | cons j stops ih =>
    apply ih
    by_cases hji : j = i
    · have hlt : i < m.length := (List.getElem?_eq_some_iff.mp hi).1
      rw [hji,List.getElem?_set_self hlt]
    · rw [List.getElem?_set_ne hji,hi]

theorem cut_get_of_mem {m : List Byte} {stops : List ℕ} {i : ℕ} (hi : i ∈ stops)
    (hlt : i < m.length) : (cut m stops)[i]? = some nul := by
  induction stops generalizing m with
  | nil => simp at hi
  | cons j stops ih =>
    rcases List.mem_cons.mp hi with rfl|hi
    · show (cut (m.set i nul) stops)[i]? = some nul
      exact cut_get_nul (List.getElem?_set_self hlt)
    · exact ih hi (by rwa [List.length_set])

theorem all_tokens {P : Token → Prop} {cmd : Cmd Token} (h : All P cmd) :
    ∀ t ∈ tokens cmd, P t := by
  intro t ht
  induction cmd with
  | exec argv => exact h.2 t ht
  | redir cmd k file ih =>
    rcases List.mem_append.mp ht with ht|ht
    · exact ih h.1 ht
    · rw [List.mem_singleton.mp ht]
      exact h.2
  | pipe l r ihl ihr => exact (List.mem_append.mp ht).elim (ihl h.1) (ihr h.2)
  | list l r ihl ihr => exact (List.mem_append.mp ht).elim (ihl h.1) (ihr h.2)
  | back cmd ih => exact ih h ht

theorem all_imp {P Q : Token → Prop} {cmd : Cmd Token} (h : All P cmd)
    (hpq : ∀ t ∈ tokens cmd, P t → Q t) : All Q cmd := by
  induction cmd with
  | exec argv => exact ⟨h.1,fun t ht => hpq t ht (h.2 t ht)⟩
  | redir cmd k file ih =>
    refine ⟨ih h.1 fun t ht => hpq t ?_,hpq file ?_ h.2⟩
    · exact List.mem_append_left _ ht
    · exact List.mem_append_right _ (List.mem_singleton_self file)
  | pipe l r ihl ihr =>
    refine ⟨ihl h.1 fun t ht => hpq t ?_,ihr h.2 fun t ht => hpq t ?_⟩
    · exact List.mem_append_left _ ht
    · exact List.mem_append_right _ ht
  | list l r ihl ihr =>
    refine ⟨ihl h.1 fun t ht => hpq t ?_,ihr h.2 fun t ht => hpq t ?_⟩
    · exact List.mem_append_left _ ht
    · exact List.mem_append_right _ ht
  | back cmd ih => exact ih h hpq

theorem all_texts {P : List Byte → Prop} {cmd : Cmd Token} (h : All (fun t => P t.text) cmd) :
    All P (texts cmd) := by
  induction cmd with
  | exec argv =>
    refine ⟨by rw [List.length_map]; exact h.1,fun w hw => ?_⟩
    obtain ⟨t,ht,rfl⟩ := List.mem_map.mp hw
    exact h.2 t ht
  | redir cmd k file ih => exact ⟨ih h.1,h.2⟩
  | pipe l r ihl ihr => exact ⟨ihl h.1,ihr h.2⟩
  | list l r ihl ihr => exact ⟨ihl h.1,ihr h.2⟩
  | back cmd ih => exact ih h

section Line

variable {s : List Byte} {t : Token}

theorem good_get (h : Good s t) {i : ℕ} (hi : i < t.text.length) :
    s[s.length-t.left+i]? = t.text[i]? := by
  obtain ⟨pre,post,rfl,hleft,-⟩ := h
  have hstart : (pre++t.text++post).length-t.left = pre.length := by
    simp only [hleft,List.length_append]
    omega
  rw [hstart,List.append_assoc,List.getElem?_append_right (Nat.le_add_right _ _),
    Nat.add_sub_cancel_left,List.getElem?_append_left hi]

theorem good_stop_le (h : Good s t) : t.stop s.length ≤ s.length := by
  obtain ⟨pre,post,rfl,hleft,-⟩ := h
  simp only [Token.stop,hleft,List.length_append]
  omega

theorem good_at_stop (h : Good s t) : ∀ b ∈ s[t.stop s.length]?, isWord b = false := by
  obtain ⟨pre,post,rfl,hleft,-,-,hpost⟩ := h
  have hstop : t.stop (pre++t.text++post).length = (pre++t.text).length := by
    simp only [Token.stop,hleft,List.length_append]
    omega
  rw [hstop,List.getElem?_append_right (Nat.le_refl _),Nat.sub_self,← List.head?_eq_getElem?]
  exact hpost

theorem good_word (h : Good s t) : Word t.text := by
  obtain ⟨pre,post,-,-,hne,hword,-⟩ := h
  exact ⟨hne,hword⟩

theorem text_of_get {w l : List Byte} (hw : nul ∉ w) (h : ∀ i < w.length, l[i]? = w[i]?)
    (hn : l[w.length]? = some nul) : text l = w := by
  induction w generalizing l with
  | nil =>
    cases l with
    | nil => cases hn
    | cons c l =>
      rw [List.length_nil,List.getElem?_cons_zero] at hn
      rw [Option.some.inj hn]
      rfl
  | cons b w ih =>
    cases l with
    | nil => cases hn
    | cons c l =>
      have hc : c = b := by simpa using h 0 (Nat.succ_pos _)
      have hb : b ≠ nul := fun e => hw (by simp [e])
      rw [hc,text_cons hb]
      congr 1
      apply ih (fun hmem => hw (List.mem_cons_of_mem _ hmem)) _ (by simpa using hn)
      intro i hi
      simpa using h (i+1) (by simpa using hi)

end Line

section Buffer

variable {m : List Byte} {cmd : Cmd Token}

def pointer (len : ℕ) (m : List Byte) (t : Token) : List Byte := m.drop (len-t.left)

/-- What `parsecmd` leaves of the buffer `m` for a tree: every pointer refers to
the word of its token, which ends inside the buffer, and only characters of the
line that belong to no word have been overwritten. -/
structure Served (m : List Byte) (cmd : Cmd Token) (m' : List Byte) : Prop where
  length : m'.length = m.length
  strings : All (fun t => Word t.text ∧ text (pointer (text m).length m' t) = t.text ∧
    nul ∈ pointer (text m).length m' t) cmd
  changed : ∀ i b, m[i]? = some b → m'[i]? ≠ some b → i < (text m).length ∧ isWord b = false

theorem text_get {i : ℕ} (hi : i < (text m).length) : m[i]? = (text m)[i]? := by
  have hm : m = text m++m.dropWhile fun c => decide (c ≠ nul) :=
    (List.takeWhile_append_dropWhile).symm
  conv_lhs => rw [hm]
  exact List.getElem?_append_left hi

theorem nul_at_end (h : nul ∈ m) : m[(text m).length]? = some nul := by
  induction m with
  | nil => simp at h
  | cons c m ih =>
    by_cases hc : c = nul
    · rw [hc,text_nul]
      rfl
    · rw [text_cons hc,List.length_cons,List.getElem?_cons_succ]
      exact ih ((List.mem_cons.mp h).resolve_left (Ne.symm hc))

/-- The characters of one word survive the NULs after all the others. -/
theorem word_kept {stops : List ℕ} {t : Token} {i : ℕ} (ht : Good (text m) t)
    (hstops : ∀ p ∈ stops, ∀ b ∈ (text m)[p]?, isWord b = false) (hi : i < t.text.length) :
    (cut m stops)[(text m).length-t.left+i]? = t.text[i]? := by
  have hget := good_get ht hi
  have hlt : (text m).length-t.left+i < (text m).length := by
    have := good_stop_le ht
    rw [Token.stop] at this
    omega
  rw [cut_get_of_notMem,text_get hlt,hget]
  intro hmem
  have hb : t.text[i]? = some (t.text.get ⟨i,hi⟩) := List.getElem?_eq_getElem hi
  have hfalse := hstops _ hmem (t.text.get ⟨i,hi⟩) (by rw [hget,hb]; rfl)
  have htrue := (good_word ht).2 (t.text.get ⟨i,hi⟩) (List.get_mem _ _)
  rw [htrue] at hfalse
  cases hfalse

theorem served (hm : nul ∈ m) (h : All (Good (text m)) cmd) :
    Served m cmd (nulterminate (text m).length cmd m) := by
  have hstops : ∀ p ∈ (tokens cmd).map (Token.stop (text m).length),
      p ≤ (text m).length ∧ ∀ b ∈ (text m)[p]?, isWord b = false := by
    intro p hp
    obtain ⟨t,ht,rfl⟩ := List.mem_map.mp hp
    have hgood := all_tokens h t ht
    exact ⟨good_stop_le hgood,good_at_stop hgood⟩
  have hend := nul_at_end hm
  have hlen : (text m).length < m.length := (List.getElem?_eq_some_iff.mp hend).1
  rw [nulterminate_eq]
  constructor
  · exact cut_length _ _
  · apply all_imp h
    intro t ht hgood
    have hstop : (pointer (text m).length (cut m ((tokens cmd).map (Token.stop (text m).length))) t)[
        t.text.length]? = some nul := by
      rw [pointer,List.getElem?_drop]
      apply cut_get_of_mem (List.mem_map.mpr ⟨t,ht,rfl⟩)
      exact Nat.lt_of_le_of_lt (good_stop_le hgood) hlen
    refine ⟨good_word hgood,text_of_get ?_ ?_ hstop,List.mem_of_getElem? hstop⟩
    · intro hmem
      obtain ⟨pre,post,hs,-⟩ := hgood
      apply nul_notMem_text m
      rw [hs]
      exact List.mem_append_left _ (List.mem_append_right _ hmem)
    · intro i hi
      rw [pointer,List.getElem?_drop]
      exact word_kept hgood (fun p hp => (hstops p hp).2) hi
  · intro i b hb hne
    have hmem : i ∈ (tokens cmd).map (Token.stop (text m).length) := by
      by_contra hmem
      exact hne ((cut_get_of_notMem hmem).trans hb)
    obtain ⟨hle,hword⟩ := hstops i hmem
    have hlt : i < (text m).length := by
      rcases Nat.lt_or_eq_of_le hle with hlt|rfl
      · exact hlt
      · rw [hend] at hb
        exact absurd ((cut_get_nul hend).trans hb) hne
    exact ⟨hlt,hword b (by rw [← text_get hlt,hb]; rfl)⟩

theorem parsetext_fine (s : List Byte) :
    match parsetext s with
    | .ok cmd => All (Good s) cmd
    | .error (.panics _) => True
    | .error .outOfFuel => False := by
  have hf := parseline_fine (List.suffix_rfl : s <:+ s) (Nat.lt_succ_self s.length)
  rw [parsetext]
  cases hx : parseline (s.length+1) s with
  | error e =>
    rw [hx] at hf
    cases e with
    | panics p => trivial
    | outOfFuel => exact hf
  | ok p =>
    obtain ⟨cmd,r⟩ := p
    rw [hx] at hf
    rw [ok_bind]
    dsimp only
    by_cases hr : skip r ≠ []
    · rw [if_pos hr]
      trivial
    · rw [if_neg hr]
      exact hf.2

end Buffer

/-- On every string the parser stops, with one of its messages or with a tree
whose pointers refer to the words of the line in the buffer it leaves. The tree
is that of its own printed line. -/
theorem parsecmd_serves (m : List Byte) (hm : nul ∈ m) :
    match parsecmd m with
    | .ok (cmd,m') => Served m cmd m' ∧ ∀ n, text n = spell (render (texts cmd)) →
        ∃ cmd' n', parsecmd n = .ok (cmd',n') ∧ texts cmd' = texts cmd
    | .error (.panics _) => True
    | .error .outOfFuel => False := by
  have hf := parsetext_fine (text m)
  rw [parsecmd]
  cases hx : parsetext (text m) with
  | error e =>
    rw [hx] at hf
    cases e with
    | panics p => trivial
    | outOfFuel => exact hf
  | ok cmd =>
    rw [hx] at hf
    have hwords : All Word (texts cmd) := all_texts (all_imp hf fun t _ ht => good_word ht)
    refine ⟨served hm hf,fun n hn => ?_⟩
    obtain ⟨cmd',heq,htexts⟩ := parsetext_spell hwords
    refine ⟨cmd',nulterminate (text n).length cmd' n,?_,htexts⟩
    rw [parsecmd,hn,heq]
    rfl

def sampleLine : List Byte := ([ch 'a',ch ' ',ch 'b',ch '>',ch '>',ch 'f',ch ';']++
  [ch '(',ch 'c',ch ')',ch '\n',nul])

theorem parsecmd_serves_sample : ∃ cmd m', parsecmd sampleLine = .ok (cmd,m') ∧
    Served sampleLine cmd m' := by
  have hserves := parsecmd_serves sampleLine (by decide)
  have hok : (parsecmd sampleLine).isOk = true := by decide +kernel
  cases hx : parsecmd sampleLine with
  | error e =>
    rw [hx] at hok
    cases hok
  | ok p =>
    rw [hx] at hserves
    exact ⟨p.1,p.2,rfl,hserves.1⟩

end ListlibSyscalls.ShellStrings
