import ListlibSyscalls.ShellMachine

/-!
# The parser goes forward and its tokens are words

Every parsing function leaves a rest that is a tail of what it was given, and
its tokens are maximal words of the line. One postcondition says both, that the
fuel is enough, and that no command has too many arguments; it is proved for
each function from the same of the function its inner calls reach. A `malloc`
that fails, which no function checks, and the depth of the user stack are left
aside.
-/

set_option autoImplicit false

namespace ListlibSyscalls.ShellProgress
open StepRuns UserStrings ShellMachine

/-- The token is a word of the line, cut where words end. -/
def Good (s : List Byte) (t : Token) : Prop :=
  ∃ pre post, s = pre++t.text++post ∧ t.left = (t.text++post).length ∧ t.text ≠ [] ∧
    (∀ b ∈ t.text, isWord b = true) ∧ ∀ b ∈ post.head?, isWord b = false

def All {τ : Type} (P : τ → Prop) : Cmd τ → Prop
  | .exec argv => argv.length < MAXARGS ∧ ∀ t ∈ argv, P t
  | .redir cmd _ file => All P cmd ∧ P file
  | .pipe left right => All P left ∧ All P right
  | .list left right => All P left ∧ All P right
  | .back cmd => All P cmd

def argc : Cmd Token → Option ℕ
  | .exec argv => some argv.length
  | .redir cmd _ _ => argc cmd
  | _ => none

/-- What is true of the result of every parsing function for the rest `r` of
the line `s`. -/
def Fine (s r : List Byte) : Except Stop (Cmd Token × List Byte) → Prop
  | .ok (cmd,r') => r' <:+ r ∧ All (Good s) cmd
  | .error (.panics _) => True
  | .error .outOfFuel => False

section Tokens

variable {s r : List Byte}

theorem skip_suffix (r : List Byte) : skip r <:+ r := List.dropWhile_suffix _

theorem dropWhile_head (p : Byte → Bool) (l : List Byte) :
    ∀ b ∈ (l.dropWhile p).head?, p b = false := by
  intro b hb
  have h := List.head?_dropWhile_not p l
  rw [Option.mem_def.mp hb] at h
  exact h

theorem skip_head {c : Byte} {t : List Byte} (h : skip r = c::t) : isSpace c = false :=
  dropWhile_head isSpace r c (by rw [← skip,h]; rfl)

theorem skip_cons {c : Byte} (hc : isSpace c = false) (t : List Byte) : skip (c::t) = c::t := by
  rw [skip,List.dropWhile_cons_of_neg (by simp [hc])]

theorem peek_cons {toks : List Byte} (h : peek r toks = true) :
    ∃ c t, skip r = c::t ∧ toks.contains c = true := by
  rw [peek] at h
  split at h
  · cases h
  · next c t hs => exact ⟨c,t,hs,h⟩

theorem gettoken_suffix (r : List Byte) : (gettoken r).2.2 <:+ skip r := by
  rw [gettoken]
  split
  · exact List.nil_suffix
  · next c t hs =>
    rw [hs]
    have ht : skip t <:+ c::t := (skip_suffix t).trans (List.suffix_cons c t)
    split
    · exact ht
    · split
      · split
        · exact (skip_suffix _).trans ((List.tail_suffix t).trans (List.suffix_cons c t))
        · exact ht
      · exact (skip_suffix _).trans (List.dropWhile_suffix _)

theorem word_of_not_symbol {c : Byte} (hs : isSpace c = false)
    (h1 : ¬ (c = ch '|' ∨ c = ch '(' ∨ c = ch ')' ∨ c = ch ';' ∨ c = ch '&' ∨ c = ch '<'))
    (h2 : c ≠ ch '>') : isWord c = true := by
  have hsym : symbols.contains c = false := by
    simp only [symbols,List.contains_eq_mem,List.mem_cons,List.not_mem_nil,or_false,
      decide_eq_false_iff_not]
    tauto
  rw [isSpace] at hs
  rw [isWord,hs,hsym]
  rfl

theorem gettoken_lt (h : skip r ≠ []) : (gettoken r).2.2.length < r.length := by
  have hlen := (skip_suffix r).length_le
  rw [gettoken]
  split
  · next hs => exact absurd hs h
  · next c t hs =>
    rw [hs,List.length_cons] at hlen
    have hskip : ∀ u : List Byte, (skip u).length ≤ u.length := fun u => (skip_suffix u).length_le
    split
    · have := hskip t
      dsimp only
      omega
    · next h1 =>
      split
      · split
        · have := hskip t.tail
          have := (List.tail_suffix t).length_le
          dsimp only
          omega
        · have := hskip t
          dsimp only
          omega
      · next h2 =>
        have hw := word_of_not_symbol (skip_head hs) h1 h2
        have hdrop : ((c::t).dropWhile isWord).length ≤ t.length := by
          rw [List.dropWhile_cons_of_pos hw]
          exact (List.dropWhile_suffix _).length_le
        have := hskip ((c::t).dropWhile isWord)
        dsimp only
        omega

theorem gettoken_good (hr : r <:+ s) (h : (gettoken r).1 = ch 'a') : Good s (gettoken r).2.1 := by
  rw [gettoken] at h ⊢
  split at h
  · exact absurd h (by decide)
  · next c t hs =>
    split at h
    · next h1 =>
      dsimp only at h
      rw [h] at h1
      exact absurd h1 (by decide)
    · next h1 =>
      split at h
      · next h2 =>
        split at h
        · exact absurd (show ch '+' = ch 'a' from h) (by decide)
        · dsimp only at h
          rw [h] at h2
          exact absurd h2 (by decide)
      · next h2 =>
        have hw := word_of_not_symbol (skip_head hs) h1 h2
        simp only [if_neg h1,if_neg h2]
        obtain ⟨pre,hpre⟩ := (hs ▸ skip_suffix r : c::t <:+ r).trans hr
        refine ⟨pre,(c::t).dropWhile isWord,?_,?_,?_,?_,?_⟩
        · rw [List.append_assoc,List.takeWhile_append_dropWhile,hpre]
        · rw [List.takeWhile_append_dropWhile,List.length_cons]
        · rw [List.takeWhile_cons_of_pos hw]
          simp
        · intro b hb
          exact List.mem_takeWhile_imp hb
        · exact dropWhile_head isWord (c::t)

end Tokens

section Layers

variable {s r : List Byte}

theorem fine_mono {r' : List Byte} {x : Except Stop (Cmd Token × List Byte)} (h : r' <:+ r)
    (hx : Fine s r' x) : Fine s r x := by
  match x, hx with
  | .ok (cmd,r₁), hx => exact ⟨hx.1.trans h,hx.2⟩
  | .error (.panics p), _ => trivial
  | .error .outOfFuel, hx => exact hx

theorem fine_bind {x : Except Stop (Cmd Token × List Byte)}
    {f : Cmd Token × List Byte → Except Stop (Cmd Token × List Byte)} (hx : Fine s r x)
    (hf : ∀ cmd r', x = .ok (cmd,r') → r' <:+ r → All (Good s) cmd → Fine s r (f (cmd,r'))) :
    Fine s r (x >>= f) := by
  match x, hx with
  | .ok (cmd,r₁), hx => exact hf cmd r₁ rfl hx.1 hx.2
  | .error (.panics p), _ => trivial
  | .error .outOfFuel, hx => exact hx

theorem token_suffix (r : List Byte) : (gettoken r).2.2 <:+ r :=
  (gettoken_suffix r).trans (skip_suffix r)

theorem parseredirs_fine {cmd : Cmd Token} (hr : r <:+ s) (hc : All (Good s) cmd) {k : ℕ}
    (hk : r.length < k) : Fine s r (parseredirs k cmd r) := by
  induction k generalizing cmd r with
  | zero => omega
  | succ k ih =>
    rw [parseredirs]
    split
    · next hp =>
      obtain ⟨c,t,hs,-⟩ := peek_cons hp
      have hlt := gettoken_lt (r := r) (by rw [hs]; simp)
      have hsuf := token_suffix r
      have hsuf₂ := token_suffix (gettoken r).2.2
      have hle := hsuf₂.length_le
      dsimp only
      split
      · trivial
      · next hcode =>
        refine fine_mono (hsuf₂.trans hsuf) (ih (hsuf₂.trans (hsuf.trans hr)) ?_ (by omega))
        exact ⟨hc,gettoken_good (hsuf.trans hr) (not_not.mp hcode)⟩
    · exact ⟨skip_suffix r,hc⟩

theorem parseredirs_argc {cmd cmd' : Cmd Token} {r' : List Byte} {k : ℕ}
    (h : parseredirs k cmd r = .ok (cmd',r')) : argc cmd' = argc cmd := by
  induction k generalizing cmd r with
  | zero => cases h
  | succ k ih =>
    rw [parseredirs] at h
    split at h
    · dsimp only at h
      split at h
      · cases h
      · have hargc := ih h
        exact hargc
    · cases h
      rfl

theorem all_addArg {cmd : Cmd Token} {t : Token} {n : ℕ} (hc : All (Good s) cmd)
    (hn : argc cmd = some n) (hlt : n+1 < MAXARGS) (ht : Good s t) :
    All (Good s) (cmd.addArg t) ∧ argc (cmd.addArg t) = some (n+1) := by
  induction cmd with
  | exec argv =>
    have hlen : argv.length = n := Option.some.inj hn
    refine ⟨⟨?_,?_⟩,?_⟩
    · rw [List.length_append,List.length_singleton,hlen]
      exact hlt
    · intro u hu
      rcases List.mem_append.mp hu with hu|hu
      · exact hc.2 u hu
      · rw [List.mem_singleton.mp hu]
        exact ht
    · simp [Cmd.addArg,argc,hlen]
  | redir cmd k file ih =>
    obtain ⟨h1,h2⟩ := ih hc.1 hn
    exact ⟨⟨h1,hc.2⟩,h2⟩
  | pipe => cases hn
  | list => cases hn
  | back => cases hn

theorem parseargs_fine {cmd : Cmd Token} {n : ℕ} (hr : r <:+ s) (hc : All (Good s) cmd)
    (hn : argc cmd = some n) {k : ℕ} (hk : r.length < k) : Fine s r (parseargs k n cmd r) := by
  induction k generalizing cmd r n with
  | zero => omega
  | succ k ih =>
    rw [parseargs]
    split
    · exact ⟨skip_suffix r,hc⟩
    · have hsuf := token_suffix r
      have hgood := gettoken_good hr
      have hlt : (gettoken r).1 ≠ nul → (gettoken r).2.2.length < r.length := by
        intro h
        apply gettoken_lt
        intro hs
        apply h
        rw [gettoken,hs]
      generalize gettoken r = g at *
      obtain ⟨tok,arg,r₁⟩ := g
      dsimp only at *
      split
      · exact ⟨hsuf,hc⟩
      · next htok =>
        split
        · trivial
        · next hcode =>
          split
          · trivial
          · next hmax =>
            have hlt := hlt htok
            obtain ⟨hall,hargc⟩ := all_addArg hc hn (by omega) (hgood (not_not.mp hcode))
            refine fine_mono hsuf (fine_bind (parseredirs_fine (hsuf.trans hr) hall (by omega)) ?_)
            intro cmd' r₂ hx hsuf₂ hall₂
            have hle := hsuf₂.length_le
            exact fine_mono hsuf₂ (ih (hsuf₂.trans (hsuf.trans hr)) hall₂
              ((parseredirs_argc hx).trans hargc) (by omega))

variable {line : List Byte → Except Stop (Cmd Token × List Byte)}

def FineBelow (line : List Byte → Except Stop (Cmd Token × List Byte)) (s : List Byte) (n : ℕ) :
    Prop := ∀ r, r <:+ s → r.length < n → Fine s r (line r)

theorem parseexec_fine (hl : FineBelow line s r.length) (hr : r <:+ s) :
    Fine s r (parseexec line r) := by
  rw [parseexec]
  split
  · next hp =>
    obtain ⟨c,t,hs,-⟩ := peek_cons hp
    have hlt := gettoken_lt (r := r) (by rw [hs]; simp)
    have hsuf := token_suffix r
    rw [parseblock,if_pos hp]
    dsimp only
    refine fine_mono hsuf (fine_bind (hl _ (hsuf.trans hr) hlt) ?_)
    intro cmd r₂ _ hsuf₂ hall
    dsimp only
    split
    · have hsuf₃ := token_suffix r₂
      refine fine_mono (hsuf₃.trans hsuf₂) (parseredirs_fine ?_ hall (Nat.lt_succ_self _))
      exact hsuf₃.trans (hsuf₂.trans (hsuf.trans hr))
    · trivial
  · have hempty : All (Good s) (.exec []) := ⟨Nat.succ_pos _,fun t ht => by simp at ht⟩
    refine fine_bind (parseredirs_fine hr hempty (Nat.lt_succ_self _)) ?_
    intro cmd r₂ hx hsuf hall
    refine fine_mono hsuf (parseargs_fine (hsuf.trans hr) hall ?_ (Nat.lt_succ_self _))
    rw [parseredirs_argc hx]
    rfl

theorem parsepipe_fine {n k : ℕ} (hl : FineBelow line s n) (hr : r <:+ s) (hn : r.length ≤ n)
    (hk : r.length < k) : Fine s r (parsepipe line k r) := by
  induction k generalizing r with
  | zero => omega
  | succ k ih =>
    rw [parsepipe]
    refine fine_bind (parseexec_fine (fun r' hr' hlt => hl r' hr' (by omega)) hr) ?_
    intro cmd r₁ _ hsuf hall
    dsimp only
    split
    · next hp =>
      obtain ⟨c,t,hs,-⟩ := peek_cons hp
      have hlt := gettoken_lt (r := r₁) (by rw [hs]; simp)
      have hsuf₂ := token_suffix r₁
      have hle := hsuf.length_le
      refine fine_mono (hsuf₂.trans hsuf)
        (fine_bind (ih (hsuf₂.trans (hsuf.trans hr)) (by omega) (by omega)) ?_)
      intro right r₃ _ hsuf₃ hall₃
      exact ⟨hsuf₃,hall,hall₃⟩
    · exact ⟨(skip_suffix r₁).trans hsuf,hall⟩

theorem parsebacks_fine {cmd : Cmd Token} (hc : All (Good s) cmd) {k : ℕ} (hk : r.length < k) :
    Fine s r (parsebacks k cmd r) := by
  induction k generalizing cmd r with
  | zero => omega
  | succ k ih =>
    rw [parsebacks]
    split
    · next hp =>
      obtain ⟨c,t,hs,-⟩ := peek_cons hp
      have hlt := gettoken_lt (r := r) (by rw [hs]; simp)
      have hback : All (Good s) (.back cmd) := hc
      exact fine_mono (token_suffix r) (ih hback (by omega))
    · exact ⟨skip_suffix r,hc⟩

theorem parselineWith_fine (hl : FineBelow line s r.length) (hr : r <:+ s) :
    Fine s r (parselineWith line r) := by
  rw [parselineWith]
  refine fine_bind (parsepipe_fine hl hr (Nat.le_refl _) (Nat.lt_succ_self _)) ?_
  intro cmd r₁ _ hsuf₁ hall₁
  refine fine_mono hsuf₁ (fine_bind (parsebacks_fine hall₁ (Nat.lt_succ_self _)) ?_)
  intro cmd r₂ _ hsuf₂ hall₂
  dsimp only
  split
  · next hp =>
    obtain ⟨c,t,hs,-⟩ := peek_cons hp
    have hlt := gettoken_lt (r := r₂) (by rw [hs]; simp)
    have h1 := hsuf₁.length_le
    have h2 := hsuf₂.length_le
    have hsuf₃ := token_suffix r₂
    have hsuf := hsuf₃.trans (hsuf₂.trans (hsuf₁.trans hr))
    refine fine_mono (hsuf₃.trans hsuf₂) (fine_bind (hl _ hsuf (by omega)) ?_)
    intro right r₄ _ hsuf₄ hall₄
    exact ⟨hsuf₄,hall₂,hall₄⟩
  · exact ⟨(skip_suffix r₂).trans hsuf₂,hall₂⟩

theorem parseline_fine {k : ℕ} (hr : r <:+ s) (hk : r.length < k) : Fine s r (parseline k r) := by
  induction k generalizing r with
  | zero => omega
  | succ k ih => exact parselineWith_fine (fun r' hr' hlt => ih hr' (by omega)) hr

end Layers

end ListlibSyscalls.ShellProgress
