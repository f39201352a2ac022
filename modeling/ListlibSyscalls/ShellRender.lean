import ListlibSyscalls.ShellProgress

/-!
# Printing commands

A command is printed as a list of lexemes, with parentheses where the grammar
needs them, and each lexeme is spelled with a blank after it. The parser reads
such a line one lexeme at a time. Its result on a line does not depend on the
fuel, so that it satisfies its own recursion equation.
-/

set_option autoImplicit false

namespace ListlibSyscalls.ShellRender
open StepRuns UserStrings ShellMachine ShellProgress

section Fuel

variable {s r : List Byte} {line line' : List Byte → Except Stop (Cmd Token × List Byte)}

def Agree (n : ℕ) (line line' : List Byte → Except Stop (Cmd Token × List Byte)) : Prop :=
  ∀ r, r.length < n → line r = line' r

theorem parseexec_congr (ha : Agree r.length line line') :
    parseexec line r = parseexec line' r := by
  rw [parseexec,parseexec]
  split
  · next hp =>
    obtain ⟨c,t,hs,-⟩ := peek_cons hp
    rw [parseblock,parseblock,if_pos hp,if_pos hp]
    dsimp only
    rw [ha _ (gettoken_lt (by rw [hs]; simp))]
  · rfl

theorem parsepipe_congr {n k : ℕ} (hl : FineBelow line s n) (ha : Agree n line line')
    (hr : r <:+ s) (hn : r.length ≤ n) : parsepipe line k r = parsepipe line' k r := by
  induction k generalizing r with
  | zero => rfl
  | succ k ih =>
    rw [parsepipe,parsepipe,← parseexec_congr fun r' h => ha r' (by omega)]
    have hf := @parseexec_fine s r line (fun r' hr' hlt => hl r' hr' (by omega)) hr
    cases hx : parseexec line r with
    | error e => rfl
    | ok p =>
      obtain ⟨cmd,r₁⟩ := p
      rw [hx] at hf
      rw [ok_bind,ok_bind]
      dsimp only
      split
      · next hp =>
        obtain ⟨c,t,hs,-⟩ := peek_cons hp
        have hlt := gettoken_lt (r := r₁) (by rw [hs]; simp)
        have hle := hf.1.length_le
        rw [ih ((token_suffix r₁).trans (hf.1.trans hr)) (by omega)]
      · rfl

theorem parselineWith_congr (hl : FineBelow line s r.length) (ha : Agree r.length line line')
    (hr : r <:+ s) : parselineWith line r = parselineWith line' r := by
  rw [parselineWith,parselineWith,← parsepipe_congr hl ha hr (Nat.le_refl _)]
  have hf := parsepipe_fine hl hr (Nat.le_refl _) (Nat.lt_succ_self _)
  cases hx : parsepipe line (r.length+1) r with
  | error e => rfl
  | ok p =>
    obtain ⟨cmd,r₁⟩ := p
    rw [hx] at hf
    rw [ok_bind,ok_bind]
    dsimp only
    have hf₂ := parsebacks_fine hf.2 (Nat.lt_succ_self r₁.length)
    cases hy : parsebacks (r₁.length+1) cmd r₁ with
    | error e => rfl
    | ok p =>
      obtain ⟨cmd,r₂⟩ := p
      rw [hy] at hf₂
      rw [ok_bind,ok_bind]
      dsimp only
      split
      · next hp =>
        obtain ⟨c,t,hs,-⟩ := peek_cons hp
        have hlt := gettoken_lt (r := r₂) (by rw [hs]; simp)
        have h1 := hf.1.length_le
        have h2 := hf₂.1.length_le
        rw [ha (gettoken r₂).2.2 (by omega)]
      · rfl

/-- Fuel above the length of the rest makes no difference. -/
theorem parseline_fuel {k k' : ℕ} (hk : r.length < k) (hk' : r.length < k') :
    parseline k r = parseline k' r := by
  induction k generalizing k' r with
  | zero => omega
  | succ k ih =>
    cases k' with
    | zero => omega
    | succ k' =>
      rw [parseline,parseline]
      apply parselineWith_congr (s := r) _ _ List.suffix_rfl
      · exact fun r' _ hlt => parseline_fine (s := r) (by assumption) (by omega)
      · exact fun r' hlt => ih (by omega) (by omega)

end Fuel

def parse (r : List Byte) : Except Stop (Cmd Token × List Byte) := parseline (r.length+1) r

/-- The equation of the recursive function in the source. -/
theorem parse_eq (r : List Byte) : parse r = parselineWith parse r := by
  rw [parse,parseline]
  apply parselineWith_congr (s := r) _ _ List.suffix_rfl
  · exact fun r' hr' hlt => parseline_fine hr' hlt
  · exact fun r' hlt => parseline_fuel hlt (Nat.lt_succ_self _)

inductive Lexeme where
  | word (w : List Byte)
  | sym (c : Byte)
  | append
  deriving DecidableEq

def Lexeme.bytes : Lexeme → List Byte
  | .word w => w
  | .sym c => [c]
  | .append => [ch '>',ch '>']

def spell : List Lexeme → List Byte
  | [] => []
  | l::ls => l.bytes++ch ' '::spell ls

def Word (w : List Byte) : Prop := w ≠ [] ∧ ∀ b ∈ w, isWord b = true

def Lexeme.Proper : Lexeme → Prop
  | .word w => Word w
  | .sym c => c ∈ symbols
  | .append => True

def Proper (ls : List Lexeme) : Prop := ∀ l ∈ ls, l.Proper

section Lexing

variable {ls : List Lexeme} {c : Byte} {w toks : List Byte}

theorem symbol_not_space : ∀ c ∈ symbols, isSpace c = false := by decide

theorem word_not_space (h : isWord c = true) : isSpace c = false := by
  rw [isWord,Bool.and_eq_true] at h
  rw [isSpace]
  simpa using h.1

theorem word_not_symbol (h : isWord c = true) : c ∉ symbols := by
  rw [isWord,Bool.and_eq_true] at h
  simpa using h.2

theorem Word.head (h : Word w) : ∃ c u, w = c::u ∧ isWord c = true := by
  cases w with
  | nil => exact absurd rfl h.1
  | cons c u => exact ⟨c,u,rfl,h.2 c List.mem_cons_self⟩

theorem skip_spell (h : Proper ls) : skip (spell ls) = spell ls := by
  cases ls with
  | nil => rfl
  | cons l ls =>
    have hl := h l List.mem_cons_self
    cases l with
    | word w =>
      obtain ⟨c,u,rfl,hc⟩ := Word.head hl
      exact skip_cons (word_not_space hc) _
    | sym c => exact skip_cons (symbol_not_space c hl) _
    | append => exact skip_cons (symbol_not_space _ (by decide)) _

theorem skip_blank (h : Proper ls) : skip (ch ' '::spell ls) = spell ls := by
  rw [skip,List.dropWhile_cons_of_pos (by decide)]
  exact skip_spell h

theorem gettoken_sym (hc : c ∈ symbols) (h : Proper ls) :
    ∃ t, gettoken (spell (.sym c::ls)) = (c,t,spell ls) := by
  have hs : skip (spell (.sym c::ls)) = c::ch ' '::spell ls :=
    skip_cons (symbol_not_space c hc) _
  rw [gettoken,hs]
  dsimp only
  split
  · exact ⟨_,by rw [skip_blank h]⟩
  · next h1 =>
    have hgt : c = ch '>' := by
      simp only [symbols,List.mem_cons,List.not_mem_nil,or_false] at hc
      tauto
    have hnext : ¬ (ch ' '::spell ls).head? = some (ch '>') := by
      rw [List.head?_cons]
      decide
    rw [if_pos hgt,if_neg hnext]
    exact ⟨_,by rw [skip_blank h]⟩

theorem gettoken_append (h : Proper ls) :
    ∃ t, gettoken (spell (.append::ls)) = (ch '+',t,spell ls) := by
  have hs : skip (spell (.append::ls)) = ch '>'::ch '>'::ch ' '::spell ls :=
    skip_cons (by decide) _
  rw [gettoken,hs]
  dsimp only
  rw [if_neg (by decide),if_pos rfl,if_pos List.head?_cons]
  exact ⟨_,by rw [List.tail_cons,skip_blank h]⟩

theorem takeWhile_word (hw : Word w) (r : List Byte) :
    (w++ch ' '::r).takeWhile isWord = w ∧ (w++ch ' '::r).dropWhile isWord = ch ' '::r := by
  have hblank : isWord (ch ' ') = false := by decide
  rw [List.takeWhile_append_of_pos hw.2,List.dropWhile_append_of_pos hw.2,
    List.takeWhile_cons_of_neg (by simp [hblank]),List.dropWhile_cons_of_neg (by simp [hblank]),
    List.append_nil]
  exact ⟨rfl,rfl⟩

theorem gettoken_word (hw : Word w) (h : Proper ls) :
    ∃ t, gettoken (spell (.word w::ls)) = (ch 'a',t,spell ls) ∧ t.text = w := by
  have hcut := takeWhile_word hw (spell ls)
  obtain ⟨c,u,rfl,hc⟩ := hw.head
  have hs : skip (spell (.word (c::u)::ls)) = c::(u++ch ' '::spell ls) :=
    skip_cons (word_not_space hc) _
  have hsym := word_not_symbol hc
  have h1 : ¬ (c = ch '|' ∨ c = ch '(' ∨ c = ch ')' ∨ c = ch ';' ∨ c = ch '&' ∨ c = ch '<') := by
    intro h
    apply hsym
    simp only [symbols,List.mem_cons,List.not_mem_nil,or_false]
    tauto
  have h2 : c ≠ ch '>' := fun h => hsym (by rw [h]; decide)
  rw [List.cons_append] at hcut
  rw [gettoken,hs]
  dsimp only
  rw [if_neg h1,if_neg h2,hcut.1,hcut.2,skip_blank h]
  exact ⟨_,rfl,rfl⟩

theorem peek_sym (hc : c ∈ symbols) (toks : List Byte) :
    peek (spell (.sym c::ls)) toks = toks.contains c := by
  have hs : skip (spell (.sym c::ls)) = c::ch ' '::spell ls :=
    skip_cons (symbol_not_space c hc) _
  rw [peek,hs]

theorem peek_append (toks : List Byte) :
    peek (spell (.append::ls)) toks = toks.contains (ch '>') := by
  have hs : skip (spell (.append::ls)) = ch '>'::ch '>'::ch ' '::spell ls :=
    skip_cons (by decide) _
  rw [peek,hs]

theorem peek_word (hw : Word w) (ht : toks ⊆ symbols) : peek (spell (.word w::ls)) toks = false := by
  obtain ⟨c,u,rfl,hc⟩ := hw.head
  have hs : skip (spell (.word (c::u)::ls)) = c::(u++ch ' '::spell ls) :=
    skip_cons (word_not_space hc) _
  rw [peek,hs]
  simpa using fun h => word_not_symbol hc (ht h)

end Lexing

section Printing

variable {τ : Type}

/-- What `parseexec` returns without parentheses. -/
def isUnit : Cmd τ → Bool
  | .exec _ => true
  | .redir _ _ _ => true
  | _ => false

def isPipe : Cmd τ → Bool
  | .pipe _ _ => true
  | _ => false

def isList : Cmd τ → Bool
  | .list _ _ => true
  | _ => false

def enclose (b : Bool) (ls : List Lexeme) : List Lexeme :=
  if b then .sym (ch '(')::(ls++[.sym (ch ')')]) else ls

def sign : Redir → Lexeme
  | .input => .sym (ch '<')
  | .output => .sym (ch '>')
  | .append => .append

def render : Cmd (List Byte) → List Lexeme
  | .exec argv => argv.map .word
  | .redir cmd k file => enclose (!isUnit cmd) (render cmd)++[sign k,.word file]
  | .pipe left right => enclose (!isUnit left) (render left)++
      .sym (ch '|')::enclose (!(isUnit right || isPipe right)) (render right)
  | .list left right => enclose (isList left) (render left)++.sym (ch ';')::render right
  | .back cmd => enclose (isList cmd) (render cmd)++[.sym (ch '&')]

def texts : Cmd Token → Cmd (List Byte)
  | .exec argv => .exec (argv.map Token.text)
  | .redir cmd k file => .redir (texts cmd) k file.text
  | .pipe left right => .pipe (texts left) (texts right)
  | .list left right => .list (texts left) (texts right)
  | .back cmd => .back (texts cmd)

theorem Proper.append {ls ls' : List Lexeme} (h : Proper ls) (h' : Proper ls') :
    Proper (ls++ls') := by
  intro l hl
  rcases List.mem_append.mp hl with hl|hl
  · exact h l hl
  · exact h' l hl

theorem Proper.cons {l : Lexeme} {ls : List Lexeme} (hl : l.Proper) (h : Proper ls) :
    Proper (l::ls) := by
  intro l' hl'
  rcases List.mem_cons.mp hl' with rfl|hl'
  · exact hl
  · exact h l' hl'

theorem Proper.nil : Proper [] := fun l hl => by simp at hl

theorem sign_proper (k : Redir) : (sign k).Proper := by
  cases k with
  | input => exact (by decide : ch '<' ∈ symbols)
  | output => exact (by decide : ch '>' ∈ symbols)
  | append => trivial

theorem enclose_proper {b : Bool} {ls : List Lexeme} (h : Proper ls) : Proper (enclose b ls) := by
  rw [enclose]
  split
  · exact .cons (by decide : ch '(' ∈ symbols) (h.append (.cons (by decide : ch ')' ∈ symbols) .nil))
  · exact h

theorem render_proper {c : Cmd (List Byte)} (h : All Word c) : Proper (render c) := by
  induction c with
  | exec argv =>
    intro l hl
    obtain ⟨w,hw,rfl⟩ := List.mem_map.mp hl
    exact h.2 w hw
  | redir c k f ih => exact (enclose_proper (ih h.1)).append (.cons (sign_proper k) (.cons h.2 .nil))
  | pipe l r ihl ihr =>
    exact (enclose_proper (ihl h.1)).append
      (.cons (by decide : ch '|' ∈ symbols) (enclose_proper (ihr h.2)))
  | list l r ihl ihr =>
    exact (enclose_proper (ihl h.1)).append (.cons (by decide : ch ';' ∈ symbols) (ihr h.2))
  | back c ih =>
    exact (enclose_proper (ih h)).append (.cons (by decide : ch '&' ∈ symbols) .nil)

end Printing

end ListlibSyscalls.ShellRender
