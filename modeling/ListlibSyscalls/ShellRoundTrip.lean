import ListlibSyscalls.ShellRender

/-!
# The parser reads back what is printed

For each parsing function there is a statement about the commands it is meant
for, in front of any lexemes that cannot continue them. `parseredirs` and the
loop of `parseline` take one lexeme after another off the line, so a command
inside redirections or in the background is read with the loop that surrounds it
still to finish. The four statements of a command follow from those of its parts.
-/

set_option autoImplicit false

namespace ListlibSyscalls.ShellRoundTrip
open StepRuns UserStrings ShellMachine ShellProgress ShellRender

/-- The line ends here or goes on with one of the symbols. -/
def Ends (toks : List Byte) (ls : List Lexeme) : Prop :=
  Proper ls ∧ (ls = [] ∨ ∃ c ∈ toks, ∃ ls', ls = .sym c::ls')

theorem Ends.peek_false {toks toks' : List Byte} {ls : List Lexeme} (h : Ends toks ls)
    (hd : ∀ c ∈ toks, toks'.contains c = false) : peek (spell ls) toks' = false := by
  rcases h with ⟨hp,rfl|⟨c,hc,ls',rfl⟩⟩
  · rfl
  · rw [peek_sym (hp _ List.mem_cons_self)]
    exact hd c hc

theorem Ends.mono {toks toks' : List Byte} {ls : List Lexeme} (h : Ends toks ls)
    (hs : toks ⊆ toks') : Ends toks' ls := by
  rcases h with ⟨hp,h|⟨c,hc,h⟩⟩
  · exact ⟨hp,.inl h⟩
  · exact ⟨hp,.inr ⟨c,hs hc,h⟩⟩

theorem ends_sym {c : Byte} {toks : List Byte} {ls : List Lexeme} (hc : c ∈ toks)
    (hs : c ∈ symbols) (h : Proper ls) : Ends toks (.sym c::ls) :=
  ⟨.cons hs h,.inr ⟨c,hc,ls,rfl⟩⟩

def afterExec : List Byte := [ch '|',ch ')',ch '&',ch ';']
def afterPipe : List Byte := [ch ')',ch '&',ch ';']
def afterBack : List Byte := [ch ')',ch ';']
def afterLine : List Byte := [ch ')']

section Loops

variable {ls rest : List Lexeme} {cmd : Cmd Token}

theorem parseredirs_stop {k : ℕ} (hp : Proper ls) (h : peek (spell ls) [ch '<',ch '>'] = false) :
    parseredirs (k+1) cmd (spell ls) = .ok (cmd,spell ls) := by
  rw [parseredirs,h,skip_spell hp]
  rfl

theorem parseredirs_sign {k : ℕ} (d : Redir) {f : List Byte} (hf : Word f) (hp : Proper ls) :
    ∃ t, parseredirs (k+1) cmd (spell (sign d::.word f::ls)) =
      parseredirs k (.redir cmd d t) (spell ls) ∧ t.text = f := by
  have hword : Proper (.word f::ls) := .cons hf hp
  obtain ⟨t,hget,htext⟩ := gettoken_word hf hp
  refine ⟨t,?_,htext⟩
  cases d with
  | input =>
    obtain ⟨u,hsym⟩ := gettoken_sym (by decide : ch '<' ∈ symbols) hword
    rw [sign,parseredirs,peek_sym (by decide),hsym]
    dsimp only
    rw [hget]
    rfl
  | output =>
    obtain ⟨u,hsym⟩ := gettoken_sym (by decide : ch '>' ∈ symbols) hword
    rw [sign,parseredirs,peek_sym (by decide),hsym]
    dsimp only
    rw [hget]
    rfl
  | append =>
    obtain ⟨u,hsym⟩ := gettoken_append hword
    rw [sign,parseredirs,peek_append,hsym]
    dsimp only
    rw [hget]
    rfl

/-- The continuation is the loop over the arguments, of which `n` are there. -/
def Loops (len n : ℕ) (g : Cmd Token × List Byte → Except Stop (Cmd Token × List Byte)) : Prop :=
  ∀ ret r, r.length ≤ len → ∃ k, r.length ≤ k ∧ g (ret,r) = parseargs (k+1) n ret r

theorem spell_word_length (w : List Byte) (ls : List Lexeme) :
    (spell ls).length < (spell (.word w::ls)).length := by
  rw [spell,List.length_append,List.length_cons]
  omega

theorem parseargs_words (ws : List (List Byte)) {pre : List Token} {k : ℕ}
    {g : Cmd Token × List Byte → Except Stop (Cmd Token × List Byte)}
    (hw : ∀ w ∈ ws, Word w) (hp : Proper rest) (hmax : pre.length+ws.length < MAXARGS)
    (hg : Loops (spell (ws.map .word++rest)).length pre.length g)
    (hk : (spell (ws.map .word++rest)).length ≤ k) :
    ∃ ts k' g', (parseredirs (k+1) (.exec pre) (spell (ws.map .word++rest)) >>= g) =
        (parseredirs (k'+1) (.exec (pre++ts)) (spell rest) >>= g') ∧
      ts.map Token.text = ws ∧ (spell rest).length ≤ k' ∧
      Loops (spell rest).length (pre++ts).length g' := by
  induction ws generalizing pre k g with
  | nil => exact ⟨[],k,g,by rw [List.append_nil]; rfl,rfl,hk,by rwa [List.append_nil]⟩
  | cons w ws ih =>
    have hword := hw w List.mem_cons_self
    have hws : ∀ v ∈ ws, Word v := fun v hv => hw v (List.mem_cons_of_mem _ hv)
    have hrest : Proper (ws.map .word++rest) := by
      apply Proper.append _ hp
      intro l hl
      obtain ⟨v,hv,rfl⟩ := List.mem_map.mp hl
      exact hws v hv
    rw [List.length_cons] at hmax
    rw [List.map_cons,List.cons_append] at hg hk ⊢
    have hlen := spell_word_length w (ws.map .word++rest)
    obtain ⟨j,hj,hgj⟩ := hg (.exec pre) (spell (.word w::(ws.map .word++rest))) (Nat.le_refl _)
    obtain ⟨t,hget,htext⟩ := gettoken_word hword hrest
    have hline : Proper (.word w::(ws.map .word++rest)) := .cons hword hrest
    rw [parseredirs_stop hline (peek_word hword (by decide)),ok_bind,hgj,parseargs,
      peek_word hword (by decide),hget]
    simp only [Bool.false_eq_true,if_false]
    rw [if_neg (by decide),if_neg (by decide),if_neg (by omega)]
    have hnext : Loops (spell (ws.map .word++rest)).length (pre++[t]).length
        (fun p => parseargs j (pre.length+1) p.1 p.2) := by
      intro ret r hr
      refine ⟨j-1,by omega,?_⟩
      rw [List.length_append,List.length_singleton,Nat.sub_add_cancel (by omega)]
    obtain ⟨ts,k',g',heq,hts,hk',hg'⟩ := ih hws
      (by rw [List.length_append,List.length_singleton]; omega) hnext (Nat.le_refl _)
    refine ⟨t::ts,k',g',?_,?_,hk',?_⟩
    · rw [List.append_cons]
      exact heq
    · rw [List.map_cons,htext,hts]
    · rw [List.append_cons]
      exact hg'

theorem parseargs_ends {len n : ℕ} {ret : Cmd Token}
    {g : Cmd Token × List Byte → Except Stop (Cmd Token × List Byte)} (hg : Loops len n g)
    (he : Ends afterExec ls) (hl : (spell ls).length ≤ len) :
    g (ret,spell ls) = .ok (ret,spell ls) := by
  obtain ⟨k,-,hgk⟩ := hg ret (spell ls) hl
  rw [hgk,parseargs]
  rcases he with ⟨hp,rfl|⟨c,hc,ls',rfl⟩⟩
  · rfl
  · have hpeek : peek (spell (.sym c::ls')) [ch '|',ch ')',ch '&',ch ';'] = true := by
      rw [peek_sym (hp _ List.mem_cons_self)]
      simpa [afterExec] using hc
    rw [if_pos hpeek,skip_spell hp]

end Loops

def unit (c : Cmd (List Byte)) : List Lexeme := enclose (!isUnit c) (render c)
def pipeline (c : Cmd (List Byte)) : List Lexeme := enclose (!(isUnit c || isPipe c)) (render c)
def item (c : Cmd (List Byte)) : List Lexeme := enclose (isList c) (render c)

/-- `parseexec` comes to the redirections after the command, and what it does
after them does nothing at the end of a unit. -/
def ReadsUnit (c : Cmd (List Byte)) : Prop :=
  ∀ rest, Proper rest → peek (spell rest) [ch '('] = false →
    ∃ c' k g, parseexec parse (spell (unit c++rest)) =
        (parseredirs (k+1) c' (spell rest) >>= g) ∧
      texts c' = c ∧ (spell rest).length ≤ k ∧
      ∀ ret ls, Ends afterExec ls → (spell ls).length ≤ (spell rest).length →
        g (ret,spell ls) = .ok (ret,spell ls)

def ReadsPipe (c : Cmd (List Byte)) : Prop :=
  ∀ rest k, Ends afterPipe rest → (spell (pipeline c++rest)).length ≤ k →
    ∃ c', parsepipe parse (k+1) (spell (pipeline c++rest)) = .ok (c',spell rest) ∧ texts c' = c

/-- The first half of `parseline` comes to the loop after the command. -/
def ReadsItem (c : Cmd (List Byte)) : Prop :=
  ∀ rest, Ends afterPipe rest →
    ∃ c' k, (do
        let p ← parsepipe parse ((spell (item c++rest)).length+1) (spell (item c++rest))
        parsebacks (p.2.length+1) p.1 p.2) = parsebacks (k+1) c' (spell rest) ∧
      texts c' = c ∧ (spell rest).length ≤ k

def ReadsLine (c : Cmd (List Byte)) : Prop :=
  ∀ rest, Ends afterLine rest →
    ∃ c', parse (spell (render c++rest)) = .ok (c',spell rest) ∧ texts c' = c

section Steps

variable {c l r : Cmd (List Byte)}

theorem sym_length (b : Byte) (ls : List Lexeme) :
    (spell (.sym b::ls)).length = (spell ls).length+2 := by
  rw [spell,List.length_append,List.length_cons,Lexeme.bytes,List.length_singleton]
  omega

theorem spell_append_length (ls ls' : List Lexeme) :
    (spell (ls++ls')).length = (spell ls).length+(spell ls').length := by
  induction ls with
  | nil => simp [spell]
  | cons l ls ih =>
    rw [List.cons_append,spell,spell,List.length_append,List.length_append,List.length_cons,
      List.length_cons,ih]
    omega

theorem unit_exec {ws : List (List Byte)} (h : All Word (.exec ws)) : ReadsUnit (.exec ws) := by
  intro rest hp hnot
  have hparen : peek (spell (ws.map .word++rest)) [ch '('] = false := by
    cases ws with
    | nil => exact hnot
    | cons w ws => exact peek_word (h.2 w List.mem_cons_self) (by decide)
  have hg : Loops (spell (ws.map .word++rest)).length 0
      (fun p => parseargs (p.2.length+1) 0 p.1 p.2) :=
    fun ret r _ => ⟨r.length,Nat.le_refl _,rfl⟩
  have hmax : ([] : List Token).length+ws.length < MAXARGS := by simpa using h.1
  obtain ⟨ts,k,g,heq,hts,hk,hg'⟩ := parseargs_words ws h.2 hp hmax hg (Nat.le_refl _)
  refine ⟨.exec ts,k,g,?_,by rw [texts,hts],hk,?_⟩
  · show parseexec parse (spell (ws.map .word++rest)) = _
    rw [parseexec,hparen]
    exact heq
  · exact fun ret ls he hl => parseargs_ends hg' he hl

theorem unit_redir {k : Redir} {f : List Byte} (hf : Word f) (hc : ReadsUnit c) :
    ReadsUnit (.redir c k f) := by
  intro rest hp hnot
  have hrest : Proper (sign k::.word f::rest) := .cons (sign_proper k) (.cons hf hp)
  have hparen : peek (spell (sign k::.word f::rest)) [ch '('] = false := by
    cases k with
    | input => exact (peek_sym (by decide) _).trans (by decide)
    | output => exact (peek_sym (by decide) _).trans (by decide)
    | append => exact (peek_append _).trans (by decide)
  obtain ⟨c',n,g,heq,htexts,hn,hg⟩ := hc _ hrest hparen
  obtain ⟨t,hsign,htext⟩ := @parseredirs_sign rest c' n k f hf hp
  have hlen : (spell rest).length+1 ≤ (spell (sign k::.word f::rest)).length := by
    have := spell_word_length f rest
    rw [spell,List.length_append,List.length_cons]
    omega
  refine ⟨.redir c' k t,n-1,g,?_,?_,by omega,?_⟩
  · have happ : unit (.redir c k f)++rest = unit c++sign k::.word f::rest := by
      show (unit c++[sign k,.word f])++rest = _
      rw [List.append_assoc]
      rfl
    rw [happ,heq,hsign,Nat.sub_add_cancel (by omega)]
  · rw [texts,htexts,htext]
  · exact fun ret ls he hl => hg ret ls he (by omega)

theorem unit_block (hu : isUnit c = false) (hw : All Word c) (hc : ReadsLine c) : ReadsUnit c := by
  intro rest hp _
  have hclose : Proper (.sym (ch ')')::rest) := .cons (by decide : ch ')' ∈ symbols) hp
  have hbody : Proper (render c++.sym (ch ')')::rest) := (render_proper hw).append hclose
  have happ : unit c++rest = .sym (ch '(')::(render c++.sym (ch ')')::rest) := by
    simp [unit,enclose,hu]
  obtain ⟨u,hopen⟩ := gettoken_sym (by decide : ch '(' ∈ symbols) hbody
  obtain ⟨v,hshut⟩ := gettoken_sym (by decide : ch ')' ∈ symbols) hp
  obtain ⟨c',hparse,htexts⟩ := hc (.sym (ch ')')::rest) (ends_sym (by decide) (by decide) hp)
  refine ⟨c',(spell rest).length,.ok,?_,htexts,Nat.le_refl _,fun _ _ _ _ => rfl⟩
  rw [happ,parseexec,parseblock,peek_sym (by decide),hopen,if_pos (by decide),if_pos (by decide)]
  dsimp only
  rw [hparse,ok_bind]
  dsimp only
  rw [peek_sym (by decide),hshut,if_pos (by decide)]
  dsimp only
  cases parseredirs ((spell rest).length+1) c' (spell rest) with
  | error e => rfl
  | ok p => rfl

theorem ReadsUnit.finish (hc : ReadsUnit c) {rest : List Lexeme} (he : Ends afterExec rest) :
    ∃ c', parseexec parse (spell (unit c++rest)) = .ok (c',spell rest) ∧ texts c' = c := by
  obtain ⟨c',k,g,heq,htexts,-,hg⟩ := hc rest he.1 (he.peek_false (by decide))
  refine ⟨c',?_,htexts⟩
  rw [heq,parseredirs_stop he.1 (he.peek_false (by decide)),ok_bind]
  exact hg c' rest he (Nat.le_refl _)

theorem pipe_unit (hp : isPipe c = false) (hc : ReadsUnit c) : ReadsPipe c := by
  intro rest k he _
  have happ : pipeline c = unit c := by rw [pipeline,unit,hp,Bool.or_false]
  obtain ⟨c',heq,htexts⟩ := hc.finish (he.mono (by decide))
  refine ⟨c',?_,htexts⟩
  rw [happ,parsepipe,heq,ok_bind]
  dsimp only
  rw [he.peek_false (by decide),skip_spell he.1]
  rfl

theorem pipe_pipe (hw : All Word r) (hl : ReadsUnit l) (hr : ReadsPipe r) :
    ReadsPipe (.pipe l r) := by
  intro rest k he hk
  have happ : pipeline (.pipe l r)++rest = unit l++.sym (ch '|')::(pipeline r++rest) := by
    show (unit l++.sym (ch '|')::pipeline r)++rest = _
    rw [List.append_assoc,List.cons_append]
  have hright : Proper (pipeline r++rest) := (enclose_proper (render_proper hw)).append he.1
  rw [happ,spell_append_length,sym_length] at hk
  obtain ⟨c₁,heq₁,htexts₁⟩ := hl.finish (ends_sym (by decide) (by decide : ch '|' ∈ symbols) hright)
  obtain ⟨c₂,heq₂,htexts₂⟩ := hr rest (k-1) he (by omega)
  obtain ⟨u,hbar⟩ := gettoken_sym (by decide : ch '|' ∈ symbols) hright
  refine ⟨.pipe c₁ c₂,?_,by rw [texts,htexts₁,htexts₂]⟩
  rw [happ,parsepipe,heq₁,ok_bind]
  dsimp only
  rw [peek_sym (by decide),hbar,if_pos (by decide)]
  dsimp only
  rw [Nat.sub_add_cancel (by omega)] at heq₂
  rw [heq₂]
  rfl

def isBack : Cmd (List Byte) → Bool
  | .back _ => true
  | _ => false

theorem item_pipe (hb : isBack c = false) (hc : ReadsPipe c) : ReadsItem c := by
  intro rest he
  have happ : item c = pipeline c := by
    cases c with
    | back => cases hb
    | exec | redir | pipe | list => rfl
  obtain ⟨c',heq,htexts⟩ := hc rest (spell (item c++rest)).length he (by rw [happ])
  refine ⟨c',(spell rest).length,?_,htexts,Nat.le_refl _⟩
  rw [happ] at heq ⊢
  rw [heq]
  rfl

theorem parsebacks_stop {k : ℕ} {cmd : Cmd Token} {ls : List Lexeme} (he : Ends afterBack ls) :
    parsebacks (k+1) cmd (spell ls) = .ok (cmd,spell ls) := by
  rw [parsebacks,he.peek_false (by decide),skip_spell he.1]
  rfl

theorem item_back (hc : ReadsItem c) : ReadsItem (.back c) := by
  intro rest he
  obtain ⟨c',k,heq,htexts,hk⟩ := hc (.sym (ch '&')::rest) (ends_sym (by decide) (by decide) he.1)
  obtain ⟨u,hget⟩ := gettoken_sym (by decide : ch '&' ∈ symbols) he.1
  have happ : item (.back c)++rest = item c++.sym (ch '&')::rest := by
    show (item c++[.sym (ch '&')])++rest = _
    rw [List.append_assoc]
    rfl
  rw [sym_length] at hk
  refine ⟨.back c',k-1,?_,by rw [texts,htexts],by omega⟩
  rw [happ,heq,parsebacks,peek_sym (by decide),hget,if_pos (by decide)]
  dsimp only
  rw [Nat.sub_add_cancel (by omega)]

/-- The second half of `parseline`. -/
theorem parse_of_item {rest : List Lexeme} (hc : ReadsItem c)
    (he : Ends afterBack rest) :
    ∃ c', texts c' = c ∧ parse (spell (item c++rest)) =
      (if peek (spell rest) [ch ';'] then do
        let (right,r) ← parse (gettoken (spell rest)).2.2
        .ok (.list c' right,r)
      else .ok (c',spell rest)) := by
  obtain ⟨c',k,heq,htexts,-⟩ := hc rest (he.mono (by decide))
  refine ⟨c',htexts,?_⟩
  rw [parsebacks_stop he] at heq
  rw [parse_eq,parselineWith]
  cases hx : parsepipe parse ((spell (item c++rest)).length+1) (spell (item c++rest)) with
  | error e =>
    rw [hx] at heq
    cases heq
  | ok p =>
    rw [hx,ok_bind] at heq
    rw [ok_bind]
    dsimp only
    rw [heq,ok_bind]
    dsimp only
    rw [skip_spell he.1]

theorem line_item (hl : isList c = false) (hc : ReadsItem c) : ReadsLine c := by
  intro rest he
  have happ : item c = render c := by rw [item,hl]; rfl
  obtain ⟨c',htexts,heq⟩ := parse_of_item hc (he.mono (by decide))
  refine ⟨c',?_,htexts⟩
  rw [← happ,heq,he.peek_false (by decide)]
  rfl

theorem line_list (hw : All Word r) (hl : ReadsItem l) (hr : ReadsLine r) :
    ReadsLine (.list l r) := by
  intro rest he
  have happ : render (.list l r)++rest = item l++.sym (ch ';')::(render r++rest) := by
    show (item l++.sym (ch ';')::render r)++rest = _
    rw [List.append_assoc,List.cons_append]
  have hright : Proper (render r++rest) := (render_proper hw).append he.1
  obtain ⟨u,hget⟩ := gettoken_sym (by decide : ch ';' ∈ symbols) hright
  obtain ⟨c₁,htexts₁,heq₁⟩ :=
    parse_of_item hl (ends_sym (by decide) (by decide : ch ';' ∈ symbols) hright)
  obtain ⟨c₂,heq₂,htexts₂⟩ := hr rest he
  refine ⟨.list c₁ c₂,?_,by rw [texts,htexts₁,htexts₂]⟩
  rw [happ,heq₁,peek_sym (by decide),if_pos (by decide),hget]
  dsimp only
  rw [heq₂]
  rfl

/-- The statements for a command, each from those it needs of its parts. -/
theorem reads (h : All Word c) : ReadsUnit c ∧ ReadsPipe c ∧ ReadsItem c ∧ ReadsLine c := by
  induction c with
  | exec ws =>
    have hunit := unit_exec h
    have hpipe := pipe_unit rfl hunit
    have hitem := item_pipe rfl hpipe
    exact ⟨hunit,hpipe,hitem,line_item rfl hitem⟩
  | redir c k f ih =>
    have hunit := unit_redir (k := k) h.2 (ih h.1).1
    have hpipe := pipe_unit rfl hunit
    have hitem := item_pipe rfl hpipe
    exact ⟨hunit,hpipe,hitem,line_item rfl hitem⟩
  | pipe l r ihl ihr =>
    have hpipe := pipe_pipe h.2 (ihl h.1).1 (ihr h.2).2.1
    have hitem := item_pipe rfl hpipe
    have hline := line_item rfl hitem
    exact ⟨unit_block rfl h hline,hpipe,hitem,hline⟩
  | list l r ihl ihr =>
    have hline := line_list h.2 (ihl h.1).2.2.1 (ihr h.2).2.2.2
    have hunit := unit_block rfl h hline
    have hpipe := pipe_unit rfl hunit
    exact ⟨hunit,hpipe,item_pipe rfl hpipe,hline⟩
  | back c ih =>
    have hitem := item_back (ih h).2.2.1
    have hline := line_item rfl hitem
    have hunit := unit_block rfl h hline
    exact ⟨hunit,pipe_unit rfl hunit,hitem,hline⟩

theorem parsetext_spell (h : All Word c) :
    ∃ cmd, parsetext (spell (render c)) = .ok cmd ∧ texts cmd = c := by
  obtain ⟨cmd,heq,htexts⟩ := (reads h).2.2.2 [] ⟨.nil,.inl rfl⟩
  refine ⟨cmd,?_,htexts⟩
  rw [List.append_nil,parse] at heq
  rw [parsetext,heq]
  rfl

end Steps

/-- A buffer that holds the line of a command is parsed to this command. -/
theorem parsecmd_render (c : Cmd (List Byte)) (h : All Word c) (m : List Byte)
    (hm : text m = spell (render c)) :
    ∃ cmd m', parsecmd m = .ok (cmd,m') ∧ texts cmd = c := by
  obtain ⟨cmd,heq,htexts⟩ := parsetext_spell h
  refine ⟨cmd,nulterminate (text m).length cmd m,?_,htexts⟩
  rw [parsecmd,hm,heq]
  rfl

/-- `( a > f & ; b ) | c`. -/
def sample : Cmd (List Byte) :=
  .pipe (.list (.back (.redir (.exec [[ch 'a']]) .output [ch 'f'])) (.exec [[ch 'b']]))
    (.exec [[ch 'c']])

theorem sample_words : All Word sample := by
  simp only [sample,All,Word]
  decide

theorem parsecmd_render_sample :
    ∃ cmd m', parsecmd (spell (render sample)++[nul]) = .ok (cmd,m') ∧ texts cmd = sample :=
  parsecmd_render sample sample_words _ (text_append_nul (by decide) [])

end ListlibSyscalls.ShellRoundTrip
