import ListlibSyscalls.GrepMatcher

/-!
# grep on a stream of lines

`grep` of `grep.c` reads into a buffer behind what is left of the last read, prints
the matching lines that a newline ends, and moves the rest to the front. How much a
`read` returns is up to the system. The buffer is shared by all files, so it may hold
anything at the start.
-/

set_option autoImplicit false

namespace ListlibSyscalls.GrepStream
open UserStrings WordLanguages GrepMatcher

abbrev bufSize : ℕ := 1024

/-- How many bytes a `read` returns, for what the file still has and the room in the
buffer: at least one, while there is something to read and room for it. -/
structure Reader where
  amount : List Byte → ℕ → ℕ
  inRoom : ∀ rest room, amount rest room ≤ room
  inRest : ∀ rest room, amount rest room ≤ rest.length
  progress : ∀ rest room, rest ≠ [] → 0 < room → 0 < amount rest room

section Program

def strchr (c : Byte) : List Byte → Except Fault (Option ℕ)
  | [] => .error .overrun
  | x::s =>
    if x = nul then .ok none
    else if x = c then .ok (some 0)
    else do
      let i ← strchr c s
      .ok (i.map (·+1))

/-- The loop of `memmove` from the front, inside one array. -/
def copyUp : ℕ → ℕ → ℕ → List Byte → Except Fault (List Byte)
  | 0, _, _, m => .ok m
  | n+1, dst, src, m =>
    match m[src]? with
    | none => .error .overrun
    | some c => do
      let m ← store m dst c
      copyUp n (dst+1) (src+1) m

def copyDown : ℕ → ℕ → ℕ → List Byte → Except Fault (List Byte)
  | 0, _, _, m => .ok m
  | n+1, dst, src, m =>
    match m[src+n]? with
    | none => .error .overrun
    | some c => do
      let m ← store m (dst+n) c
      copyDown n dst src m

def memmoveWithin (m : List Byte) (dst src n : ℕ) : Except Fault (List Byte) :=
  if dst < src then copyUp n dst src m else copyDown n dst src m

/-- The inner loop: the buffer, `p`, and what has been written. -/
def lineLoop (pattern : List Byte) :
    ℕ → List Byte → ℕ → List Byte → Except Fault (List Byte × ℕ × List Byte)
  | 0, _, _, _ => .error .outOfFuel
  | k+1, buf, p, out => do
    match ← strchr newline (buf.drop p) with
    | none => .ok (buf,p,out)
    | some i =>
      let q := p+i
      let buf ← store buf q nul
      if ← matchText pattern (buf.drop p) then
        let buf ← store buf q newline
        lineLoop pattern k buf (q+1) (out++(buf.drop p).take (q+1-p))
      -- the NUL stays behind a line that is not printed
      else lineLoop pattern k buf (q+1) out

structure State where
  buf : List Byte
  m : ℕ
  rest : List Byte
  out : List Byte

def grepLoop (r : Reader) (pattern : List Byte) : ℕ → State → Except Fault State
  | 0, _ => .error .outOfFuel
  | k+1, s =>
    let n := r.amount s.rest (bufSize-s.m-1)
    if n = 0 then .ok s
    else do
      let buf ← memmove s.buf s.m s.rest n
      let m := s.m+n
      let buf ← store buf m nul
      let (buf,p,out) ← lineLoop pattern (buf.length+1) buf 0 s.out
      let (buf,m) ← if 0 < m then do
          let buf ← memmoveWithin buf 0 p (m-p)
          .ok (buf,m-p)
        else .ok (buf,m)
      grepLoop r pattern k ⟨buf,m,s.rest.drop n,out⟩

def grep (r : Reader) (pattern buf input : List Byte) : Except Fault State :=
  grepLoop r pattern (input.length+1) ⟨buf,0,input,[]⟩

end Program

section Memory

theorem copyUp_eq (n dst src : ℕ) (m : List Byte) (h : dst ≤ src) (hn : src+n ≤ m.length) :
    copyUp n dst src m = .ok (m.take dst++(m.drop src).take n++m.drop (dst+n)) := by
  induction n generalizing dst src m with
  | zero => simp [copyUp]
  | succ n ih =>
    have hsrc : src < m.length := by omega
    have hdst : dst < m.length := by omega
    rw [copyUp,List.getElem?_eq_getElem hsrc]
    simp only [store,if_pos hdst,bind,Except.bind]
    rw [ih (dst+1) (src+1) (m.set dst m[src]) (by omega) (by simp; omega)]
    have htake : (m.set dst m[src]).take (dst+1) = m.take dst++[m[src]] := by
      rw [List.take_succ_eq_append_getElem (by simpa using hdst),List.take_set_of_le (le_refl dst)]
      simp
    have hdrop : (m.drop src).take (n+1) = m[src]::(m.drop (src+1)).take n := by
      rw [List.drop_eq_getElem_cons hsrc,List.take_succ_cons]
    rw [htake,hdrop,List.drop_set_of_lt (by omega),List.drop_set_of_lt (by omega)]
    simp [Nat.add_assoc,Nat.add_comm 1 n]

theorem copyDown_self (n d : ℕ) (m : List Byte) (hn : d+n ≤ m.length) :
    copyDown n d d m = .ok m := by
  induction n generalizing m with
  | zero => rfl
  | succ n ih =>
    have hsrc : d+n < m.length := by omega
    rw [copyDown,List.getElem?_eq_getElem hsrc]
    simp only [store,if_pos hsrc,bind,Except.bind,List.set_getElem_self]
    exact ih m (by omega)

/-- What stands between is moved to the front. -/
theorem memmoveWithin_front (pre pend tail : List Byte) :
    ∃ stale, memmoveWithin (pre++pend++tail) 0 pre.length pend.length = .ok (pend++stale) ∧
      (pend++stale).length = (pre++pend++tail).length := by
  rw [memmoveWithin]
  split
  · rw [copyUp_eq _ _ _ _ (by omega) (by simp)]
    refine ⟨(pre++pend++tail).drop pend.length,by simp,?_⟩
    simp only [List.length_append,List.length_drop]
    omega
  · have hpre : pre = [] := List.eq_nil_of_length_eq_zero (by omega)
    subst hpre
    rw [List.length_nil,copyDown_self _ _ _ (by simp)]
    exact ⟨tail,by simp,by simp⟩

end Memory

section Lines

/-- The inner loop finds no line in it: there is no newline, or a NUL in front. -/
def Stuck (pend : List Byte) : Prop :=
  ∀ l r, pend = l++newline::r → newline ∉ l → nul ∈ l

/-- The end of what was read stops `strchr`, unless it finds a line. -/
theorem strchr_cases (pend stale : List Byte) :
    (∃ l r, pend = l++newline::r ∧ newline ∉ l ∧ nul ∉ l ∧
      strchr newline (pend++nul::stale) = .ok (some l.length)) ∨
    (Stuck pend ∧ strchr newline (pend++nul::stale) = .ok none) := by
  induction pend with
  | nil =>
    right
    refine ⟨?_,rfl⟩
    intro l r h
    simp at h
  | cons x pend ih =>
    by_cases hx : x = nul
    · right
      refine ⟨?_,by simp [strchr,hx]⟩
      rintro l r h -
      cases l with
      | nil => exact absurd (hx.symm.trans (List.cons.inj h).1) (by decide)
      | cons y l => simp [← (List.cons.inj h).1,hx]
    by_cases hn : x = newline
    · left
      exact ⟨[],pend,by simp [hn],by simp,by simp,by simp [strchr,hn,nul,newline]⟩
    have hstep : strchr newline (x::pend++nul::stale) =
        strchr newline (pend++nul::stale) >>= fun i => .ok (i.map (·+1)) := by
      rw [List.cons_append,strchr,if_neg hx,if_neg hn]
    rcases ih with ⟨l,r,rfl,hl,hl',heq⟩|⟨hstuck,heq⟩
    · left
      refine ⟨x::l,r,rfl,?_,?_,by rw [hstep,heq]; rfl⟩
      · simp [hl,Ne.symm hn]
      · simp [hl',Ne.symm hx]
    · right
      refine ⟨?_,by rw [hstep,heq]; rfl⟩
      intro l r h hl
      cases l with
      | nil => exact absurd (List.cons.inj h).1 hn
      | cons y l =>
        obtain ⟨-,h⟩ := List.cons.inj h
        exact List.mem_cons_of_mem y (hstuck l r h fun hmem => hl (List.mem_cons_of_mem y hmem))

open scoped Classical in
noncomputable def selects (pattern l : List Byte) : Bool :=
  decide (l ∈ (readPattern (text pattern)).language)

theorem matchText_selects {pattern l : List Byte} (hp : nul ∈ pattern) (hl : nul ∉ l)
    (y : List Byte) : matchText pattern (l++nul::y) = .ok (selects pattern l) := by
  obtain ⟨re,x,rfl,hre⟩ := List.eq_append_cons_of_mem hp
  obtain ⟨b,hb,hiff⟩ := matchText_decides re x hre l y hl
  rw [hb,selects,text_append_nul hre]
  cases b <;> simp_all

theorem lineLoop_line {pattern l : List Byte} (hp : nul ∈ pattern) (hl : nul ∉ l) (k : ℕ)
    (pre r stale out : List Byte)
    (hfind : strchr newline (l++newline::r++nul::stale) = .ok (some l.length)) :
    ∃ pre', pre'.length = pre.length+l.length+1 ∧
      lineLoop pattern (k+1) (pre++(l++newline::r)++nul::stale) pre.length out =
        lineLoop pattern k (pre'++r++nul::stale) pre'.length
          (out++unlines newline ([l].filter (selects pattern))) := by
  have hdrop : (pre++(l++newline::r)++nul::stale).drop pre.length = l++newline::r++nul::stale := by
    simp
  have hstore : ∀ x y : Byte, store (pre++(l++x::r)++nul::stale) (pre.length+l.length) y =
      .ok (pre++(l++y::r)++nul::stale) := by
    intro x y
    rw [store,if_pos (by simp)]
    simp
  rw [lineLoop,hdrop,hfind]
  simp only [bind,Except.bind,hstore]
  have hmatch : matchText pattern ((pre++(l++nul::r)++nul::stale).drop pre.length) =
      .ok (selects pattern l) := by
    have hdrop : (pre++(l++nul::r)++nul::stale).drop pre.length = l++nul::(r++nul::stale) := by simp
    rw [hdrop,matchText_selects hp hl]
  rw [hmatch]
  cases hs : selects pattern l with
  | true =>
    refine ⟨pre++l++[newline],by simp; omega,?_⟩
    simp [hs,unlines,Nat.add_assoc,List.take_length_add_append]
  | false =>
    refine ⟨pre++l++[nul],by simp; omega,?_⟩
    simp [hs,unlines,Nat.add_assoc]

/-- The inner loop takes the lines off the front of what was read, up to where it is
stuck. -/
theorem lineLoop_spec {pattern : List Byte} (hp : nul ∈ pattern) (k : ℕ)
    (pre pend stale out : List Byte) (hk : pend.length < k) :
    ∃ ls pend' pre', pend = unlines newline ls++pend' ∧ (∀ l ∈ ls, newline ∉ l ∧ nul ∉ l) ∧
      Stuck pend' ∧ pre'.length = pre.length+(unlines newline ls).length ∧
      lineLoop pattern k (pre++pend++nul::stale) pre.length out =
        .ok (pre'++pend'++nul::stale,pre'.length,
          out++unlines newline (ls.filter (selects pattern))) := by
  induction k generalizing pre pend out with
  | zero => omega
  | succ k ih =>
    rcases strchr_cases pend stale with ⟨l,r,rfl,hn,hl,hfind⟩|⟨hstuck,hfind⟩
    · obtain ⟨pre₁,hlen₁,heq₁⟩ := lineLoop_line hp hl k pre r stale out hfind
      have hr : r.length < k := by
        simp at hk
        omega
      obtain ⟨ls,pend',pre',rfl,hls,hstuck,hlen,heq⟩ :=
        ih pre₁ r (out++unlines newline ([l].filter (selects pattern))) hr
      refine ⟨l::ls,pend',pre',by simp [unlines],?_,hstuck,?_,?_⟩
      · simpa [hn,hl] using hls
      · rw [hlen,hlen₁]
        simp [unlines]
        omega
      · rw [heq₁,heq]
        congr 3
        rw [← List.singleton_append (l := ls),List.filter_append]
        simp [unlines]
    · refine ⟨[],pend,pre,rfl,by simp,hstuck,by simp [unlines],?_⟩
      have hdrop : (pre++pend++nul::stale).drop pre.length = pend++nul::stale := by simp
      rw [lineLoop,hdrop,hfind]
      simp [bind,Except.bind,unlines]

end Lines

section Streams

/-- A line that fits in the buffer with its newline and has no NUL. -/
def fits (l : List Byte) : Bool :=
  decide (l.length+2 ≤ bufSize) && l.all fun c => decide (c ≠ nul)

theorem fits_iff (l : List Byte) : fits l = true ↔ l.length+2 ≤ bufSize ∧ nul ∉ l := by
  have hall : (l.all fun c => decide (c ≠ nul)) = true ↔ nul ∉ l := by
    simp only [List.all_eq_true,decide_eq_true_eq]
    exact ⟨fun h hmem => h nul hmem rfl,fun h c hc hcn => h (hcn ▸ hc)⟩
  rw [fits,Bool.and_eq_true,decide_eq_true_eq,hall]

/-- The lines of an input that `grep` prints. -/
noncomputable def printed (pattern input : List Byte) : List (List Byte) :=
  ((lines newline input).takeWhile fits).filter (selects pattern)

theorem printed_lines {pattern : List Byte} {ls : List (List Byte)}
    (hls : ∀ l ∈ ls, newline ∉ l ∧ nul ∉ l) (hlen : (unlines newline ls).length < bufSize)
    (w : List Byte) :
    printed pattern (unlines newline ls++w) =
      ls.filter (selects pattern)++printed pattern w := by
  have hfits : ∀ l ∈ ls, fits l = true := by
    intro l hl
    have hle : l.length+1 ≤ (unlines newline ls).length := by
      obtain ⟨a,b,rfl⟩ := List.append_of_mem hl
      simp [unlines]
      omega
    exact (fits_iff l).mpr ⟨by omega,(hls l hl).2⟩
  rw [printed,lines_unlines_append fun l hl => (hls l hl).1,List.takeWhile_append_of_pos hfits,
    List.filter_append]
  rfl

/-- Where the inner loop is stuck and no further byte comes or fits, nothing more is
to be printed. -/
theorem printed_stuck {pattern pend rest : List Byte} (hstuck : Stuck pend)
    (hend : rest = [] ∨ bufSize ≤ pend.length+1) : printed pattern (pend++rest) = [] := by
  have hunfit : ∀ l ls, lines newline (pend++rest) = l::ls → ¬ fits l = true →
      printed pattern (pend++rest) = [] := by
    intro l ls hlines hl
    rw [printed,hlines,List.takeWhile_cons_of_neg hl]
    rfl
  by_cases hpend : newline ∈ pend
  · obtain ⟨l,r,rfl,hl⟩ := List.eq_append_cons_of_mem hpend
    have hnul := hstuck l r rfl hl
    apply hunfit l (lines newline (r++rest))
    · rw [List.append_assoc,List.cons_append,lines_append hl]
    · exact fun hfits => ((fits_iff l).mp hfits).2 hnul
  by_cases hrest : newline ∈ rest
  · obtain ⟨l,r,rfl,hl⟩ := List.eq_append_cons_of_mem hrest
    have hfull : bufSize ≤ pend.length+1 := by
      rcases hend with hnil|hfull
      · simp at hnil
      · exact hfull
    apply hunfit (pend++l) (lines newline r)
    · rw [← List.append_assoc,lines_append]
      simp [hpend,hl]
    · intro hfits
      have hlen := ((fits_iff (pend++l)).mp hfits).1
      rw [List.length_append] at hlen
      omega
  · rw [printed,lines_unended (by simp [hpend,hrest])]
    rfl

/-- One pass of the outer loop: what was read goes behind what is left, and lines are
taken off the front. -/
theorem grepLoop_pass (r : Reader) {pattern : List Byte} (hp : nul ∈ pattern) (k : ℕ)
    (pend stale rest out : List Byte) (hsize : (pend++stale).length = bufSize)
    (hn : r.amount rest (bufSize-pend.length-1) ≠ 0) :
    ∃ ls pend' stale', (∀ l ∈ ls, newline ∉ l ∧ nul ∉ l) ∧ Stuck pend' ∧
      pend++rest.take (r.amount rest (bufSize-pend.length-1)) = unlines newline ls++pend' ∧
      (pend'++stale').length = bufSize ∧
      grepLoop r pattern (k+1) ⟨pend++stale,pend.length,rest,out⟩ =
        grepLoop r pattern k ⟨pend'++stale',pend'.length,
          rest.drop (r.amount rest (bufSize-pend.length-1)),
          out++unlines newline (ls.filter (selects pattern))⟩ := by
  have hroom := r.inRoom rest (bufSize-pend.length-1)
  have hrest := r.inRest rest (bufSize-pend.length-1)
  rw [grepLoop]
  simp only [if_neg hn]
  generalize r.amount rest (bufSize-pend.length-1) = n at *
  have hstale : n < stale.length := by
    rw [List.length_append] at hsize
    omega
  obtain ⟨z,stale₁,hz⟩ : ∃ z stale₁, stale.drop n = z::stale₁ :=
    ⟨stale[n],stale.drop (n+1),List.drop_eq_getElem_cons hstale⟩
  have hread : memmove (pend++stale) pend.length rest n =
      .ok (pend++rest.take n++z::stale₁) := by
    rw [memmove,if_pos ⟨hrest,by simp; omega⟩]
    simp [hz]
  have hlen : (pend++rest.take n).length = pend.length+n := by simp [hrest]
  have hstore : store (pend++rest.take n++z::stale₁) (pend.length+n) nul =
      .ok (pend++rest.take n++nul::stale₁) := by
    rw [store,← hlen,if_pos (by simp)]
    simp
  obtain ⟨ls,pend',pre,hcut,hls,hstuck,hpre,hloop⟩ := lineLoop_spec hp
    ((pend++rest.take n++nul::stale₁).length+1) [] (pend++rest.take n) stale₁ out (by simp)
  have hm : pend.length+n-pre.length = pend'.length := by
    have hcut := congrArg List.length hcut
    rw [hlen,List.length_append] at hcut
    simp at hpre
    omega
  obtain ⟨stale',hmove,hsize'⟩ := memmoveWithin_front pre pend' (nul::stale₁)
  refine ⟨ls,pend',stale',hls,hstuck,hcut,?_,?_⟩
  · rw [hsize']
    have hcut := congrArg List.length hcut
    have hz := congrArg List.length hz
    simp at hpre hcut hz hsize ⊢
    omega
  · rw [List.nil_append,List.length_nil] at hloop
    simp only [hread,hstore,bind,Except.bind,hloop,hm,hmove]
    rw [if_pos (by omega)]

theorem grepLoop_prints (r : Reader) {pattern : List Byte} (hp : nul ∈ pattern) (k : ℕ)
    (pend stale rest out : List Byte) (hsize : (pend++stale).length = bufSize)
    (hstuck : Stuck pend) (hk : rest.length < k) :
    ∃ s, grepLoop r pattern k ⟨pend++stale,pend.length,rest,out⟩ = .ok s ∧
      s.out = out++unlines newline (printed pattern (pend++rest)) := by
  induction k generalizing pend stale rest out with
  | zero => omega
  | succ k ih =>
    by_cases hn : r.amount rest (bufSize-pend.length-1) = 0
    · refine ⟨_,by rw [grepLoop]; simp only [if_pos hn]; rfl,?_⟩
      have hend : rest = [] ∨ bufSize ≤ pend.length+1 := by
        by_contra hcon
        rw [not_or] at hcon
        have hpos := r.progress rest (bufSize-pend.length-1) hcon.1 (by omega)
        omega
      simp [printed_stuck hstuck hend,unlines]
    · obtain ⟨ls,pend',stale',hls,hstuck',hcut,hsize',hpass⟩ :=
        grepLoop_pass r hp k pend stale rest out hsize hn
      have hroom := r.inRoom rest (bufSize-pend.length-1)
      have hrest := r.inRest rest (bufSize-pend.length-1)
      generalize r.amount rest (bufSize-pend.length-1) = n at *
      obtain ⟨s,hs,hout⟩ := ih pend' stale' (rest.drop n)
        (out++unlines newline (ls.filter (selects pattern))) hsize' hstuck' (by simp; omega)
      refine ⟨s,by rw [hpass,hs],?_⟩
      have hsplit : pend++rest = unlines newline ls++(pend'++rest.drop n) := by
        rw [← List.append_assoc,← hcut,List.append_assoc,List.take_append_drop]
      have hshort : (unlines newline ls).length < bufSize := by
        have hcut := congrArg List.length hcut
        simp at hcut
        omega
      rw [hout,hsplit,printed_lines hls hshort]
      simp [unlines]

/-- `grep` prints the selected lines up to the first that does not fit in its buffer or
has a NUL, however the input is cut into reads and whatever the buffer held before.
Every access stays inside the buffer. -/
theorem grep_prints (r : Reader) (pattern buf input : List Byte) (hp : nul ∈ pattern)
    (hbuf : buf.length = bufSize) :
    ∃ s, grep r pattern buf input = .ok s ∧ s.out = unlines newline (printed pattern input) := by
  have hstuck : Stuck [] := by
    intro l r h
    simp at h
  obtain ⟨s,hs,hout⟩ := grepLoop_prints r hp (input.length+1) [] buf input [] hbuf hstuck (by omega)
  exact ⟨s,hs,hout⟩

def byBytes : Reader where
  amount rest room := min 1 (min rest.length room)
  inRoom := by
    intro rest room
    omega
  inRest := by
    intro rest room
    omega
  progress := by
    intro rest room hrest hroom
    have hlen := List.length_pos_of_ne_nil hrest
    omega

/-- Of the three lines the first has a b, the second has none, and no newline ends the
third. -/
theorem grep_prints_byBytes :
    ∃ s, grep byBytes [0x62,nul] (List.replicate bufSize nul)
      [0x61,0x62,newline,0x63,newline,0x62] = .ok s ∧ s.out = [0x61,0x62,newline] := by
  obtain ⟨s,hs,hout⟩ := grep_prints byBytes [0x62,nul] (List.replicate bufSize nul)
    [0x61,0x62,newline,0x63,newline,0x62] (by decide) (by simp)
  have hfirst : selects [0x62,nul] [0x61,0x62] = true := by
    have h : matchText [0x62,nul] [0x61,0x62,nul] = .ok true := by decide +kernel
    exact Except.ok.inj ((matchText_selects (by decide) (by decide) []).symm.trans h)
  have hsecond : selects [0x62,nul] [0x63] = false := by
    have h : matchText [0x62,nul] [0x63,nul] = .ok false := by decide +kernel
    exact Except.ok.inj ((matchText_selects (by decide) (by decide) []).symm.trans h)
  have hlines : (lines newline [0x61,0x62,newline,0x63,newline,0x62]).takeWhile fits =
      [[0x61,0x62],[0x63]] := by decide +kernel
  refine ⟨s,hs,?_⟩
  rw [hout,printed,hlines,List.filter_cons_of_pos hfirst,
    List.filter_cons_of_neg (by rw [hsecond]; decide),List.filter_nil]
  rfl

end Streams

end ListlibSyscalls.GrepStream
