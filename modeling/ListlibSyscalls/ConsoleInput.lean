import ListlibSyscalls.RingBuffer
import ListlibSyscalls.StepRuns
import ListlibSyscalls.UserStrings

/-!
# Console input

`consoleintr` and `consoleread` of `console.c`. The ring has `buf`, with `r` as the
counter that reads and `e` as the one that writes; `w` lies between them and ends the
lines that may be read. Everything under `cons.lock` up to a `sleep` is one step, so a
call of `consoleread` is a section at its start and one after each `sleep`. Its
arguments say which bytes can be copied to the caller and whether it was killed.

`shown` is what the echo leaves on the screen, `taken` the bytes that were taken out
of the ring, with who took them and whether they were copied, and `replies` has the
returned value and the copied bytes of each call that has ended, and whether the caller
had been killed. The code reads none of them.
-/

set_option autoImplicit false

namespace ListlibSyscalls.ConsoleInput
open StepRuns RingBuffer UserStrings

abbrev INPUT_BUF_SIZE : ℕ := 128

def ctrl (x : Char) : Byte := BitVec.ofNat 8 (x.toNat-64)

def carriage : Byte := 0x0d

def delete : Byte := 0x7f

structure Cons where
  ring : Ring 32 INPUT_BUF_SIZE Byte
  w : BitVec 32

inductive Echo where
  | backspace
  | char (c : Byte)
  deriving DecidableEq

def consputc (screen : List Byte) : Echo → List Byte
  | .backspace => screen.dropLast
  | .char c => screen++[c]

section Program

/-- The loop of control-u. It makes at most `e-w` passes. -/
def killLine : ℕ → Cons → Cons × List Echo
  | 0, c => (c,[])
  | k+1, c =>
    if c.ring.nwrite ≠ c.w ∧ c.ring.back ≠ newline then
      let (c,es) := killLine k { c with ring := c.ring.retract }
      (c,.backspace::es)
    else (c,[])

/-- Without the process list of control-p. -/
def consoleintr (c : Cons) (x : Byte) : Cons × List Echo :=
  if x = ctrl 'P' then (c,[])
  else if x = ctrl 'U' then killLine (c.ring.nwrite-c.w).toNat c
  else if x = ctrl 'H' ∨ x = delete then
    if c.ring.nwrite ≠ c.w then ({ c with ring := c.ring.retract },[.backspace]) else (c,[])
  else if x ≠ 0 ∧ (c.ring.nwrite-c.ring.nread).toNat < INPUT_BUF_SIZE then
    let x := if x = carriage then newline else x
    let ring := c.ring.push x
    if x = newline ∨ x = ctrl 'D' ∨ (ring.nwrite-ring.nread).toNat = INPUT_BUF_SIZE then
      (⟨ring,ring.nwrite⟩,[.char x])
    else (⟨ring,c.w⟩,[.char x])
  else (c,[])

inductive Ending where
  | asleep (n : ℕ)
  | returned (value : ℤ)
  deriving DecidableEq

/-- A section of `consoleread`: the bytes it took out of the ring, each with whether it
was copied to the caller. -/
structure Outcome where
  cons : Cons
  taken : List (Byte × Bool)
  ending : Ending

def Outcome.copied (o : Outcome) : List Byte := (o.taken.filter (·.2)).map (·.1)

def readLoop (killed : Bool) (mem : ℕ → Bool) (target : ℕ) : ℕ → Cons → Outcome
  | 0, c => ⟨c,[],.returned target⟩
  | n+1, c =>
    if c.ring.nread = c.w then ⟨c,[],if killed then .returned (-1) else .asleep (n+1)⟩
    else
      let x := c.ring.front
      let c := { c with ring := c.ring.pop }
      if x = ctrl 'D' then
        -- after other bytes, it is left for the next call, which then returns 0
        if n+1 < target then
          ⟨{ c with ring := { c.ring with nread := c.ring.nread-1 } },[],
            .returned ((target:ℤ)-(n+1))⟩
        else ⟨c,[(x,false)],.returned ((target:ℤ)-(n+1))⟩
      else if mem (target-(n+1)) = false then ⟨c,[(x,false)],.returned ((target:ℤ)-(n+1))⟩
      else if x = newline then ⟨c,[(x,true)],.returned ((target:ℤ)-n)⟩
      else
        let o := readLoop killed mem target n c
        ⟨o.cons,(x,true)::o.taken,o.ending⟩

end Program

structure Reading where
  target : ℕ
  n : ℕ
  got : List Byte

structure State (π : Type) where
  cons : Cons
  reading : π → Option Reading
  shown : List Byte
  taken : List (π × Byte × Bool)
  replies : List (π × Bool × ℤ × List Byte)

inductive Label (π : Type) where
  | consoleintr (x : Byte)
  | consoleread (p : π) (n : ℕ) (killed : Bool) (mem : ℕ → Bool)
  | wakeup (p : π) (killed : Bool) (mem : ℕ → Bool)

section Machine

variable {π : Type} [DecidableEq π]

def resume (s : State π) (p : π) (R : Reading) (killed : Bool) (mem : ℕ → Bool) : State π :=
  let o := readLoop killed mem R.target R.n s.cons
  let s := { s with cons := o.cons,taken := s.taken++o.taken.map (p,·) }
  match o.ending with
  | .asleep n =>
    { s with reading := Function.update s.reading p (some ⟨R.target,n,R.got++o.copied⟩) }
  | .returned value =>
    { s with
      reading := Function.update s.reading p none
      replies := s.replies++[(p,killed,value,R.got++o.copied)] }

def step (s : State π) : Label π → Except Unit (State π)
  | .consoleintr x =>
    let (c,es) := consoleintr s.cons x
    .ok { s with cons := c,shown := es.foldl consputc s.shown }
  | .consoleread p n killed mem =>
    match s.reading p with
    | none => .ok (resume s p ⟨n,n,[]⟩ killed mem)
    | some _ => .error ()
  | .wakeup p killed mem =>
    match s.reading p with
    | none => .error ()
    | some R => .ok (resume s p R killed mem)

def start : State π := ⟨⟨⟨fun _ => 0,0,0⟩,0⟩,fun _ => none,[],[],[]⟩

abbrev Reached (s : State π) : Prop := Reach (Accepts step) (fun _ _ => True) start s

end Machine

section Standing

/-- The ring has lines that are ready and the line being edited. -/
structure Stands (c : Cons) (ready editing : List Byte) : Prop where
  ring : c.ring.Holds (ready++editing)
  split : c.w = c.ring.nread+BitVec.ofNat 32 ready.length
  unended : newline ∉ editing
  eof : ctrl 'D' ∉ editing
  room : (ready++editing).length = INPUT_BUF_SIZE → editing = []

variable {c : Cons} {ready editing : List Byte}

theorem Stands.bound (h : Stands c ready editing) : ready.length+editing.length ≤ 128 := by
  have hfits := h.ring.fits
  rwa [List.length_append] at hfits

theorem Stands.edited (h : Stands c ready editing) : c.ring.nwrite = c.w ↔ editing = [] := by
  have hb := h.bound
  rw [h.split,h.ring.counters,advance_eq_iff _ (by simp; omega) (by omega)]
  simp

theorem Stands.used (h : Stands c ready editing) :
    (c.ring.nwrite-c.ring.nread).toNat = ready.length+editing.length := by
  have hb := h.bound
  rw [h.ring.counters,BitVec.add_comm,BitVec.add_sub_cancel,BitVec.toNat_ofNat,List.length_append]
  omega

theorem Stands.unread (h : Stands c ready editing) :
    (c.ring.nwrite-c.w).toNat = editing.length := by
  have hb := h.bound
  have hw : c.ring.nwrite = BitVec.ofNat 32 editing.length+c.w := by
    rw [h.ring.counters,h.split,List.length_append,BitVec.ofNat_add,← BitVec.add_assoc,
      BitVec.add_comm]
  rw [hw,BitVec.add_sub_cancel,BitVec.toNat_ofNat]
  omega

theorem Stands.erase {b : Byte} (h : Stands c ready (editing++[b])) :
    Stands { c with ring := c.ring.retract } ready editing where
  ring := by
    have hring := h.ring
    rw [← List.append_assoc] at hring
    exact hring.retract
  split := h.split
  unended := fun hmem => h.unended (List.mem_append_left _ hmem)
  eof := fun hmem => h.eof (List.mem_append_left _ hmem)
  room := by
    intro hfull
    have hb := h.bound
    have hfull : (ready++editing).length = 128 := hfull
    simp at hfull hb
    omega

theorem killLine_stands (h : Stands c ready editing) :
    Stands (killLine editing.length c).1 ready [] ∧
    (killLine editing.length c).2 = List.replicate editing.length .backspace := by
  induction editing using List.reverseRecOn generalizing c with
  | nil => exact ⟨h,rfl⟩
  | append_singleton editing b ih =>
    -- the loop erases from the back, so the induction takes the last character off
    have hne : c.ring.nwrite ≠ c.w := by
      rw [Ne,h.edited]
      simp
    have hback : c.ring.back = b := by
      have hring := h.ring
      rw [← List.append_assoc] at hring
      exact hring.back
    have hb : b ≠ newline := fun hb => h.unended (by simp [hb])
    obtain ⟨hstands,hecho⟩ := ih h.erase
    rw [List.length_append,List.length_singleton,killLine,if_pos ⟨hne,by rwa [hback]⟩]
    exact ⟨hstands,by rw [List.replicate_succ,← hecho]⟩

theorem foldl_backspace (screen editing : List Byte) :
    (List.replicate editing.length Echo.backspace).foldl consputc (screen++editing) = screen := by
  induction editing using List.reverseRecOn with
  | nil => simp
  | append_singleton editing b ih =>
    rw [List.length_append,List.length_singleton,List.replicate_succ,List.foldl_cons,consputc,
      ← List.append_assoc,List.dropLast_concat,ih]

theorem Stands.type (h : Stands c ready editing) (x : Byte)
    (hroom : ready.length+editing.length < 128) (hx : x ≠ newline) (hd : x ≠ ctrl 'D')
    (hlast : ready.length+editing.length+1 ≠ 128) :
    Stands ⟨c.ring.push x,c.w⟩ ready (editing++[x]) where
  ring := by
    rw [← List.append_assoc]
    exact h.ring.push (by decide) (by rw [List.length_append]; exact hroom) x
  split := h.split
  unended := by simp [h.unended,hx.symm]
  eof := by simp [h.eof,hd.symm]
  room := by
    intro hfull
    have hfull : (ready++(editing++[x])).length = 128 := hfull
    simp at hfull
    omega

theorem Stands.commit (h : Stands c ready editing) (x : Byte)
    (hroom : ready.length+editing.length < 128) :
    Stands ⟨c.ring.push x,(c.ring.push x).nwrite⟩ (ready++editing++[x]) [] where
  ring := by
    rw [List.append_nil]
    exact h.ring.push (by decide) (by rw [List.length_append]; exact hroom) x
  split := (h.ring.push (by decide) (by rw [List.length_append]; exact hroom) x).counters
  unended := by simp
  eof := by simp
  room := fun _ => rfl

/-- An interrupt edits the line or makes it ready, and the echo shows what it did. -/
theorem consoleintr_stands (h : Stands c ready editing) (x : Byte) :
    ∃ ready' editing', Stands (consoleintr c x).1 ready' editing' ∧
      ∀ old, (consoleintr c x).2.foldl consputc (old++ready++editing) = old++ready'++editing' := by
  rw [consoleintr]
  split
  · exact ⟨ready,editing,h,fun _ => rfl⟩
  split
  · rw [h.unread]
    obtain ⟨hstands,hecho⟩ := killLine_stands h
    refine ⟨ready,[],hstands,?_⟩
    intro old
    rw [hecho,foldl_backspace,List.append_nil]
  split
  · split
    · next hne =>
      have hedit : editing ≠ [] := fun hnil => hne (h.edited.mpr hnil)
      obtain ⟨editing,b,rfl⟩ := (List.eq_nil_or_concat' editing).resolve_left hedit
      refine ⟨ready,editing,h.erase,?_⟩
      intro old
      rw [List.foldl_cons,List.foldl_nil,consputc,← List.append_assoc,List.dropLast_concat]
    · exact ⟨ready,editing,h,fun _ => rfl⟩
  split
  · next hroom =>
    have hroom : ready.length+editing.length < 128 := by
      have hlt := hroom.2
      rwa [h.used] at hlt
    generalize (if x = carriage then newline else x) = y
    dsimp only
    have hcommit := h.commit y hroom
    have hused := hcommit.used
    split
    · refine ⟨ready++editing++[y],[],hcommit,?_⟩
      intro old
      simp [consputc]
    · next hkeep =>
      rw [hused] at hkeep
      simp only [not_or] at hkeep
      have hlast : ready.length+editing.length+1 ≠ 128 := by
        intro hlast
        apply hkeep.2.2
        simp only [List.length_append,List.length_singleton,List.length_nil,Nat.add_zero]
        exact hlast
      refine ⟨ready,editing++[y],h.type y hroom hkeep.1 hkeep.2.1 hlast,?_⟩
      intro old
      simp [consputc]
  · exact ⟨ready,editing,h,fun _ => rfl⟩

theorem Stands.read {b : Byte} (h : Stands c (b::ready) editing) :
    c.ring.front = b ∧ Stands { c with ring := c.ring.pop } ready editing := by
  refine ⟨Ring.Holds.front h.ring,Ring.Holds.pop h.ring,?_,h.unended,h.eof,?_⟩
  · show c.w = c.ring.nread+1+BitVec.ofNat 32 ready.length
    rw [h.split,List.length_cons,Nat.add_comm,BitVec.ofNat_add,BitVec.add_assoc]
    rfl
  · intro hfull
    have hb := h.bound
    have hfull : (ready++editing).length = 128 := hfull
    simp at hfull hb
    omega

theorem Stands.waits (h : Stands c ready editing) : c.ring.nread = c.w ↔ ready = [] := by
  have hb := h.bound
  have hzero : c.ring.nread = c.ring.nread+BitVec.ofNat 32 0 := by simp
  rw [h.split]
  conv_lhs => lhs; rw [hzero]
  rw [advance_eq_iff _ (by omega) (by omega),eq_comm,List.length_eq_zero_iff]

theorem readLoop_stands (killed : Bool) (mem : ℕ → Bool) (target n : ℕ)
    (h : Stands c ready editing) :
    ∃ ready', ready = (readLoop killed mem target n c).taken.map (·.1)++ready' ∧
      Stands (readLoop killed mem target n c).cons ready' editing := by
  induction n generalizing c ready with
  | zero => exact ⟨ready,rfl,h⟩
  | succ n ih =>
    rw [readLoop]
    split
    · exact ⟨ready,rfl,h⟩
    next hw =>
    have hne : ready ≠ [] := fun hnil => hw (h.waits.mpr hnil)
    obtain ⟨b,ready,rfl⟩ := List.exists_cons_of_ne_nil hne
    obtain ⟨hfront,hread⟩ := h.read
    have hback : ({ c.ring.pop with nread := c.ring.pop.nread-1 } : Ring 32 INPUT_BUF_SIZE Byte) =
        c.ring := by
      show (⟨c.ring.data,c.ring.nread+1-1,c.ring.nwrite⟩ : Ring 32 INPUT_BUF_SIZE Byte) = c.ring
      rw [BitVec.add_sub_cancel]
    dsimp only
    rw [hfront,hback]
    split
    · split
      · exact ⟨b::ready,rfl,h⟩
      · exact ⟨ready,rfl,hread⟩
    split
    · exact ⟨ready,rfl,hread⟩
    split
    · exact ⟨ready,rfl,hread⟩
    · obtain ⟨ready',htaken,hstands⟩ := ih hread
      refine ⟨ready',?_,hstands⟩
      rw [List.map_cons,List.cons_append,← htaken]

def Ended (killed : Bool) (target n : ℕ) (copied : List Byte) : Ending → Prop
  | .asleep n' => 0 < n' ∧ copied.length+n' = n ∧ newline ∉ copied
  | .returned value => (killed = true ∧ value = -1 ∨ value = (target:ℤ)-n+copied.length) ∧
    ∀ l r, copied = l++newline::r → r = []

theorem Ended.nil {killed : Bool} (target n : ℕ) (value : ℤ)
    (hv : killed = true ∧ value = -1 ∨ value = (target:ℤ)-n) :
    Ended killed target n [] (.returned value) := by
  refine ⟨by simpa using hv,?_⟩
  intro l r h
  simp at h

theorem Ended.cons {killed : Bool} {target n : ℕ} {copied : List Byte} {e : Ending} {x : Byte}
    (h : Ended killed target n copied e) (hx : x ≠ newline) :
    Ended killed target (n+1) (x::copied) e := by
  cases e with
  | asleep n' =>
    obtain ⟨hpos,hlen,hno⟩ := h
    refine ⟨hpos,?_,by simp [hno,hx.symm]⟩
    rw [List.length_cons]
    omega
  | returned value =>
    obtain ⟨hv,hlast⟩ := h
    refine ⟨?_,?_⟩
    · refine hv.imp id fun hv => ?_
      rw [List.length_cons]
      push_cast
      omega
    · intro l r heq
      cases l with
      | nil => exact absurd (List.cons.inj heq).1 hx
      | cons y l => exact hlast l r (List.cons.inj heq).2

theorem readLoop_ended (killed : Bool) (mem : ℕ → Bool) (target n : ℕ) (c : Cons) :
    ctrl 'D' ∉ (readLoop killed mem target n c).copied ∧
    Ended killed target n (readLoop killed mem target n c).copied
      (readLoop killed mem target n c).ending := by
  induction n generalizing c with
  | zero => exact ⟨by simp [readLoop,Outcome.copied],.nil target 0 target (by simp)⟩
  | succ n ih =>
    rw [readLoop]
    split
    · refine ⟨by simp [Outcome.copied],?_⟩
      cases killed with
      | true => exact .nil target (n+1) (-1) (.inl ⟨rfl,rfl⟩)
      | false => exact ⟨by omega,by simp [Outcome.copied],by simp [Outcome.copied]⟩
    dsimp only
    have hnone : Ended killed target (n+1) [] (.returned ((target:ℤ)-(n+1))) :=
      .nil target (n+1) _ (.inr (by push_cast; rfl))
    split
    · split
      · exact ⟨by simp [Outcome.copied],hnone⟩
      · exact ⟨by simp [Outcome.copied],by simpa [Outcome.copied] using hnone⟩
    next hd =>
    split
    · exact ⟨by simp [Outcome.copied],by simpa [Outcome.copied] using hnone⟩
    split
    · next hx =>
      refine ⟨by simpa [Outcome.copied] using Ne.symm hd,?_⟩
      simp only [Outcome.copied,List.filter_cons,List.filter_nil,if_true,List.map_cons,List.map_nil]
      refine ⟨.inr ?_,?_⟩
      · rw [List.length_singleton]
        push_cast
        omega
      · intro l r heq
        cases l with
        | nil => exact (List.cons.inj heq).2.symm
        | cons y l =>
          have hnil := (List.cons.inj heq).2
          simp at hnil
    · next hx =>
      obtain ⟨hcd,hend⟩ := ih { c with ring := c.ring.pop }
      have hcopied : (⟨(readLoop killed mem target n { c with ring := c.ring.pop }).cons,
          (c.ring.front,true)::(readLoop killed mem target n { c with ring := c.ring.pop }).taken,
          (readLoop killed mem target n { c with ring := c.ring.pop }).ending⟩ : Outcome).copied =
          c.ring.front::(readLoop killed mem target n { c with ring := c.ring.pop }).copied := by
        simp [Outcome.copied]
      rw [hcopied]
      refine ⟨?_,hend.cons hx⟩
      rw [List.mem_cons,not_or]
      exact ⟨Ne.symm hd,hcd⟩

end Standing

section Runs

variable {π : Type} [DecidableEq π] {s : State π}

def underWay : Option Reading → List Byte
  | none => []
  | some R => R.got

@[simp] theorem underWay_none : underWay none = [] := rfl

@[simp] theorem underWay_some (R : Reading) : underWay (some R) = R.got := rfl

/-- What a process was given by all its calls, in their order. -/
def given (s : State π) (p : π) : List Byte :=
  (s.replies.filter fun e => decide (e.1 = p)).flatMap (·.2.2.2)++underWay (s.reading p)

def received (s : State π) (p : π) : List Byte :=
  (s.taken.filter fun e => decide (e.1 = p) && e.2.2).map (·.2.1)

/-- A reply has the bytes that the value promises, of one line at most; only a caller
that was killed may be told -1 instead. -/
def Proper (killed : Bool) (value : ℤ) (got : List Byte) : Prop :=
  (killed = true ∧ value = -1 ∨ value = got.length) ∧ ctrl 'D' ∉ got ∧ ∀ l r, got = l++newline::r → r = []

structure Sleeping (R : Reading) : Prop where
  left : 0 < R.n
  count : R.got.length+R.n = R.target
  eof : ctrl 'D' ∉ R.got
  unended : newline ∉ R.got

structure Inv (s : State π) : Prop where
  order : ∃ ready editing, Stands s.cons ready editing ∧
    s.taken.map (·.2.1)++ready++editing = s.shown
  sleeping : ∀ p R, s.reading p = some R → Sleeping R
  replies : ∀ e ∈ s.replies, Proper e.2.1 e.2.2.1 e.2.2.2
  given : ∀ p, given s p = received s p

theorem received_append (s : State π) (p q : π) (o : Outcome) :
    ((s.taken++o.taken.map (p,·)).filter fun e => decide (e.1 = q) && e.2.2).map (·.2.1) =
      received s q++if p = q then o.copied else [] := by
  rw [List.filter_append,List.map_append,received,List.filter_map,List.map_map]
  congr 1
  by_cases hpq : p = q
  · simp [hpq,Outcome.copied,Function.comp_def]
  · simp [hpq,Function.comp_def]

theorem ends_append {a b : List Byte} (ha : newline ∉ a)
    (hb : ∀ l r, b = l++newline::r → r = []) : ∀ l r, a++b = l++newline::r → r = [] := by
  induction a with
  | nil => exact hb
  | cons x a ih =>
    intro l r h
    cases l with
    | nil => exact absurd (by simp [(List.cons.inj h).1]) ha
    | cons y l => exact ih (fun hmem => ha (List.mem_cons_of_mem x hmem)) l r (List.cons.inj h).2

theorem resume_inv (h : Inv s) (p : π) (R : Reading) (killed : Bool) (mem : ℕ → Bool)
    (hgot : underWay (s.reading p) = R.got) (hcount : R.got.length+R.n = R.target)
    (heof : ctrl 'D' ∉ R.got) (hopen : newline ∉ R.got) : Inv (resume s p R killed mem) := by
  obtain ⟨hcd,hended⟩ := readLoop_ended killed mem R.target R.n s.cons
  have horder : ∃ ready editing,
      Stands (readLoop killed mem R.target R.n s.cons).cons ready editing ∧
      (s.taken++(readLoop killed mem R.target R.n s.cons).taken.map (p,·)).map (·.2.1)++ready++
        editing = s.shown := by
    obtain ⟨ready,editing,hstands,hshown⟩ := h.order
    obtain ⟨ready',rfl,hstands'⟩ := readLoop_stands killed mem R.target R.n hstands
    refine ⟨ready',editing,hstands',?_⟩
    rw [← hshown,List.map_append,List.map_map]
    simp [Function.comp_def]
  have hcdgot : ctrl 'D' ∉ R.got++(readLoop killed mem R.target R.n s.cons).copied := by
    rw [List.mem_append,not_or]
    exact ⟨heof,hcd⟩
  have hgiven := h.given
  rw [resume]
  dsimp only
  generalize readLoop killed mem R.target R.n s.cons = o at *
  cases hend : o.ending with
  | asleep n =>
    rw [hend] at hended
    obtain ⟨hpos,hlen,hno⟩ := hended
    dsimp only
    refine ⟨horder,?_,h.replies,?_⟩
    · intro q Q hq
      dsimp only at hq
      by_cases hqp : q = p
      · subst hqp
        rw [Function.update_self] at hq
        cases hq
        refine ⟨hpos,?_,hcdgot,?_⟩
        · show (R.got++o.copied).length+n = R.target
          rw [List.length_append]
          omega
        · rw [List.mem_append,not_or]
          exact ⟨hopen,hno⟩
      · rw [Function.update_of_ne hqp] at hq
        exact h.sleeping q Q hq
    · intro q
      rw [received,received_append,← hgiven q]
      by_cases hqp : q = p
      · subst hqp
        simp [given,hgot]
      · simp [given,hqp,Ne.symm hqp]
  | returned value =>
    rw [hend] at hended
    obtain ⟨hv,hlast⟩ := hended
    dsimp only
    refine ⟨horder,?_,?_,?_⟩
    · intro q Q hq
      dsimp only at hq
      by_cases hqp : q = p
      · subst hqp
        rw [Function.update_self] at hq
        cases hq
      · rw [Function.update_of_ne hqp] at hq
        exact h.sleeping q Q hq
    · intro e he
      rcases List.mem_append.mp he with hold|hnew
      · exact h.replies e hold
      · rw [List.mem_singleton.mp hnew]
        refine ⟨hv.imp id fun hv => ?_,hcdgot,ends_append hopen hlast⟩
        rw [List.length_append]
        push_cast
        omega
    · intro q
      rw [received,received_append,← hgiven q]
      by_cases hqp : q = p
      · subst hqp
        simp [given,hgot]
      · simp [given,hqp,Ne.symm hqp]

theorem step_inv {l : Label π} {s' : State π} (h : Inv s) (hs : step s l = .ok s') : Inv s' := by
  cases l with
  | consoleintr x =>
    obtain ⟨ready,editing,hstands,hshown⟩ := h.order
    obtain ⟨ready',editing',hstands',hecho⟩ := consoleintr_stands hstands x
    cases hs
    refine ⟨⟨ready',editing',hstands',?_⟩,h.sleeping,h.replies,h.given⟩
    rw [← hshown]
    exact (hecho _).symm
  | consoleread p n killed mem =>
    rw [step] at hs
    split at hs
    · next hp =>
      cases hs
      exact resume_inv h p ⟨n,n,[]⟩ killed mem (by rw [hp]; rfl) (by simp) (by simp) (by simp)
    · cases hs
  | wakeup p killed mem =>
    rw [step] at hs
    split at hs
    · cases hs
    · next R hp =>
      cases hs
      have hR := h.sleeping p R hp
      exact resume_inv h p R killed mem (by rw [hp]; rfl) hR.count hR.eof hR.unended

theorem start_inv : Inv (start : State π) := by
  constructor
  · refine ⟨[],[],⟨⟨by simp,rfl,?_⟩,rfl,by simp,by simp,fun _ => rfl⟩,rfl⟩
    intro i b hi
    simp at hi
  · intro p R hp
    cases hp
  · intro e he
    cases he
  · intro p
    rfl

theorem reached_inv (h : Reached s) : Inv s :=
  h.invariant start_inv fun _ _ _ hinv _ hs => step_inv hinv hs

/-- The bytes taken out of the ring, those that are ready and those being edited are, in
this order, what the screen shows; nothing is lost, doubled or reordered, also when the
counters wrap. A line that is not ready has no newline and no end-of-file, and when the
ring is full all of it is ready. -/
theorem lines_in_order (h : Reached s) :
    ∃ ready editing, Stands s.cons ready editing ∧
      s.taken.map (·.2.1)++ready++editing = s.shown :=
  (reached_inv h).order

/-- What the calls of a process returned, one after the other, are the bytes that went
to it, and each call ends with the first newline. -/
theorem replies_are_lines (h : Reached s) :
    (∀ p, given s p = received s p) ∧ (∀ e ∈ s.replies, Proper e.2.1 e.2.2.1 e.2.2.2) ∧
    ∀ p R, s.reading p = some R → Sleeping R :=
  ⟨(reached_inv h).given,(reached_inv h).replies,(reached_inv h).sleeping⟩

/-- A reader sleeps until a line is typed, in which one character is erased. -/
def typed : List (Label Unit) :=
  [.consoleread () 9 false fun _ => true,.consoleintr 0x61,.consoleintr 0x62,.consoleintr delete,
    .consoleintr carriage,.wakeup () false fun _ => true]

theorem typed_reached : Reached (lastState step start typed) :=
  .lastState typed _ .start (by decide +kernel)

theorem lines_in_order_typed :
    ∃ ready editing, Stands (lastState step start typed).cons ready editing ∧
      (lastState step start typed).taken.map (·.2.1)++ready++editing = [0x61,newline] :=
  lines_in_order typed_reached

theorem replies_are_lines_typed :
    (lastState step start typed).replies = [((),false,2,[0x61,newline])] ∧
    received (lastState step start typed) () = [0x61,newline] ∧
    Proper false 2 [0x61,newline] := by
  obtain ⟨hgiven,hproper,-⟩ := replies_are_lines typed_reached
  have hreplies : (lastState step start typed).replies = [((),false,2,[0x61,newline])] := by
    decide +kernel
  refine ⟨hreplies,?_,hproper ((),false,2,[0x61,newline]) (by rw [hreplies]; simp)⟩
  rw [← hgiven ()]
  decide +kernel

end Runs

end ListlibSyscalls.ConsoleInput
