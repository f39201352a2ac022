import ListlibSyscalls.PipeMachine

/-!
# A pipe of bytes that carries ints is a queue of ints

Between sections the ring holds whole ints only: a write of one int finds
either no room at all or room for all four bytes, since the size of the ring
is a multiple of four, and a read finds either nothing or a whole int. So no
call stops inside an int, and the pipe stands for the queue of the ints that
were written and not yet read.
-/

set_option autoImplicit false

namespace ListlibSyscalls.PipeRecords
open StepRuns RingBuffer PipeMachine

theorem ofBytes_bytes (x : BitVec 32) : ofBytes (bytes x) = x := by
  show x.extractLsb' 24 8++x.extractLsb' 16 8++x.extractLsb' 8 8++x.extractLsb' 0 8 = x
  rw [BitVec.extractLsb'_append_extractLsb'_eq_extractLsb' (show 24 = 16+8 from rfl),
    BitVec.extractLsb'_append_extractLsb'_eq_extractLsb' (show 16 = 8+8 from rfl),
    BitVec.extractLsb'_append_extractLsb'_eq_extractLsb' (show 8 = 0+8 from rfl)]
  exact BitVec.extractLsb'_eq_self

theorem flatMap_bytes_length (q : List (BitVec 32)) : (q.flatMap bytes).length = 4*q.length := by
  induction q with
  | nil => rfl
  | cons x q ih =>
    rw [List.flatMap_cons,List.length_append,ih,List.length_cons]
    simp only [bytes,List.length_cons,List.length_nil]
    omega

theorem flatMap_bytes_eq_nil (q : List (BitVec 32)) : q.flatMap bytes = [] ↔ q = [] := by
  rw [← List.length_eq_zero_iff,flatMap_bytes_length,← List.length_eq_zero_iff]
  omega

theorem writeLoop_pushes (src : ℕ → Option Byte) (bs q : List Byte) (i : ℕ) (pi : Pipe)
    (ho : pi.readopen = true) (hh : pi.toRing.Holds q) (hroom : q.length+bs.length ≤ PIPESIZE)
    (hs : ∀ j b, bs[j]? = some b → src (i+j) = some b) :
    ∃ r, writeLoop false src bs.length i pi =
      (pi.setRing r,.returned ((i+bs.length:ℕ):ℤ) true) ∧ r.Holds (q++bs) := by
  induction bs generalizing i pi q with
  | nil => exact ⟨pi.toRing,rfl,by simpa using hh⟩
  | cons b bs ih =>
    rw [List.length_cons] at hroom
    have hfull : ¬ pi.nwrite = pi.nread+PIPESIZE := by
      intro h
      have := (hh.full_iff (by decide)).mp h
      omega
    have hb : src i = some b := hs 0 b rfl
    have hpush := hh.push (by decide) (show q.length < PIPESIZE by omega) b
    have hs' : ∀ j c, bs[j]? = some c → src (i+1+j) = some c := by
      intro j c hj
      rw [show i+1+j = i+(j+1) by omega]
      exact hs (j+1) c hj
    obtain ⟨r,hr,hq⟩ := ih (q++[b]) (i+1) (pi.setRing (pi.push b)) ho hpush
      (by simp; omega) hs'
    refine ⟨r,?_,by simpa using hq⟩
    rw [List.length_cons,writeLoop,if_neg (by simp [ho]),if_neg hfull,hb]
    show writeLoop false src bs.length (i+1) (pi.setRing (pi.push b)) = _
    rw [hr,setRing_setRing,show i+1+bs.length = i+(bs.length+1) by omega]

theorem readLoop_pops (dst : ℕ → Bool) (bs q got : List Byte) (i : ℕ) (pi : Pipe)
    (hh : pi.toRing.Holds (bs++q)) (hd : ∀ j < bs.length, dst (i+j) = true) :
    ∃ r, readLoop dst bs.length i got pi = (pi.setRing r,i+bs.length,got++bs) ∧ r.Holds q := by
  induction bs generalizing i pi got with
  | nil => exact ⟨pi.toRing,by simp [readLoop,Pipe.setRing],hh⟩
  | cons b bs ih =>
    have hne : ¬ pi.nread = pi.nwrite := by
      intro h
      have := (hh.empty_iff (by decide)).mp h
      simp at this
    have hfront : pi.front = b := Ring.Holds.front hh
    have hi : dst i = true := hd 0 (by simp)
    have hd' : ∀ j < bs.length, dst (i+1+j) = true := by
      intro j hj
      rw [show i+1+j = i+(j+1) by omega]
      exact hd (j+1) (by simpa using hj)
    obtain ⟨r,hr,hq⟩ := ih (got++[b]) (i+1) (pi.setRing pi.pop) (Ring.Holds.pop hh) hd'
    refine ⟨r,?_,hq⟩
    rw [List.length_cons,readLoop,if_neg hne,if_pos hi,hfront,hr,setRing_setRing,
      show i+1+bs.length = i+(bs.length+1) by omega,List.append_assoc,List.singleton_append]

def Queues (pi : Pipe) (q : List (BitVec 32)) : Prop := pi.toRing.Holds (q.flatMap bytes)

/-- The call under way has transferred nothing yet, from memory that is mapped. -/
def Writing.Whole : Writing → Prop
  | .idle => True
  | .inside _ copyin i _ => i = 0 ∧ ∀ j < 4, copyin j = true

def Reading.Whole : Reading → Prop
  | .idle => True
  | .inside copyout _ => ∀ j < 4, copyout j = true

structure Inv (s : State) (q : List (BitVec 32)) : Prop where
  queued : Queues s.pipe q
  accounted : intsWritten s = intsRead s++q
  returns : ∀ e ∈ s.reads, e.1 = 4 ∨ e.1 = 0
  writer : Writing.Whole s.writer
  reader : Reading.Whole s.reader
  unread : s.pipe.readopen = false → s.reader = .idle
  alive : s.pipe.readopen = true → s.writerKilled = false ∧ s.readerKilled = false

theorem start_inv (page : Fin PIPESIZE → Byte) : Inv (start page) [] := by
  constructor
  · exact ⟨by simp,rfl,by simp⟩
  · rfl
  · simp [start]
  · trivial
  · trivial
  · simp [start]
  · simp [start]

section Sections

variable {s : State} {q : List (BitVec 32)}

/-- A write of an int is refused, waits for room, or writes all of it. -/
theorem pipewrite_section (hi : Inv s q) (x : BitVec 32) {copyin : ℕ → Bool}
    (hc : ∀ j < 4, copyin j = true) :
    (s.pipe.readopen = false ∧ s.pipewrite x copyin 0 =
      { s with writer := .idle, writes := s.writes++[(x,-1)] }) ∨
    (s.pipe.readopen = true ∧ q.length = PIPESIZE/4 ∧ s.pipewrite x copyin 0 =
      { s with writer := .inside x copyin 0 true, reader := s.reader.wake }) ∨
    (s.pipe.readopen = true ∧ q.length < PIPESIZE/4 ∧ ∃ r, Queues (s.pipe.setRing r) (q++[x]) ∧
      s.pipewrite x copyin 0 =
        { s with
          pipe := s.pipe.setRing r
          writer := .idle
          reader := s.reader.wake
          writes := s.writes++[(x,4)] }) := by
  have hsize : PIPESIZE = 512 := rfl
  have hlen := flatMap_bytes_length q
  have hfits := hi.queued.fits
  cases ho : s.pipe.readopen with
  | false =>
    refine Or.inl ⟨rfl,?_⟩
    simp [State.pipewrite,writeLoop,ho]
  | true =>
    have hk := (hi.alive ho).1
    have hfull := hi.queued.full_iff (by decide)
    refine Or.inr ?_
    by_cases hq : q.length = PIPESIZE/4
    · have hw : s.pipe.nwrite = s.pipe.nread+PIPESIZE := hfull.mpr (by omega)
      refine Or.inl ⟨rfl,hq,?_⟩
      simp [State.pipewrite,writeLoop,ho,hk,hw]
    · have hsrc : ∀ j b, (bytes x)[j]? = some b →
          (if copyin (0+j) then (bytes x)[0+j]? else none) = some b := by
        intro j b hj
        have hj4 : j < 4 := (List.getElem?_eq_some_iff.mp hj).1
        rw [Nat.zero_add,hc j hj4]
        exact hj
      obtain ⟨r,hr,hh⟩ := writeLoop_pushes (fun j => if copyin j then (bytes x)[j]? else none)
        (bytes x) (q.flatMap bytes) 0 s.pipe ho hi.queued
        (by rw [hlen]; simp only [bytes,List.length_cons,List.length_nil]; omega) hsrc
      refine Or.inr ⟨rfl,by omega,r,?_,?_⟩
      · simpa [Queues] using hh
      · have hloop : writeLoop false (fun j => if copyin j then (bytes x)[j]? else none) 4 0
            s.pipe = (s.pipe.setRing r,.returned 4 true) := hr
        simp only [State.pipewrite,hk]
        rw [hloop]
        rfl

/-- A read of an int waits for a write, finds the end, or reads all of one int. -/
theorem piperead_section (hi : Inv s q) (ho : s.pipe.readopen = true) {copyout : ℕ → Bool}
    (hc : ∀ j < 4, copyout j = true) :
    (q = [] ∧ s.pipe.writeopen = true ∧ s.piperead copyout =
      { s with reader := .inside copyout true }) ∨
    (q = [] ∧ s.pipe.writeopen = false ∧ s.piperead copyout =
      { s with reader := .idle, writer := s.writer.wake, reads := s.reads++[(0,[])] }) ∨
    ∃ x q' r, q = x::q' ∧ Queues (s.pipe.setRing r) q' ∧ s.piperead copyout =
      { s with
        pipe := s.pipe.setRing r
        reader := .idle
        writer := s.writer.wake
        reads := s.reads++[(4,bytes x)] } := by
  have hempty := hi.queued.empty_iff (by decide)
  rw [flatMap_bytes_eq_nil] at hempty
  have hk := (hi.alive ho).2
  cases q with
  | nil =>
    have he : s.pipe.nread = s.pipe.nwrite := hempty.mpr rfl
    cases hw : s.pipe.writeopen with
    | true =>
      refine Or.inl ⟨rfl,rfl,?_⟩
      simp [State.piperead,pipereadSection,he,hw,hk]
    | false =>
      refine Or.inr (Or.inl ⟨rfl,rfl,?_⟩)
      simp [State.piperead,pipereadSection,readLoop,he,hw]
  | cons x q' =>
    have he : ¬ s.pipe.nread = s.pipe.nwrite := fun h => by simpa using hempty.mp h
    have hh : s.pipe.toRing.Holds (bytes x++q'.flatMap bytes) := hi.queued
    have hd : ∀ j < (bytes x).length, copyout (0+j) = true := by
      intro j hj
      rw [Nat.zero_add]
      exact hc j hj
    obtain ⟨r,hr,hq⟩ := readLoop_pops copyout (bytes x) (q'.flatMap bytes) [] 0 s.pipe hh hd
    refine Or.inr (Or.inr ⟨x,q',r,rfl,hq,?_⟩)
    have hloop : readLoop copyout 4 0 [] s.pipe = (s.pipe.setRing r,4,bytes x) := hr
    simp only [State.piperead,pipereadSection,he,false_and,if_false]
    rw [hloop]
    rfl

theorem wake_whole_writer {w : Writing} (h : Writing.Whole w) : Writing.Whole w.wake := by
  cases w with
  | idle => trivial
  | inside x copyin i a => exact h

theorem wake_whole_reader {r : Reading} (h : Reading.Whole r) : Reading.Whole r.wake := by
  cases r with
  | idle => trivial
  | inside copyout a => exact h

theorem wake_idle {r : Reading} (h : r = .idle) : r.wake = .idle := by
  rw [h]
  rfl

theorem wake_idle_writer {w : Writing} (h : w = .idle) : w.wake = .idle := by
  rw [h]
  rfl

/-- What a section of `pipewrite` makes of the queue, and where it leaves the writer. -/
inductive Wrote (s : State) (q : List (BitVec 32)) (x : BitVec 32) (copyin : ℕ → Bool) :
    List (BitVec 32) → Writing → Prop
  | refused : s.pipe.readopen = false → Wrote s q x copyin q .idle
  | waits : s.pipe.readopen = true → q.length = PIPESIZE/4 →
      Wrote s q x copyin q (.inside x copyin 0 true)
  | written : s.pipe.readopen = true → q.length < PIPESIZE/4 → Wrote s q x copyin (q++[x]) .idle

/-- What a section of `piperead` makes of the queue, where it leaves the reader, and
what it returns. -/
inductive Took (s : State) (copyout : ℕ → Bool) :
    List (BitVec 32) → List (BitVec 32) → Reading → List (ℤ × List Byte) → Prop
  | waits : s.pipe.writeopen = true → Took s copyout [] [] (.inside copyout true) []
  | ended : s.pipe.writeopen = false → Took s copyout [] [] .idle [(0,[])]
  | taken (x : BitVec 32) (q : List (BitVec 32)) : Took s copyout (x::q) q .idle [(4,bytes x)]

theorem pipewrite_inv (hi : Inv s q) (x : BitVec 32) {copyin : ℕ → Bool}
    (hc : ∀ j < 4, copyin j = true) : ∃ q', Inv (s.pipewrite x copyin 0) q' ∧
      Wrote s q x copyin q' (s.pipewrite x copyin 0).writer := by
  rcases pipewrite_section hi x hc with ⟨ho,h⟩ | ⟨ho,hq,h⟩ | ⟨ho,hq,r,hr,h⟩
  · refine ⟨q,?_,by rw [h]; exact .refused ho⟩
    rw [h]
    exact { hi with
      accounted := by simpa [intsWritten,intsRead] using hi.accounted
      writer := trivial }
  · refine ⟨q,?_,by rw [h]; exact .waits ho hq⟩
    rw [h]
    exact { hi with
      writer := ⟨rfl,hc⟩
      reader := wake_whole_reader hi.reader
      unread := fun hu => wake_idle (hi.unread hu) }
  · refine ⟨q++[x],?_,by rw [h]; exact .written ho hq⟩
    rw [h]
    exact { hi with
      queued := hr
      accounted := by
        have ha := hi.accounted
        simp only [intsWritten,intsRead,List.filter_append,List.map_append] at ha ⊢
        rw [ha]
        simp
      writer := trivial
      reader := wake_whole_reader hi.reader
      unread := fun hu => wake_idle (hi.unread hu) }

theorem piperead_inv (hi : Inv s q) (ho : s.pipe.readopen = true) {copyout : ℕ → Bool}
    (hc : ∀ j < 4, copyout j = true) : ∃ q' replies, Inv (s.piperead copyout) q' ∧
      (s.piperead copyout).reads = s.reads++replies ∧
      Took s copyout q q' (s.piperead copyout).reader replies := by
  rcases piperead_section hi ho hc with ⟨hq,hw,h⟩ | ⟨hq,hw,h⟩ | ⟨x,q',r,hq,hr,h⟩
  · refine ⟨q,[],?_,?_,?_⟩
    · rw [h]
      exact { hi with
        reader := hc
        unread := fun hu => absurd (ho.symm.trans hu) (by simp) }
    · rw [h,List.append_nil]
    · rw [h,hq]
      exact .waits hw
  · refine ⟨q,[(0,[])],?_,by rw [h],?_⟩
    · rw [h]
      exact { hi with
        accounted := by simpa [intsWritten,intsRead] using hi.accounted
        returns := by simpa [or_imp,forall_and] using hi.returns
        writer := wake_whole_writer hi.writer
        reader := trivial
        unread := fun _ => rfl }
    · rw [h,hq]
      exact .ended hw
  · refine ⟨q',[(4,bytes x)],?_,by rw [h],?_⟩
    · rw [h]
      exact { hi with
        queued := hr
        accounted := by
          have ha := hi.accounted
          simp only [intsWritten,intsRead,List.filter_append,List.map_append] at ha ⊢
          rw [ha,hq]
          simp [ofBytes_bytes]
        returns := by simpa [or_imp,forall_and] using hi.returns
        writer := wake_whole_writer hi.writer
        reader := trivial
        unread := fun _ => rfl }
    · rw [h,hq]
      exact .taken x q'

theorem pipewrite_ends (hi : Inv s q) (x : BitVec 32) {copyin : ℕ → Bool}
    (hc : ∀ j < 4, copyin j = true) :
    (s.pipewrite x copyin 0).pipe.readopen = s.pipe.readopen ∧
    (s.pipewrite x copyin 0).pipe.writeopen = s.pipe.writeopen := by
  rcases pipewrite_section hi x hc with ⟨_,h⟩ | ⟨_,_,h⟩ | ⟨_,_,r,_,h⟩ <;> rw [h] <;>
    exact ⟨rfl,rfl⟩

theorem piperead_ends (hi : Inv s q) (ho : s.pipe.readopen = true) {copyout : ℕ → Bool}
    (hc : ∀ j < 4, copyout j = true) :
    (s.piperead copyout).pipe.readopen = s.pipe.readopen ∧
    (s.piperead copyout).pipe.writeopen = s.pipe.writeopen := by
  rcases piperead_section hi ho hc with ⟨_,_,h⟩ | ⟨_,_,h⟩ | ⟨_,_,r,_,_,h⟩ <;> rw [h] <;>
    exact ⟨rfl,rfl⟩

theorem pipeclose_inv (hi : Inv s q) (p : Party) (hp : p = .reader → s.reader = .idle) :
    Inv (s.pipeclose p) q := by
  cases p with
  | writer =>
    exact { hi with
      queued := hi.queued
      reader := wake_whole_reader hi.reader
      unread := fun hu => wake_idle (hi.unread hu) }
  | reader =>
    exact { hi with
      queued := hi.queued
      writer := wake_whole_writer hi.writer
      unread := fun _ => hp rfl
      alive := fun h => absurd h (by simp [State.pipeclose]) }

end Sections

inductive Taken (s : State) : Turn → State → Prop
  | write (x : BitVec 32) (copyin : ℕ → Bool) : s.writer = .idle →
      Taken s (.write x copyin) (s.pipewrite x copyin 0)
  | resumeWrite (x : BitVec 32) (copyin : ℕ → Bool) (i : ℕ) :
      s.writer = .inside x copyin i false → Taken s .resumeWrite (s.pipewrite x copyin i)
  | read (copyout : ℕ → Bool) : s.pipe.readopen = true →
      Taken s (.read copyout) (s.piperead copyout)
  | resumeRead (copyout : ℕ → Bool) : s.reader = .inside copyout false →
      Taken s .resumeRead (s.piperead copyout)
  | closeWrite : Taken s .closeWrite (s.pipeclose .writer)
  | closeRead : s.reader = .idle → Taken s .closeRead (s.pipeclose .reader)
  | kill (p : Party) : Taken s (.kill p) (s.kkill p)

theorem step_taken {s s' : State} {t : Turn} (h : step s t = .ok s') : Taken s t s' := by
  cases t with
  | write x copyin =>
    simp only [step] at h
    split at h
    · next hw _ => cases h; exact .write x copyin hw
    · cases h
  | resumeWrite =>
    simp only [step] at h
    split at h
    · next x copyin i hw => cases h; exact .resumeWrite x copyin i hw
    · cases h
  | read copyout =>
    simp only [step] at h
    split at h
    · next _ ho => cases h; exact .read copyout ho
    · cases h
  | resumeRead =>
    simp only [step] at h
    split at h
    · next copyout hr => cases h; exact .resumeRead copyout hr
    · cases h
  | closeWrite =>
    simp only [step] at h
    split at h
    · cases h; exact .closeWrite
    · cases h
  | closeRead =>
    simp only [step] at h
    split at h
    · next hr _ => cases h; exact .closeRead hr
    · cases h
  | kill p => cases h; exact .kill p

section Runs

variable {s s' : State} {q : List (BitVec 32)} {t : Turn}

theorem Inv.resumed_read (hi : Inv s q) {copyout : ℕ → Bool} {a : Bool}
    (hr : s.reader = .inside copyout a) :
    s.pipe.readopen = true ∧ ∀ j < 4, copyout j = true := by
  have hw := hi.reader
  rw [hr] at hw
  refine ⟨?_,hw⟩
  cases ho : s.pipe.readopen with
  | true => rfl
  | false =>
    have hidle := hi.unread ho
    rw [hr] at hidle
    cases hidle

theorem step_inv (hi : Inv s q) (ho : Offered s t) (hs : step s t = .ok s') :
    ∃ q', Inv s' q' := by
  cases step_taken hs with
  | write x copyin _ =>
    obtain ⟨q',h,_⟩ := pipewrite_inv hi x ho
    exact ⟨q',h⟩
  | resumeWrite x copyin i hw =>
    have hwhole := hi.writer
    rw [hw] at hwhole
    rw [hwhole.1]
    obtain ⟨q',h,_⟩ := pipewrite_inv hi x hwhole.2
    exact ⟨q',h⟩
  | read copyout hr =>
    obtain ⟨q',_,h,_⟩ := piperead_inv hi hr ho
    exact ⟨q',h⟩
  | resumeRead copyout hr =>
    obtain ⟨hopen,hc⟩ := hi.resumed_read hr
    obtain ⟨q',_,h,_⟩ := piperead_inv hi hopen hc
    exact ⟨q',h⟩
  | closeWrite => exact ⟨q,pipeclose_inv hi .writer (by simp)⟩
  | closeRead hr => exact ⟨q,pipeclose_inv hi .reader fun _ => hr⟩
  | kill p =>
    have hclosed : s.pipe.readopen = false := ho
    cases p with
    | writer =>
      exact ⟨q,{ hi with
        writer := wake_whole_writer hi.writer
        alive := fun h => absurd (hclosed.symm.trans h) (by simp) }⟩
    | reader =>
      exact ⟨q,{ hi with
        reader := wake_whole_reader hi.reader
        unread := fun hu => wake_idle (hi.unread hu)
        alive := fun h => absurd (hclosed.symm.trans h) (by simp) }⟩

theorem reached_inv {page : Fin PIPESIZE → Byte}
    (h : Reach (Accepts step) Offered (start page) s) : ∃ q, Inv s q := by
  apply h.invariant (I := fun s => ∃ q, Inv s q)
  · exact ⟨[],start_inv page⟩
  · intro s t s' ⟨q,hi⟩ ho hs
    exact step_inv hi ho hs

theorem append_singleton_ne {β : Type} (xs : List β) (x : β) : xs ≠ xs++[x] := by
  intro h
  have hl := congrArg List.length h
  simp at hl

theorem pipewrite_reads (hi : Inv s q) (x : BitVec 32) {copyin : ℕ → Bool}
    (hc : ∀ j < 4, copyin j = true) : (s.pipewrite x copyin 0).reads = s.reads := by
  rcases pipewrite_section hi x hc with ⟨_,h⟩ | ⟨_,_,h⟩ | ⟨_,_,r,_,h⟩ <;> rw [h]

theorem piperead_zero (hi : Inv s q) (ho : s.pipe.readopen = true) {copyout : ℕ → Bool}
    (hc : ∀ j < 4, copyout j = true) {bs : List Byte}
    (hz : (s.piperead copyout).reads = s.reads++[(0,bs)]) :
    s.pipe.writeopen = false ∧ intsRead s = intsWritten s := by
  rcases piperead_section hi ho hc with ⟨hq,hw,h⟩ | ⟨hq,hw,h⟩ | ⟨x,q',r,hq,hr,h⟩
  · rw [h] at hz
    exact absurd hz (append_singleton_ne _ _)
  · refine ⟨hw,?_⟩
    rw [hi.accounted,hq,List.append_nil]
  · rw [h] at hz
    have he := List.append_cancel_left hz
    simp at he

theorem step_zero (hi : Inv s q) (ho : Offered s t) (hs : step s t = .ok s') {bs : List Byte}
    (hz : s'.reads = s.reads++[(0,bs)]) :
    s.pipe.writeopen = false ∧ intsRead s = intsWritten s := by
  cases step_taken hs with
  | write x copyin _ =>
    rw [pipewrite_reads hi x ho] at hz
    exact absurd hz (append_singleton_ne _ _)
  | resumeWrite x copyin i hw =>
    have hwhole := hi.writer
    rw [hw] at hwhole
    rw [hwhole.1,pipewrite_reads hi x hwhole.2] at hz
    exact absurd hz (append_singleton_ne _ _)
  | read copyout hr => exact piperead_zero hi hr ho hz
  | resumeRead copyout hr =>
    obtain ⟨hopen,hc⟩ := hi.resumed_read hr
    exact piperead_zero hi hopen hc hz
  | closeWrite => exact absurd hz (append_singleton_ne _ _)
  | closeRead hr => exact absurd hz (append_singleton_ne _ _)
  | kill p =>
    cases p with
    | writer => exact absurd hz (append_singleton_ne _ _)
    | reader => exact absurd hz (append_singleton_ne _ _)

end Runs

/-- In every run every read returns a whole int or nothing, the ints read are a
prefix of the ints written, and nothing is returned only at the very end. -/
theorem records_never_torn (page : Fin PIPESIZE → Byte) (s : State)
    (h : Reach (Accepts step) Offered (start page) s) :
    (∀ e ∈ s.reads, e.1 = 4 ∨ e.1 = 0) ∧ intsRead s <+: intsWritten s ∧
    ∀ t s' bs, Offered s t → step s t = .ok s' → s'.reads = s.reads++[(0,bs)] →
      s.pipe.writeopen = false ∧ intsRead s = intsWritten s := by
  obtain ⟨q,hi⟩ := reached_inv h
  refine ⟨hi.returns,?_,?_⟩
  · rw [hi.accounted]
    exact List.prefix_append _ _
  · intro t s' bs ho hs hz
    exact step_zero hi ho hs hz

/-- A reader that sleeps first, two writes, a close and three reads. -/
def handover : List Turn :=
  [.read fun _ => true,.write 7 fun _ => true,.resumeRead,.write 8 fun _ => true,.closeWrite,
    .read fun _ => true,.read fun _ => true]

theorem records_never_torn_handover :
    (lastState step (start fun _ => 0) handover).reads.map Prod.fst = [4,4,0] ∧
    intsRead (lastState step (start fun _ => 0) handover) <+:
      intsWritten (lastState step (start fun _ => 0) handover) :=
  ⟨by decide +kernel,(records_never_torn _ _ (Reach.start.lastState _ _ (by decide +kernel))).2.1⟩

end ListlibSyscalls.PipeRecords
