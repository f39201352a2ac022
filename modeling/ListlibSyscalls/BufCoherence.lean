import ListlibSyscalls.BufInvariant

/-!
# What the users of the buffer cache may rely on

A block is in at most one buffer that is used or has data, and one use at a time
holds it. As long as changed buffers are written or pinned before they are
released, the data a use finds are those stored last, however often the buffer
was recycled in between. `bget` panics only when every buffer is referred to, and
it recycles the buffer that has been unused for the longest time.
-/

set_option autoImplicit false

namespace ListlibSyscalls.BufCoherence
open StepRuns LinkedChain LinkedRing CountedRefs BufMachine BufInvariant

section Single

variable {ι δ : Type} [Fintype ι] {s : State ι δ} {i j : ι} {b c : ℕ} {k : Key}

def Live (x : Buf ι δ) : Prop := 0 < x.refcnt ∨ x.valid = true

omit [Fintype ι] in
theorem live_not_blank {x : Buf ι δ} (h : Live x) : ¬ Blank x := by
  rintro ⟨h0,hv⟩
  rcases h with h|h
  · omega
  · rw [hv] at h
    cases h

theorem one_live (h : Inv s) (hb : b < NBUF) (hc : c < NBUF)
    (hkey : (s.buf b).key = (s.buf c).key) (hlb : Live (s.buf b)) (hlc : Live (s.buf c)) :
    b = c := by
  obtain ⟨xs,hxs⟩ := h.order
  by_contra hne
  have hsym : Std.Symm fun x y => (s.buf x).key = (s.buf y).key → Blank (s.buf x) ∨ Blank (s.buf y) :=
    ⟨fun _ _ hxy he => (hxy he.symm).symm⟩
  have hall : xs.Pairwise fun x y => (s.buf x).key = (s.buf y).key →
      Blank (s.buf x) ∨ Blank (s.buf y) := hxs.apart.imp fun hxy he => .inr (hxy he)
  rcases hall.forall ((hxs.all b).mpr hb) ((hxs.all c).mpr hc) hne hkey with hblank|hblank
  · exact live_not_blank hlb hblank
  · exact live_not_blank hlc hblank

theorem live_of_use (h : Inv s) (hi : target (s.use i) = some (b,k)) : Live (s.buf b) :=
  .inl (h.refcnt_pos hi)

theorem one_holder (h : Inv s) (hi : s.use i = .holding b k) (hj : s.use j = .holding c k) :
    i = j := by
  have hti : target (s.use i) = some (b,k) := by rw [hi]; rfl
  have htj : target (s.use j) = some (c,k) := by rw [hj]; rfl
  obtain ⟨hb,hkb⟩ := h.targets i b k hti
  obtain ⟨hc,hkc⟩ := h.targets j c k htj
  have hbc := one_live h hb hc (hkb.trans hkc.symm) (live_of_use h hti) (live_of_use h htj)
  have hlock : (s.buf b).lock = some i := (h.locks b i).mpr ⟨k,.inr hi⟩
  have hlock' : (s.buf b).lock = some j := (h.locks b j).mpr ⟨k,.inr (hbc ▸ hj)⟩
  exact Option.some.inj (hlock.symm.trans hlock')

structure Consistent [DecidableEq ι] (s : State ι δ) : Prop where
  ring : ∃ xs, Ring s.next s.prev head xs ∧ xs.Perm (List.range NBUF)
  single : ∀ b c, b < NBUF → c < NBUF → (s.buf b).key = (s.buf c).key → Live (s.buf b) →
    Live (s.buf c) → b = c
  exclusive : ∀ i j b c k, s.use i = .holding b k → s.use j = .holding c k → i = j
  named : ∀ i b k, s.use i = .holding b k → b < NBUF ∧ (s.buf b).key = k ∧ (s.buf b).valid = true
  counted : ∀ b < NBUF, (s.buf b).refcnt = refsTo s b+s.pins b
  panics : ∀ l p, step s l = .error (.panics p) → p = .noBuffers
  returns : ∀ l, step s l ≠ .error .diverges

variable [DecidableEq ι]

omit [Fintype ι] in
theorem bget_eq {xs : List ℕ} (hxs : Order s xs) (i : ι) (k : Key) :
    bget s i k = match xs.find? (fun b => decide ((s.buf b).key = k)) with
      | some b => .ok ((s.setBuf b { s.buf b with refcnt := (s.buf b).refcnt+1 }).setUse i
          (.waiting b k))
      | none => match xs.reverse.find? (fun b => decide ((s.buf b).refcnt = 0)) with
        | some b => .ok ((s.setBuf b { s.buf b with key := k,valid := false,refcnt := 1 }).setUse i
            (.waiting b k))
        | none => .error (.panics .noBuffers) := by
  rw [bget,hxs.seek_next]
  cases xs.find? (fun b => decide ((s.buf b).key = k)) with
  | some b => rfl
  | none =>
    dsimp only
    rw [hxs.seek_prev]
    cases xs.reverse.find? (fun b => decide ((s.buf b).refcnt = 0)) with
    | some b => rfl
    | none => rfl

omit [Fintype ι] in
theorem bget_error {xs : List ℕ} (hxs : Order s xs) {i : ι} {k : Key} {e : Refused}
    (he : bget s i k = .error e) : e = .panics .noBuffers := by
  rw [bget_eq hxs] at he
  split at he
  · cases he
  · split at he
    · cases he
    · cases he
      rfl

theorem step_error (h : Inv s) {l : Label ι δ} {e : Refused} (he : step s l = .error e) :
    e = .nothing ∨ e = .sleeps ∨ e = .panics .noBuffers := by
  have hlock : ∀ i b k, s.use i = .holding b k → (s.buf b).lock = some i :=
    fun i b k hi => (h.locks b i).mpr ⟨k,.inr hi⟩
  cases l with
  | bget i k =>
    simp only [step] at he
    split at he
    · obtain ⟨xs,hxs⟩ := h.order
      exact .inr (.inr (bget_error hxs he))
    · cases he
      exact .inl rfl
  | acquire i =>
    simp only [step] at he
    split at he
    · split at he
      · cases he
        exact .inr (.inl rfl)
      · cases he
    · cases he
      exact .inl rfl
  | store i k d =>
    simp only [step] at he
    split at he
    · split at he
      · cases he
      · cases he
        exact .inl rfl
    · cases he
      exact .inl rfl
  | bwrite i =>
    simp only [step] at he
    split at he
    · next b k hi =>
      rw [if_pos (hlock i b k hi)] at he
      cases he
    · cases he
      exact .inl rfl
  | release i =>
    simp only [step] at he
    split at he
    · next b k hi =>
      rw [if_pos (hlock i b k hi)] at he
      cases he
    · cases he
      exact .inl rfl
  | fill i | bpin i | bunpin i | unref i =>
    simp only [step] at he
    split at he
    · cases he
    · cases he
      exact .inl rfl

theorem inv_consistent (h : Inv s) : Consistent s := by
  constructor
  · obtain ⟨xs,hxs⟩ := h.order
    refine ⟨xs,hxs.ring,?_⟩
    rw [List.perm_ext_iff_of_nodup hxs.ring.distinct List.nodup_range]
    intro b
    rw [hxs.all b,List.mem_range]
  · exact fun b c hb hc hkey hlb hlc => one_live h hb hc hkey hlb hlc
  · exact fun i j b c k hi hj => one_holder h hi hj
  · intro i b k hi
    obtain ⟨hb,hk⟩ := h.targets i b k (by rw [hi]; rfl)
    exact ⟨hb,hk,h.filled i b k hi⟩
  · exact h.refs
  · intro l p he
    rcases step_error h he with he|he|he
    · cases he
    · cases he
    · cases he
      rfl
  · intro l he
    rcases step_error h he with he|he|he
    · cases he
    · cases he
    · cases he

/-- Every state of every run, with the uses interleaved in any way. -/
theorem reached_consistent {zero : δ} {disk : ℕ → δ} (h : Reached zero disk s) : Consistent s :=
  inv_consistent (reached_inv h)

end Single

section Coherence

variable {ι δ : Type}

/-- The data last stored in each block, of the labels of a run. -/
def stored (disk : ℕ → δ) : List (Label ι δ) → ℕ → δ
  | [] => disk
  | .store _ k d::ls => stored (Function.update disk k.blockno d) ls
  | _::ls => stored disk ls

def after (v : ℕ → δ) : Label ι δ → ℕ → δ
  | .store _ k d => Function.update v k.blockno d
  | _ => v

theorem stored_append (disk : ℕ → δ) (ls : List (Label ι δ)) (l : Label ι δ) :
    stored disk (ls++[l]) = after (stored disk ls) l := by
  induction ls generalizing disk with
  | nil => cases l <;> rfl
  | cons l' ls ih =>
    cases l' <;> exact ih _

/-- The cache shows the contents `v`: valid buffers have them, so has the disk for
blocks without one, and a buffer that may be recycled agrees with the disk. -/
structure Shows (v : ℕ → δ) (s : State ι δ) : Prop where
  root : ∀ i b k, target (s.use i) = some (b,k) → k.dev = ROOTDEV
  rooted : ∀ b < NBUF, (s.buf b).valid = true → (s.buf b).key.dev = ROOTDEV
  cached : ∀ b < NBUF, (s.buf b).valid = true → (s.buf b).data = v (s.buf b).key.blockno
  onDisk : ∀ n, (∀ b < NBUF, (s.buf b).valid = true → (s.buf b).key.blockno ≠ n) → s.disk n = v n
  clean : ∀ b < NBUF, (s.buf b).valid = true → (s.buf b).lock = none → s.pins b = 0 →
    (s.buf b).data = s.disk (s.buf b).key.blockno

variable {s s' : State ι δ} {v : ℕ → δ} {i : ι} {b : ℕ} {k : Key}

/-- Neither blocks nor data nor the disk change, and what may be recycled is clean. -/
theorem Shows.keep (hv : Shows v s) (hdisk : s'.disk = s.disk)
    (hsame : ∀ c, (s'.buf c).key = (s.buf c).key ∧ (s'.buf c).valid = (s.buf c).valid ∧
      (s'.buf c).data = (s.buf c).data)
    (hroot : ∀ i b k, target (s'.use i) = some (b,k) → k.dev = ROOTDEV)
    (hclean : ∀ c < NBUF, (s.buf c).valid = true → (s'.buf c).lock = none → s'.pins c = 0 →
      (s.buf c).data = s.disk (s.buf c).key.blockno) : Shows v s' := by
  refine ⟨hroot,?_,?_,?_,?_⟩
  · intro c hc hvalid
    rw [(hsame c).1]
    exact hv.rooted c hc ((hsame c).2.1.symm.trans hvalid)
  · intro c hc hvalid
    rw [(hsame c).1,(hsame c).2.2]
    exact hv.cached c hc ((hsame c).2.1.symm.trans hvalid)
  · intro n hn
    rw [hdisk]
    apply hv.onDisk n
    intro c hc hvalid
    have := hn c hc ((hsame c).2.1.trans hvalid)
    rwa [(hsame c).1] at this
  · intro c hc hvalid hlock hpins
    rw [(hsame c).1,(hsame c).2.2,hdisk]
    exact hclean c hc ((hsame c).2.1.symm.trans hvalid) hlock hpins

theorem Shows.setBuf (hv : Shows v s) (x : Buf ι δ) (hbuf : s'.buf = Function.update s.buf b x)
    (hkey : x.key = (s.buf b).key) (hvalid : x.valid = (s.buf b).valid)
    (hdata : x.data = (s.buf b).data) (hdisk : s'.disk = s.disk)
    (hpins : ∀ c, c ≠ b → s'.pins c = s.pins c)
    (hroot : ∀ i b k, target (s'.use i) = some (b,k) → k.dev = ROOTDEV)
    (hclean : b < NBUF → (s.buf b).valid = true → x.lock = none → s'.pins b = 0 →
      (s.buf b).data = s.disk (s.buf b).key.blockno) : Shows v s' := by
  have hself : s'.buf b = x := by rw [hbuf,Function.update_self]
  have hother : ∀ c, c ≠ b → s'.buf c = s.buf c := fun c hc => by rw [hbuf,Function.update_of_ne hc]
  apply hv.keep hdisk _ hroot
  · intro c hc hvalid' hlock hp
    by_cases hcb : c = b
    · subst hcb
      rw [hself] at hlock
      exact hclean hc hvalid' hlock hp
    · rw [hother c hcb] at hlock
      rw [hpins c hcb] at hp
      exact hv.clean c hc hvalid' hlock hp
  · intro c
    by_cases hcb : c = b
    · rw [hcb,hself]
      exact ⟨hkey,hvalid,hdata⟩
    · rw [hother c hcb]
      exact ⟨rfl,rfl,rfl⟩

variable [Fintype ι]

theorem blockno_ne (h : Inv s) (hv : Shows v s) (hi : target (s.use i) = some (b,k)) {c : ℕ}
    (hc : c < NBUF) (hvalid : (s.buf c).valid = true) (hne : c ≠ b) :
    (s.buf c).key.blockno ≠ k.blockno := by
  intro he
  obtain ⟨hb,hkey⟩ := h.targets i b k hi
  apply hne
  refine one_live h hc hb ?_ (.inr hvalid) (live_of_use h hi)
  have hdev : (s.buf c).key.dev = k.dev := (hv.rooted c hc hvalid).trans (hv.root i b k hi).symm
  rw [hkey]
  cases hkc : (s.buf c).key with
  | mk dev blockno =>
    rw [hkc] at he hdev
    cases k
    simp_all

theorem shows_recycle [DecidableEq ι] (h : Inv s) (hv : Shows v s) (hb : b < NBUF)
    (h0 : (s.buf b).refcnt = 0) (hk : k.dev = ROOTDEV) :
    Shows v ((s.setBuf b { s.buf b with key := k,valid := false,refcnt := 1 }).setUse i
      (.waiting b k)) := by
  set x : Buf ι δ := { s.buf b with key := k,valid := false,refcnt := 1 } with hx
  have hself : ((s.setBuf b x).setUse i (.waiting b k)).buf b = x := setBuf_self x
  have hother : ∀ c, c ≠ b → ((s.setBuf b x).setUse i (.waiting b k)).buf c = s.buf c :=
    fun c hc => setBuf_of_ne x hc
  have hne : ∀ c, (((s.setBuf b x).setUse i (.waiting b k)).buf c).valid = true → c ≠ b := by
    rintro c hvalid rfl
    rw [hself] at hvalid
    cases hvalid
  have hpins : s.pins b = 0 := by
    have := h.refs b hb
    omega
  refine ⟨?_,?_,?_,?_,?_⟩
  · intro j c k' hj
    by_cases hji : j = i
    · rw [hji,setUse_self] at hj
      cases hj
      exact hk
    · rw [setUse_of_ne _ hji] at hj
      exact hv.root j c k' hj
  · intro c hc hvalid
    have hcb := hother c (hne c hvalid)
    rw [hcb] at hvalid ⊢
    exact hv.rooted c hc hvalid
  · intro c hc hvalid
    have hcb := hother c (hne c hvalid)
    rw [hcb] at hvalid ⊢
    exact hv.cached c hc hvalid
  · intro n hn
    by_cases hold : (s.buf b).valid = true ∧ (s.buf b).key.blockno = n
    · obtain ⟨hvalid,rfl⟩ := hold
      have hclean := hv.clean b hb hvalid (h.unused h0).2 hpins
      exact hclean.symm.trans (hv.cached b hb hvalid)
    · apply hv.onDisk n
      intro c hc hvalid he
      by_cases hcb : c = b
      · rw [hcb] at hvalid he
        exact hold ⟨hvalid,he⟩
      · have hkeep := hn c hc (by rw [hother c hcb]; exact hvalid)
        rw [hother c hcb] at hkeep
        exact hkeep he
  · intro c hc hvalid hlock hp
    have hcb := hother c (hne c hvalid)
    rw [hcb] at hvalid hlock ⊢
    exact hv.clean c hc hvalid hlock hp

/-- The holder of a buffer gives it and its block new contents `d`: it stores them,
or it reads them from the disk. -/
theorem shows_put (h : Inv s) (hv : Shows v s) (hi : target (s.use i) = some (b,k)) (d : δ)
    (x : Buf ι δ) (hkey : x.key = (s.buf b).key) (hvalid : x.valid = true) (hdata : x.data = d)
    (hlock : x.lock = some i)
    (hbuf : s'.buf = Function.update s.buf b x) (hdisk : s'.disk = s.disk) (hpins : s'.pins = s.pins)
    (hroot : ∀ i b k, target (s'.use i) = some (b,k) → k.dev = ROOTDEV) :
    Shows (Function.update v k.blockno d) s' := by
  obtain ⟨hb,hkb⟩ := h.targets i b k hi
  have hself : s'.buf b = x := by rw [hbuf,Function.update_self]
  have hother : ∀ c, c ≠ b → s'.buf c = s.buf c := fun c hc => by rw [hbuf,Function.update_of_ne hc]
  refine ⟨hroot,?_,?_,?_,?_⟩
  · intro c hc hvalid'
    by_cases hcb : c = b
    · rw [hcb,hself,hkey,hkb]
      exact hv.root i b k hi
    · rw [hother c hcb] at hvalid' ⊢
      exact hv.rooted c hc hvalid'
  · intro c hc hvalid'
    by_cases hcb : c = b
    · rw [hcb,hself,hkey,hkb,Function.update_self,hdata]
    · rw [hother c hcb] at hvalid' ⊢
      rw [Function.update_of_ne (blockno_ne h hv hi hc hvalid' hcb)]
      exact hv.cached c hc hvalid'
  · intro n hn
    have hne : n ≠ k.blockno := by
      rintro rfl
      apply hn b hb (by rw [hself,hvalid])
      rw [hself,hkey,hkb]
    rw [hdisk,Function.update_of_ne hne]
    apply hv.onDisk n
    intro c hc hvalid'
    by_cases hcb : c = b
    · rw [hcb,hkb]
      exact hne.symm
    · have := hn c hc (by rw [hother c hcb]; exact hvalid')
      rwa [hother c hcb] at this
  · intro c hc hvalid' hl hp
    by_cases hcb : c = b
    · rw [hcb,hself,hlock] at hl
      cases hl
    · rw [hother c hcb] at hvalid' hl ⊢
      rw [hpins] at hp
      rw [hdisk]
      exact hv.clean c hc hvalid' hl hp

theorem disk_of_invalid (h : Inv s) (hv : Shows v s) (hi : target (s.use i) = some (b,k))
    (hinvalid : (s.buf b).valid ≠ true) : s.disk k.blockno = v k.blockno := by
  apply hv.onDisk
  intro c hc hvalid
  apply blockno_ne h hv hi hc hvalid
  rintro rfl
  exact hinvalid hvalid

variable [DecidableEq ι]

omit [Fintype ι] in
theorem root_setUse (hv : Shows v s) {u : Use}
    (hu : ∀ b k, target u = some (b,k) → k.dev = ROOTDEV) (j : ι) (c : ℕ) (k' : Key)
    (hj : target ((s.setUse i u).use j) = some (c,k')) : k'.dev = ROOTDEV := by
  by_cases hji : j = i
  · rw [hji,setUse_self] at hj
    exact hu c k' hj
  · rw [setUse_of_ne _ hji] at hj
    exact hv.root j c k' hj

theorem bget_shows (h : Inv s) (hv : Shows v s) (hk : k.dev = ROOTDEV)
    (hs : bget s i k = .ok s') : Shows v s' := by
  obtain ⟨xs,hxs⟩ := h.order
  rw [bget_eq hxs] at hs
  split at hs
  · next b hfind =>
    cases hs
    refine hv.setBuf (b := b) _ rfl ?_ ?_ ?_ rfl (fun _ _ => rfl) ?_ ?_
    · rfl
    · rfl
    · rfl
    · apply root_setUse (i := i) hv
      intro c k' hu
      cases hu
      exact hk
    · exact fun hb hvalid hlock hpins => hv.clean b hb hvalid hlock hpins
  · split at hs
    · next b hfree =>
      cases hs
      have h0 : (s.buf b).refcnt = 0 := by simpa using List.find?_some hfree
      have hb : b < NBUF :=
        (hxs.all b).mp (List.mem_reverse.mp (List.mem_of_find?_eq_some hfree))
      exact shows_recycle h hv hb h0 hk
    · cases hs

theorem step_shows (h : Inv s) (hv : Shows v s) {l : Label ι δ} (ho : Careful s l)
    (hs : step s l = .ok s') : Shows (after v l) s' := by
  have hheld : ∀ i b k, s.use i = .holding b k → (s.buf b).lock = some i :=
    fun i b k hi => (h.locks b i).mpr ⟨k,.inr hi⟩
  cases l with
  | bget i k =>
    simp only [step] at hs
    split at hs
    · exact bget_shows h hv ho hs
    · cases hs
  | acquire i =>
    simp only [step] at hs
    split at hs
    · next b k hi =>
      have hk := hv.root i b k (by rw [hi]; rfl)
      split at hs
      · cases hs
      · cases hs
        refine hv.setBuf (b := b) _ rfl ?_ ?_ ?_ rfl (fun _ _ => rfl) ?_ ?_
        · rfl
        · rfl
        · rfl
        · apply root_setUse (i := i) hv
          intro c k' hu
          cases hu
          exact hk
        · exact fun _ _ hlock _ => by cases hlock
    · cases hs
  | fill i =>
    simp only [step] at hs
    split at hs
    · next b k hi =>
      have htarget : target (s.use i) = some (b,k) := by rw [hi]; rfl
      have hk := hv.root i b k htarget
      have hlock : (s.buf b).lock = some i := (h.locks b i).mpr ⟨k,.inl hi⟩
      have hroot : ∀ j c k', target ((s.setUse i (.holding b k)).use j) = some (c,k') →
          k'.dev = ROOTDEV := by
        apply root_setUse hv
        intro c k' hu
        cases hu
        exact hk
      split at hs
      · cases hs
        exact hv.keep rfl (fun _ => ⟨rfl,rfl,rfl⟩) hroot hv.clean
      · next hinvalid =>
        cases hs
        have hkey := (h.targets i b k htarget).2
        have hdisk := disk_of_invalid h hv htarget (by simpa using hinvalid)
        have hput : Shows (Function.update v k.blockno (s.disk k.blockno)) ((s.setBuf b { s.buf b with
            data := s.disk (s.buf b).key.blockno,valid := true }).setUse i (.holding b k)) :=
          shows_put h hv htarget (s.disk k.blockno)
            { s.buf b with data := s.disk (s.buf b).key.blockno,valid := true } rfl rfl
            (by rw [hkey]) hlock rfl rfl rfl hroot
        rwa [hdisk,Function.update_eq_self] at hput
    · cases hs
  | store i k d =>
    simp only [step] at hs
    split at hs
    · next b k' hi =>
      split at hs
      · next hkk =>
        cases hs
        rw [hkk] at hi
        have htarget : target (s.use i) = some (b,k) := by rw [hi]; rfl
        exact shows_put h hv htarget d { s.buf b with data := d } rfl (h.filled i b k hi) rfl
          (hheld i b k hi) rfl rfl rfl hv.root
      · cases hs
    · cases hs
  | bwrite i =>
    simp only [step] at hs
    split at hs
    · next b k hi =>
      split at hs
      · cases hs
        have htarget : target (s.use i) = some (b,k) := by rw [hi]; rfl
        obtain ⟨hb,hkey⟩ := h.targets i b k htarget
        have hvalid := h.filled i b k hi
        refine ⟨hv.root,hv.rooted,hv.cached,?_,?_⟩
        · intro n hn
          have hne : n ≠ (s.buf b).key.blockno := (hn b hb hvalid).symm
          exact (Function.update_of_ne hne _ _).trans (hv.onDisk n hn)
        · intro c hc hvc hlock hp
          have hcb : c ≠ b := by
            rintro rfl
            have := (hheld i c k hi).symm.trans hlock
            cases this
          have hne := blockno_ne h hv htarget hc hvc hcb
          rw [← hkey] at hne
          exact (hv.clean c hc hvc hlock hp).trans (Function.update_of_ne hne _ _).symm
      · cases hs
    · cases hs
  | bpin i =>
    simp only [step] at hs
    split at hs
    · next b k hi =>
      cases hs
      refine hv.setBuf (b := b) _ rfl ?_ ?_ ?_ rfl ?_ hv.root ?_
      · rfl
      · rfl
      · rfl
      · exact fun c hc => Function.update_of_ne hc _ _
      · exact fun _ _ hlock _ => absurd ((hheld i b k hi).symm.trans hlock) (by simp)
    · cases hs
  | bunpin i =>
    simp only [step] at hs
    split at hs
    · next b k hi =>
      cases hs
      refine hv.setBuf (b := b) _ rfl ?_ ?_ ?_ rfl ?_ hv.root ?_
      · rfl
      · rfl
      · rfl
      · exact fun c hc => Function.update_of_ne hc _ _
      · exact fun _ _ hlock _ => absurd ((hheld i b k hi).symm.trans hlock) (by simp)
    · cases hs
  | release i =>
    simp only [step] at hs
    split at hs
    · next b k hi =>
      split at hs
      · cases hs
        have hk := hv.root i b k (by rw [hi]; rfl)
        refine hv.setBuf (b := b) _ rfl ?_ ?_ ?_ rfl (fun _ _ => rfl) ?_ ?_
        · rfl
        · rfl
        · rfl
        · apply root_setUse (i := i) hv
          intro c k' hu
          cases hu
          exact hk
        · intro _ _ _ hpins
          have hpins : s.pins b = 0 := hpins
          rcases ho b (by rw [hi]; rfl) with hpos|hclean
          · omega
          · exact hclean
      · cases hs
    · cases hs
  | unref i =>
    simp only [step] at hs
    split at hs
    · next b k hi =>
      cases hs
      have hrest : (unref s b).buf = Function.update s.buf b
            { s.buf b with refcnt := (s.buf b).refcnt-1 } ∧
          (unref s b).use = s.use ∧ (unref s b).pins = s.pins ∧ (unref s b).disk = s.disk := by
        rw [unref]
        dsimp only
        split
        · exact ⟨rfl,rfl,rfl,rfl⟩
        · exact ⟨rfl,rfl,rfl,rfl⟩
      obtain ⟨hbuf,huse,hpins,hdisk⟩ := hrest
      refine hv.setBuf (b := b) _ hbuf ?_ ?_ ?_ hdisk (fun c _ => congrFun hpins c) ?_ ?_
      · rfl
      · rfl
      · rfl
      · intro j c k' hj
        by_cases hji : j = i
        · rw [hji,setUse_self] at hj
          cases hj
        · rw [setUse_of_ne _ hji,huse] at hj
          exact hv.root j c k' hj
      · intro hb hvalid hlock hp
        exact hv.clean b hb hvalid hlock ((congrFun hpins b).symm.trans hp)
    · cases hs

omit [DecidableEq ι] [Fintype ι] in
theorem careful_paired {l : Label ι δ} (ho : Careful s l) : Paired s l := by
  cases l with
  | bunpin i => exact ho
  | bget | acquire | fill | store | bwrite | bpin | release | unref => trivial

omit [DecidableEq ι] [Fintype ι] in
theorem binit_shows (zero : δ) (disk : ℕ → δ) : Shows disk (binit zero disk : State ι δ) := by
  obtain ⟨-,hbuf,huse,-,hdisk⟩ := binit_spec (ι := ι) zero disk
  refine ⟨?_,?_,?_,fun n _ => congrFun hdisk n,?_⟩
  · intro i b k hi
    rw [huse] at hi
    cases hi
  · intro b _ hvalid
    rw [hbuf] at hvalid
    cases hvalid
  · intro b _ hvalid
    rw [hbuf] at hvalid
    cases hvalid
  · intro b _ hvalid
    rw [hbuf] at hvalid
    cases hvalid

theorem run_shows {zero : δ} {disk : ℕ → δ} {ls : List (Label ι δ)}
    (h : Run Steps Careful (binit zero disk) ls s) : Inv s ∧ Shows (stored disk ls) s := by
  induction h with
  | start => exact ⟨binit_inv zero disk,binit_shows zero disk⟩
  | next _ ho hr ih =>
    rw [stored_append]
    exact ⟨step_inv ih.1 (careful_paired ho) hr,step_shows ih.1 ih.2 ho hr⟩

/-- A use that has got its block finds in the buffer what was stored in the block
last, by whomever and in whichever buffer, or what was on the disk at first. -/
theorem reads_last_stored {zero : δ} {disk : ℕ → δ} {ls : List (Label ι δ)}
    (h : Run Steps Careful (binit zero disk) ls s) (hi : s.use i = .holding b k) :
    (s.buf b).data = stored disk ls k.blockno := by
  obtain ⟨hinv,hv⟩ := run_shows h
  obtain ⟨hb,hkey⟩ := hinv.targets i b k (by rw [hi]; rfl)
  rw [← hkey]
  exact hv.cached b hb (hinv.filled i b k hi)

/-- Use 0 stores 5 in block 7 and pins it, and use 1 reads it in its turn. -/
def handover : List (Label (Fin 2) ℕ) :=
  [.bget 0 ⟨ROOTDEV,7⟩,.bget 1 ⟨ROOTDEV,7⟩,.acquire 0,.fill 0,.store 0 ⟨ROOTDEV,7⟩ 5,.bpin 0,
    .release 0,.acquire 1,.unref 0,.fill 1]

theorem handover_run : Run Steps Careful (binit 0 fun _ => 0) handover
    (lastState step (binit 0 fun _ => 0) handover) :=
  Run.lastState handover _ (by decide +kernel) (by decide +kernel)

theorem reads_last_stored_handover :
    ((lastState step (binit 0 fun _ => 0) handover).buf 0).data = 5 :=
  reads_last_stored handover_run (k := ⟨ROOTDEV,7⟩) (i := 1) (by decide +kernel)

theorem reached_consistent_handover : Consistent (lastState step (binit 0 fun _ => 0) handover) :=
  reached_consistent (handover_run.reach.mono fun _ _ => careful_paired)

end Coherence

end ListlibSyscalls.BufCoherence
