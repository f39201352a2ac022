import ListlibSyscalls.AllocPaths

/-!
# `free` and the block search of `malloc` on the ring of free blocks

`free` stops at the block below the one it gets, from wherever it starts, and
leaves the ring of the list with that block inserted. A search that finds a
block takes it out of the ring or cuts it; one that does not has seen them all.
-/

set_option autoImplicit false

namespace ListlibSyscalls.AllocRing
open GappedBlocks AllocMachine AllocPaths

/-- The free blocks of the memory below `brk`, in a ring from `base`. -/
structure Ring (base brk : ℕ) (mem : ℕ → Header) (fs : List Block) : Prop where
  path : Leads mem base fs base
  zero : (mem base).size = 0
  gapped : Gapped fs
  pos : ∀ x ∈ fs, 0 < x.2
  range : ∀ x ∈ fs, base < x.1 ∧ x.1+x.2 ≤ brk

variable {base brk : ℕ} {mem : ℕ → Header} {fs : List Block}

theorem Ring.length_le (h : Ring base brk mem fs) : fs.length ≤ brk := by
  have hlen := length_le_units h.pos
  have hle : 0+units fs ≤ brk :=
    units_le h.gapped (fun x hx => ⟨Nat.zero_le _,(h.range x hx).2⟩) (Nat.zero_le _)
  omega

theorem Ring.nodup (h : Ring base brk mem fs) : (base::fs.map Prod.fst).Nodup := by
  refine List.nodup_cons.mpr ⟨?_,addresses_nodup h.gapped⟩
  rintro hb
  obtain ⟨x,hx,hxb⟩ := List.mem_map.mp hb
  have := (h.range x hx).1
  omega

theorem Ring.mono {brk' : ℕ} (h : Ring base brk mem fs) (hle : brk ≤ brk') :
    Ring base brk' mem fs :=
  ⟨h.path,h.zero,h.gapped,h.pos,fun x hx => ⟨(h.range x hx).1,Nat.le_trans (h.range x hx).2 hle⟩⟩

/-- The ring does not depend on memory outside its headers. -/
theorem Ring.frame {mem' : ℕ → Header} (h : Ring base brk mem fs)
    (hm : ∀ u ∈ base::fs.map Prod.fst, mem' u = mem u) : Ring base brk mem' fs where
  path := path_congr (by rw [hm base List.mem_cons_self])
    (fun x hx => hm x.1 (List.mem_cons_of_mem base (List.mem_map_of_mem hx))) h.path
  zero := by rw [hm base List.mem_cons_self]; exact h.zero
  gapped := h.gapped
  pos := h.pos
  range := h.range

theorem Ring.last_lt {as bs : List Block} (h : Ring base brk mem (as++bs)) :
    ∀ y ∈ bs, lastAddr base as < y.1 := by
  intro y hy
  cases as using List.reverseRecOn with
  | nil => exact (h.range y (by simpa using hy)).1
  | append_singleton as z _ =>
    have hg := h.gapped
    rw [Gapped,List.append_assoc,List.pairwise_append] at hg
    have hz : Below z y := (List.pairwise_cons.mp hg.2.1).1 y (by simpa using hy)
    rw [lastAddr_append]
    simp only [Below] at hz
    show z.1 < y.1
    omega

theorem Ring.seek (h : Ring base brk mem fs) {f bp : ℕ} (hf : f ∈ base::fs.map Prod.fst)
    (hb : base < bp) (hne : ∀ x ∈ fs, x.1 ≠ bp) :
    ∃ as bs, fs = as++bs ∧ seek mem bp (brk+1) f = some (lastAddr base as) ∧
      lastAddr base as < bp ∧ ∀ y ∈ bs, bp < y.1 := by
  obtain ⟨gs,hpath,hperm⟩ := path_rotate h.path h.zero hf
  have hlen : gs.length = fs.length := by simpa using hperm.length_eq
  have haddr : ∀ q, q ∈ f::gs.map Prod.fst ↔ q ∈ base::fs.map Prod.fst := by
    intro q
    simpa using (hperm.map Prod.fst).mem_iff (a := q)
  obtain ⟨q₀,hq₀,hstop₀⟩ := stop_exists bp base base fs h.path hb (Nat.le_refl base)
    fun x hx => ⟨hne x hx,Nat.le_of_lt (h.range x hx).1⟩
  obtain ⟨q,hq,hstop,hseek⟩ := seek_path bp (brk-gs.length) f f gs hpath ⟨q₀,(haddr q₀).mpr hq₀,hstop₀⟩
  rw [Nat.sub_add_cancel (hlen ▸ h.length_le)] at hseek
  obtain ⟨as,bs,rfl,rfl⟩ := path_cut ((haddr q).mp hq)
  obtain ⟨-,hp⟩ := (path_append base base as bs).mp h.path
  have hup := h.last_lt
  refine ⟨as,bs,rfl,hseek,?_⟩
  rw [Stop] at hstop
  cases bs with
  | nil =>
    -- the top of the ring
    rw [show (mem (lastAddr base as)).ptr = base from hp] at hstop
    exact ⟨by omega,fun y hy => by simp at hy⟩
  | cons z zs =>
    rw [hp.1] at hstop
    have hz := hup z List.mem_cons_self
    refine ⟨by omega,fun y hy => ?_⟩
    rcases List.mem_cons.mp hy with rfl|hy
    · omega
    · have hg := h.gapped
      rw [Gapped,List.pairwise_append] at hg
      have hzy := (List.pairwise_cons.mp hg.2.1).1 y hy
      simp only [Below] at hzy
      omega

/-- The last step of `free` when no free block lies below: `base` points to it. -/
theorem join_base {bs : List Block} {bp : ℕ} (hz : (mem base).size = 0) (hb : base < bp)
    (hbody : Body mem base bs) (hhead : headAddr base bs = bp) (hne : ∀ y ∈ bs, y.1 ≠ base) :
    Leads (joinBelow mem bp base) base bs base ∧ (joinBelow mem bp base base).size = 0 := by
  have hself : joinBelow mem bp base base = ⟨bp,0⟩ := by
    rw [joinBelow,hz,if_neg (by omega),Function.update_self]
  refine ⟨(path_body base base bs).mpr ⟨by rw [hself,hhead],?_⟩,by rw [hself]⟩
  exact body_congr (fun y hy => by rw [joinBelow_eq,attach_other (hne y hy)]) hbody

/-- Otherwise the block below points to it, or takes it in. -/
theorem join_block {as bs : List Block} {q : Block} {bp : ℕ} (hup : Leads mem base as q.1)
    (hq : (mem q.1).size = q.2) (hbody : Body mem base bs) (hhead : headAddr base bs = bp)
    (hbase : base < q.1) (has : ∀ y ∈ as, y.1 ≠ q.1) (hne : ∀ y ∈ bs, y.1 ≠ q.1) :
    Leads (joinBelow mem bp q.1) base (as++glue q bs) base ∧
      joinBelow mem bp q.1 base = mem base := by
  have hother : ∀ u, u ≠ q.1 → joinBelow mem bp q.1 u = mem u := fun u hu => attach_other hu
  have hfirst : Leads (joinBelow mem bp q.1) base as q.1 :=
    path_congr (by rw [hother base (by omega)]) (fun y hy => hother y.1 (has y hy)) hup
  obtain ⟨hseg,hptr⟩ := (path_seg base q.1 as).mp hfirst
  refine ⟨(path_append base base as _).mpr ⟨hseg,(path_body _ base _).mpr ⟨?_,?_⟩⟩,
    hother base (by omega)⟩
  · rw [hptr,headAddr_glue]
  · rw [joinBelow_eq,hq,← hhead]
    exact body_glue hbody hne (by omega)

theorem Ring.free (h : Ring base brk mem fs) {f bp : ℕ} (hf : f ∈ base::fs.map Prod.fst)
    (hb : base < bp) (hpos : 0 < (mem bp).size) (hend : bp+(mem bp).size ≤ brk)
    (hapart : ∀ y ∈ fs, Apart (bp,(mem bp).size) y) :
    ∃ mem' p, AllocMachine.free (brk+1) ⟨mem,some f⟩ (bp+1) = some ⟨mem',some p⟩ ∧
      Ring base brk mem' (insertBlock (bp,(mem bp).size) fs) ∧
      p ∈ base::(insertBlock (bp,(mem bp).size) fs).map Prod.fst ∧
      ∀ u, u ≠ bp → u ∉ base::fs.map Prod.fst → mem' u = mem u := by
  have hne : ∀ x ∈ fs, x.1 ≠ bp := by
    intro x hx he
    have h1 := hapart x hx
    have h2 := h.pos x hx
    simp only [Apart] at h1
    omega
  obtain ⟨as,bs,rfl,hseek,hlt,habove⟩ := h.seek hf hb hne
  obtain ⟨hseg,hpath⟩ := (path_append base base as bs).mp h.path
  obtain ⟨hptr,hbody⟩ := (path_body _ base bs).mp hpath
  have hgap := gapped_insert h.gapped hapart hpos h.pos
  have hnd := h.nodup
  generalize hx : (bp,(mem bp).size) = x at *
  have hx1 : x.1 = bp := by rw [← hx]
  have hx2 : x.2 = (mem bp).size := by rw [← hx]
  refine ⟨joinBelow (joinAbove mem bp (lastAddr base as)) bp (lastAddr base as),lastAddr base as,
    ?_,?_,?_,?_⟩
  · simp only [AllocMachine.free,Nat.add_sub_cancel,hseek]
  · have hbody₁ : Body (joinAbove mem bp (lastAddr base as)) base (glue x bs) := by
      rw [joinAbove_eq,hptr,← hx]
      exact body_glue hbody (fun y hy => Nat.ne_of_gt (habove y hy)) (by omega)
    have hhead : headAddr base (glue x bs) = bp := by rw [headAddr_glue,hx1]
    have hother : ∀ u, u ≠ bp → joinAbove mem bp (lastAddr base as) u = mem u := fun u hu =>
      attach_other hu
    have hrange : ∀ y ∈ insertBlock x (as++bs), base < y.1 ∧ y.1+y.2 ≤ brk := by
      apply forall_insert (P := fun y => base < y.1 ∧ y.1+y.2 ≤ brk) _ _ _ ⟨by omega,by omega⟩ h.range
      intro y z hy hz htouch
      dsimp only
      omega
    have hposs : ∀ y ∈ insertBlock x (as++bs), 0 < y.2 :=
      forall_insert (P := fun y => 0 < y.2) (fun _ _ h _ _ => Nat.add_pos_left h _) _ _ (by omega) h.pos
    suffices hp : Leads (joinBelow (joinAbove mem bp (lastAddr base as)) bp (lastAddr base as)) base
        (insertBlock x (as++bs)) base ∧
        (joinBelow (joinAbove mem bp (lastAddr base as)) bp (lastAddr base as) base).size = 0 from
      ⟨hp.1,hp.2,hgap,hposs,hrange⟩
    have hzero : (joinAbove mem bp (lastAddr base as) base).size = 0 := by
      rw [hother base (by omega)]
      exact h.zero
    cases as using List.reverseRecOn with
    | nil =>
      rw [List.nil_append,insertBlock_front fun y hy => by rw [hx1]; exact habove y hy] at hrange ⊢
      exact join_base hzero hb hbody₁ hhead fun y hy => Nat.ne_of_gt (hrange y hy).1
    | append_singleton as q _ =>
      have hlast : lastAddr base (as++[q]) = q.1 := by
        rw [lastAddr_append]
        rfl
      rw [hlast] at hlt hbody₁ hother hzero ⊢
      obtain ⟨hup,hq⟩ := (seg_snoc base as q).mp hseg
      have hmem : q ∈ as++[q]++bs := by simp
      have hg := h.gapped
      rw [List.append_assoc,List.singleton_append] at hg
      have hins : insertBlock x (as++[q]++bs) = as++glue q (glue x bs) := by
        rw [List.append_assoc,List.singleton_append]
        exact insertBlock_after hg (by omega) fun y hy => by rw [hx1]; exact habove y hy
      have hqb : q.1 ≠ bp := by omega
      have hasq : ∀ y ∈ as, y.1 < q.1 := by
        intro y hy
        rw [Gapped,List.pairwise_append] at hg
        have := hg.2.2 y hy q List.mem_cons_self
        simp only [Below] at this
        omega
      have hup₁ : Leads (joinAbove mem bp q.1) base as q.1 :=
        path_congr (by rw [hother base (by omega)])
          (fun y hy => hother y.1 (by have := hasq y hy; omega)) hup
      have hpath₂ := join_block hup₁ (by rw [hother q.1 hqb]; exact hq) hbody₁ hhead
        (h.range q hmem).1 (fun y hy => Nat.ne_of_lt (hasq y hy))
        (forall_glue (P := fun y => y.1 ≠ q.1) (fun _ _ h _ _ => h) x bs (by omega)
          fun y hy => by have := habove y hy; omega)
      rw [hins]
      exact ⟨hpath₂.1,by rw [hpath₂.2]; exact hzero⟩
  · cases as using List.reverseRecOn with
    | nil => exact List.mem_cons_self
    | append_singleton as q _ =>
      have hg := h.gapped
      rw [List.append_assoc,List.singleton_append] at hg ⊢
      have hqlt : q.1 < x.1 := by
        rw [lastAddr_append] at hlt
        rw [hx1]
        exact hlt
      rw [insertBlock_after hg hqlt fun y hy => by rw [hx1]; exact habove y hy,lastAddr_append]
      refine List.mem_cons_of_mem base ?_
      rw [List.map_append]
      refine List.mem_append_right _ ?_
      obtain ⟨m,zs,hglue⟩ := glue_head q (glue x bs)
      rw [hglue]
      exact List.mem_cons_self
  · intro u hu hring
    have hp := lastAddr_mem base as
    rw [joinBelow_eq,attach_other,joinAbove_eq,attach_other hu]
    rintro rfl
    apply hring
    rw [List.map_append]
    rcases List.mem_cons.mp hp with hp|hp
    · rw [hp]
      exact List.mem_cons_self
    · exact List.mem_cons_of_mem base (List.mem_append_left _ hp)

/-- The search of `malloc` from `freep` finds the block after some block of the
ring, or there is none that is large enough. -/
theorem Ring.scan (h : Ring base brk mem fs) {f n : ℕ} (hf : f ∈ base::fs.map Prod.fst)
    (hn : 0 < n) :
    (∃ as x bs, fs = as++x::bs ∧ n ≤ x.2 ∧
      scan mem n f (brk+1) f = .found (lastAddr base as)) ∨
    ((∀ x ∈ fs, x.2 < n) ∧ scan mem n f (brk+1) f = .exhausted) := by
  obtain ⟨gs,hpath,hperm⟩ := path_rotate h.path h.zero hf
  have hlen : gs.length = fs.length := by simpa using hperm.length_eq
  have haddr : ∀ q, q ∈ f::gs.map Prod.fst ↔ q ∈ base::fs.map Prod.fst := by
    intro q
    simpa using (hperm.map Prod.fst).mem_iff (a := q)
  have hfresh : ∀ x ∈ gs, x.1 ≠ f := by
    have hnd : (f::gs.map Prod.fst).Nodup := by
      simpa using (hperm.map Prod.fst).nodup_iff.mpr h.nodup
    intro x hx he
    exact (List.nodup_cons.mp hnd).1 (he ▸ List.mem_map_of_mem hx)
  rcases scan_path n f (brk-gs.length) f gs hpath hfresh with ⟨q,hq,hsize,hscan⟩|⟨hall,hown,hscan⟩
  · left
    rw [Nat.sub_add_cancel (hlen ▸ h.length_le)] at hscan
    obtain ⟨as,bs,rfl,rfl⟩ := path_cut ((haddr q).mp hq)
    obtain ⟨-,hp⟩ := (path_append base base as bs).mp h.path
    cases bs with
    | nil =>
      -- the block after the top one is `base`, which has no room
      rw [show (mem (lastAddr base as)).ptr = base from hp,h.zero] at hsize
      omega
    | cons x bs =>
      rw [hp.1,hp.2.1] at hsize
      exact ⟨as,x,bs,rfl,hsize,hscan⟩
  · right
    rw [Nat.sub_add_cancel (hlen ▸ h.length_le)] at hscan
    refine ⟨fun x hx => ?_,hscan⟩
    have hmem : x ∈ (f,(mem f).size)::gs := hperm.mem_iff.mpr (List.mem_cons_of_mem _ hx)
    rcases List.mem_cons.mp hmem with rfl|hmem
    · exact hown
    · exact hall x hmem

theorem Ring.around {as bs : List Block} {x : Block} (h : Ring base brk mem (as++x::bs)) :
    (∀ u ∈ base::as.map Prod.fst, u < x.1) ∧ (∀ y ∈ bs, x.1+x.2 < y.1) ∧
      (base::as.map Prod.fst).Nodup ∧ ∀ y ∈ as, y.1+y.2 < x.1 := by
  have hg := h.gapped
  rw [Gapped,List.pairwise_append] at hg
  obtain ⟨-,hgx,hcross⟩ := hg
  have hbelow : ∀ y ∈ as, y.1+y.2 < x.1 := fun y hy => hcross y hy x List.mem_cons_self
  refine ⟨fun u hu => ?_,(List.pairwise_cons.mp hgx).1,?_,hbelow⟩
  · rcases List.mem_cons.mp hu with rfl|hu
    · exact (h.range x (by simp)).1
    · obtain ⟨y,hy,rfl⟩ := List.mem_map.mp hu
      have := hbelow y hy
      omega
  · have hnd := h.nodup
    rw [List.map_append,← List.cons_append] at hnd
    exact (List.nodup_append.mp hnd).1

theorem Ring.take_whole {as bs : List Block} {x : Block} (h : Ring base brk mem (as++x::bs)) :
    ∃ mem', AllocMachine.take mem x.2 (lastAddr base as) =
        (⟨mem',some (lastAddr base as)⟩,x.1) ∧
      Ring base brk mem' (as++bs) ∧ (mem' x.1).size = x.2 ∧
      ∀ u, u ∉ base::(as++bs).map Prod.fst → mem' u = mem u := by
  obtain ⟨hseg,hptr,hsize,hbs⟩ := (path_append base base as (x::bs)).mp h.path
  obtain ⟨hlow,hhigh,hnd,-⟩ := h.around
  have hlast := lastAddr_mem base as
  have hlt := hlow _ hlast
  refine ⟨Function.update mem (lastAddr base as) ⟨(mem x.1).ptr,(mem (lastAddr base as)).size⟩,
    ?_,⟨?_,?_,?_,?_,?_⟩,?_,?_⟩
  · rw [AllocMachine.take,hptr,if_pos hsize]
  · refine (path_append base base as bs).mpr ⟨seg_redirect hnd (fun u _ hu => ?_) ?_ hseg,?_⟩
    · exact Function.update_of_ne hu _ _
    · rw [Function.update_self]
    · refine path_congr (p := x.1) (by rw [Function.update_self]) (fun y hy => ?_) hbs
      have := hhigh y hy
      exact Function.update_of_ne (by omega) _ _
  · by_cases hb : base = lastAddr base as
    · rw [← hb,Function.update_self]
      exact h.zero
    · rw [Function.update_of_ne hb]
      exact h.zero
  · exact List.Pairwise.sublist ((List.Sublist.refl as).append (List.sublist_cons_self x bs)) h.gapped
  · exact fun y hy => h.pos y (by simp only [List.mem_append,List.mem_cons] at hy ⊢; tauto)
  · exact fun y hy => h.range y (by simp only [List.mem_append,List.mem_cons] at hy ⊢; tauto)
  · rw [Function.update_of_ne (by omega)]
    exact hsize
  · intro u hu
    apply Function.update_of_ne
    rintro rfl
    apply hu
    rw [List.map_append,← List.cons_append]
    exact List.mem_append_left _ hlast

theorem Ring.take_end {as bs : List Block} {x : Block} {n : ℕ} (h : Ring base brk mem (as++x::bs))
    (hn : 0 < n) (hx : n < x.2) :
    ∃ mem', AllocMachine.take mem n (lastAddr base as) =
        (⟨mem',some (lastAddr base as)⟩,x.1+(x.2-n)) ∧
      Ring base brk mem' (as++(x.1,x.2-n)::bs) ∧ (mem' (x.1+(x.2-n))).size = n ∧
      ∀ u, u ≠ x.1+(x.2-n) → u ∉ base::(as++x::bs).map Prod.fst → mem' u = mem u := by
  obtain ⟨hseg,hptr,hsize,hbs⟩ := (path_append base base as (x::bs)).mp h.path
  obtain ⟨hlow,hhigh,hnd,hbelow⟩ := h.around
  have hlast := lastAddr_mem base as
  have hlt := hlow _ hlast
  have hbase := hlow base List.mem_cons_self
  obtain ⟨mem',hmem'⟩ : ∃ mem', mem' = Function.update (Function.update mem x.1
      ⟨(mem x.1).ptr,x.2-n⟩) (x.1+(x.2-n)) ⟨(mem (x.1+(x.2-n))).ptr,n⟩ := ⟨_,rfl⟩
  have hself : mem' x.1 = ⟨(mem x.1).ptr,x.2-n⟩ := by
    rw [hmem',Function.update_of_ne (by omega),Function.update_self]
  have hother : ∀ u, u ≠ x.1 → u ≠ x.1+(x.2-n) → mem' u = mem u := by
    intro u hu hu'
    rw [hmem',Function.update_of_ne hu',Function.update_of_ne hu]
  refine ⟨mem',?_,⟨?_,?_,?_,?_,?_⟩,?_,?_⟩
  · have hne : x.1+(x.2-n) ≠ x.1 := by omega
    rw [AllocMachine.take,hptr,hsize,if_neg (by omega),hmem']
    simp only [Function.update_self,Function.update_of_ne hne]
  · refine (path_append base base as _).mpr ⟨seg_redirect hnd (fun u hu _ => ?_) ?_ hseg,?_,?_,?_⟩
    · have := hlow u hu
      exact hother u (by omega) (by omega)
    · rw [hother _ (by omega) (by omega)]
    · rw [hother _ (by omega) (by omega)]
      exact hptr
    · rw [hself]
    · refine path_congr (p := x.1) (by rw [hself]) (fun y hy => ?_) hbs
      have := hhigh y hy
      exact hother y.1 (by omega) (by omega)
  · rw [hother base (by omega) (by omega)]
    exact h.zero
  · have hg := h.gapped
    rw [Gapped,List.pairwise_append] at hg ⊢
    obtain ⟨hgas,hgx,hcross⟩ := hg
    refine ⟨hgas,List.pairwise_cons.mpr ⟨fun y hy => ?_,(List.pairwise_cons.mp hgx).2⟩,fun y hy z hz => ?_⟩
    · have := hhigh y hy
      simp only [Below]
      omega
    · rcases List.mem_cons.mp hz with rfl|hz
      · exact hbelow y hy
      · exact hcross y hy z (List.mem_cons_of_mem x hz)
  · intro y hy
    rcases List.mem_append.mp hy with hy|hy
    · exact h.pos y (List.mem_append_left _ hy)
    · rcases List.mem_cons.mp hy with rfl|hy
      · show 0 < x.2-n
        omega
      · exact h.pos y (by simp [hy])
  · intro y hy
    have hxr := h.range x (by simp)
    rcases List.mem_append.mp hy with hy|hy
    · exact h.range y (List.mem_append_left _ hy)
    · rcases List.mem_cons.mp hy with rfl|hy
      · exact ⟨hxr.1,by dsimp only; omega⟩
      · exact h.range y (by simp [hy])
  · rw [hmem',Function.update_self]
  · intro u hu hring
    refine hother u (fun he => hring ?_) hu
    rw [he]
    simp

theorem Ring.take {as bs : List Block} {x : Block} {n : ℕ} (h : Ring base brk mem (as++x::bs))
    (hn : 0 < n) (hx : n ≤ x.2) :
    ∃ mem', AllocMachine.take mem n (lastAddr base as) =
        (⟨mem',some (lastAddr base as)⟩,(cut n x).1) ∧
      Ring base brk mem' (as++rest n x++bs) ∧ (mem' (cut n x).1).size = n ∧
      ∀ u, u ≠ (cut n x).1 → u ∉ base::(as++x::bs).map Prod.fst → mem' u = mem u := by
  rcases Nat.lt_or_eq_of_le hx with hx|rfl
  · obtain ⟨mem',htake,hring,hsize,hframe⟩ := h.take_end hn hx
    have hr : as++rest n x++bs = as++(x.1,x.2-n)::bs := by
      simp [rest,Nat.ne_of_gt hx]
    exact ⟨mem',htake,by rw [hr]; exact hring,hsize,hframe⟩
  · obtain ⟨mem',htake,hring,hsize,hframe⟩ := h.take_whole
    have hc : (cut x.2 x).1 = x.1 := by simp [cut]
    have hr : as++rest x.2 x++bs = as++bs := by simp [rest]
    refine ⟨mem',by rw [hc]; exact htake,by rw [hr]; exact hring,by rw [hc]; exact hsize,
      fun u hu hnot => hframe u fun hmem => hnot ?_⟩
    simp only [List.map_append,List.map_cons,List.mem_cons,List.mem_append] at hmem ⊢
    tauto

end ListlibSyscalls.AllocRing
