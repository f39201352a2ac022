import ListlibSyscalls.AllocMachine
import Mathlib.Data.List.Induction

/-!
# The circular list of free blocks

The free blocks hang from `base` in the order of their addresses and the last
one points back to it. A path is a part of this ring; cutting it at one of its
blocks gives a segment that leads there and the path from there on. The loops
of `free` and `malloc` go once round the ring, from wherever `freep` stands.
-/

set_option autoImplicit false

namespace ListlibSyscalls.AllocPaths
open GappedBlocks AllocMachine

/-- The pointers from `p` lead through the blocks to `t`. -/
def Leads (mem : ℕ → Header) : ℕ → List Block → ℕ → Prop
  | p, [], t => (mem p).ptr = t
  | p, x::fs, t => (mem p).ptr = x.1 ∧ (mem x.1).size = x.2 ∧ Leads mem x.1 fs t

/-- A path without the pointer of its last block. -/
def Seg (mem : ℕ → Header) : ℕ → List Block → Prop
  | _, [] => True
  | p, x::fs => (mem p).ptr = x.1 ∧ (mem x.1).size = x.2 ∧ Seg mem x.1 fs

def lastAddr : ℕ → List Block → ℕ
  | p, [] => p
  | _, x::fs => lastAddr x.1 fs

section Paths

variable {mem mem' : ℕ → Header}

theorem path_append (p t : ℕ) (as bs : List Block) :
    Leads mem p (as++bs) t ↔ Seg mem p as ∧ Leads mem (lastAddr p as) bs t := by
  induction as generalizing p with
  | nil => simp [Seg,lastAddr]
  | cons x as ih => simp [Leads,Seg,lastAddr,ih,and_assoc]

theorem lastAddr_append (p : ℕ) (as bs : List Block) :
    lastAddr p (as++bs) = lastAddr (lastAddr p as) bs := by
  induction as generalizing p with
  | nil => rfl
  | cons x as ih => exact ih x.1

theorem lastAddr_mem (p : ℕ) (as : List Block) : lastAddr p as ∈ p::as.map Prod.fst := by
  induction as generalizing p with
  | nil => simp [lastAddr]
  | cons x as ih =>
    rw [lastAddr,List.map_cons]
    exact List.mem_cons_of_mem p (ih x.1)

/-- Only the pointer of the start is read, so the start may change. -/
theorem path_congr {p p' t : ℕ} {fs : List Block} (hp : (mem' p').ptr = (mem p).ptr)
    (h : ∀ x ∈ fs, mem' x.1 = mem x.1) (hpath : Leads mem p fs t) : Leads mem' p' fs t := by
  induction fs generalizing p p' with
  | nil => exact hp.trans hpath
  | cons x fs ih =>
    have hx := h x List.mem_cons_self
    refine ⟨hp.trans hpath.1,by rw [hx]; exact hpath.2.1,ih (by rw [hx]) (fun y hy => ?_) hpath.2.2⟩
    exact h y (List.mem_cons_of_mem x hy)

theorem seg_redirect {p : ℕ} {as : List Block} (hnd : (p::as.map Prod.fst).Nodup)
    (hm : ∀ u ∈ p::as.map Prod.fst, u ≠ lastAddr p as → mem' u = mem u)
    (hs : (mem' (lastAddr p as)).size = (mem (lastAddr p as)).size) (h : Seg mem p as) :
    Seg mem' p as := by
  induction as generalizing p with
  | nil => trivial
  | cons x as ih =>
    obtain ⟨hp,hnd⟩ := List.nodup_cons.mp hnd
    have hne : p ≠ lastAddr x.1 as := fun he => hp (he ▸ lastAddr_mem x.1 as)
    have hx : (mem' x.1).size = (mem x.1).size := by
      by_cases hl : x.1 = lastAddr x.1 as
      · rw [hl]
        exact hs
      · rw [hm x.1 (by simp) hl]
    refine ⟨by rw [hm p List.mem_cons_self hne]; exact h.1,hx.trans h.2.1,?_⟩
    exact ih hnd (fun u hu hul => hm u (List.mem_cons_of_mem p hu) hul) hs h.2.2

theorem path_cut {p r : ℕ} {fs : List Block} (hr : r ∈ p::fs.map Prod.fst) :
    ∃ as bs, fs = as++bs ∧ lastAddr p as = r := by
  induction fs generalizing p with
  | nil => exact ⟨[],[],rfl,by simpa [lastAddr,eq_comm] using hr⟩
  | cons x fs ih =>
    rcases List.mem_cons.mp hr with rfl|hr
    · exact ⟨[],x::fs,rfl,rfl⟩
    · obtain ⟨as,bs,hfs,hlast⟩ := ih hr
      exact ⟨x::as,bs,by rw [hfs,List.cons_append],hlast⟩

end Paths

def Stop (mem : ℕ → Header) (bp p : ℕ) : Prop :=
  (p < bp ∧ bp < (mem p).ptr) ∨ ((mem p).ptr ≤ p ∧ (p < bp ∨ bp < (mem p).ptr))

theorem seek_stop {mem : ℕ → Header} {bp p : ℕ} (k : ℕ) (h : Stop mem bp p) :
    seek mem bp (k+1) p = some p := by
  rw [seek]
  rcases h with h|h
  · rw [if_pos h]
  · rw [if_pos h,ite_self]

theorem seek_next {mem : ℕ → Header} {bp p : ℕ} (k : ℕ) (h : ¬ Stop mem bp p) :
    seek mem bp (k+1) p = seek mem bp k (mem p).ptr := by
  rw [Stop,not_or] at h
  rw [seek,if_neg h.1,if_neg h.2]

theorem seek_path {mem : ℕ → Header} (bp k p t : ℕ) (fs : List Block) (h : Leads mem p fs t)
    (hs : ∃ q ∈ p::fs.map Prod.fst, Stop mem bp q) :
    ∃ q ∈ p::fs.map Prod.fst, Stop mem bp q ∧ seek mem bp (k+fs.length+1) p = some q := by
  induction fs generalizing p with
  | nil =>
    obtain ⟨q,hq,hstop⟩ := hs
    obtain rfl : q = p := by simpa using hq
    exact ⟨q,List.mem_cons_self,hstop,seek_stop _ hstop⟩
  | cons x fs ih =>
    by_cases hp : Stop mem bp p
    · exact ⟨p,List.mem_cons_self,hp,seek_stop _ hp⟩
    · obtain ⟨q,hq,hstop⟩ := hs
      have hq' : q ∈ x.1::fs.map Prod.fst := by
        rcases List.mem_cons.mp hq with rfl|hq
        · exact absurd hstop hp
        · exact hq
      obtain ⟨r,hr,hrstop,hseek⟩ := ih x.1 h.2.2 ⟨q,hq',hstop⟩
      refine ⟨r,List.mem_cons_of_mem p hr,hrstop,?_⟩
      rw [seek_next _ hp,h.1]
      exact hseek

/-- Going up in addresses and back to the bottom, one block is the one to stop at. -/
theorem stop_exists {mem : ℕ → Header} (bp p base : ℕ) (fs : List Block) (h : Leads mem p fs base)
    (hp : p < bp) (hb : base ≤ p) (hfs : ∀ x ∈ fs, x.1 ≠ bp ∧ base ≤ x.1) :
    ∃ q ∈ p::fs.map Prod.fst, Stop mem bp q := by
  induction fs generalizing p with
  | nil =>
    refine ⟨p,List.mem_cons_self,.inr ⟨?_,.inl hp⟩⟩
    rw [show (mem p).ptr = base from h]
    exact hb
  | cons x fs ih =>
    by_cases hx : bp < x.1
    · refine ⟨p,List.mem_cons_self,.inl ⟨hp,?_⟩⟩
      rw [h.1]
      exact hx
    · have hne := hfs x List.mem_cons_self
      obtain ⟨q,hq,hstop⟩ := ih x.1 h.2.2 (by omega) hne.2
        fun y hy => hfs y (List.mem_cons_of_mem x hy)
      exact ⟨q,List.mem_cons_of_mem p hq,hstop⟩

theorem scan_path {mem : ℕ → Header} (n f k p : ℕ) (fs : List Block) (h : Leads mem p fs f)
    (hf : ∀ x ∈ fs, x.1 ≠ f) :
    (∃ q ∈ p::fs.map Prod.fst, n ≤ (mem (mem q).ptr).size ∧
      scan mem n f (k+fs.length+1) p = .found q) ∨
    ((∀ x ∈ fs, x.2 < n) ∧ (mem f).size < n ∧ scan mem n f (k+fs.length+1) p = .exhausted) := by
  induction fs generalizing p with
  | nil =>
    have hptr : (mem p).ptr = f := h
    rw [scan,hptr]
    by_cases hn : n ≤ (mem f).size
    · rw [if_pos hn]
      exact .inl ⟨p,List.mem_cons_self,by rw [hptr]; exact hn,rfl⟩
    · rw [if_neg hn,if_pos rfl]
      exact .inr ⟨by simp,by omega,rfl⟩
  | cons x fs ih =>
    have hx : x.1 ≠ f := hf x List.mem_cons_self
    rw [scan,h.1,h.2.1]
    by_cases hn : n ≤ x.2
    · rw [if_pos hn]
      exact .inl ⟨p,List.mem_cons_self,by rw [h.1,h.2.1]; exact hn,rfl⟩
    · rw [if_neg hn,if_neg hx]
      rcases ih x.1 h.2.2 (fun y hy => hf y (List.mem_cons_of_mem x hy)) with
        ⟨q,hq,hsize,hscan⟩|⟨hall,hlast,hscan⟩
      · exact .inl ⟨q,List.mem_cons_of_mem p hq,hsize,hscan⟩
      · refine .inr ⟨fun y hy => ?_,hlast,hscan⟩
        rcases List.mem_cons.mp hy with rfl|hy
        · omega
        · exact hall y hy

theorem path_seg {mem : ℕ → Header} (p t : ℕ) (bs : List Block) :
    Leads mem p bs t ↔ Seg mem p bs ∧ (mem (lastAddr p bs)).ptr = t := by
  have h : Leads mem p (bs++[]) t ↔ _ := path_append p t bs []
  rwa [List.append_nil] at h

theorem seg_snoc {mem : ℕ → Header} (p : ℕ) (as : List Block) (x : Block) :
    Seg mem p (as++[x]) ↔ Leads mem p as x.1 ∧ (mem x.1).size = x.2 := by
  induction as generalizing p with
  | nil => simp [Seg,Leads]
  | cons y as ih => simp [Seg,Leads,ih,and_assoc]

/-- The ring from `base` is also a ring from any other of its blocks. -/
theorem path_rotate {mem : ℕ → Header} {base f : ℕ} {fs : List Block}
    (h : Leads mem base fs base) (hz : (mem base).size = 0)
    (hf : f ∈ base::fs.map Prod.fst) :
    ∃ gs, Leads mem f gs f ∧ ((f,(mem f).size)::gs).Perm ((base,0)::fs) := by
  obtain ⟨as,bs,rfl,hlast⟩ := path_cut hf
  obtain ⟨hseg,hpath⟩ := (path_append base base as bs).mp h
  rw [hlast] at hpath
  cases as using List.reverseRecOn with
  | nil =>
    obtain rfl : base = f := hlast
    exact ⟨bs,h,by rw [hz,List.nil_append]⟩
  | append_singleton as x _ =>
    rw [lastAddr_append] at hlast
    obtain rfl : x.1 = f := hlast
    obtain ⟨hup,hsize⟩ := (seg_snoc base as x).mp hseg
    obtain ⟨hdown,hptr⟩ := (path_seg x.1 base bs).mp hpath
    refine ⟨bs++(base,0)::as,?_,?_⟩
    · exact (path_append x.1 x.1 bs _).mpr ⟨hdown,hptr,hz,hup⟩
    · rw [hsize,List.append_assoc]
      have hswap : (x::bs++(base,0)::as).Perm ((base,0)::as++x::bs) := List.perm_append_comm
      simpa using hswap

def headAddr (t : ℕ) : List Block → ℕ
  | [] => t
  | y::_ => y.1

/-- The blocks of the list and the pointers between them. -/
def Body (mem : ℕ → Header) (t : ℕ) : List Block → Prop
  | [] => True
  | y::ys => (mem y.1).size = y.2 ∧ Leads mem y.1 ys t

theorem path_body {mem : ℕ → Header} (p t : ℕ) (bs : List Block) :
    Leads mem p bs t ↔ (mem p).ptr = headAddr t bs ∧ Body mem t bs := by
  cases bs with
  | nil => simp [Leads,headAddr,Body]
  | cons y ys => rfl

theorem body_congr {mem mem' : ℕ → Header} {t : ℕ} {bs : List Block}
    (h : ∀ x ∈ bs, mem' x.1 = mem x.1) (hb : Body mem t bs) : Body mem' t bs := by
  cases bs with
  | nil => trivial
  | cons y ys =>
    have hy := h y List.mem_cons_self
    refine ⟨by rw [hy]; exact hb.1,path_congr (by rw [hy]) (fun x hx => ?_) hb.2⟩
    exact h x (List.mem_cons_of_mem y hx)

def attach (mem : ℕ → Header) (r m head : ℕ) : ℕ → Header :=
  if r+m = head then Function.update mem r ⟨(mem head).ptr,m+(mem head).size⟩
  else Function.update mem r ⟨head,m⟩

theorem attach_other {mem : ℕ → Header} {r m head u : ℕ} (h : u ≠ r) :
    attach mem r m head u = mem u := by
  rw [attach]
  split <;> exact Function.update_of_ne h _ _

theorem joinAbove_eq (mem : ℕ → Header) (bp p : ℕ) :
    joinAbove mem bp p = attach mem bp (mem bp).size (mem p).ptr := rfl

theorem joinBelow_eq (mem : ℕ → Header) (bp p : ℕ) :
    joinBelow mem bp p = attach mem p (mem p).size bp := rfl

theorem headAddr_glue (t : ℕ) (x : Block) (bs : List Block) : headAddr t (glue x bs) = x.1 := by
  obtain ⟨m,zs,h⟩ := glue_head x bs
  rw [h]
  rfl

theorem body_glue {mem : ℕ → Header} {t r m : ℕ} {bs : List Block} (hb : Body mem t bs)
    (hr : ∀ y ∈ bs, y.1 ≠ r) (ht : r+m ≠ t) :
    Body (attach mem r m (headAddr t bs)) t (glue (r,m) bs) := by
  cases bs with
  | nil =>
    rw [headAddr,attach,if_neg ht]
    simp [glue,Body,Leads]
  | cons y ys =>
    have hold : ∀ x ∈ ys, attach mem r m y.1 x.1 = mem x.1 := fun x hx =>
      attach_other (hr x (List.mem_cons_of_mem y hx))
    rw [headAddr,glue]
    by_cases htouch : r+m = y.1
    · rw [if_pos htouch]
      have hself : attach mem r m y.1 r = ⟨(mem y.1).ptr,m+(mem y.1).size⟩ := by
        rw [attach,if_pos htouch,Function.update_self]
      refine ⟨by rw [hself,hb.1],path_congr (p := y.1) ?_ hold hb.2⟩
      rw [hself]
    · rw [if_neg htouch]
      have hself : attach mem r m y.1 r = ⟨y.1,m⟩ := by
        rw [attach,if_neg htouch,Function.update_self]
      have hy : attach mem r m y.1 y.1 = mem y.1 := attach_other (hr y List.mem_cons_self)
      refine ⟨by rw [hself],by rw [hself],by rw [hy]; exact hb.1,?_⟩
      exact path_congr (p := y.1) (by rw [hy]) hold hb.2

end ListlibSyscalls.AllocPaths
