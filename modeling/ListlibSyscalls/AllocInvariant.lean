import ListlibSyscalls.AllocRing

/-!
# What `malloc` and `free` keep

The blocks that are handed out and the free blocks never share a unit, and the
headers of both are where the allocator left them, whatever the program stores
in its own blocks. All memory that `sbrk` ever gave is in one or the other.
-/

set_option autoImplicit false

namespace ListlibSyscalls.AllocInvariant
open StepRuns GappedBlocks AllocMachine AllocPaths AllocRing

/-- Free blocks and blocks handed out, in the memory from `lo` to `brk`. -/
structure Placed (base lo brk : ℕ) (mem : ℕ → Header) (fs : List Block) (live : List Grant) :
    Prop where
  ring : Ring base brk mem fs
  above : ∀ x ∈ fs, lo ≤ x.1
  apart : live.Pairwise fun g g' => Apart g.block g'.block
  cross : ∀ x ∈ fs, ∀ g ∈ live, Apart x g.block
  header : ∀ g ∈ live, (mem g.addr).size = g.size
  shape : ∀ g ∈ live, g.size = nunits g.nbytes ∧ lo ≤ g.addr ∧ g.addr+g.size ≤ brk

theorem nunits_pos (nbytes : ℕ) : 0 < nunits nbytes := Nat.succ_pos _

section Placed

variable {base lo brk : ℕ} {mem : ℕ → Header} {fs : List Block} {live : List Grant}

theorem Placed.size_pos (h : Placed base lo brk mem fs live) {g : Grant} (hg : g ∈ live) :
    0 < g.size := by
  rw [(h.shape g hg).1]
  exact nunits_pos _

theorem Placed.not_ring (h : Placed base lo brk mem fs live) (hlo : base < lo) {g : Grant}
    (hg : g ∈ live) : g.addr ∉ base::fs.map Prod.fst := by
  intro hm
  have hs := h.shape g hg
  rcases List.mem_cons.mp hm with he|hm
  · omega
  · obtain ⟨x,hx,hxa⟩ := List.mem_map.mp hm
    have h1 := h.cross x hx g hg
    have h2 := h.ring.pos x hx
    have h3 := h.size_pos hg
    simp only [Apart,Grant.block] at h1
    omega

theorem Placed.put (h : Placed base lo brk mem fs live) (hlo : base < lo) {f bp : ℕ}
    (hf : f ∈ base::fs.map Prod.fst) (hb : lo ≤ bp) (hpos : 0 < (mem bp).size)
    (hend : bp+(mem bp).size ≤ brk) (hfs : ∀ y ∈ fs, Apart (bp,(mem bp).size) y)
    (hlive : ∀ g ∈ live, Apart (bp,(mem bp).size) g.block) :
    ∃ mem' p, free (brk+1) ⟨mem,some f⟩ (bp+1) = some ⟨mem',some p⟩ ∧
      Placed base lo brk mem' (insertBlock (bp,(mem bp).size) fs) live ∧
      p ∈ base::(insertBlock (bp,(mem bp).size) fs).map Prod.fst := by
  obtain ⟨mem',p,hfree,hring,hp,hframe⟩ := h.ring.free hf (by omega) hpos hend hfs
  refine ⟨mem',p,hfree,⟨hring,?_,h.apart,?_,?_,h.shape⟩,hp⟩
  · exact forall_insert (P := fun x => lo ≤ x.1) (fun _ _ h _ _ => h) _ _ hb h.above
  · intro x hx g hg
    have hgpos := h.size_pos hg
    refine forall_insert (P := fun y => Apart y g.block) (fun y z hy hz ht => ?_) _ _ (hlive g hg)
      (fun y hy => h.cross y hy g hg) x hx
    simp only [Apart,Grant.block] at hy hz ⊢
    omega
  · intro g hg
    rw [hframe g.addr _ (h.not_ring hlo hg)]
    · exact h.header g hg
    · intro he
      have h1 := hlive g hg
      have h2 := h.size_pos hg
      simp only [Apart,Grant.block] at h1
      omega

theorem Placed.grant {as bs : List Block} {x : Block} (h : Placed base lo brk mem (as++x::bs) live)
    (hlo : base < lo) (nbytes : ℕ) (hx : nunits nbytes ≤ x.2) :
    ∃ mem' a, take mem (nunits nbytes) (lastAddr base as) =
        (⟨mem',some (lastAddr base as)⟩,a) ∧
      Placed base lo brk mem' (as++rest (nunits nbytes) x++bs)
        (⟨a,nunits nbytes,nbytes⟩::live) ∧
      lastAddr base as ∈ base::(as++rest (nunits nbytes) x++bs).map Prod.fst := by
  have hn := nunits_pos nbytes
  generalize hN : nunits nbytes = n at *
  obtain ⟨mem',htake,hring,hsize,hframe⟩ := h.ring.take hn hx
  obtain ⟨-,hhigh,-,hbelow⟩ := h.ring.around
  have hrange := h.ring.range x (by simp)
  have hlox := h.above x (by simp)
  have hcut : (cut n x).1+n = x.1+x.2 ∧ x.1 ≤ (cut n x).1 := by
    simp only [cut]
    omega
  generalize (cut n x).1 = a at *
  -- the new block is a part of `x`, and so is what is left
  have hpart : ∀ g ∈ live, Apart x g.block := h.cross x (by simp)
  refine ⟨mem',a,htake,⟨hring,?_,?_,?_,?_,?_⟩,?_⟩
  · intro y hy
    rw [List.append_assoc,List.mem_append,List.mem_append] at hy
    rcases hy with hy|hy|hy
    · exact h.above y (by simp [hy])
    · rw [(mem_rest.mp hy).2]
      exact hlox
    · exact h.above y (by simp [hy])
  · refine List.pairwise_cons.mpr ⟨fun g hg => ?_,h.apart⟩
    have := hpart g hg
    simp only [Apart,Grant.block] at this ⊢
    omega
  · intro y hy g hg
    rw [List.append_assoc,List.mem_append,List.mem_append] at hy
    rcases List.mem_cons.mp hg with rfl|hg
    · simp only [Apart,Grant.block]
      rcases hy with hy|hy|hy
      · have := hbelow y hy
        omega
      · obtain ⟨hne,rfl⟩ := mem_rest.mp hy
        dsimp only
        omega
      · have := hhigh y hy
        omega
    · rcases hy with hy|hy|hy
      · exact h.cross y (by simp [hy]) g hg
      · obtain ⟨hne,rfl⟩ := mem_rest.mp hy
        have := hpart g hg
        simp only [Apart,Grant.block] at this ⊢
        omega
      · exact h.cross y (by simp [hy]) g hg
  · intro g hg
    rcases List.mem_cons.mp hg with rfl|hg
    · exact hsize
    · rw [hframe g.addr _ (h.not_ring hlo hg)]
      · exact h.header g hg
      · intro he
        have h1 := hpart g hg
        have h2 := h.size_pos hg
        simp only [Apart,Grant.block] at h1
        omega
  · intro g hg
    rcases List.mem_cons.mp hg with rfl|hg
    · exact ⟨hN.symm,by dsimp only; omega,by dsimp only; omega⟩
    · exact h.shape g hg
  · rw [List.append_assoc,List.map_append,← List.cons_append]
    exact List.mem_append_left _ (lastAddr_mem base as)

theorem Placed.drop (h : Placed base lo brk mem fs live) {g : Grant} (hg : g ∈ live) :
    Placed base lo brk mem fs (live.filter fun g' => g'.addr+1 ≠ g.addr+1) ∧
      (∀ g' ∈ live.filter fun g' => g'.addr+1 ≠ g.addr+1, Apart g.block g'.block) ∧
      units (live.map Grant.block) =
        g.size+units ((live.filter fun g' => g'.addr+1 ≠ g.addr+1).map Grant.block) := by
  have hsub : ∀ g' ∈ live.filter fun g' => g'.addr+1 ≠ g.addr+1, g' ∈ live := fun g' h' =>
    List.mem_of_mem_filter h'
  obtain ⟨as,bs,rfl⟩ := List.append_of_mem hg
  have hapart := h.apart
  rw [List.pairwise_append] at hapart
  obtain ⟨-,hgb,hab⟩ := hapart
  have hleft : ∀ g' ∈ as, Apart g.block g'.block := fun g' h' =>
    (hab g' h' g List.mem_cons_self).symm
  have hright : ∀ g' ∈ bs, Apart g.block g'.block := (List.pairwise_cons.mp hgb).1
  have hne : ∀ g' ∈ as++g::bs, Apart g.block g'.block → g'.addr+1 ≠ g.addr+1 := by
    intro g' h' hap he
    have h1 := h.size_pos h'
    have h2 := h.size_pos hg
    simp only [Apart,Grant.block] at hap
    omega
  have hfilter : ((as++g::bs).filter fun g' => g'.addr+1 ≠ g.addr+1) = as++bs := by
    rw [List.filter_append,List.filter_cons_of_neg (by simp),List.filter_eq_self.mpr,
      List.filter_eq_self.mpr]
    · intro g' h'
      simpa using hne g' (by simp [h']) (hright g' h')
    · intro g' h'
      simpa using hne g' (by simp [h']) (hleft g' h')
  refine ⟨⟨h.ring,h.above,h.apart.filter _,fun x hx g' h' => h.cross x hx g' (hsub g' h'),
    fun g' h' => h.header g' (hsub g' h'),fun g' h' => h.shape g' (hsub g' h')⟩,?_,?_⟩
  · rw [hfilter]
    intro g' h'
    rcases List.mem_append.mp h' with h'|h'
    · exact hleft g' h'
    · exact hright g' h'
  · rw [hfilter]
    simp only [List.map_append,List.map_cons,units_append,units_cons,Grant.block]
    omega

end Placed

end ListlibSyscalls.AllocInvariant
