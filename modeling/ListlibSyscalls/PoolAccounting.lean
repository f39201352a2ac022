import ListlibSyscalls.PoolOwnership

/-!
# Every node is either free or counted once

The free chain and the nodes handed out divide the node array, so the number
of successful insertions is what the free chain has lost, and the counts of
the lists add up to it. The first creation builds the free chain; before it
there is nothing to account for.
-/

set_option autoImplicit false

namespace ListlibSyscalls.PoolAccounting
open StepRuns LinkedChain PoolMachine PoolHistory PoolInvariant PoolReached PoolIndexSafety
open PoolOwnership

variable {α : Type}

/-- A finite free chain of exactly the nodes never handed out, no node handed
out twice, and three equal numbers. -/
def Accounted (cap : Capacity) (h : History α) : Prop :=
  ∃ xs, Walk (fun i => (h.pool.nodes i).link) (-1) h.pool.freeNodeHead xs (-1) ∧ xs.Nodup ∧
    (∀ i, i ∈ xs ↔ NodeIndex cap i ∧ i ∉ h.pool.returned) ∧
    h.pool.returned.Nodup ∧
    total cap h.pool.lists = h.inserted ∧
    (h.inserted:ℤ) = cap.maxNodes-xs.length

theorem divided_length {cap : Capacity} {xs ys : List ℤ} (hx : xs.Nodup) (hy : ys.Nodup)
    (hi : ∀ i ∈ ys, NodeIndex cap i) (hm : ∀ i, i ∈ xs ↔ NodeIndex cap i ∧ i ∉ ys) :
    xs.length+ys.length = cap.maxNodes := by
  have hn : (xs++ys).Nodup := by
    apply List.nodup_append.mpr
    refine ⟨hx,hy,?_⟩
    intro i hix j hj e
    exact ((hm i).mp hix).2 (e ▸ hj)
  rw [← List.length_append]
  apply covering_length hn
  intro i
  rw [List.mem_append,hm i]
  show (NodeIndex cap i ∧ i ∉ ys) ∨ i ∈ ys ↔ NodeIndex cap i
  by_cases hiy : i ∈ ys
  · simp [hiy,hi i hiy]
  · simp [hiy]

theorem owned_accounted {cap : Capacity} {h : History α} (hk : Kept cap h) (ho : Owned cap h) :
    Accounted cap h := by
  obtain ⟨xs,hw,hn,hm⟩ := hk.sound.free
  refine ⟨xs,hw,hn,hm,hk.sound.returned_nodup,ho.total,?_⟩
  have hl := divided_length hn hk.sound.returned_nodup hk.sound.returned_index hm
  have hi := hk.inserted
  omega

/-- Nothing is accounted for before the first creation builds the chains. -/
def AccountedOnceBuilt (cap : Capacity) (h : History α) : Prop :=
  h.created ≠ [] → Accounted cap h

theorem properlyReached_accounted {cap : Capacity} {h : History α}
    (hr : ProperlyReached cap h) : AccountedOnceBuilt cap h := by
  intro hc
  rcases properlyReached_owned hr with rfl | ⟨hk,ho⟩
  · exact absurd rfl hc
  · exact owned_accounted hk ho

theorem nodes_stay_accounted (cap : Capacity) (calls : List (Call α))
    (hp : Each (Steps cap) Proper History.start calls) :
    Always (Steps cap) (AccountedOnceBuilt cap) History.start calls :=
  always_of_reach (fun _ => properlyReached_accounted) calls _ .start hp

theorem nodes_stay_accounted_sharing : StaysInside shipped sharing ∧
    Always (Steps shipped) (AccountedOnceBuilt shipped) History.start sharing :=
  ⟨by decide,nodes_stay_accounted shipped sharing (by decide)⟩

end ListlibSyscalls.PoolAccounting
