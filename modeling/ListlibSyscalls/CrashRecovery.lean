import ListlibSyscalls.StepRuns
import Mathlib.Data.List.Nodup
import Mathlib.Logic.Function.Basic

/-!
# Redo logs and stores that change in groups

A redo log is a list of writes. Storing them again, over a store that already
has some of them, gives the same store, so a recovery may be interrupted and
repeated. The second part is the abstract store that a redo log implements:
operations change a volatile copy, the durable copy is replaced as a whole and
only between operations, and a crash falls back on the durable copy.
-/

set_option autoImplicit false

namespace ListlibSyscalls.CrashRecovery


variable {κ β : Type*} [DecidableEq κ]

def replay : List (κ × β) → (κ → β) → κ → β
  | [], d => d
  | (k,v)::ws, d => replay ws (Function.update d k v)

theorem replay_other (ws : List (κ × β)) (d : κ → β) (k : κ) (h : k ∉ ws.map Prod.fst) :
    replay ws d k = d k := by
  induction ws generalizing d with
  | nil => rfl
  | cons w ws ih =>
    rw [List.map_cons,List.mem_cons,not_or] at h
    rw [replay,ih _ h.2,Function.update_of_ne h.1]

/-- What the store held at a key of the log does not matter. -/
theorem replay_congr (ws : List (κ × β)) (d d' : κ → β) (k : κ)
    (h : k ∈ ws.map Prod.fst ∨ d k = d' k) : replay ws d k = replay ws d' k := by
  induction ws generalizing d d' with
  | nil => simpa [replay] using h
  | cons w ws ih =>
    obtain ⟨k₀,v⟩ := w
    rw [replay,replay]
    apply ih
    by_cases hk : k = k₀
    · right
      rw [hk,Function.update_self,Function.update_self]
    · rw [Function.update_of_ne hk,Function.update_of_ne hk]
      simpa [hk] using h

theorem replay_update (ws : List (κ × β)) (d : κ → β) (k₀ : κ) (v : β) (k : κ)
    (h : k₀ ∈ ws.map Prod.fst) : replay ws (Function.update d k₀ v) k = replay ws d k := by
  apply replay_congr
  by_cases hk : k = k₀
  · left
    rwa [hk]
  · right
    exact Function.update_of_ne hk v d

/-- A log that names every key at most once leaves its own value there. -/
theorem replay_mem (ws : List (κ × β)) (d : κ → β) (k : κ) (v : β)
    (hn : (ws.map Prod.fst).Nodup) (h : (k,v) ∈ ws) : replay ws d k = v := by
  induction ws generalizing d with
  | nil => simp at h
  | cons w ws ih =>
    rw [List.map_cons,List.nodup_cons] at hn
    rw [List.mem_cons] at h
    rw [replay]
    rcases h with rfl|h
    · rw [replay_other _ _ _ hn.1,Function.update_self]
    · exact ih _ hn.2 h

/-- The store behind a log: what would survive a crash, what the running
operations see, and how many operations are under way. -/
structure Store (κ β : Type*) where
  durable : κ → β
  volatile : κ → β
  active : ℕ

inductive Act (κ β : Type*) where
  | start
  | write (k : κ) (f : β → β)
  | finish
  | commit
  | crash

/-- The durable copy is replaced by the volatile one only when no operation is
under way, and then as a whole. -/
def Store.act (a : Store κ β) : Act κ β → Option (Store κ β)
  | .start => some { a with active := a.active+1 }
  | .write k f =>
    if a.active = 0 then none
    else some { a with volatile := Function.update a.volatile k (f (a.volatile k)) }
  | .finish => if a.active = 0 then none else some { a with active := a.active-1 }
  | .commit => if a.active = 0 then some { a with durable := a.volatile } else none
  | .crash => some ⟨a.durable,a.durable,0⟩

def Store.acts : Store κ β → List (Act κ β) → Option (Store κ β)
  | a, [] => some a
  | a, l::ls => (a.act l).bind fun a' => a'.acts ls

theorem Store.acts_append (a : Store κ β) (ls ls' : List (Act κ β)) :
    a.acts (ls++ls') = (a.acts ls).bind fun a' => a'.acts ls' := by
  induction ls generalizing a with
  | nil => rfl
  | cons l ls ih => cases h : a.act l <;> simp [Store.acts,h,ih]

/-- The actions its users see: all but the commits. -/
def Act.visible : Act κ β → Option (Act κ β)
  | .commit => none
  | l => some l

end ListlibSyscalls.CrashRecovery
