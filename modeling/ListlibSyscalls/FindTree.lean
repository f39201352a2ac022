import ListlibSyscalls.FindPaths

/-!
# Directory trees and what find should print for them

A tree is a file, a device or a directory with its slots in order: free ones,
"." and "..", and named entries. Its entries are listed depth first, each with
the names that lead to it. What should be printed is read off that list by a
filter. `lines` goes through the tree as the program does, and the two agree.
-/

set_option autoImplicit false

namespace ListlibSyscalls.FindTree
open UserStrings FindMachine FindPaths

structure Name where
  bytes : List Byte
  nonempty : bytes ≠ []
  short : bytes.length ≤ DIRSIZ
  noNul : nul ∉ bytes
  noSlash : slash ∉ bytes
  notDot : bytes ≠ [dot]
  notDots : bytes ≠ [dot,dot]

/-- A name as it stands in a dirent, padded but not terminated. -/
def padded (name : List Byte) : List Byte := name++List.replicate (DIRSIZ-name.length) nul

def Inum : Type := { i : BitVec 16 // i ≠ 0 }

mutual
inductive Tree where
  | file
  | device
  | dir (slots : Slots)
inductive Slots where
  | nil
  | free (name : List Byte) (size : name.length = DIRSIZ) (rest : Slots)
  | self (inum : Inum) (rest : Slots)
  | parent (inum : Inum) (rest : Slots)
  | entry (inum : Inum) (name : Name) (node : Tree) (rest : Slots)
end

def Tree.kind : Tree → Kind
  | .file => .file
  | .device => .device
  | .dir _ => .dir

theorem padded_length {name : List Byte} (h : name.length ≤ DIRSIZ) :
    (padded name).length = DIRSIZ := by
  rw [padded,List.length_append,List.length_replicate]
  omega

theorem text_padded {name : List Byte} (h : nul ∉ name) : text (padded name) = name := by
  cases hk : DIRSIZ-name.length with
  | zero =>
    rw [padded,hk,List.replicate_zero,List.append_nil]
    apply List.takeWhile_eq_self_iff.mpr
    intro c hc
    have hne : c ≠ nul := fun e => h (e ▸ hc)
    simpa using hne
  | succ k =>
    rw [padded,hk,List.replicate_succ]
    exact text_append_nul h _

def Slots.dirents : Slots → List Dirent
  | .nil => []
  | .free name size rest => ⟨0,name,size⟩::rest.dirents
  | .self inum rest => ⟨inum.val,padded [dot],padded_length (by decide)⟩::rest.dirents
  | .parent inum rest => ⟨inum.val,padded [dot,dot],padded_length (by decide)⟩::rest.dirents
  | .entry inum name _ rest => ⟨inum.val,padded name.bytes,padded_length name.short⟩::rest.dirents

mutual
/-- The entries below a node in depth-first order, with the names leading there. -/
def Tree.occurrences : Tree → List (List Name × Tree)
  | .file => []
  | .device => []
  | .dir slots => slots.occurrences
def Slots.occurrences : Slots → List (List Name × Tree)
  | .nil => []
  | .free _ _ rest => rest.occurrences
  | .self _ rest => rest.occurrences
  | .parent _ rest => rest.occurrences
  | .entry _ name node rest =>
    ([name],node)::node.occurrences.map (fun e => (name::e.1,e.2))++rest.occurrences
end

mutual
/-- The number of files that are open at once when the tree is searched. -/
def Tree.height : Tree → ℕ
  | .file => 1
  | .device => 1
  | .dir slots => slots.height+1
def Slots.height : Slots → ℕ
  | .nil => 0
  | .free _ _ rest => rest.height
  | .self _ rest => rest.height
  | .parent _ rest => rest.height
  | .entry _ _ node rest => max node.height rest.height
end

def render (start : List Byte) (ns : List Name) : List Byte :=
  start++ns.flatMap fun n => slash::n.bytes

/-- A regular file with the target's name, all of whose directories have paths
that leave room for a slash, a name and a NUL. -/
def Listed (start target : List Byte) (e : List Name × Tree) : Prop :=
  e.2.kind = .file ∧ e.1.getLast?.map Name.bytes = some target ∧
    ∀ j < e.1.length, (render start (e.1.take j)).length ≤ bufSize-16

instance (start target : List Byte) (e : List Name × Tree) : Decidable (Listed start target e) :=
  inferInstanceAs (Decidable (_ ∧ _ ∧ _))

def expected (start target : List Byte) (tree : Tree) : List (List Byte) :=
  (if tree.kind = .file ∧ afterSlash start = target then [start] else [])++
    (tree.occurrences.filter fun e => decide (Listed start target e)).map fun e => render start e.1

mutual
def Tree.lines (target : List Byte) : Tree → List Byte → List (List Byte)
  | .file, p => if afterSlash p = target then [p] else []
  | .device, _ => []
  | .dir slots, p => if p.length+1+DIRSIZ+1 ≤ bufSize then slots.lines target p else []
def Slots.lines (target : List Byte) : Slots → List Byte → List (List Byte)
  | .nil, _ => []
  | .free _ _ rest, p => rest.lines target p
  | .self _ rest, p => rest.lines target p
  | .parent _ rest, p => rest.lines target p
  | .entry _ name node rest, p => node.lines target (p++slash::name.bytes)++rest.lines target p
end

theorem fits_iff (n : ℕ) : n+1+DIRSIZ+1 ≤ bufSize ↔ n ≤ bufSize-16 := by
  simp only [DIRSIZ,bufSize]
  omega

theorem render_cons (start : List Byte) (n : Name) (ns : List Name) :
    render start (n::ns) = render (start++slash::n.bytes) ns := by
  simp [render]

mutual
theorem tree_occurrences_ne_nil (t : Tree) : ∀ e ∈ t.occurrences, e.1 ≠ [] := by
  cases t with
  | file => simp [Tree.occurrences]
  | device => simp [Tree.occurrences]
  | dir slots => exact slots_occurrences_ne_nil slots
theorem slots_occurrences_ne_nil (ss : Slots) : ∀ e ∈ ss.occurrences, e.1 ≠ [] := by
  cases ss with
  | nil => simp [Slots.occurrences]
  | free name size rest => exact slots_occurrences_ne_nil rest
  | self inum rest => exact slots_occurrences_ne_nil rest
  | parent inum rest => exact slots_occurrences_ne_nil rest
  | entry inum name node rest =>
    intro e he
    rcases List.mem_append.mp he with he | he
    · rcases List.mem_cons.mp he with rfl | he
      · simp
      · obtain ⟨e',_,rfl⟩ := List.mem_map.mp he
        simp
    · exact slots_occurrences_ne_nil rest e he
end

/-- What holds of the entries of a directory holds of those below its first
entry, of that entry and of those behind it. -/
theorem forall_occurrences_entry {P : List Name × Tree → Prop} {i : Inum} {n : Name} {t : Tree}
    {rest : Slots} (h : ∀ e ∈ (Slots.entry i n t rest).occurrences, P e) :
    (∀ e ∈ ([],t)::t.occurrences, P (n::e.1,e.2)) ∧ ∀ e ∈ rest.occurrences, P e := by
  rw [Slots.occurrences] at h
  constructor
  · intro e he
    apply h
    apply List.mem_append_left
    rcases List.mem_cons.mp he with rfl | he
    · exact List.mem_cons_self
    · apply List.mem_cons_of_mem
      exact List.mem_map.mpr ⟨e,he,rfl⟩
  · intro e he
    apply h
    exact List.mem_append_right _ he

theorem listed_single (p target : List Byte) (n : Name) (t : Tree)
    (hp : p.length ≤ bufSize-16) : Listed p target ([n],t) ↔ t.kind = .file ∧ n.bytes = target := by
  have hj : ∀ j < [n].length, (render p ([n].take j)).length ≤ bufSize-16 := by
    intro j hj
    have h0 : j = 0 := by simpa using hj
    simpa [h0,render] using hp
  simp only [Listed,List.getLast?_singleton,Option.map_some,Option.some.injEq]
  exact ⟨fun h => ⟨h.1,h.2.1⟩,fun h => ⟨h.1,h.2,hj⟩⟩

theorem listed_below (p target : List Byte) (n : Name) (e : List Name × Tree) (he : e.1 ≠ [])
    (hp : p.length ≤ bufSize-16) :
    Listed p target (n::e.1,e.2) ↔ Listed (p++slash::n.bytes) target e := by
  have hlast : (n::e.1).getLast? = e.1.getLast? := by
    rw [List.getLast?_cons]
    cases h : e.1.getLast? with
    | none => exact absurd (List.getLast?_eq_none_iff.mp h) he
    | some x => rfl
  simp only [Listed,hlast]
  refine and_congr_right fun _ => and_congr_right fun _ => ?_
  constructor
  · intro h j hj
    have hr := h (j+1) (by simpa using hj)
    rwa [List.take_succ_cons,render_cons] at hr
  · intro h j hj
    cases j with
    | zero => simpa [render] using hp
    | succ j =>
      rw [List.take_succ_cons,render_cons]
      exact h j (by simpa using hj)

theorem not_listed_long (p target : List Byte) (e : List Name × Tree) (he : e.1 ≠ [])
    (hp : bufSize-16 < p.length) : ¬ Listed p target e := by
  intro h
  have h0 := h.2.2 0 (List.length_pos_iff.mpr he)
  simp only [List.take_zero,render,List.flatMap_nil,List.append_nil] at h0
  omega

def listing (p target : List Byte) (es : List (List Name × Tree)) : List (List Byte) :=
  (es.filter fun e => decide (Listed p target e)).map fun e => render p e.1

theorem listing_append (p target : List Byte) (as bs : List (List Name × Tree)) :
    listing p target (as++bs) = listing p target as++listing p target bs := by
  simp [listing]

theorem listing_below (p target : List Byte) (n : Name) (es : List (List Name × Tree))
    (he : ∀ e ∈ es, e.1 ≠ []) (hp : p.length ≤ bufSize-16) :
    listing p target (es.map fun e => (n::e.1,e.2)) = listing (p++slash::n.bytes) target es := by
  induction es with
  | nil => rfl
  | cons e es ih =>
    have hiff := listed_below p target n e (he e (by simp)) hp
    have ih := ih (fun e' h => he e' (by simp [h]))
    simp only [listing,List.map_cons] at ih ⊢
    by_cases hl : Listed (p++slash::n.bytes) target e
    · rw [List.filter_cons_of_pos (by simpa using hiff.mpr hl),
        List.filter_cons_of_pos (by simpa using hl),List.map_cons,List.map_cons,ih,render_cons]
    · rw [List.filter_cons_of_neg (by simpa using fun h => hl (hiff.mp h)),
        List.filter_cons_of_neg (by simpa using hl),ih]

mutual
theorem tree_lines_eq (target : List Byte) (t : Tree) (p : List Byte) :
    t.lines target p = expected p target t := by
  cases t with
  | file => simp [Tree.lines,expected,Tree.kind,Tree.occurrences]
  | device => simp [Tree.lines,expected,Tree.kind,Tree.occurrences]
  | dir slots =>
    have hroot : ¬ ((Tree.dir slots).kind = .file ∧ afterSlash p = target) := fun h => by
      cases h.1
    rw [Tree.lines,expected,if_neg hroot,List.nil_append]
    by_cases hp : p.length+1+DIRSIZ+1 ≤ bufSize
    · rw [if_pos hp]
      exact slots_lines_eq target slots p ((fits_iff _).mp hp)
    · rw [if_neg hp]
      symm
      rw [List.map_eq_nil_iff,List.filter_eq_nil_iff]
      intro e he
      have hne := slots_occurrences_ne_nil slots e he
      have hlong : bufSize-16 < p.length := Nat.lt_of_not_le (fun h => hp ((fits_iff _).mpr h))
      simpa using not_listed_long p target e hne hlong
theorem slots_lines_eq (target : List Byte) (ss : Slots) (p : List Byte)
    (hp : p.length ≤ bufSize-16) : ss.lines target p = listing p target ss.occurrences := by
  cases ss with
  | nil => rfl
  | free name size rest => exact slots_lines_eq target rest p hp
  | self inum rest => exact slots_lines_eq target rest p hp
  | parent inum rest => exact slots_lines_eq target rest p hp
  | entry inum name node rest =>
    have hrest := slots_lines_eq target rest p hp
    have hnode := tree_lines_eq target node (p++slash::name.bytes)
    have hbelow := listing_below p target name node.occurrences (tree_occurrences_ne_nil node) hp
    have hone : listing p target [([name],node)] =
        if node.kind = .file ∧ afterSlash (p++slash::name.bytes) = target then
          [p++slash::name.bytes] else [] := by
      rw [afterSlash_append name.noSlash]
      simp only [listing,List.filter_singleton,listed_single p target name node hp]
      by_cases hc : node.kind = .file ∧ name.bytes = target
      · simp [hc,render]
      · simp [hc]
    have hcons : listing p target (([name],node)::node.occurrences.map
        (fun e => (name::e.1,e.2))) = expected (p++slash::name.bytes) target node := by
      rw [← List.singleton_append,listing_append,hbelow,hone]
      rfl
    rw [Slots.lines,Slots.occurrences,hnode,hrest,listing_append,hcons]
end

end ListlibSyscalls.FindTree
