import Mathlib.Data.List.Basic

/-!
# Runs of a labelled step relation

A step relation need not be total: a state may refuse a label. A sequence of
labels is followed as far as it is accepted, so a run that is refused has no
later states, and nothing is asserted about them. The three predicates
`Always`, `Each` and `Completes` speak about the states visited, the labels
offered in the states where they are offered, and acceptance of every label.
Steps that are functions may fail; the last lemmas peel a sequence of them.
-/

set_option autoImplicit false

namespace ListlibSyscalls.StepRuns

variable {σ β : Type*} (R : σ → β → σ → Prop)

inductive Reach (offered : σ → β → Prop) (init : σ) : σ → Prop
  | start : Reach offered init init
  | next {s : σ} {b : β} {s' : σ} : Reach offered init s → offered s b → R s b s' →
      Reach offered init s'

def Always (P : σ → Prop) : σ → List β → Prop
  | s, [] => P s
  | s, b::bs => P s ∧ ∀ s', R s b s' → Always P s' bs

def Each (Q : σ → β → Prop) : σ → List β → Prop
  | _, [] => True
  | s, b::bs => Q s b ∧ ∀ s', R s b s' → Each Q s' bs

def Completes : σ → List β → Prop
  | _, [] => True
  | s, b::bs => ∃ s', R s b s' ∧ Completes s' bs

variable {R}

/-- The invariant rule: what holds initially and survives every offered step
holds in every state reached. -/
theorem Reach.invariant {offered : σ → β → Prop} {init : σ} {I : σ → Prop} (h0 : I init)
    (hs : ∀ s b s', I s → offered s b → R s b s' → I s') {s : σ}
    (h : Reach R offered init s) : I s := by
  induction h with
  | start => exact h0
  | next _ hb hr ih => exact hs _ _ _ ih hb hr

theorem Reach.mono {offered offered' : σ → β → Prop} {init : σ}
    (hm : ∀ s b, offered s b → offered' s b) {s : σ} (h : Reach R offered init s) :
    Reach R offered' init s := by
  induction h with
  | start => exact .start
  | next _ hb hr ih => exact .next ih (hm _ _ hb) hr

inductive Run (R : σ → β → σ → Prop) (offered : σ → β → Prop) (init : σ) : List β → σ → Prop
  | start : Run R offered init [] init
  | next {bs : List β} {s : σ} {b : β} {s' : σ} : Run R offered init bs s → offered s b →
      R s b s' → Run R offered init (bs++[b]) s'

theorem Run.reach {offered : σ → β → Prop} {init s : σ} {bs : List β}
    (h : Run R offered init bs s) : Reach R offered init s := by
  induction h with
  | start => exact .start
  | next _ hb hr ih => exact .next ih hb hr

theorem Run.append {offered : σ → β → Prop} {init s s' : σ} {bs bs' : List β}
    (h : Run R offered init bs s) (h' : Run R offered s bs' s') :
    Run R offered init (bs++bs') s' := by
  induction h' with
  | start => rwa [List.append_nil]
  | next _ hb hr ih =>
    rw [← List.append_assoc]
    exact .next ih hb hr

theorem Run.single {offered : σ → β → Prop} {s s' : σ} {b : β} (hb : offered s b)
    (hr : R s b s') : Run R offered s [b] s' := .next .start hb hr

/-- A property equivalent to a condition on each single step, under an
invariant of all steps, holds along a run exactly when every step meets it. -/
theorem always_iff_each {O : σ → β → Prop} {I P : σ → Prop} {Q : σ → β → Prop}
    (hI : ∀ s b s', I s → O s b → R s b s' → I s')
    (hr : ∀ s b, I s → P s → O s b → (∀ s', ¬ R s b s') → Q s b)
    (hP : ∀ s b s', I s → P s → O s b → R s b s' → (P s' ↔ Q s b))
    (bs : List β) (s : σ) (hi : I s) (hp : P s) (ho : Each R O s bs) :
    Always R P s bs ↔ Each R Q s bs := by
  induction bs generalizing s with
  | nil => exact ⟨fun _ => trivial,fun _ => hp⟩
  | cons b bs ih =>
    constructor
    · rintro ⟨_,h⟩
      have hq : Q s b := by
        by_cases hx : ∃ s', R s b s'
        · obtain ⟨s',hx⟩ := hx
          have hs' : P s' := by
            cases bs with
            | nil => exact h s' hx
            | cons => exact (h s' hx).1
          exact (hP s b s' hi hp ho.1 hx).mp hs'
        · exact hr s b hi hp ho.1 (fun s' hs' => hx ⟨s',hs'⟩)
      refine ⟨hq,fun s' hs' => ?_⟩
      exact (ih s' (hI s b s' hi ho.1 hs') ((hP s b s' hi hp ho.1 hs').mpr hq)
        (ho.2 s' hs')).mp (h s' hs')
    · rintro ⟨hq,h⟩
      refine ⟨hp,fun s' hs' => ?_⟩
      exact (ih s' (hI s b s' hi ho.1 hs') ((hP s b s' hi hp ho.1 hs').mpr hq)
        (ho.2 s' hs')).mpr (h s' hs')

theorem completes_iff_each {O : σ → β → Prop} {I : σ → Prop} {Q : σ → β → Prop}
    (hd : ∀ s b s₁ s₂, R s b s₁ → R s b s₂ → s₁ = s₂)
    (hI : ∀ s b s', I s → O s b → R s b s' → I s')
    (hQ : ∀ s b, I s → O s b → ((∃ s', R s b s') ↔ Q s b))
    (bs : List β) (s : σ) (hi : I s) (ho : Each R O s bs) :
    Completes R s bs ↔ Each R Q s bs := by
  induction bs generalizing s with
  | nil => exact ⟨fun _ => trivial,fun _ => trivial⟩
  | cons b bs ih =>
    constructor
    · rintro ⟨s',hs',hc⟩
      refine ⟨(hQ s b hi ho.1).mp ⟨s',hs'⟩,fun t ht => ?_⟩
      rw [hd s b t s' ht hs']
      exact (ih s' (hI s b s' hi ho.1 hs') (ho.2 s' hs')).mp hc
    · rintro ⟨hq,h⟩
      obtain ⟨s',hs'⟩ := (hQ s b hi ho.1).mpr hq
      exact ⟨s',hs',(ih s' (hI s b s' hi ho.1 hs') (ho.2 s' hs')).mpr (h s' hs')⟩

theorem always_of_reach {offered : σ → β → Prop} {init : σ} {P : σ → Prop}
    (hP : ∀ s, Reach R offered init s → P s) (bs : List β) (s : σ)
    (hr : Reach R offered init s) (ho : Each R offered s bs) : Always R P s bs := by
  induction bs generalizing s with
  | nil => exact hP s hr
  | cons b bs ih => exact ⟨hP s hr,fun s' hs' => ih s' (hr.next ho.1 hs') (ho.2 s' hs')⟩

theorem each_of_reach {offered : σ → β → Prop} {init : σ} {Q : σ → β → Prop}
    (hQ : ∀ s b, Reach R offered init s → offered s b → Q s b) (bs : List β) (s : σ)
    (hr : Reach R offered init s) (ho : Each R offered s bs) : Each R Q s bs := by
  induction bs generalizing s with
  | nil => trivial
  | cons b bs ih =>
    exact ⟨hQ s b hr ho.1,fun s' hs' => ih s' (hr.next ho.1 hs') (ho.2 s' hs')⟩

theorem completes_of_reach {offered : σ → β → Prop} {init : σ}
    (hR : ∀ s b, Reach R offered init s → offered s b → ∃ s', R s b s') (bs : List β) (s : σ)
    (hr : Reach R offered init s) (ho : Each R offered s bs) : Completes R s bs := by
  induction bs generalizing s with
  | nil => trivial
  | cons b bs ih =>
    obtain ⟨s',hs'⟩ := hR s b hr ho.1
    exact ⟨s',hs',ih s' (hr.next ho.1 hs') (ho.2 s' hs')⟩

theorem each_of_forall {Q : σ → β → Prop} (h : ∀ s b, Q s b) (bs : List β) (s : σ) :
    Each R Q s bs := by
  induction bs generalizing s with
  | nil => trivial
  | cons b bs ih => exact ⟨h s b,fun s' _ => ih s'⟩

section Functional

variable {ε : Type*} {f : σ → β → Except ε σ}

def Accepts (f : σ → β → Except ε σ) (s : σ) (b : β) (s' : σ) : Prop := f s b = .ok s'

theorem accepts_deterministic (s : σ) (b : β) (s₁ s₂ : σ) (h₁ : Accepts f s b s₁)
    (h₂ : Accepts f s b s₂) : s₁ = s₂ :=
  Except.ok.inj (h₁.symm.trans h₂)

theorem forall_accepts_ok {s s' : σ} {b : β} (h : f s b = .ok s') (P : σ → Prop) :
    (∀ t, Accepts f s b t → P t) ↔ P s' := by
  constructor
  · intro hp
    exact hp s' h
  · intro hp t ht
    rw [accepts_deterministic s b t s' ht h]
    exact hp

theorem forall_accepts_error {s : σ} {b : β} {e : ε} (h : f s b = .error e) (P : σ → Prop) :
    ∀ t, Accepts f s b t → P t := by
  intro t ht
  rw [Accepts,h] at ht
  exact absurd ht (by simp)

def lastState (f : σ → β → Except ε σ) : σ → List β → σ
  | s, [] => s
  | s, b::bs =>
    match f s b with
    | .ok s' => lastState f s' bs
    | .error _ => s

theorem Reach.lastState {offered : σ → β → Prop} {init : σ} (bs : List β) (s : σ)
    (hr : Reach (Accepts f) offered init s) (ho : Each (Accepts f) offered s bs) :
    Reach (Accepts f) offered init (lastState f s bs) := by
  induction bs generalizing s with
  | nil => exact hr
  | cons b bs ih =>
    rw [StepRuns.lastState]
    split
    · next s' hs => exact ih s' (hr.next ho.1 hs) (ho.2 s' hs)
    · exact hr

/-- A run whose labels are all offered and accepted, by evaluation. -/
theorem Run.lastState {offered : σ → β → Prop} (bs : List β) (s : σ)
    (ho : Each (Accepts f) offered s bs) (hc : Completes (Accepts f) s bs) :
    Run (Accepts f) offered s bs (lastState f s bs) := by
  induction bs generalizing s with
  | nil => exact .start
  | cons b bs ih =>
    obtain ⟨s',hs',hc⟩ := hc
    rw [StepRuns.lastState,show f s b = .ok s' from hs']
    exact (Run.single ho.1 hs').append (ih s' (ho.2 s' hs') hc)

theorem Always.lastState {P : σ → Prop} (bs : List β) (s : σ) (h : Always (Accepts f) P s bs) :
    P (lastState f s bs) := by
  induction bs generalizing s with
  | nil => exact h
  | cons b bs ih =>
    rw [StepRuns.lastState]
    split
    · next s' hs => exact ih s' (h.2 s' hs)
    · exact h.1

def visits (f : σ → β → Except ε σ) : σ → List β → List σ
  | s, [] => [s]
  | s, b::bs =>
    match f s b with
    | .ok s' => s::visits f s' bs
    | .error _ => [s]

/-- A map of states under which one machine follows the other step by step
takes the runs of the one to the runs of the other. -/
theorem visits_map {τ : Type*} {g : τ → β → Except ε τ} (φ : σ → τ)
    (h : ∀ s b, g (φ s) b = (f s b).map φ) (bs : List β) (s : σ) :
    visits g (φ s) bs = (visits f s bs).map φ := by
  induction bs generalizing s with
  | nil => rfl
  | cons b bs ih =>
    rw [visits,visits,h s b]
    cases f s b with
    | ok s' =>
      show φ s::visits g (φ s') bs = (s::visits f s' bs).map φ
      rw [ih s',List.map_cons]
    | error e => rfl

instance decidableEach (Q : σ → β → Prop) [∀ s b, Decidable (Q s b)] :
    (s : σ) → (bs : List β) → Decidable (Each (Accepts f) Q s bs)
  | _, [] => isTrue trivial
  | s, b::bs =>
    match h : f s b with
    | .ok s' =>
      have := decidableEach Q s' bs
      decidable_of_iff (Q s b ∧ Each (Accepts f) Q s' bs)
        (and_congr_right fun _ => (forall_accepts_ok h (Each (Accepts f) Q · bs)).symm)
    | .error _ => decidable_of_iff (Q s b)
        ⟨fun hq => ⟨hq,forall_accepts_error h _⟩,fun hq => hq.1⟩

instance decidableAlways (P : σ → Prop) [∀ s, Decidable (P s)] :
    (s : σ) → (bs : List β) → Decidable (Always (Accepts f) P s bs)
  | s, [] => inferInstanceAs (Decidable (P s))
  | s, b::bs =>
    match h : f s b with
    | .ok s' =>
      have := decidableAlways P s' bs
      decidable_of_iff (P s ∧ Always (Accepts f) P s' bs)
        (and_congr_right fun _ => (forall_accepts_ok h (Always (Accepts f) P · bs)).symm)
    | .error _ => decidable_of_iff (P s)
        ⟨fun hq => ⟨hq,forall_accepts_error h _⟩,fun hq => hq.1⟩

instance decidableCompletes : (s : σ) → (bs : List β) → Decidable (Completes (Accepts f) s bs)
  | _, [] => isTrue trivial
  | s, b::bs =>
    match h : f s b with
    | .ok s' =>
      have := decidableCompletes s' bs
      decidable_of_iff (Completes (Accepts f) s' bs)
        ⟨fun hc => ⟨s',h,hc⟩,fun ⟨t,ht,hc⟩ => accepts_deterministic s b t s' ht h ▸ hc⟩
    | .error _ => isFalse fun ⟨t,ht,_⟩ => forall_accepts_error h (fun _ => False) t ht

end Functional

section Fallible

variable {ε ρ γ : Type}

@[simp] theorem ok_bind (b : ρ) (f : ρ → Except ε γ) : (Except.ok b >>= f) = f b := rfl

@[simp] theorem error_bind (e : ε) (f : ρ → Except ε γ) : (Except.error e >>= f) = .error e := rfl

theorem bind_ok {x : Except ε ρ} {f : ρ → Except ε γ} {c : γ} (h : (x >>= f) = .ok c) :
    ∃ b, x = .ok b ∧ f b = .ok c := by
  cases x with
  | error e => cases h
  | ok b => exact ⟨b,rfl,h⟩

end Fallible

end ListlibSyscalls.StepRuns
