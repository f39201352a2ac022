import ListlibSyscalls.UserStrings
import ListlibSyscalls.WordLanguages

/-!
# The matcher of grep

`match`, `matchhere` and `matchstar` of `grep.c` on NUL terminated strings. What a
pattern means is said apart from them, as a language: a pattern is read as a
sequence of characters and repetitions, with an anchor at either end, and a line
matches when it belongs to the language of the sequence. `match` is a keyword here,
so the function is `matchText`.
-/

set_option autoImplicit false

namespace ListlibSyscalls.GrepMatcher
open Computability UserStrings WordLanguages

def hat : Byte := 0x5e

def dollar : Byte := 0x24

def star : Byte := 0x2a

section Matcher

/-- The loop of `matchstar` and of `match`: `matchhere` at each position of the text,
as long as the character there lets it go on. -/
def scanWhile (here : List Byte → Except Fault Bool) (go : Byte → Bool) :
    List Byte → Except Fault Bool
  | [] => do
    if ← here [] then .ok true else .error .overrun
  | x::t => do
    if ← here (x::t) then .ok true
    else if x ≠ nul ∧ go x then scanWhile here go t
    else .ok false

def matchstar (here : List Byte → Except Fault Bool) (c : Byte) : List Byte → Except Fault Bool :=
  scanWhile here fun x => x = c ∨ c = dot

def matchhere : List Byte → List Byte → Except Fault Bool
  | [], _ => .error .overrun
  | [c], _ => if c = nul then .ok true else .error .overrun
  | c::d::re, t =>
    if c = nul then .ok true
    else if d = star then matchstar (matchhere re) c t
    else
      match t with
      | [] => .error .overrun
      | x::t =>
        if c = dollar ∧ d = nul then .ok (decide (x = nul))
        else if x ≠ nul ∧ (c = dot ∨ c = x) then matchhere (d::re) t
        else .ok false

def matchText : List Byte → List Byte → Except Fault Bool
  | [], _ => .error .overrun
  | c::re, t => if c = hat then matchhere re t else scanWhile (matchhere (c::re)) (fun _ => true) t

end Matcher

section Meaning

def Hits (c x : Byte) : Prop := c = dot ∨ c = x

inductive Item where
  | one (c : Byte)
  | many (c : Byte)
  deriving DecidableEq

structure Pattern where
  atStart : Bool
  items : List Item
  atEnd : Bool
  deriving DecidableEq

def Item.language : Item → Language Byte
  | .one c => letters (Hits c)
  | .many c => (letters (Hits c))∗

/-- What may stand beside the text, next to an anchor or without one. -/
def beside (anchored : Bool) : Language Byte := if anchored then 1 else ⊤

def beginning (items : List Item) (atEnd : Bool) : Language Byte :=
  (items.map Item.language).prod*beside atEnd

def Pattern.language (p : Pattern) : Language Byte :=
  beside p.atStart*beginning p.items p.atEnd

def Item.render : Item → List Byte
  | .one c => [c]
  | .many c => [c,star]

def renderItems (items : List Item) (atEnd : Bool) : List Byte :=
  items.flatMap Item.render++if atEnd then [dollar] else []

def Pattern.render (p : Pattern) : List Byte :=
  (if p.atStart then [hat] else [])++renderItems p.items p.atEnd

/-- The items of a pattern, and whether it ends in an anchor. -/
def readItems : List Byte → List Item × Bool
  | [] => ([],false)
  | [c] => if c = dollar then ([],true) else ([.one c],false)
  | c::d::re =>
    if d = star then (.many c::(readItems re).1,(readItems re).2)
    else (.one c::(readItems (d::re)).1,(readItems (d::re)).2)

def readPattern : List Byte → Pattern
  | [] => ⟨false,[],false⟩
  | c::re =>
    if c = hat then ⟨true,(readItems re).1,(readItems re).2⟩
    else ⟨false,(readItems (c::re)).1,(readItems (c::re)).2⟩

theorem render_readItems (re : List Byte) :
    renderItems (readItems re).1 (readItems re).2 = re := by
  induction re using readItems.induct with
  | case1 => rfl
  | case2 => rfl
  | case3 c hc => simp [readItems,hc,renderItems,Item.render]
  | case4 c re ih =>
    simp only [readItems,if_pos]
    rw [renderItems] at ih ⊢
    rw [List.flatMap_cons,List.append_assoc,ih]
    rfl
  | case5 c d re hd ih =>
    simp only [readItems,if_neg hd]
    rw [renderItems] at ih ⊢
    rw [List.flatMap_cons,List.append_assoc,ih]
    rfl

theorem render_readPattern (re : List Byte) : (readPattern re).render = re := by
  cases re with
  | nil => rfl
  | cons c re =>
    rw [readPattern]
    split
    · next hc =>
      rw [Pattern.render]
      simp [render_readItems,hc]
    · rw [Pattern.render]
      simp [render_readItems]

end Meaning

section Correctness

/-- On a string, `f` returns whether its text belongs to the language. -/
def Decides (f : List Byte → Except Fault Bool) (L : Language Byte) : Prop :=
  ∀ s y, nul ∉ s → ∃ b, f (s++nul::y) = .ok b ∧ (b = true ↔ s ∈ L)

variable {here : List Byte → Except Fault Bool} {L : Language Byte}

/-- A scan puts a repetition of letters in front of the language. -/
theorem scanWhile_decides (h : Decides here L) {go : Byte → Bool} {P : Byte → Prop}
    (hgo : ∀ x, go x = true ↔ P x) : Decides (scanWhile here go) ((letters P)∗*L) := by
  intro s y hs
  obtain ⟨b,hb,hiff⟩ := h s y hs
  induction s generalizing b with
  | nil =>
    refine ⟨b,?_,?_⟩
    · rw [List.nil_append] at hb ⊢
      rw [scanWhile,hb]
      cases b <;> simp [bind,Except.bind]
    · rw [mem_repeated_mul]
      simpa using hiff
  | cons x s ih =>
    have hx : x ≠ nul := fun hx => hs (by simp [hx])
    have hs' : nul ∉ s := fun hn => hs (List.mem_cons_of_mem x hn)
    rw [List.cons_append] at hb ⊢
    rw [scanWhile,hb,mem_repeated_mul]
    cases b with
    | true => exact ⟨true,rfl,by simp [hiff.mp rfl]⟩
    | false =>
      have hnot : x::s ∉ L := fun hmem => by simpa using hiff.mpr hmem
      by_cases hc : go x = true
      · obtain ⟨b,hb,hiff⟩ := h s y hs'
        obtain ⟨b',hb',hiff'⟩ := ih hs' b hb hiff
        refine ⟨b',by simpa [bind,Except.bind,hx,hc] using hb',?_⟩
        simp [hiff',hnot,(hgo x).mp hc]
      · refine ⟨false,by simp [bind,Except.bind,hc],?_⟩
        have hmiss : ¬ P x := fun hp => hc ((hgo x).mpr hp)
        simp [hnot,hmiss]

theorem matchstar_decides (h : Decides here L) (c : Byte) :
    Decides (matchstar here c) ((letters (Hits c))∗*L) := by
  apply scanWhile_decides h
  intro x
  rw [Hits,decide_eq_true_iff,or_comm,eq_comm (a := x)]

theorem one_decides (h : Decides here L) {f : List Byte → Except Fault Bool} {c : Byte}
    (hf : ∀ x t, f (x::t) = if x ≠ nul ∧ (c = dot ∨ c = x) then here t else .ok false) :
    Decides f (letters (Hits c)*L) := by
  intro s y hs
  rw [mem_letters_mul]
  cases s with
  | nil => exact ⟨false,by simp [hf],by simp⟩
  | cons x s =>
    have hx : x ≠ nul := fun hx => hs (by simp [hx])
    rw [List.cons_append,hf]
    by_cases hc : c = dot ∨ c = x
    · obtain ⟨b,hb,hiff⟩ := h s y fun hn => hs (List.mem_cons_of_mem x hn)
      refine ⟨b,by simpa [hx,hc] using hb,?_⟩
      simp [hiff,Hits,hc]
    · exact ⟨false,by simp [hc],by simp [Hits,hc]⟩

theorem beginning_nil (atEnd : Bool) : beginning [] atEnd = beside atEnd := by
  simp [beginning]

theorem beginning_cons (i : Item) (items : List Item) (atEnd : Bool) :
    beginning (i::items) atEnd = i.language*beginning items atEnd := by
  simp [beginning,mul_assoc]

theorem matchhere_nul (x t : List Byte) : matchhere (nul::x) t = .ok true := by
  cases x with
  | nil => rfl
  | cons d x => simp [matchhere]

theorem matchhere_end : Decides (fun _ => .ok true) (beside false) := by
  intro s y _
  exact ⟨true,rfl,fun _ => trivial,fun _ => rfl⟩

/-- `matchhere` looks for the items of the pattern at the beginning of the text. -/
theorem matchhere_decides (re x : List Byte) (hre : nul ∉ re) :
    Decides (matchhere (re++nul::x)) (beginning (readItems re).1 (readItems re).2) := by
  induction re using readItems.induct with
  | case1 =>
    intro s y hs
    rw [List.nil_append,matchhere_nul,readItems,beginning_nil]
    exact matchhere_end s y hs
  | case2 =>
    intro s y hs
    rw [readItems,if_pos rfl,beginning_nil]
    refine ⟨decide (s = []),?_,by simp [beside,Language.mem_one]⟩
    cases s with
    | nil => rfl
    | cons z s =>
      have hz : z ≠ nul := fun hz => hs (by simp [hz])
      have hval : matchhere ([dollar]++nul::x) (z::s++nul::y) = .ok (decide (z = nul)) := rfl
      rw [hval,decide_eq_false hz,decide_eq_false (List.cons_ne_nil z s)]
  | case3 c hc =>
    have hcn : c ≠ nul := fun h => hre (by simp [h])
    rw [readItems,if_neg hc,beginning_cons,beginning_nil]
    apply one_decides matchhere_end
    intro z t
    simp only [List.cons_append,List.nil_append,matchhere,if_neg hcn]
    rw [if_neg (by decide),if_neg (fun h => hc h.1),matchhere_nul]
  | case4 c re ih =>
    have hcn : c ≠ nul := fun h => hre (by simp [h])
    rw [readItems,if_pos rfl,beginning_cons]
    intro s y hs
    simp only [List.cons_append,matchhere,if_neg hcn,if_pos]
    exact matchstar_decides (ih fun h => hre (by simp [h])) c s y hs
  | case5 c d re hd ih =>
    have hcn : c ≠ nul := fun h => hre (by simp [h])
    have hdn : d ≠ nul := fun h => hre (by simp [h])
    rw [readItems,if_neg hd,beginning_cons]
    apply one_decides (ih fun h => hre (List.mem_cons_of_mem c h))
    intro z t
    simp only [List.cons_append,matchhere,if_neg hcn,if_neg hd]
    rw [if_neg (fun h => hdn h.2)]

theorem search_decides (h : Decides here L) :
    Decides (scanWhile here fun _ => true) (beside false*L) := by
  rw [show beside false = ⊤ from rfl,← any_repeated]
  exact scanWhile_decides h fun _ => by simp

theorem matchText_decides (re x : List Byte) (hre : nul ∉ re) :
    Decides (matchText (re++nul::x)) (readPattern re).language := by
  cases re with
  | nil => exact search_decides (matchhere_decides [] x hre)
  | cons c re =>
    by_cases hc : c = hat
    · have hlang : (readPattern (c::re)).language =
          beginning (readItems re).1 (readItems re).2 := by
        simp [readPattern,hc,Pattern.language,beside]
      intro s y hs
      rw [List.cons_append,matchText,if_pos hc,hlang]
      exact matchhere_decides re x (fun h => hre (List.mem_cons_of_mem c h)) s y hs
    · have hlang : (readPattern (c::re)).language =
          beside false*beginning (readItems (c::re)).1 (readItems (c::re)).2 := by
        simp [readPattern,hc,Pattern.language]
      intro s y hs
      rw [List.cons_append,matchText,if_neg hc,hlang]
      exact search_decides (matchhere_decides (c::re) x hre) s y hs

/-- On strings, `match` stays inside its arrays and returns whether the text belongs
to the language of the pattern. The pattern is read without loss. -/
theorem matchText_language (re t : List Byte) (hre : nul ∈ re) (ht : nul ∈ t) :
    (∃ b, matchText re t = .ok b ∧ (b = true ↔ text t ∈ (readPattern (text re)).language)) ∧
    (readPattern (text re)).render = text re := by
  obtain ⟨r,x,rfl,hr⟩ := List.eq_append_cons_of_mem hre
  obtain ⟨s,y,rfl,hs⟩ := List.eq_append_cons_of_mem ht
  rw [text_append_nul hr,text_append_nul hs]
  exact ⟨matchText_decides r x hr s y hs,render_readPattern r⟩

theorem matchText_language_repetition :
    [0x61,0x61] ∈ (readPattern [hat,0x61,star,dollar]).language := by
  obtain ⟨⟨b,hb,hiff⟩,-⟩ := matchText_language [hat,0x61,star,dollar,nul] [0x61,0x61,nul]
    (by decide) (by decide)
  have htrue : matchText [hat,0x61,star,dollar,nul] [0x61,0x61,nul] = .ok true := by decide
  rw [htrue] at hb
  exact hiff.mp (Except.ok.inj hb).symm

end Correctness

end ListlibSyscalls.GrepMatcher
